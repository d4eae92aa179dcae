import Cosmos.Hal.Halmm
import Cosmos.Hal.HalplatformFile
import Cosmos.Hal.Io
import Cosmos.Lib.StM

/-!
# The loader places kernel, font and memory map

`fs.c`, and the parts of `bstartparm.c` and `chkcpmm.c` that decide where things stand
in memory.  The loader is a 32-bit program: its pointers and its `sint_t` have 32 bits,
while `machbstart_t` holds 64-bit words.  `kerror` stops the machine.

Memory is a function of physical addresses.  `machbstart_t` itself stands apart: nothing
that the loader copies reaches it.  The checks of the processor, ACPI and the screen
change none of the fields and ranges here and are left out.
-/

namespace Cosmos.Initldr

open Cosmos.Lib.Bytes Cosmos.Lib.Word64 Cosmos.Hal Cosmos.Tools

/-- `LDRFILEADR`. -/
abbrev ldrfileadr : Nat := 0x4000000

/-- `IKSTACK_PHYADR`. -/
abbrev ikstackPhyadr : Nat := 0x90000 - 0x10

/-- `IKSTACK_SIZE`. -/
abbrev ikstackSize : Nat := 0x1000

/-- `IMGKRNL_PHYADR`. -/
abbrev imgkrnlPhyadr : Nat := 0x2000000

/-- `KINITPAGE_PHYADR`. -/
abbrev kinitpagePhyadr : Nat := 0x1000000

/-- `sizeof(e820map_t)`. -/
abbrev sizeofE820map : Nat := 20

/-- A cast to `u32_t`. -/
def u32 (x : Nat) : Nat := x % 2 ^ 32

/-- A cast to the `sint_t` of the loader. -/
def sint32 (x : Nat) : Int := if u32 x < 2 ^ 31 then u32 x else (u32 x : Int) - 2 ^ 32

/-- A cast of a `sint_t` to `u64_t`. -/
def u64OfSint (x : Int) : Nat := (x % 2 ^ 64).toNat

/-- `P4K_ALIGN`. -/
def p4kAlign (x : Nat) : Nat := add64 x 0xfff / 0x1000 * 0x1000

/-- The start parameters and the memory. -/
structure Ldr where
  mbsp : Machbstart
  mem : Nat → UInt8

/-- Code of the loader; an error stops the machine. -/
abbrev LdrM := StateT Ldr (Except String)

/-! ## Checks -/

/-- The entry of the memory map at the address `a`. -/
def e820At (f : Nat → UInt8) (a : Nat) : E820map where
  saddr := rd64 f a
  lsize := rd64 f (a + 8)
  type := leVal f (a + 16) 4

/-- The loop of `chk_memsize` from entry `i` on: the address of the entry. -/
def chkMemsizeLoop (f : Nat → UInt8) (e8p sadr len : Nat) : Nat → Nat → Option Nat
  | 0, _ => none
  | n + 1, i =>
      let e8 := e820At f (e8p + sizeofE820map * i)
      if e8.type = ramUsable ∧ e8.saddr ≤ sadr ∧ len < add64 e8.saddr e8.lsize then
        some (e8p + sizeofE820map * i)
      else chkMemsizeLoop f e8p sadr len n (i + 1)

/-- `chk_memsize`. -/
def chkMemsize (f : Nat → UInt8) (e8p enr sadr size : Nat) : Option Nat :=
  if enr = 0 ∨ e8p = 0 then none
  else chkMemsizeLoop f e8p sadr (add64 sadr size) enr 0

/-- `adrzone_is_ok`. -/
def adrzoneIsOk (sadr slen kadr klen : Nat) : Int :=
  if sadr ≤ kadr ∧ kadr ≤ add64 sadr slen then -1
  else if kadr ≤ sadr ∧ sadr ≤ add64 kadr klen then -2
  else 0

/-- `chkadr_is_ok`. -/
def chkadrIsOk (mbsp : Machbstart) (chkadr cksz : Nat) : Int :=
  if adrzoneIsOk (sub64 mbsp.mbKrlinitstack mbsp.mbKrlitstacksz) mbsp.mbKrlitstacksz
      chkadr cksz ≠ 0 then -1
  else if adrzoneIsOk mbsp.mbImgpadr mbsp.mbImgsz chkadr cksz ≠ 0 then -2
  else if adrzoneIsOk mbsp.mbKrlimgpadr mbsp.mbKrlsz chkadr cksz ≠ 0 then -3
  else if adrzoneIsOk mbsp.mbBfontpadr mbsp.mbBfontsz chkadr cksz ≠ 0 then -4
  else if adrzoneIsOk mbsp.mbE820padr mbsp.mbE820sz chkadr cksz ≠ 0 then -5
  else if adrzoneIsOk mbsp.mbMemznpadr mbsp.mbMemznsz chkadr cksz ≠ 0 then -6
  else if adrzoneIsOk mbsp.mbMemmappadr mbsp.mbMemmapsz chkadr cksz ≠ 0 then -7
  else 0

/-! ## The image -/

/-- `get_wt_imgfilesz`. -/
def getWtImgfilesz (s : Ldr) : Nat × Ldr :=
  let md := Mlosrddsc.rd s.mem (ldrfileadr + 0x1000)
  if Checked md then
    if md.mdcFilbkE < 0x4000 then (0, s)
    else
      let retsz := sub64 (add64 ldrfileadr md.mdcFilbkE) ldrfileadr
      (retsz, { s with mbsp := { s.mbsp with mbImgpadr := ldrfileadr, mbImgsz := retsz } })
  else (0, s)

/-- `move_krlimg`: moves the image away when it is in the way of `cpysz` bytes at
`cpyadr`. -/
def moveKrlimg (cpyadr cpysz : Nat) (s : Ldr) : Int × Ldr :=
  if 0xffffffff ≤ add64 cpyadr cpysz ∨ cpysz < 1 then (0, s)
  else
    let toadr := u32 (p4kAlign (add64 cpyadr cpysz))
    let tosz := sint32 s.mbsp.mbImgsz
    if adrzoneIsOk s.mbsp.mbImgpadr s.mbsp.mbImgsz cpyadr cpysz ≠ 0 then
      if chkMemsize s.mem (u32 s.mbsp.mbE820padr) (u32 s.mbsp.mbE820nr) toadr
          (u64OfSint tosz) = none then (-1, s)
      else
        (1, { mbsp := { s.mbsp with mbImgpadr := toadr }
              mem := (m2mcopy (2 ^ 32) (u32 s.mbsp.mbImgpadr) toadr tosz s.mem).1 })
    else (2, s)

/-- `get_fileinfo` of the loader: the address of the record. -/
def ldrGetFileinfo (fname : List UInt8) (s : Ldr) : Except String Nat :=
  let md := Mlosrddsc.rd s.mem (u32 (add64 s.mbsp.mbImgpadr mlosdscOff))
  if Checked md then
    match fileinfoLoop fname s.mem (u32 (u32 md.mdcFhdbkS + u32 s.mbsp.mbImgpadr)) md.mdcFhdnr 0 with
    | none => .error "not find file"
    | some fhdsc => .ok fhdsc
  else .error "no mrddsc"

/-- `get_file_rpadrandsz`: what it leaves in `*retadr` and in `*retsz`, which had the value
`retsz`. -/
def getFileRpadrandsz (fname : List UInt8) (s : Ldr) (retsz : Nat) :
    Except String (Nat × Nat) := do
  let fhdsc ← ldrGetFileinfo fname s
  let padr := add64 (Fhdsc.rd s.mem fhdsc).fhdIntsfsoff s.mbsp.mbImgpadr
  if 0xffffffff < padr then return (0, retsz)
  return (u32 padr, u32 (Fhdsc.rd s.mem fhdsc).fhdFrealsz)

/-- `r_file_to_padr`: what it returns and the memory it leaves. -/
def rFileToPadr (f2adr : Nat) (fnm : List UInt8) (s : Ldr) :
    Except String (Nat × (Nat → UInt8)) := do
  if f2adr = 0 then return (0, s.mem)
  let (fpadr, sz) ← getFileRpadrandsz fnm s 0
  if fpadr = 0 ∨ sz = 0 then return (0, s.mem)
  if chkMemsize s.mem (u32 s.mbsp.mbE820padr) (u32 s.mbsp.mbE820nr) f2adr sz = none then
    return (0, s.mem)
  if chkadrIsOk s.mbsp f2adr sz ≠ 0 then return (0, s.mem)
  return (sz, (m2mcopy (2 ^ 32) fpadr f2adr (sint32 sz) s.mem).1)

/-! ## Placing things -/

/-- `Cosmos.bin`. -/
def cosmosBin : List UInt8 := [67, 111, 115, 109, 111, 115, 46, 98, 105, 110]

/-- `font.fnt`. -/
def fontFnt : List UInt8 := [102, 111, 110, 116, 46, 102, 110, 116]

/-- `init_mem`, for the `retemnr` entries that `mmap` reports at `retemp`. -/
def initMem (retemp retemnr : Nat) : LdrM Unit := do
  if retemnr = 0 then throw "no e820map\n"
  if chkMemsize (← get).mem retemp retemnr 0x100000 0x8000000 = none then
    throw "Your computer is low on memory, the memory cannot be less than 128MB!"
  modify fun s => { s with
    mbsp := { s.mbsp with
      mbE820padr := retemp
      mbE820nr := retemnr
      mbE820sz := u32 (retemnr * sizeofE820map) } }

/-- `init_krlinitstack`. -/
def initKrlinitstack : LdrM Unit := do
  let (ret, s) := moveKrlimg (ikstackPhyadr - ikstackSize) ikstackSize (← get)
  if ret < 1 then throw "iks_moveimg err"
  set { s with
    mbsp := { s.mbsp with
      mbKrlinitstack := ikstackPhyadr
      mbKrlitstacksz := ikstackSize } }

/-- `init_krlfile`. -/
def initKrlfile : LdrM Unit := do
  let s ← get
  let (sz, mem) ← rFileToPadr imgkrnlPhyadr cosmosBin s
  if sz = 0 then throw "r_file_to_padr err"
  set {
    mem := mem
    mbsp := { s.mbsp with
      mbKrlimgpadr := imgkrnlPhyadr
      mbKrlsz := sz
      mbNextwtpadr := p4kAlign (add64 imgkrnlPhyadr sz)
      mbKalldendpadr := add64 imgkrnlPhyadr sz } : Ldr }

/-- `init_defutfont`. -/
def initDefutfont : LdrM Unit := do
  let s ← get
  let dfadr := u32 s.mbsp.mbNextwtpadr
  let (sz, mem) ← rFileToPadr dfadr fontFnt s
  if sz = 0 then throw "r_file_to_padr err"
  set {
    mem := mem
    mbsp := { s.mbsp with
      mbBfontpadr := dfadr
      mbBfontsz := sz
      mbNextwtpadr := p4kAlign (add64 dfadr sz)
      mbKalldendpadr := add64 dfadr sz } : Ldr }

/-- `init_meme820`. -/
def initMeme820 : LdrM Unit := do
  let semp := u32 (← get).mbsp.mbE820padr
  let senr := (← get).mbsp.mbE820nr
  let demp := u32 (← get).mbsp.mbNextwtpadr
  let cpysz := senr * sizeofE820map % 2 ^ 64
  let (ret, s) := moveKrlimg demp cpysz (← get)
  if ret < 1 then throw "move_krlimg err"
  set {
    mem := (m2mcopy (2 ^ 32) semp demp (sint32 cpysz) s.mem).1
    mbsp := { s.mbsp with
      mbE820padr := demp
      mbE820sz := cpysz
      mbNextwtpadr := u32 (u32 (u32 (demp + u32 cpysz) + 0xfff) / 0x1000 * 0x1000)
      mbKalldendpadr := add64 demp cpysz } : Ldr }

/-- The bytes of the 64-bit words that `init_bstartpages` stores: a page map of one table,
which maps the low half and the kernel's half to it, and 16 tables of large pages. -/
def startPages : List UInt8 :=
  let pdpte := kinitpagePhyadr + 0x1000
  let pml4 := (List.range 512).map fun mi => if mi = 256 ∨ mi = 0 then pdpte ||| 2 ||| 1 else 0
  let pdpt := (List.range 512).map fun pdei =>
    if pdei < 16 then (kinitpagePhyadr + 0x2000 + 0x1000 * pdei) ||| 2 ||| 1 else 0
  let pde := (List.range (16 * 512)).map fun i => (0x200000 * i) ||| 0x80 ||| 2 ||| 1
  wordBytes (pml4 ++ pdpt ++ pde)

/-- `init_bstartpages`. -/
def initBstartpages : LdrM Unit := do
  let (ret, s) := moveKrlimg kinitpagePhyadr (0x1000 * 16 + 0x2000) (← get)
  if ret < 1 then throw "move_krlimg err"
  set {
    mem := fun a =>
      if kinitpagePhyadr ≤ a ∧ a < kinitpagePhyadr + startPages.length then
        startPages.getD (a - kinitpagePhyadr) 0
      else s.mem a
    mbsp := { s.mbsp with
      mbPml4padr := kinitpagePhyadr
      mbSubpageslen := 0x1000 * 16 + 0x2000
      mbKpmapphymemsz := 0x400000000 } : Ldr }

/-- The steps of `init_bstartparm` that place things, for a memory map of `retemnr` entries
at `retemp`. -/
def initBstartparm (retemp retemnr : Nat) : LdrM Unit := do
  modify fun s => { s with mbsp := machbstartInit }
  initMem retemp retemnr
  let (retsz, s) := getWtImgfilesz (← get)
  if retsz = 0 then throw "imgfilesz 0"
  set s
  initKrlinitstack
  initKrlfile
  initDefutfont
  initMeme820
  initBstartpages

end Cosmos.Initldr
