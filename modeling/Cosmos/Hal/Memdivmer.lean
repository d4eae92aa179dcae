import Cosmos.Hal.Memarea

/-!
# Division and merging of pages

The page allocator proper, `memdivmer.c`.  An allocation takes the first block
of the smallest list that holds blocks large enough and, when the block is too
large, halves it until it fits, filing the upper halves on the lists below.  A
free joins the block with a free neighbour of the same size as long as there is
one and files the result.

A function that returns a pointer or a `bool_t` returns an `Option` here, `none`
for `NULL` or `FALSE`; where such a call may already have written to memory the
result carries the memory as well.  `af_alcindx` and `af_freindx`, counters that
nothing reads, are left out, as are the locks.
-/

namespace Cosmos.Hal

open Cosmos.Lib.Word64

/-- `memmgrob_t`, together with the memory `mo_mareastat` and `mo_msadscstat`
point to. -/
@[ext]
structure Memgrob where
  moMaxpages : Nat
  moAlocpages : Nat
  moFreepages : Nat
  moMsanr : Nat
  moMareanr : Nat
  mem : Mem

/-- `DMF_RELDIV`. -/
abbrev dmfReldiv : Nat := 0

/-- `DMF_MAXDIV`. -/
abbrev dmfMaxdiv : Nat := 1

/-- The loop of `init_memmgrob` that counts the pages reserved at boot. -/
def countReserved (d : MsaArr) (msanr : Nat) : Nat :=
  (List.range msanr).countP fun i =>
    (d i).mfUindx = 1 && (d i).mfMocty = .krnl && (d i).pafAlloc

/-- `init_memmgrob`. -/
def initMemmgrob (x : Mem) (msanr : Nat) : Memgrob :=
  let aidx := countReserved x.msadscstat msanr
  { moMaxpages := msanr
    moAlocpages := aidx
    moFreepages := sub64 msanr aidx
    moMsanr := msanr
    moMareanr := memareaMax
    mem := x }

/-- `mm_update_memmgrob`. -/
def mmUpdateMemmgrob (mm : Memgrob) (realpnr flgs : Nat) : Memgrob :=
  if flgs = 0 then
    { mm with
      moAlocpages := add64 mm.moAlocpages realpnr
      moFreepages := sub64 mm.moFreepages realpnr }
  else if flgs = 1 then
    { mm with
      moAlocpages := sub64 mm.moAlocpages realpnr
      moFreepages := add64 mm.moFreepages realpnr }
  else mm

/-- `mm_update_memarea`. -/
def mmUpdateMemarea (m : Memarea) (pgnr flgs : Nat) : Memarea :=
  if flgs = 0 then
    { m with
      maFreepages := sub64 m.maFreepages pgnr
      maAllocpages := add64 m.maAllocpages pgnr }
  else if flgs = 1 then
    { m with
      maFreepages := add64 m.maFreepages pgnr
      maAllocpages := sub64 m.maAllocpages pgnr }
  else m

/-- Both updates, as every caller makes them. -/
def Memgrob.updatePages (mm : Memgrob) (a pgnr flgs : Nat) : Memgrob :=
  mmUpdateMemmgrob
    { mm with mem := mm.mem.setMarea a (fun m => mmUpdateMemarea m pgnr flgs) } pgnr flgs

/-- `search_64rlbits`: one more than the index of the highest bit set. -/
def search64rlbits (val : Nat) : Nat := if val = 0 then 0 else Nat.log2 val + 1

/-- `retn_divoder`, for at least one page. -/
def retnDivoder (pages : Nat) : Nat :=
  let pbits := search64rlbits pages - 1
  if pages &&& (pages - 1) ≠ 0 then pbits + 1 else pbits

/-- `(uint_t)(mend - mstat) + 1`. -/
def msaSpan (mstat mend : Nat) : Nat := add64 (sub64 mend mstat) 1

/-- `onfrmsa_retn_fpagenr`. -/
def onfrmsaRetnFpagenr (x : Mem) (freemsa : Nat) : Except String Nat :=
  match (x.msadscstat freemsa).mdOdlink with
  | .null => .ok 0
  | .bafh _ => .error wildPointer
  | .msa fmend => .ok (if fmend < freemsa then 0 else msaSpan freemsa fmend)

/-- First area of a given type. -/
def findMarea (mm : Memgrob) (mrtype : Nat) : Option Nat :=
  (List.range mm.moMareanr).find? fun mi => (mm.mem.mareastat mi).maType.code = mrtype

/-- `onfrmsa_retn_marea`. -/
def onfrmsaRetnMarea (mm : Memgrob) (freemsa freepgs : Nat) : Except String (Option Nat) :=
  let msa := mm.mem.msadscstat freemsa
  if msa.mfOlkty ≠ .oder ∨ msa.mdOdlink = .null then .ok none
  else
    match msa.mdOdlink.toMsa with
    | none => .error wildPointer
    | some fmend =>
        if msaSpan freemsa fmend ≠ freepgs then .ok none
        else if msa.mfMarty ≠ (mm.mem.msadscstat fmend).mfMarty then .ok none
        else .ok (findMarea mm msa.mfMarty.code)

/-- `onmrtype_retn_marea`. -/
def onmrtypeRetnMarea (mm : Memgrob) (mrtype : Nat) : Option Nat := findMarea mm mrtype

/-- `onma_retn_maxbafhlst`: the highest list that is not empty. -/
def onmaRetnMaxbafhlst (x : Mem) (a : Nat) : Option Nat :=
  (List.range mdivmerArrLmax).reverse.find? fun li => 0 < (x.bafh (.lie a li)).afFobjnr

/-! ## Division -/

/-- `mm_divpages_opmsadsc`: mark a block as handed out. -/
def mmDivpagesOpmsadsc (x : Mem) (msastat mnr : Nat) : Except String (Option Mem) :=
  let msa := x.msadscstat msastat
  if mnr = 0 then .ok none
  else if (msa.mfOlkty ≠ .oder ∧ msa.mfOlkty ≠ .bafh) ∨ msa.mdOdlink = .null ∨
      msa.pafAlloc then
    .error "mm_divpages_opmsadsc err1\n"
  else
    match (if msa.mfOlkty = .bafh then some msastat else msa.mdOdlink.toMsa) with
    | none => .error wildPointer
    | some mend =>
        if mend < msastat then .error "mm_divpages_opmsadsc err2\n"
        else if msaSpan msastat mend ≠ mnr then .error "mm_divpages_opmsadsc err3\n"
        else if mfUindxMax - 1 < msa.mfUindx ∨
            mfUindxMax - 1 < (x.msadscstat mend).mfUindx ∨
            msa.mfUindx ≠ (x.msadscstat mend).mfUindx then
          .error "mm_divpages_opmsadsc err4"
        else
          let x := x.setMsa msastat (fun m =>
            { m with mfUindx := m.mfUindx + 1, pafAlloc := true })
          let x :=
            if mend = msastat then x
            else x.setMsa mend (fun m =>
              { m with mfUindx := m.mfUindx + 1, pafAlloc := true })
          .ok (some (x.setMsa msastat (fun m =>
            { m with mfOlkty := .oder, mdOdlink := .msa mend })))

/-- `onmpgs_retn_bafhlst`: the list the request asks for and the list to take
a block from. -/
def onmpgsRetnBafhlst (x : Mem) (a pages : Nat) : Option (Nat × Nat) :=
  if pages < 1 then none
  else
    let dividx := retnDivoder pages
    if mdivmerArrLmax ≤ dividx then none
    else if (x.bafh (.lie a dividx)).afOderpnr < pages then none
    else
      ((List.range' dividx (mdivmerArrLmax - dividx)).find? fun idx =>
        pages ≤ (x.bafh (.lie a idx)).afOderpnr && 0 < (x.bafh (.lie a idx)).afFobjnr).map
        fun idx => (dividx, idx)

/-- `onfpgs_retn_bafhlst`: the list a freed block belongs to and the list
merging stops at. -/
def onfpgsRetnBafhlst (x : Mem) (a freepgs : Nat) : Except String (Option (Nat × Nat)) :=
  if freepgs < 1 then .ok none
  else
    let dividx := retnDivoder freepgs
    if mdivmerArrLmax ≤ dividx then .ok none
    else
      let b := x.bafh (.lie a dividx)
      if wordMod - 1 ≤ b.afMobjnr then .error "onfpgs_retn_bafhlst af_mobjnr max"
      else if wordMod - 1 ≤ b.afFobjnr then .error "onfpgs_retn_bafhlst af_fobjnr max"
      else if freepgs ≠ b.afOderpnr then .ok none
      else .ok (some (dividx, mdivmerArrLmax - 1))

/-- `mm_retnmsaob_onbafhlst`: unlink the first block of a list.  The result
carries its first descriptor and the pointer to its last one. -/
def mmRetnmsaobOnbafhlst (x : Mem) (p : BafhPtr) : Option (Mem × Nat × Odlink) :=
  let bafhp := x.bafh p
  if bafhp.afMobjnr < 1 ∨ bafhp.afFobjnr < 1 then none
  else
    match bafhp.afFrelst with
    | [] => none
    | tmp :: _ =>
        let msa := x.msadscstat tmp
        some (x.setBafh p (bafhp.delObj tmp), tmp,
          if msa.mfOlkty = .bafh then .msa tmp else msa.mdOdlink)

/-- `scan_mapgsalloc_ok`. -/
def scanMapgsallocOk (m : Memarea) (pages : Nat) : Bool :=
  1 ≤ pages && pages ≤ m.maFreepages && pages ≤ m.maMaxpages

/-- What the division of an area returns: the memory, and the block with its
page count unless it is `NULL`. -/
abbrev DivRes := Mem × Option (Nat × Nat)

/-- Hand out the unlinked block as it is; `relnr` is the count reported. -/
def takeBlock (x : Mem) (retmstat mnr relnr : Nat) : Except String DivRes :=
  match mmDivpagesOpmsadsc x retmstat mnr with
  | .error e => .error e
  | .ok none => .ok (x, none)
  | .ok (some x') => .ok (x', some (retmstat, relnr))

/-- `mm_maxdivpages_onmarea`. -/
def mmMaxdivpagesOnmarea (x : Mem) (a : Nat) : Except String DivRes :=
  match onmaRetnMaxbafhlst x a with
  | none => .ok (x, none)
  | some li =>
      match mmRetnmsaobOnbafhlst x (.lie a li) with
      | none => .ok (x, none)
      | some (x', retmstat, retmend) =>
          if retmend = .null then .ok (x', none)
          else
            let oderpnr := (x.bafh (.lie a li)).afOderpnr
            takeBlock x' retmstat oderpnr oderpnr

/-- `mrdmb_add_msa_bafh`: file an upper half; `none` is `FALSE`. -/
def mrdmbAddMsaBafh (x : Mem) (p : BafhPtr) (msastat msaend : Nat) : Option Mem :=
  let bafhp := x.bafh p
  let ms := x.msadscstat msastat
  let me := x.msadscstat msaend
  let mnr := msaSpan msastat msaend
  if mnr ≠ bafhp.afOderpnr then none
  else if 0 < ms.mfUindx ∨ 0 < me.mfUindx then none
  else if ms.pafAlloc ∨ me.pafAlloc then none
  else if msastat = msaend ∧ mnr ≠ 1 ∧ bafhp.afOderpnr ≠ 1 then none
  else some ((x.tagBlock p msastat msaend).setBafh p (bafhp.addObj msastat))

/-- Loop of `mm_reldpgsdivmsa_bafhl`, `tmpbfl` running down from list
`relbfl + n - 1` to list `relbfl`; `divnr` is the size left. -/
def divmsaLoop (a relbfl retmstat : Nat) : Nat → Mem → Nat → Except String (Mem × Nat)
  | 0, x, divnr => .ok (x, divnr)
  | n + 1, x, divnr =>
      let p := BafhPtr.lie a (relbfl + n)
      let oderpnr := (x.bafh p).afOderpnr
      match (x.msadscstat retmstat).mdOdlink with
      | .bafh _ => .error wildPointer
      | .null => .error "mrdmb_add_msa_bafh fail\n"
      | .msa e =>
          match mrdmbAddMsaBafh x p (retmstat + oderpnr) e with
          | none => .error "mrdmb_add_msa_bafh fail\n"
          | some x' =>
              divmsaLoop a relbfl retmstat n
                (x'.setMsa retmstat (fun m =>
                  { m with mdOdlink := .msa (retmstat + (oderpnr - 1)) }))
                (sub64 divnr oderpnr)

/-- `mm_reldpgsdivmsa_bafhl`. -/
def mmReldpgsdivmsaBafhl (x : Mem) (a pages relbfl divbfl : Nat) : Except String DivRes :=
  if pages < 1 then .ok (x, none)
  else if divbfl < relbfl then .ok (x, none)
  else
    let oderpnr := (x.bafh (.lie a divbfl)).afOderpnr
    let relnr := (x.bafh (.lie a relbfl)).afOderpnr
    match mmRetnmsaobOnbafhlst x (.lie a divbfl) with
    | none => .ok (x, none)
    | some (x', retmstat, retmend) =>
        if retmend = .null then .ok (x', none)
        else
          match retmend.toMsa with
          | none => .error wildPointer
          | some e =>
              if msaSpan retmstat e ≠ oderpnr then .ok (x', none)
              else if relbfl = divbfl then takeBlock x' retmstat oderpnr oderpnr
              else
                match divmsaLoop a relbfl retmstat (divbfl - relbfl) x' oderpnr with
                | .error err => .error err
                | .ok (x'', divnr) => takeBlock x'' retmstat divnr relnr

/-- `mm_reldivpages_onmarea`. -/
def mmReldivpagesOnmarea (x : Mem) (a pages : Nat) : Except String DivRes :=
  if pages < 1 then .ok (x, none)
  else if !scanMapgsallocOk (x.mareastat a) pages then .ok (x, none)
  else
    match onmpgsRetnBafhlst x a pages with
    | none => .ok (x, none)
    | some (relbfl, divbfl) => mmReldpgsdivmsaBafhl x a pages relbfl divbfl

/-- `mm_prcdivpages_onmarea`. -/
def mmPrcdivpagesOnmarea (x : Mem) (a pages : Nat) : Except String DivRes :=
  if pages ≠ 1 then .ok (x, none)
  else if (x.mareastat a).maType ≠ .proc then .ok (x, none)
  else if !scanMapgsallocOk (x.mareastat a) pages then .ok (x, none)
  else
    let oderpnr := (x.bafh (.one a)).afOderpnr
    match mmRetnmsaobOnbafhlst x (.one a) with
    | none => .ok (x, none)
    | some (x', retmstat, retmend) =>
        if retmend = .null then .ok (x', none)
        else
          match retmend.toMsa with
          | none => .error wildPointer
          | some e =>
              if msaSpan retmstat e ≠ oderpnr then .ok (x', none)
              else takeBlock x' retmstat oderpnr oderpnr

/-- The result of an allocation call: the block and its page count, unless
it is `NULL`. -/
abbrev PageRes := Memgrob × Option (Nat × Nat)

/-- `ret_step` of `mm_divpages_core` and the same steps of
`divpages_procmarea_core`. -/
def Memgrob.countDiv (mm : Memgrob) (a : Nat) (r : DivRes) : PageRes :=
  match r with
  | (x, none) => ({ mm with mem := x }, none)
  | (x, some (msa, pnr)) =>
      (if pnr ≠ 0 then { mm with mem := x }.updatePages a pnr 0 else { mm with mem := x },
        some (msa, pnr))

/-- `mm_divpages_core`. -/
def mmDivpagesCore (mm : Memgrob) (a pages flgs : Nat) : Except String PageRes :=
  let ty := (mm.mem.mareastat a).maType
  if flgs ≠ dmfReldiv ∧ flgs ≠ dmfMaxdiv then .ok (mm, none)
  else if ty ≠ .krnl ∧ ty ≠ .hwad then .ok (mm, none)
  else
    match (if flgs = dmfMaxdiv then mmMaxdivpagesOnmarea mm.mem a
        else mmReldivpagesOnmarea mm.mem a pages) with
    | .error e => .error e
    | .ok r => .ok (mm.countDiv a r)

/-- `mm_divpages_fmwk`. -/
def mmDivpagesFmwk (mm : Memgrob) (pages mrtype flgs : Nat) : Except String PageRes :=
  match onmrtypeRetnMarea mm mrtype with
  | none => .ok (mm, none)
  | some a => mmDivpagesCore mm a pages flgs

/-- `mm_division_pages`. -/
def mmDivisionPages (mm : Memgrob) (pages mrtype flgs : Nat) : Except String PageRes :=
  if mrtype = 0 then .ok (mm, none) else mmDivpagesFmwk mm pages mrtype flgs

/-- `retn_procmarea`. -/
def retnProcmarea (mm : Memgrob) : Option Nat := findMarea mm MaType.proc.code

/-- `divpages_procmarea_core`. -/
def divpagesProcmareaCore (mm : Memgrob) (pages : Nat) : Except String PageRes :=
  if pages ≠ 1 then .ok (mm, none)
  else
    match retnProcmarea mm with
    | none => .ok (mm, none)
    | some a =>
        if !scanMapgsallocOk (mm.mem.mareastat a) pages then .ok (mm, none)
        else
          match mmPrcdivpagesOnmarea mm.mem a pages with
          | .error e => .error e
          | .ok (x, some (msa, pnr)) =>
              if pnr ≠ 0 then .ok (mm.countDiv a (x, some (msa, pnr)))
              else .ok ({ mm with mem := x }, none)
          | .ok (x, none) => .ok ({ mm with mem := x }, none)

/-- `mm_divpages_procmarea`: a page of the process area or, when there is
none, of the kernel area. -/
def mmDivpagesProcmarea (mm : Memgrob) (pages : Nat) : Except String PageRes :=
  if pages ≠ 1 then .ok (mm, none)
  else
    match divpagesProcmareaCore mm pages with
    | .error e => .error e
    | .ok (mm', some r) => .ok (mm', some r)
    | .ok (mm', none) => mmDivisionPages mm' pages MaType.krnl.code dmfReldiv

/-! ## Merging -/

/-- `mm_merpages_opmsadsc`: take a block back; the number is the one the code
returns, 2 when nobody shares the block any more. -/
def mmMerpagesOpmsadsc (x : Mem) (p : BafhPtr) (freemsa freepgs : Nat) :
    Except String (Nat × Mem) :=
  let msa := x.msadscstat freemsa
  if freepgs < 1 then .ok (0, x)
  else if msa.mfOlkty ≠ .oder ∨ msa.mdOdlink = .null then
    .error "mm_merpages_opmsadsc err1\n"
  else
    match msa.mdOdlink.toMsa with
    | none => .error wildPointer
    | some fmend =>
        let end_ := x.msadscstat fmend
        if fmend < freemsa then .error "mm_merpages_opmsadsc err2\n"
        else if (x.bafh p).afOderpnr ≠ freepgs ∨ msaSpan freemsa fmend ≠ freepgs then
          .error "mm_merpages_opmsadsc err3\n"
        else if !msa.pafAlloc ∨ msa.mfUindx < 1 then
          .error "mm_merpages_opmsadsc err4\n"
        else if !end_.pafAlloc ∨ end_.mfUindx < 1 then
          .error "mm_merpages_opmsadsc err5\n"
        else if msa.mfUindx ≠ end_.mfUindx then
          .error "mm_merpages_opmsadsc err6\n"
        else
          let dec (m : Msadsc) : Msadsc := { m with mfUindx := m.mfUindx - 1 }
          let clr (m : Msadsc) : Msadsc := { m with pafAlloc := false }
          let x := x.setMsa freemsa dec
          let x := if freemsa = fmend then x else x.setMsa fmend dec
          if 0 < (x.msadscstat freemsa).mfUindx then .ok (1, x)
          else .ok (2, ((x.setMsa freemsa clr).setMsa fmend clr).tagBlock p freemsa fmend)

/-- `scan_freemsa_isok`. -/
def scanFreemsaIsok (x : Mem) (freemsa freepgs : Nat) : Except String Bool :=
  let msa := x.msadscstat freemsa
  if freepgs < 1 then .ok false
  else if msa.mfOlkty ≠ .oder ∨ msa.mdOdlink = .null ∨ msa.mfUindx < 1 then .ok false
  else
    match msa.mdOdlink.toMsa with
    | none => .error wildPointer
    | some e =>
        let end_ := x.msadscstat e
        if !msa.pafAlloc ∨ !end_.pafAlloc ∨ end_.mfUindx < 1 then .ok false
        else .ok (msaSpan freemsa e = freepgs)

/-- `mm_cmsa1blk_isok`: the block is a free block of list `p`. -/
def mmCmsa1blkIsok (x : Mem) (p : BafhPtr) (ms me : Nat) : Nat :=
  let s := x.msadscstat ms
  let e := x.msadscstat me
  if me < ms then 0
  else if ms = me then
    if e.mfOlkty ≠ .bafh then 0
    else if e.mdOdlink ≠ .bafh p then 0
    else if e.pafAlloc then 0
    else if e.mfUindx ≠ 0 then 0
    else if sub64 e.pafPadrs s.pafPadrs ≠ sub64 me ms then 0
    else 2
  else if s.mfOlkty ≠ .oder then 0
  else if s.mdOdlink ≠ .msa me then 0
  else if s.pafAlloc then 0
  else if s.mfUindx ≠ 0 then 0
  else if e.mfOlkty ≠ .bafh then 0
  else if e.mdOdlink ≠ .bafh p then 0
  else if e.pafAlloc then 0
  else if e.mfUindx ≠ 0 then 0
  else if sub64 e.pafPadrs s.pafPadrs ≠ sub64 me ms then 0
  else 2

/-- `mm_cmsa2blk_isok`: 2 if the second block continues the first, 4 if the
first continues the second. -/
def mmCmsa2blkIsok (x : Mem) (p : BafhPtr) (ms1 me1 ms2 me2 : Nat) : Except String Nat :=
  let d := x.msadscstat
  if ms1 = ms2 ∨ me1 = me2 then .ok 0
  else if mmCmsa1blkIsok x p ms1 me1 = 0 then .error "mm_cmsa1blk_isok ret1s == 0\n"
  else if mmCmsa1blkIsok x p ms2 me2 = 0 then .error "mm_cmsa1blk_isok ret2s == 0\n"
  else if ms1 < ms2 ∧ me1 < me2 then
    if me1 + 1 ≠ ms2 then .ok 1
    else if (d me1).pafPadrs + 1 ≠ (d ms2).pafPadrs then .ok 1
    else .ok 2
  else if ms2 < ms1 ∧ me2 < me1 then
    if me2 + 1 ≠ ms1 then .ok 1
    else if (d me2).pafPadrs + 1 ≠ (d ms1).pafPadrs then .ok 1
    else .ok 4
  else .ok 0

/-- `mm_clear_2msaolflg`: tag two neighbours as one block of list `p`;
`none` is `FALSE`. -/
def mmClear2msaolflg (x : Mem) (p : BafhPtr) (ms1 me1 ms2 me2 : Nat) : Option Mem :=
  if ms1 = ms2 ∨ me1 = me2 then none
  else
    let clr (m : Msadsc) : Msadsc := { m with mfOlkty := .init, mdOdlink := .null }
    some (((x.setMsa me1 clr).setMsa ms2 clr).tagBlock p ms1 me2)

/-- `chek_cl2molkflg`. -/
def chekCl2molkflg (x : Mem) (p : BafhPtr) (ms1 me1 ms2 me2 : Nat) : Bool :=
  let d := x.msadscstat
  if ms1 = ms2 ∨ me1 = me2 then false
  else if msaSpan ms1 me2 ≠ (x.bafh p).afOderpnr then false
  else if (d ms1).mfOlkty ≠ .oder ∨ (d ms1).mdOdlink ≠ .msa me2 then false
  else if ms1 = me1 ∧ ms2 = me2 then
    (d me2).mfOlkty = .bafh && (d me2).mdOdlink = .bafh p
  else if (d me1).mfOlkty ≠ .init ∨ (d me1).mdOdlink ≠ .null then false
  else if (d ms2).mfOlkty ≠ .init ∨ (d ms2).mdOdlink ≠ .null then false
  else (d me2).mfOlkty = .bafh && (d me2).mdOdlink = .bafh p

/-- Loop of `mm_find_cmsa2blk`: the first block of the list that touches the
block `ms`, `me`, with the answer of `mm_cmsa2blk_isok`; `none` if there is
none. -/
def findCmsa2Loop (x : Mem) (p : BafhPtr) (oderpnr ms me : Nat) :
    List Nat → Except String (Option (Nat × Nat))
  | [] => .ok none
  | tmpmsa :: l =>
      match mmCmsa2blkIsok x p ms me tmpmsa (tmpmsa + (oderpnr - 1)) with
      | .error e => .error e
      | .ok rets =>
          if rets = 2 ∨ rets = 4 then .ok (some (tmpmsa, rets))
          else findCmsa2Loop x p oderpnr ms me l

/-- `mm_find_cmsa2blk` on list `k` of area `a`: 1 when no block of the list
touches the block `ms`, `me`; 2 with the joined block; 0 is a failure. -/
def mmFindCmsa2blk (x : Mem) (a k ms me : Nat) : Except String (Nat × Mem × Nat × Nat) :=
  let p := BafhPtr.lie a k
  let fbafh := x.bafh p
  let up := BafhPtr.lie a (k + 1)
  if fbafh.afFobjnr < 1 then .ok (1, x, ms, me)
  else
    match findCmsa2Loop x p fbafh.afOderpnr ms me fbafh.afFrelst with
    | .error e => .error e
    | .ok none => .ok (1, x, ms, me)
    | .ok (some (blkms, rets)) =>
        let blkme := blkms + (fbafh.afOderpnr - 1)
        let x := x.setBafh p (fbafh.delObj blkms)
        if rets = 2 then
          match mmClear2msaolflg x up ms me blkms blkme with
          | none => .ok (0, x, ms, me)
          | some x =>
              if chekCl2molkflg x up ms me blkms blkme then .ok (2, x, ms, blkme)
              else .error "chek_cl2molkflg err1\n"
        else
          match mmClear2msaolflg x up blkms blkme ms me with
          | none => .ok (0, x, ms, me)
          | some x =>
              if chekCl2molkflg x up blkms blkme ms me then .ok (2, x, blkms, me)
              else .error "chek_cl2molkflg err2\n"

/-- `mpobf_add_msadsc`: file a free block; `none` is `FALSE`. -/
def mpobfAddMsadsc (x : Mem) (p : BafhPtr) (freemstat freemend : Nat) :
    Except String (Option Mem) :=
  let bafhp := x.bafh p
  if freemend < freemstat then .ok none
  else if bafhp.afOderpnr ≠ msaSpan freemstat freemend then .ok none
  else if wordMod - 1 ≤ bafhp.afFobjnr ∨ wordMod - 1 ≤ bafhp.afMobjnr then
    .error "(~0UL)<=bafhp->af_fobjnr\n"
  else
    .ok (some ((x.tagBlock p freemstat freemend).setBafh p (bafhp.addObj freemstat)))

/-- Loop of `mm_merpages_onbafhlst`, `n` lists below `merbf` left; the result
is the list and the block to file. -/
def mergeLoop (a : Nat) : Nat → Mem → Nat → Nat → Nat →
    Except String (Mem × Nat × Nat × Nat)
  | 0, x, tmpbf, mnxs, mnxe => .ok (x, tmpbf, mnxs, mnxe)
  | n + 1, x, tmpbf, mnxs, mnxe =>
      match mmFindCmsa2blk x a tmpbf mnxs mnxe with
      | .error e => .error e
      | .ok (rets, x', mnxs', mnxe') =>
          if rets = 1 then .ok (x', tmpbf, mnxs', mnxe')
          else if rets = 0 then .error "mm_find_cmsa2blk retn 0\n"
          else mergeLoop a n x' (tmpbf + 1) mnxs' mnxe'

/-- `mm_merpages_onbafhlst`; the memory comes back also when the block could
not be filed. -/
def mmMerpagesOnbafhlst (x : Mem) (a freemsa freepgs relbf merbf : Nat) :
    Except String (Mem × Bool) :=
  match mergeLoop a (merbf - relbf) x relbf freemsa (freemsa + (freepgs - 1)) with
  | .error e => .error e
  | .ok (x', tmpbf, mnxs, mnxe) =>
      match mpobfAddMsadsc x' (.lie a tmpbf) mnxs mnxe with
      | .error e => .error e
      | .ok none => .ok (x', false)
      | .ok (some x'') => .ok (x'', true)

/-- `mm_merpages_onmarea`. -/
def mmMerpagesOnmarea (mm : Memgrob) (a freemsa freepgs : Nat) :
    Except String (Memgrob × Bool) :=
  if freepgs < 1 then .ok (mm, false)
  else if (mm.mem.mareastat a).maType = .proc then
    match mmMerpagesOpmsadsc mm.mem (.one a) freemsa freepgs with
    | .error e => .error e
    | .ok (pocs, x) =>
        if pocs = 2 then
          match mpobfAddMsadsc x (.one a) freemsa (freemsa + (freepgs - 1)) with
          | .error e => .error e
          | .ok none => .error "mm_merpages_onmarea proc memarea merge fail\n"
          | .ok (some x') => .ok ({ mm with mem := x' }.updatePages a freepgs 1, true)
        else .ok ({ mm with mem := x }, pocs = 1)
  else
    match onfpgsRetnBafhlst mm.mem a freepgs with
    | .error e => .error e
    | .ok none => .ok (mm, false)
    | .ok (some (relbf, merbf)) =>
        match mmMerpagesOpmsadsc mm.mem (.lie a relbf) freemsa freepgs with
        | .error e => .error e
        | .ok (mopms, x) =>
            if mopms = 2 then
              match mmMerpagesOnbafhlst x a freemsa freepgs relbf merbf with
              | .error e => .error e
              | .ok (x', true) => .ok ({ mm with mem := x' }.updatePages a freepgs 1, true)
              | .ok (x', false) => .ok ({ mm with mem := x' }, false)
            else .ok ({ mm with mem := x }, mopms = 1)

/-- `mm_merpages_core`. -/
def mmMerpagesCore (mm : Memgrob) (a freemsa freepgs : Nat) :
    Except String (Memgrob × Bool) :=
  if freepgs < 1 then .ok (mm, false)
  else
    match scanFreemsaIsok mm.mem freemsa freepgs with
    | .error e => .error e
    | .ok false => .ok (mm, false)
    | .ok true => mmMerpagesOnmarea mm a freemsa freepgs

/-- `mm_merpages_fmwk`. -/
def mmMerpagesFmwk (mm : Memgrob) (freemsa freepgs : Nat) : Except String (Memgrob × Bool) :=
  match onfrmsaRetnMarea mm freemsa freepgs with
  | .error e => .error e
  | .ok none => .ok (mm, false)
  | .ok (some a) => mmMerpagesCore mm a freemsa freepgs

/-- `mm_merge_pages`. -/
def mmMergePages (mm : Memgrob) (freemsa freepgs : Nat) : Except String (Memgrob × Bool) :=
  if freepgs < 1 then .ok (mm, false) else mmMerpagesFmwk mm freemsa freepgs

end Cosmos.Hal
