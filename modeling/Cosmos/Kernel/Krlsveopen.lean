import Cosmos.Drivers.DrvrfsBufs
import Cosmos.Drivers.Drvuart
import Cosmos.Kernel.Krldevice
import Cosmos.Lib.Bytes

/-!
# Opening, writing and closing through handles

`krlsveopen.c`, `krlsvewrite.c` and `krlsveclose.c`, with the handle table of `krlthread.c`,
the object nodes of `krlobjnode.c` and the calls of the three drivers of `osdrvetytabl`.  An
error stops the kernel: it is a `hal_sysdie`, a copy over the end of a block, or a text that
`uart_write` cannot print.

A node stands at the address `krlnew` gave it.  The screen is left out, and so are the locks,
as one thread makes one call after the other.
-/

namespace Cosmos.Kernel

open Cosmos.Drivers (Filblk fsysAlcblksz rfsWritefileblk uartPrint)
open Cosmos.Drivers.Bufs (FsMem BufM)
open Cosmos.Lib.Word64 (wordMod)

/-- A handle, or a `sysstus_t`. -/
abbrev Hand := Int

/-- `NO_HAND`. -/
def noHand : Hand := -1

/-- `SYSSTUSERR`. -/
def sysstuserr : Hand := -1

/-- `SYSSTUSOK`. -/
def sysstusok : Hand := 0

/-- `TD_HAND_MAX`. -/
def tdHandMax : Nat := 8

/-- `FILE_TY_FILE`. -/
def fileTyFile : Nat := 0

/-- `FILE_TY_DEV`. -/
def fileTyDev : Nat := 1

/-- The type of a file in the flags, under `FILE_TY_MASK`. -/
def fileTy (flgs : Nat) : Nat := flgs % 16

/-- The access in the flags, above `RWO_FLG_BITS` and under `RWO_FLG_MASK`. -/
def rwoFlg (flgs : Nat) : Nat := flgs / 16 % 256

/-- `NF_FLG`: a new file. -/
def nfFlg : Nat := 4

/-- `FSDEV_OPENFLG_NEWFILE`. -/
def fsdevOpenflgNewfile : Nat := 1

/-- `FSDEV_OPENFLG_OPEFILE`. -/
def fsdevOpenflgOpefile : Nat := 2

/-- The codes `IOIF_CODE_*` of these calls. -/
inductive IoifCode where
  | ioOpen
  | ioClose
  | ioWrite
deriving DecidableEq, Repr

/-- `OBJN_TY_*`. -/
inductive ObjnTy where
  | nul
  | dev
  | fil
deriving DecidableEq, Repr

/-- What these calls read and set in an `objnode_t`.  No code is a negative one, and a
`finode` is the address of a buffer and what is in it. -/
structure Objnode where
  onOpercode : Option IoifCode
  onObjtype : ObjnTy
  onObjadr : Option Device
  onAcsflgs : Nat
  onLen : Nat
  onBuf : Option (Nat → UInt8)
  onBufsz : Nat
  onFname : Option (Nat → UInt8)
  onFinode : Option (Nat × Filblk)

/-- `objnode_t_init`. -/
def objnodeInit : Objnode where
  onOpercode := none
  onObjtype := .nul
  onObjadr := none
  onAcsflgs := 0
  onLen := 0
  onBuf := none
  onBufsz := 0
  onFname := none
  onFinode := none

/-- `sizeof(objnode_t)`. -/
def sizeofObjnode : Nat := 224

/-- The objects of `krlnew` and the device of the file system, the nodes by their address,
the handles of the thread, and `dev_count` by the address of a device. -/
structure SveSt where
  mem : FsMem
  node : Nat → Objnode
  tdHandtbl : Nat → Option Nat
  devCount : Nat → Nat

/-- Code of a system call. -/
abbrev SveM := StateT SveSt (Except String)

/-- Code that does not look at nodes and handles. -/
def onMem {α : Type} (x : BufM α) : SveM α := fun s =>
  (x.run s.mem).map fun r => (r.1, { s with mem := r.2 })

/-! ## Object nodes -/

/-- The node at an address. -/
def getNode (ondp : Nat) : SveM Objnode := do return (← get).node ondp

def setNode (ondp : Nat) (n : Objnode) : SveM Unit :=
  modify fun s => { s with node := Function.update s.node ondp n }

/-- `krlnew_objnode`. -/
def krlnewObjnode : SveM (Option Nat) := do
  match ← onMem (Drivers.Bufs.krlnew sizeofObjnode) with
  | none => return none
  | some ondp =>
      setNode ondp objnodeInit
      return some ondp

/-- `krldel_objnode`. -/
def krldelObjnode (onodep : Nat) : SveM Bool := do
  if ← onMem (Drivers.Bufs.krldelete onodep sizeofObjnode) then return true
  else throw "krldel_objnode err"

/-! ## Handles -/

/-- The loop of `krlthd_add_objnode`: the first handle that is free. -/
def nullHand (tdHandtbl : Nat → Option Nat) : Option Nat :=
  (List.range tdHandMax).find? fun hand => (tdHandtbl hand).isNone

/-- `krlthd_add_objnode`. -/
def krlthdAddObjnode (ondp : Nat) : SveM Hand := do
  let s ← get
  match nullHand s.tdHandtbl with
  | none => return noHand
  | some hand =>
      set { s with tdHandtbl := Function.update s.tdHandtbl hand (some ondp) }
      return hand

/-- `krlthd_del_objnode`. -/
def krlthdDelObjnode (hand : Hand) : SveM Hand := do
  let s ← get
  if (tdHandMax : Hand) ≤ hand ∨ hand ≤ noHand then return noHand
  else if (s.tdHandtbl hand.toNat).isNone then return noHand
  else
    set { s with tdHandtbl := Function.update s.tdHandtbl hand.toNat none }
    return hand

/-- `krlthd_retn_objnode`. -/
def krlthdRetnObjnode (hand : Hand) : SveM (Option Nat) := do
  if (tdHandMax : Hand) ≤ hand ∨ hand ≤ noHand then return none
  else return (← get).tdHandtbl hand.toNat

/-! ## Devices and drivers -/

/-- The drivers of `osdrvetytabl`. -/
inductive Driver where
  | systick
  | rfs
  | uart
deriving DecidableEq, Repr

/-- The driver at an address; drivers and devices are named by their place in
`osdrvetytabl`. -/
def driverAt : Nat → Option Driver
  | 1 => some .systick
  | 2 => some .rfs
  | 3 => some .uart
  | _ => none

/-- The device a driver files: `systick_set_device`, `rfs_set_device` and
`uart0_set_device`. -/
def Driver.device : Driver → Device
  | .systick => ⟨1, ⟨31, 0, 0⟩, some 1⟩
  | .rfs => ⟨2, ⟨30, 0, 0⟩, some 2⟩
  | .uart => ⟨3, ⟨15, 0, 0⟩, some 3⟩

/-- `osdrvetytabl`. -/
def osdrvetytabl : List Driver := [.systick, .rfs, .uart]

/-- `osdevtable`, once the drivers have filed their devices. -/
def osdevtable : Devtable :=
  osdrvetytabl.foldl (fun dtbp drv => (krlnewDevice dtbp drv.device).2) devtableInit

/-- `krldev_inc_devcount`; `true` is `DFCOKSTUS`. -/
def krldevIncDevcount (devp : Device) : SveM Bool := do
  let s ← get
  if wordMod - 1 ≤ s.devCount devp.adr then return false
  else
    set { s with devCount := Function.update s.devCount devp.adr (s.devCount devp.adr + 1) }
    return true

/-- `krldev_dec_devcount`. -/
def krldevDecDevcount (devp : Device) : SveM Bool := do
  let s ← get
  if s.devCount devp.adr < 1 then return false
  else
    set { s with devCount := Function.update s.devCount devp.adr (s.devCount devp.adr - 1) }
    return true

/-- `systick_open`. -/
def systickOpen (devp : Device) : SveM Bool := do
  let _ ← krldevIncDevcount devp
  return true

/-- `systick_close`. -/
def systickClose (devp : Device) : SveM Bool := do
  let _ ← krldevDecDevcount devp
  return true

/-- `systick_write`. -/
def systickWrite : SveM Bool := return false

/-- `uart_open`. -/
def uartOpen (devp : Device) : SveM Bool := krldevIncDevcount devp

/-- `uart_close`. -/
def uartClose (devp : Device) : SveM Bool := krldevDecDevcount devp

/-- `uart_write`; the node always has a buffer here. -/
def uartWrite (iopack : Nat) : SveM Bool := do
  let obp ← getNode iopack
  match obp.onBuf.map fun p => uartPrint p obp.onLen with
  | some (.ok _) => return true
  | some (.error e) => throw e
  | none => throw "uart_write"

/-- `rfs_new_file`, of the name in a node. -/
def rfsNewFile (onFname : Option (Nat → UInt8)) : SveM Bool :=
  match onFname with
  | none => return false
  | some fname => onMem (Drivers.Bufs.rfsNewFile fname)

/-- `rfs_open_file`. -/
def rfsOpenFile (iopack : Nat) : SveM Bool := do
  let obp ← getNode iopack
  match obp.onFname with
  | none => return false
  | some fname =>
      match ← onMem (Drivers.Bufs.rfsOpenfileblk fname) with
      | none => return false
      | some fmdp =>
          setNode iopack { obp with onFinode := some fmdp }
          return true

/-- `rfs_open`. -/
def rfsOpen (iopack : Nat) : SveM Bool := do
  let obp ← getNode iopack
  if obp.onAcsflgs = fsdevOpenflgOpefile then rfsOpenFile iopack
  else if obp.onAcsflgs = fsdevOpenflgNewfile then rfsNewFile obp.onFname
  else return false

/-- `rfs_close`, that is `rfs_close_file`. -/
def rfsClose (iopack : Nat) : SveM Bool := do
  let obp ← getNode iopack
  match obp.onFinode with
  | none => return false
  | some fmdp => onMem (Drivers.Bufs.rfsClosefileblk fmdp)

/-- `rfs_write`, that is `rfs_write_file`. -/
def rfsWrite (iopack : Nat) : SveM Bool := do
  let obp ← getNode iopack
  match obp.onFinode, obp.onBuf with
  | some fmdp, some buf =>
      if obp.onBufsz ≠ fsysAlcblksz then return false
      else
        let r ← onMem (Drivers.Bufs.onDev (rfsWritefileblk fmdp.2 buf obp.onLen))
        setNode iopack { obp with onFinode := some (fmdp.1, r.1) }
        return r.2
  | _, _ => return false

/-- `drv_dipfun`, as the drivers set it. -/
def drvDipfun (drv : Driver) (iocode : IoifCode) (devp : Device) (iopack : Nat) : SveM Bool :=
  match drv, iocode with
  | .systick, .ioOpen => systickOpen devp
  | .systick, .ioClose => systickClose devp
  | .systick, .ioWrite => systickWrite
  | .rfs, .ioOpen => rfsOpen iopack
  | .rfs, .ioClose => rfsClose iopack
  | .rfs, .ioWrite => rfsWrite iopack
  | .uart, .ioOpen => uartOpen devp
  | .uart, .ioClose => uartClose devp
  | .uart, .ioWrite => uartWrite iopack

/-- `krldev_call_driver`. -/
def krldevCallDriver (devp : Device) (iocode : IoifCode) (p2 : Nat) : SveM Bool :=
  match devp.devDrv.bind driverAt with
  | none => return false
  | some drvp => drvDipfun drvp iocode devp p2

/-- `krldev_io`. -/
def krldevIo (nodep : Nat) : SveM Bool := do
  let n ← getNode nodep
  match n.onObjadr, n.onOpercode with
  | some devp, some iocode =>
      if n.onObjtype ≠ .dev ∧ n.onObjtype ≠ .fil then return false
      else krldevCallDriver devp iocode nodep
  | _, _ => return false

/-! ## The calls -/

/-- `krlsve_open_device`, `krlsve_write_device` and `krlsve_close_device`, which are the
same; `true` is `SYSSTUSOK`. -/
def krlsveDevice (ondep : Nat) : SveM Bool := do
  let n ← getNode ondep
  if n.onObjadr.isNone then return false else krldevIo ondep

/-- `krlsve_open_device`. -/
def krlsveOpenDevice (ondep : Nat) : SveM Bool := krlsveDevice ondep

/-- `krlsve_write_device`. -/
def krlsveWriteDevice (ondep : Nat) : SveM Bool := krlsveDevice ondep

/-- `krlsve_close_device`. -/
def krlsveCloseDevice (ondep : Nat) : SveM Bool := krlsveDevice ondep

/-- `res_step` of `krlsve_core_open`, behind the handle. -/
def resNode (ondp : Nat) : SveM Hand := do
  if ← krldelObjnode ondp then return noHand else throw "open api del objnode err"

/-- `res_step` of `krlsve_core_open`. -/
def resStep (ondp : Nat) (rethd : Hand) : SveM Hand := do
  if rethd = noHand then resNode ondp
  else if (← krlthdDelObjnode rethd) = noHand then throw "open api td del objnode err"
  else resNode ondp

/-- `op_dev_step` of `krlsve_core_open`. -/
def opDevStep (file : Nat → UInt8) : SveM Hand := do
  let devid : Devid := ⟨Lib.Bytes.rd64 file 0, Lib.Bytes.rd64 file 8, Lib.Bytes.rd64 file 16⟩
  match krlonidflRetnDevice osdevtable devid didfilIdn with
  | none => return noHand
  | some devp =>
      match ← krlnewObjnode with
      | none => return noHand
      | some ondp =>
          let n ← getNode ondp
          setNode ondp
            { n with onOpercode := some .ioOpen, onObjtype := .dev, onObjadr := some devp }
          let rethd ← krlthdAddObjnode ondp
          if rethd = noHand then resStep ondp rethd
          else if ← krlsveOpenDevice ondp then return rethd
          else resStep ondp rethd

/-- `op_fil_step` of `krlsve_core_open`. -/
def opFilStep (file : Nat → UInt8) (flgs : Nat) : SveM Hand := do
  match krlonidflRetnDevice osdevtable ⟨30, 0, 0⟩ didfilIdn with
  | none => return noHand
  | some devp =>
      match ← krlnewObjnode with
      | none => return noHand
      | some ondp =>
          let n ← getNode ondp
          if rwoFlg flgs = nfFlg then
            setNode ondp
              { n with
                onOpercode := some .ioOpen
                onObjtype := .fil
                onObjadr := some devp
                onAcsflgs := fsdevOpenflgNewfile
                onFname := some file }
            if ← krlsveOpenDevice ondp then
              if ← krldelObjnode ondp then return 0
              else throw "NEWFILE api del objnode err"
            else resStep ondp noHand
          else
            setNode ondp
              { n with
                onOpercode := some .ioOpen
                onObjtype := .fil
                onObjadr := some devp
                onAcsflgs := fsdevOpenflgOpefile
                onFname := some file }
            let rethd ← krlthdAddObjnode ondp
            if rethd = noHand then resStep ondp rethd
            else if ← krlsveOpenDevice ondp then return rethd
            -- not `res_step`, which is behind it
            else throw "open sve die^^^^^^"

/-- `krlsve_core_open`. -/
def krlsveCoreOpen (file : Nat → UInt8) (flgs : Nat) : SveM Hand :=
  if fileTy flgs = fileTyDev then opDevStep file
  else if fileTy flgs = fileTyFile then opFilStep file flgs
  else return noHand

/-- `krlsve_open`. -/
def krlsveOpen (file : Option (Nat → UInt8)) (flgs : Nat) : SveM Hand :=
  match file with
  | none => return sysstuserr
  | some file => krlsveCoreOpen file flgs

/-- `krlsve_core_write`. -/
def krlsveCoreWrite (fhand : Hand) (buf : Nat → UInt8) (len flgs : Nat) : SveM Hand := do
  match ← krlthdRetnObjnode fhand with
  | none => return sysstuserr
  | some onp =>
      let n ← getNode onp
      if n.onObjtype = .dev ∨ n.onObjtype = .fil then
        setNode onp
          { n with
            onOpercode := some .ioWrite
            onBuf := some buf
            onLen := len
            onBufsz := 0x1000
            onAcsflgs := flgs }
        if ← krlsveWriteDevice onp then return sysstusok else return sysstuserr
      else return sysstuserr

/-- `krlsve_write`. -/
def krlsveWrite (fhand : Hand) (buf : Option (Nat → UInt8)) (len flgs : Nat) : SveM Hand :=
  match buf with
  | none => return sysstuserr
  | some buf =>
      if fhand ≤ noHand ∨ (tdHandMax : Hand) ≤ fhand ∨ len = 0 then return sysstuserr
      else krlsveCoreWrite fhand buf len flgs

/-- `krlsve_core_close`. -/
def krlsveCoreClose (fhand : Hand) : SveM Hand := do
  match ← krlthdRetnObjnode fhand with
  | none => return sysstuserr
  | some ondp =>
      let n ← getNode ondp
      if n.onObjtype = .dev ∨ n.onObjtype = .fil then
        setNode ondp { n with onOpercode := some .ioClose }
        if ← krlsveCloseDevice ondp then
          if (← krlthdDelObjnode fhand) = noHand then throw "close api td del objnode err"
          else if ← krldelObjnode ondp then return sysstusok
          else throw "close api del objnode err"
        else return sysstuserr
      else return sysstuserr

/-- `krlsve_close`. -/
def krlsveClose (fhand : Hand) : SveM Hand :=
  if fhand < 0 ∨ (tdHandMax : Hand) ≤ fhand then return sysstuserr
  else krlsveCoreClose fhand

/-- The calls of a user thread. -/
inductive SveOp where
  | opn (file : Option (Nat → UInt8)) (flgs : Nat)
  | wrt (fhand : Hand) (buf : Option (Nat → UInt8)) (len flgs : Nat)
  | cls (fhand : Hand)

/-- One call. -/
def sveCall : SveOp → SveM Hand
  | .opn file flgs => krlsveOpen file flgs
  | .wrt fhand buf len flgs => krlsveWrite fhand buf len flgs
  | .cls fhand => krlsveClose fhand

/-- The state one call leaves. -/
def sveStep (s : SveSt) (op : SveOp) : Except String SveSt :=
  ((sveCall op).run s).map Prod.snd

end Cosmos.Kernel
