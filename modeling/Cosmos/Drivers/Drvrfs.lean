import Cosmos.Lib.Word64
import Mathlib.Logic.Function.Basic

/-!
# The RAM file system

`drvrfs.c`: a device of 1024 blocks.  Block 0 holds the superblock, block 1 the
bitmap (one byte a block), and the superblock names the block of the root
directory.  A file is one block, a `fimgrhd_t` followed by data from offset
`0x200` on.  Every operation reads the blocks it needs into fresh buffers and
writes them back.

A block is kept as what was last stored into it, so that reading a block at
another type has no meaning here and stops the model.  A file block has its
header fields and its bytes; the fields of a `fimgrhd_t` that lie behind offset
`0x200` are never read.  `new_buf` may fail at any call, as `alc` says; buffers
that are given back are not tracked.  Fields that nothing reads (`rsb_mgic`,
`fmd_acss` and the like) are left out.
-/

namespace Cosmos.Drivers

open Cosmos.Lib.Word64

/-- `FSYS_ALCBLKSZ`. -/
abbrev fsysAlcblksz : Nat := 0x1000

/-- `FSMM_BLK`. -/
abbrev fsmmBlk : Nat := 0x400000

/-- `DR_NM_MAX`. -/
abbrev drNmMax : Nat := 104

/-- `sizeof(rfsdir_t)`. -/
abbrev sizeofRfsdir : Nat := 128

/-- `fmd_fileifstbkoff` of every file: where its data begins. -/
abbrev ifstbkoff : Nat := 0x200

/-- `RDR_…_TYPE` and `FMD_…_TYPE`. -/
inductive RfsType where
  | nul
  | dir
  | fil
  | del
deriving DecidableEq, Repr

/-- Text of a name, without the terminating zero. -/
abbrev Name := List UInt8

/-- `rfsdir_t`. -/
structure Rfsdir where
  rdrType : RfsType
  rdrBlknr : Nat
  rdrName : Name
deriving DecidableEq, Repr

/-- `rfssublk_t`. -/
structure Rfssublk where
  rsbBmpbks : Nat
  rsbFsysallblk : Nat
  rsbRootdir : Rfsdir
deriving DecidableEq, Repr

/-- `fimgrhd_t`; `fbBlkstart` is `fmd_fleblk[0].fb_blkstart`. -/
structure Fimgrhd where
  fmdType : RfsType
  fmdSfblk : Nat
  fmdFilesz : Nat
  fmdFileifstbkoff : Nat
  fmdCurfwritebk : Nat
  fmdCurfinwbkoff : Nat
  fbBlkstart : Nat
deriving DecidableEq, Repr

/-- A file block: its header, and the bytes at the offsets from `0x200` on. -/
structure Filblk where
  hd : Fimgrhd
  byte : Nat → UInt8

/-- The block of the root directory: entry `k` is at offset `0x200 + 128 k`. -/
structure Dirblk where
  hd : Fimgrhd
  ent : Nat → Rfsdir

/-- What is stored in a block. -/
inductive Blk where
  | raw
  | sup (s : Rfssublk)
  | bmp (bitmap : Nat → UInt8)
  | dir (d : Dirblk)
  | fil (f : Filblk)

/-- `rfsdevext_t`: the device, and which calls of `new_buf` succeed. -/
structure Dev where
  rdeMsize : Nat
  disk : Nat → Blk
  alc : Nat → Bool
  /-- calls of `new_buf` so far -/
  tick : Nat

/-- Code that runs on the device; an error stops the kernel. -/
abbrev RfsM := StateT Dev (Except String)

/-- Reading a block at the wrong type. -/
def wildBlock : String := "wild block"

/-- `rfsdir_t_init`. -/
def rfsdirInit : Rfsdir where
  rdrType := .nul
  rdrBlknr := 0
  rdrName := []

/-- `rfssublk_t_init`. -/
def rfssublkInit : Rfssublk where
  rsbBmpbks := 1
  rsbFsysallblk := 0
  rsbRootdir := rfsdirInit

/-- `fimgrhd_t_init`. -/
def fimgrhdInit : Fimgrhd where
  fmdType := .nul
  fmdSfblk := 0
  fmdFilesz := 0
  fmdFileifstbkoff := ifstbkoff
  fmdCurfwritebk := 0
  fmdCurfinwbkoff := 0
  fbBlkstart := 0

/-! ## Blocks of the device -/

/-- `new_buf`: does the allocation succeed. -/
def newBuf : RfsM Bool := do
  let d ← get
  set { d with tick := d.tick + 1 }
  return d.alc d.tick

/-- `ret_rfsdevblk`: is the block on the device. -/
def retRfsdevblk (d : Dev) (blknr : Nat) : Bool := blknr * fsysAlcblksz < d.rdeMsize

/-- `ret_rfsdevmaxblknr`. -/
def retRfsdevmaxblknr (d : Dev) : Nat := d.rdeMsize / fsysAlcblksz

/-- `read_rfsdevblk`; `none` is `DFCERRSTUS`. -/
def readRfsdevblk (blknr : Nat) : RfsM (Option Blk) := do
  let d ← get
  return if retRfsdevblk d blknr then some (d.disk blknr) else none

/-- `write_rfsdevblk`; `false` is `DFCERRSTUS`. -/
def writeRfsdevblk (b : Blk) (blknr : Nat) : RfsM Bool := do
  let d ← get
  if retRfsdevblk d blknr then
    set { d with disk := Function.update d.disk blknr b }
    return true
  else return false

/-- `get_superblk`. -/
def getSuperblk : RfsM (Option Rfssublk) := do
  if ← newBuf then
    match ← readRfsdevblk 0 with
    | some (.sup s) => return some s
    | some _ => throw wildBlock
    | none => return none
  else return none

/-- `del_superblk`. -/
def delSuperblk (sbp : Rfssublk) : RfsM Unit := do
  if ← writeRfsdevblk (.sup sbp) 0 then return () else throw "del superblk err"

/-- `get_rootdir`. -/
def getRootdir : RfsM (Option Rfsdir) := do
  match ← getSuperblk with
  | none => return none
  | some sbp =>
      let buf ← newBuf
      delSuperblk sbp
      return if buf then some sbp.rsbRootdir else none

/-- `get_rootdirfile_blk`. -/
def getRootdirfileBlk : RfsM (Option Dirblk) := do
  match ← getRootdir with
  | none => return none
  | some rtdir =>
      if ← newBuf then
        match ← readRfsdevblk rtdir.rdrBlknr with
        | some (.dir d) => return some d
        | some _ => throw wildBlock
        | none => return none
      else return none

/-- `del_rootdirfile_blk`. -/
def delRootdirfileBlk (blkp : Dirblk) : RfsM Unit := do
  if ← writeRfsdevblk (.dir blkp) blkp.hd.fmdSfblk then return ()
  else throw "del_rootfile_blk err"

/-- `get_bitmapblk`. -/
def getBitmapblk : RfsM (Option (Nat → UInt8)) := do
  match ← getSuperblk with
  | none => return none
  | some sbp =>
      if ← newBuf then
        match ← readRfsdevblk sbp.rsbBmpbks with
        | some (.bmp m) =>
            delSuperblk sbp
            return some m
        | some _ => throw wildBlock
        | none =>
            delSuperblk sbp
            return none
      else return none

/-- `del_bitmapblk`. -/
def delBitmapblk (bitmap : Nat → UInt8) : RfsM Unit := do
  match ← getSuperblk with
  | none => throw "del superblk err"
  | some sbp =>
      if ← writeRfsdevblk (.bmp bitmap) sbp.rsbBmpbks then delSuperblk sbp
      else throw "del superblk err1"

/-- The first block number from 2 on that the bitmap says is free. -/
def freeBlknr (bitmap : Nat → UInt8) : Option Nat :=
  (List.range' 2 (fsysAlcblksz - 2)).find? fun blknr => bitmap blknr = 0

/-- `rfs_new_blk`; 0 when there is none. -/
def rfsNewBlk : RfsM Nat := do
  match ← getBitmapblk with
  | none => return 0
  | some bitmap =>
      match freeBlknr bitmap with
      | some blknr =>
          delBitmapblk (Function.update bitmap blknr 1)
          return blknr
      | none =>
          delBitmapblk bitmap
          return 0

/-- `rfs_del_blk`. -/
def rfsDelBlk (blknr : Nat) : RfsM Unit := do
  if fsysAlcblksz < blknr then throw "rfs del blk err"
  else
    match ← getBitmapblk with
    | none => throw "rfs del blk err1"
    | some bitmap => delBitmapblk (Function.update bitmap blknr 0)

/-! ## Formatting -/

/-- `create_superblk`. -/
def createSuperblk : RfsM Bool := do
  if ← newBuf then
    let d ← get
    writeRfsdevblk (.sup { rfssublkInit with rsbFsysallblk := retRfsdevmaxblknr d }) 0
  else return false

/-- The bitmap `create_bitmap` stores. -/
def bitmapInit (devmaxblk : Nat) : Nat → UInt8 := fun bi =>
  if 2 ≤ bi ∧ bi < devmaxblk then 0 else 1

/-- `create_bitmap`. -/
def createBitmap : RfsM Bool := do
  match ← getSuperblk with
  | none => return false
  | some sbp =>
      if ← newBuf then
        if fsysAlcblksz < sbp.rsbFsysallblk then
          delSuperblk sbp
          return false
        else
          let ok ← writeRfsdevblk (.bmp (bitmapInit sbp.rsbFsysallblk)) sbp.rsbBmpbks
          delSuperblk sbp
          return ok
      else return false

/-- The block of a directory or file that was just made. -/
def newHead (ty : RfsType) (blk : Nat) : Fimgrhd :=
  { fimgrhdInit with
    fmdType := ty
    fmdSfblk := blk
    fmdCurfwritebk := blk
    fmdCurfinwbkoff := 0x200
    fbBlkstart := blk }

/-- The byte `'/'`. -/
abbrev slash : UInt8 := 47

/-- `create_rootdir`. -/
def createRootdir : RfsM Bool := do
  match ← getSuperblk with
  | none => return false
  | some sbp =>
      if ← newBuf then
        let blk ← rfsNewBlk
        if blk = 0 then
          delSuperblk sbp
          return false
        else
          let ok ← writeRfsdevblk (.dir ⟨newHead .dir blk, fun _ => rfsdirInit⟩) blk
          delSuperblk { sbp with rsbRootdir := ⟨.dir, blk, [slash]⟩ }
          return ok
      else
        delSuperblk sbp
        return false

/-- `rfs_fmat`. -/
def rfsFmat : RfsM Unit := do
  if ← createSuperblk then
    if ← createBitmap then
      if ← createRootdir then return () else throw "create rootdir err"
    else throw "create bitmap err"
  else throw "create superblk err"

/-! ## Names -/

/-- The loop of `rfs_chkfilepath` from character `i` on; it ends at `DR_NM_MAX`. -/
def chkfilepathLoop (chp : Nat → UInt8) : Nat → Nat → Nat
  | 0, _ => 4
  | n + 1, i =>
      if chp i = slash then 3
      else if drNmMax ≤ i then 4
      else if chp i = 0 ∧ 1 < i then 0
      else chkfilepathLoop chp n (i + 1)

/-- `rfs_chkfilepath`. -/
def rfsChkfilepath (fname : Nat → UInt8) : Nat :=
  if fname 0 ≠ slash then 2 else chkfilepathLoop fname drNmMax 1

/-- The text at an address, at most `DR_NM_MAX` characters. -/
def cstr (p : Nat → UInt8) : Name :=
  ((List.range drNmMax).map p).takeWhile (· ≠ 0)

/-- `rfs_ret_fname`: the name behind the `'/'`, `none` for a path that is
refused. -/
def rfsRetFname (fpath : Nat → UInt8) : Option Name :=
  if rfsChkfilepath fpath ≠ 0 then none else some (cstr fun i => fpath (i + 1))

/-! ## The root directory -/

/-- The entry at an offset. -/
def entIdx (off : Nat) : Nat := (off - ifstbkoff) / sizeofRfsdir

/-- The entries a block has room for. -/
abbrev entMax : Nat := (fsysAlcblksz - ifstbkoff) / sizeofRfsdir

/-- The loop over the entries of a directory: the first file of that name. -/
def findEnt (d : Dirblk) (fne : Name) : Option Nat :=
  let from_ := entIdx d.hd.fmdFileifstbkoff
  (List.range' from_ (entMax - from_)).find? fun k =>
    (d.ent k).rdrType = .fil ∧ (d.ent k).rdrName = fne

/-- No entry was ever made. -/
def Dirblk.isEmpty (d : Dirblk) : Bool :=
  d.hd.fmdCurfwritebk = d.hd.fbBlkstart && d.hd.fmdCurfinwbkoff = d.hd.fmdFileifstbkoff

/-- `rfs_chkfileisindev`: 0 when there is no such file. -/
def rfsChkfileisindev (fname : Name) : RfsM Nat := do
  if fname.length < 1 ∨ drNmMax ≤ fname.length then return 4
  else
    match ← getRootdirfileBlk with
    | none => return 2
    | some d =>
        let rets :=
          if d.hd.fmdType ≠ .dir then 3
          else if d.isEmpty then 0
          else if (findEnt d fname).isSome then 1 else 0
        delRootdirfileBlk d
        return rets

/-- A directory block with one more entry for the file in block `fblk`. -/
def Dirblk.addEnt (d : Dirblk) (fname : Name) (fblk : Nat) : Dirblk where
  hd := { d.hd with
    fmdFilesz := d.hd.fmdFilesz + sizeofRfsdir
    fmdCurfinwbkoff := d.hd.fmdCurfinwbkoff + sizeofRfsdir }
  ent := Function.update d.ent (entIdx d.hd.fmdCurfinwbkoff) ⟨.fil, fblk, fname⟩

/-- `rfs_new_dirfileblk` for a file; `true` is `DFCOKSTUS`. -/
def rfsNewDirfileblk (fname : Name) : RfsM Bool := do
  if ← newBuf then
    let fblk ← rfsNewBlk
    if fblk = 0 then return false
    else
      match ← getRootdirfileBlk with
      | none => return false
      | some d =>
          if fsysAlcblksz ≤ d.hd.fmdCurfinwbkoff then
            delRootdirfileBlk d
            return false
          else
            let ok ← writeRfsdevblk (.fil ⟨newHead .fil fblk, fun _ => 0⟩) fblk
            delRootdirfileBlk (d.addEnt fname fblk)
            return ok
  else return false

/-- `rfs_new_file`. -/
def rfsNewFile (fname : Nat → UInt8) : RfsM Bool := do
  match rfsRetFname fname with
  | none => return false
  | some fne =>
      if (← rfsChkfileisindev fne) ≠ 0 then return false else rfsNewDirfileblk fne

/-- A directory block without entry `k`. -/
def Dirblk.delEnt (d : Dirblk) (k : Nat) : Dirblk where
  hd := d.hd
  ent := Function.update d.ent k { rfsdirInit with rdrType := .del }

/-- `del_dirfileblk_core`: 0 when the file is gone. -/
def delDirfileblkCore (fname : Name) : RfsM Nat := do
  match ← getRootdirfileBlk with
  | none => return 5
  | some d =>
      if d.hd.fmdType ≠ .dir then
        delRootdirfileBlk d
        return 4
      else if d.isEmpty then
        delRootdirfileBlk d
        return 3
      else
        match findEnt d fname with
        | some k =>
            rfsDelBlk (d.ent k).rdrBlknr
            delRootdirfileBlk (d.delEnt k)
            return 0
        | none =>
            delRootdirfileBlk d
            return 1

/-- `rfs_del_dirfileblk` for a file; `true` is `DFCOKSTUS`. -/
def rfsDelDirfileblk (fname : Nat → UInt8) : RfsM Bool := do
  match rfsRetFname fname with
  | none => return false
  | some fne => return (← delDirfileblkCore fne) = 0

/-- `rfs_del_file`. -/
def rfsDelFile (fname : Nat → UInt8) (flg : Nat) : RfsM Bool := do
  if flg ≠ 0 then return false else rfsDelDirfileblk fname

/-! ## Open files

An open file is a private copy of its block. -/

/-- `rfs_openfileblk`. -/
def rfsOpenfileblk (fname : Nat → UInt8) : RfsM (Option Filblk) := do
  match rfsRetFname fname with
  | none => return none
  | some fne =>
      match ← getRootdirfileBlk with
      | none => return none
      | some d =>
          if d.hd.fmdType ≠ .dir then
            delRootdirfileBlk d
            return none
          else if d.isEmpty then
            delRootdirfileBlk d
            return none
          else
            match findEnt d fne with
            | none =>
                delRootdirfileBlk d
                return none
            | some k =>
                if ← newBuf then
                  match ← readRfsdevblk (d.ent k).rdrBlknr with
                  | none =>
                      delRootdirfileBlk d
                      return none
                  | some (.fil f) =>
                      delRootdirfileBlk d
                      return if f.hd.fmdType = .nul ∨ f.hd.fmdFileifstbkoff ≠ 0x200 then none
                        else some f
                  | some _ => throw wildBlock
                else
                  delRootdirfileBlk d
                  return none

/-- The block number a header is consistent about. -/
def Fimgrhd.isOwn (h : Fimgrhd) : Bool :=
  h.fmdSfblk = h.fmdCurfwritebk && h.fmdCurfwritebk = h.fbBlkstart

/-- A file block with `len` more bytes. -/
def Filblk.append (f : Filblk) (buf : Nat → UInt8) (len : Nat) : Filblk where
  hd := { f.hd with
    fmdFilesz := f.hd.fmdFilesz + len
    fmdCurfinwbkoff := f.hd.fmdCurfinwbkoff + len }
  byte o := if f.hd.fmdCurfinwbkoff ≤ o ∧ o < f.hd.fmdCurfinwbkoff + len then
    buf (o - f.hd.fmdCurfinwbkoff) else f.byte o

/-- `rfs_writefileblk`: the copy after the call, and whether it was accepted.
The test adds 64-bit words; copying a length that wrapped, or over the header,
has no meaning here. -/
def rfsWritefileblk (f : Filblk) (buf : Nat → UInt8) (len : Nat) : RfsM (Filblk × Bool) := do
  if !f.hd.isOwn then return (f, false)
  else if fsysAlcblksz ≤ add64 f.hd.fmdCurfinwbkoff len then return (f, false)
  else if fsysAlcblksz ≤ f.hd.fmdCurfinwbkoff + len ∨ f.hd.fmdCurfinwbkoff < ifstbkoff then
    throw wildBlock
  else
    let f' := f.append buf len
    let _ ← writeRfsdevblk (.fil f') f.hd.fmdCurfwritebk
    return (f', true)

/-- `rfs_readfileblk`: the bytes that are copied out. -/
def rfsReadfileblk (f : Filblk) (len : Nat) : Option (List UInt8) :=
  if !f.hd.isOwn then none
  else if fsysAlcblksz - f.hd.fmdFileifstbkoff < len then none
  else some ((List.range len).map fun o => f.byte (f.hd.fmdFileifstbkoff + o))

/-- `rfs_closefileblk`. -/
def rfsClosefileblk (f : Filblk) : RfsM Bool := do
  let _ ← writeRfsdevblk (.fil f) f.hd.fmdSfblk
  return true

/-! ## Calls through an object node -/

/-- What the file calls read and set in an `objnode_t`; `none` is `NULL`. -/
structure Objnode where
  onFinode : Option Filblk
  onFname : Option (Nat → UInt8)
  onBuf : Option (Nat → UInt8)
  onBufsz : Nat
  onLen : Nat

/-- `rfs_open_file`: the node after the call, and `DFCOKSTUS`. -/
def rfsOpenFile (obp : Objnode) : RfsM (Objnode × Bool) := do
  match obp.onFname with
  | none => return (obp, false)
  | some fname =>
      match ← rfsOpenfileblk fname with
      | none => return (obp, false)
      | some fmdp => return ({ obp with onFinode := some fmdp }, true)

/-- `rfs_write_file`. -/
def rfsWriteFile (obp : Objnode) : RfsM (Objnode × Bool) := do
  match obp.onFinode, obp.onBuf with
  | some f, some buf =>
      if obp.onBufsz ≠ fsysAlcblksz then return (obp, false)
      else
        let (f', ok) ← rfsWritefileblk f buf obp.onLen
        return ({ obp with onFinode := some f' }, ok)
  | _, _ => return (obp, false)

/-- `rfs_read_file`: what is copied into the buffer. -/
def rfsReadFile (obp : Objnode) : Option (List UInt8) :=
  match obp.onFinode, obp.onBuf with
  | some f, some _ =>
      if obp.onBufsz ≠ fsysAlcblksz then none else rfsReadfileblk f obp.onLen
  | _, _ => none

/-- `rfs_close_file`. -/
def rfsCloseFile (obp : Objnode) : RfsM Bool := do
  match obp.onFinode with
  | none => return false
  | some f => rfsClosefileblk f

/-- A device before it is formatted. -/
def devInit (alc : Nat → Bool) : Dev where
  rdeMsize := fsmmBlk
  disk := fun _ => .raw
  alc := alc
  tick := 0

end Cosmos.Drivers
