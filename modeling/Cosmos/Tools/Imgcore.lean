import Cosmos.Lib.Files
import Cosmos.Lib.StM
import Cosmos.Lib.Word64
import Cosmos.Tools.Imgmgrhead

/-!
# Packing a kernel image

`imgcore.c` of the tool `lmoskrlimg`, and the parts of `param.c` it asks for the
input files.  `limg_krnl_mode_run` writes the image: a block for the loader head
file, a block for the descriptor, the blocks of the file records, and the files,
each from a block boundary on.

Opening, reading and closing a regular file and `malloc` do not fail here.  A write
fails when it would reach beyond the largest offset an `off_t` has; a seek fails on
a negative one.  `limg_error` prints a text and exits, so it is an error that
carries the text; where a function returns `-1` and its caller stops with a text,
the text stands in the function.  What the tool prints and the counters it only
prints are left out, as are the descriptors: one file is open for reading at a
time, and its offset is `bfh_rwfcurrbyte`.
-/

namespace Cosmos.Tools

open Cosmos.Lib.Bytes Cosmos.Lib.Files Cosmos.Lib.StM Cosmos.Lib.Word64

/-- `BFH_BUF_SZ` and `BFH_ONERW_SZ`. -/
abbrev bfhBufSz : Nat := 0x1000

/-- `BLK_ALIGN`. -/
def blkAlign (x : Nat) : Nat := add64 x 0xfff / 0x1000 * 0x1000

/-- Largest offset in a file. -/
abbrev offMax : Nat := 2 ^ 63 - 1

/-! ## The command line -/

/-- A path and the bytes of the file it names; a path has no zero byte and a size is
an `off_t`. -/
structure Infile where
  pathname : List UInt8
  data : List UInt8
  hpathname : 0 ∉ pathname
  hdata : data.length ≤ offMax

/-- A file `l` of one byte. -/
def fileL : Infile := ⟨[108], [1], by decide, by decide⟩

/-- A file `a` of three bytes. -/
def fileA : Infile := ⟨[97], [1, 2, 3], by decide, by decide⟩

/-- A file `b` of two bytes. -/
def fileB : Infile := ⟨[98], [4, 5], by decide, by decide⟩

/-- `mparam_t`: the loader head file and the input files of the command line. -/
structure Mparam where
  ldrh : Infile
  infile : List Infile
  /-- `argc` is an `int` -/
  hargc : infile.length < 2 ^ 31

/-- `limg_retszfile`. -/
def limgRetszfile (f : Infile) : Nat := f.data.length

/-- `limg_ret_infilenr`. -/
def limgRetInfilenr (m : Mparam) : Nat := m.infile.length

/-- The loop of `limg_ret_allifimglen`. -/
def allifimglenLoop : List Infile → Nat → Nat
  | [], retlen => retlen
  | f :: fs, retlen =>
      if limgRetszfile f = 0 then 0
      else allifimglenLoop fs (add64 retlen (blkAlign (limgRetszfile f)))

/-- `limg_ret_allifimglen`. -/
def limgRetAllifimglen (m : Mparam) : Nat := allifimglenLoop m.infile 0

/-! ## The zones of the image -/

/-- `fzone_t`. -/
structure Fzone where
  fstartpos : Nat
  fcurrepos : Nat
  fendpos : Nat

/-- `imgzone_t`. -/
structure Imgzone where
  bldrzn : Fzone
  mftlzn : Fzone
  fhedzn : Fzone
  filezn : Fzone

/-- `limg_config_subzn`. -/
def limgConfigSubzn (fstartpos fcurrepos fendpos : Nat) : Fzone where
  fstartpos := fstartpos
  fcurrepos := fcurrepos
  fendpos := fendpos

/-- `limg_config_fzone`. -/
def limgConfigFzone (m : Mparam) : Except String Imgzone :=
  let fnr := limgRetInfilenr m
  if fnr = 0 then .error "no file"
  else
    let pfhblkn := blkAlign (fnr * 256)
    .ok {
      bldrzn := limgConfigSubzn 0 0 0xfff
      mftlzn := limgConfigSubzn 0x1000 0x1000 0x1fff
      fhedzn := limgConfigSubzn 0x2000 0x2000 (0x2000 + pfhblkn - 1)
      filezn := limgConfigSubzn (0x2000 + pfhblkn) (0x2000 + pfhblkn)
        (sub64 (add64 (0x2000 + pfhblkn) (limgRetAllifimglen m)) 1) }

/-! ## The output file -/

/-- The output file, its offset, `bfh_fsum` of its head, and the zones. -/
structure Limg where
  img : PFile
  pos : Nat
  bfhFsum : Nat
  zn : Imgzone

/-- Code of the tool; an error ends the program. -/
abbrev LimgM := StateT Limg (Except String)

/-- `limg_writefile` on the output file. -/
def limgWritefile (buf : List UInt8) : LimgM Bool := do
  let s ← get
  if s.pos + buf.length ≤ offMax then
    set { s with img := s.img.write s.pos buf, pos := s.pos + buf.length }
    return true
  else
    return false

/-- `limg_lseekfile` on the output file, from its start. -/
def limgLseekfile (pos : Nat) : LimgM Bool := do
  let s ← get
  if pos ≤ offMax then
    set { s with pos := pos }
    return true
  else
    return false

/-- `limg_set_mlosrddsccurrpos`. -/
def limgSetMlosrddsccurrpos : LimgM Unit := do
  unless (← limgLseekfile (← get).zn.mftlzn.fcurrepos) do throw "set leek"

/-- `limg_upd_mlosrddsccurrpos`. -/
def limgUpdMlosrddsccurrpos : LimgM Unit :=
  modify fun s => { s with zn.mftlzn.fcurrepos := s.pos }

/-- `limg_set_ldrfilecurrpos`. -/
def limgSetLdrfilecurrpos : LimgM Unit := do
  unless (← limgLseekfile (← get).zn.bldrzn.fcurrepos) do throw "set leek"

/-- `limg_upd_ldrfilecurrpos`. -/
def limgUpdLdrfilecurrpos : LimgM Unit :=
  modify fun s => { s with zn.bldrzn.fcurrepos := s.pos }

/-- `limg_set_infilecurrpos`. -/
def limgSetInfilecurrpos : LimgM Unit := do
  unless (← limgLseekfile (← get).zn.filezn.fcurrepos) do throw "set leek"

/-- `limg_ret_infilecurrpos`. -/
def limgRetInfilecurrpos : LimgM Nat := do
  return (← get).zn.filezn.fcurrepos

/-- `limg_upd_infilecurrpos`. -/
def limgUpdInfilecurrpos : LimgM Unit :=
  modify fun s => { s with zn.filezn.fcurrepos := s.pos }

/-- `limg_set_fheadcurrpos`. -/
def limgSetFheadcurrpos : LimgM Unit := do
  unless (← limgLseekfile (← get).zn.fhedzn.fcurrepos) do throw "set leek"

/-- `limg_upd_fheadcurrpos`. -/
def limgUpdFheadcurrpos : LimgM Unit :=
  modify fun s => { s with zn.fhedzn.fcurrepos := s.pos }

/-- A cleared buffer. -/
def clearBuf : List UInt8 := List.replicate bfhBufSz 0

/-- The loop of `limg_write_imginitblk`. -/
def imginitblkLoop : Nat → LimgM Unit
  | 0 => return ()
  | n + 1 => do
      unless (← limgWritefile clearBuf) do throw "write initblk"
      imginitblkLoop n

/-- `limg_write_imginitblk`. -/
def limgWriteImginitblk (m : Mparam) : LimgM Unit := do
  let fnr := limgRetInfilenr m
  if fnr = 0 then throw "no file"
  imginitblkLoop (blkAlign (fnr * 256) / 0x1000 + 0x2)

/-! ## One input file -/

/-- `bfh_rwretstus`. -/
inductive Rwretstus where
  | init
  | oneOk
  | allOk
deriving DecidableEq, Repr

/-- `binfhead_t` of the input file, with the bytes of the file. -/
structure Binfhead where
  file : List UInt8
  bfhFname : List UInt8
  bfhFsz : Nat
  bfhRwretstus : Rwretstus
  bfhRwfcurrbyte : Nat
  bfhFsum : Nat
  bfhBuf : List UInt8

/-- `alloc_new_inputfile`. -/
def allocNewInputfile (f : Infile) : LimgM Binfhead := do
  if limgRetszfile f = 0 then throw "retfilesz error"
  return {
    file := f.data
    bfhFname := f.pathname
    bfhFsz := limgRetszfile f
    bfhRwretstus := .init
    bfhRwfcurrbyte := 0
    bfhFsum := 0
    bfhBuf := clearBuf }

/-- The bytes `bs` in a cleared buffer. -/
def inClearBuf (bs : List UInt8) : List UInt8 := bs ++ List.replicate (bfhBufSz - bs.length) 0

/-- `read_imgfile_to_buf`. -/
def readImgfileToBuf (b : Binfhead) : Binfhead :=
  let bs := (b.file.drop b.bfhRwfcurrbyte).take bfhBufSz
  let b := { b with
    bfhBuf := inClearBuf bs
    bfhRwfcurrbyte := b.bfhRwfcurrbyte + bs.length
    bfhFsum := computerSum (inClearBuf bs) }
  if b.bfhRwfcurrbyte = b.bfhFsz then { b with bfhRwretstus := .allOk }
  else { b with bfhRwretstus := .oneOk }

/-- `copy_infbuf_to_oufbuf`, `write_imgfile_fr_buf`. -/
def writeImgfileFrBuf (buf : List UInt8) : LimgM Unit := do
  unless (← limgWritefile buf) do throw "write_imgfile"
  modify fun s => { s with bfhFsum := computerSum buf }

/-- The loop of `limg_rw_one_file` and `limg_rw_bldr_file`.  Each turn that does not
end it reads at least one byte. -/
def rwLoop : Nat → Binfhead → LimgM Unit
  | 0, _ => throw "endless"
  | fuel + 1, b => do
      if b.bfhRwretstus = .allOk then return ()
      else
        let b := readImgfileToBuf b
        writeImgfileFrBuf b.bfhBuf
        rwLoop fuel b

/-- `limg_rw_bldr_file`. -/
def limgRwBldrFile (b : Binfhead) : LimgM Unit := do
  limgSetLdrfilecurrpos
  rwLoop (b.bfhFsz + 1) b
  limgUpdLdrfilecurrpos

/-- `limg_rw_one_file`. -/
def limgRwOneFile (b : Binfhead) : LimgM Unit := do
  limgSetInfilecurrpos
  rwLoop (b.bfhFsz + 1) b
  limgUpdInfilecurrpos

/-- `limg_write_onefhdsc`. -/
def limgWriteOnefhdsc (inimgoff inimgend frealsz : Nat) (fname : List UInt8) : LimgM Unit := do
  if fhdscNmax ≤ fname.length then throw "limg_rw_one_file"
  let fdbuf := { fhdscInit with
    fhdIntsfsoff := inimgoff
    fhdIntsfend := inimgend
    fhdFrealsz := frealsz
    fhdFsum := (← get).bfhFsum
    fhdName := strcpy fhdscInit.fhdName fname }
  limgSetFheadcurrpos
  unless (← limgWritefile fdbuf.bytes) do throw "limg_write"
  limgUpdFheadcurrpos

/-- `run_rw_func_oninfile`. -/
def runRwFuncOninfile (f : Infile) : LimgM Unit := do
  let b ← allocNewInputfile f
  let soff ← limgRetInfilecurrpos
  limgRwOneFile b
  let eoff ← limgRetInfilecurrpos
  limgWriteOnefhdsc soff (sub64 eoff 1) b.bfhFsz b.bfhFname

/-- `run_rw_func_onldfile`. -/
def runRwFuncOnldfile (f : Infile) : LimgM Unit := do
  if bfhBufSz < limgRetszfile f ∨ limgRetszfile f = 0 then throw "write ldrheadfile"
  let b ← allocNewInputfile f
  limgRwBldrFile b

/-! ## The whole image -/

/-- The record that `limg_write_mlosrddsc` fills in, still without its sum. -/
def mlosrddscFill (fnr : Nat) (zn : Imgzone) : Mlosrddsc :=
  { mlosrddscInit with
    mdcSfsoff := zn.mftlzn.fstartpos
    mdcSfeoff := zn.mftlzn.fendpos
    mdcSfrlsz := sizeofMlosrddsc
    mdcLdrbkS := zn.bldrzn.fstartpos
    mdcLdrbkE := zn.bldrzn.fendpos
    mdcLdrbkRsz := sub64 zn.bldrzn.fcurrepos zn.bldrzn.fstartpos
    mdcFhdbkS := zn.fhedzn.fstartpos
    mdcFhdbkE := zn.fhedzn.fendpos
    mdcFhdbkRsz := sub64 zn.fhedzn.fcurrepos zn.fhedzn.fstartpos
    mdcFilbkS := zn.filezn.fstartpos
    mdcFilbkE := zn.filezn.fendpos
    mdcFilbkRsz := sub64 zn.filezn.fcurrepos zn.filezn.fstartpos
    mdcLdrcodenr := 1
    mdcFhdnr := fnr
    mdcFilnr := fnr }

/-- `limg_write_mlosrddsc`. -/
def limgWriteMlosrddsc (m : Mparam) : LimgM Unit := do
  let md := mlosrddscFill (limgRetInfilenr m) (← get).zn
  let md := { md with mdcSfsum := computerSum md.bytes }
  limgSetMlosrddsccurrpos
  unless (← limgWritefile (inClearBuf md.bytes)) do throw "write mlosrddsc"
  limgUpdMlosrddsccurrpos

/-- The loop over the input files. -/
def infileLoop : List Infile → LimgM Unit
  | [] => return ()
  | f :: fs => do
      runRwFuncOninfile f
      infileLoop fs

/-- The steps of `limg_krnl_mode_run` on the new output file. -/
def krnlModeSteps (m : Mparam) : LimgM Unit := do
  limgWriteImginitblk m
  runRwFuncOnldfile m.ldrh
  infileLoop m.infile
  limgWriteMlosrddsc m

/-- `limg_krnl_mode_run`: the image it leaves in the output file. -/
def limgKrnlModeRun (m : Mparam) : Except String PFile := do
  let zn ← limgConfigFzone m
  let (_, s) ← (krnlModeSteps m).run { img := .empty, pos := 0, bfhFsum := 0, zn := zn }
  return s.img

end Cosmos.Tools
