import Cosmos.Drivers.DrvrfsCreate
import Cosmos.Lib.Bytes
import Cosmos.Lib.Copy
import Mathlib.Data.List.TakeWhile

/-!
# The bytes of a block

A block with a `fimgrhd_t` in front, byte for byte.  The structure takes 0x278 bytes, and the
data that `fmd_fileifstbkoff` says begin at 0x200 share the last 0x78 of them: the end of
`fmd_fleblk` and the two links.  A copy into the block is `hal_memcpy` at an address, which
is not stopped by the end of the block and goes on at 0 behind 2^64.

## Main results

* `write_inside_iff` and `write_not_inside` : a write stays inside the block unless its length
  wraps with the offset.
* `header_kept_iff` and `header_not_kept` : data leave the header alone exactly when they begin
  behind it, or write the bytes that are there.
-/

namespace Cosmos.Drivers.Bytes

open Cosmos.Lib.Bytes Cosmos.Lib.Copy Cosmos.Lib.Run Cosmos.Lib.StM Cosmos.Lib.Word64

/-- `FBLKS_MAX`. -/
abbrev fblksMax : Nat := 32

/-- The fields of `fimgrhd_t`, all 64-bit words. -/
inductive FmdField where
  | stus
  | type
  | flg
  | sfblk
  | acss
  | newtime
  | acstime
  | fileallbk
  | filesz
  | fileifstbkoff
  | fileiendbkoff
  | curfwritebk
  | curfinwbkoff
  | blkstart (i : Fin fblksMax)
  | blknr (i : Fin fblksMax)
  | linkpblk
  | linknblk
deriving DecidableEq

/-- Where a field stands in the structure. -/
def FmdField.off : FmdField → Nat
  | .stus => 0
  | .type => 8
  | .flg => 16
  | .sfblk => 24
  | .acss => 32
  | .newtime => 40
  | .acstime => 48
  | .fileallbk => 56
  | .filesz => 64
  | .fileifstbkoff => 72
  | .fileiendbkoff => 80
  | .curfwritebk => 88
  | .curfinwbkoff => 96
  | .blkstart i => 104 + 16 * i
  | .blknr i => 112 + 16 * i
  | .linkpblk => 104 + 16 * fblksMax
  | .linknblk => 112 + 16 * fblksMax

/-- `sizeof(fimgrhd_t)`. -/
abbrev sizeofFimgrhd : Nat := 120 + 16 * fblksMax

/-- Memory as seen from a buffer: byte `o` is `o` bytes behind its first one, modulo 2^64. -/
abbrev Img := Nat → UInt8

/-- A field of the structure at the start of the buffer. -/
def fld (img : Img) (x : FmdField) : Nat := rd64 img x.off

/-- A field is stored. -/
def setFld (img : Img) (x : FmdField) (w : Nat) : Img := put img x.off (le64 w)

/-- `rfsdevext_t`: the bytes of each block of the device. -/
structure Dev where
  rdeMsize : Nat
  blk : Nat → Img

/-- `write_rfsdevblk`: the first `FSYS_ALCBLKSZ` bytes of the buffer. -/
def writeRfsdevblk (d : Dev) (weadr : Img) (blknr : Nat) : Dev × Bool :=
  if blknr * fsysAlcblksz < d.rdeMsize then
    ({ d with blk := Function.update d.blk blknr fun o =>
        if o < fsysAlcblksz then weadr o else d.blk blknr o }, true)
  else (d, false)

/-- `hal_memcpy` to `off` bytes behind the start of the buffer. -/
def halMemcpy (buf : Nat → UInt8) (img : Img) (off n : Nat) : Img :=
  copyFrom wordMod off buf n img

/-- `rfs_writefileblk`: the buffer of the open file, the device, and `DFCOKSTUS`. -/
def rfsWritefileblk (d : Dev) (fmp : Img) (buf : Nat → UInt8) (len : Nat) : Img × Dev × Bool :=
  if fld fmp .sfblk ≠ fld fmp .curfwritebk ∨ fld fmp .curfwritebk ≠ fld fmp (.blkstart 0) then
    (fmp, d, false)
  else if fsysAlcblksz ≤ add64 (fld fmp .curfinwbkoff) len then (fmp, d, false)
  else
    let fmp := halMemcpy buf fmp (fld fmp .curfinwbkoff) len
    let fmp := setFld fmp .filesz (add64 (fld fmp .filesz) len)
    let fmp := setFld fmp .curfinwbkoff (add64 (fld fmp .curfinwbkoff) len)
    (fmp, (writeRfsdevblk d fmp (fld fmp .curfwritebk)).1, true)

/-- `rfs_write_file`. -/
def rfsWriteFile (d : Dev) (fmp : Img) (buf : Option (Nat → UInt8)) (bufsz len : Nat) :
    Img × Dev × Bool :=
  match buf with
  | none => (fmp, d, false)
  | some buf =>
      if bufsz ≠ fsysAlcblksz then (fmp, d, false) else rfsWritefileblk d fmp buf len

/-- The numbers of `RDR_…_TYPE` and `FMD_…_TYPE`. -/
def typeNr : RfsType → Nat
  | .nul => 0
  | .dir => 1
  | .fil => 2
  | .del => 5

/-- The entry that `rfs_new_dirfileblk` makes in the buffer of the root directory. -/
def newEnt (rdirblk : Img) (fname : Name) (fblk : Nat) : Img :=
  let wrdirp := fld rdirblk .curfinwbkoff
  let img := put rdirblk wrdirp (le64 0)
  let img := put img (wrdirp + 8) (le64 (typeNr .fil))
  let img := put img (wrdirp + 16) (le64 fblk)
  let img := put img (wrdirp + 24) (fname ++ [0])
  let img := setFld img .filesz (add64 (fld img .filesz) sizeofRfsdir)
  setFld img .curfinwbkoff (add64 (fld img .curfinwbkoff) sizeofRfsdir)

/-! ## What the bytes show -/

/-- The fields of the header that the other modules have. -/
structure ShowsHd (img : Img) (hd : Fimgrhd) : Prop where
  type : fld img .type = typeNr hd.fmdType
  sfblk : fld img .sfblk = hd.fmdSfblk
  filesz : fld img .filesz = hd.fmdFilesz
  ifst : fld img .fileifstbkoff = hd.fmdFileifstbkoff
  curfwritebk : fld img .curfwritebk = hd.fmdCurfwritebk
  curfinwbkoff : fld img .curfinwbkoff = hd.fmdCurfinwbkoff
  blkstart : fld img (.blkstart 0) = hd.fbBlkstart

/-- A file block. -/
structure Shows (img : Img) (f : Filblk) : Prop where
  hd : ShowsHd img f.hd
  byte : ∀ o, ifstbkoff ≤ o → o < fsysAlcblksz → img o = f.byte o

/-- Entry `k` of a directory. -/
def entOff (k : Nat) : Nat := ifstbkoff + sizeofRfsdir * k

/-- The block of the root directory. -/
structure ShowsDir (img : Img) (dir : Dirblk) : Prop where
  hd : ShowsHd img dir.hd
  type : ∀ k < entMax, rd64 img (entOff k + 8) = typeNr (dir.ent k).rdrType
  blknr : ∀ k < entMax, rd64 img (entOff k + 16) = (dir.ent k).rdrBlknr
  name : ∀ k < entMax, cstr (fun i => img (entOff k + 24 + i)) = (dir.ent k).rdrName

/-! ## The fields -/

section Fields

variable {img img' : Img} {x y : FmdField} {o w : Nat}

/-- Byte `o` is one of the field. -/
def FmdField.Has (x : FmdField) (o : Nat) : Prop := x.off ≤ o ∧ o < x.off + 8

theorem has_filesz : FmdField.filesz.Has o ↔ 64 ≤ o ∧ o < 72 := Iff.rfl

theorem has_curfinwbkoff : FmdField.curfinwbkoff.Has o ↔ 96 ≤ o ∧ o < 104 := Iff.rfl

theorem FmdField.off_le (x : FmdField) : x.off + 8 ≤ sizeofFimgrhd := by
  cases x with
  | blkstart i | blknr i =>
      have := i.isLt
      simp only [FmdField.off, fblksMax, sizeofFimgrhd] at *
      omega
  | _ => decide

/-- The other fields are not where `fmd_filesz` is. -/
theorem filesz_apart (hx : x ≠ .filesz) : x.off + 8 ≤ 64 ∨ 72 ≤ x.off := by
  cases x with
  | filesz => exact absurd rfl hx
  | blkstart i | blknr i =>
      simp only [FmdField.off]
      omega
  | _ => decide

/-- The other fields are not where `fmd_curfinwbkoff` is. -/
theorem curfinwbkoff_apart (hx : x ≠ .curfinwbkoff) : x.off + 8 ≤ 96 ∨ 104 ≤ x.off := by
  cases x with
  | curfinwbkoff => exact absurd rfl hx
  | blkstart i | blknr i =>
      simp only [FmdField.off]
      omega
  | _ => decide

/-- The fields in front of the table of extents. -/
def firstFields : List FmdField :=
  [.stus, .type, .flg, .sfblk, .acss, .newtime, .acstime, .fileallbk, .filesz, .fileifstbkoff,
    .fileiendbkoff, .curfwritebk, .curfinwbkoff]

/-- Each byte of the structure is one of a field. -/
theorem exists_field (ho : o < sizeofFimgrhd) : ∃ x : FmdField, x.Has o := by
  have hfirst : ∀ i < 13, (firstFields.getD i .stus).off = 8 * i := by decide
  simp only [sizeofFimgrhd, fblksMax] at ho
  by_cases h1 : o < 104
  · have hoff := hfirst (o / 8) (by omega)
    exact ⟨_, by rw [FmdField.Has, hoff]; omega⟩
  by_cases h2 : o < 616
  · have hi : (o - 104) / 16 < fblksMax := by
      simp only [fblksMax]
      omega
    by_cases h3 : (o - 104) % 16 < 8
    · refine ⟨.blkstart ⟨(o - 104) / 16, hi⟩, ?_⟩
      simp only [FmdField.Has, FmdField.off]
      omega
    · refine ⟨.blknr ⟨(o - 104) / 16, hi⟩, ?_⟩
      simp only [FmdField.Has, FmdField.off]
      omega
  by_cases h3 : o < 624
  · refine ⟨.linkpblk, ?_⟩
    simp only [FmdField.Has, FmdField.off, fblksMax]
    omega
  · refine ⟨.linknblk, ?_⟩
    simp only [FmdField.Has, FmdField.off, fblksMax]
    omega

theorem fld_setFld (hw : w < 2 ^ 64) : fld (setFld img x w) x = w := rd64_put hw

theorem setFld_out (ho : ¬ x.Has o) : setFld img x w o = img o := by
  unfold FmdField.Has at ho
  apply put_out
  rw [le64_length]
  omega

theorem fld_setFld_filesz (hx : x ≠ .filesz) : fld (setFld img .filesz w) x = fld img x :=
  rd64_put_out (by
    have := filesz_apart hx
    rw [le64_length]
    show x.off + 8 ≤ 64 ∨ 64 + 8 ≤ x.off
    omega)

theorem fld_setFld_curfinwbkoff (hx : x ≠ .curfinwbkoff) :
    fld (setFld img .curfinwbkoff w) x = fld img x :=
  rd64_put_out (by
    have := curfinwbkoff_apart hx
    rw [le64_length]
    show x.off + 8 ≤ 96 ∨ 96 + 8 ≤ x.off
    omega)

/-- The fields that a write and a new entry are not meant to change. -/
def HdKept (img img' : Img) : Prop :=
  ∀ x : FmdField, x ≠ .filesz → x ≠ .curfinwbkoff → fld img' x = fld img x

/-- The bytes of those fields. -/
def HdByte (o : Nat) : Prop :=
  o < sizeofFimgrhd ∧ ¬ FmdField.filesz.Has o ∧ ¬ FmdField.curfinwbkoff.Has o

instance (o : Nat) : Decidable (HdByte o) := by
  unfold HdByte FmdField.Has
  infer_instance

theorem hdKept_iff : HdKept img img' ↔ ∀ o, HdByte o → img' o = img o := by
  constructor
  · intro h o ⟨ho, hsz, hoff⟩
    obtain ⟨x, hx⟩ := exists_field ho
    have hne : x ≠ .filesz ∧ x ≠ .curfinwbkoff := by
      constructor
      · rintro rfl
        exact hsz hx
      · rintro rfl
        exact hoff hx
    have hbyte := rd64_eq_iff.mp (h x hne.1 hne.2) (o - x.off)
    have hlo := hx.1
    have hhi := hx.2
    have hbyte := hbyte (by omega)
    rwa [Nat.add_sub_cancel' hlo] at hbyte
  · intro h x hsz hoff
    refine rd64_congr fun k hk => h _ ⟨?_, ?_, ?_⟩
    · have := x.off_le
      omega
    · have := filesz_apart hsz
      rw [has_filesz]
      omega
    · have := curfinwbkoff_apart hoff
      rw [has_curfinwbkoff]
      omega

end Fields

/-! ## Writing -/

section Write

variable {img : Img} {f : Filblk} {buf : Nat → UInt8} {len b : Nat} {d : Dev}

/-- The buffer after `rfs_writefileblk` accepted: the bytes, the size and the offset. -/
def written (fmp : Img) (buf : Nat → UInt8) (len : Nat) : Img :=
  let img := halMemcpy buf fmp (fld fmp .curfinwbkoff) len
  let img := setFld img .filesz (add64 (fld img .filesz) len)
  setFld img .curfinwbkoff (add64 (fld img .curfinwbkoff) len)

/-- What `rfs_writefileblk` does with a file block. -/
theorem rfsWritefileblk_cases (hs : Shows img f) (hf : FileHd f.hd b) (d : Dev)
    (buf : Nat → UInt8) (len : Nat) :
    (fsysAlcblksz ≤ add64 f.hd.fmdCurfinwbkoff len ∧
      rfsWritefileblk d img buf len = (img, d, false)) ∨
    (add64 f.hd.fmdCurfinwbkoff len < fsysAlcblksz ∧ rfsWritefileblk d img buf len =
      (written img buf len, (writeRfsdevblk d (written img buf len)
        (fld (written img buf len) .curfwritebk)).1, true)) := by
  unfold rfsWritefileblk
  rw [hs.hd.sfblk, hs.hd.curfwritebk, hs.hd.blkstart, hs.hd.curfinwbkoff, hf.sfblk, hf.curfwritebk,
    hf.fbBlkstart, if_neg (by simp)]
  by_cases hroom : fsysAlcblksz ≤ add64 f.hd.fmdCurfinwbkoff len
  · rw [if_pos hroom]
    exact Or.inl ⟨hroom, rfl⟩
  · rw [if_neg hroom]
    refine Or.inr ⟨by omega, ?_⟩
    unfold written
    rw [hs.hd.curfinwbkoff]

/-- Outside the two fields, the buffer is what the copy made of it. -/
theorem written_out {o : Nat} (hsz : ¬ FmdField.filesz.Has o)
    (hoff : ¬ FmdField.curfinwbkoff.Has o) :
    written img buf len o = halMemcpy buf img (fld img .curfinwbkoff) len o :=
  (setFld_out hoff).trans (setFld_out hsz)

/-- A copy that does not wrap. -/
theorem halMemcpy_eq {off : Nat} (hlen : off + len < wordMod) (o : Nat) :
    halMemcpy buf img off len o = if off ≤ o ∧ o < off + len then buf (o - off) else img o := by
  unfold halMemcpy
  by_cases ho : off ≤ o ∧ o < off + len
  · rw [if_pos ho]
    have hmod : (off + (o - off)) % wordMod = o := by
      rw [Nat.add_sub_cancel' ho.1, Nat.mod_eq_of_lt (by omega)]
    have hhit := copyFrom_hit (M := wordMod) (d := off) (n := len) (f := img) (g := buf)
      (by omega) (i := o - off) (by omega)
    rwa [hmod] at hhit
  · rw [if_neg ho]
    refine copyFrom_miss fun i hi he => ho ?_
    rw [Nat.mod_eq_of_lt (by omega)] at he
    omega

/-- The header in front of the data. -/
theorem fld_halMemcpy {off : Nat} (hlen : off + len < wordMod) (hoff : ifstbkoff ≤ off)
    {x : FmdField} (hx : x.off + 8 ≤ ifstbkoff) : fld (halMemcpy buf img off len) x = fld img x :=
  rd64_congr fun k hk => by
    rw [halMemcpy_eq hlen, if_neg (by omega)]

/-- The two fields after a write that does not wrap. -/
theorem written_fields (hlen : fld img .curfinwbkoff + len < wordMod)
    (hoff : ifstbkoff ≤ fld img .curfinwbkoff) (hsz : fld img .filesz + len < wordMod) :
    fld (written img buf len) .filesz = fld img .filesz + len ∧
      fld (written img buf len) .curfinwbkoff = fld img .curfinwbkoff + len := by
  have hcopy : ∀ x : FmdField, x.off + 8 ≤ ifstbkoff →
      fld (halMemcpy buf img (fld img .curfinwbkoff) len) x = fld img x := fun x hx =>
    fld_halMemcpy hlen hoff hx
  unfold written
  constructor
  · rw [fld_setFld_curfinwbkoff (by decide), fld_setFld (add64_lt _ _), hcopy _ (by decide),
      add64_eq hsz]
  · rw [fld_setFld (add64_lt _ _), fld_setFld_filesz (by decide), hcopy _ (by decide),
      add64_eq hlen]

/-- **The bytes do what the file block does**, when the length does not wrap with the offset. -/
theorem rfsWritefileblk_shows (hs : Shows img f) (hf : FileHd f.hd b)
    (hlen : f.hd.fmdCurfinwbkoff + len < wordMod) (hsz : f.hd.fmdFilesz + len < wordMod)
    (d : Dev) (buf : Nat → UInt8) :
    (fsysAlcblksz ≤ f.hd.fmdCurfinwbkoff + len ∧
      rfsWritefileblk d img buf len = (img, d, false)) ∨
    (f.hd.fmdCurfinwbkoff + len < fsysAlcblksz ∧
      Shows (rfsWritefileblk d img buf len).1 (f.append buf len) ∧
      (rfsWritefileblk d img buf len).2.2 = true) := by
  have hfields : fld (written img buf len) .filesz = _ ∧ _ := written_fields
    (hs.hd.curfinwbkoff ▸ hlen) (hs.hd.curfinwbkoff ▸ hf.off) (hs.hd.filesz ▸ hsz)
  rw [hs.hd.filesz, hs.hd.curfinwbkoff] at hfields
  have hkeep : ∀ x : FmdField, x.off + 8 ≤ ifstbkoff → x ≠ .filesz → x ≠ .curfinwbkoff →
      fld (written img buf len) x = fld img x := by
    intro x hx hsz hoff
    unfold written
    rw [fld_setFld_curfinwbkoff hoff, fld_setFld_filesz hsz,
      fld_halMemcpy (hs.hd.curfinwbkoff ▸ hlen) (hs.hd.curfinwbkoff ▸ hf.off) hx]
  rcases rfsWritefileblk_cases hs hf d buf len with ⟨hout, hrun⟩ | ⟨hin, hrun⟩
  · rw [add64_eq hlen] at hout
    exact Or.inl ⟨hout, hrun⟩
  · rw [add64_eq hlen] at hin
    refine Or.inr ⟨hin, ?_, by rw [hrun]⟩
    rw [hrun]
    refine ⟨⟨?_, ?_, hfields.1, ?_, ?_, hfields.2, ?_⟩, fun o hlo hhi => ?_⟩
    · exact (hkeep _ (by decide) (by decide) (by decide)).trans hs.hd.type
    · exact (hkeep _ (by decide) (by decide) (by decide)).trans hs.hd.sfblk
    · exact (hkeep _ (by decide) (by decide) (by decide)).trans hs.hd.ifst
    · exact (hkeep _ (by decide) (by decide) (by decide)).trans hs.hd.curfwritebk
    · exact (hkeep _ (by decide) (by decide) (by decide)).trans hs.hd.blkstart
    · have hlo' : 0x200 ≤ o := hlo
      show written img buf len o = if _ then _ else _
      rw [written_out (by rw [has_filesz]; omega) (by rw [has_curfinwbkoff]; omega),
        hs.hd.curfinwbkoff, halMemcpy_eq hlen, hs.byte o hlo hhi]

/-- What a write does when it stays inside the block. -/
structure Inside (d : Dev) (fmp : Img) (buf : Nat → UInt8) (len : Nat) (r : Img × Dev × Bool) :
    Prop where
  accepted : r.2.2 = true → fld fmp .curfinwbkoff + len ≤ fsysAlcblksz ∧
    (∀ o < fsysAlcblksz, ¬ FmdField.filesz.Has o → ¬ FmdField.curfinwbkoff.Has o → r.1 o =
      if fld fmp .curfinwbkoff ≤ o ∧ o < fld fmp .curfinwbkoff + len then
        buf (o - fld fmp .curfinwbkoff) else fmp o) ∧
    fld r.1 .filesz = fld fmp .filesz + len ∧
    fld r.1 .curfinwbkoff = fld fmp .curfinwbkoff + len
  refused : r.2.2 = false → r.1 = fmp ∧ r.2.1 = d

/-- The size of a file and the offset of its end, within the block. -/
theorem filKept_size : FilKept fun f => f.hd.fmdFilesz + ifstbkoff = f.hd.fmdCurfinwbkoff ∧
    f.hd.fmdCurfinwbkoff < fsysAlcblksz where
  new n := by
    show 0 + 0x200 = 0x200 ∧ 0x200 < 0x1000
    omega
  append f buf len h hlen := by
    refine ⟨?_, hlen⟩
    show f.hd.fmdFilesz + len + ifstbkoff = f.hd.fmdCurfinwbkoff + len
    omega

theorem inside_iff (hs : Shows img f) (hf : FileHd f.hd b)
    (hsize : f.hd.fmdFilesz + ifstbkoff = f.hd.fmdCurfinwbkoff ∧
      f.hd.fmdCurfinwbkoff < fsysAlcblksz) (hlen : len < wordMod) :
    Inside d img buf len (rfsWriteFile d img (some buf) fsysAlcblksz len) ↔
      f.hd.fmdCurfinwbkoff + len < wordMod := by
  have hrw : rfsWriteFile d img (some buf) fsysAlcblksz len = rfsWritefileblk d img buf len := by
    unfold rfsWriteFile
    dsimp only
    rw [if_neg fun hne => hne rfl]
  have hblk : fsysAlcblksz = 4096 := rfl
  have hwords : wordMod = 18446744073709551616 := rfl
  rw [hrw]
  constructor
  · intro h
    by_contra hwrap
    -- the sum wraps to less than the offset, and the test lets it pass
    have hsum : add64 f.hd.fmdCurfinwbkoff len < fsysAlcblksz := by
      have hsub :
          (f.hd.fmdCurfinwbkoff + len) % wordMod = f.hd.fmdCurfinwbkoff + len - wordMod := by
        rw [Nat.mod_eq_sub_mod (by omega), Nat.mod_eq_of_lt (by omega)]
      unfold add64
      omega
    rcases rfsWritefileblk_cases hs hf d buf len with ⟨hout, -⟩ | ⟨-, hrun⟩
    · omega
    · rw [hrun] at h
      have hle := (h.accepted rfl).1
      rw [hs.hd.curfinwbkoff] at hle
      omega
  · intro hnw
    have hoff : fld img .curfinwbkoff = f.hd.fmdCurfinwbkoff := hs.hd.curfinwbkoff
    rcases rfsWritefileblk_cases hs hf d buf len with ⟨-, hrun⟩ | ⟨hin, hrun⟩
    · rw [hrun]
      exact ⟨fun h => (by cases h), fun _ => ⟨rfl, rfl⟩⟩
    · rw [hrun]
      rw [add64_eq hnw] at hin
      refine ⟨fun _ => ⟨by omega, fun o _ hsz hcur => ?_, ?_⟩, fun h => by cases h⟩
      · show written img buf len o = _
        rw [written_out hsz hcur, halMemcpy_eq (by omega)]
      · have hfilesz := hs.hd.filesz
        exact written_fields (by omega) (hoff ▸ hf.off) (by omega)

end Write

/-! ## New entries -/

section Entry

variable {img : Img} {dir : Dirblk} {fne : Name} {fblk : Nat}

/-- A new entry changes its own bytes and the two fields. -/
theorem newEnt_out {o : Nat} (hsz : ¬ FmdField.filesz.Has o) (hoff : ¬ FmdField.curfinwbkoff.Has o)
    (ho : o < fld img .curfinwbkoff ∨ fld img .curfinwbkoff + 25 + fne.length ≤ o) :
    newEnt img fne fblk o = img o := by
  unfold newEnt
  rw [setFld_out hoff, setFld_out hsz, put_out, put_out, put_out, put_out]
  all_goals simp only [le64_length, List.length_append, List.length_singleton]
  all_goals omega

theorem newEnt_type (hoff : 104 ≤ fld img .curfinwbkoff) :
    rd64 (newEnt img fne fblk) (fld img .curfinwbkoff + 8) = typeNr .fil := by
  unfold newEnt setFld
  rw [rd64_put_out, rd64_put_out, rd64_put_out, rd64_put_out, rd64_put (by decide)]
  all_goals simp only [le64_length, List.length_append, List.length_singleton, FmdField.off]
  all_goals omega

theorem newEnt_blknr (hoff : 104 ≤ fld img .curfinwbkoff) (hblk : fblk < 2 ^ 64) :
    rd64 (newEnt img fne fblk) (fld img .curfinwbkoff + 16) = fblk := by
  unfold newEnt setFld
  rw [rd64_put_out, rd64_put_out, rd64_put_out, rd64_put hblk]
  all_goals simp only [le64_length, List.length_append, List.length_singleton, FmdField.off]
  all_goals omega

/-- The two fields after a new entry behind the header. -/
theorem newEnt_fields (hoff : 104 ≤ fld img .curfinwbkoff) :
    fld (newEnt img fne fblk) .filesz = add64 (fld img .filesz) sizeofRfsdir ∧
      fld (newEnt img fne fblk) .curfinwbkoff =
        add64 (fld img .curfinwbkoff) sizeofRfsdir := by
  have hkeep : ∀ x : FmdField, x.off + 8 ≤ 104 → fld (put (put (put (put img
      (fld img .curfinwbkoff) (le64 0)) (fld img .curfinwbkoff + 8) (le64 (typeNr .fil)))
      (fld img .curfinwbkoff + 16) (le64 fblk)) (fld img .curfinwbkoff + 24) (fne ++ [0])) x =
        fld img x := by
    intro x hx
    unfold fld
    rw [rd64_put_out, rd64_put_out, rd64_put_out, rd64_put_out]
    all_goals unfold fld at hoff
    all_goals omega
  unfold newEnt
  constructor
  · rw [fld_setFld_curfinwbkoff (by decide), fld_setFld (add64_lt _ _), hkeep _ (by decide)]
  · rw [fld_setFld (add64_lt _ _), fld_setFld_filesz (by decide), hkeep _ (by decide)]

/-- A text of the right length is read back. -/
theorem cstr_of_at {p : Nat → UInt8} (h : At p 0 (fne ++ [0])) (hzero : 0 ∉ fne)
    (hlen : fne.length < drNmMax) : cstr p = fne := by
  have hsplit : drNmMax = (fne ++ [0]).length + (drNmMax - (fne.length + 1)) := by
    rw [List.length_append, List.length_singleton]
    omega
  have hfirst : (List.range (fne ++ [0]).length).map p = fne ++ [0] := by
    apply List.ext_getElem (by rw [List.length_map, List.length_range])
    intro i hi hi'
    rw [List.getElem_map, List.getElem_range, ← h i hi', Nat.zero_add]
  unfold cstr
  rw [hsplit, List.range_add, List.map_append, hfirst, List.append_assoc,
    List.takeWhile_append_of_pos]
  · simp
  · intro a ha
    have hne : a ≠ 0 := fun he => hzero (he ▸ ha)
    simpa using hne

/-- The name of a new entry. -/
theorem newEnt_name (hoff : 104 ≤ fld img .curfinwbkoff) :
    At (newEnt img fne fblk) (fld img .curfinwbkoff + 24) (fne ++ [0]) := by
  intro k hk
  unfold newEnt
  rw [setFld_out (by rw [has_curfinwbkoff]; omega), setFld_out (by rw [has_filesz]; omega)]
  exact at_put k hk

/-- **The bytes do what the directory block does**, when there is room for the entry. -/
theorem newEnt_shows (hs : ShowsDir img dir) {k : Nat} (hk : k < entMax)
    (hoff : dir.hd.fmdCurfinwbkoff = entOff k) (hsz : dir.hd.fmdFilesz + sizeofRfsdir < wordMod)
    (hblk : fblk < wordMod) (hlen : fne.length < drNmMax) (hzero : 0 ∉ fne) :
    ShowsDir (newEnt img fne fblk) (dir.addEnt fne fblk) := by
  have hcur : fld img .curfinwbkoff = 0x200 + 128 * k := hs.hd.curfinwbkoff.trans hoff
  have hmax : k < 28 := hk
  have hname : fne.length < 104 := hlen
  have h104 : 104 ≤ fld img .curfinwbkoff := by omega
  have hidx : entIdx dir.hd.fmdCurfinwbkoff = k := by
    rw [hoff]
    unfold entIdx entOff
    rw [Nat.add_sub_cancel_left]
    exact Nat.mul_div_cancel_left k (by decide)
  have hent : (dir.addEnt fne fblk).ent = Function.update dir.ent k ⟨.fil, fblk, fne⟩ := by
    rw [← hidx]
    rfl
  have hhead : ∀ x : FmdField, x.off + 8 ≤ 104 → x ≠ .filesz → x ≠ .curfinwbkoff →
      fld (newEnt img fne fblk) x = fld img x := by
    intro x hx hne hne'
    have h1 := filesz_apart hne
    have h2 := curfinwbkoff_apart hne'
    exact rd64_congr fun i hi => newEnt_out (by rw [has_filesz]; omega)
      (by rw [has_curfinwbkoff]; omega) (by omega)
  -- the bytes of the other entries
  have hother : ∀ j, j ≠ k → ∀ i < 128,
      newEnt img fne fblk (entOff j + i) = img (entOff j + i) := by
    intro j hj i hi
    have hjoff : entOff j = 0x200 + 128 * j := rfl
    exact newEnt_out (by rw [has_filesz]; omega) (by rw [has_curfinwbkoff]; omega) (by omega)
  have hat : entOff k = fld img .curfinwbkoff := hcur.symm
  refine ⟨⟨?_, ?_, ?_, ?_, ?_, ?_, ?_⟩, fun j hj => ?_, fun j hj => ?_, fun j hj => ?_⟩
  · exact (hhead _ (by decide) (by decide) (by decide)).trans hs.hd.type
  · exact (hhead _ (by decide) (by decide) (by decide)).trans hs.hd.sfblk
  · rw [(newEnt_fields h104).1, hs.hd.filesz, add64_eq hsz]
    rfl
  · exact (hhead _ (by decide) (by decide) (by decide)).trans hs.hd.ifst
  · exact (hhead _ (by decide) (by decide) (by decide)).trans hs.hd.curfwritebk
  · rw [(newEnt_fields h104).2, hs.hd.curfinwbkoff, add64_eq]
    · rfl
    · rw [hoff]
      show 0x200 + 128 * k + 128 < 2 ^ 64
      omega
  · refine (rd64_congr fun i hi => ?_).trans hs.hd.blkstart
    have hbase : (FmdField.blkstart 0).off = 104 := rfl
    exact newEnt_out (by rw [has_filesz]; omega) (by rw [has_curfinwbkoff]; omega) (by omega)
  · rw [hent]
    by_cases hjk : j = k
    · subst hjk
      rw [Function.update_self, hat]
      exact newEnt_type h104
    · rw [Function.update_of_ne hjk, ← hs.type j hj]
      apply rd64_congr
      intro i hi
      rw [Nat.add_assoc]
      exact hother j hjk _ (by omega)
  · rw [hent]
    by_cases hjk : j = k
    · subst hjk
      rw [Function.update_self, hat]
      exact newEnt_blknr h104 hblk
    · rw [Function.update_of_ne hjk, ← hs.blknr j hj]
      apply rd64_congr
      intro i hi
      rw [Nat.add_assoc]
      exact hother j hjk _ (by omega)
  · rw [hent]
    by_cases hjk : j = k
    · subst hjk
      rw [Function.update_self, hat]
      refine cstr_of_at (fun i hi => ?_) hzero hlen
      rw [Nat.zero_add]
      exact newEnt_name (by omega) i hi
    · rw [Function.update_of_ne hjk, ← hs.name j hj]
      unfold cstr
      refine congrArg _ (List.map_congr_left fun i hi => ?_)
      have hi : i < 104 := List.mem_range.mp hi
      rw [Nat.add_assoc]
      exact hother j hjk _ (by omega)

end Entry

/-! ## The header -/

section Header

variable {img : Img} {f : Filblk} {dir : Dirblk} {buf : Nat → UInt8} {len b : Nat} {d : Dev}

/-- The bytes of a write that fall on the header are those that are there. -/
def SameBytes (fmp : Img) (buf : Nat → UInt8) (len : Nat) : Prop :=
  ∀ i < len, HdByte ((fld fmp .curfinwbkoff + i) % wordMod) →
    buf i = fmp ((fld fmp .curfinwbkoff + i) % wordMod)

theorem written_hdKept_iff (hlen : len < wordMod) :
    HdKept img (written img buf len) ↔ SameBytes img buf len := by
  rw [hdKept_iff]
  constructor
  · intro h i hi ho
    rw [← h _ ho, written_out ho.2.1 ho.2.2]
    exact (copyFrom_hit (Nat.le_of_lt hlen) hi).symm
  · intro h o ho
    rw [written_out ho.2.1 ho.2.2]
    unfold halMemcpy
    by_cases hhit : ∃ i < len, (fld img .curfinwbkoff + i) % wordMod = o
    · obtain ⟨i, hi, rfl⟩ := hhit
      rw [copyFrom_hit (Nat.le_of_lt hlen) hi]
      exact h i hi ho
    · exact copyFrom_miss fun i hi he => hhit ⟨i, hi, he⟩

/-- Data that begin behind the header leave it alone. -/
theorem sameBytes_of_behind (hoff : sizeofFimgrhd ≤ fld img .curfinwbkoff)
    (hlen : fld img .curfinwbkoff + len < wordMod) : SameBytes img buf len := by
  intro i hi ho
  have hlt := ho.1
  rw [Nat.mod_eq_of_lt (by omega)] at hlt
  omega

/-- The first entry of a directory is not behind the header. -/
theorem newEnt_hdKept_iff (hs : ShowsDir img dir) (hr : RootOk dir) (fne : Name) {fblk : Nat} :
    HdKept img (newEnt img fne fblk) ↔ sizeofFimgrhd ≤ dir.hd.fmdCurfinwbkoff := by
  have hsize : sizeofFimgrhd = 632 := rfl
  obtain ⟨k, -, hoff, hfree⟩ := hr.room
  have hcur : fld img .curfinwbkoff = 0x200 + 128 * k := hs.hd.curfinwbkoff.trans hoff
  rw [hoff]
  constructor
  · intro h
    by_contra hin
    have hin : ¬ sizeofFimgrhd ≤ 0x200 + 128 * k := hin
    have hk : k = 0 := by omega
    subst hk
    -- the type of the entry is `fmd_fleblk[26].fb_blkstart`
    have hkept : rd64 (newEnt img fne fblk) 0x208 = rd64 img 0x208 :=
      h (.blkstart 26) (by decide) (by decide)
    have hold : rd64 img 0x208 = typeNr (dir.ent 0).rdrType := hs.type 0 (by decide)
    have hnew : rd64 (newEnt img fne fblk) 0x208 = typeNr .fil := by
      have h104 : 104 ≤ fld img .curfinwbkoff := by omega
      have htype : rd64 (newEnt img fne fblk) _ = _ := newEnt_type h104
      rwa [hcur] at htype
    have hty : typeNr .fil = typeNr (dir.ent 0).rdrType := hnew.symm.trans (hkept.trans hold)
    have hnot := hfree 0 (Nat.le_refl 0)
    revert hty hnot
    cases (dir.ent 0).rdrType <;> decide
  · intro hin
    have hin : sizeofFimgrhd ≤ 0x200 + 128 * k := hin
    rw [hdKept_iff]
    intro o ho
    have hlt := ho.1
    exact newEnt_out ho.2.1 ho.2.2 (by omega)

end Header

/-! ## Runs -/

/-- The size of the root directory and the offset of its end. -/
def RootSize (d : Drivers.Dev) : Prop :=
  ∀ dir, d.disk 2 = .dir dir → dir.hd.fmdFilesz + ifstbkoff = dir.hd.fmdCurfinwbkoff

section Runs

variable {d : Drivers.Dev} {s : RfsState} {bmp : Nat → UInt8} {dir : Dirblk}

theorem RootSize.of_blk {d' : Drivers.Dev} (h : RootSize d) (hd : d'.disk 2 = d.disk 2) :
    RootSize d' := fun dir hdir => h dir (hd.symm.trans hdir)

theorem rfsStep_rootSize (s : RfsState) (op : RfsOp) (s' : RfsState) (h : FsOk s ∧ RootSize s.dev)
    (hstep : rfsStep s op = .ok s') : FsOk s' ∧ RootSize s'.dev := by
  obtain ⟨hok, hsz⟩ := h
  refine ⟨rfsStep_fsOk s op s' hok hstep, ?_⟩
  obtain ⟨⟨bmp, dir, hinv⟩, hh⟩ := hok
  cases rfsStep_move hinv hh hstep with
  | same hd => exact hsz.of_blk (congrFun hd.1 2)
  | leaked hn hd => exact hsz.of_blk ((congrFun hd.1 2).trans (put_disk_ne _ _ (by decide)))
  | @made fname fne n d' hname hn hinv' hnew hd _ =>
      intro dir' hdir
      have hput : d'.disk 2 = .dir (dir.addEnt fne n) := (hinv'.same hd).dirblk
      rw [hput] at hdir
      cases hdir
      have hold := hsz dir hinv.dirblk
      show dir.hd.fmdFilesz + sizeofRfsdir + ifstbkoff = dir.hd.fmdCurfinwbkoff + sizeofRfsdir
      omega
  | opened hfree hk hblk hf hd => exact hsz.of_blk (congrFun hd.1 2)
  | wrote hi hlen hd =>
      have hgt := (hh _ _ hi).gt
      exact hsz.of_blk ((congrFun hd.1 2).trans (put_disk_ne _ _ (by omega)))
  | closed hi hd =>
      have hgt := (hh _ _ hi).gt
      exact hsz.of_blk ((congrFun hd.1 2).trans (put_disk_ne _ _ (by omega)))
  | @deleted fname flg fne k d' hk hd =>
      intro dir' hdir
      have hput : d'.disk 2 = .dir (dir.delEnt k) := (congrFun hd.1 2).trans (put_disk_self _ _ _)
      rw [hput] at hdir
      cases hdir
      exact hsz dir hinv.dirblk

theorem run_rootSize {alc : Nat → Bool} (hfmt : rfsFmat.run (devInit alc) = .ok ((), d))
    {ops : List RfsOp} (hrun : run rfsStep ops (RfsState.init d) = .ok s) :
    FsOk s ∧ RootSize s.dev := by
  refine run_inv _ rfsStep_rootSize ops _ s ⟨init_fsOk hfmt, fun dir hdir => ?_⟩ hrun
  have hinv := rfsFmat_spec rfl _ _ _ (Dev.Same.refl _) hfmt
  have hdir : d.disk 2 = .dir dir := hdir
  rw [hinv.dirblk] at hdir
  cases hdir
  rfl

/-- A file that was made has a good name. -/
theorem rfsNewFile_true (h : RfsInv d bmp dir) {fname : Nat → UInt8} {d' : Drivers.Dev}
    (hrun : (rfsNewFile fname).run d = .ok (true, d')) : ∃ fne n, NewName dir fname fne ∧
      freeBlknr bmp = some n ∧ dir.hd.fmdCurfinwbkoff < fsysAlcblksz ∧
        (d.withFile bmp dir fne n).Same d' := by
  have hleak : ¬ LeaksAt d bmp dir fname := by
    intro hl
    obtain ⟨n, k, -, hok⟩ := rfsNewFile_leaks h hl
    rw [hrun] at hok
    cases hok
  by_contra hno
  have hmade : ∀ fne, NewName dir fname fne → freeBlknr bmp ≠ none → d.AllAlc 10 →
      fsysAlcblksz ≤ dir.hd.fmdCurfinwbkoff := by
    intro fne hnew hf h10
    by_contra hroom
    obtain ⟨n, hn⟩ := Option.ne_none_iff_exists'.mp hf
    have hok := rfsNewFile_made h hnew hn h10 (by omega)
    rw [hrun] at hok
    cases hok
    exact hno ⟨fne, n, hnew, hn, by omega, Dev.same_skip _ 10⟩
  rcases rfsNewFile_refused h hleak hmade with ⟨k, hok⟩ | ⟨e, herr⟩
  · rw [hrun] at hok
    cases hok
  · rw [hrun] at herr
    cases herr

/-- A text has no zero in it. -/
theorem zero_not_mem_cstr (p : Nat → UInt8) : 0 ∉ cstr p := by
  intro h
  have hne := List.mem_takeWhile_imp h
  exact absurd hne (by decide)

/-- **A write stays inside the block exactly when** its length does not wrap with the offset of
the file, for every open file in every state that calls lead to. -/
theorem write_inside_iff (alc : Nat → Bool) (hfmt : rfsFmat.run (devInit alc) = .ok ((), d))
    (ops : List RfsOp) (hrun : run rfsStep ops (RfsState.init d) = .ok s) {i : Nat} {h : Handle}
    (hh : s.hand i = some h) {img : Img} (hs : Shows img h.finode) (rd : Dev)
    (buf : Nat → UInt8) {len : Nat} (hlen : len < wordMod) :
    Inside rd img buf len (rfsWriteFile rd img (some buf) fsysAlcblksz len) ↔
      h.finode.hd.fmdCurfinwbkoff + len < wordMod := by
  obtain ⟨⟨-, hhands⟩, -, hsize⟩ := run_allFil filKept_size alc hfmt ops hrun
  exact inside_iff hs (hhands i h hh) (hsize i h hh) hlen

/-- **Data leave the header alone exactly when** they are the bytes that are there, and an entry
of the root directory exactly when it begins behind the header. -/
theorem header_kept_iff (alc : Nat → Bool) (hfmt : rfsFmat.run (devInit alc) = .ok ((), d))
    (ops : List RfsOp) (hrun : run rfsStep ops (RfsState.init d) = .ok s) :
    (∀ i h img rd buf len, s.hand i = some h → Shows img h.finode → len < wordMod →
      (rfsWritefileblk rd img buf len).2.2 = true →
        (HdKept img (rfsWritefileblk rd img buf len).1 ↔ SameBytes img buf len)) ∧
    ∀ sb bmp dir fname d', OnDisk s.dev sb bmp dir → (rfsNewFile fname).run s.dev = .ok (true, d') →
      ∃ fne fblk, OnDisk d' sb (Function.update bmp fblk 1) (dir.addEnt fne fblk) ∧
        ∀ img, ShowsDir img dir → ShowsDir (newEnt img fne fblk) (dir.addEnt fne fblk) ∧
          (HdKept img (newEnt img fne fblk) ↔ sizeofFimgrhd ≤ dir.hd.fmdCurfinwbkoff) := by
  obtain ⟨⟨⟨bmp, dir, hinv⟩, hhands⟩, hsize⟩ := run_rootSize hfmt hrun
  constructor
  · intro i h img rd buf len hh hs hlen hok
    rcases rfsWritefileblk_cases hs (hhands i h hh) rd buf len with ⟨-, hrun⟩ | ⟨-, hrun⟩
    · rw [hrun] at hok
      cases hok
    · rw [hrun]
      exact written_hdKept_iff hlen
  · intro sb bmp' dir' fname d' ho hnew
    obtain ⟨rfl, rfl, rfl⟩ := hinv.onDisk_eq ho
    obtain ⟨fne, n, hname, hn, hroom, hsame⟩ := rfsNewFile_true hinv hnew
    obtain ⟨k, hk, hoff, -⟩ := hinv.root.room
    have hadd := hinv.addFile hn hroom fun i hi => findEnt_none hinv.root hname.fresh hi
    have hinv' := hadd.same hsame
    refine ⟨fne, n, hinv'.onDisk, fun img hs => ⟨?_, newEnt_hdKept_iff hs hinv.root fne⟩⟩
    have hfilesz := hsize dir' hinv.dirblk
    have hblk := (freeBlknr_some hn).2.1
    have hwords : wordMod = 18446744073709551616 := rfl
    rw [hoff] at hroom hfilesz
    have hroom : 0x200 + 128 * k < 0x1000 := hroom
    have hfilesz : dir'.hd.fmdFilesz + 0x200 = 0x200 + 128 * k := hfilesz
    have hmax : entMax = 28 := rfl
    have hent : sizeofRfsdir = 128 := rfl
    apply newEnt_shows hs (by omega) hoff (by omega) (by omega) hname.lt
    have hpath := hname.path
    unfold rfsRetFname at hpath
    split at hpath
    · cases hpath
    · cases hpath
      exact zero_not_mem_cstr _

end Runs

/-! ## An image of a block -/

/-- The words of a header, with zeros for what is left out. -/
def hdWords (hd : Fimgrhd) : List Nat :=
  [0, typeNr hd.fmdType, 0, hd.fmdSfblk, 0, 0, 0, 0, hd.fmdFilesz, hd.fmdFileifstbkoff, 0,
    hd.fmdCurfwritebk, hd.fmdCurfinwbkoff, hd.fbBlkstart, 1]

/-- A block with that header and these bytes behind it. -/
def imgOf (hd : Fimgrhd) (byte : Nat → UInt8) : Img := fun o =>
  if o < ifstbkoff then put (fun _ => 0) 0 (wordBytes (hdWords hd)) o else byte o

section Image

variable {hd : Fimgrhd} {byte : Nat → UInt8}

theorem showsHd_imgOf (hw : ∀ w ∈ hdWords hd, w < 2 ^ 64) : ShowsHd (imgOf hd byte) hd := by
  have hlen : (hdWords hd).length = 15 := rfl
  have hword : ∀ (i : Nat) (hi : i < (hdWords hd).length),
      rd64 (imgOf hd byte) (8 * i) = (hdWords hd)[i] := by
    intro i hi
    rw [← rd64_of_words (at_put (f := fun _ => 0)) hw i hi, Nat.zero_add]
    refine rd64_congr fun k hk => if_pos ?_
    show 8 * i + k < 0x200
    omega
  exact ⟨hword 1 (by omega), hword 3 (by omega), hword 8 (by omega), hword 9 (by omega),
    hword 11 (by omega), hword 12 (by omega), hword 13 (by omega)⟩

/-- An image of a file block. -/
theorem shows_imgOf {f : Filblk} (hw : ∀ w ∈ hdWords f.hd, w < 2 ^ 64) :
    Shows (imgOf f.hd f.byte) f :=
  ⟨showsHd_imgOf hw, fun _ hlo _ => if_neg (Nat.not_lt.mpr hlo)⟩

/-- An image of the root directory right after it was made. -/
theorem showsDir_imgOf : ShowsDir (imgOf rootdirInit.hd fun _ => 0) rootdirInit := by
  have hbyte : ∀ k i, imgOf rootdirInit.hd (fun _ => 0) (entOff k + i) = 0 := fun k i => by
    apply if_neg
    unfold entOff
    omega
  have hword : ∀ k i, rd64 (imgOf rootdirInit.hd fun _ => 0) (entOff k + i) = 0 := by
    intro k i
    have hzero : rd64 (fun _ => 0) 0 = 0 := rfl
    refine (rd64_congr fun j _ => ?_).trans hzero
    rw [Nat.add_assoc]
    exact hbyte k (i + j)
  refine ⟨showsHd_imgOf (by decide), fun k _ => hword k 8, fun k _ => hword k 16, fun k _ => ?_⟩
  have hfun : (fun i => imgOf rootdirInit.hd (fun _ => 0) (entOff k + 24 + i)) = fun _ => 0 := by
    funext i
    rw [Nat.add_assoc]
    exact hbyte k (24 + i)
  rw [hfun]
  show cstr (fun _ => 0) = []
  decide

end Image

/-- A file with an open handle. -/
def openOnce : List RfsOp := [.newFile pathA, .openFile 0 (some pathA)]

/-- A handle whose copy has a small header. -/
def smallHand (s : RfsState) (off : Nat) : Bool :=
  (s.hand 0).any fun h => h.finode.hd.fmdCurfinwbkoff = off &&
    (hdWords h.finode.hd).all fun w => w < 2 ^ 64

/-- A run that leaves such a handle. -/
theorem exists_hand (ops : List RfsOp) (off : Nat) (h : okAnd (rfsFmat.run (devInit fun _ => true))
    (fun r => okAnd (run rfsStep ops (RfsState.init r.2)) fun s => smallHand s off) = true) :
    ∃ d s h, rfsFmat.run (devInit fun _ => true) = .ok ((), d) ∧
      run rfsStep ops (RfsState.init d) = .ok s ∧ s.hand 0 = some h ∧
      h.finode.hd.fmdCurfinwbkoff = off ∧ Shows (imgOf h.finode.hd h.finode.byte) h.finode := by
  obtain ⟨d, hfmt, hq⟩ := exists_fmat (q := fun d =>
    okAnd (run rfsStep ops (RfsState.init d)) fun s => smallHand s off) h
  obtain ⟨s, hrun, hq⟩ := exists_of_okAnd hq
  obtain ⟨h, hh, hsmall⟩ := Option.any_eq_true _ _ |>.mp hq
  simp only [Bool.and_eq_true, decide_eq_true_eq, List.all_eq_true] at hsmall
  exact ⟨d, s, h, hfmt, hrun, hh, hsmall.1, shows_imgOf hsmall.2⟩

theorem write_inside_iff_openOnce : ∃ (img : Img) (rd : Dev),
    fld img .curfinwbkoff = 0x200 ∧ ∀ buf, Inside rd img buf 1
      (rfsWriteFile rd img (some buf) fsysAlcblksz 1) := by
  obtain ⟨d, s, h, hfmt, hrun, hh, hoff, hs⟩ := exists_hand openOnce 0x200 (by decide +kernel)
  refine ⟨_, ⟨fsmmBlk, fun _ _ => 0⟩, hs.hd.curfinwbkoff.trans hoff, fun buf => ?_⟩
  apply (write_inside_iff _ hfmt openOnce hrun hh hs _ buf (by decide)).mpr
  rw [hoff]
  decide

/-- A length that wraps: the write is accepted. -/
theorem write_not_inside : ¬ ∀ (alc : Nat → Bool) (d : Drivers.Dev) (ops : List RfsOp)
    (s : RfsState) (i : Nat) (h : Handle) (img : Img) (rd : Dev) (buf : Nat → UInt8) (len : Nat),
    rfsFmat.run (devInit alc) = .ok ((), d) → run rfsStep ops (RfsState.init d) = .ok s →
      s.hand i = some h → Shows img h.finode → len < wordMod →
        Inside rd img buf len (rfsWriteFile rd img (some buf) fsysAlcblksz len) := by
  intro hall
  obtain ⟨d, s, h, hfmt, hrun, hh, hoff, hs⟩ := exists_hand openOnce 0x200 (by decide +kernel)
  have hin := hall _ d openOnce s 0 h _ ⟨fsmmBlk, fun _ _ => 0⟩ (fun _ => 0) (wordMod - 0x200)
    hfmt hrun hh hs (by decide)
  obtain ⟨⟨-, hhands⟩, -, hsize⟩ := run_allFil filKept_size _ hfmt openOnce hrun
  have hnw := (inside_iff hs (hhands 0 h hh) (hsize 0 h hh) (by decide)).mp hin
  rw [hoff] at hnw
  exact absurd hnw (by decide)

/-- A byte behind the header of a file, and the first file of the root directory. -/
theorem header_kept_iff_first : ∃ (img dimg : Img) (rd : Dev),
    (∀ buf, HdKept img (rfsWritefileblk rd img buf 1).1) ∧
    ∃ fne fblk, ¬ HdKept dimg (newEnt dimg fne fblk) := by
  obtain ⟨d, s, h, hfmt, hrun, hh, hoff, hs⟩ := exists_hand
    (openOnce ++ [.writeFile 0 (some fun _ => 5) fsysAlcblksz 0x78]) 0x278 (by decide +kernel)
  have hcur := hs.hd.curfinwbkoff.trans hoff
  have hinv := rfsFmat_spec rfl _ _ _ (Dev.Same.refl _) hfmt
  have hnew : okAnd (rfsFmat.run (devInit fun _ => true)) fun r =>
      okAnd ((rfsNewFile pathA).run r.2) fun r => r.1 := by decide +kernel
  obtain ⟨d', hfmt', hnew⟩ := exists_fmat (q := fun d =>
    okAnd ((rfsNewFile pathA).run d) fun r => r.1) hnew
  obtain rfl := (Prod.ext_iff.mp (Except.ok.inj (hfmt.symm.trans hfmt'))).2
  obtain ⟨⟨b, d''⟩, hrun', hb⟩ := exists_of_okAnd hnew
  obtain rfl : b = true := hb
  obtain ⟨fne, fblk, -, hent⟩ :=
    (header_kept_iff _ hfmt [] rfl).2 _ _ _ _ _ hinv.onDisk hrun'
  refine ⟨imgOf h.finode.hd h.finode.byte, imgOf rootdirInit.hd fun _ => 0,
    ⟨fsmmBlk, fun _ _ => 0⟩, fun buf => ?_, fne, fblk, fun hk => ?_⟩
  · refine ((header_kept_iff _ hfmt _ hrun).1 0 h _ _ buf 1 hh hs (by decide) ?_).mpr
      (sameBytes_of_behind ?_ ?_)
    · obtain ⟨⟨-, hhands⟩, -⟩ := run_rootSize hfmt hrun
      rcases rfsWritefileblk_cases hs (hhands 0 h hh) ⟨fsmmBlk, fun _ _ => 0⟩ buf 1 with
        ⟨hout, -⟩ | ⟨-, hok⟩
      · rw [hoff] at hout
        exact absurd hout (by decide)
      · rw [hok]
    · exact Nat.le_of_eq hcur.symm
    · rw [hcur]
      decide
  · exact absurd ((hent _ showsDir_imgOf).2.mp hk) (by decide)

/-- The first byte that is written to a file is a byte of `fmd_fleblk[25].fb_blknr`. -/
theorem header_not_kept : ¬ ∀ (alc : Nat → Bool) (d : Drivers.Dev) (ops : List RfsOp)
    (s : RfsState) (i : Nat) (h : Handle) (img : Img) (rd : Dev) (buf : Nat → UInt8) (len : Nat),
    rfsFmat.run (devInit alc) = .ok ((), d) → run rfsStep ops (RfsState.init d) = .ok s →
      s.hand i = some h → Shows img h.finode → len < wordMod →
        (rfsWritefileblk rd img buf len).2.2 = true →
          HdKept img (rfsWritefileblk rd img buf len).1 := by
  intro hall
  obtain ⟨d, s, h, hfmt, hrun, hh, hoff, hs⟩ := exists_hand openOnce 0x200 (by decide +kernel)
  obtain ⟨⟨-, hhands⟩, -⟩ := run_rootSize hfmt hrun
  have hcur := hs.hd.curfinwbkoff.trans hoff
  -- one byte, other than the one at 0x200
  obtain ⟨buf, hbuf⟩ : ∃ buf : Nat → UInt8, buf 0 ≠ imgOf h.finode.hd h.finode.byte 0x200 := by
    rcases eq_or_ne (imgOf h.finode.hd h.finode.byte 0x200) 0 with hz | hz
    · exact ⟨fun _ => 1, by rw [hz]; decide⟩
    · exact ⟨fun _ => 0, hz.symm⟩
  have hkept := hall _ d openOnce s 0 h _ ⟨fsmmBlk, fun _ _ => 0⟩ buf 1 hfmt hrun hh hs (by decide)
  rcases rfsWritefileblk_cases hs (hhands 0 h hh) ⟨fsmmBlk, fun _ _ => 0⟩ buf 1 with
    ⟨hout, -⟩ | ⟨-, hok⟩
  · rw [hoff] at hout
    exact absurd hout (by decide)
  · rw [hok] at hkept
    have hsame := (written_hdKept_iff (by decide)).mp (hkept rfl) 0 (by decide)
    rw [hcur] at hsame
    exact hbuf (hsame (by decide))

end Cosmos.Drivers.Bytes
