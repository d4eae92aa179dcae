import Cosmos.Tools.Imgundo

/-!
# When unpacking ends

The copying loop of `limg_undoimg_onfhdsc` counts what `read` returned against the size of
the record, so it is over when the image has that many bytes from the offset of the record
on, and otherwise it reads nothing for ever.  A record can also carry the name of the image
itself, which is then truncated before it is read.

## Main results

* `undomain_ends_iff`: unpacking ends exactly if it gets to no record that claims bytes the
  image does not have.
* `Packed.cut_endless`: an image that was packed and then cut within its first file is
  unpacked for ever.
-/

namespace Cosmos.Tools

open Cosmos.Lib Cosmos.Lib.Files Cosmos.Lib.Word64

/-! ## The run with its turns -/

/-- What the file system makes of a name that is opened with `O_CREAT | O_TRUNC`: nothing, the
image itself, or another file.  The tool adds regular files only, so this stays as it is. -/
inductive Newfile
  | refused
  | image
  | other
  deriving DecidableEq, Repr

/-- `limg_newfile`: what it leaves of the image. -/
def limgNewfile (nf : List UInt8 → Newfile) (img : PFile) (name : List UInt8) :
    Except String PFile :=
  match nf name with
  | .refused => .error "new file"
  | .image => .ok .empty
  | .other => .ok img

/-- `limg_undoimg_onfhdsc` with at most `turns` turns of its loop.  Where the output is the image
itself the first read finds it empty, so that nothing is written to it either. -/
def undoimgOnfhdsc (nf : List UInt8 → Newfile) (turns : Fhdsc → Nat) (img : PFile) (fhd : Fhdsc)
    (dir : Dir) : Except String (PFile × Dir) := do
  let img ← limgNewfile nf img (cstr fhd.fhdName)
  if offMax < fhd.fhdIntsfsoff then .error "set leek"
  else
    let out ← undoimgLoop img (turns fhd) fhd.fhdIntsfsoff fhd.fhdFrealsz 0 []
    return (img, Function.update dir (cstr fhd.fhdName) (some out))

/-- `limg_run_undoimg`. -/
def runUndoimg (nf : List UInt8 → Newfile) (turns : Fhdsc → Nat) :
    PFile → Nat → Nat → Dir → Except String Dir
  | _, 0, _, dir => .ok dir
  | img, nr + 1, pos, dir => do
      let fhd ← undoReadNextfhdsc img pos
      let r ← undoimgOnfhdsc nf turns img fhd dir
      runUndoimg nf turns r.1 nr (pos + sizeofFhdsc) r.2

/-- `limg_undomain`. -/
def undomain (nf : List UInt8 → Newfile) (turns : Fhdsc → Nat) (img : PFile) (dir : Dir) :
    Except String Dir := do
  let md ← readMlosrddsc img
  runUndoimg nf turns img md.mdcFhdnr md.mdcFhdbkS dir

/-- Unpacking comes to an end, by itself or through `limg_error`. -/
def Ends (nf : List UInt8 → Newfile) (img : PFile) (dir : Dir) : Prop :=
  ∃ turns, undomain nf turns img dir ≠ .error "endless"

/-! ## Records that claim too much -/

/-- Record `i` of the image. -/
def fhdAt (img : PFile) (md : Mlosrddsc) (i : Nat) : Fhdsc :=
  Fhdsc.rd img.byte (md.mdcFhdbkS + sizeofFhdsc * i)

/-- The record claims bytes that are not in the image when they are copied. -/
structure Overruns (nf : List UInt8 → Newfile) (img : PFile) (fhd : Fhdsc) : Prop where
  pos : 0 < fhd.fhdFrealsz
  seek : fhd.fhdIntsfsoff ≤ offMax
  short : nf (cstr fhd.fhdName) = .image ∨
    nf (cstr fhd.fhdName) = .other ∧ img.len < fhd.fhdIntsfsoff + fhd.fhdFrealsz

/-- Record `i` is read: it and the ones before it are in the image, and the files of those were
copied. -/
structure Reached (nf : List UInt8 → Newfile) (img : PFile) (md : Mlosrddsc) (i : Nat) : Prop where
  lt : i < md.mdcFhdnr
  record : ∀ j ≤ i, md.mdcFhdbkS + sizeofFhdsc * j ≤ offMax ∧
    md.mdcFhdbkS + sizeofFhdsc * (j + 1) ≤ img.len
  copied : ∀ j < i, nf (cstr (fhdAt img md j).fhdName) = .other ∧
    (fhdAt img md j).fhdIntsfsoff ≤ offMax ∧ ¬ Overruns nf img (fhdAt img md j)

section Loop

variable {img : PFile} {pos fsz c : Nat} {out : List UInt8}

/-- A turn of the loop goes on by the bytes it reads. -/
theorem undoimgLoop_turn (fuel : Nat) (out : List UInt8) (hc : c < fsz)
    (hmax : c + (img.len - pos) ≤ offMax) :
    ∃ out', undoimgLoop img (fuel + 1) pos fsz c out =
      undoimgLoop img fuel (pos + min bfhBufSz (img.len - pos)) fsz
        (c + min bfhBufSz (img.len - pos)) out' := by
  have hoff : offMax = 2 ^ 63 - 1 := rfl
  have hlen := img.read_length pos bfhBufSz
  rw [undoimgLoop, if_neg (Nat.not_le.mpr hc)]
  simp only [hlen]
  rw [add64_eq (show _ < 2 ^ 64 by omega)]
  exact ⟨_, rfl⟩

/-- The loop is over when the bytes were there. -/
theorem undoimgLoop_ends (fuel : Nat) (hmax : c + (img.len - pos) ≤ offMax)
    (hall : fsz ≤ c + (img.len - pos)) (hfuel : fsz - c < fuel) :
    ∃ r, undoimgLoop img fuel pos fsz c out = .ok r := by
  have hbuf : bfhBufSz = 0x1000 := rfl
  induction fuel generalizing pos c out with
  | zero => exact absurd hfuel (Nat.not_lt_zero _)
  | succ fuel ih =>
      by_cases hend : fsz ≤ c
      · exact ⟨out, by rw [undoimgLoop, if_pos hend]⟩
      · obtain ⟨out', hturn⟩ := undoimgLoop_turn fuel out (Nat.lt_of_not_le hend) hmax
        rw [hturn]
        exact ih (by omega) (by omega) (by omega)

/-- Otherwise it is never over: what was read and what is left stay too small together. -/
theorem undoimgLoop_endless (fuel : Nat) (hmax : c + (img.len - pos) ≤ offMax)
    (hshort : c + (img.len - pos) < fsz) :
    undoimgLoop img fuel pos fsz c out = .error "endless" := by
  have hbuf : bfhBufSz = 0x1000 := rfl
  induction fuel generalizing pos c out with
  | zero => rfl
  | succ fuel ih =>
      have hc : c < fsz := Nat.lt_of_le_of_lt (Nat.le_add_right _ _) hshort
      obtain ⟨out', hturn⟩ := undoimgLoop_turn fuel out hc hmax
      rw [hturn]
      exact ih (by omega) (by omega)

/-- The loop can go wrong in no other way. -/
theorem undoimgLoop_cases (fuel : Nat) :
    undoimgLoop img fuel pos fsz c out = .error "endless" ∨
      ∃ r, undoimgLoop img fuel pos fsz c out = .ok r := by
  induction fuel generalizing pos c out with
  | zero => exact .inl rfl
  | succ fuel ih =>
      rw [undoimgLoop]
      split
      · exact .inr ⟨out, rfl⟩
      · exact ih

end Loop

section Records

variable {nf : List UInt8 → Newfile} {turns : Fhdsc → Nat} {img : PFile} {fhd : Fhdsc} {dir : Dir}
  {pos i k nr : Nat} {md : Mlosrddsc}

/-- A record is read if it is in the image. -/
theorem undoReadNextfhdsc_cases (img : PFile) (pos : Nat) :
    (pos ≤ offMax ∧ pos + sizeofFhdsc ≤ img.len ∧
        undoReadNextfhdsc img pos = .ok (Fhdsc.rd img.byte pos)) ∨
      ¬ (pos ≤ offMax ∧ pos + sizeofFhdsc ≤ img.len) ∧
        ∃ e, undoReadNextfhdsc img pos = .error e ∧ e ≠ "endless" := by
  have hsz : sizeofFhdsc = 256 := rfl
  unfold undoReadNextfhdsc
  rw [PFile.read_length]
  split
  · exact .inr ⟨by omega, _, rfl, by decide⟩
  · split
    · exact .inr ⟨by omega, _, rfl, by decide⟩
    · exact .inl ⟨by omega, by omega, rfl⟩

/-- The file of a record that claims too much is copied for ever. -/
theorem undoimgOnfhdsc_endless (hlen : img.len ≤ offMax) (h : Overruns nf img fhd) :
    undoimgOnfhdsc nf turns img fhd dir = .error "endless" := by
  have hseek : ¬ offMax < fhd.fhdIntsfsoff := Nat.not_lt.mpr h.seek
  have hpos := h.pos
  unfold undoimgOnfhdsc limgNewfile
  rcases h.short with hnf | ⟨hnf, hshort⟩
  · have hempty : PFile.empty.len = 0 := rfl
    have hloop := @undoimgLoop_endless .empty fhd.fhdIntsfsoff fhd.fhdFrealsz 0 [] (turns fhd)
      (by omega) (by omega)
    simp only [hnf, bind, Except.bind, if_neg hseek, hloop]
  · have hloop := @undoimgLoop_endless img fhd.fhdIntsfsoff fhd.fhdFrealsz 0 [] (turns fhd)
      (by omega) (by omega)
    simp only [hnf, bind, Except.bind, if_neg hseek, hloop]

/-- Copying any other record ends: in an error, with the image truncated, or with the file. -/
theorem undoimgOnfhdsc_cases (hlen : img.len ≤ offMax) (h : ¬ Overruns nf img fhd)
    (hturns : fhd.fhdFrealsz < turns fhd) :
    (∃ e, undoimgOnfhdsc nf turns img fhd dir = .error e ∧ e ≠ "endless") ∨
      (∃ dir', undoimgOnfhdsc nf turns img fhd dir = .ok (.empty, dir')) ∨
      nf (cstr fhd.fhdName) = .other ∧ fhd.fhdIntsfsoff ≤ offMax ∧
        ∃ dir', undoimgOnfhdsc nf turns img fhd dir = .ok (img, dir') := by
  unfold undoimgOnfhdsc limgNewfile
  cases hnf : nf (cstr fhd.fhdName) with
  | refused => exact .inl ⟨_, rfl, by decide⟩
  | image =>
      by_cases hseek : offMax < fhd.fhdIntsfsoff
      · refine .inl ⟨"set leek", ?_, by decide⟩
        simp only [bind, Except.bind, if_pos hseek]
      · have hzero : fhd.fhdFrealsz = 0 := by
          by_contra hne
          exact h ⟨Nat.pos_of_ne_zero hne, Nat.le_of_not_lt hseek, .inl hnf⟩
        obtain ⟨r, hr⟩ := @undoimgLoop_ends .empty fhd.fhdIntsfsoff fhd.fhdFrealsz 0 [] (turns fhd)
          (Nat.le_trans (Nat.le_of_eq (Nat.zero_add _)) (Nat.le_trans (Nat.sub_le _ _)
            (Nat.zero_le _))) (by omega) (by omega)
        refine .inr (.inl ⟨Function.update dir (cstr fhd.fhdName) (some r), ?_⟩)
        simp only [bind, Except.bind, if_neg hseek, hr]
        rfl
  | other =>
      by_cases hseek : offMax < fhd.fhdIntsfsoff
      · refine .inl ⟨"set leek", ?_, by decide⟩
        simp only [bind, Except.bind, if_pos hseek]
      · have hall : fhd.fhdFrealsz ≤ 0 + (img.len - fhd.fhdIntsfsoff) := by
          by_contra hne
          exact h ⟨by omega, Nat.le_of_not_lt hseek, .inr ⟨hnf, by omega⟩⟩
        obtain ⟨r, hr⟩ := @undoimgLoop_ends img fhd.fhdIntsfsoff fhd.fhdFrealsz 0 [] (turns fhd)
          (by omega) hall (by omega)
        refine .inr (.inr ⟨rfl, Nat.le_of_not_lt hseek,
          Function.update dir (cstr fhd.fhdName) (some r), ?_⟩)
        simp only [bind, Except.bind, if_neg hseek, hr]
        rfl

/-- Where the output is another file, only the loop can fail. -/
theorem undoimgOnfhdsc_other (hnf : nf (cstr fhd.fhdName) = .other)
    (hseek : fhd.fhdIntsfsoff ≤ offMax) :
    undoimgOnfhdsc nf turns img fhd dir = .error "endless" ∨
      ∃ dir', undoimgOnfhdsc nf turns img fhd dir = .ok (img, dir') := by
  have hseek' : ¬ offMax < fhd.fhdIntsfsoff := Nat.not_lt.mpr hseek
  unfold undoimgOnfhdsc limgNewfile
  rcases @undoimgLoop_cases img fhd.fhdIntsfsoff fhd.fhdFrealsz 0 [] (turns fhd) with hr | ⟨r, hr⟩
  · left
    simp only [hnf, bind, Except.bind, if_neg hseek', hr]
  · refine .inr ⟨Function.update dir (cstr fhd.fhdName) (some r), ?_⟩
    simp only [hnf, bind, Except.bind, if_neg hseek', hr]
    rfl

/-- An image that was truncated has no next record. -/
theorem runUndoimg_empty (nr pos : Nat) (dir : Dir) :
    runUndoimg nf turns .empty nr pos dir ≠ .error "endless" := by
  cases nr with
  | zero => exact fun h => nomatch h
  | succ nr =>
      rcases undoReadNextfhdsc_cases .empty pos with ⟨-, hin, -⟩ | ⟨-, e, he, hne⟩
      · have hempty : PFile.empty.len = 0 := rfl
        have hsz : sizeofFhdsc = 256 := rfl
        omega
      · rw [runUndoimg, he]
        exact fun h => hne (Except.error.inj h)

/-- The position of the next record. -/
theorem fhdsc_next (md : Mlosrddsc) (k : Nat) :
    md.mdcFhdbkS + sizeofFhdsc * k + sizeofFhdsc = md.mdcFhdbkS + sizeofFhdsc * (k + 1) := by
  rw [Nat.mul_succ, Nat.add_assoc]

/-- From any record on up to one that claims too much, the run does not end; the induction is
on the records in between. -/
theorem runUndoimg_endless (hlen : img.len ≤ offMax) (hi : Reached nf img md i)
    (hover : Overruns nf img (fhdAt img md i)) (d : Nat) :
    ∀ k nr dir, k + d = i → i < k + nr →
      runUndoimg nf turns img nr (md.mdcFhdbkS + sizeofFhdsc * k) dir = .error "endless" := by
  induction d with
  | zero =>
      intro k nr dir hk hnr
      obtain ⟨nr, rfl⟩ : ∃ n, nr = n + 1 := ⟨nr - 1, by omega⟩
      rw [Nat.add_zero] at hk
      subst hk
      obtain ⟨hoff, hin⟩ := hi.record k (Nat.le_refl k)
      rcases undoReadNextfhdsc_cases img (md.mdcFhdbkS + sizeofFhdsc * k) with
        ⟨-, -, hread⟩ | ⟨hno, -⟩
      · have hstep := @undoimgOnfhdsc_endless nf turns img _ dir hlen hover
        rw [runUndoimg, hread]
        simp only [bind, Except.bind]
        rw [show undoimgOnfhdsc nf turns img (Fhdsc.rd img.byte _) dir = _ from hstep]
      · rw [fhdsc_next] at hno
        exact absurd ⟨hoff, hin⟩ hno
  | succ d ih =>
      intro k nr dir hk hnr
      obtain ⟨nr, rfl⟩ : ∃ n, nr = n + 1 := ⟨nr - 1, by omega⟩
      obtain ⟨hoff, hin⟩ := hi.record k (by omega)
      obtain ⟨hnf, hseek, -⟩ := hi.copied k (by omega)
      rcases undoReadNextfhdsc_cases img (md.mdcFhdbkS + sizeofFhdsc * k) with
        ⟨-, -, hread⟩ | ⟨hno, -⟩
      · rw [runUndoimg, hread]
        simp only [bind, Except.bind]
        rcases @undoimgOnfhdsc_other nf turns img (fhdAt img md k) dir hnf hseek with h | ⟨dir', h⟩
        · rw [show undoimgOnfhdsc nf turns img (Fhdsc.rd img.byte _) dir = _ from h]
        · rw [show undoimgOnfhdsc nf turns img (Fhdsc.rd img.byte _) dir = _ from h]
          have hrest := ih (k + 1) nr dir' (by omega) (by omega)
          rw [← fhdsc_next] at hrest
          exact hrest
      · rw [fhdsc_next] at hno
        exact absurd ⟨hoff, hin⟩ hno

/-- From record `k` on the run ends, when it got there and meets no record that claims too
much. -/
theorem runUndoimg_ends (hlen : img.len ≤ offMax)
    (hgood : ∀ i, Reached nf img md i → ¬ Overruns nf img (fhdAt img md i))
    (hturns : ∀ fhd : Fhdsc, fhd.fhdFrealsz < turns fhd) (nr : Nat) :
    ∀ k dir, k + nr = md.mdcFhdnr →
      (∀ j < k, (md.mdcFhdbkS + sizeofFhdsc * j ≤ offMax ∧
          md.mdcFhdbkS + sizeofFhdsc * (j + 1) ≤ img.len) ∧
        nf (cstr (fhdAt img md j).fhdName) = .other ∧ (fhdAt img md j).fhdIntsfsoff ≤ offMax ∧
          ¬ Overruns nf img (fhdAt img md j)) →
      runUndoimg nf turns img nr (md.mdcFhdbkS + sizeofFhdsc * k) dir ≠ .error "endless" := by
  induction nr with
  | zero => exact fun _ _ _ _ h => nomatch h
  | succ nr ih =>
      intro k dir hk hbefore
      rcases undoReadNextfhdsc_cases img (md.mdcFhdbkS + sizeofFhdsc * k) with
        ⟨hoff, hin, hread⟩ | ⟨-, e, he, hne⟩
      · rw [fhdsc_next] at hin
        have hreached : Reached nf img md k := by
          refine ⟨by omega, fun j hj => ?_, fun j hj => (hbefore j hj).2⟩
          rcases Nat.lt_or_eq_of_le hj with hlt | rfl
          · exact (hbefore j hlt).1
          · exact ⟨hoff, hin⟩
        have hno := hgood k hreached
        rw [runUndoimg, hread]
        simp only [bind, Except.bind]
        rcases @undoimgOnfhdsc_cases nf turns img (fhdAt img md k) dir hlen hno (hturns _) with
          ⟨e, h, hne⟩ | ⟨dir', h⟩ | ⟨hnf, hseek, dir', h⟩
        · rw [show undoimgOnfhdsc nf turns img (Fhdsc.rd img.byte _) dir = _ from h]
          exact fun h => hne (Except.error.inj h)
        · rw [show undoimgOnfhdsc nf turns img (Fhdsc.rd img.byte _) dir = _ from h]
          exact runUndoimg_empty nr _ dir'
        · rw [show undoimgOnfhdsc nf turns img (Fhdsc.rd img.byte _) dir = _ from h]
          rw [fhdsc_next]
          refine ih (k + 1) dir' (by omega) fun j hj => ?_
          rcases Nat.lt_or_eq_of_le (Nat.le_of_lt_succ hj) with hlt | rfl
          · exact hbefore j hlt
          · exact ⟨⟨hoff, hin⟩, hnf, hseek, hno⟩
      · rw [runUndoimg, he]
        exact fun h => hne (Except.error.inj h)

/-- Reading the descriptor ends. -/
theorem readMlosrddsc_ends (img : PFile) : readMlosrddsc img ≠ .error "endless" := by
  unfold readMlosrddsc sumMlorddsc
  simp only [bind, Except.bind, throw, throwThe, MonadExceptOf.throw]
  generalize Mlosrddsc.rd img.byte 0x1000 = md
  split
  · simp
  · split_ifs
    · simp
    · simp
    · exact fun h => nomatch h
    · simp

end Records

/-- **When unpacking ends.**  Exactly if no record that is read, with its bytes in the image and
the files before it copied, has a length above 0 and claims bytes that the image does not have. -/
theorem undomain_ends_iff (nf : List UInt8 → Newfile) (img : PFile) (dir : Dir)
    (hlen : img.len ≤ offMax) :
    Ends nf img dir ↔ ∀ md, readMlosrddsc img = .ok md →
      ∀ i, Reached nf img md i → ¬ Overruns nf img (fhdAt img md i) := by
  constructor
  · rintro ⟨turns, hends⟩ md hmd i hi hover
    apply hends
    rw [undomain, hmd]
    have hrun := @runUndoimg_endless nf turns img i md hlen hi hover i 0 md.mdcFhdnr dir
      (Nat.zero_add _) (by have := hi.lt; omega)
    exact hrun
  · intro hgood
    refine ⟨fun fhd => fhd.fhdFrealsz + 1, ?_⟩
    rw [undomain]
    cases hmd : readMlosrddsc img with
    | error e =>
        intro h
        have he : e = "endless" := Except.error.inj h
        exact readMlosrddsc_ends img (by rw [hmd, he])
    | ok md =>
        exact runUndoimg_ends hlen (hgood md hmd) (fun _ => Nat.lt_succ_self _) md.mdcFhdnr 0 dir
          (Nat.zero_add _) fun j hj => absurd hj (Nat.not_lt_zero j)

/-! ## Images of the packing tool -/

/-- Without the image's own name, and with the turns that the model of unpacking allows, this is
`limg_undomain` as it is modelled there. -/
theorem limgUndomain_eq (img : PFile) (dir : Dir) :
    limgUndomain img dir = undomain (fun _ => .other) (fun fhd => fhd.fhdFrealsz + 1) img dir := by
  have hrun : ∀ nr pos dir, limgRunUndoimg img nr pos dir =
      runUndoimg (fun _ => .other) (fun fhd => fhd.fhdFrealsz + 1) img nr pos dir := by
    intro nr
    induction nr with
    | zero => exact fun _ _ => rfl
    | succ nr ih =>
        intro pos dir
        rw [limgRunUndoimg, runUndoimg]
        refine congrArg (undoReadNextfhdsc img pos >>= ·) (funext fun fhd => ?_)
        unfold limgUndoimgOnfhdsc undoimgOnfhdsc limgNewfile
        simp only [bind, Except.bind, throw, throwThe, MonadExceptOf.throw]
        by_cases hseek : offMax < fhd.fhdIntsfsoff
        · simp only [if_pos hseek]
        · simp only [if_neg hseek]
          cases undoimgLoop img (fhd.fhdFrealsz + 1) fhd.fhdIntsfsoff fhd.fhdFrealsz 0 [] with
          | error e => rfl
          | ok out => exact ih _ _
  unfold limgUndomain undomain
  exact congrArg (readMlosrddsc img >>= ·) (funext fun md => hrun _ _ _)

section Images

variable {m : Mparam} {img : PFile} {n : Nat}

/-- The image cut off behind `n` bytes. -/
def cutAt (f : PFile) (n : Nat) : PFile where
  len := min n f.len
  byte i := if i < n then f.byte i else 0
  zero i hi := by
    split
    · exact f.zero i (by omega)
    · rfl

/-- A packed image has the bytes of all its records. -/
theorem Packed.not_overruns (h : Packed m img) (nf : List UInt8 → Newfile) {i : Nat}
    (hi : i < m.infile.length) (hnf : nf m.infile[i].pathname = .other) :
    ¬ Overruns nf img (fhdAt img (imgMlosrddsc m) i) := by
  obtain ⟨sum, hrd⟩ := h.fhdsc_rd hi fun k _ => rfl
  have hat : fhdAt img (imgMlosrddsc m) i = imgFhdsc m i hi sum := hrd
  rw [hat]
  intro hover
  rcases hover.short with hself | ⟨-, hshort⟩
  · rw [imgFhdsc_name, hnf] at hself
    cases hself
  · have hend : fileStart m i + m.infile[i].data.length ≤ fileStart m m.infile.length :=
      fileStart_add_le hi hi
    rw [h.len] at hshort
    exact absurd hshort (Nat.not_lt.mpr hend)

/-- The descriptor of a packed image is read from the cut image, too. -/
theorem Packed.cut_readMlosrddsc (h : Packed m img) (hn : 0x2000 ≤ n) :
    Tools.readMlosrddsc (cutAt img n) = .ok (imgMlosrddsc m) := by
  have hsize : sizeofMlosrddsc = 176 := rfl
  have hmd : Mlosrddsc.rd (cutAt img n).byte 0x1000 = imgMlosrddsc m :=
    h.mlosrddsc_rd fun k hk => if_pos (by omega)
  have hwhole := h.readMlosrddsc
  unfold Tools.readMlosrddsc at hwhole ⊢
  have hlen : ¬ img.len < 0x1000 := by
    intro hlt
    simp only [bind, Except.bind, if_pos hlt, throw, throwThe, MonadExceptOf.throw] at hwhole
    cases hwhole
  have hcut : ¬ (cutAt img n).len < 0x1000 := by
    show ¬ min n img.len < 0x1000
    omega
  rw [if_neg hlen, h.mlosrddsc_rd fun k _ => rfl] at hwhole
  rw [if_neg hcut, hmd]
  exact hwhole

/-- **A packed image that is cut within its first file** is unpacked for ever. -/
theorem Packed.cut_endless (h : Packed m img) (nf : List UInt8 → Newfile)
    (turns : Fhdsc → Nat) (dir : Dir) (hpos : 0 < m.infile.length)
    (hnf : nf m.infile[0].pathname = .other) (hlo : 0x2100 ≤ n)
    (hhi : n < fileStart m 0 + m.infile[0].data.length) :
    undomain nf turns (cutAt img n) dir = .error "endless" := by
  have hsz : sizeofFhdsc = 256 := rfl
  have hmax : offMax = 2 ^ 63 - 1 := rfl
  have hsmall := h.small
  have himg := h.len
  have hlen : (cutAt img n).len = n := by
    have hend := fileStart_add_le hpos (Nat.le_refl 1)
    have hmono : fileStart m 1 ≤ fileStart m m.infile.length := fileStart_mono hpos
    show min n img.len = n
    omega
  obtain ⟨sum, hrd⟩ := h.fhdsc_rd hpos (f := (cutAt img n).byte) (a := 0x2000)
    fun k hk => if_pos (by omega)
  have hat : fhdAt (cutAt img n) (imgMlosrddsc m) 0 = imgFhdsc m 0 hpos sum := hrd
  have hreached : Reached nf (cutAt img n) (imgMlosrddsc m) 0 := by
    refine ⟨hpos, fun j hj => ?_, fun j hj => absurd hj (Nat.not_lt_zero j)⟩
    obtain rfl : j = 0 := Nat.le_zero.mp hj
    rw [hlen]
    show 0x2000 + 256 * 0 ≤ offMax ∧ 0x2000 + 256 * (0 + 1) ≤ n
    omega
  have hover : Overruns nf (cutAt img n) (fhdAt (cutAt img n) (imgMlosrddsc m) 0) := by
    rw [hat]
    refine ⟨h.data_pos hpos, h.fileStart_le (Nat.zero_le _), .inr ⟨?_, ?_⟩⟩
    · rw [imgFhdsc_name]
      exact hnf
    · rw [hlen]
      exact hhi
  have hcut : (cutAt img n).len ≤ offMax :=
    Nat.le_trans (Nat.min_le_right n img.len) (himg.trans_le hsmall)
  have hrun := @runUndoimg_endless nf turns (cutAt img n) 0 (imgMlosrddsc m) hcut hreached hover
    0 0 m.infile.length dir rfl (by rw [Nat.zero_add]; exact hpos)
  rw [undomain, h.cut_readMlosrddsc (by omega)]
  exact hrun

theorem twoFiles_image : ∃ img, limgKrnlModeRun twoFiles = .ok img := by
  obtain ⟨img, himg, -⟩ := Run.exists_of_okAnd (e := limgKrnlModeRun twoFiles) (q := fun _ => true)
    (by decide +kernel)
  exact ⟨img, himg⟩

/-- The image of two files is unpacked to its end. -/
theorem undomain_ends_twoFiles :
    ∃ img, limgKrnlModeRun twoFiles = .ok img ∧ Ends (fun _ => .other) img (fun _ => none) := by
  obtain ⟨img, himg⟩ := twoFiles_image
  have h := packed_of_run himg
  refine ⟨img, himg, (undomain_ends_iff _ img _ (h.len.trans_le h.small)).mpr ?_⟩
  intro md hmd i hi
  rw [h.readMlosrddsc] at hmd
  cases hmd
  exact h.not_overruns _ hi.lt rfl

/-- Cut off behind 0x3000 bytes, it is not. -/
theorem undomain_endless_twoFiles : ∃ img, limgKrnlModeRun twoFiles = .ok img ∧
    ∀ turns, undomain (fun _ => .other) turns (cutAt img 0x3000) (fun _ => none) =
      .error "endless" := by
  obtain ⟨img, himg⟩ := twoFiles_image
  have h := packed_of_run himg
  refine ⟨img, himg, fun turns => h.cut_endless _ turns _ (by decide) rfl (by decide) ?_⟩
  have hdata : (twoFiles.infile[0]).data.length = 5000 := List.length_replicate
  rw [hdata, fileStart_zero]
  omega

end Images

end Cosmos.Tools
