import Cosmos.Drivers.DrvrfsBufs

/-!
# Making a file, call by call of `new_buf`

`rfs_new_file` takes a block from the bitmap before it looks at the root directory.  When it
gets no buffer for the directory then, or the directory block is used up, it fails and the
block stays marked.  Entries are appended, and an entry that was marked deleted is not used
again, so that the directory block is used up after as many files as it has entries, whether
they are still there or not.

## Main results

* `bitmap_exact_iff` and `bitmap_not_exact` : a failed call leaves the blocks alone, and the
  bitmap marks what is in use, as long as no call fails behind the bitmap.
* `newFile_room_iff` and `newFile_no_room` : a file can be made while the directory block is
  not used up.
-/

namespace Cosmos.Drivers

open Cosmos.Lib.Run Cosmos.Lib.StM

/-- `n` calls of `new_buf` later. -/
def Dev.skip (d : Dev) (n : Nat) : Dev := { d with tick := d.tick + n }

/-- The next `n` calls of `new_buf` succeed. -/
def Dev.AllAlc (d : Dev) (n : Nat) : Prop := ∀ i < n, d.alc (d.tick + i) = true

instance (d : Dev) (n : Nat) : Decidable (d.AllAlc n) :=
  inferInstanceAs (Decidable (∀ i < n, _))

@[simp] theorem skip_disk (d : Dev) (n : Nat) : (d.skip n).disk = d.disk := rfl

@[simp] theorem skip_skip (d : Dev) (n k : Nat) : (d.skip n).skip k = d.skip (n + k) := by
  unfold Dev.skip
  rw [Nat.add_assoc]

theorem skip_put (d : Dev) (n b : Nat) (blk : Blk) : (d.skip n).put b blk = (d.put b blk).skip n :=
  rfl

theorem Dev.same_skip (d : Dev) (n : Nat) : d.Same (d.skip n) := ⟨rfl, rfl⟩

section Skip

variable {d : Dev} {n k : Nat}

theorem Dev.AllAlc.mono (h : d.AllAlc n) (hk : k ≤ n) : d.AllAlc k :=
  fun i hi => h i (Nat.lt_of_lt_of_le hi hk)

theorem dev_allAlc_add (k : Nat) : d.AllAlc (k + n) ↔ d.AllAlc k ∧ (d.skip k).AllAlc n :=
  Bufs.allAlc_add (m := ⟨d, []⟩) k []

theorem dev_allAlc_one : d.AllAlc 1 ↔ d.alc d.tick = true := by
  constructor
  · exact fun h => h 0 (by decide)
  · intro h i hi
    obtain rfl : i = 0 := by omega
    exact h

end Skip

/-- `x` returns `a` if it gets the `n` buffers it asks for, and nothing else; in both cases
the blocks stay as they are. -/
def Needs {α : Type} (x : RfsM (Option α)) (n : Nat) (a : α) (d : Dev) : Prop :=
  (d.AllAlc n ∧ x.run d = .ok (some a, d.skip n)) ∨
    (¬ d.AllAlc n ∧ ∃ k, x.run d = .ok (none, d.skip k))

section Calls

variable {d : Dev} {bmp : Nat → UInt8} {dir : Dirblk} (h : RfsInv d bmp dir)

theorem newBuf_run (d : Dev) : newBuf.run d = .ok (d.alc d.tick, d.skip 1) := rfl

theorem RfsInv.skip {d : Dev} (h : RfsInv d bmp dir) (n : Nat) : RfsInv (d.skip n) bmp dir :=
  h.same (d.same_skip n)

theorem readRfsdevblk_run {d : Dev} (hm : d.rdeMsize = fsmmBlk) {b : Nat} (hb : b < 1024) :
    (readRfsdevblk b).run d = .ok (some (d.disk b), d) := by
  have hin := (retRfsdevblk_iff hm b).mpr hb
  unfold readRfsdevblk
  rw [run_get_bind, if_pos hin]
  rfl

include h in
theorem getSuperblk_needs : Needs getSuperblk 1 sublkFmat d := by
  unfold Needs getSuperblk
  rw [dev_allAlc_one, run_bind_ok (newBuf_run d)]
  cases halc : d.alc d.tick with
  | false => exact Or.inr ⟨Bool.false_ne_true, 1, rfl⟩
  | true =>
      refine Or.inl ⟨rfl, ?_⟩
      rw [if_pos rfl, run_bind_ok (readRfsdevblk_run (d := d.skip 1) h.msize (by decide))]
      rw [skip_disk, h.sup]
      rfl

theorem delSuperblk_run {d : Dev} (hm : d.rdeMsize = fsmmBlk) (hs : d.disk 0 = .sup sublkFmat) :
    (delSuperblk sublkFmat).run d = .ok ((), d) := by
  unfold delSuperblk
  rw [run_bind_ok (writeRfsdevblk_ok hm (by decide) _), if_pos rfl]
  show Except.ok ((), d.put 0 (.sup sublkFmat)) = _
  unfold Dev.put
  rw [← hs, Function.update_eq_self]

include h in
theorem getRootdirfileBlk_needs : Needs getRootdirfileBlk 3 dir d := by
  rcases Bufs.getRootdirfileBlk_run (m := ⟨d, []⟩) h.msize h.sup h.dirblk with
    ⟨h3, hrun⟩ | ⟨h3, k, hrun⟩
  · exact Or.inl ⟨h3, Bufs.erases_getRootdirfileBlk _ _ _ hrun⟩
  · exact Or.inr ⟨h3, k, Bufs.erases_getRootdirfileBlk _ _ _ hrun⟩

include h in
/-- `rfs_chkfileisindev` finds out, when it gets its buffers. -/
theorem rfsChkfileisindev_cases (fne : Name) :
    ((1 ≤ fne.length ∧ fne.length < drNmMax ∧ d.AllAlc 3) ∧ (rfsChkfileisindev fne).run d
      = .ok (if (findEnt dir fne).isSome then 1 else 0, d.skip 3)) ∨
    (¬ (1 ≤ fne.length ∧ fne.length < drNmMax ∧ d.AllAlc 3) ∧ ∃ k r, r ≠ 0 ∧
      (rfsChkfileisindev fne).run d = .ok (r, d.skip k)) := by
  rcases Bufs.rfsChkfileisindev_run (m := ⟨d, []⟩) h fne with ⟨hc, hrun⟩ | ⟨hc, k, r, hr, hrun⟩
  · exact Or.inl ⟨hc, Bufs.erases_rfsChkfileisindev fne _ _ _ hrun⟩
  · exact Or.inr ⟨hc, k, r, hr, Bufs.erases_rfsChkfileisindev fne _ _ _ hrun⟩

theorem delRootdirfileBlk_put {d : Dev} (hm : d.rdeMsize = fsmmBlk) {dir' : Dirblk}
    (hroot : dir'.hd.fmdSfblk = 2) :
    (delRootdirfileBlk dir').run d = .ok ((), d.put 2 (.dir dir')) := by
  unfold delRootdirfileBlk
  rw [hroot, run_bind_ok (writeRfsdevblk_ok hm (by decide) _), if_pos rfl]
  rfl

include h in
theorem delRootdirfileBlk_same : (delRootdirfileBlk dir).run d = .ok ((), d) := by
  rw [delRootdirfileBlk_put h.msize h.root.sfblk]
  unfold Dev.put
  rw [← h.dirblk, Function.update_eq_self]

include h in
theorem getBitmapblk_needs : Needs getBitmapblk 2 bmp d := by
  unfold getBitmapblk
  rcases getSuperblk_needs h with ⟨h1, hrun⟩ | ⟨h1, k, hrun⟩
  · have hiff := dev_allAlc_add (d := d) (n := 1) 1
    unfold Needs
    rw [run_bind_ok hrun, hiff, dev_allAlc_one (d := d.skip 1)]
    dsimp only
    rw [run_bind_ok (newBuf_run _), skip_skip]
    cases halc : (d.skip 1).alc (d.skip 1).tick with
    | false => exact Or.inr ⟨fun hall => Bool.false_ne_true hall.2, 2, rfl⟩
    | true =>
        refine Or.inl ⟨⟨h1, rfl⟩, ?_⟩
        rw [if_pos rfl, run_bind_ok (readRfsdevblk_run (d := d.skip 2) h.msize (by decide))]
        rw [skip_disk, show d.disk sublkFmat.rsbBmpbks = .bmp bmp from h.bmpblk]
        dsimp only
        rw [run_bind_ok (delSuperblk_run (d := d.skip 2) h.msize h.sup)]
        rfl
  · refine Or.inr ⟨fun hall => h1 (hall.mono (by decide)), k, ?_⟩
    rw [run_bind_ok hrun]
    rfl

include h in
/-- Storing a bitmap takes a buffer for the superblock, and the kernel stops without it. -/
theorem delBitmapblk_needs (bitmap : Nat → UInt8) :
    (d.AllAlc 1 ∧ (delBitmapblk bitmap).run d = .ok ((), (d.put 1 (.bmp bitmap)).skip 1)) ∨
      (¬ d.AllAlc 1 ∧ (delBitmapblk bitmap).run d = .error "del superblk err") := by
  unfold delBitmapblk
  rcases getSuperblk_needs h with ⟨h1, hrun⟩ | ⟨h1, k, hrun⟩
  · refine Or.inl ⟨h1, ?_⟩
    rw [run_bind_ok hrun]
    dsimp only
    rw [run_bind_ok (writeRfsdevblk_ok (d := d.skip 1) h.msize (by decide) _), if_pos rfl]
    exact delSuperblk_run (d := (d.skip 1).put 1 _) h.msize
      ((put_disk_ne _ _ (by decide)).trans h.sup)
  · refine Or.inr ⟨h1, ?_⟩
    rw [run_bind_ok hrun]
    rfl

include h in
/-- **`rfs_new_blk`** that found a block got three buffers; without them, or when all blocks
are marked, it leaves the blocks as they are. -/
theorem rfsNewBlk_cases :
    (d.AllAlc 3 ∧ rfsNewBlk.run d = .ok (match freeBlknr bmp with
      | some b => (b, (d.put 1 (.bmp (Function.update bmp b 1))).skip 3)
      | none => (0, d.skip 3))) ∨
    (¬ d.AllAlc 3 ∧
      ((∃ k, rfsNewBlk.run d = .ok (0, d.skip k)) ∨ ∃ e, rfsNewBlk.run d = .error e)) := by
  unfold rfsNewBlk
  rcases getBitmapblk_needs h with ⟨h2, hrun⟩ | ⟨h2, k, hrun⟩
  · have hiff := dev_allAlc_add (d := d) (n := 1) 2
    rw [run_bind_ok hrun, hiff]
    dsimp only
    cases hf : freeBlknr bmp with
    | some b =>
        dsimp only
        rcases delBitmapblk_needs (h.skip 2) (Function.update bmp b 1) with ⟨h1, hdel⟩ | ⟨h1, hdel⟩
        · refine Or.inl ⟨⟨h2, h1⟩, ?_⟩
          rw [run_bind_ok hdel]
          rfl
        · refine Or.inr ⟨fun hall => h1 hall.2, Or.inr ⟨"del superblk err", ?_⟩⟩
          rw [StateT.run_bind, hdel]
          rfl
    | none =>
        dsimp only
        rcases delBitmapblk_needs (h.skip 2) bmp with ⟨h1, hdel⟩ | ⟨h1, hdel⟩
        · refine Or.inl ⟨⟨h2, h1⟩, ?_⟩
          rw [run_bind_ok hdel, skip_put]
          unfold Dev.put
          rw [← h.bmpblk, Function.update_eq_self]
          rfl
        · refine Or.inr ⟨fun hall => h1 hall.2, Or.inr ⟨"del superblk err", ?_⟩⟩
          rw [StateT.run_bind, hdel]
          rfl
  · refine Or.inr ⟨fun hall => h2 (hall.mono (by decide)), Or.inl ⟨k, ?_⟩⟩
    rw [run_bind_ok hrun]
    rfl

include h in
/-- **`rfs_new_dirfileblk`** once it has got a block: the file is made, or the block stays
marked. -/
theorem rfsNewDirfileblk_marked (fne : Name) {n : Nat} (hn : freeBlknr bmp = some n)
    (h4 : d.AllAlc 4) :
    ((d.AllAlc 7 ∧ dir.hd.fmdCurfinwbkoff < fsysAlcblksz) ∧
      (rfsNewDirfileblk fne).run d = .ok (true, (d.withFile bmp dir fne n).skip 7)) ∨
    (¬ (d.AllAlc 7 ∧ dir.hd.fmdCurfinwbkoff < fsysAlcblksz) ∧ ∃ k, (rfsNewDirfileblk fne).run d
      = .ok (false, (d.put 1 (.bmp (Function.update bmp n 1))).skip k)) := by
  obtain ⟨h1, h3⟩ := (dev_allAlc_add (n := 3) 1).mp h4
  obtain ⟨hge, hmax, hzero⟩ := freeBlknr_some hn
  have hlt : n < 1024 := by
    by_contra hout
    exact h.out n (by omega) hmax hzero
  have hleak := (h.leak hn).skip 4
  have hblk := (rfsNewBlk_cases (h.skip 1)).resolve_right fun hno => hno.1 h3
  have hrun₁ := hblk.2
  rw [hn] at hrun₁
  have hadd := dev_allAlc_add (d := d) (n := 3) 4
  unfold rfsNewDirfileblk
  rw [run_bind_ok (newBuf_run d), dev_allAlc_one.mp h1, if_pos rfl, run_bind_ok hrun₁,
    if_neg (by omega), hadd]
  rcases getRootdirfileBlk_needs hleak with ⟨h3', hdir⟩ | ⟨h3', k, hdir⟩
  · have hdir : getRootdirfileBlk.run (((d.skip 1).put 1
        (.bmp (Function.update bmp n 1))).skip 3) = _ := hdir
    rw [run_bind_ok hdir]
    dsimp only
    by_cases hroom : dir.hd.fmdCurfinwbkoff < fsysAlcblksz
    · refine Or.inl ⟨⟨⟨h4, h3'⟩, hroom⟩, ?_⟩
      rw [if_neg (by omega), run_bind_ok (writeRfsdevblk_ok (hleak.skip 3).msize hlt _)]
      have hroot : (dir.addEnt fne n).hd.fmdSfblk = 2 := h.root.sfblk
      rw [run_bind_ok (delRootdirfileBlk_put (d := (((d.put 1 (.bmp (Function.update bmp n 1))).skip
        4).skip 3).put n (.fil ⟨newHead .fil n, fun _ => 0⟩)) h.msize hroot)]
      rfl
    · refine Or.inr ⟨fun hall => hroom hall.2, 7, ?_⟩
      rw [if_pos (by omega), run_bind_ok (delRootdirfileBlk_same (hleak.skip 3))]
      rfl
  · refine Or.inr ⟨fun hall => h3' hall.1.2, 4 + k, ?_⟩
    have hdir : getRootdirfileBlk.run (((d.skip 1).put 1
        (.bmp (Function.update bmp n 1))).skip 3) = _ := hdir
    rw [run_bind_ok hdir, skip_skip]
    rfl

include h in
/-- Without a block `rfs_new_dirfileblk` leaves the blocks as they are. -/
theorem rfsNewDirfileblk_unmarked (fne : Name) (hno : ¬ (freeBlknr bmp ≠ none ∧ d.AllAlc 4)) :
    (∃ k, (rfsNewDirfileblk fne).run d = .ok (false, d.skip k)) ∨
      ∃ e, (rfsNewDirfileblk fne).run d = .error e := by
  unfold rfsNewDirfileblk
  rw [run_bind_ok (newBuf_run d)]
  cases halc : d.alc d.tick with
  | false => exact Or.inl ⟨1, rfl⟩
  | true =>
      rw [if_pos rfl]
      have hadd := dev_allAlc_add (d := d) (n := 3) 1
      rw [dev_allAlc_one] at hadd
      rcases rfsNewBlk_cases (h.skip 1) with ⟨h3, hrun⟩ | ⟨-, ⟨k, hrun⟩ | ⟨e, hrun⟩⟩
      · have hfree : freeBlknr bmp = none := not_not.mp fun hf => hno ⟨hf, hadd.mpr ⟨halc, h3⟩⟩
        rw [hfree] at hrun
        rw [run_bind_ok hrun, if_pos rfl, skip_skip]
        exact Or.inl ⟨_, rfl⟩
      · rw [run_bind_ok hrun, if_pos rfl, skip_skip]
        exact Or.inl ⟨_, rfl⟩
      · rw [StateT.run_bind, hrun]
        exact Or.inr ⟨e, rfl⟩

end Calls

/-! ## What becomes of a call -/

/-- The path is good, and there is no file of that name. -/
structure NewName (dir : Dirblk) (fname : Nat → UInt8) (fne : Name) : Prop where
  path : rfsRetFname fname = some fne
  pos : 1 ≤ fne.length
  lt : fne.length < drNmMax
  fresh : findEnt dir fne = none

/-- Once a block is marked, there is no buffer for the directory, or no room in it. -/
def Stuck (d : Dev) (dir : Dirblk) : Prop :=
  ¬ (d.AllAlc 10 ∧ dir.hd.fmdCurfinwbkoff < fsysAlcblksz)

/-- `rfs_new_file` marks a block and fails. -/
structure LeaksAt (d : Dev) (bmp : Nat → UInt8) (dir : Dirblk) (fname : Nat → UInt8) : Prop where
  name : ∃ fne, NewName dir fname fne
  free : freeBlknr bmp ≠ none
  alc : d.AllAlc 7
  stuck : Stuck d dir

section NewFile

variable {d : Dev} {bmp : Nat → UInt8} {dir : Dirblk} {fname : Nat → UInt8} {fne : Name}
  (h : RfsInv d bmp dir)

include h in
theorem rfsChkfileisindev_new (hnew : NewName dir fname fne) (h3 : d.AllAlc 3) :
    (rfsNewFile fname).run d = (rfsNewDirfileblk fne).run (d.skip 3) := by
  have hchk := (rfsChkfileisindev_cases h fne).resolve_right fun hno => hno.1 ⟨hnew.pos, hnew.lt, h3⟩
  unfold rfsNewFile
  rw [hnew.path]
  dsimp only
  rw [run_bind_ok hchk.2, hnew.fresh]
  rfl

include h in
/-- **`rfs_new_file`** makes the file. -/
theorem rfsNewFile_made (hnew : NewName dir fname fne) {n : Nat} (hn : freeBlknr bmp = some n)
    (h10 : d.AllAlc 10) (hroom : dir.hd.fmdCurfinwbkoff < fsysAlcblksz) :
    (rfsNewFile fname).run d = .ok (true, (d.withFile bmp dir fne n).skip 10) := by
  obtain ⟨h3, h7⟩ := (dev_allAlc_add (n := 7) 3).mp h10
  rw [rfsChkfileisindev_new h hnew h3]
  rcases rfsNewDirfileblk_marked (h.skip 3) fne hn (h7.mono (by decide)) with ⟨-, hrun⟩ | ⟨hno, -⟩
  · rw [hrun]
    rfl
  · exact absurd ⟨h7, hroom⟩ hno

include h in
/-- **`rfs_new_file`** fails and a block stays marked. -/
theorem rfsNewFile_leaks (hleak : LeaksAt d bmp dir fname) : ∃ n k, freeBlknr bmp = some n ∧
    (rfsNewFile fname).run d = .ok (false, (d.put 1 (.bmp (Function.update bmp n 1))).skip k) := by
  obtain ⟨⟨fne, hnew⟩, hfree, h7, hstuck⟩ := hleak
  obtain ⟨n, hn⟩ := Option.ne_none_iff_exists'.mp hfree
  obtain ⟨h3, h4⟩ := (dev_allAlc_add (n := 4) 3).mp h7
  refine ⟨n, ?_⟩
  rw [rfsChkfileisindev_new h hnew h3]
  rcases rfsNewDirfileblk_marked (h.skip 3) fne hn h4 with ⟨⟨h7', hroom⟩, -⟩ | ⟨-, k, hrun⟩
  · exact absurd ⟨(dev_allAlc_add (n := 7) 3).mpr ⟨h3, h7'⟩, hroom⟩ hstuck
  · refine ⟨3 + k, hn, hrun.trans ?_⟩
    rw [skip_put, skip_skip]

include h in
/-- **`rfs_new_file`** in every other case. -/
theorem rfsNewFile_refused (hleak : ¬ LeaksAt d bmp dir fname)
    (hmade : ∀ fne, NewName dir fname fne → freeBlknr bmp ≠ none → d.AllAlc 10 →
      fsysAlcblksz ≤ dir.hd.fmdCurfinwbkoff) :
    (∃ k, (rfsNewFile fname).run d = .ok (false, d.skip k)) ∨
      ∃ e, (rfsNewFile fname).run d = .error e := by
  have hno : ∀ fne, NewName dir fname fne → freeBlknr bmp ≠ none → ¬ d.AllAlc 7 := by
    intro fne hnew hf h7
    refine hleak ⟨⟨fne, hnew⟩, hf, h7, fun hall => ?_⟩
    have hge := hmade fne hnew hf hall.1
    omega
  cases hp : rfsRetFname fname with
  | none =>
      refine Or.inl ⟨0, ?_⟩
      unfold rfsNewFile
      rw [hp]
      rfl
  | some fne =>
      rcases rfsChkfileisindev_cases h fne with ⟨⟨h1, h2, h3⟩, hrun⟩ | ⟨-, k, r, hr, hrun⟩
      · cases hfe : findEnt dir fne with
        | some i =>
            refine Or.inl ⟨3, ?_⟩
            unfold rfsNewFile
            rw [hp]
            dsimp only
            rw [run_bind_ok hrun, hfe]
            rfl
        | none =>
            have hnew : NewName dir fname fne := ⟨hp, h1, h2, hfe⟩
            rw [rfsChkfileisindev_new h hnew h3]
            rcases rfsNewDirfileblk_unmarked (h.skip 3) fne fun hall => hno fne hnew hall.1
              ((dev_allAlc_add (n := 4) 3).mpr ⟨h3, hall.2⟩) with ⟨k, hk⟩ | ⟨e, he⟩
            · exact Or.inl ⟨3 + k, by rw [hk, skip_skip]⟩
            · exact Or.inr ⟨e, he⟩
      · refine Or.inl ⟨k, ?_⟩
        unfold rfsNewFile
        rw [hp]
        dsimp only
        rw [run_bind_ok hrun, if_pos hr]
        rfl

end NewFile

/-! ## The bitmap -/

/-- What is stored where the superblock says. -/
structure OnDisk (d : Dev) (sb : Rfssublk) (bmp : Nat → UInt8) (dir : Dirblk) : Prop where
  sup : d.disk 0 = .sup sb
  bmpblk : d.disk sb.rsbBmpbks = .bmp bmp
  dirblk : d.disk sb.rsbRootdir.rdrBlknr = .dir dir

/-- The blocks marked are the first two, the one of the root directory, and the files'. -/
def BitmapExact (d : Dev) : Prop := ∃ sb bmp dir, OnDisk d sb bmp dir ∧
  ∀ n < sb.rsbFsysallblk, bmp n ≠ 0 ↔
    n = 0 ∨ n = 1 ∨ n = sb.rsbRootdir.rdrBlknr ∨ ∃ fne, FileAt d fne n

/-- A call of `rfs_new_file` that marks a block and fails. -/
def Leaks (d : Dev) (fname : Nat → UInt8) : Prop :=
  ∃ sb bmp dir, OnDisk d sb bmp dir ∧ LeaksAt d bmp dir fname

/-- A call that marks a block and fails. -/
def LeaksOp (s : RfsState) : RfsOp → Prop
  | .newFile fname => Leaks s.dev fname
  | _ => False

section Exact

variable {d d' : Dev} {sb : Rfssublk} {bmp bmp' : Nat → UInt8} {dir dir' : Dirblk}
  {fname : Nat → UInt8}

theorem RfsInv.onDisk (h : RfsInv d bmp dir) : OnDisk d sublkFmat bmp dir :=
  ⟨h.sup, h.bmpblk, h.dirblk⟩

theorem RfsInv.onDisk_eq (h : RfsInv d bmp dir) (ho : OnDisk d sb bmp' dir') :
    sb = sublkFmat ∧ bmp' = bmp ∧ dir' = dir := by
  have hsup := ho.sup
  rw [h.sup] at hsup
  cases hsup
  have hbmp := ho.bmpblk
  rw [show sublkFmat.rsbBmpbks = 1 from rfl, h.bmpblk] at hbmp
  cases hbmp
  have hdir := ho.dirblk
  rw [show sublkFmat.rsbRootdir.rdrBlknr = 2 from rfl, h.dirblk] at hdir
  cases hdir
  exact ⟨rfl, rfl, rfl⟩

theorem RfsInv.leaks_iff (h : RfsInv d bmp dir) : Leaks d fname ↔ LeaksAt d bmp dir fname := by
  constructor
  · rintro ⟨sb, bmp', dir', ho, hleak⟩
    obtain ⟨-, rfl, rfl⟩ := h.onDisk_eq ho
    exact hleak
  · exact fun hleak => ⟨_, _, _, h.onDisk, hleak⟩

/-- The bitmap of a file system that keeps its invariant. -/
theorem RfsInv.exact_iff (h : RfsInv d bmp dir) : BitmapExact d ↔
    ∀ n < 1024, bmp n ≠ 0 ↔ n = 0 ∨ n = 1 ∨ n = 2 ∨ ∃ fne, FileAt d fne n := by
  constructor
  · rintro ⟨sb, bmp', dir', ho, hall⟩
    obtain ⟨rfl, rfl, rfl⟩ := h.onDisk_eq ho
    exact hall
  · exact fun hall => ⟨_, _, _, h.onDisk, hall⟩

/-- Other blocks change. -/
theorem RfsInv.exact_congr (h : RfsInv d bmp dir) (h' : RfsInv d' bmp dir)
    (hd : BitmapExact d) : BitmapExact d' := by
  rw [h'.exact_iff]
  intro n hn
  rw [h.exact_iff.mp hd n hn]
  have hfiles : ∀ fne, FileAt d fne n ↔ FileAt d' fne n := fun fne =>
    h.fileAt_iff.trans h'.fileAt_iff.symm
  simp only [hfiles]

/-- A free block is nobody's, and marking it is wrong if it stays so. -/
theorem RfsInv.exact_leak (h : RfsInv d bmp dir) {n : Nat} (hn : freeBlknr bmp = some n)
    (hd : (d.put 1 (.bmp (Function.update bmp n 1))).Same d') : ¬ BitmapExact d' := by
  obtain ⟨hge, hmax, hzero⟩ := freeBlknr_some hn
  have h' := (h.leak hn).same hd
  intro hexact
  have hlt : n < 1024 := by
    by_contra hout
    exact h.out n (by omega) hmax hzero
  have hmark : Function.update bmp n 1 n ≠ 0 := by
    rw [Function.update_self]
    decide
  rcases (h'.exact_iff.mp hexact n hlt).mp hmark with h0 | h1 | h2 | ⟨fne, hf⟩
  · omega
  · omega
  · subst h2
    exact h.rootUsed hzero
  · exact (h.fileAt_hd (h.fileAt_iff.mpr (h'.fileAt_iff.mp hf))).1 hzero

theorem RfsInv.exact_made (h : RfsInv d bmp dir) {n : Nat} {fne : Name}
    (h' : RfsInv d' (Function.update bmp n 1) (dir.addEnt fne n)) (hd : BitmapExact d) :
    BitmapExact d' := by
  rw [h'.exact_iff]
  intro m hm
  have hold := h.exact_iff.mp hd m hm
  by_cases hmn : m = n
  · subst hmn
    rw [Function.update_self]
    refine iff_of_true (by decide) (Or.inr (Or.inr (Or.inr ⟨fne, ?_⟩)))
    exact (h.fileAt_made h').mpr (Or.inr ⟨rfl, rfl⟩)
  · rw [Function.update_of_ne hmn, hold]
    have hfiles : ∀ fne', FileAt d fne' m ↔ FileAt d' fne' m := fun fne' => by
      rw [h.fileAt_made h']
      exact (or_iff_left fun hnew => hmn hnew.2).symm
    simp only [hfiles]

theorem RfsInv.exact_deleted (h : RfsInv d bmp dir) {k : Nat} (hk : dir.IsFile k)
    (h' : RfsInv d' (Function.update bmp (dir.ent k).rdrBlknr 0) (dir.delEnt k))
    (hd : BitmapExact d) : BitmapExact d' := by
  have hgt := (h.fileHd hk).1
  have hgone : ∀ fne, ¬ FileAt d' fne (dir.ent k).rdrBlknr := fun fne hf =>
    (h'.fileAt_hd hf).1 (Function.update_self _ _ _)
  rw [h'.exact_iff]
  intro m hm
  have hold := h.exact_iff.mp hd m hm
  by_cases hmk : m = (dir.ent k).rdrBlknr
  · subst hmk
    rw [Function.update_self]
    refine iff_of_false (fun hne => hne rfl) ?_
    rintro (h0 | h1 | h2 | ⟨fne, hf⟩)
    · omega
    · omega
    · omega
    · exact hgone fne hf
  · rw [Function.update_of_ne hmk, hold]
    have hfiles : ∀ fne, FileAt d fne m ↔ FileAt d' fne m := by
      intro fne
      refine ⟨fun hf => ?_, h.fileAt_deleted h'⟩
      obtain ⟨i, hi, hname, hblk⟩ := h.fileAt_iff.mp hf
      have hik : i ≠ k := by
        rintro rfl
        exact hmk hblk.symm
      have hent : (dir.delEnt k).ent i = dir.ent i := Function.update_of_ne hik _ _
      refine h'.fileAt_iff.mpr ⟨i, ?_, ?_, ?_⟩
      · unfold Dirblk.IsFile
        rw [hent]
        exact hi
      · rw [hent]
        exact hname
      · rw [hent]
        exact hblk
    simp only [hfiles]

/-- **A call that fails** leaves the blocks alone, unless it marked one. -/
theorem newFile_failed_iff (h : RfsInv d bmp dir)
    (hrun : (rfsNewFile fname).run d = .ok (false, d')) :
    d'.disk = d.disk ↔ ¬ LeaksAt d bmp dir fname := by
  by_cases hleak : LeaksAt d bmp dir fname
  · obtain ⟨n, k, hn, hok⟩ := rfsNewFile_leaks h hleak
    rw [hrun] at hok
    cases hok
    refine iff_of_false (fun hsame => ?_) (not_not.mpr hleak)
    have hone : (d.put 1 (.bmp (Function.update bmp n 1))).disk 1 = d.disk 1 := congrFun hsame 1
    rw [put_disk_self, h.bmpblk, Blk.bmp.injEq] at hone
    have hmark := congrFun hone n
    rw [Function.update_self, (freeBlknr_some hn).2.2] at hmark
    cases hmark
  · refine iff_of_true ?_ hleak
    have hmade : ∀ fne, NewName dir fname fne → freeBlknr bmp ≠ none → d.AllAlc 10 →
        fsysAlcblksz ≤ dir.hd.fmdCurfinwbkoff := by
      intro fne hnew hf h10
      by_contra hroom
      obtain ⟨n, hn⟩ := Option.ne_none_iff_exists'.mp hf
      rw [rfsNewFile_made h hnew hn h10 (by omega)] at hrun
      cases hrun
    rcases rfsNewFile_refused h hleak hmade with ⟨k, hok⟩ | ⟨e, herr⟩
    · rw [hrun] at hok
      cases hok
      rfl
    · rw [hrun] at herr
      cases herr

/-- **Each call** keeps the bitmap exact, unless it marks a block and fails. -/
theorem rfsStep_exact (s : RfsState) (op : RfsOp) (s' : RfsState) (h : FsOk s)
    (he : BitmapExact s.dev) (hstep : rfsStep s op = .ok s') :
    BitmapExact s'.dev ↔ ¬ LeaksOp s op := by
  obtain ⟨⟨bmp, dir, hinv⟩, hh⟩ := h
  by_cases hleak : LeaksOp s op
  · refine iff_of_false ?_ (not_not.mpr hleak)
    cases op with
    | newFile fname =>
        obtain ⟨n, k, hn, hok⟩ := rfsNewFile_leaks hinv (hinv.leaks_iff.mp hleak)
        obtain ⟨r, d', hrun, rfl⟩ := map_run_ok hstep
        rw [hok] at hrun
        cases hrun
        exact hinv.exact_leak hn (Dev.same_skip _ k)
    | _ => exact absurd hleak id
  · refine iff_of_true ?_ hleak
    cases rfsStep_move hinv hh hstep with
    | same hd => exact hinv.exact_congr (hinv.same hd) he
    | @leaked fname n d' hn hd =>
        -- the block that was marked was given to the file
        have hnot : ¬ LeaksAt s.dev bmp dir fname := fun hl => hleak (hinv.leaks_iff.mpr hl)
        obtain ⟨r, d₁, hrun, hs⟩ := map_run_ok hstep
        have hdev : d₁ = d' := congrArg RfsState.dev hs
        subst hdev
        rcases rfsNewFile_spec hinv fname s.dev r d₁ (Dev.Same.refl _) hrun with
          ⟨rfl, -⟩ | ⟨rfl, fne, n', -, hn', hinv', -, hd'⟩
        · exact hinv.exact_congr (hinv.same ⟨(newFile_failed_iff hinv hrun).mpr hnot, hd.2⟩) he
        · exact hinv.exact_made (hinv'.same hd') he
    | made hname hn hinv' hnew hd _ => exact hinv.exact_made (hinv'.same hd) he
    | opened hfree hk hblk hf hd => exact hinv.exact_congr (hinv.same hd) he
    | wrote hi hlen hd =>
        exact hinv.exact_congr ((hinv.store ((hh _ _ hi).append _ _)).same hd) he
    | closed hi hd => exact hinv.exact_congr ((hinv.store (hh _ _ hi)).same hd) he
    | deleted hk hd =>
        have hfile := (findEnt_some hinv.root hk).1
        exact hinv.exact_deleted hfile ((hinv.delFile hfile).same hd) he

end Exact

section Runs

variable {d : Dev} {s : RfsState}

theorem bitmapInit_exact {n : Nat} (hn : n < 1024) :
    Function.update (bitmapInit 1024) 2 1 n ≠ 0 ↔ n = 0 ∨ n = 1 ∨ n = 2 := by
  by_cases h2 : n = 2
  · subst h2
    rw [Function.update_self]
    exact iff_of_true (by decide) (by omega)
  · rw [Function.update_of_ne h2]
    unfold bitmapInit
    by_cases hge : 2 ≤ n ∧ n < 1024
    · rw [if_pos hge]
      exact iff_of_false (fun h => h rfl) (by omega)
    · rw [if_neg hge]
      exact iff_of_true (by decide) (by omega)

theorem init_exact {alc : Nat → Bool} (hfmt : rfsFmat.run (devInit alc) = .ok ((), d)) :
    BitmapExact d := by
  have hinv := rfsFmat_spec rfl _ _ _ (Dev.Same.refl _) hfmt
  rw [hinv.exact_iff]
  intro n hn
  have hfiles : ∀ fne, ¬ FileAt d fne n := by
    intro fne hf
    obtain ⟨k, hk, -⟩ := hinv.fileAt_iff.mp hf
    exact rootdirInit_noFile k hk
  simp only [hfiles, exists_false, or_false]
  exact bitmapInit_exact hn

/-- **A call that fails leaves the blocks alone exactly when** it is not one that marks a
block and fails, in every state; and the bitmap marks what is in use in all states of a run
exactly when no call of it is. -/
theorem bitmap_exact_iff (alc : Nat → Bool) (hfmt : rfsFmat.run (devInit alc) = .ok ((), d))
    (ops : List RfsOp) (hrun : run rfsStep ops (RfsState.init d) = .ok s) :
    (∀ fname d', (rfsNewFile fname).run s.dev = .ok (false, d') →
      (d'.disk = s.dev.disk ↔ ¬ Leaks s.dev fname)) ∧
    (AllSteps rfsStep (fun s _ => BitmapExact s.dev) ops (RfsState.init d) ∧ BitmapExact s.dev ↔
      AllSteps rfsStep (fun s op => ¬ LeaksOp s op) ops (RfsState.init d)) := by
  constructor
  · obtain ⟨⟨bmp, dir, hinv⟩, -⟩ := run_inv FsOk rfsStep_fsOk ops _ s (init_fsOk hfmt) hrun
    intro fname d' hfail
    rw [hinv.leaks_iff]
    exact newFile_failed_iff hinv hfail
  · exact allSteps_iff (fun s => BitmapExact s.dev) FsOk (fun s op => ¬ LeaksOp s op)
      (fun _ _ => True) (fun s op s' h _ hstep => rfsStep_fsOk s op s' h hstep)
      (fun s op s' h he _ hstep => rfsStep_exact s op s' h he hstep) ops _ s (init_fsOk hfmt)
      (init_exact hfmt) (allSteps_of_forall ops _ fun _ _ => trivial) hrun

/-- A test for a directory with room and enough buffers. -/
def roomy (s : RfsState) : Bool :=
  match s.dev.disk 0 with
  | .sup sb =>
      match s.dev.disk sb.rsbRootdir.rdrBlknr with
      | .dir dir => decide (s.dev.AllAlc 10 ∧ dir.hd.fmdCurfinwbkoff < fsysAlcblksz)
      | _ => false
  | _ => false

theorem not_leaksOp_of_roomy (s : RfsState) (op : RfsOp) (h : roomy s = true) : ¬ LeaksOp s op := by
  cases op with
  | newFile fname =>
      rintro ⟨sb, bmp, dir, ho, hleak⟩
      unfold roomy at h
      rw [ho.sup] at h
      dsimp only at h
      rw [ho.dirblk] at h
      exact hleak.stuck (of_decide_eq_true h)
  | _ => exact id

/-- A file is made and deleted, and another one made. -/
def madeAndDeleted : List RfsOp :=
  [.newFile pathA, .delFile pathA 0, .newFile pathB]

theorem bitmap_exact_iff_madeAndDeleted : ∃ s : RfsState, FileAt s.dev [98] 3 ∧
    BitmapExact s.dev := by
  obtain ⟨d, hfmt, hq⟩ := exists_fmat (q := fun d =>
    checkSteps rfsStep (fun s _ => roomy s) madeAndDeleted (RfsState.init d) &&
      okAnd (run rfsStep madeAndDeleted (RfsState.init d)) fun s => entAt s.dev 1 3 [98])
    (by decide +kernel)
  rw [Bool.and_eq_true] at hq
  obtain ⟨s, hrun, hent⟩ := exists_of_okAnd hq.2
  have hexact := (bitmap_exact_iff _ hfmt madeAndDeleted hrun).2.mpr
    (allSteps_of_check not_leaksOp_of_roomy madeAndDeleted _ hq.1)
  exact ⟨s, fileAt_of_entAt hent, hexact.2⟩

/-- Block `n` is marked. -/
def marked (d : Dev) (n : Nat) : Bool :=
  match d.disk 1 with
  | .bmp bmp => bmp n ≠ 0
  | _ => false

/-- `rfs_fmat` gets its eight buffers, and the next call seven. -/
def sevenBufs (t : Nat) : Bool := t ≠ 15

/-- A file is not made and a block is marked. -/
theorem bitmap_not_exact : ¬ ∀ (alc : Nat → Bool) (d : Dev) (ops : List RfsOp) (s : RfsState)
    (fname : Nat → UInt8) (d' : Dev), rfsFmat.run (devInit alc) = .ok ((), d) →
      run rfsStep ops (RfsState.init d) = .ok s → (rfsNewFile fname).run s.dev = .ok (false, d') →
        d'.disk = s.dev.disk := by
  intro hall
  obtain ⟨⟨_, d⟩, hfmt, hq⟩ := exists_of_okAnd (e := rfsFmat.run (devInit sevenBufs))
    (q := fun r => !marked r.2 3 && okAnd ((rfsNewFile pathA).run r.2) fun r' =>
      !r'.1 && marked r'.2 3) (by decide +kernel)
  rw [Bool.and_eq_true] at hq
  obtain ⟨⟨ok, d'⟩, hnew, hmark⟩ := exists_of_okAnd hq.2
  rw [Bool.and_eq_true, Bool.not_eq_true'] at hmark
  obtain ⟨rfl, hmark⟩ := hmark
  have hdisk := hall sevenBufs d [] (RfsState.init d) pathA d' hfmt rfl hnew
  have hfree := hq.1
  unfold marked at hmark hfree
  rw [hdisk] at hmark
  rw [show (RfsState.init d).dev.disk = d.disk from rfl] at hmark
  rw [hmark] at hfree
  cases hfree

end Runs

/-! ## Room -/

/-- There is room for a new file of that path: the name is new, there are fewer files than the
directory block has entries, a block is free, and memory is there. -/
structure RoomFor (d : Dev) (bmp : Nat → UInt8) (dir : Dirblk) (fname : Nat → UInt8) : Prop where
  name : ∃ fne, NewName dir fname fne
  files : (List.range entMax).countP (fun i => (dir.ent i).rdrType = .fil) < entMax
  free : freeBlknr bmp ≠ none
  alc : d.AllAlc 14

/-- The file is made, and can be opened then. -/
def MadeAndOpened (d : Dev) (fname : Nat → UInt8) : Prop :=
  ∃ d₁ obp d₂, (rfsNewFile fname).run d = .ok (true, d₁) ∧
    (rfsOpenFile ⟨none, some fname, none, 0, 0⟩).run d₁ = .ok ((obp, true), d₂) ∧
      obp.onFinode ≠ none

section Room

variable {d : Dev} {sb : Rfssublk} {bmp : Nat → UInt8} {dir : Dirblk} {fname : Nat → UInt8}

/-- A search that can only find one entry. -/
theorem findEnt_isSome (hr : RootOk dir) {fne : Name} {k : Nat} (hk : dir.IsFile k)
    (hname : (dir.ent k).rdrName = fne) : (findEnt dir fne).isSome := by
  cases hf : findEnt dir fne with
  | none => exact absurd hname (findEnt_none hr hf hk)
  | some i => rfl

theorem RfsInv.madeAndOpened_iff (h : RfsInv d bmp dir) (hroom : RoomFor d bmp dir fname) :
    MadeAndOpened d fname ↔ dir.hd.fmdCurfinwbkoff < fsysAlcblksz := by
  obtain ⟨⟨fne, hnew⟩, -, hfree, halc⟩ := hroom
  obtain ⟨n, hn⟩ := Option.ne_none_iff_exists'.mp hfree
  obtain ⟨h10, h4⟩ := (dev_allAlc_add (n := 4) 10).mp halc
  constructor
  · rintro ⟨d₁, obp, d₂, hmake, -⟩
    by_contra hout
    have hstuck : Stuck d dir := fun hok => hout hok.2
    obtain ⟨n', k, -, hrun⟩ := rfsNewFile_leaks h ⟨⟨fne, hnew⟩, hfree,
      h10.mono (by decide), hstuck⟩
    rw [hmake] at hrun
    cases hrun
  · intro hlt
    have hmake := rfsNewFile_made h hnew hn h10 hlt
    have hfresh : ∀ i, dir.IsFile i → (dir.ent i).rdrName ≠ fne := fun i hi =>
      findEnt_none h.root hnew.fresh hi
    have hinv : RfsInv ((d.withFile bmp dir fne n).skip 10) _ _ :=
      (h.addFile hn hlt hfresh).skip 10
    obtain ⟨k, hk, hname, -⟩ := hinv.fileAt_iff.mp ((h.fileAt_made hinv).mpr (Or.inr ⟨rfl, rfl⟩))
    have hok : Bufs.OpenOk ⟨(d.withFile bmp dir fne n).skip 10, []⟩ (dir.addEnt fne n) fname :=
      ⟨fne, hnew.path, findEnt_isSome hinv.root hk hname, h4⟩
    obtain ⟨f, b, -, -, hrun⟩ := Bufs.rfsOpenfileblk_run hinv hok
    have hrun := Bufs.erases_rfsOpenfileblk fname _ _ _ hrun
    have hopened : (rfsOpenFile ⟨none, some fname, none, 0, 0⟩).run
        ((d.withFile bmp dir fne n).skip 10) = .ok ((⟨some f, some fname, none, 0, 0⟩, true),
          ((d.withFile bmp dir fne n).skip 10).skip 4) := by
      unfold rfsOpenFile
      dsimp only
      rw [run_bind_ok hrun]
      rfl
    exact ⟨_, _, _, hmake, hopened, Option.some_ne_none f⟩

/-- **A file is made when there is room exactly when** the directory block is not used up, in
every state that calls lead to. -/
theorem newFile_room_iff (alc : Nat → Bool) (hfmt : rfsFmat.run (devInit alc) = .ok ((), d))
    (ops : List RfsOp) {s : RfsState} (hrun : run rfsStep ops (RfsState.init d) = .ok s)
    (ho : OnDisk s.dev sb bmp dir) (hroom : RoomFor s.dev bmp dir fname) :
    MadeAndOpened s.dev fname ↔ dir.hd.fmdCurfinwbkoff < fsysAlcblksz := by
  obtain ⟨⟨bmp', dir', hinv⟩, -⟩ := run_inv FsOk rfsStep_fsOk ops _ s (init_fsOk hfmt) hrun
  obtain ⟨-, rfl, rfl⟩ := hinv.onDisk_eq ho
  exact hinv.madeAndOpened_iff hroom

end Room

/-- A test for room, and for the offset of the next entry. -/
def roomFor (d : Dev) (fname : Nat → UInt8) (off : Nat) : Bool :=
  match d.disk 0 with
  | .sup sb =>
      match d.disk sb.rsbBmpbks, d.disk sb.rsbRootdir.rdrBlknr with
      | .bmp bmp, .dir dir =>
          (rfsRetFname fname).any (fun fne => 1 ≤ fne.length && fne.length < drNmMax &&
            findEnt dir fne = none) &&
          decide ((List.range entMax).countP (fun i => (dir.ent i).rdrType = .fil) < entMax) &&
          (freeBlknr bmp).isSome && decide (d.AllAlc 14) && dir.hd.fmdCurfinwbkoff = off
      | _, _ => false
  | _ => false

theorem exists_of_roomFor {d : Dev} {fname : Nat → UInt8} {off : Nat}
    (h : roomFor d fname off = true) : ∃ sb bmp dir, OnDisk d sb bmp dir ∧
      RoomFor d bmp dir fname ∧ dir.hd.fmdCurfinwbkoff = off := by
  unfold roomFor at h
  split at h
  · rename_i sb hsb
    split at h
    · rename_i bmp dir hbmp hdir
      simp only [Bool.and_eq_true, decide_eq_true_eq, Option.any_eq_true] at h
      obtain ⟨⟨⟨⟨⟨fne, hpath, ⟨hpos, hlt⟩, hfresh⟩, hfiles⟩, hfree⟩, halc⟩, hoff⟩ := h
      exact ⟨sb, bmp, dir, ⟨hsb, hbmp, hdir⟩, ⟨⟨fne, hpath, hpos, hlt, hfresh⟩, hfiles,
        Option.isSome_iff_ne_none.mp hfree, halc⟩, hoff⟩
    · cases h
  · cases h

/-- A file is made and deleted. -/
def madeOnce : List RfsOp := [.newFile pathA, .delFile pathA 0]

theorem newFile_room_iff_madeOnce : ∃ d s, run rfsStep madeOnce (RfsState.init d) = .ok s ∧
    MadeAndOpened s.dev pathA := by
  obtain ⟨d, hfmt, hq⟩ := exists_fmat (q := fun d => okAnd (run rfsStep madeOnce
    (RfsState.init d)) fun s => roomFor s.dev pathA 0x280) (by decide +kernel)
  obtain ⟨s, hrun, hroom⟩ := exists_of_okAnd hq
  obtain ⟨sb, bmp, dir, ho, hroom, hoff⟩ := exists_of_roomFor hroom
  refine ⟨d, s, hrun, (newFile_room_iff _ hfmt madeOnce hrun ho hroom).mpr ?_⟩
  rw [hoff]
  decide

/-- A file is made and deleted, as often as the directory block has entries. -/
def usedUp : List RfsOp :=
  (List.replicate entMax [.newFile pathA, .delFile pathA 0]).flatten

/-- There are no files, and none can be made. -/
theorem newFile_no_room : ¬ ∀ (alc : Nat → Bool) (d : Dev) (ops : List RfsOp) (s : RfsState)
    (sb : Rfssublk) (bmp : Nat → UInt8) (dir : Dirblk) (fname : Nat → UInt8),
    rfsFmat.run (devInit alc) = .ok ((), d) → run rfsStep ops (RfsState.init d) = .ok s →
      OnDisk s.dev sb bmp dir → RoomFor s.dev bmp dir fname → MadeAndOpened s.dev fname := by
  intro hall
  obtain ⟨d, hfmt, hq⟩ := exists_fmat (q := fun d => okAnd (run rfsStep usedUp (RfsState.init d))
    fun s => roomFor s.dev pathA 0x1000) (by decide +kernel)
  obtain ⟨s, hrun, hroom⟩ := exists_of_okAnd hq
  obtain ⟨sb, bmp, dir, ho, hroom, hoff⟩ := exists_of_roomFor hroom
  obtain ⟨⟨bmp', dir', hinv⟩, -⟩ := run_inv FsOk rfsStep_fsOk usedUp _ s (init_fsOk hfmt) hrun
  obtain ⟨-, rfl, rfl⟩ := hinv.onDisk_eq ho
  have hlt := (hinv.madeAndOpened_iff hroom).mp
    (hall _ d usedUp s sb bmp dir pathA hfmt hrun ho hroom)
  rw [hoff] at hlt
  exact absurd hlt (by decide)

end Cosmos.Drivers
