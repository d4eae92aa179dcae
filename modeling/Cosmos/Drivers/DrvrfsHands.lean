import Cosmos.Drivers.DrvrfsRun

/-!
# Handles of the RAM file system

A handle is written back whole, to the block number it was opened with, by every
accepted write and by `rfs_close_file`.  Two things follow.  A handle that
outlives its file writes into whatever file got the block next; files do not
interfere as long as `rfs_new_file` meets no such handle.  And a copy that is
behind the stored block undoes the writes it has not seen; no accepted write is
lost as long as copies that are stored are up to date.
-/

namespace Cosmos.Drivers

open Cosmos.Lib.Run Cosmos.Lib.StM Cosmos.Lib.Word64

/-! ## Files and the handles of other files -/

/-- `rfs_new_file` makes no file in a block that a handle of another name still writes to,
and the length of a write does not wrap with the offset of its handle. -/
def BlkUnheld (s : RfsState) : RfsOp → Prop
  | .newFile fname => ∀ d', (rfsNewFile fname).run s.dev = .ok (true, d') → ∀ fne bmp n,
      rfsRetFname fname = some fne → s.dev.disk 1 = .bmp bmp → freeBlknr bmp = some n →
        ∀ i h, s.hand i = some h → h.name ≠ fne → h.blk ≠ n
  | .writeFile i buf bufsz len => buf ≠ none → bufsz = fsysAlcblksz →
      ∀ h, s.hand i = some h → h.finode.hd.fmdCurfinwbkoff + len < wordMod
  | _ => True

/-- The block of a handle belongs to its own file, or to none. -/
def HandsApart (s : RfsState) : Prop :=
  ∀ i h fne, s.hand i = some h → FileAt s.dev fne h.blk → fne = h.name

theorem Move.handsApart {bmp : Nat → UInt8} {dir : Dirblk} {s s' : RfsState} {op : RfsOp}
    (hm : Move bmp dir s op s') (hinv : RfsInv s.dev bmp dir) (hh : HandsOk s)
    (hop : BlkUnheld s op) (ha : HandsApart s) : HandsApart s' := by
  cases hm with
  | same hd =>
      intro j h fne hj hf
      exact ha j h fne hj (hinv.fileAt_iff.mpr ((hinv.same hd).fileAt_iff.mp hf))
  | leaked hn hd =>
      intro j h fne hj hf
      exact ha j h fne hj (hinv.fileAt_iff.mpr (((hinv.leak hn).same hd).fileAt_iff.mp hf))
  | made hname hn hinv' hnew hd hmade =>
      intro j h fne hj hf
      rcases (hinv.fileAt_made (hinv'.same hd)).mp hf with hf | ⟨rfl, hb⟩
      · exact ha j h fne hj hf
      · -- the new file took the block: only a handle of its own name may hold it
        by_contra hne
        exact hop _ hmade _ bmp _ hname hinv.bmpblk hn j h hj (fun he => hne he.symm) hb
  | @opened i _ fne' k f d' hfree hk hblk hfh hd =>
      intro j h fne hj hf
      have hf' := hinv.fileAt_iff.mpr ((hinv.same hd).fileAt_iff.mp hf)
      by_cases hji : j = i
      · subst hji
        simp only [Function.update_self] at hj
        cases hj
        have hb : (⟨fne', f⟩ : Handle).blk = (dir.ent k).rdrBlknr := hfh.sfblk
        rw [hb] at hf'
        exact hinv.fileAt_name hf' (hinv.fileAt_found hk)
      · simp only [Function.update_of_ne hji] at hj
        exact ha j h fne hj hf'
  | @wrote i h₀ buf len d' hi hlen hd =>
      intro j h fne hj hf
      have hfh := (hh i h₀ hi).append buf len
      have hf' := hinv.fileAt_iff.mpr (((hinv.store hfh).same hd).fileAt_iff.mp hf)
      by_cases hji : j = i
      · subst hji
        simp only [Function.update_self] at hj
        cases hj
        exact ha j h₀ fne hi hf'
      · simp only [Function.update_of_ne hji] at hj
        exact ha j h fne hj hf'
  | @closed i h₀ d' hi hd =>
      intro j h fne hj hf
      have hf' := hinv.fileAt_iff.mpr (((hinv.store (hh i h₀ hi)).same hd).fileAt_iff.mp hf)
      by_cases hji : j = i
      · subst hji
        simp only [Function.update_self] at hj
        cases hj
      · simp only [Function.update_of_ne hji] at hj
        exact ha j h fne hj hf'
  | deleted hk hd =>
      intro j h fne hj hf
      have hinv' := (hinv.delFile (findEnt_some hinv.root hk).1).same hd
      exact ha j h fne hj (hinv.fileAt_deleted hinv' hf)

theorem rfsStep_handsApart (s : RfsState) (op : RfsOp) (s' : RfsState)
    (h : FsOk s ∧ HandsApart s) (hop : BlkUnheld s op) (hstep : rfsStep s op = .ok s') :
    FsOk s' ∧ HandsApart s' := by
  obtain ⟨⟨⟨bmp, dir, hinv⟩, hh⟩, ha⟩ := h
  have hm := rfsStep_move hinv hh hstep
  exact ⟨hm.fsOk hinv hh, hm.handsApart hinv hh hop ha⟩

/-- The handle a call stores the copy of. -/
def RfsOp.stores : RfsOp → Option Nat
  | .writeFile i _ _ _ => some i
  | .closeFile i => some i
  | _ => none

/-- Storing the copy of a handle changes its block, if that, and no other file
block. -/
theorem Move.stores_frame {bmp : Nat → UInt8} {dir : Dirblk} {s s' : RfsState} {op : RfsOp}
    (hm : Move bmp dir s op s') (hinv : RfsInv s.dev bmp dir) (hh : HandsOk s) {i : Nat}
    {h : Handle} (hop : op.stores = some i) (hi : s.hand i = some h) {fne : Name} {b : Nat}
    (hf : FileAt s.dev fne b) :
    FileAt s'.dev fne b ∧ (b ≠ h.blk → s'.dev.disk b = s.dev.disk b) := by
  cases hm with
  | same hd =>
      refine ⟨(hinv.same hd).fileAt_iff.mpr (hinv.fileAt_iff.mp hf), fun _ => ?_⟩
      show Dev.disk _ b = _
      rw [hd.1]
  | @wrote j h₀ buf len d' hj hlen hd =>
      cases hop
      rw [hi] at hj
      cases hj
      have hinv' := (hinv.store ((hh i h hi).append buf len)).same hd
      refine ⟨hinv'.fileAt_iff.mpr (hinv.fileAt_iff.mp hf), fun hb => ?_⟩
      show d'.disk b = _
      rw [hd.1, put_disk_ne _ _ hb]
  | @closed j h₀ d' hj hd =>
      cases hop
      rw [hi] at hj
      cases hj
      have hinv' := (hinv.store (hh i h hi)).same hd
      refine ⟨hinv'.fileAt_iff.mpr (hinv.fileAt_iff.mp hf), fun hb => ?_⟩
      show d'.disk b = _
      rw [hd.1, put_disk_ne _ _ hb]
  | leaked => cases hop
  | made => cases hop
  | opened => cases hop
  | deleted => cases hop

/-- A call that stores a copy returns. -/
theorem rfsStep_stores {s : RfsState} (hok : FsOk s) {op : RfsOp} {i : Nat} {h : Handle}
    (hop : op.stores = some i) (hi : s.hand i = some h) (hfit : BlkUnheld s op) :
    ∃ s', rfsStep s op = .ok s' := by
  obtain ⟨⟨bmp, dir, hinv⟩, hh⟩ := hok
  have hobj : ∀ buf bufsz len, s.obj i buf bufsz len
      = ⟨some h.finode, none, buf, bufsz, len⟩ := by
    intro buf bufsz len
    unfold RfsState.obj
    rw [hi, Option.map_some]
  cases op with
  | writeFile j buf bufsz len =>
      cases hop
      obtain ⟨r, hr⟩ : ∃ r, (rfsWriteFile (s.obj i buf bufsz len)).run s.dev = .ok r := by
        rw [hobj]
        unfold rfsWriteFile
        cases buf with
        | none => exact ⟨_, rfl⟩
        | some bf =>
            by_cases hsz : bufsz = fsysAlcblksz
            · dsimp only
              rw [if_neg (not_not.mpr hsz)]
              rcases rfsWritefileblk_total hinv.msize (hh i h hi) bf
                (hfit (by simp) hsz h hi) with hw | ⟨-, hw⟩
              · exact ⟨_, run_bind_ok hw⟩
              · exact ⟨_, run_bind_ok hw⟩
            · dsimp only
              rw [if_pos hsz]
              exact ⟨_, rfl⟩
      exact ⟨_, congrArg (Except.map _) hr⟩
  | closeFile j =>
      cases hop
      have hr : (rfsCloseFile (s.obj i none 0 0)).run s.dev
          = .ok (true, s.dev.put h.blk (.fil h.finode)) := by
        rw [hobj]
        exact rfsClosefileblk_total hinv.msize (hh i h hi)
      exact ⟨_, congrArg (Except.map _) hr⟩
  | newFile => cases hop
  | openFile => cases hop
  | readFile => cases hop
  | delFile => cases hop

/-- **Files do not interfere**, in every run where `rfs_new_file` makes no file in a
block that a handle of another file still holds, and no length of a write wraps. -/
theorem files_apart (alc : Nat → Bool) {d : Dev} (hfmt : rfsFmat.run (devInit alc) = .ok ((), d))
    (ops : List RfsOp) {s : RfsState} (hall : AllSteps rfsStep BlkUnheld ops (RfsState.init d))
    (hrun : run rfsStep ops (RfsState.init d) = .ok s) {op : RfsOp} {i : Nat} {h : Handle}
    (hop : op.stores = some i) (hi : s.hand i = some h) (hfit : BlkUnheld s op) :
    ∃ s', rfsStep s op = .ok s' ∧ ∀ fne b, FileAt s.dev fne b → fne ≠ h.name →
      FileAt s'.dev fne b ∧ s'.dev.disk b = s.dev.disk b := by
  have hinit : FsOk (RfsState.init d) ∧ HandsApart (RfsState.init d) :=
    ⟨init_fsOk hfmt, fun i h fne hi => by cases hi⟩
  obtain ⟨hok, ha⟩ := run_inv_of_allSteps
    (fun s => FsOk s ∧ HandsApart s) BlkUnheld rfsStep_handsApart ops _ s hinit hall hrun
  obtain ⟨s', hstep⟩ := rfsStep_stores hok hop hi hfit
  obtain ⟨⟨bmp, dir, hinv⟩, hh⟩ := hok
  refine ⟨s', hstep, fun fne b hf hne => ?_⟩
  obtain ⟨hfile, hframe⟩ := (rfsStep_move hinv hh hstep).stores_frame hinv hh hop hi hf
  refine ⟨hfile, hframe ?_⟩
  rintro rfl
  exact hne (ha i h fne hi hf)

/-- Two files, each with a handle. -/
def twoHandles : List RfsOp :=
  [.newFile pathA, .newFile pathB, .openFile 0 (some pathA), .openFile 1 (some pathB)]

theorem newFile_hand {s s' : RfsState} {fname : Nat → UInt8}
    (h : rfsStep s (.newFile fname) = .ok s') : s'.hand = s.hand := by
  obtain ⟨r, d', _, rfl⟩ := map_run_ok h
  cases r
  · rfl
  · rfl

theorem twoHandles_unheld (d : Dev) : AllSteps rfsStep BlkUnheld twoHandles (RfsState.init d) := by
  refine ⟨fun _ _ _ _ _ _ _ _ i h hi => ?_, fun s hs => ⟨fun _ _ _ _ _ _ _ _ i h hi => ?_,
    fun _ _ => ⟨trivial, fun _ _ => ⟨trivial, fun _ _ => trivial⟩⟩⟩⟩
  · cases hi
  · rw [newFile_hand hs] at hi
    cases hi

theorem files_apart_twoHandles : ∃ s s' : RfsState, sizeAt s.dev 3 0 = true ∧
    rfsStep s (.writeFile 0 (some fun _ => 5) fsysAlcblksz 1) = .ok s' ∧
    FileAt s'.dev [98] 4 ∧ s'.dev.disk 4 = s.dev.disk 4 := by
  obtain ⟨d, hfmt, hq⟩ := exists_fmat (q := fun d => okAnd (run rfsStep twoHandles
    (RfsState.init d)) fun s => sizeAt s.dev 3 0 && entAt s.dev 1 4 [98] &&
      (s.hand 0).any fun h => h.name = [97] && h.finode.hd.fmdCurfinwbkoff = ifstbkoff)
    (by decide +kernel)
  obtain ⟨s, hrun, hq⟩ := exists_of_okAnd hq
  simp only [Bool.and_eq_true, Option.any_eq_true, decide_eq_true_iff] at hq
  obtain ⟨⟨h0, hent⟩, h, hi, hname, hoff⟩ := hq
  have hfit : BlkUnheld s (.writeFile 0 (some fun _ => 5) fsysAlcblksz 1) := by
    intro _ _ h' hi'
    rw [hi] at hi'
    cases hi'
    rw [hoff]
    decide
  obtain ⟨s', hstep, hapart⟩ :=
    files_apart _ hfmt twoHandles (twoHandles_unheld d) hrun rfl hi hfit
  obtain ⟨hf, hblk⟩ := hapart _ _ (fileAt_of_entAt hent) (by rw [hname]; decide)
  exact ⟨s, s', h0, hstep, hf, hblk⟩

/-- A file is deleted under an open handle, and the next file gets its block. -/
def deletedUnderHandle : List RfsOp :=
  [.newFile pathA, .openFile 0 (some pathA), .delFile pathA 0, .newFile pathB]

/-- A write through the handle of the deleted file lands in the new one. -/
theorem files_not_apart :
    ¬ ∀ (alc : Nat → Bool) (d : Dev) (ops : List RfsOp) (s : RfsState) (op : RfsOp) (i : Nat)
      (h : Handle) (s' : RfsState) (fne : Name) (b : Nat),
      rfsFmat.run (devInit alc) = .ok ((), d) → run rfsStep ops (RfsState.init d) = .ok s →
      op.stores = some i → s.hand i = some h → rfsStep s op = .ok s' → FileAt s.dev fne b →
      fne ≠ h.name → FileAt s'.dev fne b ∧ s'.dev.disk b = s.dev.disk b := by
  intro hall
  obtain ⟨d, hfmt, hq⟩ := exists_fmat (q := fun d => okAnd (run rfsStep deletedUnderHandle
    (RfsState.init d)) fun s => okAnd (rfsStep s (.writeFile 0 (some fun _ => 5) fsysAlcblksz 1))
      fun s' => sizeAt s.dev 3 0 && sizeAt s'.dev 3 1 && entAt s.dev 1 3 [98]
        && (s.hand 0).any fun h => h.name = [97]) (by decide +kernel)
  obtain ⟨s, hrun, hq⟩ := exists_of_okAnd hq
  obtain ⟨s', hstep, hq⟩ := exists_of_okAnd hq
  simp only [Bool.and_eq_true, Option.any_eq_true, decide_eq_true_iff] at hq
  obtain ⟨⟨⟨h0, h1⟩, hent⟩, h, hi, hname⟩ := hq
  obtain ⟨_, hblk⟩ := hall _ d deletedUnderHandle s _ 0 h s' [98] 3 hfmt hrun rfl hi hstep
    (fileAt_of_entAt hent) (by rw [hname]; decide)
  obtain ⟨f, hf, hsz⟩ := exists_of_sizeAt h0
  obtain ⟨f', hf', hsz'⟩ := exists_of_sizeAt h1
  rw [hf', hf] at hblk
  cases hblk
  rw [hsz] at hsz'
  cases hsz'

/-! ## Accepted writes -/

/-- A file block with exactly these bytes. -/
structure Filblk.Holds (g : Filblk) (bs : List UInt8) : Prop where
  filesz : g.hd.fmdFilesz = bs.length
  off : g.hd.fmdCurfinwbkoff = ifstbkoff + bs.length
  bytes : (List.range bs.length).map (fun o => g.byte (ifstbkoff + o)) = bs

theorem newHead_holds (n : Nat) : Filblk.Holds ⟨newHead .fil n, fun _ => 0⟩ [] :=
  ⟨rfl, rfl, rfl⟩

/-- A write appends its bytes. -/
theorem Filblk.Holds.append {g : Filblk} {bs : List UInt8} (h : g.Holds bs) (buf : Nat → UInt8)
    (len : Nat) : (g.append buf len).Holds (bs ++ (List.range len).map buf) := by
  have hlen : (bs ++ (List.range len).map buf).length = bs.length + len := by
    rw [List.length_append, List.length_map, List.length_range]
  refine ⟨?_, ?_, ?_⟩
  · rw [hlen, ← h.filesz]
    rfl
  · rw [hlen, ← Nat.add_assoc, ← h.off]
    rfl
  · rw [hlen, List.range_add, List.map_append, List.map_map]
    congr 1
    · refine Eq.trans (List.map_congr_left fun o ho => ?_) h.bytes
      rw [List.mem_range] at ho
      simp only [Filblk.append, h.off]
      rw [if_neg (by omega)]
    · apply List.map_congr_left
      intro o ho
      rw [List.mem_range] at ho
      simp only [Filblk.append, h.off, Function.comp_apply]
      rw [if_pos (by omega)]
      congr 1
      omega

theorem Filblk.append_zero (g : Filblk) (buf : Nat → UInt8) : g.append buf 0 = g := by
  unfold Filblk.append
  have hbyte : (fun o => if g.hd.fmdCurfinwbkoff ≤ o ∧ o < g.hd.fmdCurfinwbkoff + 0 then
      buf (o - g.hd.fmdCurfinwbkoff) else g.byte o) = g.byte := by
    funext o
    rw [if_neg (by omega)]
  rw [hbyte]
  rfl

/-- The copy of a handle is as long as the stored file. -/
def UpToDate (s : RfsState) (i : Nat) : Prop :=
  ∀ h, s.hand i = some h → ∃ g, s.dev.disk h.blk = .fil g ∧
    g.hd.fmdFilesz = h.finode.hd.fmdFilesz

/-- The calls that store a copy, an accepted write or a close, store one that is
up to date. -/
def StoresFresh (s : RfsState) : RfsOp → Prop
  | .writeFile i buf bufsz len => buf ≠ none → bufsz = fsysAlcblksz →
      (∀ h, s.hand i = some h → h.finode.hd.fmdCurfinwbkoff + len < fsysAlcblksz) → UpToDate s i
  | .closeFile i => UpToDate s i
  | _ => True

/-- No file is deleted. -/
def RfsOp.NoDel (op : RfsOp) : Prop := ∀ fname flg, op ≠ .delFile fname flg

instance (op : RfsOp) : Decidable op.NoDel :=
  match op with
  | .delFile fname flg => .isFalse fun h => h fname flg rfl
  | .newFile _ | .openFile _ _ | .writeFile _ _ _ _ | .readFile _ _ _ _ | .closeFile _ =>
      .isTrue fun _ _ h => by cases h

/-- **No accepted write is lost**: each file has the bytes of the writes that
were accepted, and is as long as they are together. -/
structure WritesKept (s : RfsState) : Prop where
  file : ∀ fne, s.acked fne ≠ [] → ∃ b, FileAt s.dev fne b
  stored : ∀ fne b, FileAt s.dev fne b → ∃ g, s.dev.disk b = .fil g ∧
    g.hd.fmdFilesz = (s.acked fne).length ∧
    (List.range (s.acked fne).length).map (fun o => g.byte (ifstbkoff + o)) = s.acked fne

/-- The stored block is the newest copy, and has all accepted bytes. -/
structure Newest (s : RfsState) : Prop where
  hand : ∀ i h, s.hand i = some h → FileAt s.dev h.name h.blk ∧
    ∃ g, s.dev.disk h.blk = .fil g ∧
      (h.finode = g ∨ h.finode.hd.fmdFilesz < g.hd.fmdFilesz)
  stored : ∀ fne b, FileAt s.dev fne b → ∃ g, s.dev.disk b = .fil g ∧ g.Holds (s.acked fne)
  file : ∀ fne, s.acked fne ≠ [] → ∃ b, FileAt s.dev fne b

theorem Newest.writesKept {s : RfsState} (h : Newest s) : WritesKept s where
  file := h.file
  stored fne b hf := by
    obtain ⟨g, hg, hb⟩ := h.stored fne b hf
    exact ⟨g, hg, hb.filesz, hb.bytes⟩

/-- A copy of full length is the stored block. -/
theorem Newest.eq_of_upToDate {s : RfsState} (hn : Newest s) {i : Nat} {h : Handle}
    (hi : s.hand i = some h) (hu : UpToDate s i) : s.dev.disk h.blk = .fil h.finode := by
  obtain ⟨_, g, hg, hcase⟩ := hn.hand i h hi
  obtain ⟨g', hg', hsz⟩ := hu h hi
  rw [hg] at hg'
  cases hg'
  rcases hcase with rfl | hlt
  · exact hg
  · omega

/-- The same files in the same blocks. -/
theorem Newest.frame {s : RfsState} (hn : Newest s) {d' : Dev}
    (hfile : ∀ fne b, FileAt d' fne b ↔ FileAt s.dev fne b)
    (hdisk : ∀ fne b, FileAt s.dev fne b → d'.disk b = s.dev.disk b) :
    Newest { s with dev := d' } where
  hand i h hi := by
    obtain ⟨hf, hg⟩ := hn.hand i h hi
    refine ⟨(hfile _ _).mpr hf, ?_⟩
    show ∃ g, d'.disk h.blk = .fil g ∧ _
    rw [hdisk _ _ hf]
    exact hg
  stored fne b hf := by
    show ∃ g, d'.disk b = .fil g ∧ _
    rw [hdisk _ _ ((hfile _ _).mp hf)]
    exact hn.stored fne b ((hfile _ _).mp hf)
  file fne ha := by
    obtain ⟨b, hb⟩ := hn.file fne ha
    exact ⟨b, (hfile _ _).mpr hb⟩

/-- A handle that is there for `hand` replaced at `i`. -/
theorem Newest.setHand {s : RfsState} (hn : Newest s) (i : Nat) {o : Option Handle}
    (ho : ∀ h, o = some h → FileAt s.dev h.name h.blk ∧ s.dev.disk h.blk = .fil h.finode) :
    Newest { s with hand := Function.update s.hand i o } where
  hand j h hj := by
    by_cases hji : j = i
    · subst hji
      simp only [Function.update_self] at hj
      obtain ⟨hf, hg⟩ := ho h hj
      exact ⟨hf, h.finode, hg, Or.inl rfl⟩
    · simp only [Function.update_of_ne hji] at hj
      exact hn.hand j h hj
  stored := hn.stored
  file := hn.file

/-- **An accepted write** through a copy that is the stored block. -/
theorem Newest.wrote {s : RfsState} (hn : Newest s) {bmp : Nat → UInt8} {dir : Dirblk}
    (hinv : RfsInv s.dev bmp dir) (hh : HandsOk s) {i : Nat} {h : Handle}
    (hi : s.hand i = some h) (hnew : s.dev.disk h.blk = .fil h.finode) (buf : Nat → UInt8)
    (len : Nat) {d' : Dev} (hd : (s.dev.put h.blk (.fil (h.finode.append buf len))).Same d') :
    Newest { s with
      dev := d'
      hand := Function.update s.hand i (some ⟨h.name, h.finode.append buf len⟩)
      acked := Function.update s.acked h.name (s.acked h.name ++ (List.range len).map buf) } := by
  have hfile : ∀ fne b, FileAt d' fne b ↔ FileAt s.dev fne b := fun fne b =>
    ((hinv.store ((hh i h hi).append buf len)).same hd).fileAt_iff.trans hinv.fileAt_iff.symm
  have hself : d'.disk h.blk = .fil (h.finode.append buf len) := by
    rw [hd.1, put_disk_self]
  have hother : ∀ b, b ≠ h.blk → d'.disk b = s.dev.disk b := by
    intro b hb
    rw [hd.1, put_disk_ne _ _ hb]
  have hmine := (hn.hand i h hi).1
  refine { hand := fun j h' hj => ?_, stored := fun fne b hf => ?_, file := fun fne ha => ?_ }
  · by_cases hji : j = i
    · subst hji
      simp only [Function.update_self] at hj
      cases hj
      exact ⟨(hfile _ _).mpr hmine, _, hself, Or.inl rfl⟩
    · simp only [Function.update_of_ne hji] at hj
      obtain ⟨hf, g, hg, hcase⟩ := hn.hand j h' hj
      refine ⟨(hfile _ _).mpr hf, ?_⟩
      by_cases hb : h'.blk = h.blk
      · show ∃ g, d'.disk h'.blk = .fil g ∧ _
        rw [hb, hself]
        rw [hb, hnew] at hg
        cases hg
        -- an empty write changes nothing; any other leaves the copy behind
        rcases Nat.eq_zero_or_pos len with rfl | hpos
        · rw [Filblk.append_zero]
          exact ⟨_, rfl, hcase⟩
        · refine ⟨_, rfl, Or.inr ?_⟩
          show _ < h.finode.hd.fmdFilesz + len
          rcases hcase with he | hlt
          · rw [he]
            omega
          · omega
      · show ∃ g, d'.disk h'.blk = .fil g ∧ _
        rw [hother _ hb]
        exact ⟨g, hg, hcase⟩
  · have hf' := (hfile _ _).mp hf
    show ∃ g, d'.disk b = .fil g ∧ g.Holds (Function.update s.acked h.name _ fne)
    by_cases hb : b = h.blk
    · subst hb
      cases hinv.fileAt_name hf' hmine
      obtain ⟨g, hg, hholds⟩ := hn.stored _ _ hf'
      rw [hnew] at hg
      cases hg
      rw [hself, Function.update_self]
      exact ⟨_, rfl, hholds.append buf len⟩
    · have hne : fne ≠ h.name := by
        rintro rfl
        exact hb (hinv.fileAt_blk hf' hmine)
      rw [hother _ hb, Function.update_of_ne hne]
      exact hn.stored fne b hf'
  · by_cases hne : fne = h.name
    · subst hne
      exact ⟨_, (hfile _ _).mpr hmine⟩
    · simp only [Function.update_of_ne hne] at ha
      obtain ⟨b, hb⟩ := hn.file fne ha
      exact ⟨b, (hfile _ _).mpr hb⟩

/-- **A new file** has no bytes. -/
theorem Newest.made {s : RfsState} (hn : Newest s) {bmp : Nat → UInt8} {dir : Dirblk}
    (hinv : RfsInv s.dev bmp dir) {fne : Name} {n : Nat} (hfree : freeBlknr bmp = some n)
    (hinv' : RfsInv (s.dev.withFile bmp dir fne n) (Function.update bmp n 1) (dir.addEnt fne n))
    (hnew : ∀ i, dir.IsFile i → (dir.ent i).rdrName ≠ fne) {d' : Dev}
    (hd : (s.dev.withFile bmp dir fne n).Same d') :
    Newest { s with dev := d', acked := Function.update s.acked fne [] } := by
  have hfile : ∀ fne' b, FileAt d' fne' b ↔ FileAt s.dev fne' b ∨ (fne' = fne ∧ b = n) :=
    fun fne' b => hinv.fileAt_made (hinv'.same hd)
  obtain ⟨_, f, _, hfh⟩ := hinv'.fileAt_hd
    ((hinv.fileAt_made hinv').mpr (Or.inr ⟨rfl, rfl⟩))
  have hgt := hfh.gt
  have hself : d'.disk n = .fil ⟨newHead .fil n, fun _ => 0⟩ := by
    rw [hd.1]
    unfold Dev.withFile
    rw [put_disk_ne _ _ (by omega), put_disk_self]
  have hother : ∀ fne' b, FileAt s.dev fne' b → d'.disk b = s.dev.disk b := by
    intro fne' b hf
    obtain ⟨hu, g, _, hgh⟩ := hinv.fileAt_hd hf
    have hbn : b ≠ n := by
      rintro rfl
      exact hu (freeBlknr_some hfree).2.2
    have hb := hgh.gt
    rw [hd.1]
    unfold Dev.withFile
    rw [put_disk_ne _ _ (by omega), put_disk_ne _ _ hbn, put_disk_ne _ _ (by omega)]
  have hname : ∀ fne' b, FileAt s.dev fne' b → fne' ≠ fne := by
    intro fne' b hf
    obtain ⟨k, hk, hkn, _⟩ := hinv.fileAt_iff.mp hf
    rw [← hkn]
    exact hnew k hk
  refine { hand := fun j h hj => ?_, stored := fun fne' b hf => ?_, file := fun fne' ha => ?_ }
  · obtain ⟨hf, hg⟩ := hn.hand j h hj
    refine ⟨(hfile _ _).mpr (Or.inl hf), ?_⟩
    show ∃ g, d'.disk h.blk = .fil g ∧ _
    rw [hother _ _ hf]
    exact hg
  · show ∃ g, d'.disk b = .fil g ∧ g.Holds (Function.update s.acked fne [] fne')
    rcases (hfile _ _).mp hf with hf | ⟨rfl, rfl⟩
    · rw [hother _ _ hf, Function.update_of_ne (hname _ _ hf)]
      exact hn.stored fne' b hf
    · rw [hself, Function.update_self]
      exact ⟨_, rfl, newHead_holds _⟩
  · by_cases hne : fne' = fne
    · exact ⟨n, (hfile _ _).mpr (Or.inr ⟨hne, rfl⟩)⟩
    · simp only [Function.update_of_ne hne] at ha
      obtain ⟨b, hb⟩ := hn.file fne' ha
      exact ⟨b, (hfile _ _).mpr (Or.inl hb)⟩

theorem Move.newest {bmp : Nat → UInt8} {dir : Dirblk} {s s' : RfsState} {op : RfsOp}
    (hm : Move bmp dir s op s') (hinv : RfsInv s.dev bmp dir) (hh : HandsOk s)
    (hdel : op.NoDel) (hop : StoresFresh s op) (hn : Newest s) : Newest s' := by
  cases hm with
  | same hd =>
      exact hn.frame (fun fne b => (hinv.same hd).fileAt_iff.trans hinv.fileAt_iff.symm)
        fun fne b _ => by rw [hd.1]
  | leaked hfree hd =>
      refine hn.frame (fun fne b => ((hinv.leak hfree).same hd).fileAt_iff.trans
        hinv.fileAt_iff.symm) fun fne b hf => ?_
      obtain ⟨_, g, _, hgh⟩ := hinv.fileAt_hd hf
      have hb := hgh.gt
      rw [hd.1, put_disk_ne _ _ (by omega)]
  | made hname hfree hinv' hnew hd _ => exact hn.made hinv hfree hinv' hnew hd
  | @opened i _ fne k f d' hfree hk hblk hfh hd =>
      have hframe := hn.frame (fun fne b => (hinv.same hd).fileAt_iff.trans hinv.fileAt_iff.symm)
        fun fne b _ => by rw [hd.1]
      apply hframe.setHand i
      intro h ho
      cases ho
      have hb : (⟨fne, f⟩ : Handle).blk = (dir.ent k).rdrBlknr := hfh.sfblk
      rw [hb]
      refine ⟨(hinv.same hd).fileAt_iff.mpr (hinv.fileAt_iff.mp (hinv.fileAt_found hk)), ?_⟩
      show d'.disk _ = _
      rw [hd.1]
      exact hblk
  | @wrote i h buf len d' hi hlen hd =>
      have hu : UpToDate s i := hop (by simp) rfl fun h' hi' => by
        rw [hi] at hi'
        cases hi'
        exact hlen
      exact hn.wrote hinv hh hi (hn.eq_of_upToDate hi hu) buf len hd
  | @closed i h d' hi hd =>
      have hsame : s.dev.Same d' := hd.put_self (hn.eq_of_upToDate hi hop)
      have hframe := hn.frame (fun fne b => (hinv.same hsame).fileAt_iff.trans
        hinv.fileAt_iff.symm) fun fne b _ => by rw [hsame.1]
      exact hframe.setHand i fun h' ho => by cases ho
  | deleted hk hd => exact absurd rfl (hdel _ _)

theorem rfsStep_newest (s : RfsState) (op : RfsOp) (s' : RfsState) (h : FsOk s ∧ Newest s)
    (hop : op.NoDel ∧ StoresFresh s op) (hstep : rfsStep s op = .ok s') :
    FsOk s' ∧ Newest s' := by
  obtain ⟨⟨⟨bmp, dir, hinv⟩, hh⟩, hn⟩ := h
  have hm := rfsStep_move hinv hh hstep
  exact ⟨hm.fsOk hinv hh, hm.newest hinv hh hop.1 hop.2 hn⟩

theorem init_newest {alc : Nat → Bool} {d : Dev}
    (hfmt : rfsFmat.run (devInit alc) = .ok ((), d)) : Newest (RfsState.init d) where
  hand i h hi := by cases hi
  stored fne b hf := by
    have hinv := rfsFmat_spec rfl _ _ _ (Dev.Same.refl _) hfmt
    obtain ⟨k, hk, _⟩ := hinv.fileAt_iff.mp hf
    exact absurd hk (rootdirInit_noFile k)
  file fne ha := absurd rfl ha

/-- **No accepted write is lost**, in every run without deletes whose accepted
writes and closes all go through copies that are up to date. -/
theorem writes_kept (alc : Nat → Bool) {d : Dev} (hfmt : rfsFmat.run (devInit alc) = .ok ((), d))
    (ops : List RfsOp) (hdel : ∀ op ∈ ops, op.NoDel) {s : RfsState}
    (hall : AllSteps rfsStep StoresFresh ops (RfsState.init d))
    (hrun : run rfsStep ops (RfsState.init d) = .ok s) : WritesKept s := by
  obtain ⟨_, hn⟩ := run_inv_of_allSteps (fun s => FsOk s ∧ Newest s) _ rfsStep_newest ops _ s
    ⟨init_fsOk hfmt, init_newest hfmt⟩ ((allSteps_of_forall ops _ hdel).and hall) hrun
  exact hn.writesKept

/-- A copy that is as long as the stored file. -/
def upToDate (s : RfsState) (i : Nat) : Bool :=
  (s.hand i).all fun h => sizeAt s.dev h.blk h.finode.hd.fmdFilesz

/-- The test that the call stores no old copy. -/
def storesFresh (s : RfsState) : RfsOp → Bool
  | .writeFile i _ _ _ => upToDate s i
  | .closeFile i => upToDate s i
  | _ => true

theorem upToDate_of_check {s : RfsState} {i : Nat} (h : upToDate s i = true) : UpToDate s i := by
  intro hd hi
  unfold upToDate at h
  rw [hi] at h
  exact exists_of_sizeAt h

theorem storesFresh_of_check (s : RfsState) (op : RfsOp) (h : storesFresh s op = true) :
    StoresFresh s op := by
  cases op with
  | writeFile i buf bufsz len => exact fun _ _ _ => upToDate_of_check h
  | closeFile i => exact upToDate_of_check h
  | newFile fname => trivial
  | openFile i fname => trivial
  | readFile i buf bufsz len => trivial
  | delFile fname flg => trivial

/-- A file is written through two handles, one after the other. -/
def writeInTurn : List RfsOp :=
  [.newFile pathA, .openFile 0 (some pathA), .writeFile 0 (some fun _ => 5) fsysAlcblksz 1,
    .closeFile 0, .openFile 1 (some pathA), .writeFile 1 (some fun _ => 6) fsysAlcblksz 1,
    .closeFile 1]

theorem writes_kept_writeInTurn : ∃ s : RfsState, s.acked [97] = [5, 6] ∧ WritesKept s := by
  obtain ⟨d, hfmt, hq⟩ := exists_fmat (q := fun d => checkSteps rfsStep storesFresh writeInTurn
    (RfsState.init d) && okAnd (run rfsStep writeInTurn (RfsState.init d)) fun s =>
      s.acked [97] = [5, 6]) (by decide +kernel)
  rw [Bool.and_eq_true] at hq
  obtain ⟨s, hrun, hacked⟩ := exists_of_okAnd hq.2
  exact ⟨s, of_decide_eq_true hacked, writes_kept _ hfmt writeInTurn (by decide)
    (allSteps_of_check storesFresh_of_check _ _ hq.1) hrun⟩

/-- Who never opens has no handle. -/
theorem rfsStep_hand_none {i : Nat} (s : RfsState) (op : RfsOp) (s' : RfsState)
    (h : FsOk s ∧ s.hand i = none) (hop : ∀ fname, op ≠ .openFile i fname)
    (hstep : rfsStep s op = .ok s') : FsOk s' ∧ s'.hand i = none := by
  refine ⟨rfsStep_fsOk s op s' h.1 hstep, ?_⟩
  obtain ⟨⟨⟨bmp, dir, hinv⟩, hh⟩, hi⟩ := h
  have hother : ∀ j (o : Option Handle), i ≠ j → Function.update s.hand j o i = none := by
    intro j o hij
    rw [Function.update_of_ne hij]
    exact hi
  cases rfsStep_move hinv hh hstep with
  | same => exact hi
  | leaked => exact hi
  | made => exact hi
  | @opened j => exact hother j _ fun hij => hop _ (by rw [hij])
  | @wrote j h _ _ _ hj =>
      apply hother j _
      rintro rfl
      rw [hi] at hj
      cases hj
  | @closed j h _ hj =>
      apply hother j _
      rintro rfl
      rw [hi] at hj
      cases hj
  | deleted => exact hi

/-- Two handles on one file; the one that did not write is closed last. -/
def staleClose : List RfsOp :=
  [.newFile pathA, .openFile 0 (some pathA), .openFile 1 (some pathA),
    .writeFile 0 (some fun _ => 5) fsysAlcblksz 1, .closeFile 0, .closeFile 1]

/-- Closing a handle that was opened before the write takes the write back. -/
theorem writes_not_kept :
    ¬ ∀ (alc : Nat → Bool) (d : Dev) (ops : List RfsOp) (s : RfsState),
      rfsFmat.run (devInit alc) = .ok ((), d) → (∀ op ∈ ops, op.NoDel) →
      run rfsStep ops (RfsState.init d) = .ok s → (∀ i, s.hand i = none) → WritesKept s := by
  intro hall
  obtain ⟨d, hfmt, hq⟩ := exists_fmat (q := fun d => okAnd (run rfsStep staleClose
    (RfsState.init d)) fun s => sizeAt s.dev 3 0 && entAt s.dev 0 3 [97] && s.acked [97] = [5]
      && (s.hand 0).isNone && (s.hand 1).isNone) (by decide +kernel)
  obtain ⟨s, hrun, hq⟩ := exists_of_okAnd hq
  simp only [Bool.and_eq_true, Option.isNone_iff_eq_none, decide_eq_true_iff] at hq
  obtain ⟨⟨⟨⟨hsz, hent⟩, hacked⟩, hi0⟩, hi1⟩ := hq
  have hclosed : ∀ i, s.hand i = none := by
    intro i
    by_cases h0 : i = 0
    · rw [h0]
      exact hi0
    by_cases h1 : i = 1
    · rw [h1]
      exact hi1
    refine (run_inv_of_allSteps (fun s => FsOk s ∧ s.hand i = none)
      (fun _ op => ∀ fname, op ≠ .openFile i fname) rfsStep_hand_none staleClose _ s
      ⟨init_fsOk hfmt, rfl⟩ (allSteps_of_forall _ _ fun op hop => ?_) hrun).2
    unfold staleClose at hop
    simp only [List.mem_cons, List.not_mem_nil, or_false] at hop
    rintro fname rfl
    rcases hop with h | h | h | h | h | h <;> cases h
    · exact h0 rfl
    · exact h1 rfl
  obtain ⟨g, hg, hlen, _⟩ := (hall _ d staleClose s hfmt (by decide) hrun hclosed).stored [97] 3
    (fileAt_of_entAt hent)
  obtain ⟨f, hf, hf0⟩ := exists_of_sizeAt hsz
  rw [hf] at hg
  cases hg
  rw [hacked, hf0] at hlen
  cases hlen

end Cosmos.Drivers
