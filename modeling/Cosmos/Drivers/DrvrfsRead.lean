import Cosmos.Drivers.DrvrfsHands

/-!
# Reading back what was written

A file that is used through one handle at a time, while no handle outlives its
file: the copy of the handle is the stored block, and `rfs_read_file` returns
the bytes of the accepted writes.
-/

namespace Cosmos.Drivers

open Cosmos.Lib.Run

/-- No handle outlives its file. -/
def HandsLive (s : RfsState) : Prop :=
  ∀ i h, s.hand i = some h → FileAt s.dev h.name h.blk

/-- The file `fne` is there and has at most one handle, and no handle outlives its
file. -/
structure UsedAlone (fne : Name) (s : RfsState) : Prop where
  file : ∃ b, FileAt s.dev fne b
  single : ∀ i j h h', s.hand i = some h → s.hand j = some h' → h.name = fne → h'.name = fne →
    i = j
  live : HandsLive s

/-- The block of the file and the copy of its handle have the accepted bytes. -/
structure Written (fne : Name) (b : Nat) (g : Filblk) (s : RfsState) : Prop where
  file : FileAt s.dev fne b
  stored : s.dev.disk b = .fil g
  holds : g.Holds (s.acked fne)
  room : g.hd.fmdCurfinwbkoff < fsysAlcblksz
  hand : ∀ i h, s.hand i = some h → h.name = fne → h.finode = g

section Step

variable {fne : Name} {b : Nat} {g : Filblk} {s : RfsState} {bmp : Nat → UInt8} {dir : Dirblk}

/-- A call that deletes nothing keeps every file in its block. -/
theorem Move.fileAt {s' : RfsState} {op : RfsOp} (hm : Move bmp dir s op s')
    (hinv : RfsInv s.dev bmp dir) (hh : HandsOk s) (hdel : op.NoDel) {fne' : Name} {b' : Nat}
    (hf : FileAt s.dev fne' b') : FileAt s'.dev fne' b' := by
  have hk := hinv.fileAt_iff.mp hf
  cases hm with
  | same hd => exact (hinv.same hd).fileAt_iff.mpr hk
  | leaked hn hd => exact ((hinv.leak hn).same hd).fileAt_iff.mpr hk
  | made hname hn hinv' hnew hd _ => exact (hinv.fileAt_made (hinv'.same hd)).mpr (Or.inl hf)
  | opened hfree hfe hblk hfh hd => exact (hinv.same hd).fileAt_iff.mpr hk
  | wrote hi hlen hd =>
      exact ((hinv.store ((hh _ _ hi).append _ _)).same hd).fileAt_iff.mpr hk
  | closed hi hd => exact ((hinv.store (hh _ _ hi)).same hd).fileAt_iff.mpr hk
  | deleted => exact absurd rfl (hdel _ _)

/-- A call that deletes nothing leaves no handle without its file. -/
theorem Move.handsLive {s' : RfsState} {op : RfsOp} (hm : Move bmp dir s op s')
    (hinv : RfsInv s.dev bmp dir) (hh : HandsOk s) (hdel : op.NoDel) (hlive : HandsLive s) :
    HandsLive s' := by
  have hfile : ∀ fne' b', FileAt s.dev fne' b' → FileAt s'.dev fne' b' := fun _ _ hf =>
    hm.fileAt hinv hh hdel hf
  intro j h hj
  cases hm with
  | same => exact hfile _ _ (hlive j h hj)
  | leaked => exact hfile _ _ (hlive j h hj)
  | made => exact hfile _ _ (hlive j h hj)
  | @opened i _ fne' k f d' hfree hk hblk hfh hd =>
      by_cases hji : j = i
      · subst hji
        simp only [Function.update_self] at hj
        cases hj
        have hb : (⟨fne', f⟩ : Handle).blk = (dir.ent k).rdrBlknr := hfh.sfblk
        rw [hb]
        exact hfile _ _ (hinv.fileAt_found hk)
      · simp only [Function.update_of_ne hji] at hj
        exact hfile _ _ (hlive j h hj)
  | @wrote i h₀ buf len d' hi hlen hd =>
      by_cases hji : j = i
      · subst hji
        simp only [Function.update_self] at hj
        cases hj
        exact hfile _ _ (hlive j h₀ hi)
      · simp only [Function.update_of_ne hji] at hj
        exact hfile _ _ (hlive j h hj)
  | @closed i h₀ d' hi hd =>
      by_cases hji : j = i
      · subst hji
        simp only [Function.update_self] at hj
        cases hj
      · simp only [Function.update_of_ne hji] at hj
        exact hfile _ _ (hlive j h hj)
  | deleted => exact absurd rfl (hdel _ _)

/-- A handle of another file writes to another block. -/
theorem Written.blk_ne (hw : Written fne b g s) (hinv : RfsInv s.dev bmp dir)
    (hlive : HandsLive s) {i : Nat} {h : Handle} (hi : s.hand i = some h) (hne : h.name ≠ fne) :
    b ≠ h.blk := by
  rintro rfl
  exact hne (hinv.fileAt_name (hlive i h hi) hw.file)

/-- The handle of the file writes to its block. -/
theorem Written.blk_eq (hw : Written fne b g s) (hinv : RfsInv s.dev bmp dir)
    (hlive : HandsLive s) {i : Nat} {h : Handle} (hi : s.hand i = some h) (hname : h.name = fne) :
    b = h.blk := by
  have hf := hlive i h hi
  rw [hname] at hf
  exact hinv.fileAt_blk hw.file hf

/-- The device changes elsewhere. -/
theorem Written.dev (hw : Written fne b g s) {d' : Dev} (hfile : FileAt d' fne b)
    (hdisk : d'.disk b = s.dev.disk b) : Written fne b g { s with dev := d' } where
  file := hfile
  stored := hdisk.trans hw.stored
  holds := hw.holds
  room := hw.room
  hand := hw.hand

/-- The bytes of another file. -/
theorem Written.setAcked (hw : Written fne b g s) {fne' : Name} (hne : fne ≠ fne')
    (bs : List UInt8) :
    Written fne b g { s with acked := Function.update s.acked fne' bs } where
  file := hw.file
  stored := hw.stored
  holds := by
    show g.Holds (Function.update s.acked fne' bs fne)
    rw [Function.update_of_ne hne]
    exact hw.holds
  room := hw.room
  hand := hw.hand

/-- Another handle at `i`. -/
theorem Written.setHand (hw : Written fne b g s) (i : Nat) {o : Option Handle}
    (ho : ∀ h, o = some h → h.name = fne → h.finode = g) :
    Written fne b g { s with hand := Function.update s.hand i o } where
  file := hw.file
  stored := hw.stored
  holds := hw.holds
  room := hw.room
  hand j h hj hname := by
    by_cases hji : j = i
    · subst hji
      simp only [Function.update_self] at hj
      exact ho h hj hname
    · simp only [Function.update_of_ne hji] at hj
      exact hw.hand j h hj hname

/-- **A write through the handle of the file.** -/
theorem Written.append (hw : Written fne b g s) (hinv : RfsInv s.dev bmp dir)
    (hlive : HandsLive s) {i : Nat} {h : Handle} (hi : s.hand i = some h) (hname : h.name = fne)
    (hone : ∀ j h', s.hand j = some h' → h'.name = fne → j = i) (buf : Nat → UInt8) {len : Nat}
    (hlen : h.finode.hd.fmdCurfinwbkoff + len < fsysAlcblksz) {d' : Dev}
    (hd : (s.dev.put h.blk (.fil (h.finode.append buf len))).Same d')
    (hfile : FileAt d' fne b) :
    Written fne b (g.append buf len) { s with
      dev := d'
      hand := Function.update s.hand i (some ⟨h.name, h.finode.append buf len⟩)
      acked := Function.update s.acked h.name (s.acked h.name ++ (List.range len).map buf) } where
  file := hfile
  stored := by
    show d'.disk b = _
    rw [hd.1, hw.blk_eq hinv hlive hi hname, put_disk_self, hw.hand i h hi hname]
  holds := by
    show (g.append buf len).Holds (Function.update s.acked h.name _ fne)
    rw [hname, Function.update_self]
    exact hw.holds.append buf len
  room := by
    rw [← hw.hand i h hi hname]
    exact hlen
  hand j h' hj hname' := by
    by_cases hji : j = i
    · subst hji
      simp only [Function.update_self] at hj
      cases hj
      rw [hw.hand j h hi hname]
    · simp only [Function.update_of_ne hji] at hj
      exact absurd (hone j h' hj hname') hji

/-- **Each call keeps the file written**, when it leaves the file used alone. -/
theorem Move.written {s' : RfsState} {op : RfsOp} (hm : Move bmp dir s op s')
    (hinv : RfsInv s.dev bmp dir) (hh : HandsOk s) (halone : UsedAlone fne s)
    (halone' : UsedAlone fne s') (hw : Written fne b g s) : ∃ g', Written fne b g' s' := by
  have hlive := halone.live
  have hfile := fun hdel => hm.fileAt hinv hh hdel hw.file
  obtain ⟨hused, f₀, _, hfh₀⟩ := hinv.fileAt_hd hw.file
  have hgt := hfh₀.gt
  cases hm with
  | same hd => exact ⟨g, hw.dev ((hinv.same hd).fileAt_iff.mpr (hinv.fileAt_iff.mp hw.file))
      (by rw [hd.1])⟩
  | leaked hn hd =>
      refine ⟨g, hw.dev (hfile fun _ _ h => by cases h) ?_⟩
      rw [hd.1, put_disk_ne _ _ (by omega)]
  | @made fname fne' n d' hname hn hinv' hnew hd _ =>
      have hbn : b ≠ n := by
        rintro rfl
        exact hused (freeBlknr_some hn).2.2
      have hne : fne ≠ fne' := by
        obtain ⟨k, hk, hkn, _⟩ := hinv.fileAt_iff.mp hw.file
        rw [← hkn]
        exact hnew k hk
      refine ⟨g, (hw.dev (hfile fun _ _ h => by cases h) ?_).setAcked hne []⟩
      rw [hd.1]
      unfold Dev.withFile
      rw [put_disk_ne _ _ (by omega), put_disk_ne _ _ hbn, put_disk_ne _ _ (by omega)]
  | @opened i _ fne' k f d' hfree hk hblk hfh hd =>
      refine ⟨g, (hw.dev (hfile fun _ _ h => by cases h) (by rw [hd.1])).setHand i
        fun h ho hname => ?_⟩
      cases ho
      -- the handle got a copy of the stored block
      have hfound := hinv.fileAt_found hk
      have hname' : fne' = fne := hname
      rw [hname'] at hfound
      rw [← hinv.fileAt_blk hw.file hfound, hw.stored] at hblk
      cases hblk
      rfl
  | @wrote i h buf len d' hi hlen hd =>
      have hf' : FileAt d' fne b := hfile fun _ _ h => by cases h
      by_cases hname : h.name = fne
      · exact ⟨g.append buf len, hw.append hinv hlive hi hname
          (fun j h' hj hn => halone.single j i h' h hj hi hn hname) buf hlen hd hf'⟩
      · have hdisk : d'.disk b = s.dev.disk b := by
          rw [hd.1, put_disk_ne _ _ (hw.blk_ne hinv hlive hi hname)]
        refine ⟨g, ((hw.dev hf' hdisk).setHand i (o := some ⟨h.name, h.finode.append buf len⟩)
          fun h' ho hn => ?_).setAcked (Ne.symm hname) _⟩
        cases ho
        exact absurd hn hname
  | @closed i h d' hi hd =>
      refine ⟨g, (hw.dev (hfile fun _ _ h => by cases h) ?_).setHand i fun h' ho => by cases ho⟩
      rw [hd.1]
      by_cases hname : h.name = fne
      · rw [hw.blk_eq hinv hlive hi hname, put_disk_self, hw.hand i h hi hname,
          ← hw.blk_eq hinv hlive hi hname, hw.stored]
      · rw [put_disk_ne _ _ (hw.blk_ne hinv hlive hi hname)]
  | deleted hk hd =>
      have hinv' := (hinv.delFile (findEnt_some hinv.root hk).1).same hd
      obtain ⟨b', hf'⟩ := halone'.file
      have hb := hinv.fileAt_blk hw.file (hinv.fileAt_deleted hinv' hf')
      subst hb
      refine ⟨g, hw.dev hf' ?_⟩
      rw [hd.1]
      unfold Dev.withoutFile
      rw [put_disk_ne _ _ (by omega), put_disk_ne _ _ (by omega)]

theorem rfsStep_written (s : RfsState) (op : RfsOp) (s' : RfsState)
    (h : FsOk s ∧ UsedAlone fne s ∧ ∃ b g, Written fne b g s)
    (hop : ∀ s', rfsStep s op = .ok s' → UsedAlone fne s') (hstep : rfsStep s op = .ok s') :
    FsOk s' ∧ UsedAlone fne s' ∧ ∃ b g, Written fne b g s' := by
  obtain ⟨⟨⟨bmp, dir, hinv⟩, hh⟩, halone, b, g, hw⟩ := h
  have hm := rfsStep_move hinv hh hstep
  exact ⟨hm.fsOk hinv hh, hop s' hstep, b, hm.written hinv hh halone (hop s' hstep) hw⟩

/-- A file that was just made. -/
theorem written_of_new {s₀ s₁ : RfsState} (hok : FsOk s₀) (hlive : HandsLive s₀)
    {fname : Nat → UInt8} (hname : rfsRetFname fname = some fne) {d₁ : Dev}
    (hmade : (rfsNewFile fname).run s₀.dev = .ok (true, d₁))
    (hnew : rfsStep s₀ (.newFile fname) = .ok s₁) :
    ∃ b g, UsedAlone fne s₁ ∧ Written fne b g s₁ := by
  obtain ⟨⟨bmp, dir, hinv⟩, _⟩ := hok
  obtain ⟨r, d', hrun, rfl⟩ := map_run_ok hnew
  rw [hmade] at hrun
  cases hrun
  rcases rfsNewFile_spec hinv fname s₀.dev true d₁ (Dev.Same.refl _) hmade with
    ⟨h0, _⟩ | ⟨_, fne', n, hname', hn, hinv', hfresh, hd⟩
  · cases h0
  · rw [hname] at hname'
    cases hname'
    have hiff : ∀ fne' b', FileAt d₁ fne' b' ↔ FileAt s₀.dev fne' b' ∨ (fne' = fne ∧ b' = n) :=
      fun _ _ => hinv.fileAt_made (hinv'.same hd)
    -- no handle has the name, since no file had it
    have hnohand : ∀ i h, s₀.hand i = some h → h.name ≠ fne := by
      intro i h hi hn
      have hf := hlive i h hi
      rw [hn] at hf
      obtain ⟨k, hk, hkn, _⟩ := hinv.fileAt_iff.mp hf
      exact hfresh k hk hkn
    have hlive' : HandsLive { s₀.made fname true with dev := d₁ } := fun i h hi =>
      (hiff _ _).mpr (Or.inl (hlive i h hi))
    have hfile : FileAt d₁ fne n := (hiff _ _).mpr (Or.inr ⟨rfl, rfl⟩)
    obtain ⟨_, f, _, hfh⟩ := (hinv'.same hd).fileAt_hd hfile
    have hgt := hfh.gt
    refine ⟨n, ⟨newHead .fil n, fun _ => 0⟩,
      { file := ⟨n, hfile⟩
        single := fun i j h h' hi _ hn => absurd hn (hnohand i h hi)
        live := hlive' },
      { file := hfile
        stored := ?_
        holds := ?_
        room := by
          show 0x200 < fsysAlcblksz
          decide
        hand := fun i h hi hn => absurd hn (hnohand i h hi) }⟩
    · show d₁.disk n = _
      rw [hd.1]
      unfold Dev.withFile
      rw [put_disk_ne _ _ (by omega), put_disk_self]
    · show Filblk.Holds _ ((s₀.made fname true).acked fne)
      simp only [RfsState.made, hname, Option.getD_some, Function.update_self]
      exact newHead_holds n

/-- Reading the first bytes of a block. -/
theorem Filblk.Holds.read {bs : List UInt8} (h : g.Holds bs) (hf : FileHd g.hd b)
    (hroom : g.hd.fmdCurfinwbkoff < fsysAlcblksz) {len : Nat} (hlen : len ≤ bs.length) :
    rfsReadfileblk g len = some (bs.take len) := by
  have hown : g.hd.isOwn = true := by
    unfold Fimgrhd.isOwn
    rw [hf.sfblk, hf.curfwritebk, hf.fbBlkstart]
    simp
  have hend := h.off
  have hfirst := congrArg (List.take len) h.bytes
  rw [← List.map_take, List.take_range, Nat.min_eq_left hlen] at hfirst
  unfold rfsReadfileblk
  rw [hown, hf.ifst, if_neg (by simp), if_neg (by omega), hfirst]

/-- **Read after write.**  A file is made while no handle outlives its file, and is
then used alone.  Whatever else is called meanwhile, reading through its handle
returns the bytes of the accepted writes. -/
theorem read_after_writes (alc : Nat → Bool) {d : Dev}
    (hfmt : rfsFmat.run (devInit alc) = .ok ((), d)) (ops₀ : List RfsOp) {s₀ : RfsState}
    (hrun₀ : run rfsStep ops₀ (RfsState.init d) = .ok s₀) (hlive : HandsLive s₀)
    {fname : Nat → UInt8} (hname : rfsRetFname fname = some fne) {d₁ : Dev}
    (hmade : (rfsNewFile fname).run s₀.dev = .ok (true, d₁)) {s₁ : RfsState}
    (hnew : rfsStep s₀ (.newFile fname) = .ok s₁) (ops : List RfsOp)
    (hall : AllSteps rfsStep (fun s op => ∀ s', rfsStep s op = .ok s' → UsedAlone fne s') ops s₁)
    (hrun : run rfsStep ops s₁ = .ok s) {i : Nat} {h : Handle} (hi : s.hand i = some h)
    (hfne : h.name = fne) (buf : Nat → UInt8) {len : Nat} (hlen : len ≤ (s.acked fne).length) :
    rfsReadFile (s.obj i (some buf) fsysAlcblksz len) = some ((s.acked fne).take len) := by
  have hok₀ := run_inv FsOk rfsStep_fsOk ops₀ _ s₀ (init_fsOk hfmt) hrun₀
  have hok₁ := rfsStep_fsOk _ _ _ hok₀ hnew
  obtain ⟨_, g, halone₁, hw₁⟩ := written_of_new hok₀ hlive hname hmade hnew
  obtain ⟨⟨⟨bmp, dir, hinv⟩, _⟩, _, b, g', hw⟩ := run_inv_of_allSteps
    (fun s => FsOk s ∧ UsedAlone fne s ∧ ∃ b g, Written fne b g s) _
    (fun s op s' hs hop hstep => rfsStep_written s op s' hs hop hstep) ops s₁ s
    ⟨hok₁, halone₁, _, g, hw₁⟩ hall hrun
  obtain ⟨_, f, hf, hfh⟩ := hinv.fileAt_hd hw.file
  rw [hw.stored] at hf
  cases hf
  have hobj : s.obj i (some buf) fsysAlcblksz len
      = ⟨some g', none, some buf, fsysAlcblksz, len⟩ := by
    unfold RfsState.obj
    rw [hi, Option.map_some, hw.hand i h hi hfne]
  rw [hobj]
  show (if fsysAlcblksz ≠ fsysAlcblksz then none else rfsReadfileblk g' len) = _
  rw [if_neg (by simp)]
  exact hw.holds.read hfh hw.room hlen

/-- A run without deletes whose handles are all handle 0 uses the file alone. -/
theorem usedAlone_of_one {s₁ : RfsState} (hok : FsOk s₁) (hlive : HandsLive s₁)
    (hfile : FileAt s₁.dev fne b) (hone : ∀ j, j ≠ 0 → s₁.hand j = none) (ops : List RfsOp)
    (hops : ∀ op ∈ ops, op.NoDel ∧ ∀ j fname, op = .openFile j fname → j = 0) :
    AllSteps rfsStep (fun s op => ∀ s', rfsStep s op = .ok s' → UsedAlone fne s') ops s₁ := by
  refine AllSteps.imp (fun s op h s' hstep => ?_) (allSteps_reach
    (fun s => FsOk s ∧ HandsLive s ∧ FileAt s.dev fne b ∧ ∀ j, j ≠ 0 → s.hand j = none)
    (fun op => op.NoDel ∧ ∀ j fname, op = .openFile j fname → j = 0) ?_ ops s₁
    ⟨hok, hlive, hfile, hone⟩ hops)
  · obtain ⟨_, hlive', hfile', hone'⟩ := h s' hstep
    refine ⟨⟨b, hfile'⟩, fun i j h h' hi hj _ _ => ?_, hlive'⟩
    have hzero : ∀ j h, s'.hand j = some h → j = 0 := by
      intro j h hj
      by_contra hne
      rw [hone' j hne] at hj
      cases hj
    rw [hzero i h hi, hzero j h' hj]
  · rintro s op s' ⟨hok, hlive, hfile, hone⟩ ⟨hdel, hopen⟩ hstep
    have hok' := hok
    obtain ⟨⟨bmp, dir, hinv⟩, hh⟩ := hok'
    have hm := rfsStep_move hinv hh hstep
    refine ⟨hm.fsOk hinv hh, hm.handsLive hinv hh hdel hlive, hm.fileAt hinv hh hdel hfile,
      fun j hj => ?_⟩
    refine (rfsStep_hand_none s op s' ⟨hok, hone j hj⟩ (fun fname hop => ?_) hstep).2
    exact hj (hopen j fname hop)

end Step

/-- The file is written, closed and opened again. -/
def reopened : List RfsOp :=
  [.openFile 0 (some pathA), .writeFile 0 (some fun o => if o = 0 then 5 else 6) fsysAlcblksz 2,
    .closeFile 0, .openFile 0 (some pathA)]

theorem read_after_writes_reopened : ∃ (s : RfsState) (h : Handle), s.hand 0 = some h ∧ s.acked [97] = [5, 6] ∧
    rfsReadFile (s.obj 0 (some fun _ => 0) fsysAlcblksz 1) = some [5] := by
  obtain ⟨d, hfmt, hq⟩ := exists_fmat (q := fun d => okAnd ((rfsNewFile pathA).run d) fun r =>
    r.1 && okAnd (rfsStep (RfsState.init d) (.newFile pathA)) fun s₁ =>
      entAt s₁.dev 0 3 [97] && okAnd (run rfsStep reopened s₁) fun s =>
        ((s.hand 0).any fun h => h.name = [97]) && s.acked [97] = [5, 6]) (by decide +kernel)
  obtain ⟨⟨ok, d₁⟩, hmade, hq⟩ := exists_of_okAnd hq
  rw [Bool.and_eq_true] at hq
  obtain ⟨rfl, hq⟩ := hq
  obtain ⟨s₁, hnew, hq⟩ := exists_of_okAnd hq
  rw [Bool.and_eq_true] at hq
  obtain ⟨hent, hq⟩ := hq
  obtain ⟨s, hrun, hq⟩ := exists_of_okAnd hq
  simp only [Bool.and_eq_true, Option.any_eq_true, decide_eq_true_iff] at hq
  obtain ⟨⟨h, hi, hname⟩, hacked⟩ := hq
  have hhand := newFile_hand hnew
  have hlive₁ : HandsLive s₁ := by
    intro i h hi
    rw [hhand] at hi
    cases hi
  have hread := read_after_writes _ hfmt [] rfl (fun i h hi => by cases hi)
    (show rfsRetFname pathA = some [97] by decide) hmade hnew reopened
    (usedAlone_of_one (rfsStep_fsOk _ _ _ (init_fsOk hfmt) hnew) hlive₁ (fileAt_of_entAt hent)
      (fun j _ => by rw [hhand]; rfl) reopened fun op hop => ?_) hrun hi hname (fun _ => 0)
    (show 1 ≤ _ by rw [hacked]; decide)
  · rw [hacked] at hread
    exact ⟨s, h, hi, hacked, hread⟩
  · unfold reopened at hop
    simp only [List.mem_cons, List.not_mem_nil, or_false] at hop
    refine ⟨?_, ?_⟩
    · rintro fname flg rfl
      rcases hop with h | h | h | h <;> cases h
    · rintro j fname rfl
      rcases hop with h | h | h | h <;> cases h
      · rfl
      · rfl

end Cosmos.Drivers
