import Cosmos.Drivers.DrvrfsInv
import Cosmos.Lib.Run

/-!
# Every order of file calls

After `rfs_fmat`, files are made and deleted, and opened, written, read and
closed through any number of handles.  A handle is the private copy of the file's
block that `on_finode` points to; which name it was opened under, and the bytes a
file has been given by the writes that returned `DFCOKSTUS`, are kept beside the
device.  `Move` says what a call can do, and everything about whole runs is
derived from it.
-/

namespace Cosmos.Drivers

open Cosmos.Lib.Run Cosmos.Lib.StM

/-- An open file: the name it was opened under and its copy. -/
structure Handle where
  name : Name
  finode : Filblk

/-- The block a handle writes to. -/
abbrev Handle.blk (h : Handle) : Nat := h.finode.hd.fmdSfblk

/-- The device, the open handles, and what the accepted writes have put into each
file since it was made. -/
structure RfsState where
  dev : Dev
  hand : Nat → Option Handle
  acked : Name → List UInt8

/-- Right after `rfs_fmat`. -/
def RfsState.init (d : Dev) : RfsState := ⟨d, fun _ => none, fun _ => []⟩

/-- The calls; a handle is named by a number of the caller's choice. -/
inductive RfsOp where
  | newFile (fname : Nat → UInt8)
  | openFile (i : Nat) (fname : Option (Nat → UInt8))
  | writeFile (i : Nat) (buf : Option (Nat → UInt8)) (bufsz len : Nat)
  | readFile (i : Nat) (buf : Option (Nat → UInt8)) (bufsz len : Nat)
  | closeFile (i : Nat)
  | delFile (fname : Nat → UInt8) (flg : Nat)

/-- The object node of a handle for one call. -/
def RfsState.obj (s : RfsState) (i : Nat) (buf : Option (Nat → UInt8)) (bufsz len : Nat) :
    Objnode where
  onFinode := (s.hand i).map Handle.finode
  onFname := none
  onBuf := buf
  onBufsz := bufsz
  onLen := len

/-- A new file. -/
def RfsState.made (s : RfsState) (fname : Nat → UInt8) : Bool → RfsState
  | false => s
  | true => { s with acked := Function.update s.acked ((rfsRetFname fname).getD []) [] }

/-- Handle `i` as `rfs_open_file` left its node. -/
def RfsState.opened (s : RfsState) (i : Nat) (fname : Option (Nat → UInt8)) (obp : Objnode) :
    RfsState :=
  { s with
    hand := Function.update s.hand i
      (obp.onFinode.map fun f => ⟨(fname.bind rfsRetFname).getD [], f⟩) }

/-- Handle `i` as `rfs_write_file` left its node, and the bytes if it accepted. -/
def RfsState.wrote (s : RfsState) (i : Nat) (obp : Objnode) (ok : Bool) : RfsState :=
  match s.hand i, obp.onFinode, obp.onBuf with
  | some h, some f, some buf =>
      { s with
        hand := Function.update s.hand i (some ⟨h.name, f⟩)
        acked := if ok then Function.update s.acked h.name
          (s.acked h.name ++ (List.range obp.onLen).map buf) else s.acked }
  | _, _, _ => s

/-- One call. -/
def rfsStep (s : RfsState) : RfsOp → Except String RfsState
  | .newFile fname =>
      ((rfsNewFile fname).run s.dev).map fun r => { s.made fname r.1 with dev := r.2 }
  | .openFile i fname =>
      match s.hand i with
      | some _ => .error "handle in use"
      | none => ((rfsOpenFile ⟨none, fname, none, 0, 0⟩).run s.dev).map fun r =>
          { s.opened i fname r.1.1 with dev := r.2 }
  | .writeFile i buf bufsz len =>
      ((rfsWriteFile (s.obj i buf bufsz len)).run s.dev).map fun r =>
        { s.wrote i r.1.1 r.1.2 with dev := r.2 }
  | .readFile _ _ _ _ => .ok s
  | .closeFile i =>
      ((rfsCloseFile (s.obj i none 0 0)).run s.dev).map fun r =>
        { s with dev := r.2, hand := Function.update s.hand i none }
  | .delFile fname flg =>
      ((rfsDelFile fname flg).run s.dev).map fun r => { s with dev := r.2 }

/-! ## What a call does -/

section Moves

variable {bmp : Nat → UInt8} {dir : Dirblk}

/-- **What a call can do** to a file system with bitmap `bmp` and root directory
`dir`. -/
inductive Move (bmp : Nat → UInt8) (dir : Dirblk) (s : RfsState) : RfsOp → RfsState → Prop
  /-- nothing but calls of `new_buf` -/
  | same {op : RfsOp} {d' : Dev} (hd : s.dev.Same d') : Move bmp dir s op { s with dev := d' }
  /-- a block is marked for a file that is not made -/
  | leaked {fname : Nat → UInt8} {n : Nat} {d' : Dev} (hn : freeBlknr bmp = some n)
      (hd : (s.dev.put 1 (.bmp (Function.update bmp n 1))).Same d') :
      Move bmp dir s (.newFile fname) { s with dev := d' }
  | made {fname : Nat → UInt8} {fne : Name} {n : Nat} {d' : Dev}
      (hname : rfsRetFname fname = some fne) (hn : freeBlknr bmp = some n)
      (hinv : RfsInv (s.dev.withFile bmp dir fne n) (Function.update bmp n 1) (dir.addEnt fne n))
      (hnew : ∀ i, dir.IsFile i → (dir.ent i).rdrName ≠ fne)
      (hd : (s.dev.withFile bmp dir fne n).Same d')
      (hrun : (rfsNewFile fname).run s.dev = .ok (true, d')) :
      Move bmp dir s (.newFile fname)
        { s with dev := d', acked := Function.update s.acked fne [] }
  | opened {i : Nat} {fname : Nat → UInt8} {fne : Name} {k : Nat} {f : Filblk} {d' : Dev}
      (hfree : s.hand i = none) (hk : findEnt dir fne = some k)
      (hblk : s.dev.disk (dir.ent k).rdrBlknr = .fil f)
      (hf : FileHd f.hd (dir.ent k).rdrBlknr) (hd : s.dev.Same d') :
      Move bmp dir s (.openFile i (some fname))
        { s with dev := d', hand := Function.update s.hand i (some ⟨fne, f⟩) }
  | wrote {i : Nat} {h : Handle} {buf : Nat → UInt8} {len : Nat} {d' : Dev}
      (hh : s.hand i = some h)
      (hlen : h.finode.hd.fmdCurfinwbkoff + len < fsysAlcblksz)
      (hd : (s.dev.put h.blk (.fil (h.finode.append buf len))).Same d') :
      Move bmp dir s (.writeFile i (some buf) fsysAlcblksz len)
        { s with
          dev := d'
          hand := Function.update s.hand i (some ⟨h.name, h.finode.append buf len⟩)
          acked := Function.update s.acked h.name
            (s.acked h.name ++ (List.range len).map buf) }
  | closed {i : Nat} {h : Handle} {d' : Dev} (hh : s.hand i = some h)
      (hd : (s.dev.put h.blk (.fil h.finode)).Same d') :
      Move bmp dir s (.closeFile i)
        { s with dev := d', hand := Function.update s.hand i none }
  | deleted {fname : Nat → UInt8} {flg : Nat} {fne : Name} {k : Nat} {d' : Dev}
      (hk : findEnt dir fne = some k) (hd : (s.dev.withoutFile bmp dir k).Same d') :
      Move bmp dir s (.delFile fname flg) { s with dev := d' }

/-- The copies of the handles are copies of file blocks. -/
def HandsOk (s : RfsState) : Prop := ∀ i h, s.hand i = some h → FileHd h.finode.hd h.blk

theorem FileHd.own {hd : Fimgrhd} {b : Nat} (hf : FileHd hd b) : FileHd hd hd.fmdSfblk := by
  rw [hf.sfblk]
  exact hf

/-- A call that returned. -/
theorem map_run_ok {α β : Type} {x : RfsM α} {d : Dev} {g : α × Dev → β} {b : β}
    (h : (x.run d).map g = .ok b) : ∃ a d', x.run d = .ok (a, d') ∧ g (a, d') = b := by
  cases hx : x.run d with
  | error e =>
      rw [hx] at h
      cases h
  | ok r =>
      rw [hx] at h
      exact ⟨r.1, r.2, rfl, Except.ok.inj h⟩

theorem rfsOpenFile_spec {d : Dev} (hinv : RfsInv d bmp dir) (fname : Option (Nat → UInt8)) :
    Ensures d.Same (rfsOpenFile ⟨none, fname, none, 0, 0⟩) fun r d' => d.Same d' ∧
      (r.1.onFinode = none ∨ ∃ fn fne k f, fname = some fn ∧ rfsRetFname fn = some fne ∧
        r.1.onFinode = some f ∧ findEnt dir fne = some k ∧
        d.disk (dir.ent k).rdrBlknr = .fil f ∧ FileHd f.hd (dir.ent k).rdrBlknr) := by
  unfold rfsOpenFile
  cases fname with
  | none => exact Ensures.pure fun s hs => ⟨hs, Or.inl rfl⟩
  | some fn =>
      refine Ensures.bind (rfsOpenfileblk_spec hinv fn) fun r => ?_
      cases r with
      | none => exact Ensures.pure fun s hs => ⟨hs.1, Or.inl rfl⟩
      | some f =>
          refine Ensures.pure fun s hs => ⟨hs.1, Or.inr ?_⟩
          obtain ⟨fne, k, hname, hk, hblk, hf⟩ := hs.2 f rfl
          exact ⟨fn, fne, k, f, rfl, hname, rfl, hk, hblk, hf⟩

theorem rfsWriteFile_spec {d : Dev} (hm : d.rdeMsize = fsmmBlk) {f : Filblk} {b : Nat}
    (hf : FileHd f.hd b) (fname : Option (Nat → UInt8)) (buf : Option (Nat → UInt8))
    (bufsz len : Nat) :
    Ensures d.Same (rfsWriteFile ⟨some f, fname, buf, bufsz, len⟩) fun r d' =>
      (r = (⟨some f, fname, buf, bufsz, len⟩, false) ∧ d.Same d') ∨
      ∃ bf, buf = some bf ∧ bufsz = fsysAlcblksz ∧
        f.hd.fmdCurfinwbkoff + len < fsysAlcblksz ∧
        r = (⟨some (f.append bf len), fname, buf, bufsz, len⟩, true) ∧
        (d.put b (.fil (f.append bf len))).Same d' := by
  unfold rfsWriteFile
  cases buf with
  | none => exact Ensures.pure fun s hs => Or.inl ⟨rfl, hs⟩
  | some bf =>
      refine Ensures.ite (fun _ => Ensures.pure fun s hs => Or.inl ⟨rfl, hs⟩) fun hsz => ?_
      refine Ensures.bind (rfsWritefileblk_spec hm hf bf len) fun r => Ensures.pure fun s hs => ?_
      rcases hs with ⟨rfl, hs⟩ | ⟨rfl, hlen, hs⟩
      · exact Or.inl ⟨rfl, hs⟩
      · exact Or.inr ⟨bf, rfl, not_not.mp hsz, hlen, rfl, hs⟩

/-- **Each call is a move.** -/
theorem rfsStep_move {s s' : RfsState} {op : RfsOp} (hinv : RfsInv s.dev bmp dir)
    (hh : HandsOk s) (hstep : rfsStep s op = .ok s') : Move bmp dir s op s' := by
  have hrefl := Dev.Same.refl s.dev
  cases op with
  | newFile fname =>
      obtain ⟨r, d', hrun, rfl⟩ := map_run_ok hstep
      rcases rfsNewFile_spec hinv fname s.dev r d' hrefl hrun with
        ⟨rfl, hd | ⟨n, hn, hd⟩⟩ | ⟨rfl, fne, n, hname, hn, hinv', hnew, hd⟩
      · exact .same hd
      · exact .leaked hn hd
      · simp only [RfsState.made, hname, Option.getD_some]
        exact .made hname hn hinv' hnew hd hrun
  | openFile i fname =>
      cases hi : s.hand i with
      | some h =>
          simp only [rfsStep, hi] at hstep
          cases hstep
      | none =>
          simp only [rfsStep, hi] at hstep
          obtain ⟨r, d', hrun, rfl⟩ := map_run_ok hstep
          obtain ⟨hd, hnone | ⟨fn, fne, k, f, rfl, hname, hf, hk, hblk, hfh⟩⟩ :=
            rfsOpenFile_spec hinv fname s.dev r d' hrefl hrun
          · simp only [RfsState.opened, hnone, Option.map_none]
            rw [← hi, Function.update_eq_self]
            exact .same hd
          · simp only [RfsState.opened, hf, Option.map_some, Option.bind_some, hname,
              Option.getD_some]
            exact .opened hi hk hblk hfh hd
  | writeFile i buf bufsz len =>
      obtain ⟨r, d', hrun, rfl⟩ := map_run_ok hstep
      cases hi : s.hand i with
      | none =>
          unfold RfsState.obj at hrun
          rw [hi] at hrun
          cases hrun
          simp only [RfsState.wrote, hi]
          exact .same hrefl
      | some h =>
          unfold RfsState.obj at hrun
          rw [hi] at hrun
          rcases rfsWriteFile_spec hinv.msize (hh i h hi) none buf bufsz len s.dev r d' hrefl
            hrun with ⟨rfl, hd⟩ | ⟨bf, rfl, rfl, hlen, rfl, hd⟩
          · have hid : s.wrote i ⟨some h.finode, none, buf, bufsz, len⟩ false = s := by
              unfold RfsState.wrote
              rw [hi]
              cases buf with
              | none => rfl
              | some bf =>
                  show { s with hand := Function.update s.hand i (some h) } = s
                  rw [← hi, Function.update_eq_self]
            simp only [hid]
            exact .same hd
          · simp only [RfsState.wrote, hi, if_true]
            exact .wrote hi hlen hd
  | readFile i buf bufsz len =>
      cases hstep
      exact .same hrefl
  | closeFile i =>
      obtain ⟨r, d', hrun, rfl⟩ := map_run_ok hstep
      cases hi : s.hand i with
      | none =>
          unfold RfsState.obj at hrun
          rw [hi] at hrun
          cases hrun
          rw [← hi, Function.update_eq_self]
          exact .same hrefl
      | some h =>
          unfold RfsState.obj at hrun
          rw [hi] at hrun
          exact .closed hi (rfsClosefileblk_spec hinv.msize (hh i h hi) s.dev r d' hrefl hrun)
  | delFile fname flg =>
      obtain ⟨r, d', hrun, rfl⟩ := map_run_ok hstep
      rcases rfsDelFile_spec hinv fname flg s.dev r d' hrefl hrun with
        ⟨_, hd⟩ | ⟨_, fne, k, _, hk, hd⟩
      · exact .same hd
      · exact .deleted hk hd

/-! ## Files by name -/

/-- There is a file of that name, in block `b`. -/
def FileAt (d : Dev) (fne : Name) (b : Nat) : Prop :=
  ∃ sb dir k, d.disk 0 = .sup sb ∧ d.disk sb.rsbRootdir.rdrBlknr = .dir dir ∧
    dir.IsFile k ∧ (dir.ent k).rdrName = fne ∧ (dir.ent k).rdrBlknr = b

variable {d : Dev} {fne : Name} {b : Nat}

theorem RfsInv.fileAt_iff (h : RfsInv d bmp dir) :
    FileAt d fne b ↔ ∃ k, dir.IsFile k ∧ (dir.ent k).rdrName = fne ∧ (dir.ent k).rdrBlknr = b := by
  constructor
  · rintro ⟨sb, dir', k, hsb, hdir, hk⟩
    rw [h.sup] at hsb
    cases hsb
    rw [show sublkFmat.rsbRootdir.rdrBlknr = 2 from rfl, h.dirblk] at hdir
    cases hdir
    exact ⟨k, hk⟩
  · rintro ⟨k, hk⟩
    exact ⟨sublkFmat, dir, k, h.sup, h.dirblk, hk⟩

theorem RfsInv.fileAt_hd (h : RfsInv d bmp dir) (hf : FileAt d fne b) :
    bmp b ≠ 0 ∧ ∃ f, d.disk b = .fil f ∧ FileHd f.hd b := by
  obtain ⟨k, hk, _, rfl⟩ := h.fileAt_iff.mp hf
  exact h.file k hk

/-- A block belongs to one file. -/
theorem RfsInv.fileAt_name (h : RfsInv d bmp dir) {fne' : Name} (hf : FileAt d fne b)
    (hf' : FileAt d fne' b) : fne = fne' := by
  obtain ⟨k, hk, rfl, hb⟩ := h.fileAt_iff.mp hf
  obtain ⟨k', hk', rfl, hb'⟩ := h.fileAt_iff.mp hf'
  rw [h.blknrs k k' hk hk' (hb.trans hb'.symm)]

/-- A file has one block. -/
theorem RfsInv.fileAt_blk (h : RfsInv d bmp dir) {b' : Nat} (hf : FileAt d fne b)
    (hf' : FileAt d fne b') : b = b' := by
  obtain ⟨k, hk, hn, rfl⟩ := h.fileAt_iff.mp hf
  obtain ⟨k', hk', hn', rfl⟩ := h.fileAt_iff.mp hf'
  rw [h.names k k' hk hk' (hn.trans hn'.symm)]

/-- The files after one was made. -/
theorem RfsInv.fileAt_made (h : RfsInv d bmp dir) {d' : Dev} {bmp' : Nat → UInt8} {n : Nat}
    {fne' : Name} (h' : RfsInv d' bmp' (dir.addEnt fne' n)) :
    FileAt d' fne b ↔ FileAt d fne b ∨ (fne = fne' ∧ b = n) := by
  obtain ⟨j, _, hj, hfree⟩ := h.root.room
  have hidx : entIdx dir.hd.fmdCurfinwbkoff = j := by
    unfold entIdx
    rw [hj, Nat.add_sub_cancel_left]
    exact Nat.mul_div_cancel_left j (by decide)
  have hnew : (dir.addEnt fne' n).ent j = ⟨.fil, n, fne'⟩ := by
    show Function.update dir.ent _ _ j = _
    rw [hidx, Function.update_self]
  have hold : ∀ k, k ≠ j → (dir.addEnt fne' n).ent k = dir.ent k := by
    intro k hk
    show Function.update dir.ent _ _ k = _
    rw [hidx, Function.update_of_ne hk]
  rw [h.fileAt_iff, h'.fileAt_iff]
  constructor
  · rintro ⟨k, hk, hn, hb⟩
    by_cases hkj : k = j
    · subst hkj
      rw [hnew] at hn hb
      exact Or.inr ⟨hn.symm, hb.symm⟩
    · unfold Dirblk.IsFile at hk
      rw [hold k hkj] at hk hn hb
      exact Or.inl ⟨k, hk, hn, hb⟩
  · rintro (⟨k, hk, hn, hb⟩ | ⟨rfl, rfl⟩)
    · have hkj : k ≠ j := by
        rintro rfl
        exact hfree k (Nat.le_refl k) hk
      refine ⟨k, ?_, ?_, ?_⟩
      · unfold Dirblk.IsFile
        rw [hold k hkj]
        exact hk
      · rw [hold k hkj]
        exact hn
      · rw [hold k hkj]
        exact hb
    · refine ⟨j, ?_, ?_, ?_⟩
      · unfold Dirblk.IsFile
        rw [hnew]
      · rw [hnew]
      · rw [hnew]

/-- The files after one was deleted. -/
theorem RfsInv.fileAt_deleted (h : RfsInv d bmp dir) {d' : Dev} {bmp' : Nat → UInt8} {j : Nat}
    (h' : RfsInv d' bmp' (dir.delEnt j)) (hf : FileAt d' fne b) : FileAt d fne b := by
  obtain ⟨k, hk, hn, hb⟩ := h'.fileAt_iff.mp hf
  have hkj : k ≠ j := by
    rintro rfl
    have hdel : (dir.delEnt k).ent k = { rfsdirInit with rdrType := .del } :=
      Function.update_self _ _ _
    unfold Dirblk.IsFile at hk
    rw [hdel] at hk
    cases hk
  have hold : (dir.delEnt j).ent k = dir.ent k := Function.update_of_ne hkj _ _
  unfold Dirblk.IsFile at hk
  rw [hold] at hk hn hb
  exact h.fileAt_iff.mpr ⟨k, hk, hn, hb⟩

/-- The block of a search's result. -/
theorem RfsInv.fileAt_found (h : RfsInv d bmp dir) {k : Nat} (hk : findEnt dir fne = some k) :
    FileAt d fne (dir.ent k).rdrBlknr := by
  obtain ⟨hfile, hname, _⟩ := findEnt_some h.root hk
  exact h.fileAt_iff.mpr ⟨k, hfile, hname, rfl⟩

/-! ## The invariant over runs -/

/-- A file system whose handles are copies of file blocks. -/
def FsOk (s : RfsState) : Prop := (∃ bmp dir, RfsInv s.dev bmp dir) ∧ HandsOk s

theorem HandsOk.update {s : RfsState} (hh : HandsOk s) (d' : Dev) (i : Nat) {o : Option Handle}
    (a : Name → List UInt8) (ho : ∀ h, o = some h → FileHd h.finode.hd h.blk) :
    HandsOk ⟨d', Function.update s.hand i o, a⟩ := by
  intro j h hj
  by_cases hji : j = i
  · subst hji
    rw [show (⟨d', Function.update s.hand j o, a⟩ : RfsState).hand j = o from
      Function.update_self _ _ _] at hj
    exact ho h hj
  · rw [show (⟨d', Function.update s.hand i o, a⟩ : RfsState).hand j = s.hand j from
      Function.update_of_ne hji _ _] at hj
    exact hh j h hj

/-- A move keeps the file system. -/
theorem Move.fsOk {s s' : RfsState} {op : RfsOp} (hm : Move bmp dir s op s')
    (hinv : RfsInv s.dev bmp dir) (hh : HandsOk s) : FsOk s' := by
  cases hm with
  | same hd => exact ⟨⟨bmp, dir, hinv.same hd⟩, hh⟩
  | leaked hn hd => exact ⟨⟨_, dir, (hinv.leak hn).same hd⟩, hh⟩
  | made hname hn hinv' hnew hd _ => exact ⟨⟨_, _, hinv'.same hd⟩, hh⟩
  | opened hfree hk hblk hf hd =>
      refine ⟨⟨bmp, dir, hinv.same hd⟩, hh.update _ _ _ fun h ho => ?_⟩
      cases ho
      exact hf.own
  | wrote hi hlen hd =>
      have hf := (hh _ _ hi).append
      refine ⟨⟨bmp, dir, (hinv.store (hf _ _)).same hd⟩, hh.update _ _ _ fun h ho => ?_⟩
      cases ho
      exact hf _ _
  | closed hi hd =>
      refine ⟨⟨bmp, dir, (hinv.store (hh _ _ hi)).same hd⟩, hh.update _ _ _ fun h ho => ?_⟩
      cases ho
  | deleted hk hd =>
      exact ⟨⟨_, _, (hinv.delFile (findEnt_some hinv.root hk).1).same hd⟩, hh⟩

/-- **Each call keeps the file system.** -/
theorem rfsStep_fsOk (s : RfsState) (op : RfsOp) (s' : RfsState) (h : FsOk s)
    (hstep : rfsStep s op = .ok s') : FsOk s' := by
  obtain ⟨⟨bmp, dir, hinv⟩, hh⟩ := h
  exact (rfsStep_move hinv hh hstep).fsOk hinv hh

theorem init_fsOk {alc : Nat → Bool} {d : Dev} (hfmt : rfsFmat.run (devInit alc) = .ok ((), d)) :
    FsOk (RfsState.init d) := by
  refine ⟨⟨_, _, rfsFmat_spec rfl _ _ _ (Dev.Same.refl _) hfmt⟩, fun i h hi => ?_⟩
  cases hi

/-- Every file block of the device. -/
def Dev.AllFil (p : Filblk → Prop) (d : Dev) : Prop := ∀ b f, d.disk b = .fil f → p f

/-- What a new file has, and what writes within the block keep. -/
structure FilKept (p : Filblk → Prop) : Prop where
  new : ∀ n, p ⟨newHead .fil n, fun _ => 0⟩
  append : ∀ f buf len, p f → f.hd.fmdCurfinwbkoff + len < fsysAlcblksz → p (f.append buf len)

section AllFil

variable {p : Filblk → Prop}

theorem Dev.AllFil.same {d' : Dev} (h : d.AllFil p) (hs : d.Same d') : d'.AllFil p :=
  fun b f hf => h b f (hs.1 ▸ hf)

theorem Dev.AllFil.put (h : d.AllFil p) (n : Nat) {blk : Blk} (hblk : ∀ f, blk = .fil f → p f) :
    (d.put n blk).AllFil p := by
  intro b f hf
  by_cases hb : b = n
  · subst hb
    rw [put_disk_self] at hf
    exact hblk f hf
  · rw [put_disk_ne _ _ hb] at hf
    exact h b f hf

/-- A block that is no file's. -/
theorem Dev.AllFil.put_other (h : d.AllFil p) (n : Nat) {blk : Blk} (hblk : ∀ f, blk ≠ .fil f) :
    (d.put n blk).AllFil p :=
  h.put n fun f hf => absurd hf (hblk f)

theorem Dev.AllFil.withFile (h : d.AllFil p) (hp : FilKept p) (fne : Name) (n : Nat) :
    (d.withFile bmp dir fne n).AllFil p := by
  refine ((h.put_other 1 (by simp)).put n fun f hf => ?_).put_other 2 (by simp)
  cases hf
  exact hp.new n

theorem fmat_allFil (alc : Nat → Bool) : (devInit alc).fmat.AllFil p := by
  have hraw : (devInit alc).AllFil p := fun b f hf => by cases hf
  exact ((((hraw.put_other 0 (by simp)).put_other 1 (by simp)).put_other 1 (by simp)).put_other 2
    (by simp)).put_other 0 (by simp)

/-- Files and copies. -/
def AllFilOk (p : Filblk → Prop) (s : RfsState) : Prop :=
  s.dev.AllFil p ∧ ∀ i h, s.hand i = some h → p h.finode

theorem Move.allFil {s s' : RfsState} {op : RfsOp} (hm : Move bmp dir s op s') (hp : FilKept p)
    (h : AllFilOk p s) : AllFilOk p s' := by
  obtain ⟨hdev, hhand⟩ := h
  have hupd : ∀ (d' : Dev) (i : Nat) (o : Option Handle) (a : Name → List UInt8), d'.AllFil p →
      (∀ g, o = some g → p g.finode) → AllFilOk p ⟨d', Function.update s.hand i o, a⟩ := by
    intro d' i o a hd' ho
    refine ⟨hd', fun j g hj => ?_⟩
    change Function.update s.hand i o j = some g at hj
    by_cases hji : j = i
    · subst hji
      rw [Function.update_self] at hj
      exact ho g hj
    · rw [Function.update_of_ne hji] at hj
      exact hhand j g hj
  cases hm with
  | same hd => exact ⟨hdev.same hd, hhand⟩
  | leaked hn hd => exact ⟨(hdev.put_other 1 (by simp)).same hd, hhand⟩
  | made hname hn hinv' hnew hd _ => exact ⟨(hdev.withFile hp _ _).same hd, hhand⟩
  | opened hfree hk hblk hf hd =>
      apply hupd _ _ _ _ (hdev.same hd)
      intro g ho
      cases ho
      exact hdev _ _ hblk
  | wrote hh hlen hd =>
      have happ := fun buf => hp.append _ buf _ (hhand _ _ hh) hlen
      refine hupd _ _ _ _ ((hdev.put _ fun g hg => ?_).same hd) fun g ho => ?_
      · cases hg
        exact happ _
      · cases ho
        exact happ _
  | closed hh hd =>
      refine hupd _ _ _ _ ((hdev.put _ fun g hg => ?_).same hd) fun g ho => ?_
      · cases hg
        exact hhand _ _ hh
      · cases ho
  | deleted hk hd =>
      exact ⟨((hdev.put_other 1 (by simp)).put_other 2 (by simp)).same hd, hhand⟩

/-- **What writes within the block keep** holds of all files and copies after any calls. -/
theorem run_allFil (hp : FilKept p) (alc : Nat → Bool) {d : Dev}
    (hfmt : rfsFmat.run (devInit alc) = .ok ((), d)) (ops : List RfsOp) {s : RfsState}
    (hrun : run rfsStep ops (RfsState.init d) = .ok s) : FsOk s ∧ AllFilOk p s := by
  have hinit : AllFilOk p (RfsState.init d) := by
    refine ⟨(fmat_allFil alc).same (rfsFmat_blocks rfl _ _ _ (Dev.Same.refl _) hfmt),
      fun i h hi => ?_⟩
    cases hi
  exact run_inv (fun s => FsOk s ∧ AllFilOk p s) (fun s op s' h hstep => by
    obtain ⟨⟨⟨bmp, dir, hinv⟩, hh⟩, hw⟩ := h
    have hmove := rfsStep_move hinv hh hstep
    exact ⟨hmove.fsOk hinv hh, hmove.allFil hp hw⟩) ops _ s ⟨init_fsOk hfmt, hinit⟩ hrun

end AllFil

/-- The files write inside their blocks. -/
def Dev.Within (d : Dev) : Prop :=
  ∀ b f, d.disk b = .fil f → f.hd.fmdCurfinwbkoff < fsysAlcblksz

theorem filKept_within : FilKept fun f => f.hd.fmdCurfinwbkoff < fsysAlcblksz where
  new n := by
    show (0x200 : Nat) < 4096
    decide
  append f buf len _ hlen := hlen

theorem Dev.Within.same {d' : Dev} (h : d.Within) (hs : d.Same d') : d'.Within :=
  Dev.AllFil.same h hs

theorem Dev.Within.put (h : d.Within) (n : Nat) {blk : Blk}
    (hblk : ∀ f, blk = .fil f → f.hd.fmdCurfinwbkoff < fsysAlcblksz) : (d.put n blk).Within :=
  Dev.AllFil.put h n hblk

/-- A block that is no file's. -/
theorem Dev.Within.put_other (h : d.Within) (n : Nat) {blk : Blk} (hblk : ∀ f, blk ≠ .fil f) :
    (d.put n blk).Within :=
  Dev.AllFil.put_other h n hblk

theorem Dev.Within.withFile (h : d.Within) (fne : Name) (n : Nat) :
    (d.withFile bmp dir fne n).Within :=
  Dev.AllFil.withFile h filKept_within fne n

/-- Files and copies write inside their blocks. -/
def WithinOk (s : RfsState) : Prop :=
  s.dev.Within ∧ ∀ i h, s.hand i = some h → h.finode.hd.fmdCurfinwbkoff < fsysAlcblksz

/-- The file system after any calls, with its files inside their blocks. -/
theorem run_within (alc : Nat → Bool) {d : Dev} (hfmt : rfsFmat.run (devInit alc) = .ok ((), d))
    (ops : List RfsOp) {s : RfsState} (hrun : run rfsStep ops (RfsState.init d) = .ok s) :
    (∃ bmp dir, RfsInv s.dev bmp dir) ∧ s.dev.Within := by
  obtain ⟨⟨hinv, -⟩, hall⟩ := run_allFil filKept_within alc hfmt ops hrun
  have hwithin : WithinOk s := hall
  exact ⟨hinv, hwithin.1⟩

/-- What the file system promises: files have names and blocks of their own, the
blocks are file blocks in use, and `rfs_new_blk` gives out no others' block. -/
structure FilesOk (d : Dev) (sb : Rfssublk) (bmp : Nat → UInt8) (dir : Dirblk) : Prop where
  sup : d.disk 0 = .sup sb
  bmpblk : d.disk sb.rsbBmpbks = .bmp bmp
  dirblk : d.disk sb.rsbRootdir.rdrBlknr = .dir dir
  names : ∀ i j, dir.IsFile i → dir.IsFile j → i ≠ j →
    (dir.ent i).rdrName ≠ (dir.ent j).rdrName
  blknrs : ∀ i j, dir.IsFile i → dir.IsFile j → i ≠ j →
    (dir.ent i).rdrBlknr ≠ (dir.ent j).rdrBlknr
  place : ∀ i, dir.IsFile i → 2 ≤ (dir.ent i).rdrBlknr ∧
    (dir.ent i).rdrBlknr < sb.rsbFsysallblk ∧
    (dir.ent i).rdrBlknr ≠ sb.rsbRootdir.rdrBlknr ∧ bmp (dir.ent i).rdrBlknr ≠ 0
  head : ∀ i, dir.IsFile i → ∃ f, d.disk (dir.ent i).rdrBlknr = .fil f ∧
    f.hd.fmdType = .fil ∧ f.hd.fmdSfblk = (dir.ent i).rdrBlknr
  /-- 0 is the failure of `rfs_new_blk` -/
  newBlk : ∀ r d', rfsNewBlk.run d = .ok (r, d') → (r = 0 ∧ d'.disk = d.disk) ∨
    (2 ≤ r ∧ r ≠ sb.rsbBmpbks ∧ r ≠ sb.rsbRootdir.rdrBlknr ∧ bmp r = 0)

theorem RfsInv.filesOk (h : RfsInv d bmp dir) : FilesOk d sublkFmat bmp dir where
  sup := h.sup
  bmpblk := h.bmpblk
  dirblk := h.dirblk
  names i j hi hj hij hn := hij (h.names i j hi hj hn)
  blknrs i j hi hj hij hb := hij (h.blknrs i j hi hj hb)
  place i hi := by
    obtain ⟨hgt, hlt⟩ := h.fileHd hi
    exact ⟨Nat.le_of_lt hgt, hlt, Nat.ne_of_gt hgt, (h.file i hi).1⟩
  head i hi := by
    obtain ⟨_, f, hf, hfh⟩ := h.file i hi
    exact ⟨f, hf, hfh.type, hfh.sfblk⟩
  newBlk r d' hrun := by
    rcases rfsNewBlk_spec h.msize h.sup rfl h.bmpblk d r d' (Dev.Same.refl d) hrun with
      ⟨h0, hd⟩ | ⟨hf, _⟩
    · exact Or.inl ⟨h0, hd.1⟩
    · obtain ⟨hge, _, hzero⟩ := freeBlknr_some hf
      refine Or.inr ⟨hge, ?_, ?_, hzero⟩
      · show r ≠ 1
        omega
      · rintro rfl
        exact h.rootUsed hzero

/-- **The file system invariant**, after every sequence of calls. -/
theorem rfs_filesOk (alc : Nat → Bool) {d : Dev} (hfmt : rfsFmat.run (devInit alc) = .ok ((), d))
    (ops : List RfsOp) {s : RfsState} (hrun : run rfsStep ops (RfsState.init d) = .ok s) :
    ∃ sb bmp dir, FilesOk s.dev sb bmp dir := by
  obtain ⟨⟨bmp, dir, hinv⟩, _⟩ := run_inv FsOk rfsStep_fsOk ops _ s (init_fsOk hfmt) hrun
  exact ⟨sublkFmat, bmp, dir, hinv.filesOk⟩

end Moves

/-! ## Runs on concrete paths -/

/-- The text of a path. -/
def cpath (l : List UInt8) : Nat → UInt8 := fun i => l.getD i 0

/-- The paths of the files `a` and `b`. -/
def pathA : Nat → UInt8 := cpath [slash, 97]

def pathB : Nat → UInt8 := cpath [slash, 98]

/-- A formatted device that passes the test. -/
theorem exists_fmat {q : Dev → Bool}
    (h : okAnd (rfsFmat.run (devInit fun _ => true)) (fun r => q r.2) = true) :
    ∃ d, rfsFmat.run (devInit fun _ => true) = .ok ((), d) ∧ q d = true := by
  obtain ⟨r, hr, hq⟩ := exists_of_okAnd h
  exact ⟨r.2, hr, hq⟩

/-- There is a file of `n` bytes in the block. -/
def sizeAt (d : Dev) (b n : Nat) : Bool :=
  match d.disk b with
  | .fil f => f.hd.fmdFilesz = n
  | _ => false

theorem exists_of_sizeAt {d : Dev} {b n : Nat} (h : sizeAt d b n = true) :
    ∃ f, d.disk b = .fil f ∧ f.hd.fmdFilesz = n := by
  unfold sizeAt at h
  split at h
  · rename_i f hf
    exact ⟨f, hf, of_decide_eq_true h⟩
  · cases h

/-- Entry `k` of the root directory is that file. -/
def entAt (d : Dev) (k b : Nat) (fne : Name) : Bool :=
  match d.disk 0 with
  | .sup sb =>
      match d.disk sb.rsbRootdir.rdrBlknr with
      | .dir dir => dir.ent k = ⟨.fil, b, fne⟩
      | _ => false
  | _ => false

theorem fileAt_of_entAt {d : Dev} {k b : Nat} {fne : Name} (h : entAt d k b fne = true) :
    FileAt d fne b := by
  unfold entAt at h
  split at h
  · rename_i sb hsb
    split at h
    · rename_i dir hdir
      have he := of_decide_eq_true h
      refine ⟨sb, dir, k, hsb, hdir, ?_, ?_, ?_⟩
      · unfold Dirblk.IsFile
        rw [he]
      · rw [he]
      · rw [he]
    · cases h
  · cases h

/-- Two files are made and opened, and written and closed one within the other. -/
def writeBoth : List RfsOp :=
  [.newFile pathA, .newFile pathB, .openFile 0 (some pathA), .openFile 1 (some pathB),
    .writeFile 1 (some fun _ => 5) fsysAlcblksz 1, .writeFile 0 (some fun _ => 6) fsysAlcblksz 2,
    .closeFile 1, .closeFile 0]

theorem rfs_filesOk_writeBoth : ∃ s : RfsState, FileAt s.dev [97] 3 ∧ FileAt s.dev [98] 4 ∧
    sizeAt s.dev 3 2 = true ∧ sizeAt s.dev 4 1 = true ∧
    ∃ sb bmp dir, FilesOk s.dev sb bmp dir := by
  obtain ⟨d, hfmt, hq⟩ := exists_fmat (q := fun d => okAnd (run rfsStep writeBoth
    (RfsState.init d)) fun s => entAt s.dev 0 3 [97] && entAt s.dev 1 4 [98] &&
      sizeAt s.dev 3 2 && sizeAt s.dev 4 1) (by decide +kernel)
  obtain ⟨s, hrun, hq⟩ := exists_of_okAnd hq
  simp only [Bool.and_eq_true] at hq
  obtain ⟨⟨⟨ha, hb⟩, hsa⟩, hsb⟩ := hq
  exact ⟨s, fileAt_of_entAt ha, fileAt_of_entAt hb, hsa, hsb, rfs_filesOk _ hfmt writeBoth hrun⟩

end Cosmos.Drivers
