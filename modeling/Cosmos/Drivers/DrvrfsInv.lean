import Cosmos.Drivers.Drvrfs
import Cosmos.Lib.StM

/-!
# The blocks of the RAM file system

`RfsInv` describes a formatted device: superblock, bitmap and root directory are
in blocks 0, 1 and 2, the bitmap marks what is in use, and each file of the
directory has a block of its own whose header names it.  Reading a structure and
writing it back changes nothing; making and deleting a file, and storing the
copy of an open file, keep the invariant.
-/

namespace Cosmos.Drivers

open Cosmos.Lib.Word64 Cosmos.Lib.StM

/-! ## The device after a call -/

/-- Same blocks; `new_buf` may have been called. -/
def Dev.Same (d d' : Dev) : Prop := d'.disk = d.disk ∧ d'.rdeMsize = d.rdeMsize

/-- The device with a block stored. -/
def Dev.put (d : Dev) (n : Nat) (b : Blk) : Dev :=
  { d with disk := Function.update d.disk n b }

@[simp] theorem put_disk_self (d : Dev) (n : Nat) (b : Blk) : (d.put n b).disk n = b :=
  Function.update_self _ _ _

theorem put_disk_ne (d : Dev) {n m : Nat} (b : Blk) (h : m ≠ n) :
    (d.put n b).disk m = d.disk m :=
  Function.update_of_ne h _ _

@[simp] theorem put_msize (d : Dev) (n : Nat) (b : Blk) : (d.put n b).rdeMsize = d.rdeMsize :=
  rfl

theorem Dev.Same.refl (d : Dev) : d.Same d := ⟨rfl, rfl⟩

/-- Storing what is there changes nothing. -/
theorem Dev.Same.put_self {d d' : Dev} {n : Nat} {b : Blk} (h : (d.put n b).Same d')
    (hb : d.disk n = b) : d.Same d' := by
  refine ⟨?_, h.2⟩
  rw [h.1]
  unfold Dev.put
  rw [← hb, Function.update_eq_self]

/-- The blocks of a device of `FSMM_BLK` bytes. -/
theorem retRfsdevblk_iff {d : Dev} (hm : d.rdeMsize = fsmmBlk) (n : Nat) :
    retRfsdevblk d n = true ↔ n < 1024 := by
  unfold retRfsdevblk fsysAlcblksz
  rw [hm, decide_eq_true_iff]
  unfold fsmmBlk
  omega

section Blocks

variable {d : Dev}

theorem newBuf_spec : Ensures d.Same newBuf fun _ d' => d.Same d' := by
  intro s a s' hs hrun
  cases hrun
  exact hs

theorem readRfsdevblk_spec (n : Nat) :
    Ensures d.Same (readRfsdevblk n) fun r d' => d.Same d' ∧ (r = none ∨ r = some (d.disk n)) := by
  intro s a s' hs hrun
  cases hrun
  refine ⟨hs, ?_⟩
  rw [hs.1]
  split
  · exact Or.inr rfl
  · exact Or.inl rfl

theorem writeRfsdevblk_spec (hm : d.rdeMsize = fsmmBlk) (b : Blk) (n : Nat) :
    Ensures d.Same (writeRfsdevblk b n) fun r d' =>
      (r = true ∧ n < 1024 ∧ (d.put n b).Same d') ∨ (r = false ∧ 1024 ≤ n ∧ d.Same d') := by
  unfold writeRfsdevblk
  refine Ensures.bind (Ensures.get (Q := fun s d' => s = d' ∧ d.Same d') fun s hs => ⟨rfl, hs⟩)
    fun s => Ensures.of_pre (c := d.Same s) (fun hs => ?_) fun s' hs' => by
      rw [hs'.1]
      exact hs'.2
  have hms : s.rdeMsize = fsmmBlk := hs.2.trans hm
  refine Ensures.ite (fun hin => ?_) fun hout => ?_
  · rw [retRfsdevblk_iff hms] at hin
    refine Ensures.bind (Ensures.set (Q := fun _ d' => (d.put n b).Same d') fun _ _ => ?_)
      fun _ => Ensures.pure fun s' hs' => Or.inl ⟨rfl, hin, hs'⟩
    refine ⟨?_, hs.2⟩
    show Function.update s.disk n b = Function.update d.disk n b
    rw [hs.1]
  · rw [retRfsdevblk_iff hms] at hout
    exact Ensures.pure fun s' hs' => Or.inr ⟨rfl, by omega, hs'.2⟩

/-- Storing a block of the device. -/
theorem writeRfsdevblk_ok {d : Dev} (hm : d.rdeMsize = fsmmBlk) {b : Nat} (hb : b < 1024)
    (blk : Blk) : (writeRfsdevblk blk b).run d = .ok (true, d.put b blk) := by
  have hin := (retRfsdevblk_iff hm b).mpr hb
  unfold writeRfsdevblk
  rw [run_get_bind, if_pos hin]
  rfl

/-! ## The superblock -/

variable {sb : Rfssublk} {bmp : Nat → UInt8}

theorem getSuperblk_spec (hs : d.disk 0 = .sup sb) :
    Ensures d.Same getSuperblk fun r d' => d.Same d' ∧ (r = none ∨ r = some sb) := by
  unfold getSuperblk
  refine Ensures.bind newBuf_spec fun ok => ?_
  refine Ensures.ite (fun _ => ?_) fun _ => Ensures.pure fun s h => ⟨h, Or.inl rfl⟩
  refine Ensures.bind (readRfsdevblk_spec 0) fun r => ?_
  refine Ensures.of_pre (c := r = none ∨ r = some (.sup sb)) (fun hr => ?_) fun s h => by
    rw [hs] at h
    exact h.2
  rcases hr with rfl | rfl
  · exact Ensures.pure fun s h => ⟨h.1, Or.inl rfl⟩
  · exact Ensures.pure fun s h => ⟨h.1, Or.inr rfl⟩

theorem delSuperblk_spec (hm : d.rdeMsize = fsmmBlk) (sb : Rfssublk) :
    Ensures d.Same (delSuperblk sb) fun _ d' => (d.put 0 (.sup sb)).Same d' := by
  unfold delSuperblk
  refine Ensures.bind (writeRfsdevblk_spec hm _ 0) fun r => ?_
  refine Ensures.ite (fun hr => ?_) fun _ => Ensures.throw
  refine Ensures.pure fun s h => ?_
  rcases h with ⟨_, _, h⟩ | ⟨hf, _⟩
  · exact h
  · rw [hr] at hf
    cases hf

/-- Storing the superblock that was read. -/
theorem delSuperblk_same (hm : d.rdeMsize = fsmmBlk) (hs : d.disk 0 = .sup sb) :
    Ensures d.Same (delSuperblk sb) fun _ d' => d.Same d' :=
  (delSuperblk_spec hm sb).weaken (fun _ h => h) fun _ _ h => h.put_self hs

theorem getRootdir_spec (hm : d.rdeMsize = fsmmBlk) (hs : d.disk 0 = .sup sb) :
    Ensures d.Same getRootdir fun r d' => d.Same d' ∧ (r = none ∨ r = some sb.rsbRootdir) := by
  unfold getRootdir
  refine Ensures.bind (getSuperblk_spec hs) fun r => ?_
  refine Ensures.of_pre (c := r = none ∨ r = some sb) (fun hr => ?_) fun s h => h.2
  rcases hr with rfl | rfl
  · exact Ensures.pure fun s h => ⟨h.1, Or.inl rfl⟩
  · refine Ensures.bind (newBuf_spec.weaken (fun _ h => h.1) fun _ _ h => h) fun ok => ?_
    refine Ensures.bind (delSuperblk_same hm hs) fun _ => Ensures.pure fun s h => ⟨h, ?_⟩
    cases ok
    · exact Or.inl rfl
    · exact Or.inr rfl

/-! ## The bitmap -/

theorem getBitmapblk_spec (hm : d.rdeMsize = fsmmBlk) (hs : d.disk 0 = .sup sb)
    (hb : d.disk sb.rsbBmpbks = .bmp bmp) :
    Ensures d.Same getBitmapblk fun r d' => d.Same d' ∧ (r = none ∨ r = some bmp) := by
  unfold getBitmapblk
  refine Ensures.bind (getSuperblk_spec hs) fun r => ?_
  refine Ensures.of_pre (c := r = none ∨ r = some sb) (fun hr => ?_) fun s h => h.2
  rcases hr with rfl | rfl
  · exact Ensures.pure fun s h => ⟨h.1, Or.inl rfl⟩
  · refine Ensures.bind (newBuf_spec.weaken (fun _ h => h.1) fun _ _ h => h) fun ok => ?_
    refine Ensures.ite (fun _ => ?_) fun _ => Ensures.pure fun s h => ⟨h, Or.inl rfl⟩
    refine Ensures.bind (readRfsdevblk_spec sb.rsbBmpbks) fun r => ?_
    refine Ensures.of_pre (c := r = none ∨ r = some (.bmp bmp)) (fun hr => ?_) fun s h => by
      rw [hb] at h
      exact h.2
    have hdel := delSuperblk_same hm hs
    rcases hr with rfl | rfl
    · exact Ensures.bind (hdel.weaken (fun _ h => h.1) fun _ _ h => h) fun _ =>
        Ensures.pure fun s h => ⟨h, Or.inl rfl⟩
    · exact Ensures.bind (hdel.weaken (fun _ h => h.1) fun _ _ h => h) fun _ =>
        Ensures.pure fun s h => ⟨h, Or.inr rfl⟩

theorem delBitmapblk_spec (hm : d.rdeMsize = fsmmBlk) (hs : d.disk 0 = .sup sb)
    (h1 : sb.rsbBmpbks = 1) (bmp' : Nat → UInt8) :
    Ensures d.Same (delBitmapblk bmp') fun _ d' => (d.put 1 (.bmp bmp')).Same d' := by
  unfold delBitmapblk
  refine Ensures.bind (getSuperblk_spec hs) fun r => ?_
  refine Ensures.of_pre (c := r = none ∨ r = some sb) (fun hr => ?_) fun s h => h.2
  rcases hr with rfl | rfl
  · exact Ensures.throw
  · simp only [h1]
    refine Ensures.bind ((writeRfsdevblk_spec hm _ 1).weaken (fun _ h => h.1) fun _ _ h => h)
      fun r => ?_
    refine Ensures.ite (fun hr => ?_) fun _ => Ensures.throw
    refine (delSuperblk_same (d := d.put 1 (.bmp bmp')) hm ?_).weaken (fun s h => ?_)
      fun _ _ h => h
    · rw [put_disk_ne d _ (by decide)]
      exact hs
    · rcases h with ⟨_, _, h⟩ | ⟨hf, _⟩
      · exact h
      · rw [hr] at hf
        cases hf

/-- **`rfs_new_blk`** marks the first free block, or fails and changes
nothing. -/
theorem rfsNewBlk_spec (hm : d.rdeMsize = fsmmBlk) (hs : d.disk 0 = .sup sb)
    (h1 : sb.rsbBmpbks = 1) (hb : d.disk 1 = .bmp bmp) :
    Ensures d.Same rfsNewBlk fun r d' => (r = 0 ∧ d.Same d') ∨
      (freeBlknr bmp = some r ∧ (d.put 1 (.bmp (Function.update bmp r 1))).Same d') := by
  unfold rfsNewBlk
  refine Ensures.bind (getBitmapblk_spec hm hs (by rw [h1]; exact hb)) fun r => ?_
  refine Ensures.of_pre (c := r = none ∨ r = some bmp) (fun hr => ?_) fun s h => h.2
  rcases hr with rfl | rfl
  · exact Ensures.pure fun s h => Or.inl ⟨rfl, h.1⟩
  · simp only
    cases hf : freeBlknr bmp with
    | some n =>
        refine Ensures.bind ((delBitmapblk_spec hm hs h1 _).weaken (fun _ h => h.1)
          fun _ _ h => h) fun _ => Ensures.pure fun s h => Or.inr ⟨rfl, h⟩
    | none =>
        refine Ensures.bind ((delBitmapblk_spec hm hs h1 _).weaken (fun _ h => h.1)
          fun _ _ h => h) fun _ => Ensures.pure fun s h => Or.inl ⟨rfl, h.put_self hb⟩

/-- **`rfs_del_blk`** marks a block free. -/
theorem rfsDelBlk_spec (hm : d.rdeMsize = fsmmBlk) (hs : d.disk 0 = .sup sb)
    (h1 : sb.rsbBmpbks = 1) (hb : d.disk 1 = .bmp bmp) (n : Nat) :
    Ensures d.Same (rfsDelBlk n) fun _ d' =>
      (d.put 1 (.bmp (Function.update bmp n 0))).Same d' := by
  unfold rfsDelBlk
  refine Ensures.ite (fun _ => Ensures.throw) fun _ => ?_
  refine Ensures.bind (getBitmapblk_spec hm hs (by rw [h1]; exact hb)) fun r => ?_
  refine Ensures.of_pre (c := r = none ∨ r = some bmp) (fun hr => ?_) fun s h => h.2
  rcases hr with rfl | rfl
  · exact Ensures.throw
  · exact (delBitmapblk_spec hm hs h1 _).weaken (fun _ h => h.1) fun _ _ h => h

/-- The block `rfs_new_blk` finds. -/
theorem freeBlknr_some {n : Nat} (h : freeBlknr bmp = some n) :
    2 ≤ n ∧ n < 4096 ∧ bmp n = 0 := by
  have hmem := List.mem_of_find?_eq_some h
  have hz := List.find?_some h
  rw [List.mem_range'_1] at hmem
  rw [decide_eq_true_iff] at hz
  simp only [fsysAlcblksz] at hmem
  exact ⟨hmem.1, by omega, hz⟩

/-! ## The root directory -/

theorem getRootdirfileBlk_spec (hm : d.rdeMsize = fsmmBlk) (hs : d.disk 0 = .sup sb)
    {dir : Dirblk} (hd : d.disk sb.rsbRootdir.rdrBlknr = .dir dir) :
    Ensures d.Same getRootdirfileBlk fun r d' => d.Same d' ∧ (r = none ∨ r = some dir) := by
  unfold getRootdirfileBlk
  refine Ensures.bind (getRootdir_spec hm hs) fun r => ?_
  refine Ensures.of_pre (c := r = none ∨ r = some sb.rsbRootdir) (fun hr => ?_) fun s h => h.2
  rcases hr with rfl | rfl
  · exact Ensures.pure fun s h => ⟨h.1, Or.inl rfl⟩
  · refine Ensures.bind (newBuf_spec.weaken (fun _ h => h.1) fun _ _ h => h) fun ok => ?_
    refine Ensures.ite (fun _ => ?_) fun _ => Ensures.pure fun s h => ⟨h, Or.inl rfl⟩
    refine Ensures.bind (readRfsdevblk_spec _) fun r => ?_
    refine Ensures.of_pre (c := r = none ∨ r = some (.dir dir)) (fun hr => ?_) fun s h => by
      rw [hd] at h
      exact h.2
    rcases hr with rfl | rfl
    · exact Ensures.pure fun s h => ⟨h.1, Or.inl rfl⟩
    · exact Ensures.pure fun s h => ⟨h.1, Or.inr rfl⟩

theorem delRootdirfileBlk_spec (hm : d.rdeMsize = fsmmBlk) (dir : Dirblk) :
    Ensures d.Same (delRootdirfileBlk dir) fun _ d' =>
      (d.put dir.hd.fmdSfblk (.dir dir)).Same d' := by
  unfold delRootdirfileBlk
  refine Ensures.bind (writeRfsdevblk_spec hm _ _) fun r => ?_
  refine Ensures.ite (fun hr => ?_) fun _ => Ensures.throw
  refine Ensures.pure fun s h => ?_
  rcases h with ⟨_, _, h⟩ | ⟨hf, _⟩
  · exact h
  · rw [hr] at hf
    cases hf

end Blocks

/-! ## The invariant -/

/-- The superblock after `rfs_fmat`. -/
def sublkFmat : Rfssublk where
  rsbBmpbks := 1
  rsbFsysallblk := 1024
  rsbRootdir := ⟨.dir, 2, [slash]⟩

/-- The header of the file in block `b`. -/
structure FileHd (h : Fimgrhd) (b : Nat) : Prop where
  type : h.fmdType = .fil
  sfblk : h.fmdSfblk = b
  curfwritebk : h.fmdCurfwritebk = b
  fbBlkstart : h.fbBlkstart = b
  ifst : h.fmdFileifstbkoff = ifstbkoff
  off : ifstbkoff ≤ h.fmdCurfinwbkoff
  lt : b < 1024
  gt : 2 < b

/-- The header of the root directory, with room for entries from `k` on. -/
structure RootOk (dir : Dirblk) : Prop where
  type : dir.hd.fmdType = .dir
  sfblk : dir.hd.fmdSfblk = 2
  curfwritebk : dir.hd.fmdCurfwritebk = 2
  fbBlkstart : dir.hd.fbBlkstart = 2
  ifst : dir.hd.fmdFileifstbkoff = ifstbkoff
  room : ∃ k ≤ entMax, dir.hd.fmdCurfinwbkoff = ifstbkoff + sizeofRfsdir * k ∧
    ∀ i, k ≤ i → (dir.ent i).rdrType ≠ .fil

/-- Entry `i` is a file. -/
def Dirblk.IsFile (dir : Dirblk) (i : Nat) : Prop := (dir.ent i).rdrType = .fil

/-- **The invariant of the file system**: bitmap `bmp`, root directory `dir`. -/
structure RfsInv (d : Dev) (bmp : Nat → UInt8) (dir : Dirblk) : Prop where
  msize : d.rdeMsize = fsmmBlk
  sup : d.disk 0 = .sup sublkFmat
  bmpblk : d.disk 1 = .bmp bmp
  dirblk : d.disk 2 = .dir dir
  root : RootOk dir
  rootUsed : bmp 2 ≠ 0
  out : ∀ n, 1024 ≤ n → n < 4096 → bmp n ≠ 0
  file : ∀ i, dir.IsFile i → bmp (dir.ent i).rdrBlknr ≠ 0 ∧
    ∃ f, d.disk (dir.ent i).rdrBlknr = .fil f ∧ FileHd f.hd (dir.ent i).rdrBlknr
  names : ∀ i j, dir.IsFile i → dir.IsFile j → (dir.ent i).rdrName = (dir.ent j).rdrName → i = j
  blknrs : ∀ i j, dir.IsFile i → dir.IsFile j → (dir.ent i).rdrBlknr = (dir.ent j).rdrBlknr →
    i = j

/-- `rfs_fmat` leaves a directory without files. -/
def Dirblk.NoFile (dir : Dirblk) : Prop := ∀ i, ¬ dir.IsFile i

section Inv

variable {d : Dev} {bmp : Nat → UInt8} {dir : Dirblk}

theorem RfsInv.same {d' : Dev} (h : RfsInv d bmp dir) (hs : d.Same d') : RfsInv d' bmp dir := by
  obtain ⟨hd, hm⟩ := hs
  exact { h with
    msize := hm.trans h.msize
    sup := by rw [hd]; exact h.sup
    bmpblk := by rw [hd]; exact h.bmpblk
    dirblk := by rw [hd]; exact h.dirblk
    file := by rw [hd]; exact h.file }

theorem RfsInv.fileHd (h : RfsInv d bmp dir) {i : Nat} (hi : dir.IsFile i) :
    2 < (dir.ent i).rdrBlknr ∧ (dir.ent i).rdrBlknr < 1024 := by
  obtain ⟨_, f, _, hf⟩ := h.file i hi
  exact ⟨hf.gt, hf.lt⟩

/-- The entry a search finds. -/
theorem findEnt_some (hr : RootOk dir) {fne : Name} {k : Nat} (h : findEnt dir fne = some k) :
    dir.IsFile k ∧ (dir.ent k).rdrName = fne ∧ k < entMax := by
  have hmem := List.mem_of_find?_eq_some h
  have hk := List.find?_some h
  rw [decide_eq_true_iff] at hk
  rw [List.mem_range'_1, hr.ifst] at hmem
  refine ⟨hk.1, hk.2, ?_⟩
  simp only [entIdx, Nat.sub_self, Nat.zero_div, Nat.sub_zero, Nat.zero_add] at hmem
  exact hmem.2

/-- A search that fails has seen all files. -/
theorem findEnt_none (hr : RootOk dir) {fne : Name} (h : findEnt dir fne = none)
    {i : Nat} (hi : dir.IsFile i) : (dir.ent i).rdrName ≠ fne := by
  obtain ⟨k, hkmax, _, hkfree⟩ := hr.room
  have hlt : i < entMax := by
    by_contra hge
    exact hkfree i (by omega) hi
  unfold findEnt at h
  rw [List.find?_eq_none] at h
  have hmem : i ∈ List.range' (entIdx dir.hd.fmdFileifstbkoff)
      (entMax - entIdx dir.hd.fmdFileifstbkoff) := by
    rw [hr.ifst, List.mem_range'_1]
    simp only [entIdx, Nat.sub_self, Nat.zero_div, Nat.sub_zero, Nat.zero_add]
    exact ⟨Nat.zero_le i, hlt⟩
  have hnot := h i hmem
  rw [decide_eq_true_iff] at hnot
  exact fun hn => hnot ⟨hi, hn⟩

/-- **A file block is stored** where a file block belongs. -/
theorem RfsInv.store (h : RfsInv d bmp dir) {f : Filblk} {b : Nat} (hf : FileHd f.hd b) :
    RfsInv (d.put b (.fil f)) bmp dir := by
  have hgt := hf.gt
  refine { h with
    msize := h.msize
    sup := by rw [put_disk_ne d _ (by omega)]; exact h.sup
    bmpblk := by rw [put_disk_ne d _ (by omega)]; exact h.bmpblk
    dirblk := by rw [put_disk_ne d _ (by omega)]; exact h.dirblk
    file := fun i hi => ?_ }
  obtain ⟨hu, g, hg, hgh⟩ := h.file i hi
  by_cases hb : (dir.ent i).rdrBlknr = b
  · rw [hb, put_disk_self]
    rw [hb] at hu
    exact ⟨hu, f, rfl, hf⟩
  · rw [put_disk_ne d _ hb]
    exact ⟨hu, g, hg, hgh⟩

/-- **A file is added** in a block that was free. -/
theorem RfsInv.addFile (h : RfsInv d bmp dir) {n : Nat} {fne : Name}
    (hn : freeBlknr bmp = some n) (hroom : dir.hd.fmdCurfinwbkoff < fsysAlcblksz)
    (hnew : ∀ i, dir.IsFile i → (dir.ent i).rdrName ≠ fne) :
    RfsInv (((d.put 1 (.bmp (Function.update bmp n 1))).put n
      (.fil ⟨newHead .fil n, fun _ => 0⟩)).put 2 (.dir (dir.addEnt fne n)))
      (Function.update bmp n 1) (dir.addEnt fne n) := by
  obtain ⟨h2, h4096, hzero⟩ := freeBlknr_some hn
  have hne2 : n ≠ 2 := by
    rintro rfl
    exact h.rootUsed hzero
  have hlt : n < 1024 := by
    by_contra hge
    exact h.out n (by omega) h4096 hzero
  obtain ⟨k, hkmax, hk, hkfree⟩ := h.root.room
  have hidx : entIdx dir.hd.fmdCurfinwbkoff = k := by
    unfold entIdx
    rw [hk, Nat.add_sub_cancel_left]
    exact Nat.mul_div_cancel_left k (by decide)
  have hent : ∀ i, (dir.addEnt fne n).ent i
      = if i = k then ⟨.fil, n, fne⟩ else dir.ent i := by
    intro i
    show Function.update dir.ent _ _ i = _
    rw [hidx]
    by_cases hi : i = k
    · subst hi
      rw [Function.update_self, if_pos rfl]
    · rw [Function.update_of_ne hi, if_neg hi]
  have hold : ∀ i, i ≠ k → (dir.addEnt fne n).IsFile i → dir.IsFile i := by
    intro i hi hf
    unfold Dirblk.IsFile at hf
    rw [hent, if_neg hi] at hf
    exact hf
  have hblk : ∀ i, dir.IsFile i → (dir.ent i).rdrBlknr ≠ n := by
    rintro i hi rfl
    exact (h.file i hi).1 hzero
  refine {
    msize := h.msize
    sup := ?_
    bmpblk := ?_
    dirblk := put_disk_self _ _ _
    root := ⟨h.root.type, h.root.sfblk, h.root.curfwritebk, h.root.fbBlkstart, h.root.ifst, ?_⟩
    rootUsed := ?_
    out := fun m hm hm' => ?_
    file := fun i hi => ?_
    names := fun i j hi hj hij => ?_
    blknrs := fun i j hi hj hij => ?_ }
  · rw [put_disk_ne _ _ (by decide), put_disk_ne _ _ (by omega), put_disk_ne _ _ (by decide)]
    exact h.sup
  · rw [put_disk_ne _ _ (by decide), put_disk_ne _ _ (by omega), put_disk_self]
  · refine ⟨k + 1, ?_, ?_, fun i hi => ?_⟩
    · rw [hk] at hroom
      simp only [ifstbkoff, sizeofRfsdir, fsysAlcblksz] at hroom
      simp only [entMax, fsysAlcblksz, ifstbkoff, sizeofRfsdir]
      omega
    · show dir.hd.fmdCurfinwbkoff + sizeofRfsdir = _
      rw [hk]
      ring
    · rw [hent, if_neg (by omega)]
      exact hkfree i (by omega)
  · rw [Function.update_of_ne (Ne.symm hne2)]
    exact h.rootUsed
  · rw [Function.update_of_ne (by omega)]
    exact h.out m hm hm'
  · by_cases hik : i = k
    · rw [hent, if_pos hik]
      refine ⟨by simp, ⟨newHead .fil n, fun _ => 0⟩, ?_,
        ⟨rfl, rfl, rfl, rfl, rfl, Nat.le_refl ifstbkoff, hlt, ?_⟩⟩
      rotate_left
      · simp only
        omega
      rw [put_disk_ne _ _ hne2, put_disk_self]
    · have hi' := hold i hik hi
      rw [hent, if_neg hik]
      obtain ⟨hu, f, hf, hfh⟩ := h.file i hi'
      have hgt := hfh.gt
      refine ⟨?_, f, ?_, hfh⟩
      · rw [Function.update_of_ne (hblk i hi')]
        exact hu
      · rw [put_disk_ne _ _ (by omega), put_disk_ne _ _ (hblk i hi'), put_disk_ne _ _ (by omega)]
        exact hf
  · rw [hent, hent] at hij
    by_cases hik : i = k
    · by_cases hjk : j = k
      · rw [hik, hjk]
      · rw [if_pos hik, if_neg hjk] at hij
        exact absurd hij.symm (hnew j (hold j hjk hj))
    · by_cases hjk : j = k
      · rw [if_neg hik, if_pos hjk] at hij
        exact absurd hij (hnew i (hold i hik hi))
      · rw [if_neg hik, if_neg hjk] at hij
        exact h.names i j (hold i hik hi) (hold j hjk hj) hij
  · rw [hent, hent] at hij
    by_cases hik : i = k
    · by_cases hjk : j = k
      · rw [hik, hjk]
      · rw [if_pos hik, if_neg hjk] at hij
        exact absurd hij.symm (hblk j (hold j hjk hj))
    · by_cases hjk : j = k
      · rw [if_neg hik, if_pos hjk] at hij
        exact absurd hij (hblk i (hold i hik hi))
      · rw [if_neg hik, if_neg hjk] at hij
        exact h.blknrs i j (hold i hik hi) (hold j hjk hj) hij

/-- A block is marked used, and nothing else happens. -/
theorem RfsInv.leak (h : RfsInv d bmp dir) {n : Nat} (hn : freeBlknr bmp = some n) :
    RfsInv (d.put 1 (.bmp (Function.update bmp n 1))) (Function.update bmp n 1) dir := by
  obtain ⟨_, _, hzero⟩ := freeBlknr_some hn
  have hkeep : ∀ m, bmp m ≠ 0 → Function.update bmp n 1 m ≠ 0 := by
    intro m hm
    by_cases hmn : m = n
    · subst hmn
      exact absurd hzero hm
    · rw [Function.update_of_ne hmn]
      exact hm
  refine { h with
    msize := h.msize
    sup := by rw [put_disk_ne d _ (by decide)]; exact h.sup
    bmpblk := put_disk_self _ _ _
    dirblk := by rw [put_disk_ne d _ (by decide)]; exact h.dirblk
    rootUsed := hkeep 2 h.rootUsed
    out := fun m h1 h2 => hkeep m (h.out m h1 h2)
    file := fun i hi => ?_ }
  obtain ⟨hu, f, hf, hfh⟩ := h.file i hi
  have hgt := hfh.gt
  refine ⟨hkeep _ hu, f, ?_, hfh⟩
  rw [put_disk_ne d _ (by omega)]
  exact hf

/-- **A file is deleted.** -/
theorem RfsInv.delFile (h : RfsInv d bmp dir) {k : Nat} (hk : dir.IsFile k) :
    RfsInv ((d.put 1 (.bmp (Function.update bmp (dir.ent k).rdrBlknr 0))).put 2
      (.dir (dir.delEnt k))) (Function.update bmp (dir.ent k).rdrBlknr 0) (dir.delEnt k) := by
  obtain ⟨hgt, hlt⟩ := h.fileHd hk
  have hent : ∀ i, i ≠ k → (dir.delEnt k).ent i = dir.ent i := fun i hi =>
    Function.update_of_ne hi _ _
  have hdel : ((dir.delEnt k).ent k).rdrType = .del := by
    show (Function.update dir.ent k _ k).rdrType = _
    rw [Function.update_self]
  have hne : ∀ i, (dir.delEnt k).IsFile i → i ≠ k := by
    rintro i hi rfl
    unfold Dirblk.IsFile at hi
    rw [hdel] at hi
    cases hi
  have hold : ∀ i, (dir.delEnt k).IsFile i → dir.IsFile i := by
    intro i hi
    have hik := hne i hi
    unfold Dirblk.IsFile at hi
    rw [hent i hik] at hi
    exact hi
  obtain ⟨k', hkmax, hk', hkfree⟩ := h.root.room
  refine {
    msize := h.msize
    sup := ?_
    bmpblk := ?_
    dirblk := put_disk_self _ _ _
    root := ⟨h.root.type, h.root.sfblk, h.root.curfwritebk, h.root.fbBlkstart, h.root.ifst,
      k', hkmax, hk', fun i hi hf => hkfree i hi (hold i hf)⟩
    rootUsed := ?_
    out := fun m h1 h2 => ?_
    file := fun i hi => ?_
    names := fun i j hi hj hij => ?_
    blknrs := fun i j hi hj hij => ?_ }
  · rw [put_disk_ne _ _ (by decide), put_disk_ne _ _ (by decide)]
    exact h.sup
  · rw [put_disk_ne _ _ (by decide), put_disk_self]
  · rw [Function.update_of_ne (by omega)]
    exact h.rootUsed
  · rw [Function.update_of_ne (by omega)]
    exact h.out m h1 h2
  · have hik := hne i hi
    have hb : (dir.ent i).rdrBlknr ≠ (dir.ent k).rdrBlknr := fun hb =>
      hik (h.blknrs i k (hold i hi) hk hb)
    obtain ⟨hu, f, hf, hfh⟩ := h.file i (hold i hi)
    have hgt' := hfh.gt
    rw [hent i hik]
    refine ⟨?_, f, ?_, hfh⟩
    · rw [Function.update_of_ne hb]
      exact hu
    · rw [put_disk_ne _ _ (by omega), put_disk_ne _ _ (by omega)]
      exact hf
  · rw [hent i (hne i hi), hent j (hne j hj)] at hij
    exact h.names i j (hold i hi) (hold j hj) hij
  · rw [hent i (hne i hi), hent j (hne j hj)] at hij
    exact h.blknrs i j (hold i hi) (hold j hj) hij

theorem RootOk.isEmpty_noFile (hr : RootOk dir) (h : dir.isEmpty = true) : dir.NoFile := by
  obtain ⟨k, _, hk, hkfree⟩ := hr.room
  unfold Dirblk.isEmpty at h
  rw [Bool.and_eq_true, decide_eq_true_iff, decide_eq_true_iff, hr.ifst, hk] at h
  simp only [sizeofRfsdir] at h
  intro i
  exact hkfree i (by omega)

/-! ## The operations -/

/-- The directory of an invariant device. -/
theorem RfsInv.getDir (h : RfsInv d bmp dir) :
    Ensures d.Same getRootdirfileBlk fun r d' => d.Same d' ∧ (r = none ∨ r = some dir) :=
  getRootdirfileBlk_spec h.msize h.sup h.dirblk

/-- Storing the directory that was read. -/
theorem RfsInv.putDir (h : RfsInv d bmp dir) :
    Ensures d.Same (delRootdirfileBlk dir) fun _ d' => d.Same d' :=
  (delRootdirfileBlk_spec h.msize dir).weaken (fun _ h => h) fun _ _ hs => by
    rw [h.root.sfblk] at hs
    exact hs.put_self h.dirblk

theorem rfsChkfileisindev_spec (h : RfsInv d bmp dir) (fne : Name) :
    Ensures d.Same (rfsChkfileisindev fne) fun r d' =>
      d.Same d' ∧ (r = 0 → ∀ i, dir.IsFile i → (dir.ent i).rdrName ≠ fne) := by
  unfold rfsChkfileisindev
  refine Ensures.ite (fun _ => Ensures.pure fun s hs => ⟨hs, fun h0 => ?_⟩) fun _ => ?_
  · cases h0
  refine Ensures.bind h.getDir fun r => ?_
  refine Ensures.of_pre (c := r = none ∨ r = some dir) (fun hr => ?_) fun s hs => hs.2
  rcases hr with rfl | rfl
  · exact Ensures.pure fun s hs => ⟨hs.1, fun h0 => by cases h0⟩
  · refine Ensures.bind (h.putDir.weaken (fun _ hs => hs.1) fun _ _ hs => hs) fun _ =>
      Ensures.pure fun s hs => ⟨hs, fun h0 i hi => ?_⟩
    rw [if_neg (by rw [h.root.type]; simp)] at h0
    split at h0
    · rename_i hempty
      exact absurd hi (h.root.isEmpty_noFile hempty i)
    · cases hf : findEnt dir fne with
      | none => exact findEnt_none h.root hf hi
      | some k =>
          rw [hf] at h0
          cases h0

/-- The device after a file was made in block `n`. -/
def Dev.withFile (d : Dev) (bmp : Nat → UInt8) (dir : Dirblk) (fne : Name) (n : Nat) : Dev :=
  ((d.put 1 (.bmp (Function.update bmp n 1))).put n (.fil ⟨newHead .fil n, fun _ => 0⟩)).put 2
    (.dir (dir.addEnt fne n))

/-- **`rfs_new_file`** makes the file in the first free block, or fails and at
most leaves that block marked. -/
theorem rfsNewFile_spec (h : RfsInv d bmp dir) (fname : Nat → UInt8) :
    Ensures d.Same (rfsNewFile fname) fun r d' =>
      (r = false ∧ (d.Same d' ∨ ∃ n, freeBlknr bmp = some n ∧
        (d.put 1 (.bmp (Function.update bmp n 1))).Same d')) ∨
      (r = true ∧ ∃ fne n, rfsRetFname fname = some fne ∧ freeBlknr bmp = some n ∧
        RfsInv (d.withFile bmp dir fne n) (Function.update bmp n 1) (dir.addEnt fne n) ∧
        (∀ i, dir.IsFile i → (dir.ent i).rdrName ≠ fne) ∧
        (d.withFile bmp dir fne n).Same d') := by
  unfold rfsNewFile
  cases hn : rfsRetFname fname with
  | none => exact Ensures.pure fun s hs => Or.inl ⟨rfl, Or.inl hs⟩
  | some fne =>
      refine Ensures.bind (rfsChkfileisindev_spec h fne) fun r => ?_
      refine Ensures.ite (fun _ => Ensures.pure fun s hs => Or.inl ⟨rfl, Or.inl hs.1⟩) fun h0 => ?_
      refine Ensures.of_pre (c := ∀ i, dir.IsFile i → (dir.ent i).rdrName ≠ fne)
        (fun hfresh => ?_) fun s hs => hs.2 (not_not.mp h0)
      unfold rfsNewDirfileblk
      refine Ensures.bind (newBuf_spec.weaken (fun _ hs => hs.1) fun _ _ hs => hs) fun ok => ?_
      refine Ensures.ite (fun _ => ?_) fun _ => Ensures.pure fun s hs => Or.inl ⟨rfl, Or.inl hs⟩
      refine Ensures.bind (rfsNewBlk_spec h.msize h.sup rfl h.bmpblk) fun n => ?_
      refine Ensures.ite (fun hz => ?_) fun hz => ?_
      · refine Ensures.pure fun s hs => Or.inl ⟨rfl, ?_⟩
        rcases hs with ⟨_, hs⟩ | ⟨hf, _⟩
        · exact Or.inl hs
        · have h2 := (freeBlknr_some hf).1
          omega
      refine Ensures.of_pre (c := freeBlknr bmp = some n) (fun hf => ?_) fun s hs =>
        (hs.resolve_left fun hs => hz hs.1).1
      have hleak := h.leak hf
      refine Ensures.bind (hleak.getDir.weaken (fun s hs =>
        (hs.resolve_left fun hs => hz hs.1).2) fun _ _ hs => hs) fun r => ?_
      refine Ensures.of_pre (c := r = none ∨ r = some dir) (fun hr => ?_) fun s hs => hs.2
      rcases hr with rfl | rfl
      · exact Ensures.pure fun s hs => Or.inl ⟨rfl, Or.inr ⟨n, hf, hs.1⟩⟩
      · refine Ensures.ite (fun _ => ?_) fun hroom => ?_
        · exact Ensures.bind (hleak.putDir.weaken (fun _ hs => hs.1) fun _ _ hs => hs)
            fun _ => Ensures.pure fun s hs => Or.inl ⟨rfl, Or.inr ⟨n, hf, hs⟩⟩
        · rw [Nat.not_le] at hroom
          have hadd := h.addFile hf hroom hfresh
          have hlt : n < 1024 := by
            by_contra hge
            obtain ⟨_, h4, hzero⟩ := freeBlknr_some hf
            exact h.out n (by omega) h4 hzero
          refine Ensures.bind ((writeRfsdevblk_spec hleak.msize _ n).weaken (fun _ hs => hs.1)
            fun _ _ hs => hs) fun ok => ?_
          refine Ensures.of_pre (c := ok = true) (fun hok => ?_) fun s hs => by
            rcases hs with ⟨hok, _⟩ | ⟨_, hge, _⟩
            · exact hok
            · omega
          subst hok
          refine Ensures.bind ((delRootdirfileBlk_spec (d := (d.put 1 (.bmp (Function.update bmp n
            1))).put n (.fil ⟨newHead .fil n, fun _ => 0⟩)) h.msize (dir.addEnt fne n)).weaken
            (fun s hs => ?_) fun _ _ hs => hs) fun _ => Ensures.pure fun s hs =>
              Or.inr ⟨rfl, fne, n, rfl, hf, hadd, hfresh, ?_⟩
          · rcases hs with ⟨_, _, hs⟩ | ⟨hfalse, _⟩
            · exact hs
            · cases hfalse
          · have hsf : (dir.addEnt fne n).hd.fmdSfblk = 2 := h.root.sfblk
            rw [hsf] at hs
            exact hs

/-- The device after the file of entry `k` was deleted. -/
def Dev.withoutFile (d : Dev) (bmp : Nat → UInt8) (dir : Dirblk) (k : Nat) : Dev :=
  (d.put 1 (.bmp (Function.update bmp (dir.ent k).rdrBlknr 0))).put 2 (.dir (dir.delEnt k))

/-- **`rfs_del_file`** takes the file out, or fails and changes nothing. -/
theorem rfsDelFile_spec (h : RfsInv d bmp dir) (fname : Nat → UInt8) (flg : Nat) :
    Ensures d.Same (rfsDelFile fname flg) fun r d' =>
      (r = false ∧ d.Same d') ∨
      (r = true ∧ ∃ fne k, rfsRetFname fname = some fne ∧ findEnt dir fne = some k ∧
        (d.withoutFile bmp dir k).Same d') := by
  unfold rfsDelFile
  refine Ensures.ite (fun _ => Ensures.pure fun s hs => Or.inl ⟨rfl, hs⟩) fun _ => ?_
  unfold rfsDelDirfileblk
  cases hn : rfsRetFname fname with
  | none => exact Ensures.pure fun s hs => Or.inl ⟨rfl, hs⟩
  | some fne =>
      suffices hcore : Ensures d.Same (delDirfileblkCore fne) fun r d' =>
          (r ≠ 0 ∧ d.Same d') ∨ (r = 0 ∧ ∃ k, findEnt dir fne = some k ∧
            (d.withoutFile bmp dir k).Same d') by
        refine Ensures.bind hcore fun r => Ensures.pure fun s hs => ?_
        rcases hs with ⟨hr, hs⟩ | ⟨hr, k, hk, hs⟩
        · exact Or.inl ⟨decide_eq_false hr, hs⟩
        · exact Or.inr ⟨decide_eq_true hr, fne, k, rfl, hk, hs⟩
      unfold delDirfileblkCore
      refine Ensures.bind h.getDir fun r => ?_
      refine Ensures.of_pre (c := r = none ∨ r = some dir) (fun hr => ?_) fun s hs => hs.2
      have hput := h.putDir.weaken (fun (s : Dev) (hs : d.Same s ∧ (r = none ∨ r = some dir)) =>
        hs.1) fun _ _ hs => hs
      rcases hr with rfl | rfl
      · exact Ensures.pure fun s hs => Or.inl ⟨by simp, hs.1⟩
      · refine Ensures.ite (fun _ => Ensures.bind hput fun _ => Ensures.pure fun s hs =>
          Or.inl ⟨by simp, hs⟩) fun _ => ?_
        refine Ensures.ite (fun _ => Ensures.bind hput fun _ => Ensures.pure fun s hs =>
          Or.inl ⟨by simp, hs⟩) fun _ => ?_
        cases hf : findEnt dir fne with
        | none =>
            exact Ensures.bind hput fun _ => Ensures.pure fun s hs => Or.inl ⟨by simp, hs⟩
        | some k =>
            refine Ensures.bind ((rfsDelBlk_spec h.msize h.sup rfl h.bmpblk _).weaken
              (fun _ hs => hs.1) fun _ _ hs => hs) fun _ => ?_
            refine Ensures.bind (delRootdirfileBlk_spec (d := d.put 1 (.bmp (Function.update bmp
              (dir.ent k).rdrBlknr 0))) h.msize (dir.delEnt k)) fun _ =>
              Ensures.pure fun s hs => Or.inr ⟨rfl, k, rfl, ?_⟩
            have hsf : (dir.delEnt k).hd.fmdSfblk = 2 := h.root.sfblk
            rw [hsf] at hs
            exact hs

/-- **`rfs_openfileblk`** copies the block of the file, or fails; nothing is
changed. -/
theorem rfsOpenfileblk_spec (h : RfsInv d bmp dir) (fname : Nat → UInt8) :
    Ensures d.Same (rfsOpenfileblk fname) fun r d' => d.Same d' ∧
      ∀ f, r = some f → ∃ fne k, rfsRetFname fname = some fne ∧ findEnt dir fne = some k ∧
        d.disk (dir.ent k).rdrBlknr = .fil f ∧ FileHd f.hd (dir.ent k).rdrBlknr := by
  unfold rfsOpenfileblk
  cases hn : rfsRetFname fname with
  | none => exact Ensures.pure fun s hs => ⟨hs, fun f hf => by cases hf⟩
  | some fne =>
      refine Ensures.bind h.getDir fun r => ?_
      refine Ensures.of_pre (c := r = none ∨ r = some dir) (fun hr => ?_) fun s hs => hs.2
      have hput := h.putDir.weaken (fun (s : Dev) (hs : d.Same s ∧ (r = none ∨ r = some dir)) =>
        hs.1) fun _ _ hs => hs
      rcases hr with rfl | rfl
      · exact Ensures.pure fun s hs => ⟨hs.1, fun f hf => by cases hf⟩
      · refine Ensures.ite (fun _ => Ensures.bind hput fun _ => Ensures.pure fun s hs =>
          ⟨hs, fun f hf => by cases hf⟩) fun _ => ?_
        refine Ensures.ite (fun _ => Ensures.bind hput fun _ => Ensures.pure fun s hs =>
          ⟨hs, fun f hf => by cases hf⟩) fun _ => ?_
        cases hf : findEnt dir fne with
        | none =>
            exact Ensures.bind hput fun _ => Ensures.pure fun s hs => ⟨hs, fun f hf => by cases hf⟩
        | some k =>
            obtain ⟨_, f, hblk, hfh⟩ := h.file k (findEnt_some h.root hf).1
            refine Ensures.bind (newBuf_spec.weaken (fun _ hs => hs.1) fun _ _ hs => hs)
              fun ok => ?_
            refine Ensures.ite (fun _ => ?_) fun _ => Ensures.bind h.putDir fun _ =>
              Ensures.pure fun s hs => ⟨hs, fun f hf => by cases hf⟩
            refine Ensures.bind (readRfsdevblk_spec _) fun r => ?_
            refine Ensures.of_pre (c := r = none ∨ r = some (.fil f)) (fun hr => ?_)
              fun s hs => by
                rw [hblk] at hs
                exact hs.2
            have hput' := h.putDir.weaken (fun (s : Dev) (hs : d.Same s ∧
              (r = none ∨ r = some (d.disk (dir.ent k).rdrBlknr))) => hs.1) fun _ _ hs => hs
            rcases hr with rfl | rfl
            · exact Ensures.bind hput' fun _ => Ensures.pure fun s hs =>
                ⟨hs, fun f hf => by cases hf⟩
            · refine Ensures.bind hput' fun _ => Ensures.pure fun s hs => ⟨hs, fun g hg => ?_⟩
              rw [if_neg (by rw [hfh.type, hfh.ifst]; simp)] at hg
              cases hg
              exact ⟨fne, k, rfl, hf, hblk, hfh⟩

/-- **`rfs_writefileblk`** through a copy of block `b`. -/
theorem rfsWritefileblk_spec (hm : d.rdeMsize = fsmmBlk) {f : Filblk} {b : Nat}
    (hf : FileHd f.hd b) (buf : Nat → UInt8) (len : Nat) :
    Ensures d.Same (rfsWritefileblk f buf len) fun r d' =>
      (r = (f, false) ∧ d.Same d') ∨
      (r = (f.append buf len, true) ∧ f.hd.fmdCurfinwbkoff + len < fsysAlcblksz ∧
        (d.put b (.fil (f.append buf len))).Same d') := by
  unfold rfsWritefileblk
  refine Ensures.ite (fun _ => Ensures.pure fun s hs => Or.inl ⟨rfl, hs⟩) fun _ => ?_
  refine Ensures.ite (fun _ => Ensures.pure fun s hs => Or.inl ⟨rfl, hs⟩) fun _ => ?_
  refine Ensures.ite (fun _ => Ensures.throw) fun hlen => ?_
  rw [not_or, Nat.not_le] at hlen
  rw [hf.curfwritebk]
  refine Ensures.bind (writeRfsdevblk_spec hm _ b) fun ok => Ensures.pure fun s hs => ?_
  have hlt := hf.lt
  rcases hs with ⟨_, _, hs⟩ | ⟨_, hge, _⟩
  · exact Or.inr ⟨rfl, hlen.1, hs⟩
  · omega

/-- **`rfs_writefileblk`** of a length that the position of the file does not wrap with. -/
theorem rfsWritefileblk_total (hm : d.rdeMsize = fsmmBlk) {f : Filblk} {b : Nat}
    (hf : FileHd f.hd b) (buf : Nat → UInt8) {len : Nat}
    (hlen : f.hd.fmdCurfinwbkoff + len < wordMod) :
    (rfsWritefileblk f buf len).run d = .ok ((f, false), d) ∨
    (f.hd.fmdCurfinwbkoff + len < fsysAlcblksz ∧ (rfsWritefileblk f buf len).run d
      = .ok ((f.append buf len, true), d.put b (.fil (f.append buf len)))) := by
  have hown : f.hd.isOwn = true := by
    unfold Fimgrhd.isOwn
    simp [hf.sfblk, hf.curfwritebk, hf.fbBlkstart]
  unfold rfsWritefileblk
  rw [add64_eq hlen, if_neg (by simp [hown])]
  by_cases hroom : fsysAlcblksz ≤ f.hd.fmdCurfinwbkoff + len
  · rw [if_pos hroom]
    exact Or.inl rfl
  · rw [if_neg hroom, if_neg (by have := hf.off; omega), hf.curfwritebk]
    refine Or.inr ⟨by omega, ?_⟩
    rw [run_bind_ok (writeRfsdevblk_ok hm hf.lt _)]
    rfl

theorem FileHd.append {f : Filblk} {b : Nat} (hf : FileHd f.hd b) (buf : Nat → UInt8)
    (len : Nat) : FileHd (f.append buf len).hd b :=
  { hf with off := Nat.le_trans hf.off (Nat.le_add_right _ _) }

/-- **`rfs_closefileblk`** stores the copy. -/
theorem rfsClosefileblk_spec (hm : d.rdeMsize = fsmmBlk) {f : Filblk} {b : Nat}
    (hf : FileHd f.hd b) :
    Ensures d.Same (rfsClosefileblk f) fun _ d' => (d.put b (.fil f)).Same d' := by
  unfold rfsClosefileblk
  rw [hf.sfblk]
  refine Ensures.bind (writeRfsdevblk_spec hm _ b) fun ok => Ensures.pure fun s hs => ?_
  have hlt := hf.lt
  rcases hs with ⟨_, _, hs⟩ | ⟨_, hge, _⟩
  · exact hs
  · omega

theorem rfsClosefileblk_total (hm : d.rdeMsize = fsmmBlk) {f : Filblk} {b : Nat}
    (hf : FileHd f.hd b) :
    (rfsClosefileblk f).run d = .ok (true, d.put b (.fil f)) := by
  unfold rfsClosefileblk
  rw [hf.sfblk, run_bind_ok (writeRfsdevblk_ok hm hf.lt _)]
  rfl

/-! ## Formatting -/

/-- The superblock before there is a root directory. -/
def sublkNew : Rfssublk := { rfssublkInit with rsbFsysallblk := 1024 }

theorem createSuperblk_spec (hm : d.rdeMsize = fsmmBlk) :
    Ensures d.Same createSuperblk fun r d' => r = true → (d.put 0 (.sup sublkNew)).Same d' := by
  unfold createSuperblk
  refine Ensures.bind newBuf_spec fun ok => ?_
  refine Ensures.ite (fun _ => ?_) fun _ => Ensures.pure fun s _ hr => by cases hr
  refine Ensures.bind (Ensures.get (Q := fun s d' => s = d' ∧ d.Same d') fun s hs => ⟨rfl, hs⟩)
    fun s => Ensures.of_pre (c := d.Same s) (fun hs => ?_) fun s' hs' => by
      rw [hs'.1]
      exact hs'.2
  have hmax : retRfsdevmaxblknr s = 1024 := by
    show s.rdeMsize / fsysAlcblksz = 1024
    rw [hs.2, hm]
    decide
  rw [hmax]
  refine (writeRfsdevblk_spec hm _ 0).weaken (fun s' hs' => hs'.2) fun r s' hs' hr => ?_
  rcases hs' with ⟨_, _, hs'⟩ | ⟨hf, _⟩
  · exact hs'
  · rw [hr] at hf
    cases hf

theorem createBitmap_spec (hm : d.rdeMsize = fsmmBlk) (hs : d.disk 0 = .sup sublkNew) :
    Ensures d.Same createBitmap fun r d' =>
      r = true → (d.put 1 (.bmp (bitmapInit 1024))).Same d' := by
  unfold createBitmap
  refine Ensures.bind (getSuperblk_spec hs) fun r => ?_
  refine Ensures.of_pre (c := r = none ∨ r = some sublkNew) (fun hr => ?_) fun s h => h.2
  rcases hr with rfl | rfl
  · exact Ensures.pure fun s _ hr => by cases hr
  refine Ensures.bind (newBuf_spec.weaken (fun _ h => h.1) fun _ _ h => h) fun ok => ?_
  refine Ensures.ite (fun _ => ?_) fun _ => Ensures.pure fun s _ hr => by cases hr
  refine Ensures.ite (fun hbig => ?_) fun _ => ?_
  · simp only [sublkNew, fsysAlcblksz] at hbig
    omega
  refine Ensures.bind (writeRfsdevblk_spec hm _ 1) fun ok => ?_
  cases ok
  · exact Ensures.bind ((delSuperblk_spec hm sublkNew).weaken (fun s h => by
      rcases h with ⟨hf, _⟩ | ⟨_, _, h⟩
      · cases hf
      · exact h) fun _ _ h => h) fun _ => Ensures.pure fun s _ hr => by cases hr
  · refine Ensures.bind ((delSuperblk_same (d := d.put 1 (.bmp (bitmapInit 1024))) hm ?_).weaken
      (fun s h => ?_) fun _ _ h => h) fun _ => Ensures.pure fun s h _ => h
    · rw [put_disk_ne d _ (by decide)]
      exact hs
    · rcases h with ⟨_, _, h⟩ | ⟨hf, _⟩
      · exact h
      · cases hf

/-- The first block of a new bitmap is block 2. -/
theorem freeBlknr_bitmapInit : freeBlknr (bitmapInit 1024) = some 2 := rfl

/-- The root directory `create_rootdir` stores. -/
def rootdirInit : Dirblk := ⟨newHead .dir 2, fun _ => rfsdirInit⟩

/-- The bitmap with the root directory in it. -/
def bitmapRoot : Nat → UInt8 := Function.update (bitmapInit 1024) 2 1

theorem createRootdir_spec (hm : d.rdeMsize = fsmmBlk) (hs : d.disk 0 = .sup sublkNew)
    (hb : d.disk 1 = .bmp (bitmapInit 1024)) :
    Ensures d.Same createRootdir fun r d' => r = true →
      (((d.put 1 (.bmp bitmapRoot)).put 2 (.dir rootdirInit)).put 0 (.sup sublkFmat)).Same d' := by
  have hfail : ∀ sb : Rfssublk, Ensures d.Same (do delSuperblk sb; return false) fun r d' =>
      r = true →
      (((d.put 1 (.bmp bitmapRoot)).put 2 (.dir rootdirInit)).put 0 (.sup sublkFmat)).Same d' :=
    fun sb => Ensures.bind (delSuperblk_spec hm sb) fun _ => Ensures.pure fun s _ hr => by cases hr
  unfold createRootdir
  refine Ensures.bind (getSuperblk_spec hs) fun r => ?_
  refine Ensures.of_pre (c := r = none ∨ r = some sublkNew) (fun hr => ?_) fun s h => h.2
  rcases hr with rfl | rfl
  · exact Ensures.pure fun s _ hr => by cases hr
  refine Ensures.bind (newBuf_spec.weaken (fun _ h => h.1) fun _ _ h => h) fun ok => ?_
  refine Ensures.ite (fun _ => ?_) fun _ => hfail sublkNew
  refine Ensures.bind (rfsNewBlk_spec hm hs rfl hb) fun n => ?_
  refine Ensures.ite (fun hz => ?_) fun hz => ?_
  · refine (hfail sublkNew).weaken (fun s h => ?_) fun _ _ h => h
    rcases h with ⟨_, h⟩ | ⟨hf, _⟩
    · exact h
    · rw [freeBlknr_bitmapInit, hz] at hf
      cases hf
  refine Ensures.of_pre (c := n = 2) (fun hn => ?_) fun s h => by
    have hf := (h.resolve_left fun h => hz h.1).1
    rw [freeBlknr_bitmapInit] at hf
    exact (Option.some.inj hf).symm
  subst hn
  refine Ensures.bind ((writeRfsdevblk_spec (d := d.put 1 (.bmp bitmapRoot)) hm _ 2).weaken
    (fun s h => (h.resolve_left fun h => hz h.1).2) fun _ _ h => h) fun ok => ?_
  cases ok
  · refine Ensures.of_pre (c := False) (fun hf => hf.elim) fun s h => ?_
    rcases h with ⟨hf, _⟩ | ⟨_, hge, _⟩
    · cases hf
    · omega
  · refine Ensures.bind ((delSuperblk_spec (d := (d.put 1 (.bmp bitmapRoot)).put 2
      (.dir rootdirInit)) hm sublkFmat).weaken (fun s h => ?_) fun _ _ h => h) fun _ =>
        Ensures.pure fun s h _ => h
    rcases h with ⟨_, _, h⟩ | ⟨hf, _⟩
    · exact h
    · cases hf

theorem rootdirInit_noFile : rootdirInit.NoFile := by
  intro i hi
  cases hi

theorem rootdirInit_ok : RootOk rootdirInit where
  type := rfl
  sfblk := rfl
  curfwritebk := rfl
  fbBlkstart := rfl
  ifst := rfl
  room := ⟨0, by decide, rfl, fun i _ => rootdirInit_noFile i⟩

theorem bitmapRoot_out {n : Nat} (h : 1024 ≤ n) : bitmapRoot n ≠ 0 := by
  unfold bitmapRoot bitmapInit
  rw [Function.update_of_ne (by omega), if_neg (by omega)]
  decide

/-- The device with the blocks of an empty file system. -/
def Dev.fmat (d : Dev) : Dev :=
  ((((d.put 0 (.sup sublkNew)).put 1 (.bmp (bitmapInit 1024))).put 1 (.bmp bitmapRoot)).put 2
    (.dir rootdirInit)).put 0 (.sup sublkFmat)

/-- The blocks `rfs_fmat` stores. -/
theorem rfsFmat_blocks (hm : d.rdeMsize = fsmmBlk) :
    Ensures d.Same rfsFmat fun _ d' => d.fmat.Same d' := by
  unfold rfsFmat
  refine Ensures.bind (createSuperblk_spec hm) fun ok => ?_
  refine Ensures.ite (fun hok => ?_) fun _ => Ensures.throw
  refine Ensures.bind ((createBitmap_spec (d := d.put 0 (.sup sublkNew)) hm
    (put_disk_self _ _ _)).weaken (fun s h => h hok) fun _ _ h => h) fun ok => ?_
  refine Ensures.ite (fun hok => ?_) fun _ => Ensures.throw
  refine Ensures.bind ((createRootdir_spec (d := (d.put 0 (.sup sublkNew)).put 1
    (.bmp (bitmapInit 1024))) hm (by rw [put_disk_ne _ _ (by decide), put_disk_self])
    (put_disk_self _ _ _)).weaken (fun s h => h hok) fun _ _ h => h) fun ok => ?_
  refine Ensures.ite (fun hok => ?_) fun _ => Ensures.throw
  exact Ensures.pure fun s h => h hok

/-- **`rfs_fmat`** makes a file system without files. -/
theorem rfsFmat_spec (hm : d.rdeMsize = fsmmBlk) :
    Ensures d.Same rfsFmat fun _ d' => RfsInv d' bitmapRoot rootdirInit := by
  refine (rfsFmat_blocks hm).weaken (fun s h => h) fun _ s h => RfsInv.same (d := d.fmat) ?_ h
  exact {
    msize := hm
    sup := put_disk_self _ _ _
    bmpblk := by
      unfold Dev.fmat
      rw [put_disk_ne _ _ (by decide), put_disk_ne _ _ (by decide), put_disk_self]
    dirblk := by
      unfold Dev.fmat
      rw [put_disk_ne _ _ (by decide), put_disk_self]
    root := rootdirInit_ok
    rootUsed := by decide
    out := fun n hn _ => bitmapRoot_out hn
    file := fun i hi => absurd hi (rootdirInit_noFile i)
    names := fun i _ hi => absurd hi (rootdirInit_noFile i)
    blknrs := fun i _ hi => absurd hi (rootdirInit_noFile i) }

end Inv

end Cosmos.Drivers
