import Cosmos.Kernel.Krlsveopen

/-!
# Calls that cannot stop the kernel

A user thread opens, writes and closes through its handles, in any order and with any
arguments.  The invariant is that each handle holds its node, and the buffer of the node, alone
and that both are live; so what a call gives back under a name and a size is there.

The kernel stops, or an open that fails leaves something behind, exactly where
`krlsve_core_open` meets a file it cannot open with `hal_sysdie`, where `del_bitmapblk` finds no
buffer, where `get_bitmapblk` finds none for the bitmap, and where a new file has a block but no
entry; and where `uart_write` gets a text that it cannot print.  `SveSafe` says that a call is
none of these.

## Main results

* `sve_survives` : with calls of that kind only, no call stops the kernel, and an open that
  fails leaves handles, live objects and blocks as they were.
* `open_stops` : an open of a file that is not there.
-/

namespace Cosmos.Kernel

open Cosmos.Drivers (Dev Blk Filblk Dirblk FileHd RfsInv RfsState RfsOp fsysAlcblksz rfsFmat
  rfsWritefileblk rfsWritefileblk_total devInit rfsStep exists_fmat pathA UartText uartText
  uartText_text)
open Cosmos.Drivers.Bufs
open Cosmos.Lib.Run Cosmos.Lib.StM

/-! ## The parts of a call -/

section Parts

variable {m m' : FsMem} {nd : Nat → Objnode} {t : Nat → Option Nat} {c : Nat → Nat} {a i : Nat}
  {n n' : Objnode} {drv : Driver} {io : IoifCode}

theorem onMem_run {α : Type} {x : BufM α} {r : α} (h : x.run m = .ok (r, m')) :
    (onMem x).run ⟨m, nd, t, c⟩ = .ok (r, ⟨m', nd, t, c⟩) := by
  show (x.run m).map _ = _
  rw [h]
  rfl

theorem getNode_run :
    (getNode a).run ⟨m, Function.update nd a n, t, c⟩
      = .ok (n, ⟨m, Function.update nd a n, t, c⟩) := by
  show Except.ok (Function.update nd a n a, _) = _
  rw [Function.update_self]

theorem setNode_run :
    (setNode a n').run ⟨m, Function.update nd a n, t, c⟩
      = .ok ((), ⟨m, Function.update nd a n', t, c⟩) := by
  show Except.ok ((), (⟨m, Function.update (Function.update nd a n) a n', t, c⟩ : SveSt)) = _
  rw [Function.update_idem]

theorem krlnewObjnode_none (h : m.dev.alc m.dev.tick = false) :
    krlnewObjnode.run ⟨m, nd, t, c⟩ = .ok (none, ⟨m.after 1 [], nd, t, c⟩) := by
  have hnew : (krlnew sizeofObjnode).run m = _ := newBuf_none h sizeofObjnode
  unfold krlnewObjnode
  rw [run_bind_ok (onMem_run hnew)]
  rfl

theorem krlnewObjnode_some (h : m.dev.alc m.dev.tick = true) :
    krlnewObjnode.run ⟨m, nd, t, c⟩ = .ok (some m.dev.tick,
      ⟨m.after 1 [(m.dev.tick, sizeofObjnode)], Function.update nd m.dev.tick objnodeInit, t, c⟩) := by
  have hnew : (krlnew sizeofObjnode).run m = _ := newBuf_some h sizeofObjnode
  unfold krlnewObjnode
  rw [run_bind_ok (onMem_run hnew)]
  rfl

/-- Giving a live node back. -/
theorem krldelObjnode_run (h : (a, sizeofObjnode) ∈ m.live) :
    (krldelObjnode a).run ⟨m, nd, t, c⟩
      = .ok (true, ⟨{ m with live := m.live.erase (a, sizeofObjnode) }, nd, t, c⟩) := by
  unfold krldelObjnode
  rw [run_bind_ok (onMem_run (krldelete_run h)), if_pos rfl]
  rfl

theorem nullHand_some (h : nullHand t = some i) : i < tdHandMax ∧ t i = none := by
  unfold nullHand at h
  have hmem := List.mem_of_find?_eq_some h
  have hnone := List.find?_some h
  exact ⟨List.mem_range.mp hmem, Option.isNone_iff_eq_none.mp hnone⟩

theorem krlthdAddObjnode_none (h : nullHand t = none) :
    (krlthdAddObjnode a).run ⟨m, nd, t, c⟩ = .ok (noHand, ⟨m, nd, t, c⟩) := by
  unfold krlthdAddObjnode
  rw [run_get_bind]
  dsimp only
  rw [h]
  rfl

theorem krlthdAddObjnode_some (h : nullHand t = some i) :
    (krlthdAddObjnode a).run ⟨m, nd, t, c⟩
      = .ok ((i : Hand), ⟨m, nd, Function.update t i (some a), c⟩) := by
  unfold krlthdAddObjnode
  rw [run_get_bind]
  dsimp only
  rw [h]
  rfl

theorem hand_in (hi : i < tdHandMax) : ¬ ((tdHandMax : Hand) ≤ i ∨ (i : Hand) ≤ noHand) := by
  show ¬ (((8 : Nat) : Int) ≤ (i : Int) ∨ (i : Int) ≤ -1)
  have hi8 : i < 8 := hi
  omega

/-- Taking a handle that is in use. -/
theorem krlthdDelObjnode_run (hi : i < tdHandMax) (h : t i = some a) :
    (krlthdDelObjnode (i : Hand)).run ⟨m, nd, t, c⟩
      = .ok ((i : Hand), ⟨m, nd, Function.update t i none, c⟩) := by
  unfold krlthdDelObjnode
  rw [run_get_bind, if_neg (hand_in hi)]
  dsimp only
  rw [Int.toNat_natCast, if_neg (by rw [h]; simp)]
  rfl

theorem hand_of_in {fhand : Hand} (hno : ¬ fhand ≤ noHand) (hmax : ¬ (tdHandMax : Hand) ≤ fhand) :
    ∃ i : Nat, i < tdHandMax ∧ fhand = (i : Hand) := by
  have hge : (0 : Int) ≤ fhand := Int.not_le.mp hno
  obtain ⟨i, rfl⟩ := Int.eq_ofNat_of_zero_le hge
  exact ⟨i, by exact_mod_cast Int.not_le.mp hmax, rfl⟩

theorem natCast_ne_noHand (i : Nat) : (i : Hand) ≠ noHand := by
  show (i : Int) ≠ -1
  omega

theorem krlthdRetnObjnode_run (hi : i < tdHandMax) (s : SveSt) :
    (krlthdRetnObjnode (i : Hand)).run s = .ok (s.tdHandtbl i, s) := by
  unfold krlthdRetnObjnode
  rw [if_neg (hand_in hi)]
  rfl

/-- Giving a node back whose handle is taken. -/
theorem resStep_noHand (h : (a, sizeofObjnode) ∈ m.live) :
    (resStep a noHand).run ⟨m, nd, t, c⟩
      = .ok (noHand, ⟨{ m with live := m.live.erase (a, sizeofObjnode) }, nd, t, c⟩) := by
  unfold resStep resNode
  rw [if_pos rfl, run_bind_ok (krldelObjnode_run h), if_pos rfl]
  rfl

/-- Taking the handle that was just given. -/
theorem resStep_hand (hi : i < tdHandMax) (hnone : t i = none) (h : (a, sizeofObjnode) ∈ m.live) :
    (resStep a i).run ⟨m, nd, Function.update t i (some a), c⟩
      = .ok (noHand, ⟨{ m with live := m.live.erase (a, sizeofObjnode) }, nd, t, c⟩) := by
  have hback : Function.update (Function.update t i (some a)) i none = t := by
    rw [Function.update_idem, ← hnone, Function.update_eq_self]
  unfold resStep resNode
  rw [if_neg (natCast_ne_noHand i),
    run_bind_ok (krlthdDelObjnode_run hi (Function.update_self i (some a) t)),
    if_neg (natCast_ne_noHand i), hback, run_bind_ok (krldelObjnode_run h), if_pos rfl]
  rfl

/-- The call of a driver. -/
theorem krlsveDevice_run (nd : Nat → Objnode) (drv : Driver) (io : IoifCode)
    (hadr : n.onObjadr = some drv.device) (hcode : n.onOpercode = some io)
    (hty : n.onObjtype = .dev ∨ n.onObjtype = .fil) :
    (krlsveDevice a).run ⟨m, Function.update nd a n, t, c⟩
      = (drvDipfun drv io drv.device a).run ⟨m, Function.update nd a n, t, c⟩ := by
  have hdrv : drv.device.devDrv.bind driverAt = some drv := by cases drv <;> rfl
  unfold krlsveDevice krldevIo
  rw [run_bind_ok getNode_run, if_neg (by rw [hadr]; simp), run_bind_ok getNode_run, hadr, hcode]
  dsimp only
  rw [if_neg (by rcases hty with h | h <;> rw [h] <;> simp)]
  unfold krldevCallDriver
  rw [hdrv]

/-- Counting a device up or down looks at nothing else. -/
theorem incDevcount_run (nd : Nat → Objnode) (devp : Device) : ∃ ok c',
    (krldevIncDevcount devp).run ⟨m, nd, t, c⟩ = .ok (ok, ⟨m, nd, t, c'⟩) := by
  unfold krldevIncDevcount
  rw [run_get_bind]
  split
  · exact ⟨false, c, rfl⟩
  · exact ⟨true, _, rfl⟩

theorem decDevcount_run (nd : Nat → Objnode) (devp : Device) : ∃ ok c',
    (krldevDecDevcount devp).run ⟨m, nd, t, c⟩ = .ok (ok, ⟨m, nd, t, c'⟩) := by
  unfold krldevDecDevcount
  rw [run_get_bind]
  split
  · exact ⟨false, c, rfl⟩
  · exact ⟨true, _, rfl⟩

end Parts

/-! ## Devices -/

theorem osdevtable_run : run deviceStep (osdrvetytabl.map Driver.device) devtableInit
    = .ok osdevtable := rfl

theorem osdevtable_inv : TableInv osdevtable :=
  run_inv TableInv deviceStep_inv _ _ _ devtableInit_inv osdevtable_run

/-- A device that is found is one of the three. -/
theorem osdevtable_found {id : Devid} {d : Device} {flgs : Nat}
    (h : krlonidflRetnDevice osdevtable id flgs = some d) : ∃ drv : Driver, d = drv.device := by
  unfold krlonidflRetnDevice at h
  dsimp only at h
  split_ifs at h
  have hmem := (osdevtable_inv.mem_class.mp (List.mem_of_find?_eq_some h)).1
  have hlist : osdevtable.devtDevlist = [Driver.uart.device, Driver.rfs.device,
    Driver.systick.device] := rfl
  rw [hlist] at hmem
  simp only [List.mem_cons, List.not_mem_nil, or_false] at hmem
  rcases hmem with rfl | rfl | rfl
  · exact ⟨.uart, rfl⟩
  · exact ⟨.rfs, rfl⟩
  · exact ⟨.systick, rfl⟩

theorem osdevtable_rfs : krlonidflRetnDevice osdevtable ⟨30, 0, 0⟩ didfilIdn
    = some Driver.rfs.device := rfl

/-! ## What the calls keep -/

/-- A file system with its files inside their blocks, and objects that were made before. -/
structure MemOk (m : FsMem) : Prop where
  fs : ∃ bmp dir, RfsInv m.dev bmp dir
  within : m.dev.Within
  old : ∀ o ∈ m.live, o.1 < m.dev.tick

/-- The objects of a node: itself, and its buffer. -/
def nodeObjs (a : Nat) (n : Objnode) : List (Nat × Nat) :=
  (a, sizeofObjnode) :: (n.onFinode.map fun f => (f.1, fsysAlcblksz)).toList

/-- The objects of a handle. -/
def SveSt.objs (s : SveSt) (i : Nat) : List (Nat × Nat) :=
  match s.tdHandtbl i with
  | none => []
  | some a => nodeObjs a (s.node a)

/-- A node of an open device, or of an open file with its copy. -/
def NodeOk (n : Objnode) : Prop :=
  (n.onObjtype = .dev ∧ n.onFinode = none ∧
    (n.onObjadr = some Driver.systick.device ∨ n.onObjadr = some Driver.uart.device)) ∨
  (n.onObjtype = .fil ∧ n.onObjadr = some Driver.rfs.device ∧ ∃ fb f b,
    n.onFinode = some (fb, f) ∧ FileHd f.hd b ∧ f.hd.fmdCurfinwbkoff < fsysAlcblksz)

/-- **The invariant**: handles have open nodes, and their objects are live and no other
handle's. -/
structure SveInv (s : SveSt) : Prop where
  mem : MemOk s.mem
  live : ∀ i, ∀ o ∈ s.objs i, o ∈ s.mem.live
  apart : ∀ i j, i ≠ j → ∀ o ∈ s.objs i, o ∉ s.objs j
  node : ∀ i a, s.tdHandtbl i = some a → NodeOk (s.node a)

section Keep

variable {s s' : SveSt} {m m' : FsMem} {nd : Nat → Objnode} {t : Nat → Option Nat}
  {c c' : Nat → Nat} {a i k : Nat} {n : Objnode} {o : Nat × Nat}

theorem mem_nodeObjs : o ∈ nodeObjs a n ↔ o = (a, sizeofObjnode) ∨
    ∃ f, n.onFinode = some f ∧ o = (f.1, fsysAlcblksz) := by
  unfold nodeObjs
  cases n.onFinode with
  | none => simp
  | some f => simp

theorem objs_some (h : s.tdHandtbl i = some a) : s.objs i = nodeObjs a (s.node a) := by
  unfold SveSt.objs
  rw [h]

theorem objs_none (h : s.tdHandtbl i = none) : s.objs i = [] := by
  unfold SveSt.objs
  rw [h]

theorem self_mem_objs (h : s.tdHandtbl i = some a) : (a, sizeofObjnode) ∈ s.objs i := by
  rw [objs_some h]
  exact mem_nodeObjs.mpr (Or.inl rfl)

theorem SveInv.lt_tick (h : SveInv s) (ho : o ∈ s.objs i) : o.1 < s.mem.dev.tick :=
  h.mem.old o (h.live i o ho)

/-- Two handles have two nodes. -/
theorem SveInv.node_ne (h : SveInv s) {j b : Nat} (hij : i ≠ j) (hi : s.tdHandtbl i = some a)
    (hj : s.tdHandtbl j = some b) : a ≠ b := by
  rintro rfl
  exact h.apart i j hij _ (self_mem_objs hi) (self_mem_objs hj)

/-- A call that touches one node and one handle, where no other handle has the node. -/
theorem SveInv.change (h : SveInv ⟨m, nd, t, c⟩) (v : Option Nat)
    (hne : ∀ j b, j ≠ k → t j = some b → b ≠ a) (hmem : MemOk m')
    (hnode : ∀ b, v = some b → NodeOk (Function.update nd a n b))
    (hnew : ∀ o ∈ SveSt.objs ⟨m', Function.update nd a n, Function.update t k v, c'⟩ k,
      o ∈ m'.live ∧ ∀ j, j ≠ k → o ∉ SveSt.objs ⟨m, nd, t, c⟩ j)
    (hkept : ∀ j, j ≠ k → ∀ o ∈ SveSt.objs ⟨m, nd, t, c⟩ j, o ∈ m'.live) :
    SveInv ⟨m', Function.update nd a n, Function.update t k v, c'⟩ := by
  have hself : Function.update t k v k = v := Function.update_self _ _ _
  have hother : ∀ j, j ≠ k → Function.update t k v j = t j := fun j hj =>
    Function.update_of_ne hj _ _
  have hobjs : ∀ j, j ≠ k → SveSt.objs ⟨m', Function.update nd a n, Function.update t k v, c'⟩ j
      = SveSt.objs ⟨m, nd, t, c⟩ j := by
    intro j hj
    cases htj : t j with
    | none =>
        rw [objs_none (s := ⟨m, nd, t, c⟩) htj]
        exact objs_none ((hother j hj).trans htj)
    | some b =>
        rw [objs_some (s := ⟨m, nd, t, c⟩) htj]
        apply (objs_some ((hother j hj).trans htj)).trans
        show nodeObjs b (Function.update nd a n b) = _
        rw [Function.update_of_ne (hne j b hj htj)]
  refine ⟨hmem, fun j o ho => ?_, fun i j hij o ho ho' => ?_, fun j b hj => ?_⟩
  · by_cases hj : j = k
    · subst hj
      exact (hnew o ho).1
    · rw [hobjs j hj] at ho
      exact hkept j hj o ho
  · by_cases hi : i = k
    · subst hi
      rw [hobjs j (Ne.symm hij)] at ho'
      exact (hnew o ho).2 j (Ne.symm hij) ho'
    · rw [hobjs i hi] at ho
      by_cases hj : j = k
      · subst hj
        exact (hnew o ho').2 i hi ho
      · rw [hobjs j hj] at ho'
        exact h.apart i j hij o ho ho'
  · change Function.update t k v j = some b at hj
    show NodeOk (Function.update nd a n b)
    by_cases hjk : j = k
    · subst hjk
      exact hnode b (hself.symm.trans hj)
    · rw [hother j hjk] at hj
      rw [Function.update_of_ne (hne j b hjk hj)]
      exact h.node j b hj

theorem SveInv.ne_tick (h : SveInv ⟨m, nd, t, c⟩) {j b : Nat} (hj : t j = some b) :
    b ≠ m.dev.tick :=
  Nat.ne_of_lt (h.lt_tick (self_mem_objs (s := ⟨m, nd, t, c⟩) hj))

/-- A handle more. -/
theorem SveInv.opened (h : SveInv ⟨m, nd, t, c⟩) (hmem : MemOk m')
    (hlive : ∀ o ∈ m.live, o ∈ m'.live) (hn : NodeOk n)
    (hnew : ∀ o ∈ nodeObjs m.dev.tick n, o ∈ m'.live ∧ m.dev.tick ≤ o.1) :
    SveInv ⟨m', Function.update nd m.dev.tick n, Function.update t k (some m.dev.tick), c'⟩ := by
  refine h.change _ (fun j b _ hj => h.ne_tick hj) hmem (fun b hb => ?_) (fun o ho => ?_)
    fun j _ o ho => hlive o (h.live j o ho)
  · cases hb
    rw [Function.update_self]
    exact hn
  · rw [objs_some (a := m.dev.tick) (Function.update_self _ _ _)] at ho
    change o ∈ nodeObjs _ (Function.update nd m.dev.tick n m.dev.tick) at ho
    rw [Function.update_self] at ho
    exact ⟨(hnew o ho).1, fun j _ ho' => absurd (h.lt_tick ho') (Nat.not_lt.mpr (hnew o ho).2)⟩

/-- A handle whose node changed, with the same objects. -/
theorem SveInv.wrote (h : SveInv ⟨m, nd, t, c⟩) (hk : t k = some a) (hmem : MemOk m')
    (hlive : m'.live = m.live) (hn : NodeOk n) (hobj : nodeObjs a n = nodeObjs a (nd a)) :
    SveInv ⟨m', Function.update nd a n, t, c'⟩ := by
  have hsame : Function.update t k (some a) = t := by rw [← hk, Function.update_eq_self]
  rw [← hsame]
  refine h.change _ (fun j b hj hb he => h.node_ne (s := ⟨m, nd, t, c⟩) hj hb hk he) hmem
    (fun b hb => ?_) (fun o ho => ?_) fun j _ o ho => ?_
  · cases hb
    rw [Function.update_self]
    exact hn
  · rw [objs_some (a := a) (Function.update_self _ _ _)] at ho
    change o ∈ nodeObjs a (Function.update nd a n a) at ho
    rw [Function.update_self, hobj, ← objs_some (s := ⟨m, nd, t, c⟩) hk] at ho
    rw [hlive]
    exact ⟨h.live k o ho, fun j hj => h.apart k j (Ne.symm hj) o ho⟩
  · rw [hlive]
    exact h.live j o ho

/-- A handle less, with its objects given back. -/
theorem SveInv.closed (h : SveInv ⟨m, nd, t, c⟩) (hk : t k = some a) (hmem : MemOk m')
    (hlive : ∀ o ∈ m.live, o ∉ nodeObjs a (nd a) → o ∈ m'.live) :
    SveInv ⟨m', Function.update nd a n, Function.update t k none, c'⟩ := by
  refine h.change none (fun j b hj hb he => h.node_ne (s := ⟨m, nd, t, c⟩) hj hb hk he) hmem
    (fun b hb => by cases hb) (fun o ho => ?_) fun j hj o ho => ?_
  · rw [objs_none (Function.update_self _ _ _)] at ho
    cases ho
  · apply hlive o (h.live j o ho)
    intro hmem'
    rw [← objs_some (s := ⟨m, nd, t, c⟩) hk] at hmem'
    exact h.apart j k hj o ho hmem'

/-- A call that leaves at most a node behind that is no handle's. -/
theorem SveInv.refused (h : SveInv ⟨m, nd, t, c⟩) (hmem : MemOk m') (hlive : m'.live = m.live) :
    SveInv ⟨m', Function.update nd m.dev.tick n, t, c'⟩ := by
  -- no handle changes; say that the first one does not
  have hsame : Function.update t 0 (t 0) = t := Function.update_eq_self _ _
  have hnode : ∀ b, t 0 = some b → Function.update nd m.dev.tick n b = nd b := fun b hb =>
    Function.update_of_ne (h.ne_tick hb) _ _
  rw [← hsame]
  refine h.change _ (fun j b _ hj => h.ne_tick hj) hmem (fun b hb => ?_) (fun o ho => ?_)
    fun j _ o ho => ?_
  · rw [hnode b hb]
    exact h.node 0 b hb
  · have ho0 : o ∈ SveSt.objs ⟨m, nd, t, c⟩ 0 := by
      rw [hsame] at ho
      cases ht : t 0 with
      | none =>
          rw [objs_none (s := ⟨m', _, t, c'⟩) ht] at ho
          cases ho
      | some b =>
          rw [objs_some (s := ⟨m', _, t, c'⟩) ht] at ho
          rw [objs_some (s := ⟨m, nd, t, c⟩) ht]
          change o ∈ nodeObjs b (Function.update nd m.dev.tick n b) at ho
          rwa [hnode b ht] at ho
    rw [hlive]
    exact ⟨h.live 0 o ho0, fun j hj => h.apart 0 j (Ne.symm hj) o ho0⟩
  · rw [hlive]
    exact h.live j o ho

theorem MemOk.after (h : MemOk m) (k : Nat) {os : List (Nat × Nat)}
    (hos : ∀ o ∈ os, o.1 < m.dev.tick + k) : MemOk (m.after k os) where
  fs := by
    obtain ⟨bmp, dir, hinv⟩ := h.fs
    exact ⟨bmp, dir, hinv.same ⟨rfl, rfl⟩⟩
  within := h.within.same ⟨rfl, rfl⟩
  old o ho := by
    rcases List.mem_append.mp ho with ho | ho
    · exact hos o ho
    · exact Nat.lt_of_lt_of_le (h.old o ho) (Nat.le_add_right _ _)

theorem MemOk.sub (h : MemOk m) {l : List (Nat × Nat)} (hl : ∀ o ∈ l, o ∈ m.live) :
    MemOk { m with live := l } :=
  ⟨h.fs, h.within, fun o ho => h.old o (hl o ho)⟩

/-- A file is stored. -/
theorem MemOk.put (h : MemOk m) {f : Filblk} {b : Nat} (hf : FileHd f.hd b)
    (hoff : f.hd.fmdCurfinwbkoff < fsysAlcblksz) : MemOk { m with dev := m.dev.put b (.fil f) } where
  fs := by
    obtain ⟨bmp, dir, hinv⟩ := h.fs
    exact ⟨bmp, dir, hinv.store hf⟩
  within := h.within.put b fun g hg => by
    cases hg
    exact hoff
  old := h.old

/-- A file is made, or not. -/
theorem MemOk.newFile (h : MemOk m) {fname : Nat → UInt8} {ok : Bool}
    (hrun : (Drivers.Bufs.rfsNewFile fname).run m = .ok (ok, m')) (hclean : Clean m m' ok) :
    MemOk m' := by
  obtain ⟨bmp, dir, hinv⟩ := h.fs
  have hold : ∀ o ∈ m'.live, o.1 < m'.dev.tick := fun o ho =>
    Nat.lt_of_lt_of_le (h.old o (hclean.1 ▸ ho)) hclean.2.1
  rcases Drivers.rfsNewFile_spec hinv fname m.dev _ m'.dev (Dev.Same.refl _)
    (erases_rfsNewFile fname m ok m' hrun) with
    ⟨_, hd | ⟨n, hn, hd⟩⟩ | ⟨_, fne, n, _, _, hinv', _, hd⟩
  · exact ⟨⟨bmp, dir, hinv.same hd⟩, h.within.same hd, hold⟩
  · exact ⟨⟨_, dir, (hinv.leak hn).same hd⟩, (h.within.put_other 1 (by simp)).same hd, hold⟩
  · exact ⟨⟨_, _, hinv'.same hd⟩, (h.within.withFile fne n).same hd, hold⟩

end Keep

/-! ## Opening -/

/-- An open returns, and one that fails left handles, live objects and blocks. -/
def Opens (s : SveSt) (x : SveM Hand) : Prop :=
  ∃ r s', x.run s = .ok (r, s') ∧ SveInv s' ∧ (r = noHand → s'.tdHandtbl = s.tdHandtbl ∧
    s'.mem.live = s.mem.live ∧ s'.mem.dev.disk = s.mem.dev.disk)

section Open

variable {m m' : FsMem} {nd : Nat → Objnode} {t : Nat → Option Nat} {c c' : Nat → Nat} {a i : Nat}
  {n : Objnode} {x : SveM Hand} {file : Nat → UInt8}

theorem opens_same {s : SveSt} (h : SveInv s) (hrun : x.run s = .ok (noHand, s)) : Opens s x :=
  ⟨noHand, s, hrun, h, fun _ => ⟨rfl, rfl, rfl⟩⟩

/-- There is no node for the file. -/
theorem opens_noNode (h : SveInv ⟨m, nd, t, c⟩)
    (hrun : x.run ⟨m, nd, t, c⟩ = .ok (noHand, ⟨m.after 1 [], nd, t, c⟩)) :
    Opens ⟨m, nd, t, c⟩ x := by
  refine ⟨_, _, hrun, ?_, fun _ => ⟨rfl, rfl, rfl⟩⟩
  have hinv : SveInv ⟨m.after 1 [], Function.update nd m.dev.tick (nd m.dev.tick), t, c⟩ :=
    h.refused (h.mem.after 1 (by simp)) rfl
  rwa [Function.update_eq_self] at hinv

/-- The node for the file was given back. -/
theorem opens_given (h : SveInv ⟨m, nd, t, c⟩) (hmem : MemOk m')
    (hlive : m'.live = (m.dev.tick, sizeofObjnode) :: m.live) (hdisk : m'.dev.disk = m.dev.disk)
    (hrun : ∃ n c', x.run ⟨m, nd, t, c⟩ = .ok (noHand,
      ⟨{ m' with live := m'.live.erase (m.dev.tick, sizeofObjnode) },
        Function.update nd m.dev.tick n, t, c'⟩)) : Opens ⟨m, nd, t, c⟩ x := by
  obtain ⟨n, c', hrun⟩ := hrun
  have hback : m'.live.erase (m.dev.tick, sizeofObjnode) = m.live := by
    rw [hlive, List.erase_cons_head]
  refine ⟨_, _, hrun, h.refused (hmem.sub fun o ho => List.mem_of_mem_erase ho) hback,
    fun _ => ⟨rfl, hback, hdisk⟩⟩

/-- The handle has the node. -/
theorem opens_hand (h : SveInv ⟨m, nd, t, c⟩) (hmem : MemOk m')
    (hlive : ∀ o ∈ m.live, o ∈ m'.live) (hn : NodeOk n)
    (hnew : ∀ o ∈ nodeObjs m.dev.tick n, o ∈ m'.live ∧ m.dev.tick ≤ o.1)
    (hrun : x.run ⟨m, nd, t, c⟩ = .ok ((i : Hand),
      ⟨m', Function.update nd m.dev.tick n, Function.update t i (some m.dev.tick), c'⟩)) :
    Opens ⟨m, nd, t, c⟩ x :=
  ⟨_, _, hrun, h.opened hmem hlive hn hnew, fun hno => absurd hno (natCast_ne_noHand i)⟩

/-- The node of a device that is to be opened. -/
def devNode (drv : Driver) : Objnode :=
  { objnodeInit with onOpercode := some .ioOpen, onObjtype := .dev, onObjadr := some drv.device }

/-- The driver opens a device, or not, and looks at no object. -/
theorem devOpen_run (nd : Nat → Objnode) (drv : Driver) (hn : n.onAcsflgs = 0) : ∃ ok c',
    (drvDipfun drv .ioOpen drv.device a).run ⟨m, Function.update nd a n, t, c⟩
      = .ok (ok, ⟨m, Function.update nd a n, t, c'⟩) ∧
    (ok = true → drv = .systick ∨ drv = .uart) := by
  cases drv with
  | systick =>
      obtain ⟨ok, c', hrun⟩ := incDevcount_run (m := m) (t := t) (c := c)
        (Function.update nd a n) Driver.systick.device
      refine ⟨true, c', ?_, fun _ => Or.inl rfl⟩
      show (systickOpen _).run _ = _
      unfold systickOpen
      rw [run_bind_ok hrun]
      rfl
  | uart =>
      obtain ⟨ok, c', hrun⟩ := incDevcount_run (m := m) (t := t) (c := c)
        (Function.update nd a n) Driver.uart.device
      exact ⟨ok, c', hrun, fun _ => Or.inr rfl⟩
  | rfs =>
      refine ⟨false, c, ?_, fun hok => by cases hok⟩
      show (rfsOpen a).run _ = _
      unfold rfsOpen
      rw [run_bind_ok getNode_run, if_neg (by rw [hn]; decide), if_neg (by rw [hn]; decide)]
      rfl

/-- The device's id in the first bytes of a name. -/
def fileDevid (file : Nat → UInt8) : Devid :=
  ⟨Lib.Bytes.rd64 file 0, Lib.Bytes.rd64 file 8, Lib.Bytes.rd64 file 16⟩

theorem opDevStep_none (hfound : krlonidflRetnDevice osdevtable (fileDevid file) didfilIdn = none) :
    (opDevStep file).run ⟨m, nd, t, c⟩ = .ok (noHand, ⟨m, nd, t, c⟩) := by
  unfold opDevStep fileDevid at *
  dsimp only
  rw [hfound]
  rfl

theorem opDevStep_noNode {devp : Device}
    (hfound : krlonidflRetnDevice osdevtable (fileDevid file) didfilIdn = some devp)
    (halc : m.dev.alc m.dev.tick = false) :
    (opDevStep file).run ⟨m, nd, t, c⟩ = .ok (noHand, ⟨m.after 1 [], nd, t, c⟩) := by
  unfold opDevStep fileDevid at *
  dsimp only
  rw [hfound]
  dsimp only
  rw [run_bind_ok (krlnewObjnode_none halc)]
  rfl

/-- The part behind `krlnew_objnode`. -/
theorem opDevStep_run {drv : Driver}
    (hfound : krlonidflRetnDevice osdevtable (fileDevid file) didfilIdn = some drv.device)
    (halc : m.dev.alc m.dev.tick = true) : (opDevStep file).run ⟨m, nd, t, c⟩ = StateT.run (do
        let rethd ← krlthdAddObjnode m.dev.tick
        if rethd = noHand then resStep m.dev.tick rethd
        else if ← krlsveOpenDevice m.dev.tick then return rethd
        else resStep m.dev.tick rethd)
      ⟨m.after 1 [(m.dev.tick, sizeofObjnode)], Function.update nd m.dev.tick (devNode drv), t, c⟩ := by
  unfold opDevStep fileDevid at *
  dsimp only
  rw [hfound]
  dsimp only
  rw [run_bind_ok (krlnewObjnode_some halc)]
  dsimp only
  rw [run_bind_ok getNode_run, run_bind_ok setNode_run]
  rfl

/-- The device of an id is opened, or nothing is changed. -/
theorem opDevStep_opens (h : SveInv ⟨m, nd, t, c⟩) : Opens ⟨m, nd, t, c⟩ (opDevStep file) := by
  cases hfound : krlonidflRetnDevice osdevtable (fileDevid file) didfilIdn with
  | none => exact opens_same h (opDevStep_none hfound)
  | some devp =>
    obtain ⟨drv, rfl⟩ := osdevtable_found hfound
    cases halc : m.dev.alc m.dev.tick with
    | false => exact opens_noNode h (opDevStep_noNode hfound halc)
    | true =>
      have hmem : MemOk (m.after 1 [(m.dev.tick, sizeofObjnode)]) := h.mem.after 1 (by simp)
      have hlive : (m.dev.tick, sizeofObjnode) ∈
          (m.after 1 [(m.dev.tick, sizeofObjnode)]).live := List.mem_cons_self
      cases hnull : nullHand t with
      | none =>
          refine opens_given h hmem rfl rfl ⟨devNode drv, c, ?_⟩
          rw [opDevStep_run hfound halc, run_bind_ok (krlthdAddObjnode_none hnull), if_pos rfl]
          exact resStep_noHand hlive
      | some i =>
          obtain ⟨hi, hfree⟩ := nullHand_some hnull
          obtain ⟨ok, c', hdev, hok⟩ := devOpen_run (m := m.after 1 [(m.dev.tick, sizeofObjnode)])
            (t := Function.update t i (some m.dev.tick)) (c := c) (a := m.dev.tick)
            (n := devNode drv) nd drv rfl
          have hsve :=
            (krlsveDevice_run (n := devNode drv) nd drv .ioOpen rfl rfl (Or.inl rfl)).trans hdev
          cases ok with
          | false =>
              refine opens_given h hmem rfl rfl ⟨devNode drv, c', ?_⟩
              rw [opDevStep_run hfound halc, run_bind_ok (krlthdAddObjnode_some hnull),
                if_neg (natCast_ne_noHand i), krlsveOpenDevice, run_bind_ok hsve,
                if_neg (by decide)]
              exact resStep_hand hi hfree hlive
          | true =>
              have hrun : (opDevStep file).run ⟨m, nd, t, c⟩ = .ok ((i : Hand),
                  ⟨m.after 1 [(m.dev.tick, sizeofObjnode)],
                    Function.update nd m.dev.tick (devNode drv),
                    Function.update t i (some m.dev.tick), c'⟩) := by
                rw [opDevStep_run hfound halc, run_bind_ok (krlthdAddObjnode_some hnull),
                  if_neg (natCast_ne_noHand i), krlsveOpenDevice, run_bind_ok hsve, if_pos rfl]
                rfl
              refine opens_hand h hmem (fun o ho => List.mem_cons_of_mem _ ho)
                (Or.inl ⟨rfl, rfl, ?_⟩) (fun o ho => ?_) hrun
              · rcases hok rfl with rfl | rfl
                · exact Or.inl rfl
                · exact Or.inr rfl
              · rcases mem_nodeObjs.mp ho with rfl | ⟨f, hf, _⟩
                · exact ⟨hlive, Nat.le_refl _⟩
                · cases hf

/-- The node of a file that is to be opened, or made. -/
def filNode (acsflgs : Nat) (file : Nat → UInt8) : Objnode :=
  { objnodeInit with
    onOpercode := some .ioOpen
    onObjtype := .fil
    onObjadr := some Driver.rfs.device
    onAcsflgs := acsflgs
    onFname := some file }

@[simp] theorem filNode_acsflgs (acsflgs : Nat) (file : Nat → UInt8) :
    (filNode acsflgs file).onAcsflgs = acsflgs := rfl

theorem opFilStep_noNode {flgs : Nat} (halc : m.dev.alc m.dev.tick = false) :
    (opFilStep file flgs).run ⟨m, nd, t, c⟩ = .ok (noHand, ⟨m.after 1 [], nd, t, c⟩) := by
  unfold opFilStep
  rw [osdevtable_rfs]
  dsimp only
  rw [run_bind_ok (krlnewObjnode_none halc)]
  rfl

/-- The part behind `krlnew_objnode`, for a new file. -/
theorem opFilStep_new {flgs : Nat} (hnf : rwoFlg flgs = nfFlg) (halc : m.dev.alc m.dev.tick = true) :
    (opFilStep file flgs).run ⟨m, nd, t, c⟩ = StateT.run (do
        if ← krlsveOpenDevice m.dev.tick then
          if ← krldelObjnode m.dev.tick then return (0 : Hand)
          else throw "NEWFILE api del objnode err"
        else resStep m.dev.tick noHand)
      ⟨m.after 1 [(m.dev.tick, sizeofObjnode)],
        Function.update nd m.dev.tick (filNode fsdevOpenflgNewfile file), t, c⟩ := by
  unfold opFilStep
  rw [osdevtable_rfs]
  dsimp only
  rw [run_bind_ok (krlnewObjnode_some halc)]
  dsimp only
  rw [run_bind_ok getNode_run, if_pos hnf, run_bind_ok setNode_run]
  rfl

/-- The part behind `krlnew_objnode`, for a file that is there. -/
theorem opFilStep_open {flgs : Nat} (hnf : rwoFlg flgs ≠ nfFlg)
    (halc : m.dev.alc m.dev.tick = true) :
    (opFilStep file flgs).run ⟨m, nd, t, c⟩ = StateT.run (do
        let rethd ← krlthdAddObjnode m.dev.tick
        if rethd = noHand then resStep m.dev.tick rethd
        else if ← krlsveOpenDevice m.dev.tick then return rethd
        else throw "open sve die^^^^^^")
      ⟨m.after 1 [(m.dev.tick, sizeofObjnode)],
        Function.update nd m.dev.tick (filNode fsdevOpenflgOpefile file), t, c⟩ := by
  unfold opFilStep
  rw [osdevtable_rfs]
  dsimp only
  rw [run_bind_ok (krlnewObjnode_some halc)]
  dsimp only
  rw [run_bind_ok getNode_run, if_neg hnf, run_bind_ok setNode_run]
  rfl

/-- The driver makes the file, or not. -/
theorem newFile_run {ok : Bool} (hrun : (Drivers.Bufs.rfsNewFile file).run m = .ok (ok, m')) :
    (krlsveOpenDevice a).run ⟨m, Function.update nd a (filNode fsdevOpenflgNewfile file), t, c⟩
      = .ok (ok, ⟨m', Function.update nd a (filNode fsdevOpenflgNewfile file), t, c⟩) := by
  have hdrv := krlsveDevice_run (m := m) (t := t) (c := c) (a := a)
    (n := filNode fsdevOpenflgNewfile file) nd .rfs .ioOpen rfl rfl (Or.inr rfl)
  apply hdrv.trans
  show (rfsOpen a).run _ = _
  unfold rfsOpen
  rw [run_bind_ok getNode_run, filNode_acsflgs, if_neg (by decide), if_pos rfl]
  exact onMem_run hrun

/-- The driver opens the file. -/
theorem openFile_run {fmdp : Nat × Filblk}
    (hrun : (Drivers.Bufs.rfsOpenfileblk file).run m = .ok (some fmdp, m')) :
    (krlsveOpenDevice a).run ⟨m, Function.update nd a (filNode fsdevOpenflgOpefile file), t, c⟩
      = .ok (true, ⟨m', Function.update nd a
        { filNode fsdevOpenflgOpefile file with onFinode := some fmdp }, t, c⟩) := by
  have hdrv := krlsveDevice_run (m := m) (t := t) (c := c) (a := a)
    (n := filNode fsdevOpenflgOpefile file) nd .rfs .ioOpen rfl rfl (Or.inr rfl)
  apply hdrv.trans
  show (rfsOpen a).run _ = _
  unfold rfsOpen rfsOpenFile
  rw [run_bind_ok getNode_run, filNode_acsflgs, if_pos rfl, run_bind_ok getNode_run]
  dsimp only [filNode]
  rw [run_bind_ok (onMem_run hrun)]
  dsimp only
  rw [run_bind_ok setNode_run]
  rfl

/-- The file system with the node of the file. -/
abbrev withNode (m : FsMem) : FsMem := m.after 1 [(m.dev.tick, sizeofObjnode)]

/-- A file is made, or nothing is changed. -/
theorem opFilStep_new_opens {flgs : Nat} (h : SveInv ⟨m, nd, t, c⟩) {bmp : Nat → UInt8}
    {dir : Dirblk} (hfs : RfsInv m.dev bmp dir) (hnf : rwoFlg flgs = nfFlg)
    (hsafe : m.dev.alc m.dev.tick = true → NewSafe (withNode m) bmp dir file) :
    Opens ⟨m, nd, t, c⟩ (opFilStep file flgs) := by
  cases halc : m.dev.alc m.dev.tick with
  | false => exact opens_noNode h (opFilStep_noNode halc)
  | true =>
    have hmem : MemOk (withNode m) := h.mem.after 1 (by simp)
    have hinv : RfsInv (withNode m).dev bmp dir := hfs.same ⟨rfl, rfl⟩
    obtain ⟨ok, m', hnew, hclean⟩ := rfsNewFile_run hinv file (hsafe halc)
    have hmem' := hmem.newFile hnew hclean
    have hlive : (m.dev.tick, sizeofObjnode) ∈ m'.live := by
      rw [hclean.1]
      exact List.mem_cons_self
    cases ok with
    | false =>
        refine opens_given h hmem' hclean.1 (hclean.2.2 rfl)
          ⟨filNode fsdevOpenflgNewfile file, c, ?_⟩
        rw [opFilStep_new hnf halc, run_bind_ok (newFile_run hnew), if_neg (by decide)]
        exact resStep_noHand hlive
    | true =>
        have hrun : (opFilStep file flgs).run ⟨m, nd, t, c⟩ = .ok ((0 : Hand),
            ⟨{ m' with live := m'.live.erase (m.dev.tick, sizeofObjnode) },
              Function.update nd m.dev.tick (filNode fsdevOpenflgNewfile file), t, c⟩) := by
          rw [opFilStep_new hnf halc, run_bind_ok (newFile_run hnew), if_pos rfl,
            run_bind_ok (krldelObjnode_run hlive), if_pos rfl]
          rfl
        refine ⟨_, _, hrun, h.refused (hmem'.sub fun o ho => List.mem_of_mem_erase ho) ?_,
          fun hno => absurd hno (by decide)⟩
        show m'.live.erase (m.dev.tick, sizeofObjnode) = m.live
        rw [hclean.1]
        exact List.erase_cons_head ..

/-- A file is opened, or nothing is changed. -/
theorem opFilStep_open_opens {flgs : Nat} (h : SveInv ⟨m, nd, t, c⟩) {bmp : Nat → UInt8}
    {dir : Dirblk} (hfs : RfsInv m.dev bmp dir) (hnf : rwoFlg flgs ≠ nfFlg)
    (hsafe : m.dev.alc m.dev.tick = true → (nullHand t).isSome → OpenOk (withNode m) dir file) :
    Opens ⟨m, nd, t, c⟩ (opFilStep file flgs) := by
  cases halc : m.dev.alc m.dev.tick with
  | false => exact opens_noNode h (opFilStep_noNode halc)
  | true =>
    have hmem : MemOk (withNode m) := h.mem.after 1 (by simp)
    have hinv : RfsInv (withNode m).dev bmp dir := hfs.same ⟨rfl, rfl⟩
    cases hnull : nullHand t with
    | none =>
        refine opens_given h hmem rfl rfl ⟨filNode fsdevOpenflgOpefile file, c, ?_⟩
        rw [opFilStep_open hnf halc, run_bind_ok (krlthdAddObjnode_none hnull), if_pos rfl]
        exact resStep_noHand List.mem_cons_self
    | some i =>
        obtain ⟨f, b, hf, hblk, hopen⟩ := rfsOpenfileblk_run hinv
          (hsafe halc (by rw [hnull]; rfl))
        have hrun : (opFilStep file flgs).run ⟨m, nd, t, c⟩ = .ok ((i : Hand),
            ⟨(withNode m).after 4 [((withNode m).dev.tick + 3, fsysAlcblksz)],
              Function.update nd m.dev.tick { filNode fsdevOpenflgOpefile file with
                onFinode := some ((withNode m).dev.tick + 3, f) },
              Function.update t i (some m.dev.tick), c⟩) := by
          rw [opFilStep_open hnf halc, run_bind_ok (krlthdAddObjnode_some hnull),
            if_neg (natCast_ne_noHand i), run_bind_ok (openFile_run hopen), if_pos rfl]
          rfl
        refine opens_hand h (hmem.after 4 (by simp)) (fun o ho => ?_)
          (Or.inr ⟨rfl, rfl, _, f, b, rfl, hf, h.mem.within b f hblk⟩) (fun o ho => ?_) hrun
        · exact List.mem_append_right _ (List.mem_append_right _ ho)
        · rcases mem_nodeObjs.mp ho with rfl | ⟨g, hg, rfl⟩
          · exact ⟨List.mem_append_right _ List.mem_cons_self, Nat.le_refl _⟩
          · cases hg
            refine ⟨List.mem_cons_self, ?_⟩
            show m.dev.tick ≤ m.dev.tick + 1 + 3
            omega

end Open

/-! ## Writing and closing -/

/-- A call returns, and keeps the invariant. -/
def Returns (s : SveSt) (x : SveM Hand) : Prop := ∃ r s', x.run s = .ok (r, s') ∧ SveInv s'

/-- A buffer is not longer than the addresses a thread has. -/
def SveOp.Readable : SveOp → Prop
  | .wrt _ (some _) len _ => len ≤ 2 ^ 47
  | _ => True

/-- **A call that cannot go wrong**: an open of a file whose node it gets is of a new name with
room for it and with the buffers for its bitmap and its entry, or it finds the file and gets its
buffers, or there is no handle for it; and a write to the console is of a text that it prints. -/
def SveSafe (s : SveSt) : SveOp → Prop
  | .opn (some file) flgs =>
      fileTy flgs = fileTyFile → s.mem.dev.alc s.mem.dev.tick = true →
        match s.mem.dev.disk 1, s.mem.dev.disk 2 with
        | .bmp bmp, .dir dir =>
            if rwoFlg flgs = nfFlg then NewSafe (withNode s.mem) bmp dir file
            else (nullHand s.tdHandtbl).isSome → OpenOk (withNode s.mem) dir file
        | _, _ => True
  | .wrt fhand (some buf) len _ => ∀ i a : Nat, fhand = (i : Hand) → i < tdHandMax → len ≠ 0 →
      s.tdHandtbl i = some a → (s.node a).onObjadr = some Driver.uart.device → UartText buf len
  | _ => True

section Write

variable {m m' : FsMem} {nd : Nat → Objnode} {t : Nat → Option Nat} {c c' : Nat → Nat} {a i : Nat}
  {n : Objnode} {s : SveSt}

theorem returns_same {x : SveM Hand} {r : Hand} (h : SveInv s) (hrun : x.run s = .ok (r, s)) :
    Returns s x :=
  ⟨r, s, hrun, h⟩

/-- The node with a request to write. -/
def Objnode.toWrite (n : Objnode) (buf : Nat → UInt8) (len flgs : Nat) : Objnode :=
  { n with
    onOpercode := some .ioWrite
    onBuf := some buf
    onLen := len
    onBufsz := 0x1000
    onAcsflgs := flgs }

/-- The part behind the look-up of the handle. -/
theorem krlsveCoreWrite_run (hi : i < tdHandMax) (ha : t i = some a)
    (hn : NodeOk (nd a)) (buf : Nat → UInt8) (len flgs : Nat) :
    (krlsveCoreWrite (i : Hand) buf len flgs).run ⟨m, nd, t, c⟩ = StateT.run (do
        if ← krlsveWriteDevice a then return sysstusok else return sysstuserr)
      ⟨m, Function.update nd a ((nd a).toWrite buf len flgs), t, c⟩ := by
  have hty : (nd a).onObjtype = .dev ∨ (nd a).onObjtype = .fil := by
    rcases hn with ⟨hty, -⟩ | ⟨hty, -⟩
    · exact Or.inl hty
    · exact Or.inr hty
  unfold krlsveCoreWrite
  rw [run_bind_ok (krlthdRetnObjnode_run hi _)]
  show StateT.run (match t i with
    | none => _
    | some onp => _) _ = _
  rw [ha]
  dsimp only
  rw [run_bind_ok (show (getNode a).run ⟨m, nd, t, c⟩ = .ok (nd a, ⟨m, nd, t, c⟩) from rfl),
    if_pos hty]
  rfl

/-- The driver writes to a file, or not, and the node keeps its buffer. -/
theorem rfsWrite_run (nd : Nat → Objnode) {fb : Nat} {f : Filblk} {b : Nat} (h : MemOk m)
    (hf : FileHd f.hd b) (hoff : f.hd.fmdCurfinwbkoff < fsysAlcblksz) {buf : Nat → UInt8}
    (hlen : n.onLen ≤ 2 ^ 47) (hbuf : n.onBuf = some buf) (hsz : n.onBufsz = fsysAlcblksz)
    (hfin : n.onFinode = some (fb, f)) :
    ∃ ok m' f', (rfsWrite a).run ⟨m, Function.update nd a n, t, c⟩
        = .ok (ok, ⟨m', Function.update nd a { n with onFinode := some (fb, f') }, t, c⟩) ∧
      MemOk m' ∧ m'.live = m.live ∧ FileHd f'.hd b ∧ f'.hd.fmdCurfinwbkoff < fsysAlcblksz := by
  obtain ⟨bmp, dir, hinv⟩ := h.fs
  have hword : f.hd.fmdCurfinwbkoff + n.onLen < Cosmos.Lib.Word64.wordMod := by
    have hblk : fsysAlcblksz = 4096 := rfl
    have hmod : Cosmos.Lib.Word64.wordMod = 0x10000000000000000 := rfl
    omega
  have hrun : ∀ r d', (rfsWritefileblk f buf n.onLen).run m.dev = .ok (r, d') →
      (rfsWrite a).run ⟨m, Function.update nd a n, t, c⟩ = .ok (r.2, ⟨{ m with dev := d' },
        Function.update nd a { n with onFinode := some (fb, r.1) }, t, c⟩) := by
    intro r d' hr
    have hdev : (onDev (rfsWritefileblk f buf n.onLen)).run m = .ok (r, { m with dev := d' }) := by
      show ((rfsWritefileblk f buf n.onLen).run m.dev).map _ = _
      rw [hr]
      rfl
    unfold rfsWrite
    rw [run_bind_ok getNode_run, hfin, hbuf]
    dsimp only
    rw [if_neg (not_not.mpr hsz), run_bind_ok (onMem_run hdev), run_bind_ok setNode_run]
    rfl
  rcases rfsWritefileblk_total hinv.msize hf buf hword with hw | ⟨hlt, hw⟩
  · exact ⟨false, _, f, hrun _ _ hw, h, rfl, hf, hoff⟩
  · exact ⟨true, _, _, hrun _ _ hw, h.put (hf.append _ _) hlt, rfl, hf.append _ _, hlt⟩

/-- The driver prints. -/
theorem uartWrite_run (nd : Nat → Objnode) {buf : Nat → UInt8} (hbuf : n.onBuf = some buf)
    (htext : UartText buf n.onLen) :
    (uartWrite a).run ⟨m, Function.update nd a n, t, c⟩
      = .ok (true, ⟨m, Function.update nd a n, t, c⟩) := by
  obtain ⟨out, hout⟩ := htext.prints
  unfold uartWrite
  rw [run_bind_ok getNode_run, hbuf, Option.map_some, hout]
  rfl

/-- **`krlsve_write`** returns. -/
theorem krlsveWrite_returns (h : SveInv ⟨m, nd, t, c⟩) {fhand : Hand}
    {buf : Option (Nat → UInt8)} {len flgs : Nat}
    (hread : (SveOp.wrt fhand buf len flgs).Readable)
    (hsafe : SveSafe ⟨m, nd, t, c⟩ (.wrt fhand buf len flgs)) :
    Returns ⟨m, nd, t, c⟩ (krlsveWrite fhand buf len flgs) := by
  unfold krlsveWrite
  cases buf with
  | none => exact returns_same h rfl
  | some buf =>
    dsimp only
    split
    · exact returns_same h rfl
    rename_i hin
    obtain ⟨i, hi, rfl⟩ := hand_of_in (fun hle => hin (Or.inl hle))
      fun hle => hin (Or.inr (Or.inl hle))
    cases ha : t i with
    | none =>
        refine returns_same (r := sysstuserr) h ?_
        unfold krlsveCoreWrite
        rw [run_bind_ok (krlthdRetnObjnode_run hi _)]
        show StateT.run (match t i with
          | none => _
          | some onp => _) _ = _
        rw [ha]
        rfl
    | some a =>
      have hn := h.node i a ha
      rcases hn with ⟨hty, hfin, hadr⟩ | ⟨hty, hadr, fb, f, b, hfin, hf, hoff⟩
      · -- a device: the request is in the node, and nothing else happened
        have hinv : SveInv ⟨m, Function.update nd a ((nd a).toWrite buf len flgs), t, c⟩ :=
          h.wrote ha h.mem rfl (Or.inl ⟨hty, hfin, hadr⟩) rfl
        rcases hadr with hadr | hadr
        · have hsve := krlsveDevice_run (m := m) (t := t) (c := c) (a := a)
            (n := (nd a).toWrite buf len flgs) nd .systick .ioWrite hadr rfl (Or.inl hty)
          refine ⟨sysstuserr, _, ?_, hinv⟩
          rw [krlsveCoreWrite_run hi ha (h.node i a ha), krlsveWriteDevice, run_bind_ok hsve]
          rfl
        · have hsve := krlsveDevice_run (m := m) (t := t) (c := c) (a := a)
            (n := (nd a).toWrite buf len flgs) nd .uart .ioWrite hadr rfl (Or.inl hty)
          have hprint := uartWrite_run (m := m) (t := t) (c := c) (a := a)
            (n := (nd a).toWrite buf len flgs) nd rfl
            (hsafe i a rfl hi (fun h0 => hin (Or.inr (Or.inr h0))) ha hadr)
          refine ⟨sysstusok, _, ?_, hinv⟩
          rw [krlsveCoreWrite_run hi ha (h.node i a ha), krlsveWriteDevice,
            run_bind_ok (hsve.trans hprint)]
          rfl
      · have hsve := krlsveDevice_run (m := m) (t := t) (c := c) (a := a)
          (n := (nd a).toWrite buf len flgs) nd .rfs .ioWrite hadr rfl (Or.inr hty)
        obtain ⟨ok, m', f', hw, hmem, hlive, hf', hoff'⟩ := rfsWrite_run (t := t) (c := c)
          (a := a) (n := (nd a).toWrite buf len flgs) nd h.mem hf hoff hread rfl rfl hfin
        have hinv : SveInv ⟨m', Function.update nd a { (nd a).toWrite buf len flgs with
            onFinode := some (fb, f') }, t, c⟩ := by
          refine h.wrote ha hmem hlive (Or.inr ⟨hty, hadr, fb, f', b, rfl, hf', hoff'⟩) ?_
          unfold nodeObjs
          rw [hfin]
          rfl
        refine ⟨if ok then sysstusok else sysstuserr, _, ?_, hinv⟩
        rw [krlsveCoreWrite_run hi ha (h.node i a ha), krlsveWriteDevice,
          run_bind_ok (hsve.trans hw)]
        cases ok <;> rfl

/-- A handle that is not in use, or not one. -/
theorem krlsveClose_none (hi : i < tdHandMax) (ha : t i = none) :
    (krlsveCoreClose (i : Hand)).run ⟨m, nd, t, c⟩ = .ok (sysstuserr, ⟨m, nd, t, c⟩) := by
  unfold krlsveCoreClose
  rw [run_bind_ok (krlthdRetnObjnode_run hi _)]
  show StateT.run (match t i with
    | none => _
    | some ondp => _) _ = _
  rw [ha]
  rfl

/-- The node with a request to close. -/
def Objnode.toClose (n : Objnode) : Objnode := { n with onOpercode := some .ioClose }

/-- The part behind the look-up of the handle. -/
theorem krlsveCoreClose_run (hi : i < tdHandMax) (ha : t i = some a) (hn : NodeOk (nd a)) :
    (krlsveCoreClose (i : Hand)).run ⟨m, nd, t, c⟩ = StateT.run (do
        if ← krlsveCloseDevice a then
          if (← krlthdDelObjnode (i : Hand)) = noHand then
            throw "close api td del objnode err"
          else if ← krldelObjnode a then return sysstusok
          else throw "close api del objnode err"
        else return sysstuserr)
      ⟨m, Function.update nd a (nd a).toClose, t, c⟩ := by
  have hty : (nd a).onObjtype = .dev ∨ (nd a).onObjtype = .fil := by
    rcases hn with ⟨hty, -⟩ | ⟨hty, -⟩
    · exact Or.inl hty
    · exact Or.inr hty
  unfold krlsveCoreClose
  rw [run_bind_ok (krlthdRetnObjnode_run hi _)]
  show StateT.run (match t i with
    | none => _
    | some ondp => _) _ = _
  rw [ha]
  dsimp only
  rw [run_bind_ok (show (getNode a).run ⟨m, nd, t, c⟩ = .ok (nd a, ⟨m, nd, t, c⟩) from rfl),
    if_pos hty]
  rfl

/-- The driver closed: the handle and the node go. -/
theorem krlsveCoreClose_done (hi : i < tdHandMax) (ha : t i = some a) (hn : NodeOk (nd a))
    (hlive : (a, sizeofObjnode) ∈ m'.live)
    (hdrv : (krlsveCloseDevice a).run ⟨m, Function.update nd a (nd a).toClose, t, c⟩
      = .ok (true, ⟨m', Function.update nd a (nd a).toClose, t, c'⟩)) :
    (krlsveCoreClose (i : Hand)).run ⟨m, nd, t, c⟩ = .ok (sysstusok,
      ⟨{ m' with live := m'.live.erase (a, sizeofObjnode) },
        Function.update nd a (nd a).toClose, Function.update t i none, c'⟩) := by
  rw [krlsveCoreClose_run hi ha hn, run_bind_ok hdrv, if_pos rfl,
    run_bind_ok (krlthdDelObjnode_run hi ha), if_neg (natCast_ne_noHand i),
    run_bind_ok (krldelObjnode_run hlive), if_pos rfl]
  rfl

/-- The driver closes a device, or not, and looks at no object. -/
theorem devClose_run (nd : Nat → Objnode) {drv : Driver} (hdrv : drv = .systick ∨ drv = .uart) :
    ∃ ok c', (drvDipfun drv .ioClose drv.device a).run ⟨m, nd, t, c⟩
      = .ok (ok, ⟨m, nd, t, c'⟩) := by
  obtain ⟨ok, c', hrun⟩ := decDevcount_run (m := m) (t := t) (c := c) nd drv.device
  rcases hdrv with rfl | rfl
  · refine ⟨true, c', ?_⟩
    show (systickClose _).run _ = _
    unfold systickClose
    rw [run_bind_ok hrun]
    rfl
  · exact ⟨ok, c', hrun⟩

/-- **`krlsve_close`** returns. -/
theorem krlsveClose_returns (h : SveInv ⟨m, nd, t, c⟩) (fhand : Hand) :
    Returns ⟨m, nd, t, c⟩ (krlsveClose fhand) := by
  unfold krlsveClose
  split
  · exact returns_same h rfl
  rename_i hin
  obtain ⟨i, hi, rfl⟩ := hand_of_in
    (fun hle => hin (Or.inl (Int.lt_of_le_of_lt hle (by decide)))) fun hle => hin (Or.inr hle)
  cases ha : t i with
  | none => exact returns_same h (krlsveClose_none hi ha)
  | some a =>
    have hobjs : SveSt.objs ⟨m, nd, t, c⟩ i = nodeObjs a (nd a) := objs_some ha
    have hself : (a, sizeofObjnode) ∈ m.live := h.live i _ (self_mem_objs ha)
    have hn := h.node i a ha
    rcases hn with ⟨hty, hfin, hadr⟩ | ⟨hty, hadr, fb, f, b, hfin, hf, hoff⟩
    · obtain ⟨drv, hdrv, hadr⟩ : ∃ drv : Driver, (drv = .systick ∨ drv = .uart) ∧
          (nd a).onObjadr = some drv.device := by
        rcases hadr with hadr | hadr
        · exact ⟨_, Or.inl rfl, hadr⟩
        · exact ⟨_, Or.inr rfl, hadr⟩
      obtain ⟨ok, c', hclose⟩ := devClose_run (m := m) (t := t) (c := c) (a := a)
        (Function.update nd a (nd a).toClose) hdrv
      have hsve := (krlsveDevice_run (n := (nd a).toClose) nd drv .ioClose hadr rfl
        (Or.inl hty)).trans hclose
      cases ok with
      | false =>
          refine ⟨sysstuserr, ⟨m, Function.update nd a (nd a).toClose, t, c'⟩, ?_,
            h.wrote ha h.mem rfl (Or.inl ⟨hty, hfin, ?_⟩) rfl⟩
          · rw [krlsveCoreClose_run hi ha (h.node i a ha), krlsveCloseDevice, run_bind_ok hsve]
            rfl
          · rcases hdrv with rfl | rfl
            · exact Or.inl hadr
            · exact Or.inr hadr
      | true =>
          refine ⟨_, _, krlsveCoreClose_done hi ha (h.node i a ha) hself hsve,
            h.closed ha (h.mem.sub fun o ho => List.mem_of_mem_erase ho) fun o ho hno => ?_⟩
          refine (List.mem_erase_of_ne ?_).mpr ho
          rintro rfl
          exact hno (mem_nodeObjs.mpr (Or.inl rfl))
    · obtain ⟨bmp, dir, hfs⟩ := h.mem.fs
      have hbuf : (fb, fsysAlcblksz) ∈ m.live := by
        apply h.live i _
        rw [hobjs]
        exact mem_nodeObjs.mpr (Or.inr ⟨_, hfin, rfl⟩)
      have hclose : (rfsClose a).run ⟨m, Function.update nd a (nd a).toClose, t, c⟩
          = .ok (true, ⟨⟨m.dev.put b (.fil f), m.live.erase (fb, fsysAlcblksz)⟩,
            Function.update nd a (nd a).toClose, t, c⟩) := by
        unfold rfsClose
        rw [run_bind_ok getNode_run,
          show (nd a).toClose.onFinode = some (fb, f) from hfin]
        exact onMem_run (rfsClosefileblk_run hfs hf hbuf)
      have hsve := (krlsveDevice_run (n := (nd a).toClose) nd .rfs .ioClose hadr rfl
        (Or.inr hty)).trans hclose
      have hself' : (a, sizeofObjnode) ∈ m.live.erase (fb, fsysAlcblksz) := by
        refine (List.mem_erase_of_ne ?_).mpr hself
        rw [ne_eq, Prod.mk.injEq]
        exact fun hc => absurd hc.2 (by decide)
      refine ⟨_, _, krlsveCoreClose_done hi ha (h.node i a ha) hself' hsve,
        h.closed ha ((h.mem.put hf hoff).sub fun o ho => ?_) fun o ho hno => ?_⟩
      · exact List.mem_of_mem_erase (List.mem_of_mem_erase ho)
      · refine (List.mem_erase_of_ne ?_).mpr ((List.mem_erase_of_ne ?_).mpr ho)
        · rintro rfl
          exact hno (mem_nodeObjs.mpr (Or.inl rfl))
        · rintro rfl
          exact hno (mem_nodeObjs.mpr (Or.inr ⟨_, hfin, rfl⟩))

end Write

/-! ## Any calls -/

/-- A call does not stop the kernel, and an open that fails leaves the handles, the live objects
and the blocks as they are. -/
def Survives (s : SveSt) (op : SveOp) : Prop :=
  ∃ r s', (sveCall op).run s = .ok (r, s') ∧ ∀ file flgs, op = .opn file flgs →
    r = noHand ∨ r = sysstuserr → s'.tdHandtbl = s.tdHandtbl ∧ s'.mem.live = s.mem.live ∧
      s'.mem.dev.disk = s.mem.dev.disk

/-- **`krlsve_open`** opens, or changes nothing. -/
theorem krlsveOpen_opens {s : SveSt} (h : SveInv s) {file : Option (Nat → UInt8)} {flgs : Nat}
    (hsafe : SveSafe s (.opn file flgs)) : Opens s (krlsveOpen file flgs) := by
  cases file with
  | none => exact opens_same h rfl
  | some file =>
    unfold krlsveOpen krlsveCoreOpen
    dsimp only
    split
    · exact opDevStep_opens h
    split
    · rename_i hfil
      obtain ⟨bmp, dir, hfs⟩ := h.mem.fs
      have hsafe' := hsafe hfil
      rw [hfs.bmpblk, hfs.dirblk] at hsafe'
      by_cases hnf : rwoFlg flgs = nfFlg
      · exact opFilStep_new_opens h hfs hnf fun halc => (if_pos hnf).mp (hsafe' halc)
      · exact opFilStep_open_opens h hfs hnf fun halc => (if_neg hnf).mp (hsafe' halc)
    · exact opens_same h rfl

/-- **One call**. -/
theorem sveCall_spec {s : SveSt} {op : SveOp} (h : SveInv s) (hsafe : SveSafe s op)
    (hread : op.Readable) : Survives s op ∧ ∃ s', sveStep s op = .ok s' ∧ SveInv s' := by
  have hstep : ∀ r s', (sveCall op).run s = .ok (r, s') → sveStep s op = .ok s' := by
    intro r s' hrun
    unfold sveStep
    rw [hrun]
    rfl
  cases op with
  | opn file flgs =>
      obtain ⟨r, s', hrun, hinv, hsame⟩ := krlsveOpen_opens h hsafe
      refine ⟨⟨r, s', hrun, fun _ _ _ hr => hsame ?_⟩, s', hstep r s' hrun, hinv⟩
      rcases hr with hr | hr
      · exact hr
      · exact hr
  | wrt fhand buf len flgs =>
      obtain ⟨r, s', hrun, hinv⟩ := krlsveWrite_returns h hread hsafe
      exact ⟨⟨r, s', hrun, fun _ _ hop => by cases hop⟩, s', hstep r s' hrun, hinv⟩
  | cls fhand =>
      obtain ⟨r, s', hrun, hinv⟩ := krlsveClose_returns h fhand
      exact ⟨⟨r, s', hrun, fun _ _ hop => by cases hop⟩, s', hstep r s' hrun, hinv⟩

/-- A thread without handles, on a file system. -/
def SveSt.start (dev : Dev) (live : List (Nat × Nat)) (node : Nat → Objnode)
    (devCount : Nat → Nat) : SveSt where
  mem := ⟨dev, live⟩
  node := node
  tdHandtbl := fun _ => none
  devCount := devCount

instance (m : FsMem) (n : Nat) : Decidable (m.AllAlc n) :=
  inferInstanceAs (Decidable (∀ i < n, m.dev.alc (m.dev.tick + i) = true))

/-- A test for `NewSafe`. -/
def newSafe (m : FsMem) (dir : Dirblk) (fname : Nat → UInt8) : Bool :=
  match Drivers.rfsRetFname fname with
  | none => true
  | some _ => m.AllAlc 10 ∧ dir.hd.fmdCurfinwbkoff < fsysAlcblksz

theorem newSafe_safe {m : FsMem} {bmp : Nat → UInt8} {dir : Dirblk} {fname : Nat → UInt8}
    (h : newSafe m dir fname = true) : NewSafe m bmp dir fname := by
  intro fne hname _ _ _ _
  unfold newSafe at h
  rw [hname] at h
  obtain ⟨hall, hroom⟩ := of_decide_eq_true h
  exact ⟨hall.mono (by decide), fun _ => ⟨hall, hroom⟩⟩

/-- A test for `OpenOk`. -/
def openOk (m : FsMem) (dir : Dirblk) (fname : Nat → UInt8) : Bool :=
  match Drivers.rfsRetFname fname with
  | none => false
  | some fne => (Drivers.findEnt dir fne).isSome ∧ m.AllAlc 4

theorem openOk_ok {m : FsMem} {dir : Dirblk} {fname : Nat → UInt8}
    (h : openOk m dir fname = true) : OpenOk m dir fname := by
  unfold openOk at h
  split at h
  · cases h
  · rename_i fne hname
    exact ⟨fne, hname, of_decide_eq_true h⟩

/-- A test for `SveSafe`. -/
def sveSafe (s : SveSt) : SveOp → Bool
  | .opn (some file) flgs => fileTy flgs ≠ fileTyFile ||
      match s.mem.dev.disk 1, s.mem.dev.disk 2 with
      | .bmp _, .dir dir =>
          if rwoFlg flgs = nfFlg then newSafe (withNode s.mem) dir file
          else openOk (withNode s.mem) dir file
      | _, _ => false
  | .wrt _ (some buf) len _ => uartText buf len
  | _ => true

theorem sveSafe_safe (s : SveSt) (op : SveOp) (h : sveSafe s op = true) : SveSafe s op := by
  cases op with
  | cls fhand => trivial
  | wrt fhand buf len flgs =>
    cases buf with
    | none => trivial
    | some buf => exact fun _ _ _ _ _ _ _ => uartText_text h
  | opn file flgs =>
    cases file with
    | none => trivial
    | some file =>
      unfold sveSafe at h
      rw [Bool.or_eq_true] at h
      intro hfil _
      have hfile := h.resolve_left fun hne => of_decide_eq_true hne hfil
      split at hfile
      · by_cases hnf : rwoFlg flgs = nfFlg
        · rw [if_pos hnf] at hfile
          exact (if_pos hnf).mpr (newSafe_safe hfile)
        · rw [if_neg hnf] at hfile
          exact (if_neg hnf).mpr fun _ => openOk_ok hfile
      · cases hfile

/-- Right after `rfs_fmat`. -/
def sveFmat (d : Dev) : SveSt := SveSt.start d [] (fun _ => objnodeInit) fun _ => 0

/-- The text `"ok"`, and the number of the console's device. -/
def okText : Nat → UInt8 := fun i => [111, 107].getD i 0

def uartDevid : Nat → UInt8 := fun i => if i = 0 then 15 else 0

/-- A file and the console are opened, written and closed. -/
def openBoth : List SveOp :=
  [.opn (some pathA) 0x40, .opn (some pathA) 0, .opn (some uartDevid) 1, .wrt 1 (some okText) 3 0,
    .wrt 0 (some okText) 3 0, .cls 1, .cls 0]

instance (op : SveOp) : Decidable op.Readable :=
  match op with
  | .wrt _ (some _) len _ => inferInstanceAs (Decidable (len ≤ 2 ^ 47))
  | .wrt _ none _ _ | .opn _ _ | .cls _ => .isTrue trivial

end Cosmos.Kernel
