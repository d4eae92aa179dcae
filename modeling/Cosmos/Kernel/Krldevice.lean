import Cosmos.Lib.Run
import Mathlib.Algebra.BigOperators.Group.Finset.Piecewise
import Mathlib.Data.List.Nodup

/-!
# The device table

`krldevice.c`: `krlnew_device` files a device under its id, and `krlnew_devid` picks a
number for the id of a device that is to be filed.  The pick is meant to be the number
after the greatest one in the list of the class, but `devidnr++` gives the greatest one
itself.  So it collides as soon as a device with that number has the same subtype.

Devices are only filed, never taken out, so a sequence of calls is a list of the devices
that `krlnew_device` gets; `krlnew_devid` does not change the table.

## Main results

* `devid_fresh_iff` : ids in the table are pairwise different, counters count, lookups find,
  and when a picked id is fresh.
* `devid_not_fresh` : one that is not.
-/

namespace Cosmos.Kernel

open Cosmos.Lib.Run

/-- `DEVICE_MAX`: how many classes there are. -/
def deviceMax : Nat := 34

/-- `DIDFIL_IDN`: look up by id. -/
def didfilIdn : Nat := 1

/-- `drvstus_t`. -/
inductive Drvstus where
  | dfcOkStus
  | dfcErrStus
deriving DecidableEq, Repr

/-- `devid_t`. -/
structure Devid where
  devMtype : Nat
  devStype : Nat
  devNr : Nat
deriving DecidableEq, Repr

/-- `device_t`, at `adr`. -/
structure Device where
  adr : Nat
  devId : Devid
  devDrv : Option Nat
deriving DecidableEq, Repr

/-- `devtlst_t`: the devices of a class. -/
structure Devtlst where
  dtlType : Nat
  dtlNr : Nat
  dtlList : List Device

/-- `devtable_t`; there are `deviceMax` classes. -/
structure Devtable where
  devtDevlist : List Device
  devtDevnr : Nat
  devtDevclsl : Nat → Devtlst

/-- `devtlst_t_init`. -/
def devtlstInit (dtype : Nat) : Devtlst where
  dtlType := dtype
  dtlNr := 0
  dtlList := []

/-- `devtable_t_init`. -/
def devtableInit : Devtable where
  devtDevlist := []
  devtDevnr := 0
  devtDevclsl := devtlstInit

/-- `krlcmp_devid`. -/
def krlcmpDevid (sdidp cdidp : Devid) : Bool :=
  if sdidp.devMtype ≠ cdidp.devMtype then false
  else if sdidp.devStype ≠ cdidp.devStype then false
  else if sdidp.devNr ≠ cdidp.devNr then false
  else true

/-- The loop of `krlnew_devid`: the greatest number in the list. -/
def greatestNr (devidnr : Nat) : List Device → Nat
  | [] => devidnr
  | findevp :: l =>
      if devidnr < findevp.devId.devNr then greatestNr findevp.devId.devNr l
      else greatestNr devidnr l

/-- `krlnew_devid`, with the id that it leaves in `devid`. -/
def krlnewDevid (dtbp : Devtable) (devid : Devid) : Drvstus × Devid :=
  let cls := dtbp.devtDevclsl devid.devMtype
  if deviceMax ≤ devid.devMtype then (.dfcErrStus, devid)
  else if devid.devMtype ≠ cls.dtlType then (.dfcErrStus, devid)
  else if cls.dtlList.isEmpty then (.dfcOkStus, { devid with devNr := 0 })
  -- the value of `devidnr++` is that from before
  else (.dfcOkStus, { devid with devNr := greatestNr 0 cls.dtlList })

/-- The table with a device more. -/
def Devtable.file (dtbp : Devtable) (devp : Device) : Devtable where
  devtDevlist := devp :: dtbp.devtDevlist
  devtDevnr := dtbp.devtDevnr + 1
  devtDevclsl := Function.update dtbp.devtDevclsl devp.devId.devMtype
    { dtbp.devtDevclsl devp.devId.devMtype with
      dtlNr := (dtbp.devtDevclsl devp.devId.devMtype).dtlNr + 1
      dtlList := devp :: (dtbp.devtDevclsl devp.devId.devMtype).dtlList }

/-- `krlnew_device`. -/
def krlnewDevice (dtbp : Devtable) (devp : Device) : Drvstus × Devtable :=
  let cls := dtbp.devtDevclsl devp.devId.devMtype
  if devp.devDrv = none then (.dfcErrStus, dtbp)
  else if deviceMax ≤ devp.devId.devMtype then (.dfcErrStus, dtbp)
  else if devp.devId.devMtype ≠ cls.dtlType then (.dfcErrStus, dtbp)
  else if cls.dtlList.any fun findevp => krlcmpDevid devp.devId findevp.devId then
    (.dfcErrStus, dtbp)
  else (.dfcOkStus, dtbp.file devp)

/-- `driver_t`, at `adr`, with its devices. -/
structure DriverT where
  adr : Nat
  drvAlldevlist : List Device
deriving DecidableEq, Repr

/-- `krldev_add_driver`: the device and the driver it leaves. -/
def krldevAddDriver (devp : Device) (drvp : DriverT) : Drvstus × Device × DriverT :=
  if drvp.drvAlldevlist.any fun fdevp => krlcmpDevid devp.devId fdevp.devId then
    (.dfcErrStus, devp, drvp)
  else
    let devp := { devp with devDrv := some drvp.adr }
    (.dfcOkStus, devp, { drvp with drvAlldevlist := devp :: drvp.drvAlldevlist })

/-- `krlonidfl_retn_device`. -/
def krlonidflRetnDevice (dtbp : Devtable) (didp : Devid) (flgs : Nat) : Option Device :=
  let cls := dtbp.devtDevclsl didp.devMtype
  if flgs ≠ didfilIdn then none
  else if deviceMax ≤ didp.devMtype then none
  else if didp.devMtype ≠ cls.dtlType then none
  else cls.dtlList.find? fun findevp => krlcmpDevid didp findevp.devId

/-- One call of `krlnew_device`. -/
def deviceStep (dtbp : Devtable) (devp : Device) : Except String Devtable :=
  .ok (krlnewDevice dtbp devp).2

/-! ## The table -/

section Table

variable {t t' : Devtable} {id id' : Devid} {d : Device} {l : List Device} {n : Nat}

@[simp] theorem krlcmpDevid_iff : krlcmpDevid id id' = true ↔ id = id' := by
  obtain ⟨mty, sty, nr⟩ := id
  obtain ⟨mty', sty', nr'⟩ := id'
  unfold krlcmpDevid
  split_ifs <;> simp_all

/-- The devices of a class are those of the table that have its type, and there is no other
account. -/
structure TableInv (t : Devtable) : Prop where
  devnr : t.devtDevnr = t.devtDevlist.length
  type : ∀ m, (t.devtDevclsl m).dtlType = m
  nr : ∀ m, (t.devtDevclsl m).dtlNr = (t.devtDevclsl m).dtlList.length
  list : ∀ m, (t.devtDevclsl m).dtlList = t.devtDevlist.filter fun d => d.devId.devMtype = m
  below : ∀ d ∈ t.devtDevlist, d.devId.devMtype < deviceMax
  nodup : (t.devtDevlist.map Device.devId).Nodup

theorem devtableInit_inv : TableInv devtableInit where
  devnr := rfl
  type _ := rfl
  nr _ := rfl
  list _ := rfl
  below _ hd := absurd hd List.not_mem_nil
  nodup := List.nodup_nil

theorem TableInv.mem_class (h : TableInv t) {m : Nat} :
    d ∈ (t.devtDevclsl m).dtlList ↔ d ∈ t.devtDevlist ∧ d.devId.devMtype = m := by
  rw [h.list, List.mem_filter, decide_eq_true_iff]

/-- The class has a device with the id if the table has. -/
theorem TableInv.any_iff (h : TableInv t) :
    ((t.devtDevclsl id.devMtype).dtlList.any fun d => krlcmpDevid id d.devId) = true ↔
      id ∈ t.devtDevlist.map Device.devId := by
  rw [List.any_eq_true, List.mem_map]
  constructor
  · rintro ⟨d, hd, hid⟩
    exact ⟨d, (h.mem_class.mp hd).1, (krlcmpDevid_iff.mp hid).symm⟩
  · rintro ⟨d, hd, rfl⟩
    exact ⟨d, h.mem_class.mpr ⟨hd, rfl⟩, krlcmpDevid_iff.mpr rfl⟩

/-- A device is filed exactly when it has a driver, a class, and an id of its own. -/
theorem TableInv.krlnewDevice_cases (h : TableInv t) (d : Device) :
    (krlnewDevice t d = (.dfcOkStus, t.file d) ∧ d.devDrv ≠ none ∧ d.devId.devMtype < deviceMax ∧
      d.devId ∉ t.devtDevlist.map Device.devId) ∨
    (krlnewDevice t d = (.dfcErrStus, t) ∧ ¬ (d.devDrv ≠ none ∧ d.devId.devMtype < deviceMax ∧
      d.devId ∉ t.devtDevlist.map Device.devId)) := by
  unfold krlnewDevice
  by_cases hdrv : d.devDrv = none
  · rw [if_pos hdrv]
    exact Or.inr ⟨rfl, fun hc => hc.1 hdrv⟩
  rw [if_neg hdrv]
  by_cases hmax : deviceMax ≤ d.devId.devMtype
  · rw [if_pos hmax]
    exact Or.inr ⟨rfl, fun hc => absurd hc.2.1 (Nat.not_lt.mpr hmax)⟩
  rw [if_neg hmax, if_neg (not_not.mpr (h.type d.devId.devMtype).symm)]
  by_cases hany : ((t.devtDevclsl d.devId.devMtype).dtlList.any
      fun d' => krlcmpDevid d.devId d'.devId) = true
  · rw [if_pos hany]
    exact Or.inr ⟨rfl, fun hc => hc.2.2 (h.any_iff.mp hany)⟩
  · rw [if_neg hany]
    exact Or.inl ⟨rfl, hdrv, Nat.lt_of_not_le hmax, fun hm => hany (h.any_iff.mpr hm)⟩

theorem TableInv.file (h : TableInv t) (hmax : d.devId.devMtype < deviceMax)
    (hnew : d.devId ∉ t.devtDevlist.map Device.devId) : TableInv (t.file d) where
  devnr := congrArg (· + 1) h.devnr
  type m := by
    show (Function.update t.devtDevclsl d.devId.devMtype _ m).dtlType = m
    by_cases hm : m = d.devId.devMtype
    · subst hm
      rw [Function.update_self]
      exact h.type _
    · rw [Function.update_of_ne hm]
      exact h.type m
  nr m := by
    show (Function.update t.devtDevclsl d.devId.devMtype _ m).dtlNr =
      (Function.update t.devtDevclsl d.devId.devMtype _ m).dtlList.length
    by_cases hm : m = d.devId.devMtype
    · subst hm
      rw [Function.update_self]
      exact congrArg (· + 1) (h.nr _)
    · rw [Function.update_of_ne hm]
      exact h.nr m
  list m := by
    show (Function.update t.devtDevclsl d.devId.devMtype _ m).dtlList =
      (d :: t.devtDevlist).filter _
    by_cases hm : m = d.devId.devMtype
    · subst hm
      rw [Function.update_self, List.filter_cons, if_pos (decide_eq_true rfl)]
      exact congrArg (d :: ·) (h.list _)
    · rw [Function.update_of_ne hm, List.filter_cons, if_neg (by simpa using Ne.symm hm)]
      exact h.list m
  below d' hd' := by
    rcases List.mem_cons.mp hd' with rfl | hd'
    · exact hmax
    · exact h.below d' hd'
  nodup := List.nodup_cons.mpr ⟨hnew, h.nodup⟩

/-- **`krlnew_device`** keeps the table in order. -/
theorem deviceStep_inv (t : Devtable) (d : Device) (t' : Devtable) (h : TableInv t)
    (hstep : deviceStep t d = .ok t') : TableInv t' := by
  cases hstep
  rcases h.krlnewDevice_cases d with ⟨hrun, -, hmax, hnew⟩ | ⟨hrun, -⟩
  · rw [hrun]
    exact h.file hmax hnew
  · rw [hrun]
    exact h

/-- Each device is counted in one class. -/
theorem length_eq_sum (hl : ∀ d ∈ l, d.devId.devMtype < n) :
    l.length = ∑ m ∈ Finset.range n, (l.filter fun d => d.devId.devMtype = m).length := by
  induction l with
  | nil => simp
  | cons d l ih =>
      have hd := hl d List.mem_cons_self
      have hcons : ∀ m, ((d :: l).filter fun d => d.devId.devMtype = m).length =
          (if d.devId.devMtype = m then 1 else 0) +
            (l.filter fun d => d.devId.devMtype = m).length := by
        intro m
        by_cases hm : d.devId.devMtype = m
        · rw [List.filter_cons, if_pos (decide_eq_true hm), if_pos hm, List.length_cons,
            Nat.add_comm]
        · rw [List.filter_cons, if_neg (by simpa using hm), if_neg hm, Nat.zero_add]
      rw [Finset.sum_congr rfl fun m _ => hcons m, Finset.sum_add_distrib,
        ← ih fun d' hd' => hl d' (List.mem_cons_of_mem d hd'), Finset.sum_ite_eq,
        if_pos (Finset.mem_range.mpr hd), List.length_cons, Nat.add_comm]

/-- What the table is for: ids are pairwise different, classes and the table count their
devices, and every id in the table is found. -/
structure TableOk (t : Devtable) : Prop where
  ids : (t.devtDevlist.map Device.devId).Nodup
  class_iff : ∀ m d, d ∈ (t.devtDevclsl m).dtlList ↔ d ∈ t.devtDevlist ∧ d.devId.devMtype = m
  dtlNr : ∀ m, (t.devtDevclsl m).dtlNr = (t.devtDevclsl m).dtlList.length
  devnr : t.devtDevnr = ∑ m ∈ Finset.range deviceMax, (t.devtDevclsl m).dtlNr
  found : ∀ d ∈ t.devtDevlist, krlonidflRetnDevice t d.devId didfilIdn = some d

theorem TableInv.found (h : TableInv t) (hd : d ∈ t.devtDevlist) :
    krlonidflRetnDevice t d.devId didfilIdn = some d := by
  unfold krlonidflRetnDevice
  rw [if_neg (not_not.mpr rfl), if_neg (Nat.not_le.mpr (h.below d hd)),
    if_neg (not_not.mpr (h.type _).symm)]
  have hsome : ((t.devtDevclsl d.devId.devMtype).dtlList.find?
      fun d' => krlcmpDevid d.devId d'.devId).isSome := by
    rw [List.find?_isSome]
    exact ⟨d, h.mem_class.mpr ⟨hd, rfl⟩, krlcmpDevid_iff.mpr rfl⟩
  obtain ⟨d', hd'⟩ := Option.isSome_iff_exists.mp hsome
  have hp := List.find?_some hd'
  have hid : d.devId = d'.devId := krlcmpDevid_iff.mp hp
  have hm' := (h.mem_class.mp (List.mem_of_find?_eq_some hd')).1
  rw [hd', List.inj_on_of_nodup_map h.nodup hm' hd hid.symm]

theorem TableInv.ok (h : TableInv t) : TableOk t where
  ids := h.nodup
  class_iff _ _ := h.mem_class
  dtlNr := h.nr
  devnr := by
    rw [h.devnr, length_eq_sum h.below]
    exact Finset.sum_congr rfl fun m _ => by rw [h.nr, h.list]
  found _ hd := h.found hd

end Table

/-! ## Fresh ids -/

section Fresh

variable {t : Devtable} {id : Devid} {l : List Device} {n : Nat}

theorem greatestNr_spec (n : Nat) (l : List Device) :
    (∀ d ∈ l, d.devId.devNr ≤ greatestNr n l) ∧ n ≤ greatestNr n l ∧
      (greatestNr n l = n ∨ ∃ d ∈ l, d.devId.devNr = greatestNr n l) := by
  induction l generalizing n with
  | nil => exact ⟨fun d hd => absurd hd List.not_mem_nil, Nat.le_refl n, Or.inl rfl⟩
  | cons d l ih =>
      by_cases hlt : n < d.devId.devNr
      · obtain ⟨hle, hn, hmax⟩ := ih d.devId.devNr
        rw [greatestNr, if_pos hlt]
        refine ⟨fun d' hd' => ?_, Nat.le_trans (Nat.le_of_lt hlt) hn, Or.inr ?_⟩
        · rcases List.mem_cons.mp hd' with rfl | hd'
          · exact hn
          · exact hle d' hd'
        · rcases hmax with hmax | ⟨d', hd', he⟩
          · exact ⟨d, List.mem_cons_self, hmax.symm⟩
          · exact ⟨d', List.mem_cons_of_mem d hd', he⟩
      · obtain ⟨hle, hn, hmax⟩ := ih n
        rw [greatestNr, if_neg hlt]
        refine ⟨fun d' hd' => ?_, hn, hmax.imp_right ?_⟩
        · rcases List.mem_cons.mp hd' with rfl | hd'
          · exact Nat.le_trans (Nat.le_of_not_lt hlt) hn
          · exact hle d' hd'
        · rintro ⟨d', hd', he⟩
          exact ⟨d', List.mem_cons_of_mem d hd', he⟩

/-- A picked id is that of no device in the table, and a device with a driver is filed
under it. -/
def PicksFresh (t : Devtable) (id : Devid) : Prop :=
  ∀ id', krlnewDevid t id = (.dfcOkStus, id') → (∀ d ∈ t.devtDevlist, d.devId ≠ id') ∧
    ∀ d : Device, d.devId = id' → d.devDrv ≠ none → (krlnewDevice t d).1 = .dfcOkStus

/-- A device of the class with the greatest number there has the subtype. -/
def TopTaken (t : Devtable) (id : Devid) : Prop :=
  ∃ d ∈ t.devtDevlist, d.devId.devMtype = id.devMtype ∧ d.devId.devStype = id.devStype ∧
    ∀ d' ∈ t.devtDevlist, d'.devId.devMtype = id.devMtype → d'.devId.devNr ≤ d.devId.devNr

theorem TableInv.picksFresh_of_not_mem (h : TableInv t) {id' : Devid}
    (hpick : krlnewDevid t id = (.dfcOkStus, id')) (hmax : id'.devMtype < deviceMax) :
    PicksFresh t id ↔ ∀ d ∈ t.devtDevlist, d.devId ≠ id' := by
  refine ⟨fun hp => (hp id' hpick).1, fun hnew id'' hpick' => ?_⟩
  rw [hpick] at hpick'
  cases hpick'
  refine ⟨hnew, fun d hd hdrv => ?_⟩
  rcases h.krlnewDevice_cases d with ⟨hrun, -⟩ | ⟨-, hno⟩
  · rw [hrun]
  · refine absurd ⟨hdrv, hd ▸ hmax, fun hm => ?_⟩ hno
    obtain ⟨d', hd', he⟩ := List.mem_map.mp hm
    exact hnew d' hd' (he.trans hd)

theorem TableInv.picksFresh_iff (h : TableInv t) (id : Devid) :
    PicksFresh t id ↔ ¬ TopTaken t id := by
  by_cases hmax : deviceMax ≤ id.devMtype
  · -- there is no such class
    have herr : krlnewDevid t id = (.dfcErrStus, id) := if_pos hmax
    refine iff_of_true (fun id' hid' => ?_) ?_
    · rw [herr] at hid'
      cases hid'
    · rintro ⟨d, hd, hmty, -⟩
      exact absurd (h.below d hd) (by omega)
  have hrun : krlnewDevid t id =
      if (t.devtDevclsl id.devMtype).dtlList.isEmpty then (.dfcOkStus, { id with devNr := 0 })
      else (.dfcOkStus,
        { id with devNr := greatestNr 0 (t.devtDevclsl id.devMtype).dtlList }) := by
    unfold krlnewDevid
    rw [if_neg hmax, if_neg (not_not.mpr (h.type _).symm)]
  by_cases hnil : (t.devtDevclsl id.devMtype).dtlList = []
  · rw [hnil, List.isEmpty_nil, if_pos rfl] at hrun
    have hno : ∀ d ∈ t.devtDevlist, d.devId.devMtype ≠ id.devMtype := by
      intro d hd hmty
      have hm := h.mem_class.mpr ⟨hd, hmty⟩
      rw [hnil] at hm
      cases hm
    rw [h.picksFresh_of_not_mem hrun (Nat.lt_of_not_le hmax)]
    refine iff_of_true (fun d hd he => hno d hd (by rw [he])) ?_
    rintro ⟨d, hd, hmty, -⟩
    exact hno d hd hmty
  · rw [if_neg (by simpa using hnil)] at hrun
    rw [h.picksFresh_of_not_mem hrun (Nat.lt_of_not_le hmax)]
    obtain ⟨hle, -, htop⟩ := greatestNr_spec 0 (t.devtDevclsl id.devMtype).dtlList
    constructor
    · rintro hnew ⟨d, hd, hmty, hsty, hgreatest⟩
      have hnr : d.devId.devNr = greatestNr 0 (t.devtDevclsl id.devMtype).dtlList := by
        refine Nat.le_antisymm (hle d (h.mem_class.mpr ⟨hd, hmty⟩)) ?_
        rcases htop with h0 | ⟨d', hd', he⟩
        · omega
        · obtain ⟨hd', hmty'⟩ := h.mem_class.mp hd'
          have := hgreatest d' hd' hmty'
          omega
      refine hnew d hd ?_
      rw [← hnr, ← hmty, ← hsty]
    · intro hno d hd he
      have hmty : d.devId.devMtype = id.devMtype := by rw [he]
      refine hno ⟨d, hd, hmty, by rw [he], fun d' hd' hmty' => ?_⟩
      have hnr : d.devId.devNr = greatestNr 0 (t.devtDevclsl id.devMtype).dtlList := by rw [he]
      rw [hnr]
      exact hle d' (h.mem_class.mpr ⟨hd', hmty'⟩)

/-- **The table is in order, and a picked id is fresh exactly when** no device of the class
with the greatest number there has the subtype, in every state that calls lead to. -/
theorem devid_fresh_iff (ops : List Device) {t : Devtable}
    (hrun : run deviceStep ops devtableInit = .ok t) :
    TableOk t ∧ ∀ id, PicksFresh t id ↔ ¬ TopTaken t id := by
  have hinv := run_inv TableInv deviceStep_inv ops devtableInit t devtableInit_inv hrun
  exact ⟨hinv.ok, hinv.picksFresh_iff⟩

/-- Two devices of one class, with the numbers 0 and 1. -/
def twoUarts : List Device :=
  [⟨0x1000, ⟨15, 0, 0⟩, some 0x8000⟩, ⟨0x2000, ⟨15, 1, 1⟩, some 0x8000⟩]

theorem devid_fresh_iff_twoUarts : ∃ t : Devtable, PicksFresh t ⟨15, 0, 0⟩ ∧ TableOk t := by
  obtain ⟨t, hrun, ht⟩ := exists_of_okAnd (q := fun t : Devtable =>
    t.devtDevlist.map Device.devId = [⟨15, 1, 1⟩, ⟨15, 0, 0⟩])
    (show okAnd (run deviceStep twoUarts devtableInit) _ = true by decide)
  obtain ⟨hok, hfresh⟩ := devid_fresh_iff twoUarts hrun
  refine ⟨t, (hfresh _).mpr ?_, hok⟩
  have hids := of_decide_eq_true ht
  have hof : ∀ id, id ∈ [⟨15, 1, 1⟩, (⟨15, 0, 0⟩ : Devid)] → ∃ d ∈ t.devtDevlist, d.devId = id :=
    fun id hid => List.mem_map.mp (hids ▸ hid)
  rintro ⟨d, hd, -, hsty, hgreatest⟩
  have hmem : d.devId ∈ [⟨15, 1, 1⟩, (⟨15, 0, 0⟩ : Devid)] := hids ▸ List.mem_map_of_mem hd
  obtain ⟨d', hd', he'⟩ := hof ⟨15, 1, 1⟩ List.mem_cons_self
  have hle := hgreatest d' hd' (by rw [he'])
  rw [he'] at hle
  simp only [List.mem_cons, List.not_mem_nil, or_false] at hmem
  rcases hmem with he | he
  · rw [he] at hsty
    cases hsty
  · rw [he] at hle
    cases hle

/-- The second device of a class and subtype gets the id of the first one. -/
theorem devid_not_fresh : ¬ ∀ (ops : List Device) (t : Devtable) (id : Devid),
    run deviceStep ops devtableInit = .ok t → PicksFresh t id := by
  intro hall
  have hpick := hall [⟨0x1000, ⟨15, 0, 0⟩, some 0x8000⟩] _ ⟨15, 0, 0⟩ rfl ⟨15, 0, 0⟩ (by decide)
  exact hpick.1 ⟨0x1000, ⟨15, 0, 0⟩, some 0x8000⟩ List.mem_cons_self rfl

end Fresh

end Cosmos.Kernel
