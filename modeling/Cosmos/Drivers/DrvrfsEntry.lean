import Cosmos.Kernel.Krldevice
import Cosmos.Lib.Supply

/-!
# Loading the file system driver

`rfs_entry` up to the formatting: three objects are asked for, a device descriptor, the block
that holds the file system and a record for it, and the descriptor is linked to the driver and
to the device table.  Every error exit gives back the descriptor and nothing else.

The dispatch functions and the names that `rfs_set_driver` and `rfs_set_device` store are
left out, as nothing here reads them.  `krlnew` is a supply of addresses; which requests it
serves is up to it, and giving back an object that was handed out does not fail.

## Main results

* `rfsEntry_allOrNothing_iff`: an error leaves everything as it was exactly if it came before
  anything but the descriptor was obtained.
-/

namespace Cosmos.Drivers

open Cosmos.Kernel Cosmos.Lib

/-- `FILESYS_DEVICE`. -/
def filesysDevice : Nat := 30

/-- What `rfs_entry` finds: the kernel objects, the driver it is given, if any, and the device
table. -/
structure EntrySt where
  krl : Supply Nat
  drvp : Option DriverT
  table : Devtable

/-- `rfs_set_device`, on the descriptor that `device_t_init` has cleared. -/
def rfsSetDevice (adr : Nat) : Device where
  adr := adr
  devId := ⟨filesysDevice, 0, 0⟩
  devDrv := none

/-- `new_rfsdevext_mmblk`: block and record, and the status. -/
def newRfsdevextMmblk (u : Supply Nat) : Drvstus × Supply Nat :=
  let (blkp, u) := u.take
  let (rfsexp, u) := u.take
  if blkp = none ∨ rfsexp = none then (.dfcErrStus, u) else (.dfcOkStus, u)

/-- `del_device_dsc`. -/
def delDeviceDsc (u : Supply Nat) (devp : Nat) : Supply Nat := (u.give devp).getD u

/-- `rfs_entry` up to `init_rfs`. -/
def rfsEntry (s : EntrySt) : Drvstus × EntrySt :=
  match s.drvp with
  | none => (.dfcErrStus, s)
  | some drvp =>
      match s.krl.take with
      | (none, u) => (.dfcErrStus, { s with krl := u })
      | (some devp, u) =>
          match newRfsdevextMmblk u with
          | (.dfcErrStus, u) => (.dfcErrStus, { s with krl := delDeviceDsc u devp })
          | (.dfcOkStus, u) =>
              match krldevAddDriver (rfsSetDevice devp) drvp with
              | (.dfcErrStus, _, drvp) =>
                  (.dfcErrStus, { s with krl := delDeviceDsc u devp, drvp := some drvp })
              | (.dfcOkStus, dev, drvp) =>
                  match krlnewDevice s.table dev with
                  | (.dfcErrStus, table) =>
                      (.dfcErrStus, ⟨delDeviceDsc u devp, some drvp, table⟩)
                  | (.dfcOkStus, table) => (.dfcOkStus, ⟨u, some drvp, table⟩)

/-! ## All or nothing -/

/-- The descriptors in the list of the driver, the table and its classes. -/
def EntrySt.Linked (s : EntrySt) (a : Nat) : Prop :=
  (∃ drvp, s.drvp = some drvp ∧ ∃ d ∈ drvp.drvAlldevlist, d.adr = a) ∨
    (∃ d ∈ s.table.devtDevlist, d.adr = a) ∨
    ∃ m, ∃ d ∈ (s.table.devtDevclsl m).dtlList, d.adr = a

/-- A descriptor is linked that is not live. -/
def EntrySt.Dangling (s : EntrySt) (a : Nat) : Prop := s.Linked a ∧ a ∉ s.krl.out

/-- If the driver is not loaded, no freed descriptor is linked that was not before, and the
live objects are the same. -/
def AllOrNothing (s : EntrySt) : Prop :=
  (rfsEntry s).1 = .dfcErrStus →
    (∀ a, (rfsEntry s).2.Dangling a → s.Dangling a) ∧
      (rfsEntry s).2.krl.out.Perm s.krl.out

/-- The id of the file system is free with the driver and in the table. -/
def IdFree (s : EntrySt) : Prop :=
  (∀ drvp, s.drvp = some drvp → ∀ d ∈ drvp.drvAlldevlist, d.devId ≠ ⟨filesysDevice, 0, 0⟩) ∧
    (s.table.devtDevclsl filesysDevice).dtlType = filesysDevice ∧
    ∀ d ∈ (s.table.devtDevclsl filesysDevice).dtlList, d.devId ≠ ⟨filesysDevice, 0, 0⟩

/-- Loading fails, if at all, before anything but the descriptor is obtained: without a driver,
without a descriptor, or with neither block nor record.  Or it gets through. -/
def EntryOk (s : EntrySt) : Prop :=
  s.drvp = none ∨ s.krl.take.1 = none ∨
    (s.krl.take.2.take.1 = none ∧ s.krl.take.2.take.2.take.1 = none) ∨
    (s.krl.Grants 3 ∧ IdFree s)

section Entry

variable {s : EntrySt} {u : Supply Nat} {drvp : DriverT} {devp : Nat}

/-- The descriptor is given back. -/
theorem delDeviceDsc_out (h : devp ∈ u.out) : (delDeviceDsc u devp).out = u.out.erase devp := by
  obtain ⟨u', hu, hout⟩ := Supply.give_of_mem h
  rw [delDeviceDsc, hu]
  exact hout

/-- Block and record: how many of them were obtained when the call fails. -/
theorem newRfsdevextMmblk_cases (u : Supply Nat) :
    (u.take.1 = none ∧ u.take.2.take.1 = none ∧
        (newRfsdevextMmblk u).1 = .dfcErrStus ∧ (newRfsdevextMmblk u).2.out = u.out) ∨
      (¬ (u.take.1 = none ∧ u.take.2.take.1 = none) ∧ ¬ u.Grants 2 ∧
        (newRfsdevextMmblk u).1 = .dfcErrStus ∧
        ∃ x, x ∉ u.out ∧ (newRfsdevextMmblk u).2.out = x :: u.out) ∨
      (u.Grants 2 ∧ (newRfsdevextMmblk u).1 = .dfcOkStus ∧
        ∃ x y, x ∉ u.out ∧ y ∉ x :: u.out ∧ (newRfsdevextMmblk u).2.out = y :: x :: u.out) := by
  have hrun : newRfsdevextMmblk u = if u.take.1 = none ∨ u.take.2.take.1 = none then
      (.dfcErrStus, u.take.2.take.2) else (.dfcOkStus, u.take.2.take.2) := rfl
  have hgrants : u.Grants 2 ↔ u.take.1 ≠ none ∧ u.take.2.take.1 ≠ none ∧ True := Iff.rfl
  rw [hrun, hgrants]
  rcases u.take_cases with ⟨h1, hout1⟩ | ⟨x, h1, hx, hout1⟩
  · rcases u.take.2.take_cases with ⟨h2, hout2⟩ | ⟨y, h2, hy, hout2⟩
    · rw [if_pos (Or.inl h1)]
      exact .inl ⟨h1, h2, rfl, hout2.trans hout1⟩
    · rw [if_pos (Or.inl h1)]
      refine .inr (.inl ⟨fun hboth => ?_, fun hg => hg.1 h1, rfl, y, hout1 ▸ hy, ?_⟩)
      · rw [h2] at hboth
        cases hboth.2
      · rw [← hout1]
        exact hout2
  · rcases u.take.2.take_cases with ⟨h2, hout2⟩ | ⟨y, h2, hy, hout2⟩
    · rw [if_pos (Or.inr h2)]
      refine .inr (.inl ⟨fun hboth => ?_, fun hg => hg.2.1 h2, rfl, x, hx, hout2.trans hout1⟩)
      rw [h1] at hboth
      cases hboth.1
    · have hboth : ¬ (u.take.1 = none ∨ u.take.2.take.1 = none) := by
        rw [h1, h2]
        simp
      rw [if_neg hboth]
      refine .inr (.inr ⟨⟨by rw [h1]; simp, by rw [h2]; simp, trivial⟩, rfl, x, y, hx, ?_, ?_⟩)
      · rw [← hout1]
        exact hy
      · rw [← hout1]
        exact hout2

/-- The driver takes a device exactly if its id is free there. -/
theorem krldevAddDriver_cases (dev : Device) (drvp : DriverT) :
    ((∃ d ∈ drvp.drvAlldevlist, d.devId = dev.devId) ∧
        krldevAddDriver dev drvp = (.dfcErrStus, dev, drvp)) ∨
      (∀ d ∈ drvp.drvAlldevlist, d.devId ≠ dev.devId) ∧ ∃ drvp',
        krldevAddDriver dev drvp = (.dfcOkStus, { dev with devDrv := some drvp.adr }, drvp') := by
  unfold krldevAddDriver
  split
  · rename_i hany
    obtain ⟨d, hd, hid⟩ := List.any_eq_true.mp hany
    exact .inl ⟨⟨d, hd, (krlcmpDevid_iff.mp hid).symm⟩, rfl⟩
  · rename_i hany
    refine .inr ⟨fun d hd he => hany (List.any_eq_true.mpr ⟨d, hd, ?_⟩), _, rfl⟩
    exact krlcmpDevid_iff.mpr he.symm

/-- The table takes a device of a driver exactly if its class is there and its id is free. -/
theorem krlnewDevice_cases (table : Devtable) (devp drv : Nat) :
    ((table.devtDevclsl filesysDevice).dtlType = filesysDevice ∧
        (∀ d ∈ (table.devtDevclsl filesysDevice).dtlList, d.devId ≠ ⟨filesysDevice, 0, 0⟩) ∧
        (krlnewDevice table { rfsSetDevice devp with devDrv := some drv }).1 = .dfcOkStus) ∨
      (¬ ((table.devtDevclsl filesysDevice).dtlType = filesysDevice ∧
        ∀ d ∈ (table.devtDevclsl filesysDevice).dtlList, d.devId ≠ ⟨filesysDevice, 0, 0⟩) ∧
        krlnewDevice table { rfsSetDevice devp with devDrv := some drv } =
          (.dfcErrStus, table)) := by
  have hmax : ¬ deviceMax ≤ filesysDevice := by decide
  have hid : ({ rfsSetDevice devp with devDrv := some drv } : Device).devId =
    ⟨filesysDevice, 0, 0⟩ := rfl
  have hmt : ({ rfsSetDevice devp with devDrv := some drv } : Device).devId.devMtype =
    filesysDevice := rfl
  unfold krlnewDevice
  rw [hmt, hid, if_neg (by simp), if_neg hmax]
  by_cases hty : filesysDevice ≠ (table.devtDevclsl filesysDevice).dtlType
  · rw [if_pos hty]
    exact .inr ⟨fun hc => hty hc.1.symm, rfl⟩
  · rw [if_neg hty]
    split
    · rename_i hany
      obtain ⟨d, hd, he⟩ := List.any_eq_true.mp hany
      exact .inr ⟨fun hc => hc.2 d hd (krlcmpDevid_iff.mp he).symm, rfl⟩
    · rename_i hany
      refine .inl ⟨(not_not.mp hty).symm, fun d hd he => ?_, rfl⟩
      exact hany (List.any_eq_true.mpr ⟨d, hd, krlcmpDevid_iff.mpr he.symm⟩)

/-- With the descriptor, block and record in hand, one of the two lists refuses it or both
take it. -/
theorem rfsEntry_served (hdrv : s.drvp = some drvp) (htake : s.krl.take = (some devp, u))
    (hnew : (newRfsdevextMmblk u).1 = .dfcOkStus) :
    (¬ IdFree s ∧ (rfsEntry s).1 = .dfcErrStus ∧
        (rfsEntry s).2.krl = delDeviceDsc (newRfsdevextMmblk u).2 devp) ∨
      (IdFree s ∧ (rfsEntry s).1 = .dfcOkStus) := by
  obtain ⟨u', hu'⟩ : ∃ u', newRfsdevextMmblk u = (.dfcOkStus, u') := ⟨_, Prod.ext hnew rfl⟩
  rcases krldevAddDriver_cases (rfsSetDevice devp) drvp with ⟨⟨d, hd, hid⟩, hadd⟩ |
    ⟨hfree, drvp', hadd⟩
  · refine .inl ⟨fun hc => hc.1 drvp hdrv d hd hid, ?_⟩
    simp only [rfsEntry, hdrv, htake, hu', hadd]
    exact ⟨trivial, trivial⟩
  · rcases krlnewDevice_cases s.table devp drvp.adr with ⟨hty, hcls, hok⟩ | ⟨hnot, hfail⟩
    · refine .inr ⟨⟨fun drvq hdrvq d hd => ?_, hty, hcls⟩, ?_⟩
      · cases hdrv.symm.trans hdrvq
        exact hfree d hd
      · obtain ⟨table', ht⟩ : ∃ table', krlnewDevice s.table
          { rfsSetDevice devp with devDrv := some drvp.adr } = (.dfcOkStus, table') :=
          ⟨_, Prod.ext hok rfl⟩
        simp only [rfsEntry, hdrv, htake, hu', hadd, ht]
    · refine .inl ⟨fun hc => hnot hc.2, ?_⟩
      simp only [rfsEntry, hdrv, htake, hu', hadd, hfail]
      exact ⟨trivial, trivial⟩

/-- **The exits of `rfs_entry`**: before anything but the descriptor was obtained, behind that
with an error, or with the driver loaded. -/
theorem rfsEntry_cases (s : EntrySt) :
    ((s.drvp = none ∨ s.krl.take.1 = none ∨
        (s.krl.take.2.take.1 = none ∧ s.krl.take.2.take.2.take.1 = none)) ∧
      (rfsEntry s).2.drvp = s.drvp ∧ (rfsEntry s).2.table = s.table ∧
      (rfsEntry s).2.krl.out = s.krl.out) ∨
    (¬ EntryOk s ∧ (rfsEntry s).1 = .dfcErrStus ∧
      s.krl.out.length < (rfsEntry s).2.krl.out.length) ∨
    (s.krl.Grants 3 ∧ IdFree s ∧ (rfsEntry s).1 = .dfcOkStus) := by
  cases hdrv : s.drvp with
  | none =>
      simp only [rfsEntry, hdrv]
      exact .inl ⟨.inl trivial, trivial, trivial, trivial⟩
  | some drvp =>
      rcases s.krl.take_cases with ⟨hnone, hout⟩ | ⟨devp, hsome, hfresh, hout⟩
      · obtain ⟨u, htake⟩ : ∃ u, s.krl.take = (none, u) := ⟨_, Prod.ext hnone rfl⟩
        rw [htake] at hout ⊢
        simp only [rfsEntry, hdrv, htake]
        exact .inl ⟨.inr (.inl trivial), trivial, trivial, hout⟩
      obtain ⟨u, htake⟩ : ∃ u, s.krl.take = (some devp, u) := ⟨_, Prod.ext hsome rfl⟩
      have hgrants : s.krl.Grants 3 ↔ u.Grants 2 := by
        rw [Supply.Grants, htake]
        simp
      have hok : EntryOk s ↔ (u.take.1 = none ∧ u.take.2.take.1 = none) ∨
          (u.Grants 2 ∧ IdFree s) := by
        rw [EntryOk, hgrants, hdrv, htake]
        simp
      rw [htake] at hout ⊢
      change u.out = devp :: s.krl.out at hout
      rcases newRfsdevextMmblk_cases u with ⟨h1, h2, herr, houtN⟩ |
        ⟨hsome2, hnot, herr, x, hx, houtN⟩ | ⟨hboth, hserved, x, y, hx, hy, houtN⟩
      · obtain ⟨u', hu'⟩ : ∃ u', newRfsdevextMmblk u = (.dfcErrStus, u') :=
          ⟨_, Prod.ext herr rfl⟩
        rw [hu'] at houtN
        change u'.out = u.out at houtN
        simp only [rfsEntry, hdrv, htake, hu']
        refine .inl ⟨.inr (.inr ⟨h1, h2⟩), trivial, trivial, ?_⟩
        rw [delDeviceDsc_out (by rw [houtN, hout]; exact List.mem_cons_self), houtN, hout,
          List.erase_cons_head]
      · obtain ⟨u', hu'⟩ : ∃ u', newRfsdevextMmblk u = (.dfcErrStus, u') :=
          ⟨_, Prod.ext herr rfl⟩
        rw [hu'] at houtN
        change u'.out = x :: u.out at houtN
        refine .inr (.inl ⟨fun hc => ?_, ?_⟩)
        · rcases hok.mp hc with hn | hg
          · exact hsome2 hn
          · exact hnot hg.1
        · have hmem : devp ∈ u'.out := by
            rw [houtN, hout]
            exact List.mem_cons_of_mem _ List.mem_cons_self
          simp only [rfsEntry, hdrv, htake, hu']
          refine ⟨trivial, ?_⟩
          -- one of the two is left
          rw [delDeviceDsc_out hmem, List.length_erase_of_mem hmem, houtN, hout]
          simp
      · rcases rfsEntry_served hdrv htake hserved with ⟨hnotfree, hstus, hkrl⟩ | ⟨hfree, hstus⟩
        · refine .inr (.inl ⟨fun hc => ?_, hstus, ?_⟩)
          · rcases hok.mp hc with hn | hg
            · exact hboth.1 hn.1
            · exact hnotfree hg.2
          · have hmem : devp ∈ (newRfsdevextMmblk u).2.out := by
              rw [houtN, hout]
              exact List.mem_cons_of_mem _ (List.mem_cons_of_mem _ List.mem_cons_self)
            rw [hkrl, delDeviceDsc_out hmem, List.length_erase_of_mem hmem, houtN, hout]
            simp
        · exact .inr (.inr ⟨hgrants.mpr hboth, hfree, hstus⟩)

end Entry

/-- The first `n` requests are served, at the addresses below `n`. -/
def servesTo (n : Nat) : Supply Nat where
  out := []
  nodup := List.nodup_nil
  alc := fun t => if t < n then some t else none
  tick := 0

/-- The record is refused. -/
def noRecord : EntrySt := ⟨servesTo 2, some ⟨9, []⟩, devtableInit⟩

/-- The table has a file system, of another driver. -/
def loaded : EntrySt :=
  ⟨servesTo 3, some ⟨9, []⟩, devtableInit.file ⟨8, ⟨filesysDevice, 0, 0⟩, some 7⟩⟩

end Cosmos.Drivers
