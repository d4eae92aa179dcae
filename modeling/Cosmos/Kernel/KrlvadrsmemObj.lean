import Cosmos.Kernel.KrlvadrsmemInv
import Mathlib.Data.List.Perm.Subperm

/-!
# The kernel objects of an address space

`Objs` accounts for the objects that an address space holds: the descriptors of its
regions, the boxes of its regions, and the boxes in the cache.  Each box is in use as
often as its counter says.  Every call keeps this, whatever its arguments are, so no
two of these objects are ever the same.
-/

namespace Cosmos.Kernel

open Cosmos.Lib Cosmos.Lib.Run Cosmos.Hal

/-- **The objects in use**: descriptors of regions, boxes of regions (`mine`), boxes in
the cache, and `base`, which has those of others, with the boxes `head0`. -/
structure Objs (head0 base : List Nat) (s : VmaSt) (mine : List Nat) : Prop where
  out : s.kms.out.Perm
    (s.vma.vsList.map Kmvarsdsc.adr ++ (mine ++ (s.mgr.kbmCachehead ++ base)))
  head : s.mgr.kbmKmbhead.Perm (mine ++ head0)
  others : ∀ b ∈ head0, b ∈ base
  users : ∀ b, some b ∈ s.vma.vsList.map Kmvarsdsc.kvaKvmbox ↔ b ∈ mine
  cont : ∀ b ∈ mine, (s.box b).kmbCont =
    ((s.vma.vsList.map Kmvarsdsc.kvaKvmbox).count (some b) : Nat)

section Objs

variable {head0 base mine : List Nat} {s s' : VmaSt} {start vassize : Nat}

theorem giveObj_out {kms : Supply Nat} {a : Nat} (h : a ∈ kms.out) :
    (giveObj kms a).out = kms.out.erase a := by
  obtain ⟨kms', hgive, hout⟩ := Supply.give_of_mem h
  unfold giveObj
  rw [hgive]
  exact hout

theorem map_write {β : Type} {g : Kmvarsdsc → β} (vma : Virmemadrs) (r : Kmvarsdsc)
    (f : Kmvarsdsc → Kmvarsdsc) (h : ∀ a, g (f a) = g a) :
    (vma.write r f).vsList.map g = vma.vsList.map g :=
  Chain.map_upd h r.adr vma.vsList

theorem vmaDelSetEndcurrkmvd_vsList (vma : Virmemadrs) (r : Kmvarsdsc) :
    (vmaDelSetEndcurrkmvd vma r).vsList = vma.vsList := by
  unfold vmaDelSetEndcurrkmvd
  cases vma.nextEntry r <;> rfl

theorem knlPutKvmemcbox_vma {o : Option Nat} {b : Bool}
    (h : (knlPutKvmemcbox o).run s = .ok (b, s')) : s'.vma = s.vma := by
  cases o with
  | none =>
      cases h
      rfl
  | some c => exact (knlPutKvmemcbox_putBox h).vma

theorem Objs.nodup (h : Objs head0 base s mine) :
    (s.vma.vsList.map Kmvarsdsc.adr ++ (mine ++ (s.mgr.kbmCachehead ++ base))).Nodup :=
  h.out.nodup_iff.mp s.kms.nodup

/-- The boxes that the manager lists are objects in use. -/
theorem Objs.live (h : Objs head0 base s mine) {b : Nat}
    (hb : b ∈ s.mgr.kbmCachehead ++ s.mgr.kbmKmbhead) : b ∈ s.kms.out := by
  rw [h.out.mem_iff]
  apply List.mem_append_right _
  rcases List.mem_append.mp hb with hb | hb
  · exact List.mem_append_right _ (List.mem_append_left _ hb)
  · rcases List.mem_append.mp (h.head.mem_iff.mp hb) with hb | hb
    · exact List.mem_append_left _ hb
    · exact List.mem_append_right _ (List.mem_append_right _ (h.others b hb))

theorem Objs.adr_nodup (h : Objs head0 base s mine) :
    (s.vma.vsList.map Kmvarsdsc.adr).Nodup :=
  (List.nodup_append.mp h.nodup).1

theorem Objs.mine_nodup (h : Objs head0 base s mine) : mine.Nodup :=
  (List.nodup_append.mp (List.nodup_append.mp h.nodup).2.1).1

theorem Objs.pagesOnly (h : Objs head0 base s mine) (hs : PagesOnly s s') :
    Objs head0 base s' mine where
  out := by rw [hs.kms, hs.vma, hs.mgr]; exact h.out
  head := by rw [hs.mgr]; exact h.head
  others := h.others
  users b := by rw [hs.vma]; exact h.users b
  cont b hb := by rw [hs.cont, hs.vma]; exact h.cont b hb

/-- Bounds are written. -/
theorem Objs.write (h : Objs head0 base s mine) {vma : Virmemadrs}
    (hadr : vma.vsList.map Kmvarsdsc.adr = s.vma.vsList.map Kmvarsdsc.adr)
    (hbox : vma.vsList.map Kmvarsdsc.kvaKvmbox = s.vma.vsList.map Kmvarsdsc.kvaKvmbox) :
    Objs head0 base { s with vma := vma } mine where
  out := by rw [hadr]; exact h.out
  head := h.head
  others := h.others
  users b := by rw [hbox]; exact h.users b
  cont b hb := by rw [hbox]; exact h.cont b hb

theorem Objs.bounds (h : Objs head0 base s mine) (r : Kmvarsdsc) (f : Kmvarsdsc → Kmvarsdsc)
    (hf : ∀ r, (f r).adr = r.adr ∧ (f r).kvaKvmbox = r.kvaKvmbox) :
    Objs head0 base { s with vma := s.vma.write r f } mine :=
  h.write (map_write s.vma r f fun r => (hf r).1) (map_write s.vma r f fun r => (hf r).2)

/-- A new region without a box. -/
theorem Objs.add (h : Objs head0 base s mine) {vma : Virmemadrs} {kms : Supply Nat}
    {r : Kmvarsdsc} (hbox : r.kvaKvmbox = none) (hout : kms.out = r.adr :: s.kms.out)
    (hperm : vma.vsList.Perm (r :: s.vma.vsList)) :
    Objs head0 base { s with vma := vma, kms := kms } mine where
  out := by
    show kms.out.Perm _
    rw [hout]
    exact (h.out.cons r.adr).trans ((hperm.map Kmvarsdsc.adr).symm.append_right _)
  head := h.head
  others := h.others
  users b := by
    rw [(hperm.map Kmvarsdsc.kvaKvmbox).mem_iff, List.map_cons, List.mem_cons, hbox]
    simpa using h.users b
  cont b hb := by
    rw [(hperm.map Kmvarsdsc.kvaKvmbox).count_eq, List.map_cons, hbox, List.count_cons_of_ne
      (by simp)]
    exact h.cont b hb

theorem Objs.alloced (h : Objs head0 base s mine) {vaslimits vastype ret : Nat}
    {vma : Virmemadrs} {kms : Supply Nat}
    (ha : Alloced s.vma s.kms start vassize vaslimits vastype ret vma kms) :
    Objs head0 base { s with vma := vma, kms := kms } mine := by
  cases ha with
  | refused kms hout =>
      have hperm := h.out
      rw [← hout] at hperm
      exact { h with out := hperm }
  | grown r hfits hstart hlike =>
      exact h.write (map_write s.vma r _ fun _ => rfl) (map_write s.vma r _ fun _ => rfl)
  | added r hfits a kms hnew hout lo hlo =>
      exact h.add rfl hout (Chain.add_perm h.adr_nodup hfits.mem)

/-- A region that shares the box of another comes in. -/
theorem Objs.share (h : Objs head0 base s mine) {vma : Virmemadrs} {kms : Supply Nat}
    {r r' : Kmvarsdsc} (hr : r ∈ s.vma.vsList) (hperm : vma.vsList.Perm (r' :: s.vma.vsList))
    (hbox : r'.kvaKvmbox = r.kvaKvmbox) (hout : kms.out = r'.adr :: s.kms.out) :
    Objs head0 base (VmaSt.count { s with vma := vma, kms := kms } r.kvaKvmbox) mine := by
  cases hc : r.kvaKvmbox with
  | none => exact h.add (hbox.trans hc) hout hperm
  | some c =>
      have hmem : some c ∈ s.vma.vsList.map Kmvarsdsc.kvaKvmbox :=
        hc ▸ List.mem_map_of_mem hr
      have hmap := hperm.map Kmvarsdsc.kvaKvmbox
      rw [List.map_cons, hbox, hc] at hmap
      exact {
        out := by
          show kms.out.Perm _
          rw [hout]
          exact (h.out.cons r'.adr).trans ((hperm.map Kmvarsdsc.adr).symm.append_right _)
        head := h.head
        others := h.others
        users := fun b => by
          rw [← h.users b]
          show some b ∈ vma.vsList.map Kmvarsdsc.kvaKvmbox ↔ _
          rw [hmap.mem_iff, List.mem_cons]
          constructor
          · rintro (hb | hb)
            · rw [hb]
              exact hmem
            · exact hb
          · exact Or.inr
        cont := fun b hb => by
          show (Function.update s.box c _ b).kmbCont =
            ((vma.vsList.map Kmvarsdsc.kvaKvmbox).count (some b) : Nat)
          have hcont := h.cont b hb
          rw [hmap.count_eq]
          by_cases hbc : b = c
          · subst hbc
            rw [Function.update_self, List.count_cons_self]
            show (s.box b).kmbCont + 1 = _
            omega
          · rw [Function.update_of_ne hbc, List.count_cons_of_ne (by simpa using Ne.symm hbc)]
            exact hcont }

/-- A region goes, and its box has one user less. -/
theorem Objs.drop (h : Objs head0 base s mine) {r : Kmvarsdsc} {s₂ : VmaSt} {b₂ : Bool}
    (hput : (knlPutKvmemcbox r.kvaKvmbox).run s = .ok (b₂, s₂))
    {vma : Virmemadrs} (hperm : s.vma.vsList.Perm (r :: vma.vsList)) :
    ∃ mine', (∀ b ∈ mine', b ∈ mine) ∧
      Objs head0 base { s₂ with vma := vma, kms := giveObj s₂.kms r.adr } mine' := by
  have hadr := hperm.map Kmvarsdsc.adr
  have hbox := hperm.map Kmvarsdsc.kvaKvmbox
  rw [List.map_cons] at hadr hbox
  have hall : s.kms.out.Perm (r.adr :: (vma.vsList.map Kmvarsdsc.adr ++
      (mine ++ (s.mgr.kbmCachehead ++ base)))) := h.out.trans (hadr.append_right _)
  have hmem : r.adr ∈ s.kms.out := hall.mem_iff.mpr List.mem_cons_self
  -- when the supply has not changed, the descriptor goes back
  have hgive : (giveObj s.kms r.adr).out.Perm (vma.vsList.map Kmvarsdsc.adr ++
      (mine ++ (s.mgr.kbmCachehead ++ base))) := by
    rw [giveObj_out hmem]
    have herase := hall.erase r.adr
    rwa [List.erase_cons_head] at herase
  cases hc : r.kvaKvmbox with
  | none =>
      rw [hc] at hput hbox
      cases hput
      refine ⟨mine, fun _ hb => hb, { h with out := hgive, users := fun b => ?_, cont := fun b hb => ?_ }⟩
      · rw [← h.users b, hbox.mem_iff, List.mem_cons]
        simp
      · show _ = (((vma.vsList.map Kmvarsdsc.kvaKvmbox).count (some b) : Nat) : Int)
        have hcont := h.cont b hb
        rw [hbox.count_eq, List.count_cons_of_ne (by simp)] at hcont
        exact hcont
  | some c =>
      rw [hc] at hput hbox
      have hp := knlPutKvmemcbox_putBox hput
      have hcm : c ∈ mine := (h.users c).mp (hbox.mem_iff.mpr List.mem_cons_self)
      have hcont : ∀ b ∈ mine, (s₂.box b).kmbCont =
          ((vma.vsList.map Kmvarsdsc.kvaKvmbox).count (some b) : Nat) := by
        intro b hb
        have hold := h.cont b hb
        rw [hbox.count_eq] at hold
        rw [hp.box]
        by_cases hbc : b = c
        · subst hbc
          rw [List.count_cons_self] at hold
          rw [Function.update_self]
          show (s.box b).kmbCont - 1 = _
          omega
        · rw [List.count_cons_of_ne (by simpa using Ne.symm hbc)] at hold
          rw [Function.update_of_ne hbc]
          exact hold
      have hcnt := h.cont c hcm
      rw [hbox.count_eq, List.count_cons_self] at hcnt
      have husers : ∀ b, b ≠ c → (some b ∈ vma.vsList.map Kmvarsdsc.kvaKvmbox ↔ b ∈ mine) := by
        intro b hbc
        rw [← h.users b, hbox.mem_iff, List.mem_cons]
        simp [hbc]
      rcases hp.ends with ⟨hlt, hmgr, hkms⟩ | ⟨hle, hhead, hends⟩
      · -- other regions use the box
        refine ⟨mine, fun _ hb => hb, ?_, ?_, h.others, fun b => ?_, hcont⟩
        · show (giveObj s₂.kms r.adr).out.Perm _
          rw [hkms, hmgr]
          exact hgive
        · rw [hmgr]
          exact h.head
        · by_cases hbc : b = c
          · subst hbc
            refine iff_of_true ?_ hcm
            have hpos : 0 < (vma.vsList.map Kmvarsdsc.kvaKvmbox).count (some b) := by omega
            exact List.count_pos_iff.mp hpos
          · exact husers b hbc
      · -- the box goes
        have hnone : some c ∉ vma.vsList.map Kmvarsdsc.kvaKvmbox :=
          List.count_eq_zero.mp (by omega)
        have hmine := List.perm_cons_erase hcm
        have hrc : c ∈ s.kms.out := h.out.mem_iff.mpr
          (List.mem_append_right _ (List.mem_append_left _ hcm))
        have hne : r.adr ≠ c := by
          intro he
          have hnd := hall.nodup_iff.mp s.kms.nodup
          rw [he, List.nodup_cons] at hnd
          exact hnd.1 (List.mem_append_right _ (List.mem_append_left _ hcm))
        refine ⟨mine.erase c, fun _ hb => List.mem_of_mem_erase hb, ?_, ?_, h.others,
          fun b => ?_, fun b hb => hcont b (List.mem_of_mem_erase hb)⟩
        · show (giveObj s₂.kms r.adr).out.Perm (vma.vsList.map Kmvarsdsc.adr ++
            (mine.erase c ++ (s₂.mgr.kbmCachehead ++ base)))
          rcases hends with ⟨hcache, hkms⟩ | ⟨hcache, hkms⟩
          · rw [hcache, hkms]
            apply List.perm_iff_count.mpr
            intro a
            have h₁ := hgive.count_eq a
            have h₂ := hmine.count_eq a
            simp only [List.count_append, List.count_cons] at h₁ h₂ ⊢
            omega
          · rw [hcache, hkms]
            have hmem' : r.adr ∈ (giveObj s.kms c).out := by
              rw [giveObj_out hrc]
              exact (List.mem_erase_of_ne hne).mpr hmem
            rw [giveObj_out hmem', giveObj_out hrc]
            apply List.perm_iff_count.mpr
            intro a
            have h₁ := hall.count_eq a
            have h₂ := hmine.count_eq a
            simp only [List.count_append, List.count_cons, List.count_erase] at h₁ h₂ ⊢
            omega
        · rw [hhead, ← List.erase_append_left _ hcm]
          exact h.head.erase c
        · by_cases hbc : b = c
          · subst hbc
            apply iff_of_false hnone
            exact h.mine_nodup.not_mem_erase
          · rw [husers b hbc, List.mem_erase_of_ne hbc]

theorem Objs.freed (h : Objs head0 base s mine) {b : Bool} (hf : Freed s start vassize b s') :
    ∃ mine', (∀ b ∈ mine', b ∈ mine) ∧ Objs head0 base s' mine' := by
  cases hf with
  | refused kms hout hwhy =>
      have hperm := h.out
      rw [← hout] at hperm
      exact ⟨mine, fun _ hb => hb, { h with out := hperm }⟩
  | whole r hr hlo hhi s₁ s₂ b₁ b₂ hun hput =>
      have hpages := vmaDelUnmapping_pagesOnly hun
      have hlist : (vmaDelSetEndcurrkmvd s₁.vma r).vsList = s.vma.vsList := by
        rw [vmaDelSetEndcurrkmvd_vsList, hpages.vma]
      have hend : Objs head0 base { s₁ with vma := vmaDelSetEndcurrkmvd s₁.vma r } mine :=
        (h.pagesOnly hpages).write (by rw [vmaDelSetEndcurrkmvd_vsList])
          (by rw [vmaDelSetEndcurrkmvd_vsList])
      apply hend.drop hput
      rw [knlPutKvmemcbox_vma hput]
      show (vmaDelSetEndcurrkmvd s₁.vma r).vsList.Perm _
      rw [hlist]
      exact Chain.del_perm h.adr_nodup hr.mem
  | front r hr hlo hhi s' b hun =>
      have hw := h.bounds r (fun r => { r with kvaStart := Word64.add64 start vassize })
        fun _ => ⟨rfl, rfl⟩
      exact ⟨mine, fun _ hb => hb, hw.pagesOnly (vmaDelUnmapping_pagesOnly hun)⟩
  | back r hr hlo hhi s' b hun =>
      have hw := h.bounds r (fun r => { r with kvaEnd := start }) fun _ => ⟨rfl, rfl⟩
      exact ⟨mine, fun _ hb => hb, hw.pagesOnly (vmaDelUnmapping_pagesOnly hun)⟩
  | split r hr hlo hhi a kms htake hnew hout s₁ b hun =>
      have hpages := vmaDelUnmapping_pagesOnly hun
      have hw := h.bounds r (fun r => { r with kvaEnd := start }) fun _ => ⟨rfl, rfl⟩
      have hmem : { r with kvaEnd := start } ∈
          (s.vma.write r fun r => { r with kvaEnd := start }).vsList :=
        (Chain.upd_perm _ h.adr_nodup hr.mem).mem_iff.mpr List.mem_cons_self
      have hvma : s₁.vma = s.vma.write r fun r => { r with kvaEnd := start } := by
        rw [hpages.vma]
        cases r.kvaKvmbox <;> rfl
      have hperm : (s₁.vma.link r
          { r with adr := a, kvaStart := Word64.add64 start vassize }).vsList.Perm
          ({ r with adr := a, kvaStart := Word64.add64 start vassize } ::
            (s.vma.write r fun r => { r with kvaEnd := start }).vsList) := by
        rw [hvma]
        exact Chain.add_perm (r := { r with kvaEnd := start }) hw.adr_nodup hmem
      have hshare : Objs head0 base (VmaSt.count { s with
          vma := { s₁.vma.link r
            { r with adr := a, kvaStart := Word64.add64 start vassize } with
              vsKmvdscnr := Word64.add64 s₁.vma.vsKmvdscnr 1 }
          kms := kms } r.kvaKvmbox) mine :=
        hw.share (r := { r with kvaEnd := start }) hmem hperm rfl hout
      refine ⟨mine, fun _ hb => hb, hshare.pagesOnly ⟨?_, ?_, ?_, fun b => ?_⟩⟩
      · cases r.kvaKvmbox <;> rfl
      · rw [show _ = s₁.kms from rfl, hpages.kms]
        cases r.kvaKvmbox <;> rfl
      · rw [show _ = s₁.mgr from rfl, hpages.mgr]
        cases r.kvaKvmbox <;> rfl
      · rw [show _ = (s₁.box b).kmbCont from rfl, hpages.cont]
        cases r.kvaKvmbox <;> rfl

/-- A region without a box gets one. -/
theorem Objs.getBox (h : Objs head0 base s mine) {r : Kmvarsdsc} (hr : r ∈ s.vma.vsList)
    (hbox : r.kvaKvmbox = none) {kmb : Nat} {s₁ : VmaSt} (hgot : GotBox s kmb s₁) :
    kmb ∉ mine ∧ Objs head0 base { s₁ with
      vma := s₁.vma.write r fun r => { r with kvaKvmbox := some kmb } } (kmb :: mine) := by
  have hvma : s₁.vma = s.vma := by cases hgot <;> rfl
  have hbx : s₁.box = Function.update s.box kmb { kvmemcboxInit with kmbCont := 1 } := by
    cases hgot <;> rfl
  have hhead : s₁.mgr.kbmKmbhead = kmb :: s.mgr.kbmKmbhead := by
    cases hgot with
    | cached mgr hhead =>
        show kmb :: mgr.kbmKmbhead = _
        rw [hhead]
    | made kms hnew hout => rfl
  -- the box was in the cache, or is new
  have hall : s₁.kms.out.Perm (s.vma.vsList.map Kmvarsdsc.adr ++
      ((kmb :: mine) ++ (s₁.mgr.kbmCachehead ++ base))) := by
    have hout := h.out
    apply List.perm_iff_count.mpr
    intro a
    have h₁ := hout.count_eq a
    cases hgot with
    | cached mgr hhead hcache hok =>
        show s.kms.out.count a = (_ ++ (_ ++ (mgr.kbmCachehead ++ _))).count a
        rw [hcache] at h₁
        simp only [List.count_append, List.count_cons] at h₁ ⊢
        omega
    | made kms hnew hout =>
        show kms.out.count a = (_ ++ (_ ++ (s.mgr.kbmCachehead ++ _))).count a
        rw [hout]
        simp only [List.count_append, List.count_cons] at h₁ ⊢
        omega
  have hfresh : kmb ∉ mine := by
    have hnd := hall.nodup_iff.mp s₁.kms.nodup
    have hnd := (List.nodup_append.mp (List.nodup_append.mp hnd).2.1).1
    exact (List.nodup_cons.mp hnd).1
  have hold := (Chain.del_perm h.adr_nodup hr).map Kmvarsdsc.kvaKvmbox
  have hnew := (Chain.upd_perm (fun r => { r with kvaKvmbox := some kmb }) h.adr_nodup hr).map
    Kmvarsdsc.kvaKvmbox
  rw [List.map_cons] at hold hnew
  have husers : ∀ b, some b ∈ ((s.vma.write r fun r => { r with kvaKvmbox := some kmb }).vsList.map
      Kmvarsdsc.kvaKvmbox) ↔ b = kmb ∨ b ∈ mine := by
    intro b
    rw [← h.users b, hold.mem_iff]
    show some b ∈ (Chain.upd _ _ _ _).map _ ↔ _
    rw [hnew.mem_iff, List.mem_cons, List.mem_cons, hbox]
    simp
  refine ⟨hfresh, ?_, ?_, h.others, fun b => ?_, fun b hb => ?_⟩
  · rw [hvma]
    show s₁.kms.out.Perm ((Virmemadrs.write _ _ _).vsList.map _ ++ _)
    rw [map_write s.vma r (fun r => { r with kvaKvmbox := some kmb }) fun _ => rfl]
    exact hall
  · show s₁.mgr.kbmKmbhead.Perm _
    rw [hhead]
    exact h.head.cons kmb
  · rw [hvma, husers b, List.mem_cons]
  · rw [hvma]
    show (s₁.box b).kmbCont = (((Chain.upd _ _ _ _).map _).count (some b) : Nat)
    rw [hnew.count_eq, hbx]
    by_cases hbk : b = kmb
    · subst hbk
      have hnone : some b ∉ (Chain.del Kmvarsdsc.adr r.adr s.vma.vsList).map Kmvarsdsc.kvaKvmbox := by
        intro hm
        exact hfresh ((h.users b).mp (hold.mem_iff.mpr (List.mem_cons_of_mem _ hm)))
      rw [Function.update_self, List.count_cons_self, List.count_eq_zero.mpr hnone]
      rfl
    · have hm : b ∈ mine := (List.mem_cons.mp hb).resolve_left hbk
      have hcont := h.cont b hm
      rw [hold.count_eq, hbox, List.count_cons_of_ne (by simp)] at hcont
      rw [Function.update_of_ne hbk, List.count_cons_of_ne (by simpa using Ne.symm hbk)]
      exact hcont

theorem Objs.regionBox (h : Objs head0 base s mine) {r : Kmvarsdsc} (hr : r ∈ s.vma.vsList)
    {kmb : Nat} {s₁ : VmaSt} (hbox : RegionBox s r kmb s₁) :
    ∃ mine', Objs head0 base s₁ mine' := by
  cases hbox with
  | there hbox => exact ⟨mine, h⟩
  | got hbox s₁ hgot => exact ⟨kmb :: mine, (h.getBox hr hbox hgot).2⟩

theorem Objs.faired (h : Objs head0 base s mine) {vadrs : Nat} {ret : FairRet}
    (hf : Faired s vadrs ret s') : ∃ mine', Objs head0 base s' mine' := by
  cases hf with
  | refused ret hret => exact ⟨mine, h⟩
  | served r hr hlo hhi hmin hmax kmbox s₁ hbox phyadrs s₂ hmap filled =>
      obtain ⟨mine', h'⟩ := h.regionBox hr hbox
      have hpages : PagesOnly s₂ { s₂ with filled := filled } := ⟨rfl, rfl, rfl, fun _ => rfl⟩
      exact ⟨mine', h'.pagesOnly (hmap.pagesOnly.trans hpages)⟩

end Objs

/-! ## A new address space -/

/-- The boxes that the manager lists are objects in use, each listed once.  This is so
when `kvmemcboxmgr_t_init` has emptied its lists, and they stay in use (`Objs.live`). -/
structure BoxesLive (s : VmaSt) : Prop where
  mem : ∀ b ∈ s.mgr.kbmCachehead ++ s.mgr.kbmKmbhead, b ∈ s.kms.out
  nodup : (s.mgr.kbmCachehead ++ s.mgr.kbmKmbhead).Nodup

/-- `new_mmadrsdsc` has made the address space `mm`, and all its allocations have
succeeded: there are three regions and a top table. -/
structure Made (pml4 : Nat → Nat) (k : VmaSt) (mm : Nat) (s : VmaSt) : Prop where
  run : (newMmadrsdsc pml4).run k = .ok (some mm, s)
  regions : s.vma.vsKmvdscnr = 3
  tables : s.hal.mmu.mudTdirearr ≠ none

section Start

open Cosmos.Lib.StM

variable {pml4 : Nat → Nat} {k s : VmaSt} {mm : Nat}

theorem halMmuInit_none {t t' : MmuSt} {r : Bool} (h : (halMmuInit pml4).run t = .ok (r, t')) :
    r = true ∨ t'.mmu = t.mmu := by
  obtain ⟨o, t₁, hnew, h⟩ := run_bind_inv h
  cases o with
  | none =>
      cases h
      right
      obtain ⟨o, t₂, hdir, hnew⟩ := run_bind_inv hnew
      cases o with
      | some f => cases hnew
      | none =>
          cases hnew
          obtain ⟨_, _, h₁, hdir⟩ := run_bind_inv hdir
          cases h₁
          rcases htake : t.pgs.take with ⟨o, pgs⟩
          rw [htake] at hdir
          cases o with
          | none =>
              cases hdir
              rfl
          | some f => cases hdir
  | some f =>
      cases h
      exact Or.inl rfl

/-- What was taken and is in use goes back. -/
theorem giveObj_perm {kms : Supply Nat} {a : Nat} {l : List Nat} (h : kms.out.Perm (a :: l)) :
    (giveObj kms a).out.Perm l := by
  rw [giveObj_out (h.mem_iff.mpr List.mem_cons_self)]
  have herase := h.erase a
  rwa [List.erase_cons_head] at herase

theorem newKmvarsdsc_run (s : VmaSt) :
    newKmvarsdsc.run s = .ok (s.kms.take.1, { s with kms := s.kms.take.2 }) := rfl

theorem delKmvarsdsc_run (s : VmaSt) (a : Nat) :
    (delKmvarsdsc a).run s = .ok ((s.kms.give a).isSome, { s with kms := giveObj s.kms a }) := rfl

/-- **`kvma_inituserspace_virmemadrs`** links in all three regions, or none. -/
theorem kvmaInituserspaceVirmemadrs_run (s : VmaSt) : ∃ b vma kms,
    kvmaInituserspaceVirmemadrs.run s = .ok (b, { s with vma := vma, kms := kms }) ∧
      ((s.kms.Grants 3 ∧ kms = s.kms.after 3 ∧
          ∃ x y z, vma = s.vma.initUser x y z ∧ kms.out = z :: y :: x :: s.kms.out) ∨
        (¬ s.kms.Grants 3 ∧ vma = s.vma ∧ kms.out.Perm s.kms.out)) := by
  have hgrants : s.kms.Grants 3 ↔ s.kms.take.1 ≠ none ∧ s.kms.take.2.take.1 ≠ none ∧
      s.kms.take.2.take.2.take.1 ≠ none := by
    simp only [Supply.Grants, and_true]
  rw [hgrants]
  unfold kvmaInituserspaceVirmemadrs
  rw [run_bind_ok (newKmvarsdsc_run s)]
  rcases s.kms.take_cases with ⟨ho, hx⟩ | ⟨x, ho, -, hx⟩
  · rw [ho]
    exact ⟨_, _, _, rfl, Or.inr ⟨fun h => h.1 rfl, rfl, List.Perm.of_eq hx⟩⟩
  rw [ho]
  dsimp only
  rw [run_bind_ok (newKmvarsdsc_run _)]
  rcases s.kms.take.2.take_cases with ⟨ho, hy⟩ | ⟨y, ho, -, hy⟩
  · rw [ho]
    dsimp only
    rw [run_bind_ok (delKmvarsdsc_run _ x)]
    refine ⟨_, _, _, rfl, Or.inr ⟨fun h => h.2.1 rfl, rfl, ?_⟩⟩
    exact giveObj_perm (List.Perm.of_eq (hy.trans hx))
  rw [ho]
  dsimp only
  rw [run_bind_ok (newKmvarsdsc_run _)]
  rcases s.kms.take.2.take.2.take_cases with ⟨ho, hz⟩ | ⟨z, ho, -, hz⟩
  · rw [ho]
    dsimp only
    rw [run_bind_ok (delKmvarsdsc_run _ x), run_bind_ok (delKmvarsdsc_run _ y)]
    refine ⟨_, _, _, rfl, Or.inr ⟨fun h => h.2.2 rfl, rfl, giveObj_perm (giveObj_perm ?_)⟩⟩
    rw [hz, hy, hx]
    exact List.Perm.swap x y _
  · rw [ho]
    refine ⟨_, _, _, rfl, Or.inl ⟨⟨Option.some_ne_none x, Option.some_ne_none y,
      Option.some_ne_none z⟩, rfl, x, y, z, rfl, ?_⟩⟩
    rw [hz, hy, hx]

theorem kvmaInituserspaceVirmemadrs_cases {s' : VmaSt} {b : Bool}
    (h : kvmaInituserspaceVirmemadrs.run s = .ok (b, s')) :
    (∃ kms, kms.out.Perm s.kms.out ∧ s' = { s with kms := kms }) ∨
    ∃ x y z kms, kms.out = z :: y :: x :: s.kms.out ∧
      s' = { s with kms := kms, vma := s.vma.initUser x y z } := by
  obtain ⟨b', vma, kms, hrun, hcases⟩ := kvmaInituserspaceVirmemadrs_run s
  rw [h] at hrun
  cases hrun
  rcases hcases with ⟨-, -, x, y, z, rfl, hout⟩ | ⟨-, rfl, hout⟩
  · exact Or.inr ⟨x, y, z, kms, hout, rfl⟩
  · exact Or.inl ⟨kms, hout, rfl⟩

/-- **A new address space.** -/
theorem Made.start (h : Made pml4 k mm s) : ∃ x y z hal kms,
    s = { k with
      vma := virmemadrsInit.initUser x y z
      msdThread := none
      hal := hal
      kms := kms } ∧
    kms.out = z :: y :: x :: mm :: k.kms.out ∧
    (halMmuInit pml4).run { k.hal with mmu := mmudscInit } = .ok (true, hal) := by
  obtain ⟨o, s₁, h₁, hrun⟩ := run_bind_inv h.run
  cases h₁
  rcases k.kms.take_cases with ⟨ho, -⟩ | ⟨x, ho, -, hx⟩
  · rw [ho] at hrun
    cases hrun
  rw [ho] at hrun
  obtain ⟨_, _, h₁, hrun⟩ := run_bind_inv hrun
  cases h₁
  obtain ⟨b, s₂, hinit, hrun⟩ := run_bind_inv hrun
  obtain ⟨r, s₃, hmmu, hrun⟩ := run_bind_inv hrun
  cases hrun
  obtain ⟨hal, htop, hs⟩ := onMmu_inv hmmu
  subst hs
  rcases kvmaInituserspaceVirmemadrs_cases hinit with ⟨kms, -, rfl⟩ | ⟨a, b, c, kms, hout, rfl⟩
  · have hnr := h.regions
    cases hnr
  · refine ⟨a, b, c, hal, kms, rfl, ?_, ?_⟩
    · rw [hout]
      show _ :: _ :: _ :: k.kms.take.2.out = _
      rw [hx]
    · rcases halMmuInit_none htop with hr | hnone
      · subst hr
        exact htop
      · refine absurd ?_ h.tables
        show hal.mmu.mudTdirearr = none
        rw [hnone]
        rfl

/-- The objects of a new address space. -/
theorem Made.objs (h : Made pml4 k mm s) (hk : BoxesLive k) :
    ∃ base, mm ∈ base ∧ k.kms.out.length + 1 = k.mgr.kbmCachehead.length + base.length ∧
      Objs k.mgr.kbmKmbhead base s [] := by
  obtain ⟨x, y, z, hal, kms, rfl, hout, -⟩ := h.start
  obtain ⟨l, hl, hsub⟩ := List.subperm_iff.mp (hk.nodup.subperm hk.mem)
  obtain ⟨rest, hrest⟩ := hsub.exists_perm_append
  have hall : k.kms.out.Perm (k.mgr.kbmCachehead ++ (k.mgr.kbmKmbhead ++ rest)) := by
    rw [← List.append_assoc]
    exact hl.symm.trans hrest
  refine ⟨mm :: (k.mgr.kbmKmbhead ++ rest), List.mem_cons_self, ?_, ?_, List.Perm.refl _, ?_, ?_,
    ?_⟩
  · have hlen := hall.length_eq
    simp only [List.length_append, List.length_cons] at hlen ⊢
    omega
  · show kms.out.Perm ([x, y, z] ++ _)
    rw [hout]
    apply List.perm_iff_count.mpr
    intro a
    have hcount := hall.count_eq a
    show (z :: y :: x :: mm :: k.kms.out).count a = ([x, y, z] ++ ([] ++
      (k.mgr.kbmCachehead ++ (mm :: (k.mgr.kbmKmbhead ++ rest))))).count a
    simp only [List.count_append, List.count_cons, List.count_nil] at hcount ⊢
    omega
  · exact fun b hb => List.mem_cons_of_mem _ (List.mem_append_left _ hb)
  · intro b
    refine iff_of_false (fun hb => ?_) List.not_mem_nil
    have hb : some b ∈ [none, none, none] := hb
    simp at hb
  · exact fun b hb => absurd hb List.not_mem_nil

end Start

/-! ## Runs -/

section Runs

variable {head0 base : List Nat} {s s' : VmaSt}

/-- What a call can do. -/
def VmaMove (s : VmaSt) (s' : VmaSt) : VmaOp → Prop
  | .new start vassize vaslimits vastype => ∃ ret vma kms,
      Alloced s.vma s.kms start (vadszAlign vassize) vaslimits vastype ret vma kms ∧
      (vma = s.vma ∨ start % 0x1000 = 0 ∧ (start = 0 ∨ 0x1000 ≤ start)) ∧
      s' = { s with vma := vma, kms := kms }
  | .del start vassize => ∃ b, Freed s start (vadszAlign vassize) b s'
  | .fair vadrs => ∃ ret, Faired s vadrs ret s'

theorem vmaStep_move {op : VmaOp} (h : vmaStep s op = .ok s') : VmaMove s s' op := by
  cases op with
  | new start vassize vaslimits vastype =>
      cases h
      obtain ⟨ha, hlo⟩ := vmaNewVadrs_cases s.vma s.kms start vassize vaslimits vastype
      exact ⟨_, _, _, ha, hlo, rfl⟩
  | del start vassize =>
      change Except.map _ _ = _ at h
      cases hr : (vmaDelVadrs start vassize).run s with
      | error e =>
          rw [hr] at h
          cases h
      | ok p =>
          rw [hr] at h
          cases h
          exact ⟨p.1, (vmaDelVadrs_cases hr).1⟩
  | fair vadrs =>
      change Except.map _ _ = _ at h
      cases hr : (vmaMapFairvadrs vadrs).run s with
      | error e =>
          rw [hr] at h
          cases h
      | ok p =>
          rw [hr] at h
          cases h
          exact ⟨p.1, vmaMapFairvadrs_cases hr⟩

theorem vmaStep_objs {op : VmaOp} (h : ∃ mine, Objs head0 base s mine)
    (hs : vmaStep s op = .ok s') : ∃ mine, Objs head0 base s' mine := by
  obtain ⟨mine, h⟩ := h
  have hmove := vmaStep_move hs
  cases op with
  | new start vassize vaslimits vastype =>
      obtain ⟨ret, vma, kms, ha, -, rfl⟩ := hmove
      exact ⟨mine, h.alloced ha⟩
  | del start vassize =>
      obtain ⟨b, hf⟩ := hmove
      obtain ⟨mine', -, h'⟩ := h.freed hf
      exact ⟨mine', h'⟩
  | fair vadrs =>
      obtain ⟨ret, hf⟩ := hmove
      exact h.faired hf

end Runs

end Cosmos.Kernel
