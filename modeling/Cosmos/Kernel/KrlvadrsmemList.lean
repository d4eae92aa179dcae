import Cosmos.Hal.HalmmuRun
import Cosmos.Kernel.KrlvadrsmemObj
import Cosmos.Lib.Ranges

/-!
# The regions of an address space as a map

Read as ranges of addresses with limits and a type, the regions are a partial function:
`covers`.  As long as no call has a range that wraps past 2^64, the list is ascending,
`vma_new_vadrs` paints a range over that was not covered, and `vma_del_vadrs` takes a
range out.  A call that wraps breaks the list.

## Main results

* `regions_inOrder` and `regions_not_inOrder` : the list is in order, or not.
* `covers_exact` and `covers_not_exact` : what the calls do to the map, or not.
-/

namespace Cosmos.Kernel

open Cosmos.Lib Cosmos.Lib.Ranges Cosmos.Lib.Run Cosmos.Lib.Word64 Cosmos.Hal

/-- A region as a range of addresses with its limits and its type. -/
def regionView : View Kmvarsdsc (Nat × Nat) where
  lo := Kmvarsdsc.kvaStart
  hi := Kmvarsdsc.kvaEnd
  val := fun r => (r.kvaLimits, r.kvaMaptype)

/-- The limits and the type of each address. -/
def covers (vma : Virmemadrs) : Nat → Option (Nat × Nat) := regionView.look vma.vsList

/-- The list of regions is in order. -/
structure InOrder (vma : Virmemadrs) : Prop where
  asc : regionView.Ascending vma.vsList
  top : ∀ r ∈ vma.vsList, r.kvaEnd ≤ userVirtualAddressEnd
  isalcend : vma.vsIsalcend = userVirtualAddressEnd

/-- What is left of a region without the range; `a` is the descriptor of the part behind
it. -/
def Kmvarsdsc.rest (r : Kmvarsdsc) (start newend a : Nat) : List Kmvarsdsc :=
  (if r.kvaStart < start then [{ r with kvaEnd := start }] else []) ++
    if newend < r.kvaEnd then [{ r with adr := a, kvaStart := newend }] else []

section List

variable {vma vma' : Virmemadrs} {kms kms' : Supply Nat} {start vassize lo : Nat}
  {vaslimits vastype ret : Nat} {r : Kmvarsdsc} {s s' : VmaSt}

theorem vadszAlign_lt (n : Nat) : vadszAlign n < wordMod := by
  unfold vadszAlign
  have := add64_lt n 0xfff
  omega

theorem vadszAlign_mod (n : Nat) : vadszAlign n % 0x1000 = 0 := by
  unfold vadszAlign
  omega

/-! ### Allocating -/

/-- Where a range goes: behind the region, before the next one, and below the end. -/
structure Gap (vma : Virmemadrs) (r : Kmvarsdsc) (lo vassize : Nat) (l₁ l₂ : List Kmvarsdsc) :
    Prop where
  list : vma.vsList = l₁ ++ r :: l₂
  key : ∀ a ∈ l₁, a.adr ≠ r.adr
  behind : r.kvaEnd ≤ lo
  before : ∀ c ∈ l₂, lo + vassize ≤ c.kvaStart
  top : lo + vassize ≤ userVirtualAddressEnd
  sum : add64 lo vassize = lo + vassize

theorem Fits.gap (h : Fits vma start vassize r) (hv : InOrder vma)
    (hnd : (vma.vsList.map Kmvarsdsc.adr).Nodup) (hnw : start + vassize < wordMod)
    (hlo : lo = if start = 0 then r.kvaEnd else start) : ∃ l₁ l₂, Gap vma r lo vassize l₁ l₂ := by
  obtain ⟨l₁, l₂, hl, hkey⟩ := Chain.exists_cut hnd h.mem
  suffices hfit : r.kvaEnd ≤ lo ∧ (∀ c ∈ l₂, lo + vassize ≤ c.kvaStart) ∧
      lo + vassize ≤ userVirtualAddressEnd ∧ add64 lo vassize = lo + vassize from
    ⟨l₁, l₂, hl, hkey, hfit.1, hfit.2.1, hfit.2.2.1, hfit.2.2.2⟩
  have htop := hv.top r h.mem
  have hend := h.newend
  rw [hv.isalcend] at hend
  have hnext : vma.nextEntry r = l₂.head? := by
    unfold Virmemadrs.nextEntry
    rw [hl]
    exact Chain.next_cut hkey
  have hok := h.isOk
  unfold vmaFindKmvarsdscIsOk at hok
  have hall := hv.isalcend
  unfold userVirtualAddressEnd at htop hend hall ⊢
  -- the sum does not wrap, whichever end is looked at
  have hsum : add64 lo vassize = lo + vassize := by
    refine add64_eq ?_
    by_cases h0 : start = 0
    · rw [if_pos h0] at hlo
      rw [h0, Nat.zero_add] at hnw
      rw [h0, add64_eq (by omega)] at hend
      rw [hlo]
      unfold wordMod
      omega
    · rw [if_neg h0] at hlo
      rw [hlo]
      exact hnw
  have hfit : r.kvaEnd ≤ lo ∧ lo + vassize ≤ 0x00007fffffffffff ∧
      ∀ c, l₂.head? = some c → lo + vassize ≤ c.kvaStart := by
    rw [← hsum]
    cases hhead : l₂.head? with
    | none =>
        rw [hnext, hhead] at hok
        by_cases h0 : start = 0
        · rw [if_pos h0] at hlo
          simp only [h0, if_true, hall, decide_eq_true_eq] at hok
          rw [hlo]
          exact ⟨Nat.le_refl _, by omega, fun c hc => by cases hc⟩
        · rw [if_neg h0] at hlo
          simp only [h0, if_false, hall, Bool.and_eq_true, decide_eq_true_eq] at hok
          rw [hlo]
          exact ⟨hok.1, by omega, fun c hc => by cases hc⟩
    | some c =>
        rw [hnext, hhead] at hok
        have hc : c ∈ vma.vsList := by
          rw [hl]
          exact List.mem_append_right _ (List.mem_cons_of_mem _ (List.mem_of_mem_head? hhead))
        have hct := hv.top c hc
        have hcp : c.kvaStart < c.kvaEnd := hv.asc.proper c hc
        unfold userVirtualAddressEnd at hct
        by_cases h0 : start = 0
        · rw [if_pos h0] at hlo
          simp only [h0, if_true, decide_eq_true_eq] at hok
          rw [hlo]
          refine ⟨Nat.le_refl _, by omega, fun d hd => ?_⟩
          cases hd
          exact hok
        · rw [if_neg h0] at hlo
          simp only [h0, if_false, Bool.and_eq_true, decide_eq_true_eq] at hok
          rw [hlo]
          refine ⟨hok.1, by omega, fun d hd => ?_⟩
          cases hd
          exact hok.2
  refine ⟨hfit.1, fun c hc => ?_, hfit.2.1, hsum⟩
  -- those behind the next one are further away
  cases l₂ with
  | nil => cases hc
  | cons d l₂ =>
      have hd := hfit.2.2 d rfl
      rcases List.mem_cons.mp hc with rfl | hc
      · exact hd
      · have hasc : regionView.Ascending ((l₁ ++ [r]) ++ d :: l₂) := by
          rw [List.append_assoc]
          exact hl ▸ hv.asc
        have hdc : d.kvaEnd ≤ c.kvaStart := hasc.after hc
        have hdp : d.kvaStart < d.kvaEnd := hasc.at
        omega

/-- What goes into a gap is a list of regions there, which shows the range. -/
theorem Gap.put {l₁ l₂ m : List Kmvarsdsc} (h : Gap vma r lo vassize l₁ l₂) (hv : InOrder vma)
    (hm : regionView.Ascending m)
    (hlo : ∀ b ∈ m, r.kvaStart ≤ b.kvaStart) (hhi : ∀ b ∈ m, b.kvaEnd ≤ lo + vassize)
    (hlook : ∀ x, regionView.look m x =
      paint (regionView.look [r]) lo (lo + vassize) (some (vaslimits, vastype)) x)
    (hlist : vma'.vsList = l₁ ++ m ++ l₂) (hall : vma'.vsIsalcend = vma.vsIsalcend) :
    InOrder vma' ∧ (∀ x, lo ≤ x → x < lo + vassize → covers vma x = none) ∧
      ∀ x, covers vma' x = paint (covers vma) lo (lo + vassize) (some (vaslimits, vastype)) x := by
  have hold : vma.vsList = l₁ ++ [r] ++ l₂ := by
    rw [h.list, List.append_assoc]
    rfl
  have hasc : regionView.Ascending (l₁ ++ r :: l₂) := h.list ▸ hv.asc
  have hrp : r.kvaStart < r.kvaEnd := hasc.at
  have hbefore : ∀ a ∈ l₁, a.kvaEnd ≤ r.kvaStart := fun a ha => hasc.before ha
  have hbehind := h.behind
  refine ⟨⟨?_, fun b hb => ?_, hall.trans hv.isalcend⟩, fun x hx hx' => ?_, fun x => ?_⟩
  · rw [hlist]
    refine View.Ascending.splice (hold ▸ hv.asc) hm (fun a ha b hb => ?_) fun b hb c hc => ?_
    · exact Nat.le_trans (hbefore a ha) (hlo b hb)
    · exact Nat.le_trans (hhi b hb) (h.before c hc)
  · rw [hlist, List.append_assoc, List.mem_append, List.mem_append] at hb
    rcases hb with hb | hb | hb
    · exact hv.top b (h.list ▸ List.mem_append_left _ hb)
    · exact Nat.le_trans (hhi b hb) h.top
    · exact hv.top b (h.list ▸ List.mem_append_right _ (List.mem_cons_of_mem _ hb))
  · refine look_eq_none fun a ha hax => ?_
    rw [h.list] at ha
    have hlt : x < a.kvaEnd := hax.2
    have hle : a.kvaStart ≤ x := hax.1
    rcases List.mem_append.mp ha with ha | ha
    · have := hbefore a ha
      omega
    · rcases List.mem_cons.mp ha with rfl | ha
      · omega
      · have := h.before a ha
        omega
  · show regionView.look vma'.vsList x = paint (regionView.look vma.vsList) _ _ _ x
    rw [hlist, hold]
    refine look_splice (fun a ha => ?_) (fun a ha => h.before a ha) hlook x
    have := hbefore a ha
    show a.kvaEnd ≤ lo
    omega

/-- **`vma_new_vadrs_core`** fails and changes nothing, or paints a free range. -/
theorem Alloced.covers (h : Alloced vma kms start vassize vaslimits vastype ret vma' kms')
    (hv : InOrder vma) (hnd : (vma.vsList.map Kmvarsdsc.adr).Nodup)
    (hnw : start + vassize < wordMod) :
    (ret = 0 ∧ vma' = vma) ∨ ret ≠ 0 ∧ (start ≠ 0 → ret = start) ∧ InOrder vma' ∧
      (∀ x, ret ≤ x → x < ret + vassize → covers vma x = none) ∧
      ∀ x, covers vma' x =
        paint (covers vma) ret (ret + vassize) (some (vaslimits, vastype)) x := by
  cases h with
  | refused kms' hout => exact Or.inl ⟨rfl, rfl⟩
  | grown r hfits hstart hlike =>
      right
      have hlo : r.kvaEnd = if start = 0 then r.kvaEnd else start := by
        by_cases h0 : start = 0
        · rw [if_pos h0]
        · rw [if_neg h0]
          omega
      obtain ⟨l₁, l₂, hgap⟩ := hfits.gap hv hnd hnw hlo
      have hrp : r.kvaStart < r.kvaEnd := hv.asc.proper r hfits.mem
      have hsz := hfits.size
      refine ⟨by omega, fun h0 => by omega, hgap.put hv
        (m := [{ r with kvaEnd := r.kvaEnd + vassize }]) ⟨fun b hb => ?_, List.pairwise_singleton _ _⟩
        (fun b hb => ?_) (fun b hb => ?_) (fun x => ?_) ?_ rfl⟩
      · rw [List.mem_singleton.mp hb]
        show r.kvaStart < r.kvaEnd + vassize
        omega
      · rw [List.mem_singleton.mp hb]
      · rw [List.mem_singleton.mp hb]
      · simp only [look_cons, look_nil, paint, View.Has, regionView, hlike.1, hlike.2]
        grind
      · show Chain.upd _ _ _ vma.vsList = _
        rw [hgap.list, Chain.upd_cut _ hgap.key, hgap.sum, List.append_assoc]
        rfl
  | added r hfits a kms' hnew hout lo hlo =>
      right
      obtain ⟨l₁, l₂, hgap⟩ := hfits.gap hv hnd hnw hlo
      have hrp : r.kvaStart < r.kvaEnd := hv.asc.proper r hfits.mem
      have hsz := hfits.size
      have hbehind := hgap.behind
      refine ⟨by omega, fun h0 => by rw [hlo, if_neg h0], hgap.put hv
        (m := [r, newRegion a ret vassize vaslimits vastype]) ⟨fun b hb => ?_, ?_⟩
        (fun b hb => ?_) (fun b hb => ?_) (fun x => ?_) ?_ rfl⟩
      · rcases List.mem_cons.mp hb with rfl | hb
        · exact hrp
        · rw [List.mem_singleton.mp hb]
          show ret < add64 ret vassize
          rw [hgap.sum]
          omega
      · refine List.pairwise_pair.mpr ?_
        exact hbehind
      · rcases List.mem_cons.mp hb with rfl | hb
        · exact Nat.le_refl _
        · rw [List.mem_singleton.mp hb]
          show r.kvaStart ≤ ret
          omega
      · rcases List.mem_cons.mp hb with rfl | hb
        · omega
        · rw [List.mem_singleton.mp hb]
          exact Nat.le_of_eq hgap.sum
      · simp only [look_cons, look_nil, paint, View.Has, regionView, newRegion, hgap.sum]
        grind
      · show Chain.add _ _ _ vma.vsList = _
        rw [hgap.list, Chain.add_cut hgap.key, List.append_assoc]
        rfl

/-- The descriptor does not count, and neither does the range given out. -/
theorem Alloced.look_of_not {β : Type} {V : View Kmvarsdsc β}
    (hlo' : V.lo = Kmvarsdsc.kvaStart) (hhi' : V.hi = Kmvarsdsc.kvaEnd)
    (hval : ∀ (r : Kmvarsdsc) hi, V.val { r with kvaEnd := hi } = V.val r)
    (h : Alloced vma kms start vassize vaslimits vastype ret vma' kms') (hv : InOrder vma)
    (hnd : (vma.vsList.map Kmvarsdsc.adr).Nodup) (hnw : start + vassize < wordMod) {x : Nat}
    (hx : ¬ (ret ≤ x ∧ x < ret + vassize)) : V.look vma'.vsList x = V.look vma.vsList x := by
  cases h with
  | refused kms' hout => rfl
  | grown r hfits hstart hlike =>
      have hlo : r.kvaEnd = if start = 0 then r.kvaEnd else start := by
        by_cases h0 : start = 0
        · rw [if_pos h0]
        · rw [if_neg h0]
          omega
      obtain ⟨l₁, l₂, hgap⟩ := hfits.gap hv hnd hnw hlo
      have hlist : (vma.write r fun r => { r with kvaEnd := add64 r.kvaEnd vassize }).vsList =
          l₁ ++ { r with kvaEnd := r.kvaEnd + vassize } :: l₂ := by
        show Chain.upd _ _ _ vma.vsList = _
        rw [hgap.list, Chain.upd_cut _ hgap.key, hgap.sum]
      show V.look (vma.write r fun r => { r with kvaEnd := add64 r.kvaEnd vassize }).vsList x = _
      rw [hlist, hgap.list, look_append, look_append, look_cons, look_cons, hval]
      have hhas : V.Has { r with kvaEnd := r.kvaEnd + vassize } x ↔ V.Has r x := by
        unfold View.Has
        rw [hlo', hhi']
        show r.kvaStart ≤ x ∧ x < r.kvaEnd + vassize ↔ _
        omega
      simp only [hhas]
  | added r hfits a kms' hnew hout lo hlo =>
      obtain ⟨l₁, l₂, hgap⟩ := hfits.gap hv hnd hnw hlo
      show V.look (Chain.add _ _ _ vma.vsList) x = _
      rw [hgap.list, Chain.add_cut hgap.key, look_append, look_append, look_cons, look_cons,
        look_cons]
      have hhas : ¬ V.Has (newRegion a ret vassize vaslimits vastype) x := by
        unfold View.Has
        rw [hlo', hhi']
        show ¬ (ret ≤ x ∧ x < add64 ret vassize)
        rw [hgap.sum]
        exact hx
      rw [if_neg hhas]

/-! ### Freeing -/

/-- **`vma_del_vadrs_core`** fails and changes no region, or leaves the rest of one. -/
theorem Freed.regions {b : Bool} (h : Freed s start vassize b s')
    (hnd : (s.vma.vsList.map Kmvarsdsc.adr).Nodup) :
    s'.vma.vsIsalcend = s.vma.vsIsalcend ∧ ((b = false ∧ s'.vma = s.vma) ∨
      b = true ∧ ∃ r l₁ l₂ a, Holds s.vma start vassize r ∧ s.vma.vsList = l₁ ++ r :: l₂ ∧
        s'.vma.vsList = l₁ ++ r.rest start (add64 start vassize) a ++ l₂) := by
  cases h with
  | refused kms hout hwhy => exact ⟨rfl, Or.inl ⟨rfl, rfl⟩⟩
  | whole r hr hlo hhi s₁ s₂ b₁ b₂ hun hput =>
      obtain ⟨l₁, l₂, hl, hkey⟩ := Chain.exists_cut hnd hr.mem
      have hvma := (vmaDelUnmapping_pagesOnly hun).vma
      have hput := knlPutKvmemcbox_vma hput
      constructor
      · show s₂.vma.vsIsalcend = _
        rw [hput]
        show (vmaDelSetEndcurrkmvd s₁.vma r).vsIsalcend = _
        unfold vmaDelSetEndcurrkmvd
        rw [hvma]
        cases s.vma.nextEntry r <;> rfl
      · refine Or.inr ⟨rfl, r, l₁, l₂, r.adr, hr, hl, ?_⟩
        show Chain.del _ _ s₂.vma.vsList = _
        rw [hput]
        show Chain.del _ _ (vmaDelSetEndcurrkmvd s₁.vma r).vsList = _
        rw [vmaDelSetEndcurrkmvd_vsList, hvma, hl, Chain.del_cut hkey]
        unfold Kmvarsdsc.rest
        rw [if_neg (by omega), if_neg (by omega), List.append_nil, List.append_nil]
  | front r hr hlo hhi s' b hun =>
      obtain ⟨l₁, l₂, hl, hkey⟩ := Chain.exists_cut hnd hr.mem
      have hvma := (vmaDelUnmapping_pagesOnly hun).vma
      constructor
      · rw [hvma]
        rfl
      · refine Or.inr ⟨rfl, r, l₁, l₂, r.adr, hr, hl, ?_⟩
        rw [hvma]
        show Chain.upd _ _ _ s.vma.vsList = _
        rw [hl, Chain.upd_cut _ hkey]
        unfold Kmvarsdsc.rest
        rw [if_neg (by omega), if_pos hhi, List.nil_append, List.append_assoc]
        rfl
  | back r hr hlo hhi s' b hun =>
      obtain ⟨l₁, l₂, hl, hkey⟩ := Chain.exists_cut hnd hr.mem
      have hvma := (vmaDelUnmapping_pagesOnly hun).vma
      constructor
      · rw [hvma]
        rfl
      · refine Or.inr ⟨rfl, r, l₁, l₂, r.adr, hr, hl, ?_⟩
        rw [hvma]
        show Chain.upd _ _ _ s.vma.vsList = _
        rw [hl, Chain.upd_cut _ hkey]
        unfold Kmvarsdsc.rest
        rw [if_pos hlo, if_neg (by omega), List.append_nil, List.append_assoc]
        rfl
  | split r hr hlo hhi a kms htake hnew hout s₁ b hun =>
      obtain ⟨l₁, l₂, hl, hkey⟩ := Chain.exists_cut hnd hr.mem
      have hvma : s₁.vma = s.vma.write r fun r => { r with kvaEnd := start } := by
        rw [(vmaDelUnmapping_pagesOnly hun).vma]
        cases r.kvaKvmbox <;> rfl
      constructor
      · show s₁.vma.vsIsalcend = _
        rw [hvma]
        rfl
      · refine Or.inr ⟨rfl, r, l₁, l₂, a, hr, hl, ?_⟩
        show Chain.add _ _ _ s₁.vma.vsList = _
        rw [hvma]
        show Chain.add _ _ _ (Chain.upd _ _ _ s.vma.vsList) = _
        rw [hl, Chain.upd_cut _ hkey]
        have hadd : Chain.add Kmvarsdsc.adr r.adr
            { r with adr := a, kvaStart := add64 start vassize }
            (l₁ ++ { r with kvaEnd := start } :: l₂) = l₁ ++ { r with kvaEnd := start } ::
              { r with adr := a, kvaStart := add64 start vassize } :: l₂ :=
          Chain.add_cut (r := { r with kvaEnd := start }) hkey
        rw [hadd]
        unfold Kmvarsdsc.rest
        rw [if_pos hlo, if_pos hhi, List.append_assoc]
        rfl

theorem mem_rest {start newend a : Nat} {c : Kmvarsdsc} (h : c ∈ r.rest start newend a) :
    (r.kvaStart < start ∧ c = { r with kvaEnd := start }) ∨
      (newend < r.kvaEnd ∧ c = { r with adr := a, kvaStart := newend }) := by
  rcases List.mem_append.mp h with h | h
  · by_cases hlt : r.kvaStart < start
    · rw [if_pos hlt] at h
      exact Or.inl ⟨hlt, List.mem_singleton.mp h⟩
    · rw [if_neg hlt] at h
      cases h
  · by_cases hlt : newend < r.kvaEnd
    · rw [if_pos hlt] at h
      exact Or.inr ⟨hlt, List.mem_singleton.mp h⟩
    · rw [if_neg hlt] at h
      cases h

/-- A region without a range in it. -/
theorem rest_asc {newend a : Nat} (hlt : start < newend) :
    regionView.Ascending (r.rest start newend a) := by
  constructor
  · intro c hc
    rcases mem_rest hc with ⟨h, rfl⟩ | ⟨h, rfl⟩
    · exact h
    · exact h
  · unfold Kmvarsdsc.rest
    refine List.pairwise_append.mpr ⟨?_, ?_, fun c hc d hd => ?_⟩
    · split
      · exact List.pairwise_singleton _ _
      · exact List.Pairwise.nil
    · split
      · exact List.pairwise_singleton _ _
      · exact List.Pairwise.nil
    · split at hc
      · split at hd
        · rw [List.mem_singleton.mp hc, List.mem_singleton.mp hd]
          exact Nat.le_of_lt hlt
        · cases hd
      · cases hc

/-- A reading of regions over their addresses, for which the descriptor does not count. -/
structure OverAdrs {β : Type} (V : View Kmvarsdsc β) : Prop where
  lo : V.lo = Kmvarsdsc.kvaStart
  hi : V.hi = Kmvarsdsc.kvaEnd
  val : ∀ r lo hi a, V.val { r with adr := a, kvaStart := lo, kvaEnd := hi } = V.val r

theorem regionView_overAdrs : OverAdrs regionView := ⟨rfl, rfl, fun _ _ _ _ => rfl⟩

/-- Read in any way, the rest of a region is the region without the range. -/
theorem look_rest {β : Type} {V : View Kmvarsdsc β} {newend a : Nat} (hV : OverAdrs V)
    (hlo : r.kvaStart ≤ start) (hhi : newend ≤ r.kvaEnd) (hlt : start < newend) (x : Nat) :
    V.look (r.rest start newend a) x = paint (V.look [r]) start newend none x := by
  have hfront := hV.val r r.kvaStart start r.adr
  have hback := hV.val r newend r.kvaEnd a
  unfold Kmvarsdsc.rest paint
  rw [look_append]
  by_cases h₁ : r.kvaStart < start <;> by_cases h₂ : newend < r.kvaEnd <;>
    simp only [h₁, h₂, if_true, if_false, look_cons, look_nil, View.Has, hV.lo, hV.hi, hfront,
      hback] <;> grind

/-- A region of an ordered list, and those before and behind it. -/
theorem InOrder.around {l₁ l₂ : List Kmvarsdsc} (hv : InOrder vma)
    (hl : vma.vsList = l₁ ++ r :: l₂) :
    (∀ c ∈ l₁, c.kvaEnd ≤ r.kvaStart) ∧ ∀ c ∈ l₂, r.kvaEnd ≤ c.kvaStart := by
  have hasc : regionView.Ascending (l₁ ++ r :: l₂) := hl ▸ hv.asc
  exact ⟨fun c hc => hasc.before hc, fun c hc => hasc.after hc⟩

/-- Read in any way, the regions are without the range afterwards. -/
theorem Freed.look {β : Type} {V : View Kmvarsdsc β} (hV : OverAdrs V)
    (h : Freed s start vassize true s') (hv : InOrder s.vma)
    (hnd : (s.vma.vsList.map Kmvarsdsc.adr).Nodup) (hnw : start + vassize < wordMod) (x : Nat) :
    V.look s'.vma.vsList x = paint (V.look s.vma.vsList) start (start + vassize) none x := by
  obtain ⟨-, ⟨hb, -⟩ | ⟨-, r, l₁, l₂, a, hr, hl, hl'⟩⟩ := h.regions hnd
  · cases hb
  have hlo := hr.lo
  have hhi := hr.hi
  have hsz := hr.size
  rw [add64_eq hnw] at hhi hl'
  have hold : s.vma.vsList = l₁ ++ [r] ++ l₂ := by
    rw [hl, List.append_assoc]
    rfl
  obtain ⟨hbefore, hafter⟩ := hv.around hl
  rw [hl', hold]
  refine look_splice (fun c hc => ?_) (fun c hc => ?_) (look_rest hV hlo hhi (by omega)) x
  · have := hbefore c hc
    rw [hV.hi]
    omega
  · have := hafter c hc
    rw [hV.lo]
    omega

theorem Freed.covers {b : Bool} (h : Freed s start vassize b s') (hv : InOrder s.vma)
    (hnd : (s.vma.vsList.map Kmvarsdsc.adr).Nodup) (hnw : start + vassize < wordMod) :
    (b = false ∧ s'.vma = s.vma) ∨ b = true ∧ InOrder s'.vma ∧
      ∀ x, covers s'.vma x = paint (covers s.vma) start (start + vassize) none x := by
  obtain ⟨hall, hold | ⟨hb, r, l₁, l₂, a, hr, hl, hl'⟩⟩ := h.regions hnd
  · exact Or.inl hold
  subst hb
  refine Or.inr ⟨rfl, ⟨?_, fun c hc => ?_, hall.trans hv.isalcend⟩,
    h.look regionView_overAdrs hv hnd hnw⟩
  all_goals
    rw [add64_eq hnw] at hl'
    have hlo := hr.lo
    have hhi := hr.hi
    have hsz := hr.size
    rw [add64_eq hnw] at hhi
    have hrtop := hv.top r hr.mem
    obtain ⟨hbefore, hafter⟩ := hv.around hl
  · have hold : s.vma.vsList = l₁ ++ [r] ++ l₂ := by
      rw [hl, List.append_assoc]
      rfl
    rw [hl']
    refine View.Ascending.splice (hold ▸ hv.asc) (rest_asc (by omega)) (fun c hc d hd => ?_)
      fun d hd c hc => ?_
    · have := hbefore c hc
      rcases mem_rest hd with ⟨-, rfl⟩ | ⟨-, rfl⟩
      · exact this
      · show c.kvaEnd ≤ start + vassize
        omega
    · have := hafter c hc
      rcases mem_rest hd with ⟨-, rfl⟩ | ⟨-, rfl⟩
      · show start ≤ c.kvaStart
        omega
      · exact this
  · rw [hl', List.append_assoc, List.mem_append, List.mem_append] at hc
    rcases hc with hc | hc | hc
    · exact hv.top c (hl ▸ List.mem_append_left _ hc)
    · rcases mem_rest hc with ⟨-, rfl⟩ | ⟨-, rfl⟩
      · show start ≤ _
        omega
      · exact hrtop
    · exact hv.top c (hl ▸ List.mem_append_right _ (List.mem_cons_of_mem _ hc))

/-! ### Page faults -/

theorem RegionBox.vma_eq {kmb : Nat} (h : RegionBox s r kmb s') :
    s'.vma = s.vma ∨ s'.vma = s.vma.write r fun r => { r with kvaKvmbox := some kmb } := by
  cases h with
  | there hbox => exact Or.inl rfl
  | got hbox s₁ hgot =>
      right
      cases hgot <;> rfl

/-- A fault gives a region a box and leaves the bounds, the limits and the types. -/
theorem Faired.regions {vadrs : Nat} {ret : FairRet} (h : Faired s vadrs ret s') :
    s'.vma.vsIsalcend = s.vma.vsIsalcend ∧
      s'.vma.vsList.map (fun r => (r.kvaStart, r.kvaEnd, r.kvaLimits, r.kvaMaptype)) =
        s.vma.vsList.map fun r => (r.kvaStart, r.kvaEnd, r.kvaLimits, r.kvaMaptype) := by
  cases h with
  | refused ret hret => exact ⟨rfl, rfl⟩
  | served r hr hlo hhi hmin hmax kmbox s₁ hbox phyadrs s₂ hmap filled =>
      have hvma : s₂.vma = s₁.vma := hmap.pagesOnly.vma
      rcases hbox.vma_eq with h₁ | h₁
      · rw [show _ = s₂.vma from rfl, hvma, h₁]
        exact ⟨rfl, rfl⟩
      · rw [show _ = s₂.vma from rfl, hvma, h₁]
        exact ⟨rfl, map_write s.vma r (fun r => { r with kvaKvmbox := some kmbox }) fun _ => rfl⟩

theorem Faired.inOrder {vadrs : Nat} {ret : FairRet} (h : Faired s vadrs ret s')
    (hv : InOrder s.vma) : InOrder s'.vma := by
  obtain ⟨hall, hmap⟩ := h.regions
  refine ⟨(look_of_map_eq hmap).2 hv.asc, fun r hr => ?_, hall.trans hv.isalcend⟩
  have hr := List.mem_map_of_mem
    (f := fun r : Kmvarsdsc => (r.kvaStart, r.kvaEnd, r.kvaLimits, r.kvaMaptype)) hr
  rw [hmap] at hr
  obtain ⟨r', hr', he⟩ := List.mem_map.mp hr
  rw [Prod.mk.injEq, Prod.mk.injEq] at he
  rw [← he.2.1]
  exact hv.top r' hr'

end List

/-! ## Runs without wrap-around -/

/-- The range of the call does not go past 2^64. -/
def VmaOp.NoWrap : VmaOp → Prop
  | .new start vassize _ _ => start + vadszAlign vassize < wordMod
  | .del start vassize => start + vadszAlign vassize < wordMod
  | .fair _ => True

instance (op : VmaOp) : Decidable op.NoWrap :=
  match op with
  | .new start vassize _ _ => inferInstanceAs (Decidable (start + vadszAlign vassize < wordMod))
  | .del start vassize => inferInstanceAs (Decidable (start + vadszAlign vassize < wordMod))
  | .fair _ => inferInstanceAs (Decidable True)

/-- The regions and the objects of an address space. -/
structure VmaInv (head0 base : List Nat) (s : VmaSt) : Prop where
  objs : ∃ mine, Objs head0 base s mine
  order : InOrder s.vma

theorem VmaInv.adr_nodup {head0 base : List Nat} {s : VmaSt} (h : VmaInv head0 base s) :
    (s.vma.vsList.map Kmvarsdsc.adr).Nodup := by
  obtain ⟨mine, hobjs⟩ := h.objs
  exact hobjs.adr_nodup

theorem vmaStep_inv {head0 base : List Nat} (s : VmaSt) (op : VmaOp) (s' : VmaSt)
    (h : VmaInv head0 base s) (hop : op.NoWrap) (hstep : vmaStep s op = .ok s') :
    VmaInv head0 base s' := by
  refine ⟨vmaStep_objs h.objs hstep, ?_⟩
  have hmove := vmaStep_move hstep
  cases op with
  | new start vassize vaslimits vastype =>
      obtain ⟨ret, vma, kms, ha, -, rfl⟩ := hmove
      rcases ha.covers h.order h.adr_nodup hop with ⟨-, rfl⟩ | ⟨-, -, hv, -⟩
      · exact h.order
      · exact hv
  | del start vassize =>
      obtain ⟨b, hf⟩ := hmove
      rcases hf.covers h.order h.adr_nodup hop with ⟨-, hvma⟩ | ⟨-, hv, -⟩
      · rw [hvma]
        exact h.order
      · exact hv
  | fair vadrs =>
      obtain ⟨ret, hf⟩ := hmove
      exact hf.inOrder h.order

theorem initUser_vsList (x y z : Nat) : (virmemadrsInit.initUser x y z).vsList =
    [kmvarsdscOf x 0x1000 0x5000 0, kmvarsdscOf y 0x100000000 0x100001000 kmvHeapType,
      kmvarsdscOf z 0x7fffc0000000 0x7fffffffffff kmvStackType] := by
  have hstack : vadszAlign (userVirtualAddressEnd - 0x40000000) = 0x7fffc0000000 := by decide
  unfold Virmemadrs.initUser
  rw [hstack]
  rfl

theorem initUser_inOrder (x y z : Nat) : InOrder (virmemadrsInit.initUser x y z) := by
  refine ⟨?_, ?_, rfl⟩
  · rw [initUser_vsList]
    constructor
    · simp [regionView, kmvarsdscOf]
    · simp [regionView, kmvarsdscOf]
  · rw [initUser_vsList]
    simp [kmvarsdscOf, userVirtualAddressEnd]

section Runs

variable {pml4 : Nat → Nat} {k s₀ : VmaSt} {mm : Nat}

theorem Made.inv (h : Made pml4 k mm s₀) (hk : BoxesLive k) :
    ∃ base, VmaInv k.mgr.kbmKmbhead base s₀ := by
  obtain ⟨base, -, -, hobjs⟩ := h.objs hk
  refine ⟨base, ⟨[], hobjs⟩, ?_⟩
  obtain ⟨x, y, z, hal, kms, rfl, -⟩ := h.start
  exact initUser_inOrder x y z

theorem run_vmaInv (h : Made pml4 k mm s₀) (hk : BoxesLive k) {ops : List VmaOp}
    (hops : ∀ op ∈ ops, op.NoWrap) {s : VmaSt} (hrun : run vmaStep ops s₀ = .ok s) :
    ∃ base, VmaInv k.mgr.kbmKmbhead base s := by
  obtain ⟨base, hinv⟩ := h.inv hk
  exact ⟨base, run_inv_of_allSteps (VmaInv k.mgr.kbmKmbhead base) (fun _ op => op.NoWrap)
    vmaStep_inv ops s₀ s hinv (allSteps_of_forall ops s₀ hops) hrun⟩

/-! ## The list is in order -/

/-- The regions ascend, none is empty or ends behind the last address of a user, and
none overlaps the next. -/
def RegionsOk (vma : Virmemadrs) : Prop :=
  vma.vsList.Pairwise (fun a b => a.kvaEnd ≤ b.kvaStart) ∧
    ∀ r ∈ vma.vsList, r.kvaStart < r.kvaEnd ∧ r.kvaEnd ≤ userVirtualAddressEnd

instance (vma : Virmemadrs) : Decidable (RegionsOk vma) :=
  inferInstanceAs (Decidable (_ ∧ _))

/-- **The regions are in order** in every state that calls lead to, as long as none has
a range that wraps. -/
theorem regions_inOrder (h : Made pml4 k mm s₀) (hk : BoxesLive k) (ops : List VmaOp)
    (hops : ∀ op ∈ ops, op.NoWrap) {s : VmaSt} (hrun : run vmaStep ops s₀ = .ok s) :
    RegionsOk s.vma := by
  obtain ⟨base, hinv⟩ := run_vmaInv h hk hops hrun
  exact ⟨hinv.order.asc.apart, fun r hr => ⟨hinv.order.asc.proper r hr, hinv.order.top r hr⟩⟩

/-- A kernel without address spaces, and with plenty of pages and objects. -/
def freshVma : VmaSt where
  vma := virmemadrsInit
  msdThread := none
  hal := freshMmu
  filled := fun _ => none
  box := fun _ => kvmemcboxInit
  mgr := {
    kbmKmbnr := 0
    kbmKmbhead := []
    kbmCachenr := 0
    kbmCachemax := kmboxCacheMax
    kbmCachehead := [] }
  kms := ⟨[], List.nodup_nil, fun n => some (0x10000 + 0x100 * n), 0⟩

theorem freshVma_boxesLive : BoxesLive freshVma where
  mem := fun _ hb => absurd hb List.not_mem_nil
  nodup := List.nodup_nil

/-- An address space that passes the test. -/
theorem exists_made {q : VmaSt → Bool}
    (h : okAnd ((newMmadrsdsc (copyPagesData 0)).run freshVma) (fun r =>
      r.1 = some 0x10000 && r.2.vma.vsKmvdscnr = 3 && r.2.hal.mmu.mudTdirearr.isSome && q r.2) =
        true) :
    ∃ s, Made (copyPagesData 0) freshVma 0x10000 s ∧ q s = true := by
  obtain ⟨⟨o, s⟩, hr, hq⟩ := exists_of_okAnd h
  simp only [Bool.and_eq_true, decide_eq_true_eq] at hq
  obtain ⟨⟨⟨rfl, hnr⟩, htop⟩, hq⟩ := hq
  exact ⟨s, ⟨hr, hnr, fun hnone => by rw [hnone] at htop; cases htop⟩, hq⟩

/-- A region of its own between the first two, and the middle of it freed again. -/
def splitRegion : List VmaOp :=
  [.new 0x200000 0x3000 0 1, .del 0x201000 0x1000]

theorem regions_inOrder_splitRegion : ∃ s : VmaSt,
    s.vma.vsList.length = 5 ∧ RegionsOk s.vma := by
  obtain ⟨s₀, hmade, hq⟩ := exists_made (q := fun s => okAnd (run vmaStep splitRegion s)
    fun t => t.vma.vsList.length = 5) (by decide +kernel)
  obtain ⟨s, hrun, hs⟩ := exists_of_okAnd hq
  exact ⟨s, of_decide_eq_true hs,
    regions_inOrder hmade freshVma_boxesLive splitRegion (by decide) hrun⟩

/-- A range that wraps: the new region ends at 0. -/
def wrapRegion : List VmaOp :=
  [.new 0x200000 (wordMod - 0x200000) 0 0]

theorem regions_not_inOrder : ¬ ∀ (k s₀ s : VmaSt) (mm : Nat) (ops : List VmaOp),
    Made (copyPagesData 0) k mm s₀ → BoxesLive k → run vmaStep ops s₀ = .ok s →
      RegionsOk s.vma := by
  intro hall
  obtain ⟨s₀, hmade, hq⟩ := exists_made (q := fun s => okAnd (run vmaStep wrapRegion s)
    fun t => !decide (RegionsOk t.vma)) (by decide +kernel)
  obtain ⟨s, hrun, hs⟩ := exists_of_okAnd hq
  have hok := hall freshVma s₀ s _ wrapRegion hmade freshVma_boxesLive hrun
  rw [decide_eq_true hok] at hs
  cases hs

/-! ## The map of addresses -/

/-- A call of `vma_new_vadrs` fails and leaves the list, or it paints a range that was
free. -/
def NewExact (vma : Virmemadrs) (start vassize vaslimits vastype ret : Nat) (vma' : Virmemadrs) :
    Prop :=
  (ret = 0 → vma'.vsList = vma.vsList) ∧
  (ret ≠ 0 → (start ≠ 0 → ret = start) ∧
    (∀ x, ret ≤ x → x < ret + vadszAlign vassize → covers vma x = none) ∧
    ∀ x, covers vma' x =
      paint (covers vma) ret (ret + vadszAlign vassize) (some (vaslimits, vastype)) x)

/-- A call of `vma_del_vadrs` fails and leaves the list, or it takes the range out. -/
def DelExact (vma : Virmemadrs) (start vassize : Nat) (b : Bool) (vma' : Virmemadrs) : Prop :=
  (b = false → vma'.vsList = vma.vsList) ∧
  (b = true → ∀ x, covers vma' x =
    paint (covers vma) start (start + vadszAlign vassize) none x)

/-- What the two calls do in a state, whatever their arguments are, as long as the range
ends within the addresses of a user. -/
structure CallsExact (s : VmaSt) : Prop where
  new : ∀ start vassize vaslimits vastype,
    start + vadszAlign vassize ≤ userVirtualAddressEnd →
    NewExact s.vma start vassize vaslimits vastype
      (vmaNewVadrs s.vma s.kms start vassize vaslimits vastype).1
      (vmaNewVadrs s.vma s.kms start vassize vaslimits vastype).2.1
  del : ∀ start vassize b s', start + vadszAlign vassize ≤ userVirtualAddressEnd →
    (vmaDelVadrs start vassize).run s = .ok (b, s') → DelExact s.vma start vassize b s'.vma

theorem VmaInv.callsExact {head0 base : List Nat} {s : VmaSt} (h : VmaInv head0 base s) :
    CallsExact s := by
  have hend : userVirtualAddressEnd < wordMod := by decide
  constructor
  · intro start vassize vaslimits vastype htop
    have hnw := Nat.lt_of_le_of_lt htop hend
    obtain ⟨ha, -⟩ := vmaNewVadrs_cases s.vma s.kms start vassize vaslimits vastype
    rcases ha.covers h.order h.adr_nodup hnw with ⟨hret, hvma⟩ | ⟨hret, hstart, -, hfree, hpaint⟩
    · exact ⟨fun _ => by rw [hvma], fun hne => absurd hret hne⟩
    · exact ⟨fun h0 => absurd h0 hret, fun _ => ⟨hstart, hfree, hpaint⟩⟩
  · intro start vassize b s' htop hrun
    have hnw := Nat.lt_of_le_of_lt htop hend
    obtain ⟨hf, -⟩ := vmaDelVadrs_cases hrun
    rcases hf.covers h.order h.adr_nodup hnw with ⟨hb, hvma⟩ | ⟨hb, -, hpaint⟩
    · subst hb
      exact ⟨fun _ => by rw [hvma], fun ht => absurd ht (by decide)⟩
    · subst hb
      exact ⟨fun hf => absurd hf (by decide), fun _ => hpaint⟩

/-- **The calls do to the map of addresses what they are for**, in every state that
calls lead to, as long as none has a range that wraps. -/
theorem covers_exact (h : Made pml4 k mm s₀) (hk : BoxesLive k) (ops : List VmaOp)
    (hops : ∀ op ∈ ops, op.NoWrap) {s : VmaSt} (hrun : run vmaStep ops s₀ = .ok s) :
    CallsExact s := by
  obtain ⟨base, hinv⟩ := run_vmaInv h hk hops hrun
  exact hinv.callsExact

theorem covers_exact_splitRegion : ∃ s : VmaSt,
    covers s.vma 0x200fff = some (0, 1) ∧ covers s.vma 0x201000 = none ∧ CallsExact s := by
  obtain ⟨s₀, hmade, hq⟩ := exists_made (q := fun s => okAnd (run vmaStep splitRegion s)
    fun t => covers t.vma 0x200fff = some (0, 1) && covers t.vma 0x201000 = none)
    (by decide +kernel)
  obtain ⟨s, hrun, hs⟩ := exists_of_okAnd hq
  simp only [Bool.and_eq_true, decide_eq_true_eq] at hs
  exact ⟨s, hs.1, hs.2,
    covers_exact hmade freshVma_boxesLive splitRegion (by decide) hrun⟩

theorem covers_not_exact : ¬ ∀ (k s₀ s : VmaSt) (mm : Nat) (ops : List VmaOp),
    Made (copyPagesData 0) k mm s₀ → BoxesLive k → run vmaStep ops s₀ = .ok s →
      CallsExact s := by
  intro hall
  obtain ⟨s₀, hmade, hq⟩ := exists_made (q := fun s => okAnd (run vmaStep wrapRegion s)
    fun t => (vmaNewVadrs t.vma t.kms 0x3000 0x1000 0 0).1 = 0x3000 &&
      covers t.vma 0x3000 = some (0, 0)) (by decide +kernel)
  obtain ⟨s, hrun, hs⟩ := exists_of_okAnd hq
  simp only [Bool.and_eq_true, decide_eq_true_eq] at hs
  -- the range from 0x3000 is given out although the first region has it
  have hnew := (hall freshVma s₀ s _ wrapRegion hmade freshVma_boxesLive hrun).new
    0x3000 0x1000 0 0 (by decide)
  rw [hs.1] at hnew
  have hfree := (hnew.2 (by decide)).2.1 0x3000 (Nat.le_refl _) (by decide)
  rw [hs.2] at hfree
  cases hfree

end Runs

end Cosmos.Kernel
