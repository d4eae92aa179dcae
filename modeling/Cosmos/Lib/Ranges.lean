import Mathlib.Data.List.Basic
import Mathlib.Data.List.Pairwise

/-!
# Ascending lists of labelled ranges

A list whose elements each stand for a half-open range of numbers with a label, in
ascending order and apart from each other, is a partial function from numbers to
labels.  Replacing some consecutive elements by others is one operation on lists, and
painting a range over with a label, or with nothing, is one operation on functions:
`look_splice` says when the first does the second.

## Main results

* `Ascending.splice` : a list stays ascending when a part of it is replaced.
* `look_splice` : and then its function is painted over.
* `look_of_mem`, `look_some` : an ascending list shows the label of each element.
-/

namespace Cosmos.Lib.Ranges

variable {α β : Type}

/-- How elements stand for labelled ranges. -/
structure View (α β : Type) where
  lo : α → Nat
  hi : α → Nat
  val : α → β

variable (V : View α β)

/-- The number is in the range of the element. -/
def View.Has (a : α) (x : Nat) : Prop := V.lo a ≤ x ∧ x < V.hi a

instance (a : α) (x : Nat) : Decidable (V.Has a x) :=
  inferInstanceAs (Decidable (_ ∧ _))

/-- The label that the list gives a number. -/
def View.look (l : List α) (x : Nat) : Option β := (l.find? fun a => V.Has a x).map V.val

/-- No range is empty, and each ends before the next begins. -/
structure View.Ascending (l : List α) : Prop where
  proper : ∀ a ∈ l, V.lo a < V.hi a
  apart : l.Pairwise fun a b => V.hi a ≤ V.lo b

/-- The function that is `o` on the range and as before elsewhere. -/
def paint (f : Nat → Option β) (lo hi : Nat) (o : Option β) (x : Nat) : Option β :=
  if lo ≤ x ∧ x < hi then o else f x

variable {V} {l l₁ l₂ m m' : List α} {a c : α} {lo hi x : Nat}

theorem look_append (l₁ l₂ : List α) (x : Nat) :
    V.look (l₁ ++ l₂) x = (V.look l₁ x).or (V.look l₂ x) := by
  unfold View.look
  rw [List.find?_append, Option.map_or]

theorem look_nil (x : Nat) : V.look [] x = none := rfl

theorem look_cons (a : α) (l : List α) (x : Nat) :
    V.look (a :: l) x = if V.Has a x then some (V.val a) else V.look l x := by
  unfold View.look
  by_cases h : V.Has a x
  · simp only [h, decide_true, List.find?_cons_of_pos, Option.map_some, if_true]
  · rw [if_neg h, List.find?_cons_of_neg (by simpa using h)]

theorem look_eq_none (h : ∀ a ∈ l, ¬ V.Has a x) : V.look l x = none := by
  unfold View.look
  rw [List.find?_eq_none.mpr fun a ha => by simpa using h a ha]
  rfl

theorem has_of_look {b : β} (h : V.look l x = some b) : ∃ a ∈ l, V.Has a x ∧ V.val a = b := by
  obtain ⟨a, ha, hb⟩ := Option.map_eq_some_iff.mp h
  have hx := List.find?_some ha
  exact ⟨a, List.mem_of_find?_eq_some ha, of_decide_eq_true hx, hb⟩

/-! ## One element of an ascending list -/

theorem View.Ascending.before (h : V.Ascending (l₁ ++ c :: l₂)) (ha : a ∈ l₁) :
    V.hi a ≤ V.lo c :=
  (List.pairwise_append.mp h.apart).2.2 a ha c List.mem_cons_self

theorem View.Ascending.after (h : V.Ascending (l₁ ++ c :: l₂)) (ha : a ∈ l₂) :
    V.hi c ≤ V.lo a :=
  (List.pairwise_cons.mp (List.pairwise_append.mp h.apart).2.1).1 a ha

theorem View.Ascending.at (h : V.Ascending (l₁ ++ c :: l₂)) : V.lo c < V.hi c :=
  h.proper c (List.mem_append_right l₁ List.mem_cons_self)

/-- Two elements that share a number are one. -/
theorem View.Ascending.unique (h : V.Ascending l) (ha : a ∈ l) (hc : c ∈ l) (hax : V.Has a x)
    (hcx : V.Has c x) : a = c := by
  obtain ⟨l₁, l₂, rfl⟩ := List.append_of_mem hc
  rcases List.mem_append.mp ha with ha | ha
  · have := h.before ha
    exact absurd (Nat.lt_of_lt_of_le hax.2 this) (Nat.not_lt.mpr hcx.1)
  · rcases List.mem_cons.mp ha with rfl | ha
    · rfl
    · have := h.after ha
      exact absurd (Nat.lt_of_lt_of_le hcx.2 this) (Nat.not_lt.mpr hax.1)

theorem look_of_mem (h : V.Ascending l) (ha : a ∈ l) (hx : V.Has a x) :
    V.look l x = some (V.val a) := by
  cases hl : V.look l x with
  | none =>
      have hn : l.find? (fun a => decide (V.Has a x)) = none := Option.map_eq_none_iff.mp hl
      have := List.find?_eq_none.mp hn a ha
      exact absurd (decide_eq_true hx) this
  | some b =>
      obtain ⟨c, hc, hcx, rfl⟩ := has_of_look hl
      rw [h.unique ha hc hx hcx]

/-- The ranges and the labels are all that counts. -/
theorem look_of_map_eq {l' : List α}
    (h : l'.map (fun a => (V.lo a, V.hi a, V.val a)) = l.map fun a => (V.lo a, V.hi a, V.val a)) :
    V.look l' = V.look l ∧ (V.Ascending l → V.Ascending l') := by
  induction l generalizing l' with
  | nil =>
      rw [List.map_nil, List.map_eq_nil_iff] at h
      subst h
      exact ⟨rfl, id⟩
  | cons a l ih =>
      cases l' with
      | nil => cases h
      | cons a' l' =>
          rw [List.map_cons, List.map_cons, List.cons.injEq, Prod.mk.injEq, Prod.mk.injEq] at h
          obtain ⟨⟨hlo, hhi, hval⟩, htail⟩ := h
          obtain ⟨hlook, hasc⟩ := ih htail
          constructor
          · funext x
            have hhas : V.Has a' x ↔ V.Has a x := by
              unfold View.Has
              rw [hlo, hhi]
            rw [look_cons, look_cons, hlook, hval]
            by_cases hx : V.Has a x
            · rw [if_pos hx, if_pos (hhas.mpr hx)]
            · rw [if_neg hx, if_neg fun hx' => hx (hhas.mp hx')]
          · intro h
            have hrest := hasc ⟨fun b hb => h.proper b (List.mem_cons_of_mem a hb),
              (List.pairwise_cons.mp h.apart).2⟩
            refine ⟨fun b hb => ?_, List.pairwise_cons.mpr ⟨fun b hb => ?_, hrest.apart⟩⟩
            · rcases List.mem_cons.mp hb with rfl | hb
              · rw [hlo, hhi]
                exact h.proper a List.mem_cons_self
              · exact hrest.proper b hb
            · -- the element of the old list at the place of `b`
              have hb' := List.mem_map_of_mem (f := fun a => (V.lo a, V.hi a, V.val a)) hb
              rw [htail] at hb'
              obtain ⟨c, hc, hcb⟩ := List.mem_map.mp hb'
              rw [Prod.mk.injEq] at hcb
              rw [hhi, ← hcb.1]
              exact (List.pairwise_cons.mp h.apart).1 c hc

/-! ## Replacing a part -/

theorem View.Ascending.splice (h : V.Ascending (l₁ ++ m ++ l₂)) (hm : V.Ascending m')
    (hlo : ∀ a ∈ l₁, ∀ b ∈ m', V.hi a ≤ V.lo b) (hhi : ∀ b ∈ m', ∀ c ∈ l₂, V.hi b ≤ V.lo c) :
    V.Ascending (l₁ ++ m' ++ l₂) := by
  obtain ⟨hl, hl₂, hlc⟩ := List.pairwise_append.mp h.apart
  obtain ⟨hl₁, -, -⟩ := List.pairwise_append.mp hl
  constructor
  · intro a ha
    simp only [List.mem_append] at ha
    rcases ha with (ha | ha) | ha
    · exact h.proper a (by simp [ha])
    · exact hm.proper a ha
    · exact h.proper a (by simp [ha])
  · refine List.pairwise_append.mpr ⟨List.pairwise_append.mpr ⟨hl₁, hm.apart, hlo⟩, hl₂, ?_⟩
    intro a ha c hc
    rcases List.mem_append.mp ha with ha | ha
    · exact hlc a (List.mem_append_left m ha) c hc
    · exact hhi a ha c hc

/-- **A part that differs by painting a range over**, where no other part has that range. -/
theorem look_splice {o : Option β} (hlo : ∀ a ∈ l₁, V.hi a ≤ lo) (hhi : ∀ a ∈ l₂, hi ≤ V.lo a)
    (hm : ∀ x, V.look m' x = paint (V.look m) lo hi o x) (x : Nat) :
    V.look (l₁ ++ m' ++ l₂) x = paint (V.look (l₁ ++ m ++ l₂)) lo hi o x := by
  have hold := hm x
  unfold paint at hold ⊢
  simp only [look_append]
  by_cases hx : lo ≤ x ∧ x < hi
  · rw [if_pos hx] at hold ⊢
    have h₁ : V.look l₁ x = none :=
      look_eq_none fun a ha hax => by
        have := hlo a ha
        exact absurd hax.2 (by omega)
    have h₂ : V.look l₂ x = none :=
      look_eq_none fun a ha hax => by
        have := hhi a ha
        exact absurd hax.1 (by omega)
    rw [hold, h₁, h₂, Option.none_or, Option.or_none]
  · rw [if_neg hx] at hold ⊢
    rw [hold]

end Cosmos.Lib.Ranges
