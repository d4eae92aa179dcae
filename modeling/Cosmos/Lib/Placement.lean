import Mathlib.Data.List.Nodup
import Mathlib.Data.List.Perm.Basic
import Mathlib.Logic.Function.Basic

/-!
# Items that are on one list at a time

A family of lists, one for each **place**, and a function that says where each
item is.  `Placed` says that an item is on the list of its place once and on no
other list.  Operations on intrusive lists put an item on a list, take it off,
or move it; each of these is one lemma here.

## Main results

* `Placed.add`, `Placed.move`, `Placed.relink` : the operations.
* `Placed.unique` : an item that has a place is at exactly one.
-/

namespace Cosmos.Lib.Placement

variable {ι K : Type*}

/-- Every item is on the list of its place, once, and on no other list. -/
structure Placed (L : K → List ι) (plc : ι → Option K) : Prop where
  nodup : ∀ k, (L k).Nodup
  mem : ∀ k x, x ∈ L k ↔ plc x = some k

section Place

variable {L : K → List ι} {plc : ι → Option K}

theorem Placed.not_mem (h : Placed L plc) {k j : K} {x : ι} (hx : plc x = some k) (hj : j ≠ k) :
    x ∉ L j := by
  intro hmem
  have hat := (h.mem j x).mp hmem
  rw [hx] at hat
  exact hj (Option.some.inj hat).symm

theorem Placed.unique (h : Placed L plc) {x : ι} {k : K} (hx : plc x = some k) :
    ∃! j, x ∈ L j := by
  refine ⟨k, (h.mem k x).mpr hx, fun j hj => ?_⟩
  have hat := (h.mem j x).mp hj
  rw [hx] at hat
  exact (Option.some.inj hat).symm

/-- A list that does not hold the item is not changed by taking it off. -/
theorem Placed.erase_ne [DecidableEq ι] (h : Placed L plc) {k j : K} {x : ι}
    (hx : plc x = some k) (hj : j ≠ k) : (L j).erase x = L j :=
  List.erase_of_not_mem (h.not_mem hx hj)

variable [DecidableEq ι]

/-- A new item is put on a list. -/
theorem Placed.add (h : Placed L plc) {L' : K → List ι} {x : ι} (k : K) (hx : plc x = none)
    (hto : (L' k).Perm (x :: L k)) (hother : ∀ j, j ≠ k → L' j = L j) :
    Placed L' (Function.update plc x (some k)) := by
  have hnew : ∀ j, x ∉ L j := by
    intro j hmem
    have hat := (h.mem j x).mp hmem
    rw [hx] at hat
    cases hat
  constructor
  · intro j
    by_cases hj : j = k
    · subst hj
      rw [hto.nodup_iff, List.nodup_cons]
      exact ⟨hnew j, h.nodup j⟩
    · rw [hother j hj]
      exact h.nodup j
  · intro j y
    by_cases hy : y = x
    · subst hy
      rw [Function.update_self]
      by_cases hj : j = k
      · subst hj
        rw [hto.mem_iff]
        simp
      · rw [hother j hj, Option.some.injEq]
        exact iff_of_false (hnew j) (Ne.symm hj)
    · rw [Function.update_of_ne hy]
      by_cases hj : j = k
      · subst hj
        rw [hto.mem_iff, List.mem_cons, or_iff_right hy]
        exact h.mem j y
      · rw [hother j hj]
        exact h.mem j y

/-- An item is moved from one list to another. -/
theorem Placed.move (h : Placed L plc) {L' : K → List ι} {x : ι} (k k' : K)
    (hx : plc x = some k) (hne : k ≠ k') (hfrom : L' k = (L k).erase x)
    (hto : (L' k').Perm (x :: L k')) (hother : ∀ j, j ≠ k → j ≠ k' → L' j = L j) :
    Placed L' (Function.update plc x (some k')) := by
  constructor
  · intro j
    by_cases hj' : j = k'
    · subst hj'
      rw [hto.nodup_iff, List.nodup_cons]
      exact ⟨h.not_mem hx (Ne.symm hne), h.nodup j⟩
    · by_cases hj : j = k
      · subst hj
        rw [hfrom]
        exact (h.nodup j).erase x
      · rw [hother j hj hj']
        exact h.nodup j
  · intro j y
    by_cases hy : y = x
    · subst hy
      rw [Function.update_self, Option.some.injEq]
      by_cases hj' : j = k'
      · subst hj'
        rw [hto.mem_iff]
        simp
      · by_cases hj : j = k
        · subst hj
          rw [hfrom]
          exact iff_of_false ((h.nodup j).not_mem_erase) hne.symm
        · rw [hother j hj hj']
          exact iff_of_false (h.not_mem hx hj) (Ne.symm hj')
    · rw [Function.update_of_ne hy]
      by_cases hj' : j = k'
      · subst hj'
        rw [hto.mem_iff, List.mem_cons, or_iff_right hy]
        exact h.mem j y
      · by_cases hj : j = k
        · subst hj
          rw [hfrom, List.mem_erase_of_ne hy]
          exact h.mem j y
        · rw [hother j hj hj']
          exact h.mem j y

/-- An item is taken off whatever list it is on and put first on another. -/
theorem Placed.relink (h : Placed L plc) {L' : K → List ι} {x : ι} (k k' : K)
    (hx : plc x = some k) (hne : k ≠ k') (hto : L' k' = x :: (L k').erase x)
    (hother : ∀ j, j ≠ k' → L' j = (L j).erase x) :
    Placed L' (Function.update plc x (some k')) := by
  refine h.move k k' hx hne (hother k hne) ?_ fun j hj hj' => ?_
  · rw [hto, h.erase_ne hx (Ne.symm hne)]
  · rw [hother j hj', h.erase_ne hx hj]

end Place

/-- Items of a list that are not on a sublist of it. -/
theorem length_filter_not_mem [DecidableEq ι] {l e : List ι} (hl : l.Nodup) (he : e.Nodup)
    (hsub : e ⊆ l) : (l.filter fun x => x ∉ e).length + e.length = l.length := by
  have hperm : (l.filter fun x => x ∈ e).Perm e := by
    rw [List.perm_ext_iff_of_nodup (hl.filter _) he]
    intro x
    rw [List.mem_filter, decide_eq_true_iff]
    exact ⟨fun h => h.2, fun h => ⟨hsub h, h⟩⟩
  have hsum := List.length_eq_length_filter_add (l := l) fun x => decide (x ∈ e)
  rw [hperm.length_eq] at hsum
  have hnot : (l.filter fun x => !decide (x ∈ e)) = l.filter fun x => x ∉ e :=
    List.filter_congr fun x _ => by simp
  rw [hnot] at hsum
  omega

end Cosmos.Lib.Placement
