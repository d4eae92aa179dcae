import Mathlib.Data.List.Nodup
import Mathlib.Data.List.Perm.Basic

/-!
# Linked lists by key

An intrusive list is walked from a node that the caller holds: the node after it, the
node before it, a node linked in after it, the node unlinked, the node's own fields
written.  Here the list is the list of its nodes and a node is known by its key (its
address).  Each operation has one lemma, on a list that is cut at the node.

## Main results

* `exists_cut` : a list with different keys can be cut at any of its nodes.
* `next_cut`, `prev_cut`, `add_cut`, `upd_cut`, `del_cut` : what each operation does.
* `add_perm`, `upd_perm`, `del_perm` : the same, without the order.
-/

namespace Cosmos.Lib.Chain

variable {α κ : Type} [DecidableEq κ] (key : α → κ)

/-- The node with the key. -/
def node (k : κ) (l : List α) : Option α := l.find? fun a => key a = k

/-- The node after the one with the key. -/
def next (k : κ) : List α → Option α
  | [] => none
  | a :: l => if key a = k then l.head? else next k l

/-- The node before the one with the key. -/
def prev (k : κ) : List α → Option α
  | a :: b :: l => if key b = k then some a else prev k (b :: l)
  | _ => none

/-- `x` is linked in after the node with the key. -/
def add (k : κ) (x : α) : List α → List α
  | [] => []
  | a :: l => if key a = k then a :: x :: l else a :: add k x l

/-- The fields of the node with the key are written. -/
def upd (k : κ) (f : α → α) : List α → List α
  | [] => []
  | a :: l => if key a = k then f a :: l else a :: upd k f l

/-- The node with the key is unlinked. -/
def del (k : κ) (l : List α) : List α := l.eraseP fun a => key a = k

/-! ## Cutting at a node -/

variable {key} {l l₁ l₂ : List α} {r x : α} {k : κ}

omit [DecidableEq κ] in
theorem exists_cut (hnd : (l.map key).Nodup) (hr : r ∈ l) :
    ∃ l₁ l₂, l = l₁ ++ r :: l₂ ∧ ∀ a ∈ l₁, key a ≠ key r := by
  obtain ⟨l₁, l₂, rfl⟩ := List.append_of_mem hr
  refine ⟨l₁, l₂, rfl, fun a ha he => ?_⟩
  rw [List.map_append, List.nodup_append] at hnd
  exact hnd.2.2 _ (List.mem_map_of_mem ha) _ (List.mem_map_of_mem List.mem_cons_self) he

theorem mem_of_node (h : node key k l = some r) : r ∈ l :=
  List.mem_of_find?_eq_some h

theorem next_cut (h : ∀ a ∈ l₁, key a ≠ key r) :
    next key (key r) (l₁ ++ r :: l₂) = l₂.head? := by
  induction l₁ with
  | nil => exact if_pos rfl
  | cons a l₁ ih =>
      have ha := h a List.mem_cons_self
      show (if key a = key r then _ else _) = _
      rw [if_neg ha]
      exact ih fun b hb => h b (List.mem_cons_of_mem a hb)

theorem add_cut (h : ∀ a ∈ l₁, key a ≠ key r) :
    add key (key r) x (l₁ ++ r :: l₂) = l₁ ++ r :: x :: l₂ := by
  induction l₁ with
  | nil => exact if_pos rfl
  | cons a l₁ ih =>
      have ha := h a List.mem_cons_self
      show (if key a = key r then _ else _) = _
      rw [if_neg ha]
      exact congrArg (a :: ·) (ih fun b hb => h b (List.mem_cons_of_mem a hb))

theorem upd_cut (f : α → α) (h : ∀ a ∈ l₁, key a ≠ key r) :
    upd key (key r) f (l₁ ++ r :: l₂) = l₁ ++ f r :: l₂ := by
  induction l₁ with
  | nil => exact if_pos rfl
  | cons a l₁ ih =>
      have ha := h a List.mem_cons_self
      show (if key a = key r then _ else _) = _
      rw [if_neg ha]
      exact congrArg (a :: ·) (ih fun b hb => h b (List.mem_cons_of_mem a hb))

theorem del_cut (h : ∀ a ∈ l₁, key a ≠ key r) :
    del key (key r) (l₁ ++ r :: l₂) = l₁ ++ l₂ := by
  unfold del
  rw [List.eraseP_append_right _ fun a ha => by simpa using h a ha,
    List.eraseP_cons_of_pos (by simp)]

theorem prev_cut (h : ∀ a ∈ l₁, key a ≠ key r) :
    prev key (key r) (l₁ ++ r :: l₂) = l₁.getLast? ∨ l₁ = [] := by
  induction l₁ with
  | nil => exact Or.inr rfl
  | cons a l₁ ih =>
      left
      cases l₁ with
      | nil => exact if_pos rfl
      | cons b l₁ =>
          have hb := h b (List.mem_cons_of_mem a List.mem_cons_self)
          show (if key b = key r then _ else _) = _
          rw [if_neg hb]
          have htail := ih fun c hc => h c (List.mem_cons_of_mem a hc)
          rcases htail with htail | htail
          · rw [List.getLast?_cons_cons]
            exact htail
          · cases htail

/-! ## Without the order -/

theorem add_perm (hnd : (l.map key).Nodup) (hr : r ∈ l) :
    (add key (key r) x l).Perm (x :: l) := by
  obtain ⟨l₁, l₂, rfl, hl₁⟩ := exists_cut hnd hr
  rw [add_cut hl₁]
  have hcomm : ((l₁ ++ [r]) ++ x :: l₂).Perm (x :: ((l₁ ++ [r]) ++ l₂)) := List.perm_middle
  simpa using hcomm

theorem del_perm (hnd : (l.map key).Nodup) (hr : r ∈ l) :
    l.Perm (r :: del key (key r) l) := by
  obtain ⟨l₁, l₂, rfl, hl₁⟩ := exists_cut hnd hr
  rw [del_cut hl₁]
  exact List.perm_middle

theorem upd_perm (f : α → α) (hnd : (l.map key).Nodup) (hr : r ∈ l) :
    (upd key (key r) f l).Perm (f r :: del key (key r) l) := by
  obtain ⟨l₁, l₂, rfl, hl₁⟩ := exists_cut hnd hr
  rw [upd_cut f hl₁, del_cut hl₁]
  exact List.perm_middle

/-- What writing does not change, reads as before. -/
theorem map_upd {β : Type} {g : α → β} {f : α → α} (h : ∀ a, g (f a) = g a) (k : κ)
    (l : List α) : (upd key k f l).map g = l.map g := by
  induction l with
  | nil => rfl
  | cons a l ih =>
      show (if key a = k then f a :: l else a :: upd key k f l).map g = _
      by_cases ha : key a = k
      · rw [if_pos ha, List.map_cons, List.map_cons, h]
      · rw [if_neg ha, List.map_cons, List.map_cons, ih]

/-- Writing a node is a map, if keys are unique. -/
theorem upd_eq_map (f : α → α) (hnd : (l.map key).Nodup) (hr : r ∈ l) :
    upd key (key r) f l = l.map fun a => if key a = key r then f a else a := by
  obtain ⟨l₁, l₂, rfl, hl₁⟩ := exists_cut hnd hr
  have hl₂ : ∀ a ∈ l₂, key a ≠ key r := by
    intro a ha he
    rw [List.map_append, List.map_cons] at hnd
    exact (List.nodup_cons.mp (List.nodup_append.mp hnd).2.1).1 (he ▸ List.mem_map_of_mem ha)
  have hsame : ∀ l : List α, (∀ a ∈ l, key a ≠ key r) →
      (l.map fun a => if key a = key r then f a else a) = l := fun l hl =>
    (List.map_congr_left fun a ha => if_neg (hl a ha)).trans (List.map_id' l)
  rw [upd_cut f hl₁, List.map_append, List.map_cons, hsame l₁ hl₁, hsame l₂ hl₂, if_pos rfl]

end Cosmos.Lib.Chain
