import Mathlib.Data.List.Flatten
import Mathlib.Data.List.Nodup
import Mathlib.Logic.Function.Basic

/-!
# Rings of linked nodes

Nodes with pointers in both directions, of which some form rings: `IsRing l h xs` says that from
`h` the pointers `next` lead through `xs` and back to `h`, and that the pointers `prev` lead the
other way.  Any node of a ring can be taken for its first one (`ring_rotate`), so what is done
to a ring is described where it happens, at its first node.

## Main results

* `IsRing.insert` : a node is linked in behind the first one.
* `IsRing.remove` : the first node is unlinked.
* `IsRing.congr` : only the pointers of its own nodes matter to a ring.
-/

namespace Cosmos.Lib.Rings

/-- The pointers of all nodes. -/
structure Links (α : Type) where
  prev : α → α
  next : α → α

variable {α : Type} {l l' : Links α} {a b h p q new y z : α} {xs ys : List α}

/-- `b` comes right behind `a`. -/
def Links.Edge (l : Links α) (a b : α) : Prop := l.next a = b ∧ l.prev b = a

/-- From `a` through `xs` to `b`. -/
def Leads (l : Links α) (a : α) : List α → α → Prop
  | [], b => l.Edge a b
  | x :: xs, b => l.Edge a x ∧ Leads l x xs b

@[simp] theorem leads_nil : Leads l a [] b ↔ l.Edge a b := Iff.rfl

@[simp] theorem leads_cons : Leads l a (y :: xs) b ↔ l.Edge a y ∧ Leads l y xs b := Iff.rfl

theorem leads_append : Leads l a (xs ++ y :: ys) b ↔ Leads l a xs y ∧ Leads l y ys b := by
  induction xs generalizing a with
  | nil => exact Iff.rfl
  | cons x xs ih => simp only [List.cons_append, leads_cons, ih, and_assoc]

/-- It depends on where its nodes point to, and on where the pointers back come from. -/
theorem Leads.congr (hl : Leads l a xs b) (hnext : ∀ x ∈ a :: xs, l'.next x = l.next x)
    (hprev : ∀ x ∈ xs ++ [b], l'.prev x = l.prev x) : Leads l' a xs b := by
  induction xs generalizing a with
  | nil => exact ⟨(hnext a (by simp)).trans hl.1, (hprev b (by simp)).trans hl.2⟩
  | cons x xs ih =>
      rw [leads_cons] at hl
      refine ⟨⟨?_, ?_⟩, ih hl.2 (fun z hz => hnext z (by simp_all)) fun z hz => hprev z (by simp_all)⟩
      · exact (hnext a (by simp)).trans hl.1.1
      · exact (hprev x (by simp)).trans hl.1.2

/-- A ring of `h` and the nodes behind it. -/
def IsRing (l : Links α) (h : α) (xs : List α) : Prop := Leads l h xs h

/-- Any node can be the first one. -/
theorem ring_rotate : IsRing l h (xs ++ y :: ys) ↔ IsRing l y (ys ++ h :: xs) := by
  simp only [IsRing, leads_append, and_comm]

theorem rotate_perm : (h :: (xs ++ y :: ys)).Perm (y :: (ys ++ h :: xs)) := by
  show ((h :: xs) ++ (y :: ys)).Perm ((y :: ys) ++ (h :: xs))
  exact List.perm_append_comm

theorem IsRing.congr (hl : IsRing l h xs) (hnext : ∀ x ∈ h :: xs, l'.next x = l.next x)
    (hprev : ∀ x ∈ h :: xs, l'.prev x = l.prev x) : IsRing l' h xs :=
  Leads.congr hl hnext fun x hx => hprev x (by simpa [or_comm] using hx)

/-- The neighbours of the first node. -/
theorem IsRing.mem_first (hl : IsRing l h xs) : l.next h ∈ h :: xs ∧ l.prev h ∈ h :: xs := by
  constructor
  · cases xs with
    | nil => rw [hl.1]; simp
    | cons x xs => rw [hl.1.1]; simp
  · rcases List.eq_nil_or_concat xs with rfl | ⟨ys, p, rfl⟩
    · rw [hl.2]; simp
    · rw [List.concat_eq_append] at hl ⊢
      rw [(leads_append.mp hl).2.2]
      simp

/-- The pointers of a ring stay in it. -/
theorem IsRing.mem (hl : IsRing l h xs) (hy : y ∈ h :: xs) :
    l.next y ∈ h :: xs ∧ l.prev y ∈ h :: xs := by
  rcases List.mem_cons.mp hy with rfl | hy
  · exact hl.mem_first
  · obtain ⟨pre, post, rfl⟩ := List.append_of_mem hy
    have hfirst := (ring_rotate.mp hl).mem_first
    simp only [List.mem_cons, List.mem_append] at hfirst ⊢
    constructor
    · rcases hfirst.1 with h1 | h1 | h1 | h1 <;> simp [h1]
    · rcases hfirst.2 with h1 | h1 | h1 | h1 <;> simp [h1]

/-- The pointers of a ring undo each other. -/
theorem IsRing.undo_first (hl : IsRing l h xs) : l.prev (l.next h) = h ∧ l.next (l.prev h) = h := by
  constructor
  · cases xs with
    | nil => rw [hl.1]; exact hl.2
    | cons x xs => rw [hl.1.1]; exact hl.1.2
  · rcases List.eq_nil_or_concat xs with rfl | ⟨ys, p, rfl⟩
    · rw [hl.2]; exact hl.1
    · rw [List.concat_eq_append] at hl
      have hedge : l.Edge p h := (leads_append.mp hl).2
      rw [hedge.2]
      exact hedge.1

theorem IsRing.undo (hl : IsRing l h xs) (hy : y ∈ h :: xs) :
    l.prev (l.next y) = y ∧ l.next (l.prev y) = y := by
  rcases List.mem_cons.mp hy with rfl | hy
  · exact hl.undo_first
  · obtain ⟨pre, post, rfl⟩ := List.append_of_mem hy
    exact (ring_rotate.mp hl).undo_first

theorem IsRing.head?_next (hl : IsRing l h xs) : (xs ++ [h]).head? = some (l.next h) := by
  cases xs with
  | nil => rw [hl.1]; rfl
  | cons x xs => rw [hl.1.1]; rfl

theorem IsRing.getLast?_prev (hl : IsRing l h xs) : (h :: xs).getLast? = some (l.prev h) := by
  rcases List.eq_nil_or_concat xs with rfl | ⟨ys, p, rfl⟩
  · rw [hl.2]; rfl
  · rw [List.concat_eq_append] at hl ⊢
    rw [(leads_append.mp hl).2.2, ← List.cons_append, List.getLast?_concat]

/-- A ring of one node is one that points to itself. -/
theorem IsRing.next_eq_iff (hl : IsRing l h xs) (hnd : (h :: xs).Nodup) :
    l.next h = h ↔ xs = [] := by
  cases xs with
  | nil => simpa using hl.1
  | cons x xs =>
      rw [hl.1.1]
      simp only [List.nodup_cons, List.mem_cons, not_or] at hnd
      simpa using Ne.symm hnd.1.1

section Join

variable [DecidableEq α]

/-- `next` comes right behind `prev`, for all that `prev` and `next` say about it. -/
def Links.join (l : Links α) (prev next : α) : Links α where
  prev := Function.update l.prev next prev
  next := Function.update l.next prev next

theorem Links.join_edge : (l.join p q).Edge p q :=
  ⟨Function.update_self .., Function.update_self ..⟩

theorem Links.join_next (hz : z ≠ p) : (l.join p q).next z = l.next z :=
  Function.update_of_ne hz ..

theorem Links.join_prev (hz : z ≠ q) : (l.join p q).prev z = l.prev z :=
  Function.update_of_ne hz ..

/-- An edge is replaced by two. -/
theorem IsRing.insert (hl : IsRing l p xs) (hnd : (new :: p :: xs).Nodup) :
    IsRing ((l.join new (l.next p)).join p new) p (new :: xs) := by
  simp only [List.nodup_cons, List.mem_cons, not_or] at hnd
  obtain ⟨⟨hnp, hnx⟩, hpx, hx⟩ := hnd
  refine ⟨Links.join_edge, ?_⟩
  cases xs with
  | nil =>
      have hq : l.next p = p := hl.1
      rw [hq]
      refine ⟨?_, ?_⟩
      · rw [Links.join_next hnp]
        exact Links.join_edge.1
      · rw [Links.join_prev (Ne.symm hnp)]
        exact Links.join_edge.2
  | cons y ys =>
      simp only [List.mem_cons, not_or, List.nodup_cons] at hnx hpx hx
      have hq : l.next p = y := hl.1.1
      rw [hq]
      refine ⟨⟨?_, ?_⟩, Leads.congr hl.2 (fun z hz => ?_) fun z hz => ?_⟩
      · rw [Links.join_next hnp]
        exact Links.join_edge.1
      · rw [Links.join_prev (Ne.symm hnx.1)]
        exact Links.join_edge.2
      · have hzp : z ≠ p := by rintro rfl; simp_all
        have hzn : z ≠ new := by rintro rfl; simp_all
        rw [Links.join_next hzp, Links.join_next hzn]
      · have hzy : z ≠ y := by rintro rfl; simp_all
        have hzn : z ≠ new := by rintro rfl; simp_all
        rw [Links.join_prev hzn, Links.join_prev hzy]

/-- The first node is left out: the last one and the second one come to stand together. -/
theorem IsRing.remove (hl : IsRing l y (z :: xs)) (hnd : (y :: z :: xs).Nodup) :
    IsRing (l.join (l.prev y) (l.next y)) z xs := by
  simp only [List.nodup_cons, List.mem_cons, not_or] at hnd
  obtain ⟨⟨hyz, hyx⟩, hzx, hx⟩ := hnd
  have hq : l.next y = z := hl.1.1
  have hleads : Leads l z xs y := hl.2
  rw [hq]
  rcases List.eq_nil_or_concat xs with rfl | ⟨ys, p, rfl⟩
  · have hp : l.prev y = z := hleads.2
    rw [hp]
    exact Links.join_edge
  · rw [List.concat_eq_append] at hleads hyx hzx hx ⊢
    rw [leads_append, leads_nil] at hleads
    have hp : l.prev y = p := hleads.2.2
    rw [hp]
    refine leads_append.mpr ⟨Leads.congr hleads.1 (fun x hx' => ?_) fun x hx' => ?_, Links.join_edge⟩
    · refine Links.join_next ?_
      rintro rfl
      rcases List.mem_cons.mp hx' with rfl | hx'
      · simp at hzx
      · exact (List.nodup_append.mp hx).2.2 x hx' x (by simp) rfl
    · refine Links.join_prev ?_
      rintro rfl
      simp_all

/-! ## At any place -/

/-- A node stands somewhere in a ring: the ring with that node as the first one. -/
theorem IsRing.insert_after {pre post : List α} (hl : IsRing l h (pre ++ y :: post))
    (hnd : (new :: h :: (pre ++ y :: post)).Nodup) :
    IsRing ((l.join new (l.next y)).join y new) h (pre ++ y :: new :: post) := by
  exact ring_rotate.mpr (IsRing.insert (ring_rotate.mp hl) ((rotate_perm.cons new).nodup_iff.mp hnd))

/-- A node is linked in before the first one, which is behind the last one. -/
theorem IsRing.insert_last (hl : IsRing l p xs) (hnd : (new :: p :: xs).Nodup) :
    IsRing ((l.join new p).join (l.prev p) new) p (xs ++ [new]) := by
  rcases List.eq_nil_or_concat xs with rfl | ⟨ys, q, rfl⟩
  · have hprev : l.prev p = p := hl.2
    have hnext : l.next p = p := hl.1
    have hins := hl.insert hnd
    rw [hnext] at hins
    rw [hprev]
    exact hins
  · rw [List.concat_eq_append] at hl hnd ⊢
    have hedge : l.Edge q p := (leads_append.mp hl).2
    have hins := hl.insert_after hnd
    rw [hedge.1] at hins
    rw [hedge.2, List.append_assoc]
    exact hins

theorem IsRing.insert_before {pre post : List α} (hl : IsRing l h (pre ++ y :: post))
    (hnd : (new :: h :: (pre ++ y :: post)).Nodup) :
    IsRing ((l.join new y).join (l.prev y) new) h (pre ++ new :: y :: post) := by
  have hnd' : (new :: y :: (post ++ h :: pre)).Nodup := (rotate_perm.cons new).nodup_iff.mp hnd
  have hlast := IsRing.insert_last (ring_rotate.mp hl) hnd'
  rw [List.append_assoc, List.cons_append] at hlast
  have hrot := ring_rotate.mpr hlast
  rwa [List.append_assoc] at hrot

theorem IsRing.remove_at {pre post : List α} (hl : IsRing l h (pre ++ y :: post))
    (hnd : (h :: (pre ++ y :: post)).Nodup) :
    IsRing (l.join (l.prev y) (l.next y)) h (pre ++ post) := by
  have hrot := ring_rotate.mp hl
  have hnd' : (y :: (post ++ h :: pre)).Nodup := rotate_perm.nodup_iff.mp hnd
  cases post with
  | nil =>
      rw [List.append_nil]
      exact hrot.remove hnd'
  | cons z post => exact ring_rotate.mpr (hrot.remove hnd')

end Join

/-! ## Many rings -/

/-- Rings by their first nodes, each with the nodes behind it. -/
abbrev RingSet (α : Type) := List (α × List α)

/-- All nodes. -/
def RingSet.nodes (R : RingSet α) : List α := R.flatMap fun r => r.1 :: r.2

/-- They are rings, and no node is at two places. -/
structure Holds (l : Links α) (R : RingSet α) : Prop where
  ring : ∀ r ∈ R, IsRing l r.1 r.2
  nodup : R.nodes.Nodup

variable {R R₁ R₂ S : RingSet α} {r : α × List α}

@[simp] theorem nodes_nil : RingSet.nodes ([] : RingSet α) = [] := rfl

@[simp] theorem nodes_cons : RingSet.nodes (r :: R) = r.1 :: (r.2 ++ R.nodes) := rfl

@[simp] theorem nodes_append : RingSet.nodes (R ++ S) = R.nodes ++ S.nodes :=
  List.flatMap_append

theorem mem_nodes : y ∈ R.nodes ↔ ∃ r ∈ R, y ∈ r.1 :: r.2 := List.mem_flatMap

theorem nodes_middle : (RingSet.nodes (R₁ ++ r :: R₂)).Perm
    ((r.1 :: r.2) ++ RingSet.nodes (R₁ ++ R₂)) := by
  rw [nodes_append, nodes_append]
  exact List.perm_append_comm_assoc R₁.nodes (r.1 :: r.2) R₂.nodes

theorem Holds.nil : Holds l ([] : RingSet α) := ⟨by simp, by simp⟩

/-- **A part of the rings changes.**  One ring, and nodes `zs` that were in none, make up new
rings, and no pointers of other nodes are touched. -/
theorem Holds.replace (hR : Holds l (R₁ ++ r :: R₂)) (zs : List α) (S : RingSet α)
    (hperm : S.nodes.Perm (zs ++ r.1 :: r.2)) (hnd : zs.Nodup)
    (hzs : ∀ z ∈ zs, z ∉ RingSet.nodes (R₁ ++ r :: R₂)) (hS : ∀ s ∈ S, IsRing l' s.1 s.2)
    (hsame : ∀ z, z ∉ zs → z ∉ r.1 :: r.2 → l'.next z = l.next z ∧ l'.prev z = l.prev z) :
    Holds l' (R₁ ++ (S ++ R₂)) := by
  have hall : (R₁ ++ (S ++ R₂)).nodes.Perm (zs ++ RingSet.nodes (R₁ ++ r :: R₂)) := by
    have hmid := (hperm.append_right R₂.nodes).append_left R₁.nodes
    simp only [nodes_append, nodes_cons] at hmid ⊢
    refine hmid.trans ?_
    simpa using (List.perm_append_comm_assoc ..)
  have hnodup := hR.nodup
  have hout : ∀ r₁ ∈ R₁ ++ R₂, ∀ z ∈ r₁.1 :: r₁.2, z ∉ zs ∧ z ∉ r.1 :: r.2 := by
    intro r₁ hr₁ z hz
    have hin : z ∈ RingSet.nodes (R₁ ++ R₂) := mem_nodes.mpr ⟨r₁, hr₁, hz⟩
    refine ⟨fun hz' => hzs z hz' (nodes_middle.mem_iff.mpr (List.mem_append_right _ hin)), ?_⟩
    intro hz'
    exact (List.nodup_append.mp (nodes_middle.nodup_iff.mp hnodup)).2.2 z hz' z hin rfl
  refine ⟨fun s hs => ?_, hall.nodup_iff.mpr (List.nodup_append.mpr ⟨hnd, hnodup, ?_⟩)⟩
  · have hkept : ∀ r₁ ∈ R₁ ++ R₂, IsRing l' r₁.1 r₁.2 := fun r₁ hr₁ =>
      (hR.ring r₁ (by simp only [List.mem_append, List.mem_cons] at hr₁ ⊢; tauto)).congr
        (fun z hz => (hsame z (hout r₁ hr₁ z hz).1 (hout r₁ hr₁ z hz).2).1)
        (fun z hz => (hsame z (hout r₁ hr₁ z hz).1 (hout r₁ hr₁ z hz).2).2)
    rcases List.mem_append.mp hs with hs | hs
    · exact hkept s (List.mem_append_left _ hs)
    · rcases List.mem_append.mp hs with hs | hs
      · exact hS s hs
      · exact hkept s (List.mem_append_right _ hs)
  · rintro z hz _ hz' rfl
    exact hzs z hz hz'

/-- The ring of a node. -/
theorem exists_ring_of_mem (hnd : R.nodes.Nodup) (hy : y ∈ R.nodes) :
    ∃ R₁ r R₂, R = R₁ ++ r :: R₂ ∧ y ∈ r.1 :: r.2 ∧ ∀ r' ∈ R₁ ++ R₂, y ∉ r'.1 :: r'.2 := by
  obtain ⟨r, hr, hyr⟩ := mem_nodes.mp hy
  obtain ⟨R₁, R₂, rfl⟩ := List.append_of_mem hr
  refine ⟨R₁, r, R₂, rfl, hyr, fun r' hr' hyr' => ?_⟩
  have hout := (List.nodup_append.mp (nodes_middle.nodup_iff.mp hnd)).2.2
  exact hout y hyr y (mem_nodes.mpr ⟨r', hr', hyr'⟩) rfl

theorem Holds.sublist (hR : Holds l R) (hS : S.Sublist R) : Holds l S where
  ring r hr := hR.ring r (hS.subset hr)
  nodup := hR.nodup.sublist (hS.flatMap _)

theorem Holds.perm (hR : Holds l R) (hS : S.Perm R) : Holds l S where
  ring r hr := hR.ring r (hS.mem_iff.mp hr)
  nodup := (hS.flatMap_right _).nodup_iff.mpr hR.nodup

theorem Holds.congr (hR : Holds l R)
    (hsame : ∀ z ∈ R.nodes, l'.next z = l.next z ∧ l'.prev z = l.prev z) : Holds l' R where
  ring r hr := (hR.ring r hr).congr (fun z hz => (hsame z (mem_nodes.mpr ⟨r, hr, hz⟩)).1)
    fun z hz => (hsame z (mem_nodes.mpr ⟨r, hr, hz⟩)).2
  nodup := hR.nodup

theorem Holds.undo (hR : Holds l R) (hy : y ∈ R.nodes) :
    l.prev (l.next y) = y ∧ l.next (l.prev y) = y := by
  obtain ⟨r, hr, hyr⟩ := mem_nodes.mp hy
  exact (hR.ring r hr).undo hyr

theorem Holds.nodup_of_mem (hR : Holds l R) (hr : r ∈ R) : (r.1 :: r.2).Nodup := by
  obtain ⟨R₁, R₂, rfl⟩ := List.append_of_mem hr
  exact (List.nodup_append.mp (nodes_middle.nodup_iff.mp hR.nodup)).1

/-- A ring of one node. -/
theorem Holds.cons_single (hR : Holds l R) (hh : h ∉ R.nodes) (hnext : l'.next h = h)
    (hprev : l'.prev h = h)
    (hsame : ∀ z, z ≠ h → l'.next z = l.next z ∧ l'.prev z = l.prev z) :
    Holds l' ((h, []) :: R) := by
  have hrest := hR.congr fun z hz => hsame z fun he => hh (he ▸ hz)
  refine ⟨fun r hr => ?_, List.nodup_cons.mpr ⟨hh, hR.nodup⟩⟩
  rcases List.mem_cons.mp hr with rfl | hr
  · exact ⟨hnext, hprev⟩
  · exact hrest.ring r hr

variable [DecidableEq α] {r' : α × List α}

/-- A node comes into one of the rings. -/
theorem Holds.link (hR : Holds l (R₁ ++ r :: R₂)) (hp : p ∈ r.1 :: r.2) (hq : q ∈ r.1 :: r.2)
    (hnew : new ∉ RingSet.nodes (R₁ ++ r :: R₂))
    (hring : IsRing ((l.join new q).join p new) r'.1 r'.2)
    (hperm : (r'.1 :: r'.2).Perm (new :: r.1 :: r.2)) :
    Holds ((l.join new q).join p new) (R₁ ++ r' :: R₂) := by
  refine hR.replace [new] [r'] (by simpa using hperm) (List.nodup_singleton new)
    (fun z hz => List.mem_singleton.mp hz ▸ hnew) (by simpa) fun z hz hzr => ?_
  have hzn : z ≠ new := by simpa using hz
  have hzp : z ≠ p := fun he => hzr (he ▸ hp)
  have hzq : z ≠ q := fun he => hzr (he ▸ hq)
  exact ⟨by rw [Links.join_next hzp, Links.join_next hzn],
    by rw [Links.join_prev hzn, Links.join_prev hzq]⟩

end Cosmos.Lib.Rings
