import Mathlib.Algebra.BigOperators.Group.Finset.Piecewise
import Mathlib.Order.Interval.Finset.Nat
import Cosmos.Lib.Cover

/-!
# A pool of free blocks

A **pool** keeps blocks of indices on finitely many lists: list `p` holds the
starts of blocks of `ord p` indices each.  Blocks that are on no list are
**held**, by a client of the pool or by an operation in progress.  The pool
*tiles* a set of indices when every index of the set lies in exactly one block,
listed or held, and no other index lies in any.

Everything a block allocator does is one of four moves: unlink a block (`remove`),
file one (`push`), cut a held block in two (`cut`), join two (`join`).  Each of
them keeps the tiling.

## Main results

* `Tiles.remove`, `Tiles.push`, `Tiles.cut`, `Tiles.join` : the moves.
* `Tiles.owner` : every index of the set has an owner.
* `Tiles.free_held_apart`, `Tiles.held_apart`, `Tiles.free_apart` : no index
  has two.
* `Tiles.sum_lens` : the sizes of all blocks sum up to the size of the set.
-/

namespace Cosmos.Lib.Pool

open Cosmos.Lib.Cover

variable {P : Type}

/-- How many listed blocks contain `i`. -/
def freeCover (ps : Finset P) (ord : P → Nat) (free : P → List Nat) (i : Nat) : Nat :=
  ∑ p ∈ ps, cover (segs (ord p) (free p)) i

/-- Number of indices in listed blocks. -/
def freeSum (ps : Finset P) (ord : P → Nat) (free : P → List Nat) : Nat :=
  ∑ p ∈ ps, ord p * (free p).length

/-- Changing one summand of a sum changes the sum by the difference. -/
theorem sum_update_of_mem [DecidableEq P] {ps : Finset P} {p : P} (hp : p ∈ ps)
    {β : Type} (g : P → β → Nat) (free : P → β) (l : β) :
    (∑ q ∈ ps, g q (Function.update free p l q)) + g p (free p)
      = (∑ q ∈ ps, g q (free q)) + g p l := by
  rw [← Finset.add_sum_erase _ _ hp,
    ← Finset.add_sum_erase ps (fun q => g q (free q)) hp, Function.update_self]
  have hrest : ∑ q ∈ ps.erase p, g q (Function.update free p l q)
      = ∑ q ∈ ps.erase p, g q (free q) :=
    Finset.sum_congr rfl fun q hq => by
      rw [Function.update_of_ne (Finset.ne_of_mem_erase hq)]
  rw [hrest]
  omega

variable {ps : Finset P} {ord : P → Nat} {free : P → List Nat} {held : List Seg}
variable {D : Nat → Prop} [DecidablePred D]

/-- Counting after one list changed. -/
theorem freeCover_update [DecidableEq P] (ord : P → Nat) (free : P → List Nat) {p : P}
    (hp : p ∈ ps) (l : List Nat) (i : Nat) :
    freeCover ps ord (Function.update free p l) i + cover (segs (ord p) (free p)) i
      = freeCover ps ord free i + cover (segs (ord p) l) i :=
  sum_update_of_mem hp (fun q l => cover (segs (ord q) l) i) free l

/-- Sizes after one list changed. -/
theorem freeSum_update [DecidableEq P] (ord : P → Nat) (free : P → List Nat) {p : P}
    (hp : p ∈ ps) (l : List Nat) :
    freeSum ps ord (Function.update free p l) + ord p * (free p).length
      = freeSum ps ord free + ord p * l.length :=
  sum_update_of_mem hp (fun q l => ord q * l.length) free l

/-- A list contributes at most the whole count. -/
theorem cover_le_freeCover (ord : P → Nat) (free : P → List Nat) {p : P} (hp : p ∈ ps) (i : Nat) :
    cover (segs (ord p) (free p)) i ≤ freeCover ps ord free i :=
  Finset.single_le_sum (f := fun q => cover (segs (ord q) (free q)) i)
    (fun _ _ => Nat.zero_le _) hp

/-- Every index of `D` lies in exactly one block and no other index in any. -/
def Tiles (ps : Finset P) (ord : P → Nat) (D : Nat → Prop) [DecidablePred D]
    (free : P → List Nat) (held : List Seg) : Prop :=
  ∀ i, freeCover ps ord free i + cover held i = if D i then 1 else 0

/-- Only the membership of the set matters. -/
theorem Tiles.congr {D' : Nat → Prop} [DecidablePred D'] (h : Tiles ps ord D free held)
    (hD : ∀ i, D i ↔ D' i) : Tiles ps ord D' free held := by
  intro i
  rw [h i]
  exact if_congr (hD i) rfl rfl

/-! ## The four moves -/

/-- Unlink a block. -/
theorem Tiles.remove [DecidableEq P] (h : Tiles ps ord D free held) {p : P} (hp : p ∈ ps) {s : Nat}
    (hs : s ∈ free p) :
    Tiles ps ord D (Function.update free p ((free p).erase s)) (⟨s, ord p⟩ :: held) := by
  intro i
  have hi := h i
  have hupd := freeCover_update ord free hp ((free p).erase s) i
  have herase := cover_segs_erase (n := ord p) hs i
  rw [cover_cons]
  omega

/-- File a held block. -/
theorem Tiles.push [DecidableEq P] {p : P} (hp : p ∈ ps) {s : Nat}
    (h : Tiles ps ord D free (⟨s, ord p⟩ :: held)) :
    Tiles ps ord D (Function.update free p (s :: free p)) held := by
  intro i
  have hi := h i
  have hupd := freeCover_update ord free hp (s :: free p) i
  rw [segs_cons, cover_cons] at hupd
  rw [cover_cons] at hi
  omega

/-- Cut a held block in two. -/
theorem Tiles.cut {s m n : Nat} (h : Tiles ps ord D free (⟨s, m + n⟩ :: held)) :
    Tiles ps ord D free (⟨s + m, n⟩ :: ⟨s, m⟩ :: held) := by
  intro i
  have hi := h i
  have hcut := Seg.ind_cut s m n i
  rw [cover_cons] at hi
  rw [cover_cons, cover_cons]
  omega

/-- Join two held blocks that touch. -/
theorem Tiles.join {s m n : Nat} (h : Tiles ps ord D free (⟨s + m, n⟩ :: ⟨s, m⟩ :: held)) :
    Tiles ps ord D free (⟨s, m + n⟩ :: held) := by
  intro i
  have hi := h i
  have hcut := Seg.ind_cut s m n i
  rw [cover_cons, cover_cons] at hi
  rw [cover_cons]
  omega

/-- Only the cover of the held blocks matters. -/
theorem Tiles.recover {held' : List Seg} (h : Tiles ps ord D free held)
    (hc : ∀ i, cover held i = cover held' i) : Tiles ps ord D free held' := by
  intro i
  rw [← hc i]
  exact h i

/-- The order of the held blocks does not matter. -/
theorem Tiles.perm {held' : List Seg} (h : Tiles ps ord D free held)
    (hperm : held.Perm held') : Tiles ps ord D free held' := by
  apply h.recover
  intro i
  unfold cover
  exact (hperm.map (fun b => b.ind i)).sum_eq

/-- Bring one held block to the front. -/
theorem Tiles.front (h : Tiles ps ord D free held) {b : Seg} (hb : b ∈ held) :
    Tiles ps ord D free (b :: held.erase b) :=
  h.perm (List.perm_cons_erase hb)

/-! ## What a tiling says -/

/-- No index lies in two blocks. -/
theorem Tiles.le_one (h : Tiles ps ord D free held) (i : Nat) :
    freeCover ps ord free i + cover held i ≤ 1 := by
  rw [h i]
  split <;> omega

/-- Every index of the set has an owner. -/
theorem Tiles.owner (h : Tiles ps ord D free held) {i : Nat} (hi : D i) :
    (∃ p ∈ ps, ∃ s ∈ free p, (Seg.mk s (ord p)).Has i) ∨ ∃ b ∈ held, b.Has i := by
  have hone : freeCover ps ord free i + cover held i = 1 := by
    rw [h i, if_pos hi]
  by_cases hheld : 0 < cover held i
  · exact Or.inr (exists_of_cover_pos hheld)
  · have hfree : freeCover ps ord free i ≠ 0 := by omega
    obtain ⟨p, hp, hne⟩ := Finset.exists_ne_zero_of_sum_ne_zero hfree
    obtain ⟨b, hb, hbi⟩ := exists_of_cover_pos (Nat.pos_of_ne_zero hne)
    obtain ⟨hs, hlen⟩ := mem_segs.mp hb
    refine Or.inl ⟨p, hp, b.start, hs, ?_⟩
    rw [← hlen]
    exact hbi

/-- A listed block lies inside the set. -/
theorem Tiles.free_dom (h : Tiles ps ord D free held) {p : P} (hp : p ∈ ps) {s i : Nat}
    (hs : s ∈ free p) (hi : (Seg.mk s (ord p)).Has i) : D i := by
  have hmem : Seg.mk s (ord p) ∈ segs (ord p) (free p) := mem_segs.mpr ⟨hs, rfl⟩
  have h1 := ind_le_cover hmem i
  have h2 := cover_le_freeCover ord free hp i
  have h3 := h i
  rw [Seg.ind_of_has hi] at h1
  by_contra hD
  rw [if_neg hD] at h3
  omega

/-- A held block lies inside the set. -/
theorem Tiles.held_dom (h : Tiles ps ord D free held) {b : Seg} (hb : b ∈ held) {i : Nat}
    (hi : b.Has i) : D i := by
  have h1 := ind_le_cover hb i
  have h3 := h i
  rw [Seg.ind_of_has hi] at h1
  by_contra hD
  rw [if_neg hD] at h3
  omega

/-- A listed and a held block do not meet. -/
theorem Tiles.free_held_apart (h : Tiles ps ord D free held) {p : P} (hp : p ∈ ps)
    {s i : Nat} (hs : s ∈ free p) (hi : (Seg.mk s (ord p)).Has i) {b : Seg}
    (hb : b ∈ held) : ¬ b.Has i := by
  intro hbi
  have hmem : Seg.mk s (ord p) ∈ segs (ord p) (free p) := mem_segs.mpr ⟨hs, rfl⟩
  have h1 := ind_le_cover hmem i
  have h2 := cover_le_freeCover ord free hp i
  have h3 := ind_le_cover hb i
  have h4 := h.le_one i
  rw [Seg.ind_of_has hi] at h1
  rw [Seg.ind_of_has hbi] at h3
  omega

/-- The block in hand does not meet the other held blocks. -/
theorem Tiles.head_apart {b c : Seg} (h : Tiles ps ord D free (b :: held)) (hc : c ∈ held)
    {i : Nat} (hi : b.Has i) : ¬ c.Has i := by
  intro hci
  have h1 := ind_le_cover hc i
  have h2 := h.le_one i
  rw [cover_cons, Seg.ind_of_has hi] at h2
  rw [Seg.ind_of_has hci] at h1
  omega

/-- A list names no block twice. -/
theorem Tiles.free_nodup (h : Tiles ps ord D free held) {p : P} (hp : p ∈ ps)
    (hord : 0 < ord p) : (free p).Nodup := by
  have hsegs : (segs (ord p) (free p)).Nodup := by
    refine nodup_of_cover_le (fun i => ?_) (fun b hb => ?_)
    · have h1 := h.le_one i
      have h2 := cover_le_freeCover ord free hp i
      omega
    · rw [(mem_segs.mp hb).2]
      exact hord
  exact List.Nodup.of_map _ hsegs

/-- The lists `qs` alone tile their part of the set. -/
theorem Tiles.part (h : Tiles ps ord D free []) {qs : Finset P} (hqs : qs ⊆ ps)
    {E : Nat → Prop} [DecidablePred E]
    (hin : ∀ p ∈ qs, ∀ s ∈ free p, ∀ i, (Seg.mk s (ord p)).Has i → E i)
    (hout : ∀ p ∈ ps, p ∉ qs → ∀ s ∈ free p, ∀ i, (Seg.mk s (ord p)).Has i → ¬ E i) :
    Tiles qs ord (fun i => D i ∧ E i) free [] := by
  intro i
  have hle : freeCover qs ord free i ≤ freeCover ps ord free i :=
    Finset.sum_le_sum_of_subset hqs
  have hone := h.le_one i
  rw [cover_nil, Nat.add_zero] at hone ⊢
  by_cases hi : D i ∧ E i
  · rw [if_pos hi]
    rcases h.owner hi.1 with ⟨p, hp, s, hs, hhas⟩ | ⟨b, hb, _⟩
    · have hpq : p ∈ qs := by
        by_contra hne
        exact hout p hp hne s hs i hhas hi.2
      have hmem : Seg.mk s (ord p) ∈ segs (ord p) (free p) := mem_segs.mpr ⟨hs, rfl⟩
      have h1 := ind_le_cover hmem i
      have h2 := cover_le_freeCover ord free hpq i
      rw [Seg.ind_of_has hhas] at h1
      omega
    · exact absurd hb List.not_mem_nil
  · rw [if_neg hi]
    by_contra hne
    obtain ⟨p, hp, hpne⟩ := Finset.exists_ne_zero_of_sum_ne_zero hne
    obtain ⟨b, hb, hbi⟩ := exists_of_cover_pos (Nat.pos_of_ne_zero hpne)
    obtain ⟨hs, hlen⟩ := mem_segs.mp hb
    have hhas : (Seg.mk b.start (ord p)).Has i := by
      rw [← hlen]
      exact hbi
    exact hi ⟨h.free_dom (hqs hp) hs hhas, hin p hp b.start hs i hhas⟩

/-! ## Sizes -/

/-- Counting the indices below `N` block by block. -/
theorem sum_cover {l : List Seg} {N : Nat} (hl : ∀ b ∈ l, b.start + b.len ≤ N) :
    ∑ i ∈ Finset.range N, cover l i = (l.map Seg.len).sum := by
  induction l with
  | nil => simp
  | cons b l ih =>
      have hrest := ih fun c hc => hl c (by simp [hc])
      have hb := hl b (by simp)
      have hind : ∑ i ∈ Finset.range N, b.ind i = b.len := by
        simp only [Seg.ind]
        rw [← Finset.card_filter]
        have hset : (Finset.range N).filter (fun i => b.start ≤ i ∧ i < b.start + b.len)
            = Finset.Ico b.start (b.start + b.len) := by
          ext i
          simp only [Finset.mem_filter, Finset.mem_range, Finset.mem_Ico]
          omega
        rw [hset, Nat.card_Ico]
        omega
      simp only [cover_cons, Finset.sum_add_distrib, List.map_cons, List.sum_cons]
      rw [hind, hrest]

theorem sum_len_segs (n : Nat) (l : List Nat) :
    ((segs n l).map Seg.len).sum = n * l.length := by
  induction l with
  | nil => simp
  | cons s l ih =>
      rw [segs_cons, List.map_cons, List.sum_cons, ih, List.length_cons, Nat.mul_succ]
      exact Nat.add_comm _ _

/-- A block inside `[0, N)` ends there. -/
theorem end_le_of_has {b : Seg} {N : Nat} (hpos : 0 < b.len)
    (h : ∀ i, b.Has i → i < N) : b.start + b.len ≤ N := by
  have := h (b.start + b.len - 1) ⟨by omega, by omega⟩
  omega

/-- The listed blocks, counted index by index. -/
theorem Tiles.sum_freeCover (h : Tiles ps ord D free held) {N : Nat} (hD : ∀ i, D i → i < N)
    (hord : ∀ p ∈ ps, 0 < ord p) :
    ∑ i ∈ Finset.range N, freeCover ps ord free i = freeSum ps ord free := by
  unfold freeCover freeSum
  rw [Finset.sum_comm]
  apply Finset.sum_congr rfl
  intro p hp
  rw [sum_cover, sum_len_segs]
  intro b hb
  obtain ⟨hs, hlen⟩ := mem_segs.mp hb
  refine end_le_of_has (by rw [hlen]; exact hord p hp) fun i hi => hD i ?_
  refine h.free_dom hp hs (i := i) ?_
  rw [← hlen]
  exact hi

/-- The listed blocks fit below `N`. -/
theorem Tiles.freeSum_le (h : Tiles ps ord D free held) {N : Nat} (hD : ∀ i, D i → i < N)
    (hord : ∀ p ∈ ps, 0 < ord p) : freeSum ps ord free ≤ N := by
  rw [← h.sum_freeCover hD hord]
  calc ∑ i ∈ Finset.range N, freeCover ps ord free i
      ≤ ∑ _i ∈ Finset.range N, 1 :=
        Finset.sum_le_sum fun i _ => by have := h.le_one i; omega
    _ = N := by rw [Finset.sum_const, Finset.card_range]; exact Nat.mul_one N

/-- **Conservation**: the sizes of all blocks sum up to the size of the set. -/
theorem Tiles.sum_lens (h : Tiles ps ord D free held) {N : Nat} (hD : ∀ i, D i → i < N)
    (hord : ∀ p ∈ ps, 0 < ord p) (hheld : ∀ b ∈ held, 0 < b.len) :
    freeSum ps ord free + (held.map Seg.len).sum
      = ((Finset.range N).filter D).card := by
  have hcover : ∑ i ∈ Finset.range N, cover held i = (held.map Seg.len).sum :=
    sum_cover fun b hb => end_le_of_has (hheld b hb) fun i hi => hD i (h.held_dom hb hi)
  rw [Finset.card_filter, ← h.sum_freeCover hD hord, ← hcover, ← Finset.sum_add_distrib]
  exact Finset.sum_congr rfl fun i _ => h i

/-- A list has at most as many entries as the set has indices below `N`. -/
theorem Tiles.length_le (h : Tiles ps ord D free held) {N : Nat} (hD : ∀ i, D i → i < N)
    {p : P} (hp : p ∈ ps) (hord : 0 < ord p) : (free p).length ≤ N := by
  have hnodup := h.free_nodup hp hord
  have hsub : (free p).toFinset ⊆ Finset.range N := by
    intro s hs
    rw [Finset.mem_range]
    exact hD s (h.free_dom hp (List.mem_toFinset.mp hs) ⟨Nat.le_refl s, by simp; omega⟩)
  calc (free p).length = (free p).toFinset.card := (List.toFinset_card_of_nodup hnodup).symm
    _ ≤ (Finset.range N).card := Finset.card_le_card hsub
    _ = N := Finset.card_range N

end Cosmos.Lib.Pool
