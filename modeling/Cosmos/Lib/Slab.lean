import Mathlib.Data.Finset.Interval
import Mathlib.Order.Interval.Finset.Nat
import Mathlib.Data.List.Nodup
import Mathlib.Tactic.Linarith

/-!
# Slabs: chunks of memory cut into objects of one size

A **chunk** is a range of bytes that begins with a header; the bytes after the
header are cut into **slots** of one size.  A slab is a list of chunks that do
not meet together with a list of free slots and a list of slots in use.  The
invariant `Served` says that the two lists are a rearrangement of all slots, and
the three moves of a slab allocator (take a free slot, put one back, add a
chunk) keep it.

## Main results

* `mem_slots` : a slot is an address in range at a multiple of the size.
* `Served.take`, `Served.put`, `Served.grow` : the moves.
* `Served.live_apart` : two slots in use do not overlap.
-/

namespace Cosmos.Lib.Slab

/-! ## Slots of one range -/

/-- The objects of `objsz` bytes that fit between `start` and `vend`. -/
def slots (objsz start vend : Nat) : List Nat :=
  (List.range ((vend - start) / objsz)).map fun i => start + i * objsz

theorem slots_length (objsz start vend : Nat) :
    (slots objsz start vend).length = (vend - start) / objsz := by
  unfold slots
  rw [List.length_map, List.length_range]

theorem mem_slots {objsz : Nat} (hpos : 0 < objsz) (start vend x : Nat) :
    x ∈ slots objsz start vend ↔
      start ≤ x ∧ x + objsz ≤ vend ∧ (x - start) % objsz = 0 := by
  unfold slots
  rw [List.mem_map]
  constructor
  · rintro ⟨i, hi, rfl⟩
    rw [List.mem_range] at hi
    have hle : (i + 1) * objsz ≤ vend - start :=
      Nat.le_trans (Nat.mul_le_mul_right objsz hi) (Nat.div_mul_le_self _ _)
    rw [Nat.add_mul, Nat.one_mul] at hle
    refine ⟨Nat.le_add_right _ _, by omega, ?_⟩
    rw [Nat.add_sub_cancel_left]
    exact Nat.mul_mod_left i objsz
  · rintro ⟨h1, h2, h3⟩
    refine ⟨(x - start) / objsz, ?_, ?_⟩
    · rw [List.mem_range, Nat.lt_iff_add_one_le, Nat.le_div_iff_mul_le hpos, Nat.add_mul,
        Nat.div_mul_cancel (Nat.dvd_of_mod_eq_zero h3)]
      omega
    · rw [Nat.div_mul_cancel (Nat.dvd_of_mod_eq_zero h3)]
      omega

/-- Cutting the first object off. -/
theorem slots_cons {objsz start vend : Nat} (hpos : 0 < objsz) (h : start + objsz ≤ vend) :
    slots objsz start vend = start :: slots objsz (start + objsz) vend := by
  have hdiv : (vend - start) / objsz = (vend - (start + objsz)) / objsz + 1 := by
    have hsub : vend - start = (vend - (start + objsz)) + objsz := by omega
    rw [hsub, Nat.add_div_right _ hpos]
  unfold slots
  rw [hdiv, List.range_succ_eq_map, List.map_cons, List.map_map, Nat.zero_mul, Nat.add_zero]
  congr 1
  apply List.map_congr_left
  intro i _
  simp only [Function.comp_apply, Nat.succ_mul]
  omega

/-- No object fits any more. -/
theorem slots_nil {objsz start vend : Nat} (hpos : 0 < objsz) (h : vend < start + objsz) :
    slots objsz start vend = [] := by
  have hdiv : (vend - start) / objsz = 0 := Nat.div_eq_of_lt (by omega)
  unfold slots
  rw [hdiv]
  rfl

theorem slots_nodup {objsz : Nat} (hpos : 0 < objsz) (start vend : Nat) :
    (slots objsz start vend).Nodup := by
  refine List.Nodup.map ?_ List.nodup_range
  intro i j hij
  exact Nat.eq_of_mul_eq_mul_right hpos (Nat.add_left_cancel hij)

/-- Slots of one range that are not the same do not overlap. -/
theorem slots_apart {objsz start vend x y : Nat} (hx : x ∈ slots objsz start vend)
    (hy : y ∈ slots objsz start vend) (hne : x ≠ y) :
    x + objsz ≤ y ∨ y + objsz ≤ x := by
  unfold slots at hx hy
  obtain ⟨i, _, rfl⟩ := List.mem_map.mp hx
  obtain ⟨j, _, rfl⟩ := List.mem_map.mp hy
  rcases Nat.lt_trichotomy i j with h | h | h
  · have hle := Nat.mul_le_mul_right objsz (Nat.succ_le_of_lt h)
    rw [Nat.succ_mul] at hle
    exact Or.inl (by omega)
  · exact absurd (by rw [h]) hne
  · have hle := Nat.mul_le_mul_right objsz (Nat.succ_le_of_lt h)
    rw [Nat.succ_mul] at hle
    exact Or.inr (by omega)

/-- Different numbers from a range are at most as many as the range has. -/
theorem length_le_of_range {l : List Nat} (lo hi : Nat) (hl : l.Nodup)
    (h : ∀ x ∈ l, lo ≤ x ∧ x < hi) : l.length ≤ hi - lo := by
  have hsub : l.toFinset ⊆ Finset.Ico lo hi := by
    intro x hx
    rw [Finset.mem_Ico]
    exact h x (List.mem_toFinset.mp hx)
  have hcard := Finset.card_le_card hsub
  rw [List.toFinset_card_of_nodup hl, Nat.card_Ico] at hcard
  exact hcard

/-! ## Chunks -/

/-- The bytes `start, …, vend`, the first `hdr` of them a header. -/
structure Chunk where
  start : Nat
  vend : Nat
  hdr : Nat
deriving DecidableEq, Repr

/-- An address of the chunk. -/
def Chunk.Has (c : Chunk) (x : Nat) : Prop := c.start ≤ x ∧ x ≤ c.vend

/-- The slots of a chunk.  The last byte stays unused. -/
def Chunk.slots (objsz : Nat) (c : Chunk) : List Nat :=
  Slab.slots objsz (c.start + c.hdr) c.vend

/-- No byte is in both chunks. -/
def Chunk.Apart (c d : Chunk) : Prop := ∀ x, c.Has x → ¬ d.Has x

/-- All slots of a list of chunks. -/
def allSlots (objsz : Nat) (cs : List Chunk) : List Nat := cs.flatMap (Chunk.slots objsz)

@[simp] theorem allSlots_nil (objsz : Nat) : allSlots objsz [] = [] := rfl

theorem allSlots_cons (objsz : Nat) (c : Chunk) (cs : List Chunk) :
    allSlots objsz (c :: cs) = c.slots objsz ++ allSlots objsz cs := rfl

theorem Chunk.slot_in {objsz : Nat} {c : Chunk} {x : Nat} (hpos : 0 < objsz)
    (hx : x ∈ c.slots objsz) :
    c.start + c.hdr ≤ x ∧ x + objsz ≤ c.vend ∧ (x - (c.start + c.hdr)) % objsz = 0 :=
  (mem_slots hpos _ _ x).mp hx

theorem Chunk.slot_has {objsz : Nat} {c : Chunk} {x : Nat} (hpos : 0 < objsz)
    (hx : x ∈ c.slots objsz) : c.Has x := by
  obtain ⟨h1, h2, _⟩ := Chunk.slot_in hpos hx
  exact ⟨by omega, by omega⟩

theorem mem_allSlots {objsz : Nat} {cs : List Chunk} {x : Nat} :
    x ∈ allSlots objsz cs ↔ ∃ c ∈ cs, x ∈ c.slots objsz :=
  List.mem_flatMap

instance : Std.Symm Chunk.Apart where
  symm _ _ h := fun x hd hc => h x hc hd

section Apart

variable {objsz : Nat} {cs : List Chunk}

/-- The chunk of an address is unique. -/
theorem chunk_unique (hap : cs.Pairwise Chunk.Apart) {c d : Chunk} (hc : c ∈ cs) (hd : d ∈ cs)
    {x : Nat} (hcx : c.Has x) (hdx : d.Has x) : c = d := by
  by_contra hne
  exact hap.forall hc hd hne x hcx hdx

theorem allSlots_nodup (hpos : 0 < objsz) (hap : cs.Pairwise Chunk.Apart) :
    (allSlots objsz cs).Nodup := by
  unfold allSlots
  rw [List.nodup_flatMap]
  refine ⟨fun c _ => slots_nodup hpos _ _, hap.imp fun {c d} h => ?_⟩
  intro x hx hy
  exact h x (Chunk.slot_has hpos hx) (Chunk.slot_has hpos hy)

/-- Chunks with a slot each are at most as many as the slots. -/
theorem length_le_allSlots {cs : List Chunk} (h : ∀ c ∈ cs, 0 < (c.slots objsz).length) :
    cs.length ≤ (allSlots objsz cs).length := by
  induction cs with
  | nil => exact Nat.le_refl 0
  | cons c cs ih =>
      have hhead := h c List.mem_cons_self
      have htail := ih fun d hd => h d (List.mem_cons_of_mem c hd)
      rw [allSlots_cons, List.length_append, List.length_cons]
      omega

/-- Slots that are not the same do not overlap. -/
theorem allSlots_apart (hpos : 0 < objsz) (hap : cs.Pairwise Chunk.Apart) {x y : Nat}
    (hx : x ∈ allSlots objsz cs) (hy : y ∈ allSlots objsz cs) (hne : x ≠ y) :
    x + objsz ≤ y ∨ y + objsz ≤ x := by
  obtain ⟨c, hc, hxc⟩ := mem_allSlots.mp hx
  obtain ⟨d, hd, hyd⟩ := mem_allSlots.mp hy
  by_cases hcd : c = d
  · subst hcd
    exact slots_apart hxc hyd hne
  · have happ := hap.forall hc hd hcd
    obtain ⟨hx1, hx2, _⟩ := Chunk.slot_in hpos hxc
    obtain ⟨hy1, hy2, _⟩ := Chunk.slot_in hpos hyd
    by_contra hover
    rw [not_or, Nat.not_le, Nat.not_le] at hover
    -- the later of the two addresses is a byte of both chunks
    refine happ (max x y) ⟨?_, ?_⟩ ⟨?_, ?_⟩ <;> omega

end Apart

/-! ## The invariant -/

/-- Free slots and slots in use together are the slots of the chunks. -/
structure Served (objsz : Nat) (cs : List Chunk) (free live : List Nat) : Prop where
  pos : 0 < objsz
  apart : cs.Pairwise Chunk.Apart
  perm : (free ++ live).Perm (allSlots objsz cs)

section Moves

variable {objsz : Nat} {cs : List Chunk} {free live : List Nat}

theorem Served.take {x : Nat} (h : Served objsz cs (x :: free) live) :
    Served objsz cs free (x :: live) :=
  ⟨h.pos, h.apart, List.perm_middle.trans h.perm⟩

theorem Served.put {x : Nat} (h : Served objsz cs free live) (hx : x ∈ live) :
    Served objsz cs (x :: free) (live.erase x) := by
  have hlive : (x :: live.erase x).Perm live := (List.perm_cons_erase hx).symm
  exact ⟨h.pos, h.apart, List.perm_middle.symm.trans ((hlive.append_left free).trans h.perm)⟩

theorem Served.grow {c : Chunk} (h : Served objsz cs free live) (hc : ∀ d ∈ cs, c.Apart d) :
    Served objsz (c :: cs) ((c.slots objsz).reverse ++ free) live := by
  refine ⟨h.pos, List.pairwise_cons.mpr ⟨hc, h.apart⟩, ?_⟩
  rw [allSlots_cons, List.append_assoc]
  exact (List.reverse_perm _).append h.perm

/-- Only the chunks, the free and the live slots as sets with counts matter. -/
theorem Served.congr {cs' : List Chunk} {live' : List Nat} (h : Served objsz cs free live)
    (hcs : cs'.Perm cs) (hlive : live'.Perm live) : Served objsz cs' free live' := by
  refine ⟨h.pos, ?_, ?_⟩
  · exact (hcs.pairwise_iff symm).mpr h.apart
  · exact (hlive.append_left free).trans (h.perm.trans (hcs.flatMap_right _).symm)

theorem Served.length (h : Served objsz cs free live) :
    free.length + live.length = (allSlots objsz cs).length := by
  rw [← List.length_append]
  exact h.perm.length_eq

theorem Served.live_nodup (h : Served objsz cs free live) : live.Nodup :=
  (List.nodup_append.mp (h.perm.nodup_iff.mpr (allSlots_nodup h.pos h.apart))).2.1

/-- Two slots in use do not overlap. -/
theorem Served.live_apart (h : Served objsz cs free live) {x y : Nat} (hx : x ∈ live)
    (hy : y ∈ live) (hne : x ≠ y) : x + objsz ≤ y ∨ y + objsz ≤ x :=
  allSlots_apart h.pos h.apart (h.perm.mem_iff.mp (List.mem_append_right free hx))
    (h.perm.mem_iff.mp (List.mem_append_right free hy)) hne

end Moves

end Cosmos.Lib.Slab
