import Cosmos.Lib.Pool
import Cosmos.Hal.Memdivmer

/-!
# Blocks of pages and the allocator invariant

What the descriptors of a block look like while it is free (`FreeBlk`), while
an allocation is working on it (`LooseBlk`) and while a client owns it
(`OutBlk`), and the invariant `MemInv` that ties the free lists to the
descriptors.  The lists form a pool in the sense of `Cosmos.Lib.Pool`; the
lemmas at the end are the moves of that library at this instance, with the
tags of the blocks carried along.
-/

namespace Cosmos.Hal

open Cosmos.Lib.Word64 Cosmos.Lib.Cover Cosmos.Lib.Pool

/-! ## List pointers -/

/-- The area a list belongs to. -/
def BafhPtr.area : BafhPtr → Nat
  | .lie a _ => a
  | .one a => a

/-- Pages in a block of the list. -/
def BafhPtr.ord : BafhPtr → Nat
  | .lie _ k => 2 ^ k
  | .one _ => 1

/-- The lists blocks are ever filed on: `dm_mdmlielst` in the hardware and the
kernel area, `dm_onemsalst` in the process area. -/
def BafhPtr.Used : BafhPtr → Prop
  | .lie a k => a < 2 ∧ k < mdivmerArrLmax
  | .one a => a = 2

/-- The lists of one area. -/
def areaPtrs (a : Nat) : Finset BafhPtr :=
  insert (.one a) ((Finset.range mdivmerArrLmax).image (.lie a))

/-- All lists. -/
def ptrs : Finset BafhPtr := (Finset.range memareaMax).biUnion areaPtrs

theorem BafhPtr.ord_pos (p : BafhPtr) : 0 < p.ord := by
  cases p with
  | lie a k => exact Nat.two_pow_pos k
  | one a => exact Nat.one_pos

theorem area_of_mem_areaPtrs {p : BafhPtr} {a : Nat} (h : p ∈ areaPtrs a) : p.area = a := by
  rcases Finset.mem_insert.mp h with rfl | h
  · rfl
  · obtain ⟨k, _, rfl⟩ := Finset.mem_image.mp h
    rfl

theorem one_mem_areaPtrs (a : Nat) : BafhPtr.one a ∈ areaPtrs a :=
  Finset.mem_insert_self _ _

theorem lie_mem_areaPtrs {a k : Nat} (hk : k < mdivmerArrLmax) :
    BafhPtr.lie a k ∈ areaPtrs a :=
  Finset.mem_insert_of_mem
    (Finset.mem_image.mpr ⟨k, Finset.mem_range.mpr hk, rfl⟩)

theorem mem_ptrs_of_area {p : BafhPtr} {a : Nat} (ha : a < memareaMax) (h : p ∈ areaPtrs a) :
    p ∈ ptrs :=
  Finset.mem_biUnion.mpr ⟨a, Finset.mem_range.mpr ha, h⟩

theorem lie_mem_ptrs {a k : Nat} (ha : a < memareaMax) (hk : k < mdivmerArrLmax) :
    BafhPtr.lie a k ∈ ptrs :=
  mem_ptrs_of_area ha (lie_mem_areaPtrs hk)

theorem one_mem_ptrs {a : Nat} (ha : a < memareaMax) : BafhPtr.one a ∈ ptrs :=
  mem_ptrs_of_area ha (one_mem_areaPtrs a)

theorem BafhPtr.Used.mem_ptrs {p : BafhPtr} (h : p.Used) : p ∈ ptrs := by
  cases p with
  | lie a k =>
      have ha : a < memareaMax := Nat.lt_trans h.1 (by decide)
      exact lie_mem_ptrs ha h.2
  | one a =>
      have ha : a = 2 := h
      subst ha
      exact one_mem_ptrs (by decide)

/-- The areas do not share lists. -/
theorem areaPtrs_disjoint {a b : Nat} (h : a ≠ b) :
    Disjoint (areaPtrs a) (areaPtrs b) := by
  rw [Finset.disjoint_left]
  intro p hp hq
  exact h ((area_of_mem_areaPtrs hp).symm.trans (area_of_mem_areaPtrs hq))

/-! ## Reading and writing the memory -/

@[simp] theorem addObj_afFrelst (b : Bafhlst) (s : Nat) :
    (b.addObj s).afFrelst = s :: b.afFrelst := rfl

@[simp] theorem addObj_afFobjnr (b : Bafhlst) (s : Nat) :
    (b.addObj s).afFobjnr = add64 b.afFobjnr 1 := rfl

@[simp] theorem addObj_afMobjnr (b : Bafhlst) (s : Nat) :
    (b.addObj s).afMobjnr = add64 b.afMobjnr 1 := rfl

@[simp] theorem addObj_afOderpnr (b : Bafhlst) (s : Nat) :
    (b.addObj s).afOderpnr = b.afOderpnr := by
  rw [Bafhlst.addObj]

@[simp] theorem delObj_afOderpnr (b : Bafhlst) (s : Nat) :
    (b.delObj s).afOderpnr = b.afOderpnr := by
  rw [Bafhlst.delObj]

@[simp] theorem delObj_afFrelst (b : Bafhlst) (s : Nat) :
    (b.delObj s).afFrelst = b.afFrelst.erase s := rfl

@[simp] theorem delObj_afFobjnr (b : Bafhlst) (s : Nat) :
    (b.delObj s).afFobjnr = sub64 b.afFobjnr 1 := rfl

@[simp] theorem delObj_afMobjnr (b : Bafhlst) (s : Nat) :
    (b.delObj s).afMobjnr = sub64 b.afMobjnr 1 := rfl

/-- The starts of the blocks on a list. -/
def Mem.free (x : Mem) (p : BafhPtr) : List Nat := (x.bafh p).afFrelst

/-- An area without its lists. -/
def Mem.hdr (x : Mem) (a : Nat) : Memarea :=
  { x.mareastat a with
    dmMdmlielst := fun _ => bafhlstInit .init 0
    dmOnemsalst := bafhlstInit .init 0 }

/-- The same memory with other descriptors. -/
def Mem.withMsa (x : Mem) (d : MsaArr) : Mem := { x with msadscstat := d }

@[simp] theorem withMsa_msadscstat (x : Mem) (d : MsaArr) :
    (x.withMsa d).msadscstat = d := rfl

@[simp] theorem withMsa_bafh (x : Mem) (d : MsaArr) : (x.withMsa d).bafh = x.bafh := by
  funext p
  cases p <;> rfl

@[simp] theorem withMsa_free (x : Mem) (d : MsaArr) : (x.withMsa d).free = x.free := by
  funext p
  cases p <;> rfl

@[simp] theorem withMsa_hdr (x : Mem) (d : MsaArr) : (x.withMsa d).hdr = x.hdr := rfl

@[simp] theorem withMsa_withMsa (x : Mem) (d d' : MsaArr) :
    (x.withMsa d).withMsa d' = x.withMsa d' := rfl

theorem setMsa_eq (x : Mem) (i : Nat) (f : Msadsc → Msadsc) :
    x.setMsa i f = x.withMsa (upd x.msadscstat i f) := rfl

@[simp] theorem setBafh_msadscstat (x : Mem) (p : BafhPtr) (b : Bafhlst) :
    (x.setBafh p b).msadscstat = x.msadscstat := by
  cases p <;> rfl

@[simp] theorem setBafh_self (x : Mem) (p : BafhPtr) (b : Bafhlst) :
    (x.setBafh p b).bafh p = b := by
  cases p with
  | lie a k => simp [Mem.setBafh, Mem.setMarea, Mem.bafh]
  | one a => simp [Mem.setBafh, Mem.setMarea, Mem.bafh]

theorem setBafh_of_ne (x : Mem) {p q : BafhPtr} (b : Bafhlst) (h : q ≠ p) :
    (x.setBafh p b).bafh q = x.bafh q := by
  cases p with
  | lie a k =>
      cases q with
      | lie a' k' =>
          by_cases ha : a' = a
          · subst ha
            have hk : k' ≠ k := fun hk => h (by rw [hk])
            simp [Mem.setBafh, Mem.setMarea, Mem.bafh, Function.update_of_ne hk]
          · simp [Mem.setBafh, Mem.setMarea, Mem.bafh, Function.update_of_ne ha]
      | one a' =>
          by_cases ha : a' = a
          · subst ha
            simp [Mem.setBafh, Mem.setMarea, Mem.bafh]
          · simp [Mem.setBafh, Mem.setMarea, Mem.bafh, Function.update_of_ne ha]
  | one a =>
      cases q with
      | lie a' k' =>
          by_cases ha : a' = a
          · subst ha
            simp [Mem.setBafh, Mem.setMarea, Mem.bafh]
          · simp [Mem.setBafh, Mem.setMarea, Mem.bafh, Function.update_of_ne ha]
      | one a' =>
          have ha : a' ≠ a := fun ha => h (by rw [ha])
          simp [Mem.setBafh, Mem.setMarea, Mem.bafh, Function.update_of_ne ha]

theorem setBafh_bafh (x : Mem) (p : BafhPtr) (b : Bafhlst) :
    (x.setBafh p b).bafh = Function.update x.bafh p b := by
  funext q
  by_cases h : q = p
  · subst h
    rw [setBafh_self, Function.update_self]
  · rw [setBafh_of_ne x b h, Function.update_of_ne h]

theorem setBafh_free (x : Mem) (p : BafhPtr) (b : Bafhlst) :
    (x.setBafh p b).free = Function.update x.free p b.afFrelst := by
  funext q
  by_cases h : q = p
  · subst h
    rw [Mem.free, setBafh_self, Function.update_self]
  · rw [Mem.free, setBafh_of_ne x b h, Function.update_of_ne h, Mem.free]

@[simp] theorem setBafh_hdr (x : Mem) (p : BafhPtr) (b : Bafhlst) :
    (x.setBafh p b).hdr = x.hdr := by
  funext c
  cases p with
  | lie a k =>
      by_cases h : c = a
      · subst h
        simp [Mem.setBafh, Mem.setMarea, Mem.hdr]
      · simp [Mem.setBafh, Mem.setMarea, Mem.hdr, Function.update_of_ne h]
  | one a =>
      by_cases h : c = a
      · subst h
        simp [Mem.setBafh, Mem.setMarea, Mem.hdr]
      · simp [Mem.setBafh, Mem.setMarea, Mem.hdr, Function.update_of_ne h]

theorem setBafh_withMsa (x : Mem) (p : BafhPtr) (b : Bafhlst) (d : MsaArr) :
    (x.withMsa d).setBafh p b = (x.setBafh p b).withMsa d := by
  cases p <;> rfl

/-! ## What the descriptors of a block look like -/

/-- The fields no operation after boot writes. -/
def SameStatic (d d' : MsaArr) : Prop :=
  ∀ i, (d' i).mfMocty = (d i).mfMocty ∧ (d' i).mfMarty = (d i).mfMarty ∧
    (d' i).pafPadrs = (d i).pafPadrs

/-- `d'` differs from `d` at most in the tags, counts and allocation bits of
the block of `n` descriptors at `s`. -/
structure Retag (d d' : MsaArr) (s n : Nat) : Prop where
  static : SameStatic d d'
  frame : ∀ i, ¬ (Seg.mk s n).Has i → d' i = d i

/-- Pages of one area with consecutive page numbers. -/
def Shape (d : MsaArr) (ty : MaType) (s n : Nat) : Prop :=
  ∀ i < n, (d (s + i)).mfMarty = ty ∧ (d (s + i)).pafPadrs = (d s).pafPadrs + i

/-- No page of the block is counted or marked as allocated. -/
def Clean (d : MsaArr) (s n : Nat) : Prop :=
  ∀ i < n, (d (s + i)).mfUindx = 0 ∧ (d (s + i)).pafAlloc = false

/-- Between its ends a block carries no tags. -/
def Inner (d : MsaArr) (s n : Nat) : Prop :=
  ∀ i, 0 < i → i + 1 < n → (d (s + i)).mfOlkty = .init ∧ (d (s + i)).mdOdlink = .null

/-- A free block of list `p`. -/
structure FreeBlk (d : MsaArr) (ty : MaType) (p : BafhPtr) (s n : Nat) : Prop where
  shape : Shape d ty s n
  clean : Clean d s n
  inner : Inner d s n
  first : 1 < n → (d s).mfOlkty = .oder ∧ (d s).mdOdlink = .msa (s + (n - 1))
  last : (d (s + (n - 1))).mfOlkty = .bafh ∧ (d (s + (n - 1))).mdOdlink = .bafh p

/-- A block that an allocation has unlinked and is cutting down: its first
descriptor is a valid start tag, its last one may carry any end tag. -/
structure LooseBlk (d : MsaArr) (ty : MaType) (s n : Nat) : Prop where
  shape : Shape d ty s n
  clean : Clean d s n
  inner : Inner d s n
  first : ((d s).mfOlkty = .oder ∧ (d s).mdOdlink = .msa (s + (n - 1))) ∨
    (n = 1 ∧ (d s).mfOlkty = .bafh ∧ ∃ p, (d s).mdOdlink = .bafh p)
  last : 1 < n → (d (s + (n - 1))).mfOlkty ≠ .oder

/-- A block that has been handed out. -/
structure OutBlk (d : MsaArr) (ty : MaType) (s n : Nat) : Prop where
  shape : Shape d ty s n
  inner : Inner d s n
  first : (d s).mfOlkty = .oder ∧ (d s).mdOdlink = .msa (s + (n - 1))
  last : 1 < n → (d (s + (n - 1))).mfOlkty ≠ .oder
  ends : ∀ i < n, i = 0 ∨ i + 1 = n →
    (d (s + i)).mfUindx = 1 ∧ (d (s + i)).pafAlloc = true
  between : ∀ i, 0 < i → i + 1 < n →
    (d (s + i)).mfUindx = 0 ∧ (d (s + i)).pafAlloc = false

theorem SameStatic.refl (d : MsaArr) : SameStatic d d := fun _ => ⟨rfl, rfl, rfl⟩

theorem SameStatic.trans {d d' d'' : MsaArr} (h : SameStatic d d') (h' : SameStatic d' d'') :
    SameStatic d d'' := by
  intro i
  obtain ⟨h1, h2, h3⟩ := h i
  obtain ⟨h1', h2', h3'⟩ := h' i
  exact ⟨h1'.trans h1, h2'.trans h2, h3'.trans h3⟩

theorem Retag.refl (d : MsaArr) (s n : Nat) : Retag d d s n :=
  ⟨SameStatic.refl d, fun _ _ => rfl⟩

theorem Retag.trans {d d' d'' : MsaArr} {s n : Nat} (h : Retag d d' s n)
    (h' : Retag d' d'' s n) : Retag d d'' s n :=
  ⟨h.static.trans h'.static, fun i hi => (h'.frame i hi).trans (h.frame i hi)⟩

/-- Retagging part of a block retags the block. -/
theorem Retag.mono {d d' : MsaArr} {s n t m : Nat} (h : Retag d d' s n)
    (hs : t ≤ s) (hn : s + n ≤ t + m) : Retag d d' t m := by
  refine ⟨h.static, fun i hi => h.frame i fun hin => hi ?_⟩
  obtain ⟨h1, h2⟩ := hin
  exact ⟨Nat.le_trans hs h1, Nat.lt_of_lt_of_le h2 hn⟩

/-- Writing one descriptor of a block without touching its static part. -/
theorem Retag.upd {d d' : MsaArr} {s n i : Nat} {f : Msadsc → Msadsc} (h : Retag d d' s n)
    (hi : (Seg.mk s n).Has i)
    (hf : ∀ m, (f m).mfMocty = m.mfMocty ∧ (f m).mfMarty = m.mfMarty ∧
      (f m).pafPadrs = m.pafPadrs) :
    Retag d (upd d' i f) s n := by
  refine ⟨fun j => ?_, fun j hj => ?_⟩
  · by_cases hji : j = i
    · subst hji
      obtain ⟨h1, h2, h3⟩ := h.static j
      obtain ⟨h1', h2', h3'⟩ := hf (d' j)
      rw [upd_self]
      exact ⟨h1'.trans h1, h2'.trans h2, h3'.trans h3⟩
    · rw [upd_of_ne hji]
      exact h.static j
  · have hji : j ≠ i := by
      rintro rfl
      exact hj hi
    rw [upd_of_ne hji]
    exact h.frame j hj

theorem Shape.static {d d' : MsaArr} {ty : MaType} {s n : Nat} (h : Shape d ty s n)
    (hst : SameStatic d d') : Shape d' ty s n := by
  intro i hi
  obtain ⟨h1, h2⟩ := h i hi
  rw [(hst (s + i)).2.1, (hst (s + i)).2.2, (hst s).2.2]
  exact ⟨h1, h2⟩

/-- Two blocks of one area that touch make one block. -/
theorem Shape.append {d : MsaArr} {ty : MaType} {s m n : Nat} (h1 : Shape d ty s m)
    (h2 : Shape d ty (s + m) n) (hadj : (d (s + m)).pafPadrs = (d s).pafPadrs + m) :
    Shape d ty s (m + n) := by
  intro i hi
  by_cases him : i < m
  · exact h1 i him
  · obtain ⟨ht, hp⟩ := h2 (i - m) (by omega)
    have hidx : s + m + (i - m) = s + i := by omega
    rw [hidx] at ht hp
    exact ⟨ht, by omega⟩

theorem Shape.left {d : MsaArr} {ty : MaType} {s m n : Nat} (h : Shape d ty s (m + n)) :
    Shape d ty s m :=
  fun i hi => h i (by omega)

theorem Shape.right {d : MsaArr} {ty : MaType} {s m n : Nat} (h : Shape d ty s (m + n)) :
    Shape d ty (s + m) n := by
  intro i hi
  obtain ⟨ht, hp⟩ := h (m + i) (by omega)
  have h0 := (h m (by omega)).2
  rw [← Nat.add_assoc] at ht hp
  exact ⟨ht, by omega⟩

section Agree

variable {d d' : MsaArr} {ty : MaType} {p : BafhPtr} {s n : Nat}

/-- A block depends on its own descriptors only. -/
theorem FreeBlk.congr (h : FreeBlk d ty p s n) (hn : 0 < n)
    (hd : ∀ i < n, d' (s + i) = d (s + i)) : FreeBlk d' ty p s n := by
  have h0 : d' s = d s := hd 0 hn
  refine ⟨fun i hi => ?_, fun i hi => ?_, fun i h1 h2 => ?_, fun h1 => ?_, ?_⟩
  · rw [hd i hi, h0]
    exact h.shape i hi
  · rw [hd i hi]
    exact h.clean i hi
  · rw [hd i (by omega)]
    exact h.inner i h1 h2
  · rw [h0]
    exact h.first h1
  · rw [hd (n - 1) (by omega)]
    exact h.last

theorem OutBlk.congr (h : OutBlk d ty s n) (hn : 0 < n)
    (hd : ∀ i < n, d' (s + i) = d (s + i)) : OutBlk d' ty s n := by
  have h0 : d' s = d s := hd 0 hn
  refine ⟨fun i hi => ?_, fun i h1 h2 => ?_, ?_, fun h1 => ?_, fun i hi => ?_,
    fun i h1 h2 => ?_⟩
  · rw [hd i hi, h0]
    exact h.shape i hi
  · rw [hd i (by omega)]
    exact h.inner i h1 h2
  · rw [h0]
    exact h.first
  · rw [hd (n - 1) (by omega)]
    exact h.last h1
  · rw [hd i hi]
    exact h.ends i hi
  · rw [hd i (by omega)]
    exact h.between i h1 h2

/-- A retagged block is apart from one that does not meet it. -/
theorem Retag.agree {t m : Nat} (h : Retag d d' t m)
    (hap : ∀ i, (Seg.mk s n).Has i → ¬ (Seg.mk t m).Has i) :
    ∀ i < n, d' (s + i) = d (s + i) := by
  intro i hi
  exact h.frame _ (hap _ ⟨Nat.le_add_right s i, Nat.add_lt_add_left hi s⟩)

/-- An unlinked free block is loose. -/
theorem FreeBlk.loose (h : FreeBlk d ty p s n) (hn : 0 < n) : LooseBlk d ty s n := by
  refine ⟨h.shape, h.clean, h.inner, ?_, fun _ => ?_⟩
  · by_cases h1 : 1 < n
    · exact Or.inl (h.first h1)
    · have hone : n = 1 := by omega
      subst hone
      exact Or.inr ⟨rfl, h.last.1, p, h.last.2⟩
  · rw [h.last.1]
    decide

end Agree

/-! ## The invariant -/

/-- The type `init_memarea_core` gives to each area. -/
def areaTy : Nat → MaType
  | 0 => .hwad
  | 1 => .krnl
  | 2 => .proc
  | 3 => .shar
  | _ => .init

/-- The page was free at boot. -/
def Managed (d : MsaArr) (msanr i : Nat) : Prop :=
  i < msanr ∧ (d i).mfMocty = .free

instance (d : MsaArr) (msanr : Nat) : DecidablePred (Managed d msanr) :=
  fun i => inferInstanceAs (Decidable (i < msanr ∧ (d i).mfMocty = .free))

/-- **The allocator invariant.**  The free lists and the blocks `held` outside
them tile the pages that were free at boot, every listed block is a free block
of its list, and the bookkeeping of the lists is right. -/
structure MemInv (x : Mem) (msanr : Nat) (held : List Seg) : Prop where
  msanr_lt : msanr < wordMod
  types : ∀ a < memareaMax, (x.hdr a).maType = areaTy a
  order : ∀ p ∈ ptrs, (x.bafh p).afOderpnr = p.ord
  fobjnr : ∀ p ∈ ptrs, (x.bafh p).afFobjnr = (x.free p).length
  mobjnr : ∀ p ∈ ptrs, (x.bafh p).afMobjnr = (x.free p).length
  padrs : ∀ i < msanr, (x.msadscstat i).pafPadrs < 2 ^ 52
  tiles : Tiles ptrs BafhPtr.ord (Managed x.msadscstat msanr) x.free held
  used : ∀ p ∈ ptrs, ∀ s ∈ x.free p, p.Used
  free : ∀ p ∈ ptrs, ∀ s ∈ x.free p,
    FreeBlk x.msadscstat (areaTy p.area) p s p.ord
  reserved : ∀ i < msanr, (x.msadscstat i).mfMocty ≠ .free →
    (x.msadscstat i).mfOlkty = .init

/-- No list below the top one holds two blocks that could be joined. -/
def NoAdj (x : Mem) : Prop :=
  ∀ a k, k + 1 < mdivmerArrLmax → ∀ s ∈ x.free (.lie a k), s + 2 ^ k ∈ x.free (.lie a k) →
    (x.msadscstat (s + 2 ^ k)).pafPadrs ≠ (x.msadscstat s).pafPadrs + 2 ^ k

/-- What operations on the lists of one area leave alone. -/
structure Frame (a : Nat) (x x' : Mem) : Prop where
  hdr : x'.hdr = x.hdr
  lists : ∀ p, p.area ≠ a → x'.bafh p = x.bafh p
  static : SameStatic x.msadscstat x'.msadscstat

theorem Frame.refl (a : Nat) (x : Mem) : Frame a x x :=
  ⟨rfl, fun _ _ => rfl, SameStatic.refl _⟩

theorem Frame.trans {a : Nat} {x x' x'' : Mem} (h : Frame a x x') (h' : Frame a x' x'') :
    Frame a x x'' :=
  ⟨h'.hdr.trans h.hdr, fun p hp => (h'.lists p hp).trans (h.lists p hp),
    h.static.trans h'.static⟩

theorem Frame.setBafh {a : Nat} (x : Mem) {p : BafhPtr} (hp : p.area = a) (b : Bafhlst) :
    Frame a x (x.setBafh p b) := by
  refine ⟨setBafh_hdr x p b, fun q hq => setBafh_of_ne x b fun h => hq ?_, ?_⟩
  · rw [h]
    exact hp
  · rw [setBafh_msadscstat]
    exact SameStatic.refl _

theorem Frame.withMsa (a : Nat) (x : Mem) {d : MsaArr} (h : SameStatic x.msadscstat d) :
    Frame a x (x.withMsa d) :=
  ⟨withMsa_hdr x d, fun p _ => by rw [withMsa_bafh], h⟩

section Inv

variable {x : Mem} {msanr : Nat} {held : List Seg}

/-- The lists are short enough for their counters. -/
theorem MemInv.length_le (h : MemInv x msanr held) {p : BafhPtr} (hp : p ∈ ptrs) :
    (x.free p).length ≤ msanr :=
  h.tiles.length_le (fun _ hi => hi.1) hp p.ord_pos

/-- The end of a held block is inside the array. -/
theorem MemInv.held_end_le (h : MemInv x msanr held) {b : Seg} (hb : b ∈ held)
    (hlen : 0 < b.len) : b.start + b.len ≤ msanr :=
  end_le_of_has hlen fun _ hi => (h.tiles.held_dom hb hi).1

/-- The end of a listed block is inside the array. -/
theorem MemInv.free_end_le (h : MemInv x msanr held) {p : BafhPtr} (hp : p ∈ ptrs)
    {s : Nat} (hs : s ∈ x.free p) : s + p.ord ≤ msanr :=
  end_le_of_has (b := ⟨s, p.ord⟩) p.ord_pos fun _ hi => (h.tiles.free_dom hp hs hi).1

/-- With a block held there is room for one more list entry. -/
theorem MemInv.length_lt (h : MemInv x msanr held) {b : Seg} (hb : b ∈ held)
    (hlen : 0 < b.len) {p : BafhPtr} (hp : p ∈ ptrs) : (x.free p).length < msanr := by
  have hbs : b.Has b.start := ⟨Nat.le_refl _, by omega⟩
  have hnodup := h.tiles.free_nodup hp p.ord_pos
  have hsub : (x.free p).toFinset ⊆ (Finset.range msanr).erase b.start := by
    intro s hs
    have hs' := List.mem_toFinset.mp hs
    have hhas : (Seg.mk s p.ord).Has s := ⟨Nat.le_refl s, Nat.lt_add_of_pos_right p.ord_pos⟩
    refine Finset.mem_erase.mpr ⟨?_, Finset.mem_range.mpr (h.tiles.free_dom hp hs' hhas).1⟩
    rintro rfl
    exact h.tiles.free_held_apart hp hs' hhas hb hbs
  have hmem : b.start ∈ Finset.range msanr :=
    Finset.mem_range.mpr (h.tiles.held_dom hb hbs).1
  have hcard := Finset.card_le_card hsub
  rw [List.toFinset_card_of_nodup hnodup, Finset.card_erase_of_mem hmem,
    Finset.card_range] at hcard
  have := Finset.mem_range.mp hmem
  omega

/-- Unlink a listed block. -/
theorem MemInv.remove (h : MemInv x msanr held) {p : BafhPtr} (hp : p ∈ ptrs) {s : Nat}
    (hs : s ∈ x.free p) :
    MemInv (x.setBafh p ((x.bafh p).delObj s)) msanr (⟨s, p.ord⟩ :: held) := by
  have hpos : 0 < (x.free p).length := List.length_pos_of_mem hs
  have hle := h.length_le hp
  have hlt := h.msanr_lt
  have hfree : (x.setBafh p ((x.bafh p).delObj s)).free
      = Function.update x.free p ((x.free p).erase s) := setBafh_free _ _ _
  have hsub : ∀ q, ∀ t ∈ (x.setBafh p ((x.bafh p).delObj s)).free q, t ∈ x.free q := by
    intro q t ht
    rw [hfree] at ht
    by_cases hq : q = p
    · subst hq
      rw [Function.update_self] at ht
      exact List.mem_of_mem_erase ht
    · rwa [Function.update_of_ne hq] at ht
  have hcount : sub64 (x.free p).length 1 = ((x.free p).erase s).length := by
    rw [List.length_erase_of_mem hs, sub64_eq (by omega) (by omega)]
  refine {
    msanr_lt := hlt
    types := by rw [setBafh_hdr]; exact h.types
    order := fun q hq => ?_
    fobjnr := fun q hq => ?_
    mobjnr := fun q hq => ?_
    padrs := by rw [setBafh_msadscstat]; exact h.padrs
    tiles := ?_
    used := fun q hq t ht => h.used q hq t (hsub q t ht)
    free := fun q hq t ht => ?_
    reserved := by rw [setBafh_msadscstat]; exact h.reserved }
  · by_cases hqp : q = p
    · subst hqp
      rw [setBafh_self, delObj_afOderpnr]
      exact h.order q hq
    · rw [setBafh_of_ne _ _ hqp]
      exact h.order q hq
  · rw [hfree]
    by_cases hqp : q = p
    · subst hqp
      rw [setBafh_self, Function.update_self, ← hcount, delObj_afFobjnr, h.fobjnr q hq]
    · rw [setBafh_of_ne _ _ hqp, Function.update_of_ne hqp]
      exact h.fobjnr q hq
  · rw [hfree]
    by_cases hqp : q = p
    · subst hqp
      rw [setBafh_self, Function.update_self, ← hcount, delObj_afMobjnr, h.mobjnr q hq]
    · rw [setBafh_of_ne _ _ hqp, Function.update_of_ne hqp]
      exact h.mobjnr q hq
  · rw [setBafh_msadscstat, hfree]
    exact h.tiles.remove hp hs
  · rw [setBafh_msadscstat]
    exact h.free q hq t (hsub q t ht)

/-- File a held block that carries the tags of the list. -/
theorem MemInv.push {p : BafhPtr} {s : Nat} (h : MemInv x msanr (⟨s, p.ord⟩ :: held))
    (hp : p.Used) (hb : FreeBlk x.msadscstat (areaTy p.area) p s p.ord) :
    MemInv (x.setBafh p ((x.bafh p).addObj s)) msanr held := by
  have hmem := hp.mem_ptrs
  have hlen : (x.free p).length < msanr :=
    h.length_lt (b := ⟨s, p.ord⟩) List.mem_cons_self p.ord_pos hmem
  have hlt := h.msanr_lt
  have hfree : (x.setBafh p ((x.bafh p).addObj s)).free
      = Function.update x.free p (s :: x.free p) := setBafh_free _ _ _
  have hcount : add64 (x.free p).length 1 = (s :: x.free p).length := by
    rw [List.length_cons, add64_eq (by omega)]
  refine {
    msanr_lt := hlt
    types := by rw [setBafh_hdr]; exact h.types
    order := fun q hq => ?_
    fobjnr := fun q hq => ?_
    mobjnr := fun q hq => ?_
    padrs := by rw [setBafh_msadscstat]; exact h.padrs
    tiles := ?_
    used := fun q hq t ht => ?_
    free := fun q hq t ht => ?_
    reserved := by rw [setBafh_msadscstat]; exact h.reserved }
  · by_cases hqp : q = p
    · subst hqp
      rw [setBafh_self, addObj_afOderpnr]
      exact h.order q hq
    · rw [setBafh_of_ne _ _ hqp]
      exact h.order q hq
  · rw [hfree]
    by_cases hqp : q = p
    · subst hqp
      rw [setBafh_self, Function.update_self, ← hcount, addObj_afFobjnr, h.fobjnr q hq]
    · rw [setBafh_of_ne _ _ hqp, Function.update_of_ne hqp]
      exact h.fobjnr q hq
  · rw [hfree]
    by_cases hqp : q = p
    · subst hqp
      rw [setBafh_self, Function.update_self, ← hcount, addObj_afMobjnr, h.mobjnr q hq]
    · rw [setBafh_of_ne _ _ hqp, Function.update_of_ne hqp]
      exact h.mobjnr q hq
  · rw [setBafh_msadscstat, hfree]
    exact h.tiles.push hmem
  · rw [hfree] at ht
    by_cases hqp : q = p
    · subst hqp
      exact hp
    · rw [Function.update_of_ne hqp] at ht
      exact h.used q hq t ht
  · rw [setBafh_msadscstat]
    rw [hfree] at ht
    by_cases hqp : q = p
    · subst hqp
      rw [Function.update_self] at ht
      rcases List.mem_cons.mp ht with rfl | ht
      · exact hb
      · exact h.free q hq t ht
    · rw [Function.update_of_ne hqp] at ht
      exact h.free q hq t ht

/-- Rewrite the tags of a held block. -/
theorem MemInv.retag (h : MemInv x msanr held) {b : Seg} (hb : b ∈ held) {d : MsaArr}
    (hd : Retag x.msadscstat d b.start b.len) : MemInv (x.withMsa d) msanr held := by
  have hman : ∀ i, Managed x.msadscstat msanr i ↔ Managed d msanr i := by
    intro i
    unfold Managed
    rw [(hd.static i).1]
  refine {
    msanr_lt := h.msanr_lt
    types := h.types
    order := by rw [withMsa_bafh]; exact h.order
    fobjnr := by rw [withMsa_bafh, withMsa_free]; exact h.fobjnr
    mobjnr := by rw [withMsa_bafh, withMsa_free]; exact h.mobjnr
    padrs := fun i hi => ?_
    tiles := by rw [withMsa_free]; exact h.tiles.congr hman
    used := by rw [withMsa_free]; exact h.used
    free := fun p hp s hs => ?_
    reserved := fun i hi hne => ?_ }
  · rw [withMsa_msadscstat, (hd.static i).2.2]
    exact h.padrs i hi
  · rw [withMsa_free] at hs
    apply (h.free p hp s hs).congr p.ord_pos
    exact hd.agree fun i hi => h.tiles.free_held_apart hp hs hi hb
  · rw [withMsa_msadscstat] at hne ⊢
    rw [(hd.static i).1] at hne
    have hout : ¬ b.Has i := fun hin => hne (h.tiles.held_dom hb hin).2
    rw [hd.frame i hout]
    exact h.reserved i hi hne

/-- Change only how the held blocks are cut. -/
theorem MemInv.recut {held' : List Seg} (h : MemInv x msanr held)
    (ht : Tiles ptrs BafhPtr.ord (Managed x.msadscstat msanr) x.free held') :
    MemInv x msanr held' :=
  { h with tiles := ht }

end Inv

end Cosmos.Hal
