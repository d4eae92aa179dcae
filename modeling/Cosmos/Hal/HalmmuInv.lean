import Cosmos.Hal.Halmmu
import Cosmos.Lib.Radix
import Cosmos.Lib.StM
import Mathlib.Data.Nat.Bitwise

/-!
# The tree of page tables

The tables of the user half form a radix tree below the top table: different paths
lead to different tables, the lists of the descriptor hold exactly the tables of
their level, and every entry that is not 0 points somewhere.  That is `Tables`; it
holds between any two steps of the code.  `Busy` says that no table is empty, but for
those at some paths the code is just working on.
-/

namespace Cosmos.Hal

open Cosmos.Lib Cosmos.Lib.Radix Cosmos.Lib.StM

/-! ## Entries -/

theorem direFrame_zero : direFrame 0 = none := by
  unfold direFrame
  simp

/-- Flags are the bits of an entry outside its frame number. -/
abbrev FlagBits (flags : Nat) : Prop := (flags >>> 12) % 2 ^ 40 = 0

theorem flagBits_of_lt {flags : Nat} (h : flags < 4096) : FlagBits flags := by
  unfold FlagBits
  rw [Nat.shiftRight_eq_div_pow, Nat.div_eq_of_lt (by simpa using h), Nat.zero_mod]

/-- Flags do not reach the frame number. -/
theorem direFrame_direEntry (f : PageFrame) {flags : Nat} (h : FlagBits flags) :
    direFrame (direEntry (frameAddr f) flags) = some f := by
  have hval : (direEntry (frameAddr f) flags >>> 12) % 2 ^ 40 = f.val := by
    unfold direEntry frameAddr
    rw [Nat.shiftRight_or_distrib, Nat.shiftLeft_shiftRight, Nat.or_mod_two_pow, h, Nat.or_zero]
    exact Nat.mod_eq_of_lt f.lt
  unfold direFrame
  simp only [hval]
  rw [dif_pos ⟨f.pos, f.lt⟩]

theorem index_lt (lv : DirLevel) (vadrs : Nat) : lv.index vadrs < 512 := by
  have h : ∀ n : Nat, n &&& 0x1ff < 512 := fun n => Nat.lt_succ_of_le Nat.and_le_right
  cases lv with
  | tdir => exact Nat.zero_lt_succ 511
  | sdir => exact h _
  | idir => exact h _
  | mdir => exact h _

theorem mmuMdireIndex_lt (vadrs : Nat) : mmuMdireIndex vadrs < 512 :=
  Nat.lt_succ_of_le Nat.and_le_right

/-! ## Paths -/

/-- How many tables are above a table of the level. -/
def DirLevel.depth : DirLevel → Nat
  | .tdir => 0
  | .sdir => 1
  | .idir => 2
  | .mdir => 3

/-- The level above. -/
def DirLevel.up : DirLevel → DirLevel
  | .tdir => .tdir
  | .sdir => .tdir
  | .idir => .sdir
  | .mdir => .idir

/-- The path of an address to its table of the level. -/
def DirLevel.path : DirLevel → Nat → List Nat
  | .tdir, _ => []
  | .sdir, v => [mmuTdireIndex v]
  | .idir, v => [mmuSdireIndex v, mmuTdireIndex v]
  | .mdir, v => [mmuIdireIndex v, mmuSdireIndex v, mmuTdireIndex v]

/-- The path of an address to its page. -/
def vpath (v : Nat) : List Nat := mmuMdireIndex v :: DirLevel.mdir.path v

/-- Paths into the user half of the top table. -/
def UserPath : List Nat → Prop
  | [] => True
  | [t] => t < 256
  | i :: j :: q => i < 512 ∧ UserPath (j :: q)

theorem UserPath.tail {i : Nat} {q : List Nat} (h : UserPath (i :: q)) : UserPath q := by
  cases q with
  | nil => trivial
  | cons j q => exact h.2

theorem UserPath.head_lt {i : Nat} {q : List Nat} (h : UserPath (i :: q)) : i < 512 := by
  cases q with
  | nil => exact Nat.lt_trans (show i < 256 from h) (by decide)
  | cons j q => exact h.1

theorem UserPath.cons {i : Nat} {q : List Nat} (h : UserPath q) (hi : i < 512)
    (hq : q ≠ []) : UserPath (i :: q) := by
  cases q with
  | nil => exact absurd rfl hq
  | cons j q => exact ⟨hi, h⟩

/-- A user address. -/
def UserAdr (v : Nat) : Prop := mmuTdireIndex v < 256

instance (v : Nat) : Decidable (UserAdr v) := inferInstanceAs (Decidable (_ < _))

theorem path_user {v : Nat} (h : UserAdr v) (lv : DirLevel) : UserPath (lv.path v) := by
  have hs : mmuSdireIndex v < 512 := index_lt .idir v
  have hi : mmuIdireIndex v < 512 := index_lt .mdir v
  cases lv with
  | tdir => trivial
  | sdir => exact h
  | idir => exact ⟨hs, h⟩
  | mdir => exact ⟨hi, hs, h⟩

theorem vpath_user {v : Nat} (h : UserAdr v) : UserPath (vpath v) :=
  (path_user h .mdir).cons (mmuMdireIndex_lt v) (by simp [DirLevel.path])

theorem path_length (lv : DirLevel) (v : Nat) : (lv.path v).length = lv.depth := by
  cases lv <;> rfl

theorem path_eq {lv : DirLevel} (h : lv ≠ .tdir) (v : Nat) :
    lv.path v = lv.index v :: lv.up.path v := by
  cases lv with
  | tdir => exact absurd rfl h
  | sdir => rfl
  | idir => rfl
  | mdir => rfl

theorem depth_inj {lv lv' : DirLevel} (h : lv.depth = lv'.depth) : lv = lv' := by
  cases lv <;> cases lv' <;> first | rfl | cases h

/-- The level of a table. -/
theorem exists_level {n : Nat} (h : n ≤ 3) : ∃ lv : DirLevel, lv.depth = n := by
  match n, h with
  | 0, _ => exact ⟨.tdir, rfl⟩
  | 1, _ => exact ⟨.sdir, rfl⟩
  | 2, _ => exact ⟨.idir, rfl⟩
  | 3, _ => exact ⟨.mdir, rfl⟩

/-! ## The invariant -/

/-- Where an entry points. -/
def MmuSt.nxt (s : MmuSt) (f : PageFrame) (i : Nat) : Option PageFrame := direFrame (s.tbl f i)

/-- Where a path leads. -/
abbrev MmuSt.walk (s : MmuSt) (top : PageFrame) : List Nat → Option PageFrame :=
  Radix.walk s.nxt top

/-- **The tables of an address space** whose top table is `top`, with the kernel half
of `pml4`; the frames of `others` are outstanding for other purposes. -/
structure Tables (pml4 : Nat → Nat) (others : List PageFrame) (s : MmuSt) (top : PageFrame) :
    Prop where
  tdirearr : s.mmu.mudTdirearr = some top
  apart : Apart s.nxt top UserPath 3
  entry : ∀ q f i, UserPath (i :: q) → q.length ≤ 3 → s.walk top q = some f → s.tbl f i ≠ 0 →
    s.nxt f i ≠ none
  head : ∀ lv f, f ∈ s.mmu.mudHead lv ↔
    ∃ q, UserPath q ∧ q.length = lv.depth ∧ s.walk top q = some f
  nodup : ∀ lv, (s.mmu.mudHead lv).Nodup
  msanr : ∀ lv, s.mmu.mudMsanr lv = (s.mmu.mudHead lv).length
  out : ∀ f, f ∈ s.pgs.out ↔ f ∈ others ∨ ∃ lv, f ∈ s.mmu.mudHead lv
  sep : ∀ f ∈ others, ∀ lv, f ∉ s.mmu.mudHead lv
  krl : ∀ i, 256 ≤ i → s.tbl top i = pml4 i

/-- No table below the top is empty, except at the paths of `l`. -/
def Busy (s : MmuSt) (top : PageFrame) (l : List (List Nat)) : Prop :=
  ∀ q, UserPath q → 1 ≤ q.length → q.length ≤ 3 → q ∉ l → s.walk top q ≠ none →
    ∃ i, i < 512 ∧ s.walk top (i :: q) ≠ none

/-- Only the path `p` leads elsewhere than before. -/
def Shift (s s' : MmuSt) (top : PageFrame) (p : List Nat) (o : Option PageFrame) : Prop :=
  ∀ q, UserPath q → q.length ≤ 4 → s'.walk top q = Function.update (s.walk top) p o q

section Inv

variable {pml4 : Nat → Nat} {others : List PageFrame} {s s' : MmuSt} {top : PageFrame}

theorem Tables.mem_out (h : Tables pml4 others s top) {q : List Nat} {f : PageFrame} (hq : UserPath q)
    (hlen : q.length ≤ 3) (hw : s.walk top q = some f) : f ∈ s.pgs.out := by
  obtain ⟨lv, hlv⟩ := exists_level hlen
  exact (h.out f).mpr (Or.inr ⟨lv, (h.head lv f).mpr ⟨q, hq, hlv.symm, hw⟩⟩)

theorem Tables.not_mem_others (h : Tables pml4 others s top) {q : List Nat} {f : PageFrame}
    (hq : UserPath q) (hlen : q.length ≤ 3) (hw : s.walk top q = some f) : f ∉ others := by
  obtain ⟨lv, hlv⟩ := exists_level hlen
  exact fun hf => h.sep f hf lv ((h.head lv f).mpr ⟨q, hq, hlv.symm, hw⟩)

theorem Shift.at (h : Shift s s' top p o) (hp : UserPath p) (hlen : p.length ≤ 4) :
    s'.walk top p = o := by
  rw [h p hp hlen, Function.update_self]

theorem Shift.of_ne {p q : List Nat} {o : Option PageFrame} (h : Shift s s' top p o)
    (hq : UserPath q) (hlen : q.length ≤ 4) (hne : q ≠ p) : s'.walk top q = s.walk top q := by
  rw [h q hq hlen, Function.update_of_ne hne]

/-! ### One entry written -/

/-- Entry `i` of the table at path `p` is written with `e`, and no other entry of the
tree changes; nothing hangs below it before or after. -/
structure Rewrites (s s' : MmuSt) (top : PageFrame) (p : List Nat) (f : PageFrame) (i e : Nat) :
    Prop where
  user : UserPath (i :: p)
  len : p.length ≤ 3
  table : s.walk top p = some f
  same : ∀ q h, UserPath q → q.length ≤ 3 → s.walk top q = some h → ∀ j, (h = f → j ≠ i) →
    s'.tbl h j = s.tbl h j
  set : s'.tbl f i = e
  below : p.length < 3 → ∀ g, s.nxt f i = some g → ∀ j, j < 512 → s.nxt g j = none
  below' : p.length < 3 → ∀ g, direFrame e = some g → ∀ j, j < 512 → s'.tbl g j = 0

variable {p : List Nat} {f : PageFrame} {i e : Nat}

theorem Rewrites.shift (h : Tables pml4 others s top) (hr : Rewrites s s' top p f i e) :
    Shift s s' top (i :: p) (direFrame e) := by
  refine walk_set (fun j q hq => hq.tail) h.apart hr.user.tail hr.len hr.table
    (fun q g hq hlen hw j hj => ?_) ?_ (fun hlt g hg j hj => hr.below hlt g hg j hj.head_lt)
    fun hlt g hg j hj => ?_
  · show direFrame (s'.tbl g j) = direFrame (s.tbl g j)
    rw [hr.same q g hq hlen hw j hj]
  · show direFrame (s'.tbl f i) = _
    rw [hr.set]
  · show direFrame (s'.tbl g j) = none
    rw [hr.below' hlt g hg j hj.head_lt, direFrame_zero]

theorem Rewrites.krl (h : Tables pml4 others s top) (hr : Rewrites s s' top p f i e) :
    ∀ j, 256 ≤ j → s'.tbl top j = pml4 j := by
  intro j hj
  rw [hr.same [] top trivial (Nat.zero_le 3) rfl j, h.krl j hj]
  rintro hf rfl
  -- the entry is one of the user half
  have hp : p = [] := by
    apply h.apart p [] f hr.user.tail trivial hr.len (Nat.zero_le 3) hr.table
    rw [← hf]
    rfl
  subst hp
  exact absurd (show j < 256 from hr.user) (by omega)

theorem Rewrites.entry (h : Tables pml4 others s top) (hr : Rewrites s s' top p f i e)
    (he : e ≠ 0 → direFrame e ≠ none) : ∀ q g j, UserPath (j :: q) → q.length ≤ 3 →
      s'.walk top q = some g → s'.tbl g j ≠ 0 → s'.nxt g j ≠ none := by
  intro q g j hq hlen hw hne
  show direFrame (s'.tbl g j) ≠ none
  have hshift := hr.shift h q hq.tail (by omega)
  by_cases hqp : q = i :: p
  · -- what the entry points to is an empty table
    subst hqp
    rw [Function.update_self, hw] at hshift
    rw [List.length_cons] at hlen
    exact absurd (hr.below' (by omega) g hshift.symm j hq.head_lt) hne
  · rw [Function.update_of_ne hqp] at hshift
    rw [hshift] at hw
    by_cases hf : g = f ∧ j = i
    · obtain ⟨rfl, rfl⟩ := hf
      rw [hr.set] at hne ⊢
      exact he hne
    · have hsame := hr.same q g hq.tail hlen hw j fun hg hj => hf ⟨hg, hj⟩
      rw [hsame] at hne ⊢
      exact h.entry q g j hq hlen hw hne

theorem setEntry_tbl (s : MmuSt) (f h : PageFrame) (i j e : Nat) :
    (s.setEntry f i e).tbl h j = if h = f ∧ j = i then e else s.tbl h j := by
  show Function.update s.tbl f _ h j = _
  by_cases hf : h = f
  · subst hf
    rw [Function.update_self]
    by_cases hj : j = i
    · subst hj
      rw [Function.update_self, if_pos ⟨rfl, rfl⟩]
    · rw [Function.update_of_ne hj, if_neg fun h => hj h.2]
  · rw [Function.update_of_ne hf, if_neg fun h => hf h.1]

/-- The other tables are as before. -/
theorem setEntry_of_ne {f h : PageFrame} (s : MmuSt) (i e : Nat) (hne : h ≠ f) :
    (s.setEntry f i e).tbl h = s.tbl h :=
  Function.update_of_ne hne _ _

@[simp] theorem setEntry_mmu (s : MmuSt) (f : PageFrame) (i e : Nat) :
    (s.setEntry f i e).mmu = s.mmu := rfl

@[simp] theorem setEntry_pgs (s : MmuSt) (f : PageFrame) (i e : Nat) :
    (s.setEntry f i e).pgs = s.pgs := rfl

/-! ### A table comes, a table goes, a page is mapped -/

/-- The state with a new table `g` of level `lv` in entry `i` of `parent`. -/
def MmuSt.link (s : MmuSt) (lv : DirLevel) (parent : PageFrame) (i : Nat) (g : PageFrame)
    (e : Nat) (pgs : Supply PageFrame) : MmuSt :=
  MmuSt.setEntry ⟨Function.update s.tbl g fun _ => 0, s.mmu.addMsa lv g, pgs⟩ parent i e

/-- The state without the table `g` of level `lv`. -/
def MmuSt.unlink (s : MmuSt) (lv : DirLevel) (parent : PageFrame) (i : Nat) (g : PageFrame)
    (pgs : Supply PageFrame) : MmuSt :=
  MmuSt.setEntry ⟨s.tbl, s.mmu.delMsa lv g, pgs⟩ parent i 0

variable {lv : DirLevel} {v : Nat} {parent g : PageFrame} {pgs : Supply PageFrame}

/-- The table of an address, from the one above. -/
theorem walk_path (hlv : lv ≠ .tdir) (hp : s.walk top (lv.up.path v) = some parent) :
    s.walk top (lv.path v) = s.nxt parent (lv.index v) := by
  rw [path_eq hlv]
  exact walk_cons hp _

/-- The tables of the level other than `lv` are those from before. -/
theorem Shift.table_iff {o : Option PageFrame} (h : Shift s s' top (lv.path v) o)
    {lv' : DirLevel} (hne : lv' ≠ lv) (f : PageFrame) :
    (∃ q, UserPath q ∧ q.length = lv'.depth ∧ s'.walk top q = some f) ↔
      ∃ q, UserPath q ∧ q.length = lv'.depth ∧ s.walk top q = some f := by
  have heq : ∀ q, UserPath q → q.length = lv'.depth → s'.walk top q = s.walk top q := by
    intro q hq hlen
    apply h.of_ne hq (by rw [hlen]; cases lv' <;> decide)
    intro he
    rw [he, path_length] at hlen
    exact hne (depth_inj hlen.symm)
  constructor
  · rintro ⟨q, hq, hlen, hw⟩
    exact ⟨q, hq, hlen, by rw [← heq q hq hlen]; exact hw⟩
  · rintro ⟨q, hq, hlen, hw⟩
    exact ⟨q, hq, hlen, by rw [heq q hq hlen]; exact hw⟩

theorem addMsa_mem (mmu : Mmudsc) (lv lv' : DirLevel) (g f : PageFrame) :
    f ∈ (mmu.addMsa lv g).mudHead lv' ↔ (lv' = lv ∧ f = g) ∨ f ∈ mmu.mudHead lv' := by
  show f ∈ Function.update mmu.mudHead lv _ lv' ↔ _
  by_cases hl : lv' = lv
  · subst hl
    rw [Function.update_self, List.mem_cons]
    simp
  · rw [Function.update_of_ne hl]
    simp [hl]

theorem delMsa_mem {mmu : Mmudsc} (hnd : ∀ lv, (mmu.mudHead lv).Nodup) (lv lv' : DirLevel)
    (g f : PageFrame) :
    f ∈ (mmu.delMsa lv g).mudHead lv' ↔ ¬ (lv' = lv ∧ f = g) ∧ f ∈ mmu.mudHead lv' := by
  show f ∈ Function.update mmu.mudHead lv _ lv' ↔ _
  by_cases hl : lv' = lv
  · subst hl
    rw [Function.update_self, (hnd lv').mem_erase_iff]
    simp
  · rw [Function.update_of_ne hl]
    simp [hl]

theorem depth_le (lv : DirLevel) : lv.depth ≤ 3 := by
  cases lv <;> decide

/-- **A new table** in an entry that was free. -/
theorem Tables.link (h : Tables pml4 others s top) (hlv : lv ≠ .tdir) (hu : UserAdr v)
    (hp : s.walk top (lv.up.path v) = some parent) (hfree : s.walk top (lv.path v) = none)
    (hg : g ∉ s.pgs.out) {flags : Nat} (hfl : FlagBits flags) (hpgs : pgs.out = g :: s.pgs.out) :
    Tables pml4 others (s.link lv parent (lv.index v) g (direEntry (frameAddr g) flags) pgs) top ∧
    Shift s (s.link lv parent (lv.index v) g (direEntry (frameAddr g) flags) pgs) top
      (lv.path v) (some g) := by
  have hup := path_user hu lv.up
  have hlen : (lv.up.path v).length ≤ 3 := by
    rw [path_length]
    exact depth_le _
  have hpar : parent ∈ s.pgs.out := h.mem_out hup hlen hp
  have hpg : parent ≠ g := fun he => hg (he ▸ hpar)
  have hentry : direFrame (direEntry (frameAddr g) flags) = some g := direFrame_direEntry g hfl
  have hr : Rewrites s (s.link lv parent (lv.index v) g (direEntry (frameAddr g) flags) pgs) top
      (lv.up.path v) parent (lv.index v) (direEntry (frameAddr g) flags) := {
    user := by
      rw [← path_eq hlv]
      exact path_user hu lv
    len := hlen
    table := hp
    same := fun q f hq hql hw j hj => by
      have hfg : f ≠ g := fun he => hg (he ▸ h.mem_out hq hql hw)
      unfold MmuSt.link
      rw [setEntry_tbl, if_neg fun he => hj he.1 he.2]
      show Function.update s.tbl g _ f j = _
      rw [Function.update_of_ne hfg]
    set := by
      unfold MmuSt.link
      rw [setEntry_tbl, if_pos ⟨rfl, rfl⟩]
    below := fun _ f hf => by
      rw [walk_path hlv hp] at hfree
      rw [hfree] at hf
      cases hf
    below' := fun _ f hf j _ => by
      rw [hentry] at hf
      cases hf
      unfold MmuSt.link
      rw [setEntry_tbl, if_neg fun he => hpg he.1.symm]
      show Function.update s.tbl g _ g j = 0
      rw [Function.update_self] }
  have hshift : Shift s (s.link lv parent (lv.index v) g (direEntry (frameAddr g) flags) pgs) top
      (lv.path v) (some g) := by
    rw [path_eq hlv, ← hentry]
    exact hr.shift h
  refine ⟨{
    tdirearr := h.tdirearr
    apart := ?_
    entry := hr.entry h fun _ => by rw [hentry]; simp
    head := fun lv' f => ?_
    nodup := fun lv' => ?_
    msanr := fun lv' => ?_
    out := fun f => ?_
    sep := fun f hf lv' hm => ?_
    krl := hr.krl h }, hshift⟩
  · refine h.apart.link (i := lv.index v) (p := lv.up.path v) (g := g) (fun q hq hql => ?_)
      fun q hq hql hw => hg (h.mem_out hq hql hw)
    rw [← path_eq hlv]
    exact hshift q hq hql
  · show f ∈ (s.mmu.addMsa lv g).mudHead lv' ↔ _
    rw [addMsa_mem]
    by_cases hl : lv' = lv
    · subst hl
      rw [h.head]
      constructor
      · rintro (⟨_, rfl⟩ | ⟨q, hq, hql, hw⟩)
        · exact ⟨lv'.path v, path_user hu lv', path_length lv' v,
            hshift.at (path_user hu lv') (by rw [path_length]; cases lv' <;> decide)⟩
        · refine ⟨q, hq, hql, ?_⟩
          rw [hshift.of_ne hq (by rw [hql]; cases lv' <;> decide)]
          · exact hw
          · rintro rfl
            rw [hfree] at hw
            cases hw
      · rintro ⟨q, hq, hql, hw⟩
        rw [hshift q hq (by rw [hql]; cases lv' <;> decide)] at hw
        by_cases hqv : q = lv'.path v
        · subst hqv
          rw [Function.update_self] at hw
          exact Or.inl ⟨rfl, (Option.some.inj hw).symm⟩
        · rw [Function.update_of_ne hqv] at hw
          exact Or.inr ⟨q, hq, hql, hw⟩
    · rw [h.head, hshift.table_iff hl]
      exact or_iff_right fun he => hl he.1
  · show (Function.update s.mmu.mudHead lv _ lv').Nodup
    by_cases hl : lv' = lv
    · subst hl
      rw [Function.update_self]
      exact List.nodup_cons.mpr
        ⟨fun hm => hg ((h.out g).mpr (Or.inr ⟨lv', hm⟩)), h.nodup lv'⟩
    · rw [Function.update_of_ne hl]
      exact h.nodup lv'
  · show Function.update s.mmu.mudMsanr lv _ lv' = (Function.update s.mmu.mudHead lv _ lv').length
    by_cases hl : lv' = lv
    · subst hl
      rw [Function.update_self, Function.update_self, List.length_cons, h.msanr]
    · rw [Function.update_of_ne hl, Function.update_of_ne hl, h.msanr]
  · show f ∈ pgs.out ↔ f ∈ others ∨ ∃ lv', f ∈ (s.mmu.addMsa lv g).mudHead lv'
    rw [hpgs, List.mem_cons, h.out]
    constructor
    · rintro (rfl | hf | ⟨lv', hf⟩)
      · exact Or.inr ⟨lv, (addMsa_mem _ _ _ _ _).mpr (Or.inl ⟨rfl, rfl⟩)⟩
      · exact Or.inl hf
      · exact Or.inr ⟨lv', (addMsa_mem _ _ _ _ _).mpr (Or.inr hf)⟩
    · rintro (hf | ⟨lv', hf⟩)
      · exact Or.inr (Or.inl hf)
      · rcases (addMsa_mem _ _ _ _ _).mp hf with ⟨_, rfl⟩ | hf
        · exact Or.inl rfl
        · exact Or.inr (Or.inr ⟨lv', hf⟩)
  · rcases (addMsa_mem s.mmu lv lv' g f).mp hm with ⟨_, rfl⟩ | hm
    · exact hg ((h.out f).mpr (Or.inl hf))
    · exact h.sep f hf lv' hm

/-- The frames of others are as before. -/
theorem Tables.link_kept (h : Tables pml4 others s top) (hp : parent ∉ others)
    (hg : g ∉ s.pgs.out) {i e : Nat} :
    ∀ f ∈ others, (s.link lv parent i g e pgs).tbl f = s.tbl f := by
  intro f hf
  have hfp : f ≠ parent := fun he => hp (he ▸ hf)
  have hfg : f ≠ g := fun he => hg (he ▸ (h.out f).mpr (Or.inl hf))
  exact (setEntry_of_ne _ i e hfp).trans (Function.update_of_ne hfg _ _)

/-- **An empty table goes.** -/
theorem Tables.unlink (h : Tables pml4 others s top) (hlv : lv ≠ .tdir) (hu : UserAdr v)
    (hp : s.walk top (lv.up.path v) = some parent) (hg : s.walk top (lv.path v) = some g)
    (hzero : ∀ i, i < 512 → s.tbl g i = 0) (hpgs : pgs.out = s.pgs.out.erase g) :
    Tables pml4 others (s.unlink lv parent (lv.index v) g pgs) top ∧
    Shift s (s.unlink lv parent (lv.index v) g pgs) top (lv.path v) none := by
  have hup := path_user hu lv.up
  have hlen : (lv.up.path v).length ≤ 3 := by
    rw [path_length]
    exact depth_le _
  have hr : Rewrites s (s.unlink lv parent (lv.index v) g pgs) top
      (lv.up.path v) parent (lv.index v) 0 := {
    user := by
      rw [← path_eq hlv]
      exact path_user hu lv
    len := hlen
    table := hp
    same := fun q f hq hql hw j hj => by
      unfold MmuSt.unlink
      rw [setEntry_tbl, if_neg fun he => hj he.1 he.2]
    set := by
      unfold MmuSt.unlink
      rw [setEntry_tbl, if_pos ⟨rfl, rfl⟩]
    below := fun _ f hf j hj => by
      rw [walk_path hlv hp] at hg
      rw [hg] at hf
      cases hf
      show direFrame (s.tbl g j) = none
      rw [hzero j hj, direFrame_zero]
    below' := fun _ f hf => by
      rw [direFrame_zero] at hf
      cases hf }
  have hshift : Shift s (s.unlink lv parent (lv.index v) g pgs) top (lv.path v) none := by
    rw [path_eq hlv, ← direFrame_zero]
    exact hr.shift h
  have hgmem : g ∈ s.mmu.mudHead lv :=
    (h.head lv g).mpr ⟨lv.path v, path_user hu lv, path_length lv v, hg⟩
  have hglen : (lv.path v).length ≤ 3 := by
    rw [path_length]
    exact depth_le _
  -- the table is at no other path
  have honly : ∀ q, UserPath q → q.length ≤ 3 → s.walk top q = some g → q = lv.path v :=
    fun q hq hql hw => h.apart q _ g hq (path_user hu lv) hql hglen hw hg
  refine ⟨{
    tdirearr := h.tdirearr
    apart := ?_
    entry := hr.entry h fun he => absurd rfl he
    head := fun lv' f => ?_
    nodup := fun lv' => ?_
    msanr := fun lv' => ?_
    out := fun f => ?_
    sep := fun f hf lv' hm => h.sep f hf lv' ((delMsa_mem h.nodup _ _ _ _).mp hm).2
    krl := hr.krl h }, hshift⟩
  · refine h.apart.cut (i := lv.index v) (p := lv.up.path v) (o := none) (fun q hq hql => ?_)
      fun _ => rfl
    rw [← path_eq hlv]
    exact hshift q hq hql
  · show f ∈ (s.mmu.delMsa lv g).mudHead lv' ↔ _
    rw [delMsa_mem h.nodup]
    by_cases hl : lv' = lv
    · subst hl
      rw [h.head]
      constructor
      · rintro ⟨hne, q, hq, hql, hw⟩
        refine ⟨q, hq, hql, ?_⟩
        rw [hshift.of_ne hq (by rw [hql]; cases lv' <;> decide)]
        · exact hw
        · rintro rfl
          rw [hg] at hw
          exact hne ⟨rfl, (Option.some.inj hw).symm⟩
      · rintro ⟨q, hq, hql, hw⟩
        rw [hshift q hq (by rw [hql]; cases lv' <;> decide)] at hw
        by_cases hqv : q = lv'.path v
        · subst hqv
          rw [Function.update_self] at hw
          cases hw
        · rw [Function.update_of_ne hqv] at hw
          refine ⟨?_, q, hq, hql, hw⟩
          rintro ⟨_, rfl⟩
          exact hqv (honly q hq (by rw [hql]; exact depth_le lv') hw)
    · rw [h.head, hshift.table_iff hl]
      exact and_iff_right fun he => hl he.1
  · show (Function.update s.mmu.mudHead lv _ lv').Nodup
    by_cases hl : lv' = lv
    · subst hl
      rw [Function.update_self]
      exact (h.nodup lv').erase g
    · rw [Function.update_of_ne hl]
      exact h.nodup lv'
  · show Function.update s.mmu.mudMsanr lv _ lv' = (Function.update s.mmu.mudHead lv _ lv').length
    by_cases hl : lv' = lv
    · subst hl
      rw [Function.update_self, Function.update_self, List.length_erase_of_mem hgmem, h.msanr]
    · rw [Function.update_of_ne hl, Function.update_of_ne hl, h.msanr]
  · show f ∈ pgs.out ↔ f ∈ others ∨ ∃ lv', f ∈ (s.mmu.delMsa lv g).mudHead lv'
    rw [hpgs, s.pgs.nodup.mem_erase_iff, h.out]
    constructor
    · rintro ⟨hne, hf | ⟨lv', hf⟩⟩
      · exact Or.inl hf
      · exact Or.inr ⟨lv', (delMsa_mem h.nodup _ _ _ _).mpr ⟨fun he => hne he.2, hf⟩⟩
    · rintro (hf | ⟨lv', hf⟩)
      · refine ⟨?_, Or.inl hf⟩
        rintro rfl
        exact h.sep f hf lv hgmem
      · obtain ⟨hne, hmem⟩ := (delMsa_mem h.nodup _ _ _ _).mp hf
        refine ⟨?_, Or.inr ⟨lv', hmem⟩⟩
        rintro rfl
        obtain ⟨q, hq, hql, hw⟩ := (h.head lv' f).mp hmem
        have hqv := honly q hq (by rw [hql]; exact depth_le lv') hw
        rw [hqv, path_length] at hql
        exact hne ⟨depth_inj hql.symm, rfl⟩

/-- **The entry of a page is written.** -/
theorem Tables.setPage (h : Tables pml4 others s top) (hu : UserAdr v) {mdir : PageFrame}
    (hp : s.walk top (DirLevel.mdir.path v) = some mdir) {e : Nat}
    (he : e ≠ 0 → direFrame e ≠ none) :
    Tables pml4 others (s.setEntry mdir (mmuMdireIndex v) e) top ∧
    Shift s (s.setEntry mdir (mmuMdireIndex v) e) top (vpath v) (direFrame e) := by
  have hr : Rewrites s (s.setEntry mdir (mmuMdireIndex v) e) top (DirLevel.mdir.path v) mdir
      (mmuMdireIndex v) e := {
    user := vpath_user hu
    len := Nat.le_refl 3
    table := hp
    same := fun q f hq hql hw j hj => by rw [setEntry_tbl, if_neg fun he => hj he.1 he.2]
    set := by rw [setEntry_tbl, if_pos ⟨rfl, rfl⟩]
    below := fun hlt => absurd hlt (Nat.lt_irrefl 3)
    below' := fun hlt => absurd hlt (Nat.lt_irrefl 3) }
  have hshift := hr.shift h
  refine ⟨{
    tdirearr := h.tdirearr
    apart := h.apart.cut hshift fun hlt => absurd hlt (Nat.lt_irrefl 3)
    entry := hr.entry h he
    head := fun lv' f => ?_
    nodup := h.nodup
    msanr := h.msanr
    out := h.out
    sep := h.sep
    krl := hr.krl h }, hshift⟩
  rw [setEntry_mmu, h.head]
  have heq : ∀ q, UserPath q → q.length = lv'.depth →
      (s.setEntry mdir (mmuMdireIndex v) e).walk top q = s.walk top q := by
    intro q hq hql
    apply hshift.of_ne hq (by rw [hql]; cases lv' <;> decide)
    intro hqv
    rw [hqv] at hql
    cases lv' <;> cases hql
  constructor
  · rintro ⟨q, hq, hql, hw⟩
    exact ⟨q, hq, hql, by rw [heq q hq hql]; exact hw⟩
  · rintro ⟨q, hq, hql, hw⟩
    exact ⟨q, hq, hql, by rw [← heq q hq hql]; exact hw⟩

end Inv

end Cosmos.Hal
