import Cosmos.Hal.HalplatformMove
import Cosmos.Hal.Halmmu
import Cosmos.Lib.StM

/-!
# The page tables of the kernel

`copy_pages_data` of `memmgrinit.c`, on physical memory.  The loader's tables map the first 16 GiB
twice, at their own addresses and in the kernel's half, where the kernel runs.  Through that
second mapping it writes tables of its own, which have it alone, and goes over to them.  Each
store of the kernel is translated by the tables that are in force: `pageWalk` is what the CPU
does with an address.

## Main results

* `PageTables.walk` : what tables of this shape map.
* `kernel_window` : which addresses the kernel can use, before and after.
-/

namespace Cosmos.Hal

open Cosmos.Lib.Bytes Cosmos.Lib.StM Cosmos.Lib.Word64 Cosmos.Initldr

/-! ## The CPU -/

/-- What an entry points to, which is `size` bytes long. -/
def entryAdr (e size : Nat) : Nat := e % 0x10000000000000 / size * size

/-- The entry is present. -/
def entryP (e : Nat) : Bool := e % 2 = 1

/-- The entry is that of a large page. -/
def entryPs (e : Nat) : Bool := e / 0x80 % 2 = 1

/-- The translation of the address `va`, with four levels of tables from `cr3` on.  `none` is a
fault. -/
def pageWalk (f : Nat → UInt8) (cr3 va : Nat) : Option Nat :=
  if 0x800000000000 ≤ va ∧ va < 0xffff800000000000 then none
  else
    let pml4e := rd64 f (entryAdr cr3 0x1000 + 8 * (va / 0x8000000000 % 512))
    if !entryP pml4e then none
    else
      let pdpte := rd64 f (entryAdr pml4e 0x1000 + 8 * (va / 0x40000000 % 512))
      if !entryP pdpte then none
      else if entryPs pdpte then some (entryAdr pdpte 0x40000000 + va % 0x40000000)
      else
        let pde := rd64 f (entryAdr pdpte 0x1000 + 8 * (va / 0x200000 % 512))
        if !entryP pde then none
        else if entryPs pde then some (entryAdr pde 0x200000 + va % 0x200000)
        else
          let pte := rd64 f (entryAdr pde 0x1000 + 8 * (va / 0x1000 % 512))
          if !entryP pte then none else some (entryAdr pte 0x1000 + va % 0x1000)

/-! ## The code -/

/-- Physical memory, or that the kernel has died. -/
abbrev PmemM := StateT (Nat → UInt8) (Except String)

/-- A word is stored at the address `va`, which is a multiple of 8. -/
def vstore (cr3 va w : Nat) : PmemM Unit := do
  let f ← get
  match pageWalk f cr3 va with
  | none => throw "page fault"
  | some pa => set (put f pa (le64 w))

/-- `viradr_to_phyadr`. -/
def viradrToPhyadr (kviradr : Nat) : Except String Nat :=
  if kviradr < krnlMapVirtaddressStart ∨ krnlMapVirtaddressStart + krnlMapPhyaddressEnd < kviradr
  then .error "viradr_to_phyadr err\n"
  else .ok (kviradr - krnlMapVirtaddressStart)

/-- `PGENTY_SIZE`. -/
abbrev pgentySize : Nat := 512

/-- The loop of `copy_pages_data` that clears the upper tables. -/
def clearLoop (cr3 p pdpte : Nat) : Nat → Nat → PmemM Unit
  | 0, _ => pure ()
  | n + 1, mi => do
      vstore cr3 (p + 8 * mi) 0
      vstore cr3 (pdpte + 8 * mi) 0
      clearLoop cr3 p pdpte n (mi + 1)

/-- The inner loop: `KPDE_PS`, `KPDE_RW` and `KPDE_P`. -/
def pdeLoop (cr3 pde : Nat) : Nat → Nat → Nat → PmemM Nat
  | 0, _, adr => pure adr
  | n + 1, pdeii, adr => do
      vstore cr3 (pde + 8 * pdeii) (0 ||| adr ||| 0x80 ||| 2 ||| 1)
      pdeLoop cr3 pde n (pdeii + 1) (adr + 0x200000)

/-- The outer loop: `KPDPTE_RW` and `KPDPTE_P`. -/
def pdpteLoop (cr3 pdpte : Nat) : Nat → Nat → Nat → Nat → PmemM Unit
  | 0, _, _, _ => pure ()
  | n + 1, pdei, pde, adr => do
      let pdepd ← viradrToPhyadr pde
      vstore cr3 (pdpte + 8 * pdei) (pdepd ||| 2 ||| 1)
      let adr ← pdeLoop cr3 pde pgentySize 0 adr
      pdpteLoop cr3 pdpte n (pdei + 1) (pde + 0x1000) adr

/-- `copy_pages_data`. -/
def copyPagesTables (cr3 : Nat) (mbsp : Machbstart) : PmemM (Bool × Machbstart) := do
  let topgadr := mbsp.mbNextwtpadr
  if initchkadrIsOk mbsp topgadr mbsp.mbSubpageslen ≠ 0 then return (false, mbsp)
  let p ← phyadrToViradr topgadr
  let pdpte := p + 0x1000
  let pde := p + 0x2000
  clearLoop cr3 p pdpte pgentySize 0
  pdpteLoop cr3 pdpte 16 0 pde 0
  let pdptepd ← viradrToPhyadr pdpte
  vstore cr3 (p + 8 * (krnlMapVirtaddressStart >>> 39 &&& 0x1ff)) (pdptepd ||| 2 ||| 1)
  return (true, { mbsp with
    mbPml4padr := topgadr
    mbSubpageslen := 0x1000 * 16 + 0x2000
    mbKpmapphymemsz := 0x400000000
    mbNextwtpadr := add64 (topgadr + (0x1000 * 16 + 0x2000)) 0xfff / 0x1000 * 0x1000 })

/-! ## Tables of this shape -/

/-- The tables from `base` on map the first 16 GiB at `KRNL_MAP_VIRTADDRESS_START`, and with `low`
at their own addresses as well. -/
structure PageTables (f : Nat → UInt8) (base : Nat) (low : Bool) : Prop where
  pml4 : ∀ i < 512, rd64 f (base + 8 * i) =
    if i = 256 ∨ low ∧ i = 0 then base + 0x1000 + 3 else 0
  pdpt : ∀ i < 512, rd64 f (base + 0x1000 + 8 * i) =
    if i < 16 then base + 0x2000 + 0x1000 * i + 3 else 0
  pde : ∀ i < 16 * 512, rd64 f (base + 0x2000 + 8 * i) = 0x200000 * i + 0x83

variable {f g : Nat → UInt8} {base va a w i : Nat} {low : Bool}

theorem PageTables.congr (h : PageTables f base low)
    (hfg : ∀ o, base ≤ o → o < base + 0x12000 → g o = f o) : PageTables g base low where
  pml4 i hi := (rd64_congr fun k hk => hfg _ (by omega) (by omega)).trans (h.pml4 i hi)
  pdpt i hi := (rd64_congr fun k hk => hfg _ (by omega) (by omega)).trans (h.pdpt i hi)
  pde i hi := (rd64_congr fun k hk => hfg _ (by omega) (by omega)).trans (h.pde i hi)

/-- The first two levels lead to one table of large pages. -/
theorem PageTables.walk_low (h : PageTables f base low) (hbase : base % 0x1000 = 0)
    (hlt : base + 0x12000 ≤ 0x10000000000000)
    (hva : ¬ (0x800000000000 ≤ va ∧ va < 0xffff800000000000))
    (hi : va / 0x8000000000 % 512 = 256 ∨ low ∧ va / 0x8000000000 % 512 = 0) :
    pageWalk f base va =
      if va / 0x40000000 % 512 < 16 then some (va % 0x8000000000) else none := by
  have hcr3 : entryAdr base 0x1000 = base := by unfold entryAdr; omega
  have hpml4 := h.pml4 (va / 0x8000000000 % 512) (by omega)
  rw [if_pos hi] at hpml4
  have hpml4P : entryP (base + 0x1000 + 3) = true := decide_eq_true (by omega)
  have hpml4Adr : entryAdr (base + 0x1000 + 3) 0x1000 = base + 0x1000 := by unfold entryAdr; omega
  have hpdpt := h.pdpt (va / 0x40000000 % 512) (by omega)
  unfold pageWalk
  rw [if_neg hva, hcr3]
  simp only [hpml4, hpml4P, hpml4Adr, Bool.not_true, Bool.false_eq_true, if_false]
  by_cases hi3 : va / 0x40000000 % 512 < 16
  · rw [if_pos hi3] at hpdpt ⊢
    generalize hi3' : va / 0x40000000 % 512 = i3 at hi3 hpdpt ⊢
    have hpdptP : entryP (base + 0x2000 + 0x1000 * i3 + 3) = true := decide_eq_true (by omega)
    have hpdptPs : entryPs (base + 0x2000 + 0x1000 * i3 + 3) = false :=
      decide_eq_false (by omega)
    have hpdptAdr : entryAdr (base + 0x2000 + 0x1000 * i3 + 3) 0x1000 =
        base + 0x2000 + 0x1000 * i3 := by unfold entryAdr; omega
    have hpde := h.pde (512 * i3 + va / 0x200000 % 512) (by omega)
    have hadr : base + 0x2000 + 8 * (512 * i3 + va / 0x200000 % 512) =
        base + 0x2000 + 0x1000 * i3 + 8 * (va / 0x200000 % 512) := by omega
    rw [hadr] at hpde
    have hpdeP : entryP (0x200000 * (512 * i3 + va / 0x200000 % 512) + 0x83) = true :=
      decide_eq_true (by omega)
    have hpdePs : entryPs (0x200000 * (512 * i3 + va / 0x200000 % 512) + 0x83) = true :=
      decide_eq_true (by omega)
    have hpdeAdr : entryAdr (0x200000 * (512 * i3 + va / 0x200000 % 512) + 0x83) 0x200000 =
        0x200000 * (512 * i3 + va / 0x200000 % 512) := by unfold entryAdr; omega
    simp only [hpdpt, hpdptP, hpdptPs, hpdptAdr, hpde, hpdeP, hpdePs, hpdeAdr, Bool.not_true,
      Bool.false_eq_true, if_false, if_true, Option.some.injEq]
    omega
  · rw [if_neg hi3] at hpdpt ⊢
    simp only [hpdpt, entryP, Nat.zero_mod, Nat.zero_ne_one, decide_false, Bool.not_false, if_true]

/-- **What the tables map.** -/
theorem PageTables.walk (h : PageTables f base low) (hbase : base % 0x1000 = 0)
    (hlt : base + 0x12000 ≤ 0x10000000000000) (hva : va < 2 ^ 64) :
    pageWalk f base va =
      if krnlMapVirtaddressStart ≤ va ∧ va < krnlMapVirtaddressStart + krnlMapPhyaddressEnd then
        some (va - krnlMapVirtaddressStart)
      else if low ∧ va < krnlMapPhyaddressEnd then some va
      else none := by
  have hstart : krnlMapVirtaddressStart = 0xffff800000000000 := rfl
  have hend : krnlMapPhyaddressEnd = 0x400000000 := rfl
  rw [hstart, hend]
  by_cases hcan : 0x800000000000 ≤ va ∧ va < 0xffff800000000000
  · rw [pageWalk, if_pos hcan, if_neg (by omega), if_neg (by omega)]
  by_cases hi : va / 0x8000000000 % 512 = 256 ∨ low ∧ va / 0x8000000000 % 512 = 0
  · rw [h.walk_low hbase hlt hcan hi]
    by_cases hup : 0xffff800000000000 ≤ va
    · -- the kernel's half
      have hi' : va / 0x8000000000 % 512 = 256 := by omega
      by_cases h3 : va / 0x40000000 % 512 < 16
      · rw [if_pos h3, if_pos (by omega), Option.some.injEq]
        omega
      · rw [if_neg h3, if_neg (by omega), if_neg (by omega)]
    · have hlow : low = true ∧ va / 0x8000000000 % 512 = 0 := by
        rcases hi with hi | hi
        · omega
        · exact hi
      by_cases h3 : va / 0x40000000 % 512 < 16
      · rw [if_pos h3, if_neg (by omega), if_pos ⟨hlow.1, by omega⟩, Option.some.injEq]
        omega
      · rw [if_neg h3, if_neg (by omega), if_neg (by omega)]
  · have hpml4 := h.pml4 (va / 0x8000000000 % 512) (by omega)
    rw [if_neg hi] at hpml4
    have hcr3 : entryAdr base 0x1000 = base := by unfold entryAdr; omega
    rw [pageWalk, if_neg hcan, hcr3]
    simp only [hpml4, entryP, Nat.zero_mod, Nat.zero_ne_one, decide_false, Bool.not_false, if_true]
    rw [if_neg fun hin => hi (.inl (by omega)), if_neg fun hin => hi (.inr ⟨hin.1, by omega⟩)]

/-! ## The loops -/

/-- Memory while the tables at `top` are written: their words are `W`. -/
structure Region (top : Nat) (f₀ f : Nat → UInt8) (W : Nat → Nat) : Prop where
  out : ∀ o, o < top ∨ top + 0x12000 ≤ o → f o = f₀ o
  words : ∀ j < 9216, rd64 f (top + 8 * j) = W j

/-- The tables in force are those at `cr3`, below `top`, and all of the kernel's window is
there. -/
structure Window (cr3 top : Nat) (f₀ : Nat → UInt8) : Prop where
  tables : PageTables f₀ cr3 true
  page : cr3 % 0x1000 = 0
  below : cr3 + 0x12000 ≤ top
  room : top + 0x12000 ≤ krnlMapPhyaddressEnd

variable {cr3 top : Nat} {f₀ : Nat → UInt8} {W : Nat → Nat} {j k n pb adr : Nat}

/-- One store. -/
theorem Region.vstore (hr : Region top f₀ f W) (hw : Window cr3 top f₀) (hj : j < 9216)
    (hlt : w < 2 ^ 64) (hva : va = krnlMapVirtaddressStart + top + 8 * j) :
    ∃ g, (vstore cr3 va w).run f = .ok ((), g) ∧ Region top f₀ g (Function.update W j w) := by
  have hstart : krnlMapVirtaddressStart = 0xffff800000000000 := rfl
  have hend : krnlMapPhyaddressEnd = 0x400000000 := rfl
  have hbelow := hw.below
  have hroom := hw.room
  have htables : PageTables f cr3 true := hw.tables.congr fun o _ ho => hr.out o (by omega)
  have hwalk : pageWalk f cr3 va = some (top + 8 * j) := by
    rw [htables.walk hw.page (by omega) (by omega), if_pos (by omega), Option.some.injEq]
    omega
  refine ⟨put f (top + 8 * j) (le64 w), ?_, fun o ho => ?_, fun i hi => ?_⟩
  · have hget : (get : PmemM (Nat → UInt8)).run f = .ok (f, f) := rfl
    refine (run_bind_ok hget).trans ?_
    rw [hwalk]
    rfl
  · rw [put_out (by rw [le64_length]; omega), hr.out o ho]
  · by_cases hij : i = j
    · rw [hij, Function.update_self, rd64_put hlt]
    · rw [Function.update_of_ne hij, rd64_put_out (by rw [le64_length]; omega), hr.words i hi]

/-- A word of the tables is read back. -/
theorem Region.congr {V : Nat → Nat} (hr : Region top f₀ f W) (h : ∀ i < 9216, W i = V i) :
    Region top f₀ f V := ⟨hr.out, fun i hi => (hr.words i hi).trans (h i hi)⟩

/-- The upper tables are cleared. -/
theorem Region.clearLoop (hr : Region top f₀ f W) (hw : Window cr3 top f₀) (hn : k + n ≤ 512) :
    ∃ g, (clearLoop cr3 (top + krnlMapVirtaddressStart) (top + krnlMapVirtaddressStart + 0x1000)
        n k).run f = .ok ((), g) ∧
      Region top f₀ g fun i =>
        if k ≤ i ∧ i < k + n ∨ 512 + k ≤ i ∧ i < 512 + k + n then 0 else W i := by
  induction n generalizing f W k with
  | zero => exact ⟨f, rfl, hr.congr fun i hi => by rw [if_neg (by omega)]⟩
  | succ n ih =>
      obtain ⟨f₁, hrun₁, hr₁⟩ := hr.vstore hw (j := k) (w := 0) (by omega) (by omega)
        (show top + krnlMapVirtaddressStart + 8 * k = _ by omega)
      obtain ⟨f₂, hrun₂, hr₂⟩ := hr₁.vstore hw (j := 512 + k) (w := 0) (by omega) (by omega)
        (show top + krnlMapVirtaddressStart + 0x1000 + 8 * k = _ by omega)
      obtain ⟨g, hrun, hg⟩ := ih (k := k + 1) hr₂ (by omega)
      refine ⟨g, (run_bind_ok hrun₁).trans ((run_bind_ok hrun₂).trans hrun), ?_⟩
      refine hg.congr fun i hi => ?_
      simp only [Function.update_apply]
      by_cases hin : k ≤ i ∧ i < k + (n + 1) ∨ 512 + k ≤ i ∧ i < 512 + k + (n + 1)
      · rw [if_pos hin]
        split
        · rfl
        · split
          · rfl
          · rw [if_pos (by omega)]
      · rw [if_neg hin, if_neg (by omega), if_neg (by omega), if_neg (by omega)]

theorem viradrToPhyadr_eq (ha : a ≤ krnlMapPhyaddressEnd) :
    viradrToPhyadr (a + krnlMapVirtaddressStart) = .ok a := by
  unfold viradrToPhyadr
  rw [if_neg (by omega), Nat.add_sub_cancel]

/-- The flags of an entry that points to a table. -/
theorem or_flags (ha : a % 0x1000 = 0) : a ||| 2 ||| 1 = a + 3 := by
  have h := Nat.two_pow_add_eq_or_of_lt (i := 12) (b := 3) (by decide) (a / 0x1000)
  rw [show 2 ^ 12 * (a / 0x1000) = a by omega] at h
  rw [Nat.or_assoc]
  exact h.symm

/-- The flags of an entry of a large page. -/
theorem large_flags (m : Nat) : 0x200000 * m ||| 0x80 ||| 2 ||| 1 = 0x200000 * m + 0x83 := by
  have h := Nat.two_pow_add_eq_or_of_lt (i := 21) (b := 0x83) (by decide) m
  rw [Nat.or_assoc, Nat.or_assoc]
  exact h.symm

/-- One table of large pages is filled in, the one whose words begin at `pb`. -/
theorem Region.pdeLoop (hr : Region top f₀ f W) (hw : Window cr3 top f₀)
    (hn : k + n ≤ 512) (hpb : pb + 512 ≤ 9216) {m : Nat} (hm : m + n ≤ 16 * 512) :
    ∃ g, (pdeLoop cr3 (top + krnlMapVirtaddressStart + 8 * pb) n k (0x200000 * m)).run f =
        .ok (0x200000 * (m + n), g) ∧
      Region top f₀ g fun i =>
        if pb + k ≤ i ∧ i < pb + k + n then 0x200000 * (m + (i - (pb + k))) + 0x83 else W i := by
  induction n generalizing f W k m with
  | zero => exact ⟨f, rfl, hr.congr fun i hi => by rw [if_neg (by omega)]⟩
  | succ n ih =>
      have hor : 0 ||| 0x200000 * m ||| 0x80 ||| 2 ||| 1 = 0x200000 * m + 0x83 := by
        rw [Nat.zero_or, large_flags]
      obtain ⟨f₁, hrun₁, hr₁⟩ := hr.vstore hw (j := pb + k)
        (w := 0 ||| 0x200000 * m ||| 0x80 ||| 2 ||| 1) (by omega) (by omega)
        (show top + krnlMapVirtaddressStart + 8 * pb + 8 * k = _ by omega)
      obtain ⟨g, hrun, hg⟩ := ih (k := k + 1) (m := m + 1) hr₁ (by omega) (by omega)
      refine ⟨g, ?_, hg.congr fun i hi => ?_⟩
      · refine (run_bind_ok hrun₁).trans ?_
        rw [show 0x200000 * m + 0x200000 = 0x200000 * (m + 1) by omega, hrun,
          show m + 1 + n = m + (n + 1) by omega]
      · simp only [Function.update_apply, hor]
        by_cases hin : pb + k ≤ i ∧ i < pb + k + (n + 1)
        · rw [if_pos hin]
          split
          · omega
          · rw [if_pos (by omega)]
            omega
        · rw [if_neg hin, if_neg (by omega), if_neg (by omega)]

/-- One turn of the outer loop, and the turns after it. -/
theorem pdpte_words (x y z : Nat → Nat) :
    (if 512 + (k + 1) ≤ i ∧ i < 512 + (k + 1) + n then x (i - 512)
      else if 1024 + 512 * (k + 1) ≤ i ∧ i < 1024 + 512 * (k + 1 + n) then y (i - 1024)
      else if 1024 + 512 * k ≤ i ∧ i < 1024 + 512 * k + 512 then
        y (512 * k + (i - (1024 + 512 * k)))
      else if i = 512 + k then x k else z i) =
    if 512 + k ≤ i ∧ i < 512 + k + (n + 1) then x (i - 512)
    else if 1024 + 512 * k ≤ i ∧ i < 1024 + 512 * (k + (n + 1)) then y (i - 1024)
    else z i := by
  have hsucc : 1024 + 512 * (k + 1) = 1024 + 512 * k + 512 := by
    rw [Nat.mul_add_one, Nat.add_assoc]
  have hall : 1024 + 512 * (k + (n + 1)) = 1024 + 512 * k + 512 * n + 512 := by
    rw [← Nat.add_assoc k, Nat.mul_add_one, Nat.mul_add, ← Nat.add_assoc, ← Nat.add_assoc]
  have hall' : 1024 + 512 * (k + 1 + n) = 1024 + 512 * k + 512 * n + 512 := by
    rw [Nat.add_right_comm k, Nat.add_assoc k, hall]
  rw [hsucc, hall, hall']
  by_cases hin : 512 + k ≤ i ∧ i < 512 + k + (n + 1)
  · rw [if_pos hin]
    by_cases hik : i = 512 + k
    · rw [if_neg (by omega), if_neg (by omega), if_neg (by omega), if_pos hik, hik,
        Nat.add_sub_cancel_left]
    · rw [if_pos (by omega)]
  · rw [if_neg hin, if_neg (by omega)]
    by_cases hin' : 1024 + 512 * k ≤ i ∧ i < 1024 + 512 * k + 512 * n + 512
    · rw [if_pos hin']
      by_cases hlow : i < 1024 + 512 * k + 512
      · have hidx : 512 * k + (i - (1024 + 512 * k)) = i - 1024 := by omega
        rw [if_neg (by omega), if_pos (by omega)]
        exact congrArg y hidx
      · rw [if_pos (by omega)]
    · rw [if_neg hin', if_neg (by omega), if_neg (by omega), if_neg (by omega)]

/-- All tables of large pages are filled in. -/
theorem Region.pdpteLoop (hr : Region top f₀ f W) (hw : Window cr3 top f₀)
    (htop : top % 0x1000 = 0) (hn : k + n ≤ 16) :
    ∃ g, (pdpteLoop cr3 (top + krnlMapVirtaddressStart + 0x1000) n k
        (top + krnlMapVirtaddressStart + 0x2000 + 0x1000 * k) (0x200000 * (512 * k))).run f =
        .ok ((), g) ∧
      Region top f₀ g fun i =>
        if 512 + k ≤ i ∧ i < 512 + k + n then top + 0x2000 + 0x1000 * (i - 512) + 3
        else if 1024 + 512 * k ≤ i ∧ i < 1024 + 512 * (k + n) then 0x200000 * (i - 1024) + 0x83
        else W i := by
  have hend : krnlMapPhyaddressEnd = 0x400000000 := rfl
  have hroom := hw.room
  induction n generalizing f W k with
  | zero => exact ⟨f, rfl, hr.congr fun i hi => by rw [if_neg (by omega), if_neg (by omega)]⟩
  | succ n ih =>
      have hpde := viradrToPhyadr_eq (a := top + 0x2000 + 0x1000 * k) (by omega)
      rw [show top + 0x2000 + 0x1000 * k + krnlMapVirtaddressStart =
        top + krnlMapVirtaddressStart + 0x2000 + 0x1000 * k by omega] at hpde
      have hor := or_flags (a := top + 0x2000 + 0x1000 * k) (by omega)
      obtain ⟨f₁, hrun₁, hr₁⟩ := hr.vstore hw (j := 512 + k)
        (w := top + 0x2000 + 0x1000 * k ||| 2 ||| 1) (by omega) (by omega)
        (show top + krnlMapVirtaddressStart + 0x1000 + 8 * k = _ by omega)
      obtain ⟨f₂, hrun₂, hr₂⟩ := hr₁.pdeLoop hw (n := 512) (k := 0) (by omega)
        (show 1024 + 512 * k + 512 ≤ 9216 by omega) (m := 512 * k) (by omega)
      rw [show top + krnlMapVirtaddressStart + 8 * (1024 + 512 * k) =
        top + krnlMapVirtaddressStart + 0x2000 + 0x1000 * k by omega] at hrun₂
      obtain ⟨g, hrun, hg⟩ := ih (k := k + 1) hr₂ (by omega)
      refine ⟨g, ?_, hg.congr fun i hi => ?_⟩
      · have hlift : (liftM (viradrToPhyadr
            (top + krnlMapVirtaddressStart + 0x2000 + 0x1000 * k)) : PmemM Nat).run f =
            .ok (top + 0x2000 + 0x1000 * k, f) := by rw [hpde]; rfl
        refine (run_bind_ok hlift).trans ((run_bind_ok hrun₁).trans ((run_bind_ok hrun₂).trans ?_))
        rw [show 512 * k + 512 = 512 * (k + 1) by omega, Nat.add_assoc _ (0x1000 * k) 0x1000,
          show 0x1000 * k + 0x1000 = 0x1000 * (k + 1) by omega]
        exact hrun
      · simp only [Function.update_apply, hor, Nat.add_zero]
        exact pdpte_words (fun i => top + 0x2000 + 0x1000 * i + 3)
          (fun i => 0x200000 * i + 0x83) W

/-! ## The tables of the loader -/

theorem wordBytes_append (vs ws : List Nat) : wordBytes (vs ++ ws) = wordBytes vs ++ wordBytes ws :=
  List.flatMap_append

/-- Words that are given by their index. -/
theorem rd64_of_range {V : Nat → Nat} (h : At f a (wordBytes ((List.range n).map W)))
    (hWV : ∀ i < n, W i = V i ∧ V i < 2 ^ 64) (hi : i < n) : rd64 f (a + 8 * i) = V i := by
  have hws : ∀ w ∈ (List.range n).map W, w < 2 ^ 64 := by
    intro w hw
    obtain ⟨k, hk, rfl⟩ := List.mem_map.mp hw
    rw [(hWV k (List.mem_range.mp hk)).1]
    exact (hWV k (List.mem_range.mp hk)).2
  rw [rd64_of_words h hws i (by simpa using hi), List.getElem_map, List.getElem_range,
    (hWV i hi).1]

/-- **`init_bstartpages`** makes such tables. -/
theorem startPages_tables (h : At f kinitpagePhyadr startPages) :
    PageTables f kinitpagePhyadr true := by
  have hkinit : kinitpagePhyadr = 0x1000000 := rfl
  unfold startPages at h
  rw [wordBytes_append, wordBytes_append] at h
  obtain ⟨h, hpde⟩ := at_append.mp h
  obtain ⟨hpml4, hpdpt⟩ := at_append.mp h
  simp only [wordBytes_length, List.length_append, List.length_map,
    List.length_range] at hpml4 hpdpt hpde
  refine ⟨fun i hi => ?_, fun i hi => ?_, fun i hi => ?_⟩
  · rw [rd64_of_range hpml4 (V := fun i => if i = 256 ∨ i = 0 then kinitpagePhyadr + 0x1000 + 3
      else 0) (fun i _ => ?_) hi]
    · simp
    · rw [or_flags (by decide)]
      exact ⟨rfl, by split <;> omega⟩
  · refine rd64_of_range hpdpt (V := fun i =>
      if i < 16 then kinitpagePhyadr + 0x2000 + 0x1000 * i + 3 else 0) (fun i _ => ?_) hi
    rw [or_flags (by omega)]
    exact ⟨rfl, by split <;> omega⟩
  · refine rd64_of_range hpde (V := fun i => 0x200000 * i + 0x83) (fun i hi => ?_) hi
    exact ⟨large_flags i, by omega⟩

/-! ## The kernel's own tables -/

/-- What `copy_pages_data` returns, and the memory after it. -/
structure OwnTables (f g : Nat → UInt8) (mbsp mbsp' : Machbstart) : Prop where
  pml4padr : mbsp'.mbPml4padr = mbsp.mbNextwtpadr
  nextwtpadr : mbsp'.mbNextwtpadr = mbsp.mbNextwtpadr + 0x12000
  out : ∀ o, o < mbsp.mbNextwtpadr ∨ mbsp.mbNextwtpadr + 0x12000 ≤ o → g o = f o
  tables : PageTables g mbsp.mbNextwtpadr false

/-- **`copy_pages_data`** through the tables at `cr3`. -/
theorem copyPagesTables_run {mbsp : Machbstart} (hw : Window cr3 mbsp.mbNextwtpadr f)
    (hpage : mbsp.mbNextwtpadr % 0x1000 = 0)
    (hok : initchkadrIsOk mbsp mbsp.mbNextwtpadr mbsp.mbSubpageslen = 0) :
    ∃ mbsp' g, (copyPagesTables cr3 mbsp).run f = .ok ((true, mbsp'), g) ∧
      OwnTables f g mbsp mbsp' := by
  have hend : krnlMapPhyaddressEnd = 0x400000000 := rfl
  have hroom := hw.room
  have hr : Region mbsp.mbNextwtpadr f f fun j => rd64 f (mbsp.mbNextwtpadr + 8 * j) :=
    ⟨fun _ _ => rfl, fun _ _ => rfl⟩
  have hidx : krnlMapVirtaddressStart >>> 39 &&& 0x1ff = 256 := by decide
  have hp : (liftM (phyadrToViradr mbsp.mbNextwtpadr) : PmemM Nat).run f =
      .ok (mbsp.mbNextwtpadr + krnlMapVirtaddressStart, f) := by
    rw [phyadrToViradr, if_neg (by omega)]
    rfl
  obtain ⟨f₁, hrun₁, hr₁⟩ := hr.clearLoop hw (n := 512) (k := 0) (by omega)
  obtain ⟨f₂, hrun₂, hr₂⟩ := hr₁.pdpteLoop hw hpage (n := 16) (k := 0) (by omega)
  have hpd : (liftM (viradrToPhyadr (mbsp.mbNextwtpadr + krnlMapVirtaddressStart + 0x1000)) :
      PmemM Nat).run f₂ = .ok (mbsp.mbNextwtpadr + 0x1000, f₂) := by
    rw [Nat.add_right_comm, viradrToPhyadr_eq (by omega)]
    rfl
  obtain ⟨g, hrun₃, hr₃⟩ := hr₂.vstore hw (j := 256)
    (w := mbsp.mbNextwtpadr + 0x1000 ||| 2 ||| 1) (by omega) (by rw [or_flags] <;> omega)
    (show mbsp.mbNextwtpadr + krnlMapVirtaddressStart +
      8 * (krnlMapVirtaddressStart >>> 39 &&& 0x1ff) = _ by omega)
  let mbsp' := { mbsp with
    mbPml4padr := mbsp.mbNextwtpadr
    mbSubpageslen := 0x1000 * 16 + 0x2000
    mbKpmapphymemsz := 0x400000000
    mbNextwtpadr := add64 (mbsp.mbNextwtpadr + (0x1000 * 16 + 0x2000)) 0xfff / 0x1000 * 0x1000 }
  refine ⟨mbsp', g, ?_, ?_⟩
  · unfold copyPagesTables
    simp only [hok]
    rw [if_neg (by decide)]
    refine (run_bind_ok hp).trans ((run_bind_ok hrun₁).trans ((run_bind_ok hrun₂).trans
      ((run_bind_ok hpd).trans ((run_bind_ok hrun₃).trans rfl))))
  · refine ⟨rfl, ?_, hr₃.out, ⟨fun i hi => ?_, fun i hi => ?_, fun i hi => ?_⟩⟩
    · show add64 (mbsp.mbNextwtpadr + (0x1000 * 16 + 0x2000)) 0xfff / 0x1000 * 0x1000 = _
      rw [add64_eq (show _ < 2 ^ 64 by omega)]
      omega
    · have hword := hr₃.words i (by omega)
      rw [hword, Function.update_apply]
      by_cases hi' : i = 256
      · rw [if_pos hi', if_pos (.inl hi'), or_flags (by omega)]
      · rw [if_neg hi', if_neg (by omega), if_neg (by omega), if_pos (by omega),
          if_neg (by simpa using hi')]
    · have hword := hr₃.words (512 + i) (by omega)
      rw [show mbsp.mbNextwtpadr + 0x1000 + 8 * i = mbsp.mbNextwtpadr + 8 * (512 + i) by omega,
        hword, Function.update_of_ne (by omega)]
      by_cases hi' : i < 16
      · rw [if_pos (by omega), if_pos hi', Nat.add_sub_cancel_left]
      · rw [if_neg (by omega), if_neg (by omega), if_pos (by omega), if_neg hi']
    · have hword := hr₃.words (1024 + i) (by omega)
      rw [show mbsp.mbNextwtpadr + 0x2000 + 8 * i = mbsp.mbNextwtpadr + 8 * (1024 + i) by omega,
        hword, Function.update_of_ne (by omega), if_neg (by omega), if_pos (by omega),
        Nat.add_sub_cancel_left]

/-- **What the kernel can use**, before and after `copy_pages_data`: the loader's tables map the
first 16 GiB twice, its own tables map them in the kernel's half and nothing else. -/
theorem kernel_window {mbsp : Machbstart} (hload : At f kinitpagePhyadr startPages)
    (hbehind : kinitpagePhyadr + 0x12000 ≤ mbsp.mbNextwtpadr)
    (hpage : mbsp.mbNextwtpadr % 0x1000 = 0) (hlt : mbsp.mbNextwtpadr + 0x12000 < wordMod)
    (hlen : mbsp.mbSubpageslen = 0x12000) (hmap : mbsp.mbKpmapphymemsz = krnlMapPhyaddressEnd) :
    ∃ ret mbsp' g, (copyPagesTables kinitpagePhyadr mbsp).run f = .ok ((ret, mbsp'), g) ∧
      (ret = true ↔ initchkadrIsOk mbsp mbsp.mbNextwtpadr 0x12000 = 0) ∧
      (ret = false → mbsp' = mbsp ∧ g = f) ∧
      (ret = true → OwnTables f g mbsp mbsp' ∧
        (∀ i < 512, rd64 g (mbsp'.mbPml4padr + 8 * i) =
          copyPagesData (mbsp'.mbPml4padr + 0x1000) i) ∧
        ∀ va < 2 ^ 64,
          pageWalk g kinitpagePhyadr va =
            (if krnlMapVirtaddressStart ≤ va ∧ va < krnlMapVirtaddressStart + krnlMapPhyaddressEnd
              then some (va - krnlMapVirtaddressStart)
              else if va < krnlMapPhyaddressEnd then some va else none) ∧
          pageWalk g mbsp'.mbPml4padr va =
            if krnlMapVirtaddressStart ≤ va ∧ va < krnlMapVirtaddressStart + krnlMapPhyaddressEnd
              then some (va - krnlMapVirtaddressStart) else none) := by
  have hend : krnlMapPhyaddressEnd = 0x400000000 := rfl
  have hkinit : kinitpagePhyadr = 0x1000000 := rfl
  have hload := startPages_tables hload
  by_cases hok : initchkadrIsOk mbsp mbsp.mbNextwtpadr mbsp.mbSubpageslen = 0
  · have hroom := add64_lt_of_initchkadr hok
    rw [hlen, add64_eq hlt, hmap] at hroom
    have hw : Window kinitpagePhyadr mbsp.mbNextwtpadr f := ⟨hload, by omega, hbehind, by omega⟩
    obtain ⟨mbsp', g, hrun, hown⟩ := copyPagesTables_run hw hpage hok
    rw [hlen] at hok
    refine ⟨true, mbsp', g, hrun, iff_of_true rfl hok, nofun, fun _ => ⟨hown, fun i hi => ?_,
      fun va hva => ⟨?_, ?_⟩⟩⟩
    · rw [hown.pml4padr, hown.tables.pml4 i hi, copyPagesData, ← or_flags (by omega), Nat.or_assoc]
      simp
    · rw [(hload.congr fun o _ ho => hown.out o (by omega)).walk (by omega) (by omega) hva]
      simp
    · rw [hown.pml4padr, hown.tables.walk hpage (by omega) hva]
      simp
  · refine ⟨false, mbsp, f, ?_, iff_of_false nofun (by rwa [hlen] at hok), fun _ => ⟨rfl, rfl⟩,
      nofun⟩
    unfold copyPagesTables
    rw [if_pos hok]
    rfl

/-- What the loader leaves, with the next free page at 32 MiB. -/
def afterLoader : Machbstart :=
  { machbstartInit with
    mbNextwtpadr := 0x2000000
    mbSubpageslen := 0x12000
    mbKpmapphymemsz := krnlMapPhyaddressEnd }

/-- The null pointer is gone, the kernel's addresses are not. -/
theorem kernel_window_nullPointer : ∃ ret mbsp' g,
    (copyPagesTables kinitpagePhyadr afterLoader).run
      (put (fun _ => 0) kinitpagePhyadr startPages) = .ok ((ret, mbsp'), g) ∧
      pageWalk g kinitpagePhyadr 0 = some 0 ∧ pageWalk g mbsp'.mbPml4padr 0 = none ∧
      pageWalk g mbsp'.mbPml4padr 0xffff800002000000 = some 0x2000000 := by
  obtain ⟨ret, mbsp', g, hrun, hret, -, hok⟩ := @kernel_window
    (put (fun _ => 0) kinitpagePhyadr startPages) afterLoader at_put (by decide) (by decide)
    (by decide) rfl rfl
  obtain ⟨-, -, hwalk⟩ := hok (hret.mpr (by decide))
  exact ⟨ret, mbsp', g, hrun, (hwalk 0 (by decide)).1, (hwalk 0 (by decide)).2,
    (hwalk 0xffff800002000000 (by decide)).2⟩

end Cosmos.Hal
