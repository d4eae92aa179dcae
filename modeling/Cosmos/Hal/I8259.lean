import Mathlib.Algebra.Group.Nat.Defs

/-!
# Interrupt lines

`i8259.c`, and the two functions of `halintupt.c` that devices use.  The controller has a mask
register for the lines 0 to 7 and another one, behind line 2 of the first, for the lines 8 to 15.
The functions set and clear the bit of line 2 with that of any line of the second register.

## Main results

* `masked_enabledLine`, `masked_disableLine` : the masks after a call.
* `rest_save` : masks that were saved come back.
-/

namespace Cosmos.Hal

/-- The mask registers, and the vectors that the lines start at. -/
structure I8259 where
  /-- `_INTM_CTLMASK` -/
  intm : BitVec 8
  /-- `_INTS_CTLMASK` -/
  ints : BitVec 8
  intmVector : Nat
  intsVector : Nat
deriving DecidableEq, Repr

/-- `ZICW2`. -/
abbrev zicw2 : Nat := 0x20

/-- `SICW2`. -/
abbrev sicw2 : Nat := 0x28

/-- `init_i8259`. -/
def initI8259 : I8259 where
  intm := 0xff#8
  ints := 0xff#8
  intmVector := zicw2
  intsVector := sicw2

/-- `i8259_enabled_line`. -/
def i8259EnabledLine (c : I8259) (line : Nat) : I8259 :=
  if line < 8 then { c with intm := c.intm &&& ~~~(1#8 <<< line) }
  else { c with
    intm := c.intm &&& ~~~(1#8 <<< 2)
    ints := c.ints &&& ~~~(1#8 <<< (line - 8)) }

/-- `i8259_disable_line`. -/
def i8259DisableLine (c : I8259) (line : Nat) : I8259 :=
  if line < 8 then { c with intm := c.intm ||| 1#8 <<< line }
  else { c with
    intm := c.intm ||| 1#8 <<< 2
    ints := c.ints ||| 1#8 <<< (line - 8) }

/-- `i8259_save_disableline`: the masks as they were go to `*svline`. -/
def i8259SaveDisableline (c : I8259) (line : Nat) : I8259 × Nat :=
  (i8259DisableLine c line, c.intm.toNat <<< 8 ||| c.ints.toNat)

/-- `i8259_rest_enabledline`. -/
def i8259RestEnabledline (c : I8259) (svline : Nat) : I8259 :=
  let intftmp := svline % 2 ^ 32
  { c with
    ints := BitVec.ofNat 8 (intftmp &&& 0xff)
    intm := BitVec.ofNat 8 (intftmp >>> 8) }

/-- `hal_enable_intline`: `none` is `DFCERRSTUS`. -/
def halEnableIntline (c : I8259) (ifdnr : Nat) : Option I8259 :=
  if ifdnr < 20 ∨ 36 < ifdnr then none else some (i8259EnabledLine c (ifdnr - 20))

/-- `hal_disable_intline`. -/
def halDisableIntline (c : I8259) (ifdnr : Nat) : Option I8259 :=
  if ifdnr < 20 ∨ 36 < ifdnr then none else some (i8259DisableLine c (ifdnr - 20))

/-- The mask bit of a line. -/
def I8259.masked (c : I8259) (n : Nat) : Bool :=
  if n < 8 then c.intm.getLsbD n else c.ints.getLsbD (n - 8)

/-- An interrupt of the line gets through: those of the second register also pass line 2. -/
def I8259.opens (c : I8259) (n : Nat) : Bool := !c.masked n && (n < 8 || !c.masked 2)

/-- The vector of a line. -/
def I8259.vector (c : I8259) (n : Nat) : Nat :=
  if n < 8 then c.intmVector + n else c.intsVector + (n - 8)

/-! ## Masks -/

theorem getLsbD_bit (k n : Nat) : (1#8 <<< k).getLsbD n = (decide (n < 8) && decide (n = k)) := by
  simp [BitVec.getLsbD_shiftLeft]
  grind

theorem getLsbD_clear (x : BitVec 8) {k n : Nat} (hn : n < 8) :
    (x &&& ~~~(1#8 <<< k)).getLsbD n = (x.getLsbD n && !decide (n = k)) := by
  simp only [BitVec.getLsbD_and, BitVec.getLsbD_not, getLsbD_bit, hn, decide_true, Bool.true_and]

theorem getLsbD_set (x : BitVec 8) {k n : Nat} (hn : n < 8) :
    (x ||| 1#8 <<< k).getLsbD n = (x.getLsbD n || decide (n = k)) := by
  simp only [BitVec.getLsbD_or, getLsbD_bit, hn, decide_true, Bool.true_and]

/-- The functions for `line` also set the bit of another line if that is line 2. -/
def touches (n line : Nat) : Bool := n = line || (n = 2 && 8 ≤ line)

variable {c : I8259} {n : Nat}

theorem masked_enabledLine (line : Nat) (hn : n < 16) :
    (i8259EnabledLine c line).masked n = (c.masked n && !touches n line) := by
  unfold i8259EnabledLine I8259.masked touches
  by_cases hline : line < 8 <;> by_cases h8 : n < 8
  · have h : ¬ 8 ≤ line := by omega
    simp only [if_pos hline, if_pos h8, getLsbD_clear _ h8]
    simp [h]
  · have hne : ¬ n = line := by omega
    have h2 : ¬ n = 2 := by omega
    simp [hline, h8, hne, h2]
  · have hne : ¬ n = line := by omega
    have hle : 8 ≤ line := by omega
    simp only [if_neg hline, if_pos h8, getLsbD_clear _ h8]
    simp [hne, hle]
  · have h2 : ¬ n = 2 := by omega
    have hlt : n - 8 < 8 := by omega
    have hiff : n - 8 = line - 8 ↔ n = line := by omega
    simp only [if_neg hline, if_neg h8, getLsbD_clear _ hlt, hiff]
    simp [h2]

theorem masked_disableLine (line : Nat) (hn : n < 16) :
    (i8259DisableLine c line).masked n = (c.masked n || touches n line) := by
  unfold i8259DisableLine I8259.masked touches
  by_cases hline : line < 8 <;> by_cases h8 : n < 8
  · have h : ¬ 8 ≤ line := by omega
    simp only [if_pos hline, if_pos h8, getLsbD_set _ h8]
    simp [h]
  · have hne : ¬ n = line := by omega
    have h2 : ¬ n = 2 := by omega
    simp [hline, h8, hne, h2]
  · have hne : ¬ n = line := by omega
    have hle : 8 ≤ line := by omega
    simp only [if_neg hline, if_pos h8, getLsbD_set _ h8]
    simp [hne, hle]
  · have h2 : ¬ n = 2 := by omega
    have hlt : n - 8 < 8 := by omega
    have hiff : n - 8 = line - 8 ↔ n = line := by omega
    simp only [if_neg hline, if_neg h8, getLsbD_set _ hlt, hiff]
    simp [h2]

/-- Saved masks come back, whatever was done to the lines since. -/
theorem rest_save (line : Nat) (d : I8259) :
    (i8259RestEnabledline d (i8259SaveDisableline c line).2).intm = c.intm ∧
    (i8259RestEnabledline d (i8259SaveDisableline c line).2).ints = c.ints := by
  have hm := c.intm.isLt
  have hs := c.ints.isLt
  simp only [i8259RestEnabledline, i8259SaveDisableline]
  rw [← Nat.shiftLeft_add_eq_or_of_lt hs, Nat.shiftLeft_eq, Nat.shiftRight_eq_div_pow,
    show 0xff = 2 ^ 8 - 1 from rfl, Nat.and_two_pow_sub_one_eq_mod]
  constructor <;> apply BitVec.eq_of_toNat_eq <;> simp only [BitVec.toNat_ofNat] <;> omega

/-- At the start all lines are masked. -/
theorem masked_init (hn : n < 16) : initI8259.masked n = true := by
  revert n
  decide

end Cosmos.Hal
