import Mathlib.Data.List.GetD
import Cosmos.Lib.Bytes

/-!
# Regular files

A file has a length and bytes, and reads zero behind its end: a write that
starts there leaves a hole of zeros.  Reads and writes transfer everything that
is asked for, except that a read stops at the end of the file.
-/

namespace Cosmos.Lib.Files

open Cosmos.Lib.Bytes

/-- The length and the bytes of a file; there is nothing behind the end. -/
structure PFile where
  len : Nat
  byte : Nat → UInt8
  zero : ∀ i, len ≤ i → byte i = 0

namespace PFile

variable {f : PFile} {pos a : Nat} {bs cs : List UInt8}

@[ext] theorem ext {f g : PFile} (hlen : f.len = g.len) (hbyte : ∀ i, f.byte i = g.byte i) :
    f = g := by
  cases f
  cases g
  cases hlen
  cases funext hbyte
  rfl

/-- A file that was just created. -/
def empty : PFile where
  len := 0
  byte _ := 0
  zero _ _ := rfl

/-- A write of `bs` at the offset `pos`; a write of nothing does nothing. -/
def write (f : PFile) (pos : Nat) (bs : List UInt8) : PFile where
  len := if bs.length = 0 then f.len else max f.len (pos + bs.length)
  byte i := if pos ≤ i ∧ i < pos + bs.length then bs.getD (i - pos) 0 else f.byte i
  zero i hi := by
    have hout : ¬ (pos ≤ i ∧ i < pos + bs.length) := by
      split at hi <;> omega
    rw [if_neg hout]
    exact f.zero i (by split at hi <;> omega)

/-- At most `n` bytes from the offset `pos` on. -/
def read (f : PFile) (pos n : Nat) : List UInt8 :=
  (List.range (min n (f.len - pos))).map fun k => f.byte (pos + k)

theorem write_len (h : 0 < bs.length) : (f.write pos bs).len = max f.len (pos + bs.length) := by
  simp [write, Nat.ne_of_gt h]

theorem write_byte_out {i : Nat} (h : i < pos ∨ pos + bs.length ≤ i) :
    (f.write pos bs).byte i = f.byte i := by
  show (if pos ≤ i ∧ i < pos + bs.length then bs.getD (i - pos) 0 else f.byte i) = _
  rw [if_neg (by omega)]

@[simp] theorem write_nil (f : PFile) (pos : Nat) : f.write pos [] = f :=
  ext rfl fun _ => write_byte_out (by rw [List.length_nil]; omega)

/-- **What was written stands there.** -/
theorem at_write (f : PFile) (pos : Nat) (bs : List UInt8) : At (f.write pos bs).byte pos bs := by
  intro k hk
  show (if pos ≤ pos + k ∧ pos + k < pos + bs.length then bs.getD (pos + k - pos) 0
    else f.byte (pos + k)) = _
  rw [if_pos (by omega), Nat.add_sub_cancel_left, List.getD_eq_getElem bs 0 hk]

/-- **A write elsewhere.** -/
theorem at_write_of_out (h : At f.byte a cs)
    (hout : a + cs.length ≤ pos ∨ pos + bs.length ≤ a) : At (f.write pos bs).byte a cs :=
  h.copy fun k hk => write_byte_out (by omega)

/-- Two writes one behind the other are one write. -/
theorem write_write (f : PFile) (pos : Nat) (bs cs : List UInt8) :
    (f.write pos bs).write (pos + bs.length) cs = f.write pos (bs ++ cs) := by
  ext i
  · simp only [write, List.length_append]
    split <;> split <;> split <;> omega
  · simp only [write, List.length_append]
    by_cases hb : pos ≤ i ∧ i < pos + bs.length
    · rw [if_neg (by omega), if_pos hb, if_pos (by omega),
        List.getD_append _ _ _ _ (by omega)]
    · by_cases hc : pos + bs.length ≤ i ∧ i < pos + bs.length + cs.length
      · rw [if_pos hc, if_pos (by omega), List.getD_append_right _ _ _ _ (by omega),
          Nat.sub_sub]
      · rw [if_neg hc, if_neg hb, if_neg (by omega)]

theorem read_length (f : PFile) (pos n : Nat) :
    (f.read pos n).length = min n (f.len - pos) := by
  rw [read, List.length_map, List.length_range]

/-- A read returns what stands there. -/
theorem at_read (f : PFile) (pos n : Nat) : At f.byte pos (f.read pos n) := fun k hk => by
  simp only [read, List.getElem_map, List.getElem_range]

end PFile

end Cosmos.Lib.Files
