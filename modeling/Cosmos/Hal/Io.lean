import Cosmos.Lib.Copy

/-!
# Copying memory

`m2mcopy` of `io.h`, which the loader and the kernel share: `M` is the size of the
address space, `2 ^ 32` for the loader and `2 ^ 64` for the kernel.
-/

namespace Cosmos.Hal

open Cosmos.Lib.Copy

/-- `m2mcopy`: the memory it leaves and what it returns. -/
def m2mcopy (M sadr dadr : Nat) (len : Int) (f : Nat → UInt8) : (Nat → UInt8) × Int :=
  if sadr = 0 ∨ dadr = 0 ∨ len < 1 then (f, 0)
  else if sadr < dadr then (copyBack M sadr dadr len.toNat f, len)
  else if dadr < sadr then (copyForth M sadr dadr len.toNat 0 f, len)
  else (f, len)

variable {M sadr dadr n : Nat} {f : Nat → UInt8}

/-- **Within the address space `m2mcopy` moves the range**, whether source and
destination overlap or not. -/
theorem m2mcopy_eq (hs : sadr ≠ 0) (hd : dadr ≠ 0) (hn : 1 ≤ n) (hsM : sadr + n ≤ M)
    (hdM : dadr + n ≤ M) : m2mcopy M sadr dadr n f = (moved f sadr dadr n, (n : Int)) := by
  have hnull : ¬ (sadr = 0 ∨ dadr = 0 ∨ (n : Int) < 1) := by omega
  rw [m2mcopy, if_neg hnull, Int.toNat_natCast]
  split
  · rw [copyBack_eq (by omega) hdM]
  · split
    · rw [copyForth_eq (by omega) hsM]
    · obtain rfl : sadr = dadr := by omega
      rw [moved_self]

/-- A range is where it is to be. -/
theorem m2mcopy_self {len : Int} : m2mcopy M sadr sadr len f =
    (f, if sadr = 0 ∨ len < 1 then 0 else len) := by
  unfold m2mcopy
  by_cases hnull : sadr = 0 ∨ len < 1
  · rw [if_pos (by tauto), if_pos hnull]
  · rw [if_neg (by tauto), if_neg (Nat.lt_irrefl _), if_neg (Nat.lt_irrefl _), if_neg hnull]

/-- `m2mcopy` stores to the destination only, wherever it reads. -/
theorem m2mcopy_out {a : Nat} {len : Int} (hdM : dadr + len.toNat ≤ M)
    (ha : a < dadr ∨ dadr + len.toNat ≤ a) : (m2mcopy M sadr dadr len f).1 a = f a := by
  unfold m2mcopy
  split
  · rfl
  · split
    · exact copyBack_out hdM ha
    · split
      · exact copyForth_out 0 hdM ha
      · rfl

/-! ## The whole contract -/

/-- What `m2mcopy` is asked for: the destination holds what the source held, no other byte
changes, and the length is returned. -/
structure Copied (sadr dadr n : Nat) (f : Nat → UInt8) (r : (Nat → UInt8) × Int) : Prop where
  dest : ∀ k < n, r.1 (dadr + k) = f (sadr + k)
  other : ∀ a, a < dadr ∨ dadr + n ≤ a → r.1 a = f a
  ret : r.2 = n

/-- **`m2mcopy` copies**, whatever the overlap, between ranges that do not start at address 0;
with a `NULL` pointer it does nothing and returns 0. -/
theorem m2mcopy_copied (hn : 1 ≤ n) (hsM : sadr + n ≤ M) (hdM : dadr + n ≤ M) :
    (sadr ≠ 0 ∧ dadr ≠ 0 → Copied sadr dadr n f (m2mcopy M sadr dadr n f)) ∧
      (sadr = 0 ∨ dadr = 0 → m2mcopy M sadr dadr n f = (f, 0)) := by
  constructor
  · rintro ⟨hs, hd⟩
    rw [m2mcopy_eq hs hd hn hsM hdM]
    exact ⟨fun k hk => moved_in hk, fun a ha => moved_out ha, rfl⟩
  · intro hnull
    unfold m2mcopy
    rw [if_pos (by omega)]

/-- Three bytes are moved up by one, over themselves. -/
theorem m2mcopy_copied_three :
    Copied 8 9 3 (fun a => UInt8.ofNat a) (m2mcopy (2 ^ 32) 8 9 (3 : Nat) fun a => UInt8.ofNat a) :=
  (m2mcopy_copied (by decide) (by decide) (by decide)).1 (by decide)

/-- **From address 0** no byte is copied. -/
theorem m2mcopy_copied_not :
    ¬ Copied 0 1 1 (fun a => UInt8.ofNat a)
      (m2mcopy (2 ^ 32) 0 1 (1 : Nat) fun a => UInt8.ofNat a) :=
  fun h => absurd (h.dest 0 (by decide)) (by decide)

end Cosmos.Hal
