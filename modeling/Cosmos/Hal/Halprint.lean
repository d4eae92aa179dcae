import Cosmos.Lib.Bytes
import Mathlib.Data.Nat.Digits.Lemmas

/-!
# Formatted output

`vsprintfk` of `halprint.c`, with `strcopyk` and `numberk`, on byte-addressed memory.  The
buffer, the format and the strings are ranges of one memory; the buffer of `numberk` is a
stack array of its own, filled from its end, and an index below it is an error.

## Main results

* `vsprintfk_formats`: with enough arguments the call ends, and leaves in the buffer what the
  format asks for and nothing anywhere else.
-/

namespace Cosmos.Hal

open Cosmos.Lib.Bytes

/-! ## The code -/

/-- How formatting can go wrong: a loop that never ends, a write in front of `strbuf`, or a
`va_arg` without an argument left. -/
inductive FormatStop
  | endless
  | underflow
  | noArg
  deriving DecidableEq, Repr

/-- `strcopyk`: the memory behind it and the end of what was copied. -/
def strcopyk : Nat → (Nat → UInt8) → Nat → Nat → Except FormatStop ((Nat → UInt8) × Nat)
  | 0, _, _, _ => .error .endless
  | k + 1, mem, buf, strS =>
      if mem strS ≠ 0 then strcopyk k (Function.update mem buf (mem strS)) (buf + 1) (strS + 1)
      else .ok (mem, buf)

/-- `strbuf` of `numberk` with the pointer into it, as an index. -/
structure NumBuf where
  byte : Nat → UInt8
  p : Nat

/-- `*--p = c`. -/
def NumBuf.push (b : NumBuf) (c : UInt8) : Except FormatStop NumBuf :=
  if b.p = 0 then .error .underflow else .ok ⟨Function.update b.byte (b.p - 1) c, b.p - 1⟩

/-- `"0123456789abcdef"[d]`. -/
def digit (d : Nat) : UInt8 :=
  [48, 49, 50, 51, 52, 53, 54, 55, 56, 57, 97, 98, 99, 100, 101, 102].getD d 0

/-- The digit loop of `numberk`. -/
def digitLoop (base : Nat) : Nat → Nat → NumBuf → Except FormatStop NumBuf
  | 0, _, _ => .error .endless
  | k + 1, n, b => do
      let b ← b.push (digit (n % base))
      if n / base ≠ 0 then digitLoop base k (n / base) b else return b

/-- The digits of `n` in front of the pointer; 0 has one, too. -/
def numDigits (base k n : Nat) (b : NumBuf) : Except FormatStop NumBuf :=
  if n = 0 then b.push 48 else digitLoop base k n b

/-- The copying loop of `numberk`. -/
def numCopy (strbuf : Nat → UInt8) :
    Nat → Nat → (Nat → UInt8) → Nat → Except FormatStop ((Nat → UInt8) × Nat)
  | 0, _, _, _ => .error .endless
  | k + 1, p, mem, str =>
      if strbuf p ≠ 0 then numCopy strbuf k (p + 1) (Function.update mem str (strbuf p)) (str + 1)
      else .ok (mem, str)

/-- `numberk`; `stk` is what the stack array holds at first. -/
def numberk (stk : Nat → UInt8) (k : Nat) (mem : Nat → UInt8) (str : Nat) (n : UInt64)
    (base : Nat) : Except FormatStop ((Nat → UInt8) × Nat) := do
  let b ← NumBuf.push ⟨stk, 36⟩ 0
  let b ← numDigits base k n.toNat b
  numCopy b.byte k b.p mem str

/-- `va_arg`. -/
def vaArg : List UInt64 → Except FormatStop (UInt64 × List UInt64)
  | [] => .error .noArg
  | a :: args => .ok (a, args)

/-- `vsprintfk`; every loop gets at most `k` passes. -/
def vsprintfk (stk : Nat → UInt8) :
    Nat → (Nat → UInt8) → Nat → Nat → List UInt64 → Except FormatStop (Nat → UInt8)
  | 0, _, _, _, _ => .error .endless
  | k + 1, mem, p, fmt, args =>
      if mem fmt = 0 then .ok (Function.update mem p 0)
      else if mem fmt ≠ 37 then
        vsprintfk stk k (Function.update mem p (mem fmt)) (p + 1) (fmt + 1) args
      else if mem (fmt + 1) = 120 then do
        let (n, args) ← vaArg args
        let (mem, p) ← numberk stk k mem p n 16
        vsprintfk stk k mem p (fmt + 2) args
      else if mem (fmt + 1) = 100 then do
        let (n, args) ← vaArg args
        let (mem, p) ← numberk stk k mem p n 10
        vsprintfk stk k mem p (fmt + 2) args
      else if mem (fmt + 1) = 115 then do
        let (s, args) ← vaArg args
        let (mem, p) ← strcopyk k mem p s.toNat
        vsprintfk stk k mem p (fmt + 2) args
      else vsprintfk stk k mem p (fmt + 1) args

/-! ## What a format asks for -/

/-- A `NUL`-terminated string stands at `a`. -/
def StrAt (mem : Nat → UInt8) (a : Nat) (s : List UInt8) : Prop := At mem a (s ++ [0]) ∧ 0 ∉ s

/-- Value of a digit character. -/
def digitVal (c : UInt8) : Nat := if c < 97 then c.toNat - 48 else c.toNat - 87

/-- The numeral of `n`: digits of the base that read back as `n`, without a leading zero. -/
structure IsNumeral (base n : Nat) (s : List UInt8) : Prop where
  digits : ∀ c ∈ s, ∃ d < base, c = digit d
  reads : Nat.ofDigits base (s.map digitVal).reverse = n
  noZero : s.head? = some 48 → s = [48]
  notEmpty : s ≠ []

/-- A directive that takes an argument. -/
def Directive (c : UInt8) : Prop := c = 120 ∨ c = 100 ∨ c = 115

/-- What a format and its arguments stand for.  Each argument of a `%s` is a string in
memory. -/
inductive Formats (mem : Nat → UInt8) : List UInt8 → List UInt64 → List UInt8 → Prop
  | nil {args} : Formats mem [] args []
  | ordinary {c fmt args out} (hc : c ≠ 37) (h : Formats mem fmt args out) :
      Formats mem (c :: fmt) args (c :: out)
  | hex {n : UInt64} {fmt args s out} (hs : IsNumeral 16 n.toNat s) (h : Formats mem fmt args out) :
      Formats mem (37 :: 120 :: fmt) (n :: args) (s ++ out)
  | dec {n : UInt64} {fmt args s out} (hs : IsNumeral 10 n.toNat s) (h : Formats mem fmt args out) :
      Formats mem (37 :: 100 :: fmt) (n :: args) (s ++ out)
  | str {a : UInt64} {fmt args s out} (hs : StrAt mem a.toNat s) (h : Formats mem fmt args out) :
      Formats mem (37 :: 115 :: fmt) (a :: args) (s ++ out)
  | other {fmt args out} (hc : ∀ c, fmt.head? = some c → ¬ Directive c)
      (h : Formats mem fmt args out) : Formats mem (37 :: fmt) args out

/-- Enough arguments for a format: one for each `%x` and `%d`, and for each `%s` the address of
a string that is apart from the buffer, which is `[lo, hi)`. -/
inductive Enough (mem : Nat → UInt8) (lo hi : Nat) : List UInt8 → List UInt64 → Prop
  | nil {args} : Enough mem lo hi [] args
  | ordinary {c fmt args} (hc : c ≠ 37) (h : Enough mem lo hi fmt args) :
      Enough mem lo hi (c :: fmt) args
  | hex {n fmt args} (h : Enough mem lo hi fmt args) :
      Enough mem lo hi (37 :: 120 :: fmt) (n :: args)
  | dec {n fmt args} (h : Enough mem lo hi fmt args) :
      Enough mem lo hi (37 :: 100 :: fmt) (n :: args)
  | str {a : UInt64} {fmt args s} (hs : StrAt mem a.toNat s)
      (hapart : a.toNat + s.length < lo ∨ hi ≤ a.toNat) (h : Enough mem lo hi fmt args) :
      Enough mem lo hi (37 :: 115 :: fmt) (a :: args)
  | other {fmt args} (hc : ∀ c, fmt.head? = some c → ¬ Directive c)
      (h : Enough mem lo hi fmt args) : Enough mem lo hi (37 :: fmt) args

/-! ## Numerals -/

section Numerals

variable {base n : Nat}

/-- The numeral that `numberk` writes. -/
def numeral (base n : Nat) : List UInt8 :=
  if n = 0 then [48] else ((Nat.digits base n).map digit).reverse

theorem digitVal_digit {d : Nat} (h : d < 16) : digitVal (digit d) = d := by
  have hall : ∀ d : Fin 16, digitVal (digit d) = d := by decide
  exact hall ⟨d, h⟩

theorem digit_ne_zero {d : Nat} (h : d < 16) : digit d ≠ 0 := by
  have hall : ∀ d : Fin 16, digit d ≠ 0 := by decide
  exact hall ⟨d, h⟩

theorem digit_eq_zero {d : Nat} (h : d < 16) (h0 : digit d = 48) : d = 0 := by
  have hall : ∀ d : Fin 16, digit d = 48 → (d : Nat) = 0 := by decide
  exact hall ⟨d, h⟩ h0

theorem numeral_isNumeral (hb : 1 < base) (hb16 : base ≤ 16) (n : Nat) :
    IsNumeral base n (numeral base n) := by
  unfold numeral
  split
  · rename_i h0
    subst h0
    exact ⟨fun c hc => ⟨0, by omega, List.mem_singleton.mp hc⟩, rfl, fun _ => rfl, by decide⟩
  · rename_i h0
    have hlt : ∀ d ∈ Nat.digits base n, d < base := fun d hd => Nat.digits_lt_base hb hd
    refine ⟨fun c hc => ?_, ?_, fun hhead => ?_, ?_⟩
    · obtain ⟨d, hd, rfl⟩ := List.mem_map.mp (List.mem_reverse.mp hc)
      exact ⟨d, hlt d hd, rfl⟩
    · have hmap : (Nat.digits base n).map (digitVal ∘ digit) = Nat.digits base n :=
        (List.map_congr_left fun d hd =>
          digitVal_digit (Nat.lt_of_lt_of_le (hlt d hd) hb16)).trans (List.map_id _)
      rw [List.map_reverse, List.reverse_reverse, List.map_map, hmap, Nat.ofDigits_digits]
    · have hne : Nat.digits base n ≠ [] := Nat.digits_ne_nil_iff_ne_zero.mpr h0
      rw [List.head?_reverse, List.getLast?_map, List.getLast?_eq_some_getLast hne] at hhead
      have hlast : digit ((Nat.digits base n).getLast hne) = 48 := Option.some.inj hhead
      have hzero := digit_eq_zero
        (Nat.lt_of_lt_of_le (hlt _ (List.getLast_mem hne)) hb16) hlast
      exact absurd hzero (Nat.getLast_digit_ne_zero base h0)
    · intro hnil
      rw [List.reverse_eq_nil_iff, List.map_eq_nil_iff] at hnil
      exact h0 (Nat.digits_eq_nil_iff_eq_zero.mp hnil)

theorem numeral_zero_not_mem (hb : 1 < base) (hb16 : base ≤ 16) (n : Nat) :
    0 ∉ numeral base n := by
  intro h0
  obtain ⟨d, hd, hd0⟩ := (numeral_isNumeral hb hb16 n).digits 0 h0
  exact digit_ne_zero (Nat.lt_of_lt_of_le hd hb16) hd0.symm

/-- A numeral of 64 bits leaves room in the 36 bytes of `strbuf`. -/
theorem length_numeral (hb : 10 ≤ base) (n : UInt64) : (numeral base n.toNat).length ≤ 20 := by
  unfold numeral
  split
  · decide
  · rw [List.length_reverse, List.length_map, Nat.digits_length_le_iff (by omega)]
    calc n.toNat < 2 ^ 64 := n.toNat_lt
      _ ≤ 10 ^ 20 := by decide
      _ ≤ base ^ 20 := Nat.pow_le_pow_left hb 20

/-- The digit loop fills the bytes in front of the pointer with the digits, and the pointer
ends on the first. -/
theorem digitLoop_spec (hb : 1 < base) (k : Nat) :
    ∀ (n : Nat) (byte : Nat → UInt8) (m : Nat), n ≠ 0 → (Nat.digits base n).length ≤ k →
      digitLoop base k n ⟨byte, m + (Nat.digits base n).length⟩ =
        .ok ⟨put byte m ((Nat.digits base n).map digit).reverse, m⟩ := by
  induction k with
  | zero =>
      intro n byte m hn hk
      exact absurd (List.length_eq_zero_iff.mp (Nat.le_zero.mp hk))
        (Nat.digits_ne_nil_iff_ne_zero.mpr hn)
  | succ k ih =>
      intro n byte m hn hk
      rw [Nat.digits_def' hb (Nat.pos_of_ne_zero hn)] at hk ⊢
      have hpush : NumBuf.push ⟨byte, m + (Nat.digits base (n / base)).length + 1⟩
          (digit (n % base)) =
            .ok ⟨put byte (m + (Nat.digits base (n / base)).length) [digit (n % base)],
              m + (Nat.digits base (n / base)).length⟩ := by
        rw [← put_cons, put_nil]
        exact if_neg (Nat.succ_ne_zero _)
      rw [List.length_cons, digitLoop, ← Nat.add_assoc, hpush, List.map_cons, List.reverse_cons]
      show (if n / base ≠ 0 then _ else _) = _
      split
      · rename_i hdiv
        rw [ih (n / base) _ m hdiv (Nat.le_of_succ_le_succ hk),
          put_before (by rw [List.length_reverse, List.length_map])]
      · rename_i hdiv
        rw [not_not.mp hdiv, Nat.digits_zero]
        rfl

end Numerals

section Copies

variable {mem strbuf : Nat → UInt8}

theorem strAt_nil {a : Nat} (h : StrAt mem a []) : mem a = 0 := (at_cons.mp h.1).1

theorem strAt_cons {a : Nat} {c : UInt8} {s : List UInt8} :
    StrAt mem a (c :: s) ↔ mem a = c ∧ c ≠ 0 ∧ StrAt mem (a + 1) s := by
  unfold StrAt
  rw [List.cons_append, at_cons, List.mem_cons, not_or]
  constructor
  · rintro ⟨⟨hc, hs⟩, h0, h0s⟩
    exact ⟨hc, Ne.symm h0, hs, h0s⟩
  · rintro ⟨hc, h0, hs, h0s⟩
    exact ⟨⟨hc, hs⟩, Ne.symm h0, h0s⟩

/-- A string is still there where the memory is the same. -/
theorem StrAt.of_eq {mem' : Nat → UInt8} {a : Nat} {s : List UInt8} (h : StrAt mem a s)
    (heq : ∀ i ≤ s.length, mem' (a + i) = mem (a + i)) : StrAt mem' a s := by
  refine ⟨fun k hk => ?_, h.2⟩
  rw [List.length_append, List.length_singleton] at hk
  rw [heq k (by omega)]
  exact h.1 k (by rw [List.length_append, List.length_singleton]; exact hk)

theorem numCopy_spec {s : List UInt8} (k p : Nat) (mem : Nat → UInt8) (str : Nat)
    (h : StrAt strbuf p s) (hk : s.length < k) :
    numCopy strbuf k p mem str = .ok (put mem str s, str + s.length) := by
  induction s generalizing k p mem str with
  | nil =>
      obtain ⟨k, rfl⟩ : ∃ j, k = j + 1 := ⟨k - 1, by omega⟩
      rw [numCopy, if_neg (not_not.mpr (strAt_nil h)), put_nil]
      rfl
  | cons c s ih =>
      obtain ⟨k, rfl⟩ : ∃ j, k = j + 1 := ⟨k - 1, by omega⟩
      obtain ⟨hc, hc0, hs⟩ := strAt_cons.mp h
      rw [numCopy, hc, if_pos hc0, ih k (p + 1) _ (str + 1) hs (Nat.lt_of_succ_lt_succ hk),
        put_cons, List.length_cons, Nat.add_assoc, Nat.add_comm 1]

/-- `strcopyk` copies a string that the copy does not run into. -/
theorem strcopyk_spec {s : List UInt8} (k buf a : Nat) (mem : Nat → UInt8) (h : StrAt mem a s)
    (hapart : a + s.length < buf ∨ buf + s.length ≤ a) (hk : s.length < k) :
    strcopyk k mem buf a = .ok (put mem buf s, buf + s.length) := by
  induction s generalizing k buf a mem with
  | nil =>
      obtain ⟨k, rfl⟩ : ∃ j, k = j + 1 := ⟨k - 1, by omega⟩
      rw [strcopyk, if_neg (not_not.mpr (strAt_nil h)), put_nil]
      rfl
  | cons c s ih =>
      obtain ⟨k, rfl⟩ : ∃ j, k = j + 1 := ⟨k - 1, by omega⟩
      rw [List.length_cons] at hapart hk
      obtain ⟨hc, hc0, hs⟩ := strAt_cons.mp h
      have hs' : StrAt (Function.update mem buf c) (a + 1) s :=
        hs.of_eq fun i hi => Function.update_of_ne (by omega) ..
      rw [strcopyk, hc, if_pos hc0, ih k (buf + 1) (a + 1) _ hs' (by omega) (by omega), put_cons,
        List.length_cons, Nat.add_assoc, Nat.add_comm 1]

/-- **`numberk` writes the numeral**, and stays inside its buffer. -/
theorem numberk_spec {base : Nat} (hb : 10 ≤ base) (hb16 : base ≤ 16) (stk : Nat → UInt8) (k : Nat)
    (mem : Nat → UInt8) (str : Nat) (n : UInt64) (hk : (numeral base n.toNat).length < k) :
    numberk stk k mem str n base =
      .ok (put mem str (numeral base n.toNat), str + (numeral base n.toNat).length) := by
  have hlen := length_numeral hb n
  have hnul : NumBuf.push ⟨stk, 36⟩ 0 = .ok ⟨put stk 35 [0], 35⟩ := by
    rw [← put_cons, put_nil]
    rfl
  -- the digits end in front of the last byte, which is the `NUL`
  have hfill : numDigits base k n.toNat ⟨put stk 35 [0], 35⟩ =
        .ok ⟨put stk (35 - (numeral base n.toNat).length) (numeral base n.toNat ++ [0]),
          35 - (numeral base n.toNat).length⟩ := by
    have hpos : 35 - (numeral base n.toNat).length + (numeral base n.toNat).length = 35 := by omega
    rw [← put_before hpos.symm]
    unfold numeral at hk hpos ⊢
    unfold numDigits
    by_cases h0 : n.toNat = 0
    · simp only [if_pos h0]
      show NumBuf.push _ _ = .ok ⟨put (put stk 35 [0]) 34 [48], 34⟩
      rw [← @put_cons (put stk 35 [0]), put_nil]
      rfl
    · simp only [if_neg h0, List.length_reverse, List.length_map] at hk hpos ⊢
      have hloop := digitLoop_spec (by omega : 1 < base) k n.toNat (put stk 35 [0])
        (35 - (Nat.digits base n.toNat).length) h0 (Nat.le_of_lt hk)
      rwa [hpos] at hloop
  rw [numberk, hnul]
  show (numDigits base k n.toNat ⟨put stk 35 [0], 35⟩ >>= _) = _
  rw [hfill]
  exact numCopy_spec k _ mem str ⟨at_put, numeral_zero_not_mem (by omega) hb16 _⟩ hk

end Copies

/-! ## The whole format -/

/-- The state of `vsprintfk` in front of a rest of the format: the memory is as at first but for
the buffer `[lo, hi)`, the rest stands at `f` outside the buffer, and there is room for `out`
and its `NUL` from `p` on. -/
structure Ready (mem : Nat → UInt8) (lo hi : Nat) (fmt out : List UInt8) (m : Nat → UInt8)
    (p f k : Nat) : Prop where
  same : ∀ a, a < lo ∨ hi ≤ a → m a = mem a
  text : StrAt mem f fmt
  apart : f + fmt.length < lo ∨ hi ≤ f
  start : lo ≤ p
  room : p + out.length < hi
  fuel : fmt.length + out.length < k

section Whole

variable {mem m stk : Nat → UInt8} {lo hi p f k : Nat} {fmt out s : List UInt8}

/-- The first two characters of the rest, as the loop reads them. -/
theorem Ready.two {b c : UInt8} (h : Ready mem lo hi (b :: c :: fmt) out m p f k) :
    m f = b ∧ m (f + 1) = c := by
  have hap := h.apart
  simp only [List.length_cons] at hap
  obtain ⟨hb, -, hrest⟩ := strAt_cons.mp h.text
  rw [h.same f (by omega), h.same (f + 1) (by omega)]
  exact ⟨hb, (strAt_cons.mp hrest).1⟩

/-- The inner loops have passes enough. -/
theorem Ready.short {b c : UInt8}
    (h : Ready mem lo hi (b :: c :: fmt) (s ++ out) m p f (k + 1)) : s.length < k := by
  have hfuel := h.fuel
  simp only [List.length_cons, List.length_append] at hfuel
  omega

/-- A piece of the output is written and `n` characters of the format are done. -/
theorem Ready.piece {pre : List UInt8} (h : Ready mem lo hi (pre ++ fmt) (s ++ out) m p f (k + 1))
    (hpre : pre ≠ []) :
    Ready mem lo hi fmt out (put m p s) (p + s.length) (f + pre.length) k := by
  have hap := h.apart
  have hroom := h.room
  have hfuel := h.fuel
  have hlo := h.start
  have hpos := List.length_pos_iff.mpr hpre
  rw [List.length_append] at hap hroom
  rw [List.length_append, List.length_append] at hfuel
  obtain ⟨hat, hnul⟩ := h.text
  rw [List.append_assoc] at hat
  refine ⟨fun a ha => ?_, ⟨(at_append.mp hat).2, fun h0 => hnul (List.mem_append_right _ h0)⟩,
    by omega, by omega, by omega, by omega⟩
  rw [put_out (by omega)]
  exact h.same a ha

/-- What the pieces make together. -/
theorem put_pieces : put (put m p s) (p + s.length) (out ++ [0]) = put m p (s ++ out ++ [0]) := by
  rw [put_append, List.append_assoc]

/-- **The loop over a rest of the format**, by what the format asks for next. -/
theorem vsprintfk_run {args : List UInt64} (h : Enough mem lo hi fmt args) :
    ∃ out, Formats mem fmt args out ∧ ∀ m p f k, Ready mem lo hi fmt out m p f k →
      vsprintfk stk k m p f args = .ok (put m p (out ++ [0])) := by
  induction h with
  | nil =>
      refine ⟨[], .nil, fun m p f k hr => ?_⟩
      obtain ⟨k, rfl⟩ : ∃ j, k = j + 1 := ⟨k - 1, by have := hr.fuel; omega⟩
      have hap := hr.apart
      rw [List.length_nil] at hap
      have h0 : m f = 0 := (hr.same f (by omega)).trans (strAt_nil hr.text)
      rw [vsprintfk, if_pos h0, List.nil_append, ← put_cons, put_nil]
  | @ordinary c fmt args hc hrest ih =>
      obtain ⟨out, hout, hrun⟩ := ih
      refine ⟨c :: out, .ordinary hc hout, fun m p f k hr => ?_⟩
      obtain ⟨k, rfl⟩ : ∃ j, k = j + 1 := ⟨k - 1, by have := hr.fuel; omega⟩
      have hap := hr.apart
      rw [List.length_cons] at hap
      obtain ⟨hmem, hc0, -⟩ := strAt_cons.mp hr.text
      have hread : m f = c := (hr.same f (by omega)).trans hmem
      have hnext := @Ready.piece mem m lo hi p f k fmt out [c] [c] hr (List.cons_ne_nil _ _)
      rw [vsprintfk, hread, if_neg hc0, if_pos hc, ← List.singleton_append, ← put_pieces,
        ← hrun _ _ _ _ hnext, ← put_cons, put_nil]
      rfl
  | @hex n fmt args hrest ih =>
      obtain ⟨out, hout, hrun⟩ := ih
      refine ⟨numeral 16 n.toNat ++ out,
        .hex (numeral_isNumeral (by decide) (by decide) _) hout, fun m p f k hr => ?_⟩
      obtain ⟨k, rfl⟩ : ∃ j, k = j + 1 := ⟨k - 1, by have := hr.fuel; omega⟩
      obtain ⟨hpct, hx⟩ := hr.two
      have hnext := @Ready.piece mem m lo hi p f k fmt out _ [37, 120] hr (List.cons_ne_nil _ _)
      rw [vsprintfk, hpct, hx, if_neg (by decide), if_neg (by decide), if_pos rfl, ← put_pieces,
        ← hrun _ _ _ _ hnext]
      simp only [vaArg, bind, Except.bind,
        numberk_spec (by decide : 10 ≤ 16) (by decide) stk k m p n hr.short]
      rfl
  | @dec n fmt args hrest ih =>
      obtain ⟨out, hout, hrun⟩ := ih
      refine ⟨numeral 10 n.toNat ++ out,
        .dec (numeral_isNumeral (by decide) (by decide) _) hout, fun m p f k hr => ?_⟩
      obtain ⟨k, rfl⟩ : ∃ j, k = j + 1 := ⟨k - 1, by have := hr.fuel; omega⟩
      obtain ⟨hpct, hd⟩ := hr.two
      have hnext := @Ready.piece mem m lo hi p f k fmt out _ [37, 100] hr (List.cons_ne_nil _ _)
      rw [vsprintfk, hpct, hd, if_neg (by decide), if_neg (by decide), if_neg (by decide),
        if_pos rfl, ← put_pieces, ← hrun _ _ _ _ hnext]
      simp only [vaArg, bind, Except.bind,
        numberk_spec (by decide : 10 ≤ 10) (by decide) stk k m p n hr.short]
      rfl
  | @str a fmt args s hs hapart hrest ih =>
      obtain ⟨out, hout, hrun⟩ := ih
      refine ⟨s ++ out, .str hs hout, fun m p f k hr => ?_⟩
      obtain ⟨k, rfl⟩ : ∃ j, k = j + 1 := ⟨k - 1, by have := hr.fuel; omega⟩
      have hroom := hr.room
      have hlo := hr.start
      rw [List.length_append] at hroom
      obtain ⟨hpct, hd⟩ := hr.two
      have hstr : StrAt m a.toNat s := hs.of_eq fun i hi => hr.same _ (by omega)
      have hnext := @Ready.piece mem m lo hi p f k fmt out s [37, 115] hr (List.cons_ne_nil _ _)
      rw [vsprintfk, hpct, hd, if_neg (by decide), if_neg (by decide), if_neg (by decide),
        if_neg (by decide), if_pos rfl, ← put_pieces, ← hrun _ _ _ _ hnext]
      simp only [vaArg, bind, Except.bind, strcopyk_spec k p a.toNat m hstr (by omega) hr.short]
      rfl
  | @other fmt args hc hrest ih =>
      obtain ⟨out, hout, hrun⟩ := ih
      refine ⟨out, .other hc hout, fun m p f k hr => ?_⟩
      obtain ⟨k, rfl⟩ : ∃ j, k = j + 1 := ⟨k - 1, by have := hr.fuel; omega⟩
      have hap := hr.apart
      rw [List.length_cons] at hap
      obtain ⟨hpct, -, hrest⟩ := strAt_cons.mp hr.text
      have hread : m f = 37 := (hr.same f (by omega)).trans hpct
      -- what stands behind the `%` is no directive, be it a character or the end
      have hnone : ¬ Directive (m (f + 1)) := by
        rw [hr.same (f + 1) (by omega)]
        cases fmt with
        | nil =>
            rw [strAt_nil hrest]
            simp [Directive]
        | cons c fmt =>
            rw [(strAt_cons.mp hrest).1]
            exact hc c rfl
      obtain ⟨hx, hd, hs⟩ : m (f + 1) ≠ 120 ∧ m (f + 1) ≠ 100 ∧ m (f + 1) ≠ 115 := by
        simpa [Directive] using hnone
      have hnext := @Ready.piece mem m lo hi p f k fmt out [] [37] hr (List.cons_ne_nil _ _)
      rw [vsprintfk, hread, if_neg (by decide), if_neg (by decide), if_neg hx, if_neg hd, if_neg hs]
      rw [put_nil] at hnext
      exact hrun _ _ _ _ hnext

end Whole

/-- **Formatting.**  With enough arguments, a format outside the buffer `[lo, hi)` stands for
some output, and if that fits into the buffer with its `NUL` the call ends and writes exactly
this and nothing else.  `numberk` never gets to the front of its own buffer. -/
theorem vsprintfk_formats (stk mem : Nat → UInt8) (lo hi f : Nat) (fmt : List UInt8)
    (args : List UInt64) (hfmt : StrAt mem f fmt) (hapart : f + fmt.length < lo ∨ hi ≤ f)
    (hargs : Enough mem lo hi fmt args) :
    (∃ out, Formats mem fmt args out ∧ (lo + out.length < hi →
      ∀ k, fmt.length + out.length < k →
        vsprintfk stk k mem lo f args = .ok (put mem lo (out ++ [0])))) ∧
    ∀ m str k (n : UInt64) base, base = 10 ∨ base = 16 → 20 < k →
      ∃ r, numberk stk k m str n base = .ok r := by
  constructor
  · obtain ⟨out, hout, hrun⟩ := @vsprintfk_run mem stk lo hi fmt args hargs
    exact ⟨out, hout, fun hroom k hk =>
      hrun mem lo f k ⟨fun _ _ => rfl, hfmt, hapart, Nat.le_refl _, hroom, hk⟩⟩
  · intro m str k n base hbase hk
    have hb : 10 ≤ base := by omega
    have hlen := length_numeral hb n
    exact ⟨_, numberk_spec hb (by omega) stk k m str n (by omega)⟩

/-- `"%d:%x%s%"` with 255 twice and the string `"ok"`. -/
theorem vsprintfk_formats_mixed :
    ∃ mem : Nat → UInt8, ∃ out, Formats mem [37, 100, 58, 37, 120, 37, 115, 37] [255, 255, 16] out ∧
      ∀ k, 8 + out.length < k → out.length < 100 →
        vsprintfk (fun _ => 0) k mem 100 0 [255, 255, 16] = .ok (put mem 100 (out ++ [0])) := by
  let bytes : List UInt8 := [37, 100, 58, 37, 120, 37, 115, 37, 0, 0, 0, 0, 0, 0, 0, 0, 111, 107]
  let mem : Nat → UInt8 := fun i => bytes.getD i 0
  have hfmt : StrAt mem 0 [37, 100, 58, 37, 120, 37, 115, 37] :=
    ⟨fun k hk => by revert k; decide, by decide⟩
  have hstr : StrAt mem (16 : UInt64).toNat [111, 107] :=
    ⟨fun k hk => by revert k; decide, by decide⟩
  have hargs : Enough mem 100 200 [37, 100, 58, 37, 120, 37, 115, 37] [255, 255, 16] :=
    .dec (.ordinary (by decide) (.hex (.str hstr (by decide) (.other (by simp) .nil))))
  obtain ⟨out, hout, hrun⟩ := (vsprintfk_formats (fun _ => 0) mem 100 200 0 _ _ hfmt (by decide)
    hargs).1
  exact ⟨mem, out, hout, fun k hk hroom => hrun (by omega) k hk⟩

end Cosmos.Hal
