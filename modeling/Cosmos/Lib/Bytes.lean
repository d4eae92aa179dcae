import Mathlib.Tactic.Ring

/-!
# Byte strings in an addressed store

A store is a function from addresses to bytes: a memory, or the bytes of a
file.  `At f a bs` says that the byte string `bs` stands at address `a`, and
`leVal` reads a little-endian number back.

## Main results

* `at_append`: a string stands at an address when its two halves stand one
  behind the other.
* `leVal_of_at`: the number that was written is the number that is read.
* `rd64s_of_words`: the words of a record are read back at their offsets.
-/

namespace Cosmos.Lib.Bytes

variable {f g : Nat → UInt8} {a b n w : Nat} {bs cs : List UInt8}

/-- The byte string `bs` stands at address `a`. -/
def At (f : Nat → UInt8) (a : Nat) (bs : List UInt8) : Prop :=
  ∀ k (h : k < bs.length), f (a + k) = bs[k]

theorem at_nil : At f a [] := fun k h => absurd h (Nat.not_lt_zero k)

/-- **Two strings one behind the other.** -/
theorem at_append : At f a (bs ++ cs) ↔ At f a bs ∧ At f (a + bs.length) cs := by
  constructor
  · intro h
    refine ⟨fun k hk => ?_, fun k hk => ?_⟩
    · rw [h k (by rw [List.length_append]; omega), List.getElem_append_left hk]
    · have hkey := h (bs.length + k) (by rw [List.length_append]; omega)
      rw [List.getElem_append_right (by omega)] at hkey
      simpa [Nat.add_assoc] using hkey
  · rintro ⟨h₁, h₂⟩ k hk
    rcases Nat.lt_or_ge k bs.length with hlt | hge
    · rw [h₁ k hlt, List.getElem_append_left hlt]
    · rw [List.getElem_append_right hge]
      have hkey := h₂ (k - bs.length) (by rw [List.length_append] at hk; omega)
      rwa [Nat.add_assoc, Nat.add_sub_cancel' hge] at hkey

theorem at_cons {x : UInt8} : At f a (x :: bs) ↔ f a = x ∧ At f (a + 1) bs := by
  rw [← List.singleton_append, at_append]
  constructor
  · rintro ⟨h₁, h₂⟩
    exact ⟨h₁ 0 (by simp), h₂⟩
  · rintro ⟨h₁, h₂⟩
    refine ⟨fun k hk => ?_, h₂⟩
    have hzero : k = 0 := by simpa using hk
    subst hzero
    exact h₁

/-- The same bytes at another address of another store. -/
theorem At.copy (h : At f a bs) (hfg : ∀ k < bs.length, g (b + k) = f (a + k)) : At g b bs :=
  fun k hk => (hfg k hk).trans (h k hk)

theorem At.take (h : At f a bs) (n : Nat) : At f a (bs.take n) := by
  rw [← List.take_append_drop n bs] at h
  exact (at_append.mp h).1

theorem At.drop (h : At f a bs) (hn : n ≤ bs.length) : At f (a + n) (bs.drop n) := by
  rw [← List.take_append_drop n bs] at h
  have hrest := (at_append.mp h).2
  rwa [List.length_take, Nat.min_eq_left hn] at hrest

/-- Two strings of the same length that stand at the same address. -/
theorem At.unique (hb : At f a bs) (hc : At f a cs) (hlen : bs.length = cs.length) : bs = cs :=
  List.ext_getElem hlen fun k hk hk' => (hb k hk).symm.trans (hc k hk')

/-! ## Little-endian numbers -/

/-- The low `n` bytes of a number, lowest first. -/
def leBytes : Nat → Nat → List UInt8
  | 0, _ => []
  | n + 1, w => UInt8.ofNat w :: leBytes n (w / 256)

/-- The number whose `n` bytes stand at `a`, lowest first. -/
def leVal (f : Nat → UInt8) (a : Nat) : Nat → Nat
  | 0 => 0
  | n + 1 => (f a).toNat + 256 * leVal f (a + 1) n

@[simp] theorem leBytes_length (n w : Nat) : (leBytes n w).length = n := by
  induction n generalizing w with
  | zero => rfl
  | succ n ih => simp [leBytes, ih]

/-- **What was written is what is read.** -/
theorem leVal_of_at (h : At f a (leBytes n w)) : leVal f a n = w % 256 ^ n := by
  induction n generalizing a w with
  | zero =>
      show 0 = w % 1
      rw [Nat.mod_one]
  | succ n ih =>
      obtain ⟨h₁, h₂⟩ := at_cons.mp h
      have hlow : (f a).toNat = w % 256 := by rw [h₁]; exact UInt8.toNat_ofNat'
      show (f a).toNat + 256 * leVal f (a + 1) n = w % 256 ^ (n + 1)
      rw [hlow, ih h₂, Nat.pow_succ, Nat.mul_comm (256 ^ n) 256, Nat.mod_mul]

theorem leVal_congr (h : ∀ k < n, g (b + k) = f (a + k)) : leVal g b n = leVal f a n := by
  induction n generalizing a b with
  | zero => rfl
  | succ n ih =>
      have hrest : leVal g (b + 1) n = leVal f (a + 1) n := ih fun k hk => by
        have hkey := h (k + 1) (by omega)
        rwa [Nat.add_comm k 1, ← Nat.add_assoc, ← Nat.add_assoc] at hkey
      have hfirst : g b = f a := h 0 (by omega)
      simp only [leVal, hrest, hfirst]

theorem leVal_lt (f : Nat → UInt8) (a n : Nat) : leVal f a n < 256 ^ n := by
  induction n generalizing a with
  | zero => exact Nat.one_pos
  | succ n ih =>
      have hbyte : (f a).toNat < 256 := (f a).toNat_lt
      have hrest := ih (a + 1)
      have hpow : (256 : Nat) ^ (n + 1) = 256 * 256 ^ n := by rw [Nat.pow_succ, Nat.mul_comm]
      show (f a).toNat + 256 * leVal f (a + 1) n < 256 ^ (n + 1)
      omega

/-! ## Records of 64-bit words -/

/-- The bytes of a 64-bit word. -/
def le64 (w : Nat) : List UInt8 := leBytes 8 w

/-- The 64-bit word at `a`. -/
def rd64 (f : Nat → UInt8) (a : Nat) : Nat := leVal f a 8

@[simp] theorem le64_length (w : Nat) : (le64 w).length = 8 := leBytes_length 8 w

/-- The bytes of the words, one behind the other. -/
def wordBytes (ws : List Nat) : List UInt8 := ws.flatMap le64

@[simp] theorem wordBytes_length (ws : List Nat) : (wordBytes ws).length = 8 * ws.length := by
  induction ws with
  | nil => rfl
  | cons w ws ih =>
      simp only [wordBytes, List.flatMap_cons, List.length_append, le64_length,
        List.length_cons] at ih ⊢
      omega

theorem rd64_of_at (h : At f a (le64 w)) (hw : w < 2 ^ 64) : rd64 f a = w :=
  (leVal_of_at h).trans (Nat.mod_eq_of_lt hw)

/-- **The words of a record are read back at their offsets.** -/
theorem rd64_of_words {ws : List Nat} (h : At f a (wordBytes ws)) (hws : ∀ w ∈ ws, w < 2 ^ 64)
    (i : Nat) (hi : i < ws.length) : rd64 f (a + 8 * i) = ws[i] := by
  induction ws generalizing a i with
  | nil => exact absurd hi (Nat.not_lt_zero i)
  | cons w ws ih =>
      obtain ⟨h₁, h₂⟩ := at_append.mp h
      rw [le64_length] at h₂
      cases i with
      | zero => exact rd64_of_at h₁ (hws w List.mem_cons_self)
      | succ i =>
          have hrest := ih h₂ (fun v hv => hws v (List.mem_cons_of_mem w hv)) i (by simpa using hi)
          rw [show a + 8 * (i + 1) = a + 8 + 8 * i by ring, hrest]
          rfl

/-- All words of a record. -/
theorem rd64s_of_words {ws : List Nat} (h : At f a (wordBytes ws)) (hws : ∀ w ∈ ws, w < 2 ^ 64) :
    (List.range ws.length).map (fun i => rd64 f (a + 8 * i)) = ws := by
  refine List.ext_getElem (by rw [List.length_map, List.length_range]) fun i hi hi' => ?_
  rw [List.getElem_map, List.getElem_range]
  exact rd64_of_words h hws i hi'

theorem rd64_congr (h : ∀ k < 8, g (b + k) = f (a + k)) : rd64 g b = rd64 f a := leVal_congr h

theorem rd64_lt (f : Nat → UInt8) (a : Nat) : rd64 f a < 2 ^ 64 := leVal_lt f a 8

/-! ## Writing -/

/-- The store with the byte string `bs` at `a`. -/
def put (f : Nat → UInt8) (a : Nat) (bs : List UInt8) : Nat → UInt8 := fun o =>
  if a ≤ o ∧ o < a + bs.length then bs.getD (o - a) 0 else f o

theorem at_put : At (put f a bs) a bs := by
  intro k hk
  unfold put
  rw [if_pos (by omega), Nat.add_sub_cancel_left, List.getD_eq_getElem?_getD,
    List.getElem?_eq_getElem hk, Option.getD_some]

theorem put_out {o : Nat} (h : o < a ∨ a + bs.length ≤ o) : put f a bs o = f o := by
  unfold put
  rw [if_neg (by omega)]

/-- A store that holds the string and is unchanged around it. -/
theorem eq_put (hat : At g a bs) (hout : ∀ o, o < a ∨ a + bs.length ≤ o → g o = f o) :
    g = put f a bs := by
  funext o
  rcases Nat.lt_or_ge o a with hlo | hlo
  · rw [hout o (.inl hlo), put_out (.inl hlo)]
  · rcases Nat.lt_or_ge o (a + bs.length) with hhi | hhi
    · obtain ⟨k, rfl⟩ := Nat.exists_eq_add_of_le hlo
      rw [hat k (by omega), at_put k (by omega)]
    · rw [hout o (.inr hhi), put_out (.inr hhi)]

theorem put_nil : put f a [] = f :=
  (eq_put at_nil fun _ _ => rfl).symm

/-- Two writes one behind the other. -/
theorem put_append : put (put f a bs) (a + bs.length) cs = put f a (bs ++ cs) := by
  refine eq_put (at_append.mpr ⟨fun k hk => ?_, at_put⟩) fun o ho => ?_
  · rw [put_out (.inl (by omega)), at_put k hk]
  · rw [List.length_append] at ho
    rw [put_out (by omega), put_out (by omega)]

/-- The same, the one behind first. -/
theorem put_before (hn : n = a + bs.length) : put (put f n cs) a bs = put f a (bs ++ cs) := by
  subst hn
  refine eq_put (at_append.mpr ⟨at_put, fun k hk => ?_⟩) fun o ho => ?_
  · rw [put_out (.inr (by omega)), at_put k hk]
  · rw [List.length_append] at ho
    rw [put_out (by omega), put_out (by omega)]

/-- A write byte by byte. -/
theorem put_cons {x : UInt8} : put (Function.update f a x) (a + 1) bs = put f a (x :: bs) := by
  have hone : Function.update f a x = put f a [x] := by
    refine eq_put (at_cons.mpr ⟨Function.update_self .., at_nil⟩) fun o ho => ?_
    rw [List.length_singleton] at ho
    exact Function.update_of_ne (by omega) ..
  rw [hone]
  exact put_append

/-- **The word that was written is read.** -/
theorem rd64_put (hw : w < 2 ^ 64) : rd64 (put f a (le64 w)) a = w :=
  rd64_of_at at_put hw

theorem rd64_put_out (h : b + 8 ≤ a ∨ a + bs.length ≤ b) : rd64 (put f a bs) b = rd64 f b :=
  rd64_congr fun k hk => put_out (by omega)

/-- Two words are the same exactly when their bytes are. -/
theorem rd64_eq_iff : rd64 g b = rd64 f a ↔ ∀ k < 8, g (b + k) = f (a + k) := by
  refine ⟨fun h => ?_, rd64_congr⟩
  have hgen : ∀ n a b, leVal g b n = leVal f a n → ∀ k < n, g (b + k) = f (a + k) := by
    intro n
    induction n with
    | zero => exact fun _ _ _ k hk => absurd hk (Nat.not_lt_zero k)
    | succ n ih =>
        intro a b h k hk
        change (g b).toNat + 256 * leVal g (b + 1) n = (f a).toNat + 256 * leVal f (a + 1) n at h
        have hg := (g b).toNat_lt
        have hf := (f a).toNat_lt
        cases k with
        | zero =>
            show g b = f a
            exact UInt8.toNat_inj.mp (by omega)
        | succ k =>
            have hrest := ih (a + 1) (b + 1) (by omega) k (by omega)
            rwa [Nat.add_assoc, Nat.add_assoc, Nat.add_comm 1 k] at hrest
  exact hgen 8 a b h

end Cosmos.Lib.Bytes
