import Cosmos.Drivers.Drvrfs

/-!
# Checking a path

`rfs_ret_fname` once more, byte by byte: which bytes of the path it reads and what it writes to
the buffer.  The scan tests for the end of the text only from its third byte on, so of the path
`"/"` it reads on behind the end.

## Main results

* `pathOk_iff`: the check does what is meant, but for this path.
-/

namespace Cosmos.Drivers

/-- The text at `p` has `len` bytes in front of its `NUL`. -/
structure IsText (p : Nat → UInt8) (len : Nat) : Prop where
  inner : ∀ i < len, p i ≠ 0
  last : p len = 0

/-- A read of the text; `none` behind its end. -/
def textRd (p : Nat → UInt8) (len i : Nat) : Option UInt8 := if i ≤ len then some (p i) else none

/-- The loop of `rfs_chkfilepath` from byte `i` on. -/
def chkfilepathRd (rd : Nat → Option UInt8) : Nat → Nat → Option Nat
  | 0, _ => some 4
  | n + 1, i => do
      let c ← rd i
      if c = slash then return 3
      else if drNmMax ≤ i then return 4
      else if c = 0 ∧ 1 < i then return 0
      else chkfilepathRd rd n (i + 1)

/-- The loop of `rfs_strcpy`, with the number of bytes it writes. -/
def strcpyRd (rd : Nat → Option UInt8) : Nat → Nat → (Nat → UInt8) → Option ((Nat → UInt8) × Nat)
  | 0, _, _ => none
  | n + 1, i, buf => do
      let c ← rd i
      if c ≠ 0 then strcpyRd rd n (i + 1) (Function.update buf i c)
      else return (Function.update buf i c, i + 1)

/-- `rfs_ret_fname` on the text at `p`: what it returns, the buffer and the number of bytes
written to it; `none` if it reads behind the end of the text. -/
def retFnameRd (p : Nat → UInt8) (len : Nat) (buf : Nat → UInt8) :
    Option (Nat × (Nat → UInt8) × Nat) := do
  let c ← textRd p len 0
  let stus ← if c ≠ slash then pure 2 else chkfilepathRd (textRd p len) drNmMax 1
  if stus ≠ 0 then return (stus, buf, 0)
  else
    let r ← strcpyRd (fun i => textRd p len (i + 1)) (len + 1) 0 buf
    return (0, r)

section Path

variable {p buf : Nat → UInt8} {len n i : Nat}

theorem textRd_of_le (h : i ≤ len) : textRd p len i = some (p i) := if_pos h

theorem textRd_of_lt (h : len < i) : textRd p len i = none := if_neg (Nat.not_le.mpr h)

/-- What the loop reads within the text is what `rfs_chkfilepath` reads. -/
theorem chkfilepathRd_some {r : Nat} (n i : Nat) (h : chkfilepathRd (textRd p len) n i = some r) :
    chkfilepathLoop p n i = r := by
  induction n generalizing i with
  | zero => exact Option.some.inj h
  | succ n ih =>
      rw [chkfilepathRd] at h
      rw [chkfilepathLoop]
      by_cases hi : i ≤ len
      · simp only [textRd_of_le hi, Option.bind_eq_bind, Option.bind_some] at h
        split at h
        · rename_i hs
          rw [if_pos hs]
          exact Option.some.inj h
        · rename_i hs
          rw [if_neg hs]
          split at h
          · rename_i hmax
            rw [if_pos hmax]
            exact Option.some.inj h
          · rename_i hmax
            rw [if_neg hmax]
            split at h
            · rename_i h0
              rw [if_pos h0]
              exact Option.some.inj h
            · rename_i h0
              rw [if_neg h0]
              exact ih (i + 1) h
      · rw [textRd_of_lt (Nat.lt_of_not_le hi)] at h
        cases h

/-- `rfs_ret_fname` returns what `rfs_chkfilepath` does. -/
theorem retFnameRd_stus {stus nr : Nat} {buf' : Nat → UInt8}
    (h : retFnameRd p len buf = some (stus, buf', nr)) : rfsChkfilepath p = stus := by
  rw [retFnameRd, textRd_of_le (Nat.zero_le len)] at h
  simp only [Option.bind_eq_bind, Option.bind_some] at h
  unfold rfsChkfilepath
  split at h
  · rename_i hs
    rw [if_pos hs]
    simp only [Option.pure_def, Option.bind_some] at h
    cases h
    rfl
  · rename_i hs
    rw [if_neg hs]
    cases hscan : chkfilepathRd (textRd p len) drNmMax 1 with
    | none =>
        rw [hscan] at h
        cases h
    | some r =>
        rw [chkfilepathRd_some drNmMax 1 hscan]
        rw [hscan, Option.bind_some] at h
        split at h
        · cases h
          rfl
        · rename_i hr
          cases hcopy : strcpyRd (fun i => textRd p len (i + 1)) (len + 1) 0 buf with
          | none =>
              rw [hcopy] at h
              cases h
          | some q =>
              rw [hcopy] at h
              cases h
              exact not_not.mp hr

/-- A name that the scan lets pass: not too long and without `'/'`. -/
def NameFrom (p : Nat → UInt8) (len i : Nat) : Prop :=
  len < drNmMax ∧ ∀ j, i ≤ j → j < len → p j ≠ slash

/-- **The scan** of a text of at least two bytes stays inside it. -/
theorem chkfilepathRd_spec (h : IsText p len) (h2 : 2 ≤ len) (n i : Nat) (hi : 1 ≤ i)
    (hlen : i ≤ len) (hn : n = drNmMax + 1 - i) :
    ∃ r, chkfilepathRd (textRd p len) n i = some r ∧ (r = 0 ↔ NameFrom p len i) := by
  have hmaxeq : drNmMax = 104 := rfl
  induction n generalizing i with
  | zero => exact ⟨4, rfl, iff_of_false (by decide) fun hname => by have := hname.1; omega⟩
  | succ n ih =>
      rw [chkfilepathRd]
      simp only [textRd_of_le hlen, Option.bind_eq_bind, Option.bind_some]
      by_cases hs : p i = slash
      · rw [if_pos hs]
        have hne : i ≠ len := by
          rintro rfl
          rw [h.last] at hs
          cases hs
        exact ⟨3, rfl, iff_of_false (by decide) fun hname =>
          hname.2 i (Nat.le_refl i) (by omega) hs⟩
      rw [if_neg hs]
      by_cases hmax : drNmMax ≤ i
      · rw [if_pos hmax]
        exact ⟨4, rfl, iff_of_false (by decide) fun hname => by have := hname.1; omega⟩
      rw [if_neg hmax]
      rcases Nat.lt_or_eq_of_le hlen with hlt | rfl
      · rw [if_neg fun hand => h.inner i hlt hand.1]
        obtain ⟨r, hr, hiff⟩ := ih (i + 1) (by omega) hlt (by omega)
        refine ⟨r, hr, hiff.trans (and_congr_right fun _ => ?_)⟩
        constructor
        · intro hrest j h1 h3
          rcases Nat.lt_or_eq_of_le h1 with hj | rfl
          · exact hrest j hj h3
          · exact hs
        · exact fun hrest j h1 h3 => hrest j (by omega) h3
      · rw [if_pos ⟨h.last, h2⟩]
        exact ⟨0, rfl, iff_of_true rfl ⟨by omega, fun j h1 h3 => absurd h3 (by omega)⟩⟩

/-- In the path `"/"` the scan goes on behind the end. -/
theorem chkfilepathRd_one (h : IsText p 1) (n : Nat) :
    chkfilepathRd (textRd p 1) (n + 1 + 1) 1 = none := by
  have h1 : textRd p 1 1 = some 0 := by
    rw [textRd_of_le (Nat.le_refl 1), h.last]
  have h2 : textRd p 1 (1 + 1) = none := textRd_of_lt (by omega)
  rw [chkfilepathRd, h1]
  simp only [Option.bind_eq_bind, Option.bind_some]
  rw [if_neg (by decide), if_neg (by decide), if_neg (by decide), chkfilepathRd, h2]
  rfl

/-- **The copy** of the text behind the `'/'`. -/
theorem strcpyRd_spec (h : IsText p len) (n i : Nat) (buf : Nat → UInt8) (hi : i + 1 ≤ len)
    (hn : len ≤ i + n) : ∃ buf', strcpyRd (fun j => textRd p len (j + 1)) n i buf =
      some (buf', len) ∧ ∀ j, buf' j = if i ≤ j ∧ j < len then p (j + 1) else buf j := by
  induction n generalizing i buf with
  | zero => exact absurd hn (by omega)
  | succ n ih =>
      rw [strcpyRd]
      simp only [textRd_of_le hi, Option.bind_eq_bind, Option.bind_some]
      rcases Nat.lt_or_eq_of_le hi with hlt | heq
      · rw [if_pos (h.inner _ hlt)]
        obtain ⟨buf', hrun, hbuf⟩ := ih (i + 1) (Function.update buf i (p (i + 1))) hlt (by omega)
        refine ⟨buf', hrun, fun j => ?_⟩
        rw [hbuf]
        by_cases hj : j = i
        · subst hj
          rw [if_neg (by omega), if_pos (by omega), Function.update_self]
        · rw [Function.update_of_ne hj]
          exact if_congr (by omega) rfl rfl
      · have h0 : p (i + 1) = 0 := heq ▸ h.last
        rw [if_neg (not_not.mpr h0)]
        refine ⟨_, congrArg (fun k => some (_, k)) heq, fun j => ?_⟩
        by_cases hj : j = i
        · subst hj
          rw [Function.update_self, if_pos (by omega)]
        · rw [Function.update_of_ne hj, if_neg (by omega)]

/-! ## The contract -/

/-- `'/'` and a name of 1 to `DR_NM_MAX - 2` bytes without a `'/'`. -/
def IsPath (p : Nat → UInt8) (len : Nat) : Prop :=
  p 0 = slash ∧ 2 ≤ len ∧ len - 1 ≤ drNmMax - 2 ∧ ∀ i, 1 ≤ i → i < len → p i ≠ slash

/-- Nothing is read behind the end of the text, at most `DR_NM_MAX` bytes are written, and 0 is
returned exactly for such a path; the buffer then holds the name and a `NUL`. -/
def PathOk (p : Nat → UInt8) (len : Nat) (buf : Nat → UInt8) : Prop :=
  ∃ stus buf' nr, retFnameRd p len buf = some (stus, buf', nr) ∧ nr ≤ drNmMax ∧
    (∀ i, nr ≤ i → buf' i = buf i) ∧ (stus = 0 ↔ IsPath p len) ∧
    (stus = 0 → (∀ i < len - 1, buf' i = p (i + 1)) ∧ buf' (len - 1) = 0)

/-- **The check of a path** is right, unless the path is `"/"`. -/
theorem pathOk_iff (h : IsText p len) : PathOk p len buf ↔ ¬ (len = 1 ∧ p 0 = slash) := by
  have hmaxeq : drNmMax = 104 := rfl
  by_cases hs : p 0 = slash
  · have hpos : 1 ≤ len := by
      by_contra hno
      obtain rfl : len = 0 := by omega
      rw [h.last] at hs
      cases hs
    rw [and_iff_left hs]
    by_cases hone : len = 1
    · -- the byte behind the end is read
      refine iff_of_false ?_ fun hno => hno hone
      rintro ⟨stus, buf', nr, hrun, -⟩
      subst hone
      have hread : chkfilepathRd (textRd p 1) drNmMax 1 = none := chkfilepathRd_one h 102
      rw [retFnameRd, textRd_of_le (Nat.zero_le 1)] at hrun
      simp only [Option.bind_eq_bind, Option.bind_some, ne_eq, hs, not_true_eq_false, if_false,
        hread, Option.bind_none, reduceCtorEq] at hrun
    · refine iff_of_true ?_ hone
      obtain ⟨r, hscan, hiff⟩ := chkfilepathRd_spec h (by omega) drNmMax 1 (Nat.le_refl 1) hpos
        (by omega)
      have hname : r = 0 ↔ IsPath p len := by
        rw [hiff]
        constructor
        · rintro ⟨h1, h2⟩
          exact ⟨hs, by omega, by omega, h2⟩
        · rintro ⟨-, -, h1, h2⟩
          exact ⟨by omega, h2⟩
      have hrun : retFnameRd p len buf = if r ≠ 0 then some (r, buf, 0) else
          (strcpyRd (fun i => textRd p len (i + 1)) (len + 1) 0 buf).map fun q => (0, q) := by
        rw [retFnameRd, textRd_of_le (Nat.zero_le len)]
        simp only [Option.bind_eq_bind, Option.bind_some, ne_eq, hs, not_true_eq_false, if_false,
          hscan]
        split
        · rfl
        · cases strcpyRd (fun i => textRd p len (i + 1)) (len + 1) 0 buf <;> rfl
      by_cases hr : r = 0
      · obtain ⟨buf', hcopy, hbuf⟩ := strcpyRd_spec h (len + 1) 0 buf hpos (by omega)
        rw [if_neg (not_not.mpr hr), hcopy] at hrun
        have hlen := (hname.mp hr).2.2.1
        refine ⟨0, buf', len, hrun, by omega, fun i hi => ?_, iff_of_true rfl (hname.mp hr),
          fun _ => ⟨fun i hi => ?_, ?_⟩⟩
        · rw [hbuf, if_neg (by omega)]
        · rw [hbuf, if_pos (by omega)]
        · have hlast : len - 1 + 1 = len := by omega
          rw [hbuf, if_pos (by omega), hlast, h.last]
      · rw [if_pos hr] at hrun
        exact ⟨r, buf, 0, hrun, Nat.zero_le _, fun _ _ => rfl,
          iff_of_false hr fun hpath => hr (hname.mpr hpath), fun h0 => absurd h0 hr⟩
  · refine iff_of_true ⟨2, buf, 0, ?_, Nat.zero_le _, fun _ _ => rfl,
      iff_of_false (by decide) fun hpath => hs hpath.1, fun h0 => by cases h0⟩ fun hno => hs hno.2
    rw [retFnameRd, textRd_of_le (Nat.zero_le len)]
    simp only [Option.bind_eq_bind, Option.bind_some, ne_eq, hs, not_false_eq_true, if_true]
    rfl

/-- The path `"/a"` is accepted. -/
theorem pathOk_a : PathOk (fun i => [47, 97].getD i 0) 2 fun _ => 0 :=
  (pathOk_iff ⟨by decide, by decide⟩).mpr (by decide)

/-- **The path `"/"`**: the byte behind its end is read. -/
theorem pathOk_not : IsText (fun i => [47].getD i 0) 1 ∧
    retFnameRd (fun i => [47].getD i 0) 1 (fun _ => 0) = none ∧
    ¬ PathOk (fun i => [47].getD i 0) 1 fun _ => 0 := by
  have hnone : (retFnameRd (fun i => [47].getD i 0) 1 fun _ => 0).isNone = true := by decide
  rw [Option.isNone_iff_eq_none] at hnone
  refine ⟨⟨by decide, by decide⟩, hnone, ?_⟩
  rintro ⟨stus, buf', nr, hrun, -⟩
  rw [hnone] at hrun
  cases hrun

end Path

end Cosmos.Drivers
