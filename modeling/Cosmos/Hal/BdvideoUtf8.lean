import Cosmos.Hal.Bdvideo

/-!
# Decoding a text

What the loop of `gstr_write` does with the bytes of a text.  The decoder looks at the first
byte of a form only and takes as many bytes as it asks for, and for a byte that leads no form
it stores the width 0, so the loop stays where it is.

## Main results

* `gstrWrite_safe_iff`: the loop ends and reads nothing behind the text exactly on the texts
  that are cut into whole forms and are short enough for the `int` index.
* `gstrWrite_decodes`: on UTF-8 the loop draws exactly the characters that were encoded.
-/

namespace Cosmos.Hal

/-! ## The width of a form -/

/-- Number of bytes of the form that this byte leads; 0 if it leads none. -/
def leadLen (b : UInt8) : Nat :=
  if b < 0x80 then 1
  else if b < 0xc0 then 0
  else if b < 0xe0 then 2
  else if b < 0xf0 then 3
  else if b < 0xf8 then 4
  else if b < 0xfc then 5
  else if b < 0xfe then 6
  else 0

/-- From byte `i` on the text is cut into whole forms. -/
inductive Units (t : Text) : Nat → Prop
  | nil : Units t t.len
  | cons {i : Nat} (hpos : 0 < leadLen (t.byte i)) (hle : i + leadLen (t.byte i) ≤ t.len)
      (hrest : Units t (i + leadLen (t.byte i))) : Units t i

section Width

variable {t : Text} {i : Nat}

theorem Text.rd_ok (h : i ≤ t.len) : t.rd i = .ok (t.byte i) := if_pos h

theorem Text.rd_behind (h : t.len < i) : t.rd i = .error .behind := if_neg (Nat.not_le.mpr h)

/-- The rest of a form can be read if it lies within the text and its `NUL`. -/
theorem utfRest_ok (n k : Nat) (uc : UInt32) (h : i + k + n ≤ t.len + 1) :
    ∃ uc', utfRest (fun k => t.rd (i + k)) n k uc = .ok uc' := by
  induction n generalizing k uc with
  | zero => exact ⟨uc, rfl⟩
  | succ n ih =>
      obtain ⟨uc', h'⟩ := ih (k + 1) (utfByt uc (t.byte (i + k))) (by omega)
      refine ⟨uc', ?_⟩
      rw [utfRest, Text.rd_ok (by omega)]
      exact h'

/-- A longer one runs behind the end. -/
theorem utfRest_behind (n k : Nat) (uc : UInt32) (hk : i + k ≤ t.len + 1)
    (h : t.len + 1 < i + k + n) :
    utfRest (fun k => t.rd (i + k)) n k uc = .error .behind := by
  induction n generalizing k uc with
  | zero => omega
  | succ n ih =>
      rw [utfRest]
      rcases Nat.lt_or_ge t.len (i + k) with hb | hin
      · rw [Text.rd_behind hb]
        rfl
      · rw [Text.rd_ok hin]
        exact ih (k + 1) _ (by omega) (by omega)

/-- Behind its first byte the decoder is one form of the width that this byte asks for. -/
theorem utf8ToUnicode_form {rd : Nat → Except VideoStop UInt8} {b : UInt8} (h : rd 0 = .ok b) :
    ∃ m, utf8ToUnicode rd = if leadLen b = 0 then .ok (0, 0) else utfForm rd m (leadLen b - 1) := by
  have hb := b.toNat_lt
  rw [utf8ToUnicode, h]
  show ∃ m, (if b < 0x80 then _ else _) = _
  unfold leadLen
  simp only [UInt8.lt_iff_toNat_lt, UInt8.le_iff_toNat_le, UInt8.reduceToNat]
  -- the ranges of the two chains, one by one
  obtain h | h | h | h | h | h | h | h : b.toNat < 128 ∨ (128 ≤ b.toNat ∧ b.toNat < 192) ∨
      (192 ≤ b.toNat ∧ b.toNat < 224) ∨ (224 ≤ b.toNat ∧ b.toNat < 240) ∨
      (240 ≤ b.toNat ∧ b.toNat < 248) ∨ (248 ≤ b.toNat ∧ b.toNat < 252) ∨
      (252 ≤ b.toNat ∧ b.toNat < 254) ∨ 254 ≤ b.toNat := by omega
  all_goals
    simp (disch := omega) only [if_pos, if_neg]
    first
      | exact ⟨_, rfl⟩
      | exact ⟨0, rfl⟩

/-- The decoder by the width of the form: none, one that is within the text, or one that
runs behind its `NUL`. -/
theorem utf8ToUnicode_cases (hi : i ≤ t.len) :
    leadLen (t.byte i) = 0 ∧ utf8ToUnicode (fun k => t.rd (i + k)) = .ok (0, 0) ∨
      0 < leadLen (t.byte i) ∧ i + leadLen (t.byte i) ≤ t.len + 1 ∧
        (∃ uc, utf8ToUnicode (fun k => t.rd (i + k)) = .ok (uc, leadLen (t.byte i))) ∨
      t.len + 1 < i + leadLen (t.byte i) ∧
        utf8ToUnicode (fun k => t.rd (i + k)) = .error .behind := by
  have hread : (fun k => t.rd (i + k)) 0 = .ok (t.byte i) := Text.rd_ok hi
  obtain ⟨m, hm⟩ := @utf8ToUnicode_form (fun k => t.rd (i + k)) _ hread
  rw [hm]
  rcases Nat.eq_zero_or_pos (leadLen (t.byte i)) with h0 | hpos
  · exact .inl ⟨h0, if_pos h0⟩
  · obtain ⟨n, hn⟩ : ∃ n, leadLen (t.byte i) = n + 1 := ⟨_, (Nat.sub_add_cancel hpos).symm⟩
    rw [if_neg (Nat.ne_of_gt hpos), hn, Nat.add_sub_cancel, utfForm]
    rcases Nat.lt_or_ge (t.len + 1) (i + (n + 1)) with hb | hin
    · refine .inr (.inr ⟨hb, ?_⟩)
      rw [utfRest_behind n 1 _ (by omega) (by omega)]
      rfl
    · obtain ⟨uc, huc⟩ := utfRest_ok (t := t) (i := i) n 1 m.toUInt32 (by omega)
      refine .inr (.inl ⟨Nat.succ_pos n, hin, uc, ?_⟩)
      rw [huc]
      rfl

end Width

/-! ## When the loop is safe -/

section Safe

variable {σ : Type} {t : Text} {i n : Nat} {s : σ} {f : σ → UInt32 → σ}

/-- The loop with a drawing routine that always returns. -/
abbrev writeWith (t : Text) (f : σ → UInt32 → σ) : Nat → Nat → σ → Except VideoStop σ :=
  gstrWriteLoop t.rd fun s uc => .ok (f s uc)

theorem writeWith_nul : writeWith t f (n + 1) t.len s = .ok s := by
  rw [writeWith, gstrWriteLoop, Text.rd_ok (Nat.le_refl _), t.last]
  rfl

/-- One pass over a form of width `w`. -/
theorem writeWith_form {uc : UInt32} {w : Nat} (hi : i < t.len)
    (h : utf8ToUnicode (fun k => t.rd (i + k)) = .ok (uc, w)) :
    writeWith t f (n + 1) i s =
      if intMax < i + w then .error .overflow else writeWith t f n (i + w) (f s uc) := by
  rw [writeWith, gstrWriteLoop, Text.rd_ok (Nat.le_of_lt hi), h]
  show (if t.byte i = 0 then _ else _) = _
  rw [if_neg (t.inner i hi)]
  rfl

/-- On a byte that leads no form the loop stays. -/
theorem writeWith_stays (hi : i < t.len) (hmax : i ≤ intMax) (h0 : leadLen (t.byte i) = 0)
    (n : Nat) (s : σ) : writeWith t f n i s = .error .endless := by
  have hdec : utf8ToUnicode (fun k => t.rd (i + k)) = .ok (0, 0) := by
    rcases utf8ToUnicode_cases (Nat.le_of_lt hi) with ⟨_, h⟩ | ⟨h, _⟩ | ⟨h, _⟩
    · exact h
    · omega
    · omega
  induction n generalizing s with
  | zero => rfl
  | succ n ih =>
      rw [writeWith_form hi hdec, if_neg (by omega)]
      exact ih _

/-- A form that runs behind the `NUL`. -/
theorem writeWith_cut (hi : i < t.len) (h : t.len + 1 < i + leadLen (t.byte i)) :
    writeWith t f (n + 1) i s = .error .behind := by
  have hdec : utf8ToUnicode (fun k => t.rd (i + k)) = .error .behind := by
    rcases utf8ToUnicode_cases (Nat.le_of_lt hi) with ⟨h0, _⟩ | ⟨_, hin, _⟩ | ⟨_, h⟩
    · omega
    · omega
    · exact h
  rw [writeWith, gstrWriteLoop, Text.rd_ok (Nat.le_of_lt hi), hdec]
  show (if t.byte i = 0 then _ else _) = _
  rw [if_neg (t.inner i hi)]
  rfl

/-- Behind the `NUL` the loop reads on. -/
theorem writeWith_behind (hi : t.len < i) (r : σ) : writeWith t f n i s ≠ .ok r := by
  cases n with
  | zero => exact fun h => nomatch h
  | succ n =>
      rw [writeWith, gstrWriteLoop, Text.rd_behind hi]
      exact fun h => nomatch h

/-- A loop that ends has gone over whole forms. -/
theorem units_of_writeWith {r : σ} (n : Nat) (hi : i ≤ t.len) (hmax : i ≤ intMax)
    (h : writeWith t f n i s = .ok r) : Units t i ∧ t.len ≤ intMax := by
  induction n generalizing i s with
  | zero => exact nomatch h
  | succ n ih =>
      rcases Nat.lt_or_eq_of_le hi with hlt | rfl
      · rcases utf8ToUnicode_cases hi with ⟨h0, _⟩ | ⟨hpos, hle, uc, huc⟩ | ⟨hbehind, _⟩
        · rw [writeWith_stays hlt hmax h0] at h
          exact nomatch h
        · rw [writeWith_form hlt huc] at h
          split at h
          · exact nomatch h
          · rename_i hint
            rcases Nat.lt_or_ge t.len (i + leadLen (t.byte i)) with hb | hin
            · exact absurd h (writeWith_behind hb r)
            · obtain ⟨hunits, hlen⟩ := ih hin (Nat.le_of_not_lt hint) h
              exact ⟨.cons hpos hin hunits, hlen⟩
        · rw [writeWith_cut hlt hbehind] at h
          exact nomatch h
      · exact ⟨.nil, hmax⟩

/-- Over whole forms the loop ends, with a pass for each byte at the most. -/
theorem writeWith_of_units (hlen : t.len ≤ intMax) (h : Units t i) (n : Nat)
    (hn : t.len - i < n) (s : σ) : ∃ r, writeWith t f n i s = .ok r := by
  induction h generalizing n s with
  | nil =>
      cases n with
      | zero => omega
      | succ n => exact ⟨s, writeWith_nul⟩
  | @cons i hpos hle hrest ih =>
      cases n with
      | zero => omega
      | succ n =>
          rcases utf8ToUnicode_cases (t := t) (i := i) (by omega) with
            ⟨h0, _⟩ | ⟨_, _, uc, huc⟩ | ⟨hbehind, _⟩
          · omega
          · obtain ⟨r, hr⟩ := ih n (by omega) (f s uc)
            refine ⟨r, ?_⟩
            rw [writeWith_form (by omega) huc, if_neg (by omega)]
            exact hr
          · omega

end Safe

/-- **When printing a text is safe.**  The loop ends, and reads nothing behind the `NUL`, exactly
if the text is cut into whole forms and its length is an `int`. -/
theorem gstrWrite_safe_iff {σ : Type} (t : Text) (f : σ → UInt32 → σ) (s : σ) :
    (∃ n r, writeWith t f n 0 s = .ok r) ↔ Units t 0 ∧ t.len ≤ intMax := by
  constructor
  · rintro ⟨n, r, h⟩
    exact units_of_writeWith n (Nat.zero_le _) (Nat.zero_le _) h
  · rintro ⟨hunits, hlen⟩
    obtain ⟨r, hr⟩ := writeWith_of_units hlen hunits (t.len + 1) (by omega) s
    exact ⟨_, r, hr⟩

/-- The text of these bytes. -/
def Text.ofBytes (bs : List UInt8) (h : 0 ∉ bs) : Text where
  byte i := bs.getD i 0
  len := bs.length
  inner i hi := by
    rw [List.getD_eq_getElem?_getD, List.getElem?_eq_getElem hi]
    exact fun h0 => h (h0 ▸ List.getElem_mem hi)
  last := by
    rw [List.getD_eq_getElem?_getD, List.getElem?_eq_none (Nat.le_refl _)]
    rfl

/-- On the byte `0x80` the loop never ends, and on the first byte of a character of three
bytes it reads behind the text. -/
theorem gstrWrite_unsafe :
    (∀ n, writeWith (Text.ofBytes [0x80] (by decide)) (fun s _ => s) n 0 () = .error .endless) ∧
      ∀ n, writeWith (Text.ofBytes [0xe4] (by decide)) (fun s _ => s) (n + 1) 0 () =
        .error .behind := by
  constructor
  · intro n
    exact writeWith_stays (by decide) (by decide) (by decide) n ()
  · intro n
    exact writeWith_cut (by decide) (by decide)

/-! ## UTF-8 -/

section Decode

variable {uc : UInt32} {b : UInt8}

theorem toNat_utfByt (h : uc.toNat < 2 ^ 26) :
    (utfByt uc b).toNat = uc.toNat * 64 + b.toNat % 64 := by
  have hand : (b &&& 0x3f).toUInt32.toNat = b.toNat % 64 := by
    show b.toNat &&& 2 ^ 6 - 1 = b.toNat % 2 ^ 6
    exact Nat.and_two_pow_sub_one_eq_mod _ 6
  have hshift : (uc <<< 6).toNat = 2 ^ 6 * uc.toNat := by
    rw [UInt32.toNat_shiftLeft]
    show uc.toNat <<< 6 % 2 ^ 32 = _
    rw [Nat.shiftLeft_eq, Nat.mul_comm, Nat.mod_eq_of_lt (by omega)]
  rw [utfByt, UInt32.toNat_or, hshift, hand, ← Nat.two_pow_add_eq_or_of_lt (by omega)]
  omega

/-- The bits of the first byte. -/
theorem toNat_lead (m : UInt8) (k : Nat) (hm : m.toNat = 2 ^ k - 1) :
    (b &&& m).toUInt32.toNat = b.toNat % 2 ^ k := by
  show b.toNat &&& m.toNat = _
  rw [hm]
  exact Nat.and_two_pow_sub_one_eq_mod _ k

/-- A form whose bytes are `bs` behind the first. -/
theorem utfForm_bytes {rd : Nat → Except VideoStop UInt8} (m : UInt8) (bs : List UInt8)
    (h : ∀ j b, bs[j]? = some b → rd (j + 1) = .ok b) :
    utfForm rd m bs.length = .ok (bs.foldl utfByt m.toUInt32, bs.length + 1) := by
  have rest : ∀ (bs : List UInt8) (k : Nat) (uc : UInt32),
      (∀ j b, bs[j]? = some b → rd (j + k) = .ok b) →
        utfRest rd bs.length k uc = .ok (bs.foldl utfByt uc) := by
    intro bs
    induction bs with
    | nil => exact fun _ _ _ => rfl
    | cons b bs ih =>
        intro k uc hbs
        have hb : rd k = .ok b := by simpa using hbs 0 b rfl
        rw [List.length_cons, utfRest, hb]
        apply ih (k + 1) _
        intro j b' hj
        rw [← Nat.add_assoc, Nat.add_right_comm]
        exact hbs (j + 1) b' hj
  rw [utfForm, rest bs 1 _ h]
  rfl

/-- The forms that UTF-8 uses, by their first byte. -/
theorem utf8ToUnicode_lead {rd : Nat → Except VideoStop UInt8} (h : rd 0 = .ok b) :
    (b.toNat < 128 → utf8ToUnicode rd = utfForm rd (b &&& 0x7f) 0) ∧
    (192 ≤ b.toNat ∧ b.toNat < 224 → utf8ToUnicode rd = utfForm rd (b &&& 0x1f) 1) ∧
    (224 ≤ b.toNat ∧ b.toNat < 240 → utf8ToUnicode rd = utfForm rd (b &&& 0x0f) 2) ∧
    (240 ≤ b.toNat ∧ b.toNat < 248 → utf8ToUnicode rd = utfForm rd (b &&& 0x7) 3) := by
  rw [utf8ToUnicode, h]
  simp only [bind, Except.bind, UInt8.lt_iff_toNat_lt, UInt8.le_iff_toNat_le, UInt8.reduceToNat]
  refine ⟨fun hb => ?_, fun hb => ?_, fun hb => ?_, fun hb => ?_⟩
  all_goals simp (disch := omega) only [if_pos, if_neg]

/-- The decoder reads what the encoder wrote, and takes as many bytes. -/
theorem utf8ToUnicode_encode {rd : Nat → Except VideoStop UInt8} {c : Char}
    (h : ∀ k b, (String.utf8EncodeChar c)[k]? = some b → rd k = .ok b) :
    utf8ToUnicode rd = .ok (c.val, (String.utf8EncodeChar c).length) := by
  have hmax : c.val.toNat < 0x110000 := by
    rcases c.valid with hc | hc <;> omega
  have toNat_ofNat : ∀ {n : Nat}, n < 256 → (UInt8.ofNat n).toNat = n := fun hn =>
    Nat.mod_eq_of_lt hn
  -- the first byte picks the form, the others are its rest
  have decode : ∀ {b m : UInt8} {bs : List UInt8} (k : Nat), String.utf8EncodeChar c = b :: bs →
      utf8ToUnicode rd = utfForm rd (b &&& m) bs.length → m.toNat = 2 ^ k - 1 →
      (∀ uc : UInt32, uc.toNat = b.toNat % 2 ^ k →
        (bs.foldl utfByt uc).toNat = c.val.toNat) →
      utf8ToUnicode rd = .ok (c.val, (String.utf8EncodeChar c).length) := by
    intro b m bs k henc hdec hm hval
    rw [hdec, henc, utfForm_bytes _ bs fun j b' hj => h (j + 1) b' (by rw [henc]; exact hj)]
    have heq : bs.foldl utfByt (b &&& m).toUInt32 = c.val :=
      UInt32.toNat_inj.mp (hval _ (toNat_lead m k hm))
    rw [heq]
    rfl
  generalize hv : c.val.toNat = v at hmax decode
  have henc : String.utf8EncodeChar c =
      if v ≤ 0x7f then [UInt8.ofNat v]
      else if v ≤ 0x7ff then [UInt8.ofNat (v / 64 % 32 + 192), UInt8.ofNat (v % 64 + 128)]
      else if v ≤ 0xffff then
        [UInt8.ofNat (v / 4096 % 16 + 224), UInt8.ofNat (v / 64 % 64 + 128),
          UInt8.ofNat (v % 64 + 128)]
      else
        [UInt8.ofNat (v / 262144 % 8 + 240), UInt8.ofNat (v / 4096 % 64 + 128),
          UInt8.ofNat (v / 64 % 64 + 128), UInt8.ofNat (v % 64 + 128)] := by
    rw [← hv]
    rfl
  have lead := fun b bs (hb : String.utf8EncodeChar c = b :: bs) =>
    utf8ToUnicode_lead (h 0 b (by rw [hb]; rfl))
  split at henc
  · refine decode 7 henc ((lead _ _ henc).1 ?_) rfl fun uc huc => ?_
    · rw [toNat_ofNat (by omega)]
      omega
    · rw [toNat_ofNat (by omega)] at huc
      show uc.toNat = v
      omega
  · split at henc
    · refine decode 5 henc ((lead _ _ henc).2.1 ?_) rfl fun uc huc => ?_
      · rw [toNat_ofNat (by omega)]
        omega
      · rw [toNat_ofNat (by omega)] at huc
        show (utfByt uc _).toNat = v
        rw [toNat_utfByt (by omega), toNat_ofNat (by omega)]
        omega
    · split at henc
      · refine decode 4 henc ((lead _ _ henc).2.2.1 ?_) rfl fun uc huc => ?_
        · rw [toNat_ofNat (by omega)]
          omega
        · rw [toNat_ofNat (by omega)] at huc
          have e1 : (utfByt uc (UInt8.ofNat (v / 64 % 64 + 128))).toNat = v / 64 := by
            rw [toNat_utfByt (by omega), toNat_ofNat (by omega)]
            omega
          show (utfByt (utfByt uc _) _).toNat = v
          rw [toNat_utfByt (by omega), e1, toNat_ofNat (by omega)]
          omega
      · refine decode 3 henc ((lead _ _ henc).2.2.2 ?_) rfl fun uc huc => ?_
        · rw [toNat_ofNat (by omega)]
          omega
        · rw [toNat_ofNat (by omega)] at huc
          have e1 : (utfByt uc (UInt8.ofNat (v / 4096 % 64 + 128))).toNat = v / 4096 := by
            rw [toNat_utfByt (by omega), toNat_ofNat (by omega)]
            omega
          have e2 : (utfByt (utfByt uc (UInt8.ofNat (v / 4096 % 64 + 128)))
              (UInt8.ofNat (v / 64 % 64 + 128))).toNat = v / 64 := by
            rw [toNat_utfByt (by omega), e1, toNat_ofNat (by omega)]
            omega
          show (utfByt (utfByt (utfByt uc _) _) _).toNat = v
          rw [toNat_utfByt (by omega), e2, toNat_ofNat (by omega)]
          omega

end Decode

/-- The bytes of a text. -/
def Text.bytes (t : Text) : List UInt8 := (List.range t.len).map t.byte

/-- UTF-8 of a list of characters. -/
def encode (cs : List Char) : List UInt8 := cs.flatMap String.utf8EncodeChar

theorem length_le_encode (cs : List Char) : cs.length ≤ (encode cs).length := by
  induction cs with
  | nil => exact Nat.le_refl _
  | cons c cs ih =>
      have hpos : 0 < (String.utf8EncodeChar c).length :=
        List.length_pos_iff.mpr String.utf8EncodeChar_ne_nil
      show cs.length + 1 ≤ (String.utf8EncodeChar c ++ encode cs).length
      rw [List.length_append]
      omega

section Whole

variable {σ : Type} {t : Text} {draw : σ → UInt32 → Except VideoStop σ}

theorem Text.length_bytes : t.bytes.length = t.len := by
  rw [bytes, List.length_map, List.length_range]

theorem Text.byte_of_bytes {i : Nat} {b : UInt8} (h : t.bytes[i]? = some b) :
    i < t.len ∧ t.byte i = b := by
  obtain ⟨hi, hb⟩ := List.getElem?_eq_some_iff.mp h
  rw [length_bytes] at hi
  simp only [bytes, List.getElem_map, List.getElem_range] at hb
  exact ⟨hi, hb⟩

/-- The loop from the first byte of some of the characters on: the induction is on the
characters that are left. -/
theorem gstrWriteLoop_encode (hmax : t.len ≤ intMax) (cs : List Char) :
    ∀ (i n : Nat) (s : σ), i ≤ t.len → t.bytes.drop i = encode cs → cs.length < n →
      gstrWriteLoop t.rd draw n i s = (cs.map Char.val).foldlM draw s := by
  induction cs with
  | nil =>
      intro i n s hi ht hn
      obtain ⟨n, rfl⟩ : ∃ m, n = m + 1 := ⟨n - 1, by simp only [List.length_nil] at hn; omega⟩
      have hlen : t.len ≤ i := by
        rw [← t.length_bytes]
        exact List.drop_eq_nil_iff.mp ht
      obtain rfl : i = t.len := Nat.le_antisymm hi hlen
      rw [gstrWriteLoop, Text.rd_ok (Nat.le_refl _), t.last]
      rfl
  | cons c cs ih =>
      intro i n s hi ht hn
      obtain ⟨n, rfl⟩ : ∃ m, n = m + 1 := ⟨n - 1, by omega⟩
      have henc : t.bytes.drop i = String.utf8EncodeChar c ++ encode cs := ht
      have hread : ∀ k b, (String.utf8EncodeChar c)[k]? = some b →
          i + k < t.len ∧ t.byte (i + k) = b := by
        intro k b hk
        apply Text.byte_of_bytes
        rw [← List.getElem?_drop, henc, List.getElem?_append_left, hk]
        exact (List.getElem?_eq_some_iff.mp hk).1
      have hdec : utf8ToUnicode (fun k => t.rd (i + k)) =
          .ok (c.val, (String.utf8EncodeChar c).length) := by
        apply utf8ToUnicode_encode
        intro k b hk
        obtain ⟨hlt, hb⟩ := hread k b hk
        rw [Text.rd_ok (Nat.le_of_lt hlt), hb]
      have hin : i + (String.utf8EncodeChar c).length ≤ t.len := by
        have hlen := congrArg List.length henc
        rw [List.length_drop, t.length_bytes, List.length_append] at hlen
        omega
      have hpos : 0 < (String.utf8EncodeChar c).length :=
        List.length_pos_iff.mpr String.utf8EncodeChar_ne_nil
      have hrest : t.bytes.drop (i + (String.utf8EncodeChar c).length) = encode cs := by
        rw [← List.drop_drop, henc, List.drop_left]
      rw [gstrWriteLoop, Text.rd_ok hi, hdec]
      show (if t.byte i = 0 then _ else _) = _
      rw [if_neg (t.inner i (by omega))]
      show (if intMax < i + (String.utf8EncodeChar c).length then _ else _) = _
      rw [if_neg (by omega), List.map_cons, List.foldlM_cons]
      refine congrArg (draw s c.val >>= ·) (funext fun s' => ?_)
      exact ih _ n s' hin hrest (by simpa using hn)

end Whole

/-- **Decoding a whole text.**  If the text is the UTF-8 of some characters, the loop hands
exactly these to the drawing routine, in their order and each once, whatever it does. -/
theorem gstrWrite_decodes {σ : Type} (t : Text) (cs : List Char) (ht : t.bytes = encode cs)
    (hmax : t.len ≤ intMax) (draw : σ → UInt32 → Except VideoStop σ) (s : σ) (n : Nat)
    (hn : cs.length < n) :
    gstrWriteLoop t.rd draw n 0 s = (cs.map Char.val).foldlM draw s :=
  gstrWriteLoop_encode hmax cs 0 n s (Nat.zero_le _) ht hn

/-- A text with characters of all four lengths. -/
theorem gstrWrite_decodes_four :
    gstrWriteLoop (Text.ofBytes (encode ['a', 'é', '内', '😀']) (by decide)).rd
      (fun l uc => .ok (l ++ [uc])) 5 0 [] = .ok [0x61, 0xe9, 0x5185, 0x1f600] :=
  gstrWrite_decodes (Text.ofBytes (encode ['a', 'é', '内', '😀']) (by decide))
    ['a', 'é', '内', '😀'] (by decide) (by decide) (fun l uc => .ok (l ++ [uc])) [] 5 (by decide)

/-- With more bytes than an `int` counts, the loop does not get to the end. -/
theorem gstrWriteLoop_long {σ : Type} {t : Text} (hmax : intMax < t.len)
    (draw : σ → UInt32 → Except VideoStop σ) (n i : Nat) (s r : σ) (hi : i ≤ intMax) :
    gstrWriteLoop t.rd draw n i s ≠ .ok r := by
  induction n generalizing i s with
  | zero => exact fun h => nomatch h
  | succ n ih =>
      intro h
      rw [gstrWriteLoop, Text.rd_ok (by omega)] at h
      have h' : (utf8ToUnicode (fun k => t.rd (i + k)) >>= fun r =>
          if intMax < i + r.2 then .error .overflow
          else draw s r.1 >>= fun s => gstrWriteLoop t.rd draw n (i + r.2) s) = .ok r := by
        rw [← h]
        exact (if_neg (t.inner i (by omega))).symm
      cases hdec : utf8ToUnicode (fun k => t.rd (i + k)) with
      | error e =>
          rw [hdec] at h'
          exact nomatch h'
      | ok d =>
          rw [hdec] at h'
          change (if intMax < i + d.2 then _ else _) = _ at h'
          split at h'
          · exact nomatch h'
          · rename_i hle
            cases hdraw : draw s d.1 with
            | error e =>
                rw [hdraw] at h'
                exact nomatch h'
            | ok s' =>
                rw [hdraw] at h'
                exact ih _ s' (Nat.le_of_not_lt hle) h'

/-- Without the bound on the length it fails: a text of `2 ^ 31` letters. -/
theorem gstrWrite_decodes_not : ¬ ∀ (t : Text) (cs : List Char), t.bytes = encode cs →
    ∃ n, gstrWriteLoop t.rd (fun l uc => .ok (l ++ [uc])) n 0 [] = .ok (cs.map Char.val) := by
  have letters : ∀ m, encode (List.replicate m 'a') = List.replicate m 97 := by
    intro m
    induction m with
    | zero => rfl
    | succ m ih =>
        rw [List.replicate_succ, List.replicate_succ, ← ih]
        rfl
  have many : ∀ m, intMax < m → ∃ t : Text, t.bytes = encode (List.replicate m 'a') ∧
      intMax < t.len := by
    intro m hm
    have hne : (0 : UInt8) ∉ List.replicate m 97 := fun h =>
      absurd (List.eq_of_mem_replicate h) (by decide)
    refine ⟨Text.ofBytes (List.replicate m 97) hne, ?_, ?_⟩
    · rw [letters]
      refine List.ext_getElem ?_ fun i h1 h2 => ?_
      · rw [Text.length_bytes]
        rfl
      · simp only [Text.bytes, List.getElem_map, List.getElem_range]
        show (List.replicate m 97).getD i 0 = _
        rw [List.getD_eq_getElem?_getD, List.getElem?_eq_getElem h2]
        rfl
    · show intMax < (List.replicate m 97).length
      rw [List.length_replicate]
      exact hm
  intro h
  obtain ⟨t, ht, hlen⟩ := many (intMax + 1) (Nat.lt_succ_self _)
  obtain ⟨n, hn⟩ := h t _ ht
  exact gstrWriteLoop_long hlen _ n 0 _ _ (Nat.zero_le _) hn

end Cosmos.Hal
