import Cosmos.Hal.BdvideoUtf8
import Cosmos.Hal.Halprint

/-!
# Writing to the console

`kprint` of `halprint.c` formats into an array on the stack of the kernel and draws what stands
there, and `uart_write` of `drvuart.c` hands it the text of its caller.  Nothing looks at the
size of the array, at the length of the caller's buffer or at its bytes.

What is drawn is the list of the code points that the drawing routine gets, which always
returns here: the glyphs and the picture behind the text are there since boot.  A text that
does not fit, or that cannot be read to its end, is an error.

## Main results

* `uartPrint_utf8`: UTF-8 that fits is drawn, character by character.
* `uartPrint_overruns`: a longer text runs over the array, whatever its bytes are.
-/

namespace Cosmos.Drivers

open Cosmos.Hal Cosmos.Lib.Bytes

/-- `sizeof(buf)` in `kprint`. -/
def kprintBufsz : Nat := 512

/-- The text at an address, if its `NUL` is among the first `n` bytes. -/
def textIn (p : Nat → UInt8) (n : Nat) : Option Text :=
  match h : (List.range n).find? fun i => p i = 0 with
  | none => none
  | some len =>
      some
        { byte := p
          len := len
          inner := fun i hi => by
            have hnot := (List.find?_range_eq_some.mp h).2.2 i hi
            simpa using hnot
          last := of_decide_eq_true (List.find?_range_eq_some.mp h).1 }

/-- `gstr_write(&kdftgh, buf)` in `kprint`. -/
def kprintWrite (buf : Nat → UInt8) : Except String (List UInt32) :=
  -- a longer text has run over the stack
  match textIn buf kprintBufsz with
  | none => .error "kprint buf"
  | some t =>
      match gstrWriteLoop t.rd (fun out uc => .ok (out ++ [uc])) (t.len + 1) 0 [] with
      | .error _ => .error "gstr_write"
      | .ok out => .ok out

/-- `kprint`, with `buf` and the format at their addresses: what is drawn. -/
def kprint (stk : Nat → UInt8) (k : Nat) (mem : Nat → UInt8) (buf fmt : Nat)
    (args : List UInt64) : Except String (List UInt32) :=
  match vsprintfk stk k mem buf fmt args with
  | .error _ => .error "vsprintfk"
  | .ok mem => kprintWrite fun i => mem (buf + i)

/-- The memory of `uart_write`: the caller's text, the format `"%s"`, and `buf` behind them. -/
def uartMem (t : Text) (a : Nat) : UInt8 :=
  if a ≤ t.len then t.byte a
  else if a = t.len + 1 then 37
  else if a = t.len + 2 then 115
  else 0

/-- `kprint("%s", p)` of a buffer with `n` bytes. -/
def uartPrint (p : Nat → UInt8) (n : Nat) : Except String (List UInt32) :=
  match textIn p n with
  | none => .error "uart_write"
  | some t =>
      kprint (fun _ => 0) (t.len + 4) (uartMem t) (t.len + 4) (t.len + 1) [0]

/-! ## Texts in memory -/

variable {p : Nat → UInt8} {n : Nat} {s : List UInt8}

/-- A string in memory as a text. -/
theorem textIn_of_strAt (h : StrAt p 0 s) (hlen : s.length < n) :
    ∃ t, textIn p n = some t ∧ t.len = s.length ∧ t.byte = p ∧ t.bytes = s := by
  have hbyte : ∀ i (hi : i < s.length), p i = s[i] := by
    intro i hi
    have hat := h.1 i (by rw [List.length_append]; omega)
    rwa [Nat.zero_add, List.getElem_append_left hi] at hat
  have hend : p s.length = 0 := by
    have hat := h.1 s.length (by simp)
    simpa using hat
  have hfind : (List.range n).find? (fun i => p i = 0) = some s.length := by
    refine List.find?_range_eq_some.mpr ⟨decide_eq_true hend, List.mem_range.mpr hlen, ?_⟩
    intro i hi
    have hne : p i ≠ 0 := by
      rw [hbyte i hi]
      exact fun h0 => h.2 (h0 ▸ List.getElem_mem hi)
    simpa using hne
  unfold textIn
  split
  · rename_i hnone
    rw [hfind] at hnone
    cases hnone
  · rename_i len hsome
    obtain rfl : s.length = len := Option.some.inj (hfind.symm.trans hsome)
    refine ⟨_, rfl, rfl, rfl, ?_⟩
    apply List.ext_getElem (by rw [Text.length_bytes])
    intro i hi hi'
    simp only [Text.bytes, List.getElem_map, List.getElem_range]
    exact hbyte i hi'

/-- `"%s"` copies the string. -/
theorem vsprintfk_str {stk mem : Nat → UInt8} {buf f k : Nat} {a : UInt64}
    (hf : StrAt mem f [37, 115]) (hs : StrAt mem a.toNat s)
    (hapart : a.toNat + s.length < buf) (hfmt : f + 2 < buf) (hk : s.length < k) :
    vsprintfk stk (k + 2) mem buf f [a] = .ok (put mem buf (s ++ [0])) := by
  obtain ⟨hpct, -, hrest⟩ := strAt_cons.mp hf
  obtain ⟨hdir, -, hnul⟩ := strAt_cons.mp hrest
  have hend : put mem buf s (f + 2) = 0 := by
    rw [put_out (Or.inl hfmt)]
    exact strAt_nil hnul
  rw [vsprintfk, hpct, hdir, if_neg (by decide), if_neg (by decide), if_neg (by decide),
    if_neg (by decide), if_pos rfl]
  simp only [vaArg, bind, Except.bind,
    strcopyk_spec (k + 1) buf a.toNat mem hs (Or.inl hapart) (Nat.lt_succ_of_lt hk)]
  rw [vsprintfk, if_pos hend, ← put_append, ← put_cons, put_nil]

/-- What the drawing routine gets is what is drawn. -/
theorem foldlM_append (l out : List UInt32) :
    l.foldlM (fun out uc => Except.ok (out ++ [uc])) out =
      (Except.ok (out ++ l) : Except VideoStop (List UInt32)) := by
  induction l generalizing out with
  | nil => rw [List.append_nil]; rfl
  | cons uc l ih =>
      rw [List.foldlM_cons]
      show l.foldlM _ (out ++ [uc]) = _
      rw [ih, List.append_assoc]
      rfl

/-- The text is copied to the array, and to what is behind it. -/
theorem uartPrint_copies (h : StrAt p 0 s) (hn : s.length < n) :
    ∃ buf, StrAt buf 0 s ∧ uartPrint p n = kprintWrite buf := by
  obtain ⟨t, ht, hlen, hbyte, -⟩ := textIn_of_strAt h hn
  have hmem : ∀ i ≤ t.len, uartMem t i = p i := by
    intro i hi
    unfold uartMem
    rw [if_pos hi, hbyte]
  have hstr : StrAt (uartMem t) (0 : UInt64).toNat s :=
    h.of_eq fun i hi => by rw [Nat.zero_add]; exact hmem i (by omega)
  have hfmt : StrAt (uartMem t) (t.len + 1) [37, 115] := by
    refine strAt_cons.mpr ⟨?_, by decide, strAt_cons.mpr ⟨?_, by decide, ⟨fun i hi => ?_, by simp⟩⟩⟩
    · unfold uartMem
      rw [if_neg (by omega), if_pos rfl]
    · unfold uartMem
      rw [if_neg (by omega), if_neg (by omega), if_pos (by omega)]
    · obtain rfl : i = 0 := by simpa using hi
      unfold uartMem
      rw [if_neg (by omega), if_neg (by omega), if_neg (by omega)]
      rfl
  have hcopy := @vsprintfk_str s (fun _ => 0) (uartMem t) (t.len + 4) (t.len + 1) (t.len + 2) 0
    hfmt hstr (by show 0 + _ < _; omega) (by omega) (by omega)
  refine ⟨fun i => put (uartMem t) (t.len + 4) (s ++ [0]) (t.len + 4 + i),
    ⟨fun i hi => by rw [Nat.zero_add]; exact at_put i hi, h.2⟩, ?_⟩
  unfold uartPrint
  rw [ht]
  show kprint _ (t.len + 2 + 2) _ _ _ _ = _
  unfold kprint
  rw [hcopy]

/-- **A text that fits is drawn**, character by character. -/
theorem uartPrint_utf8 {cs : List Char} (h : StrAt p 0 (encode cs))
    (hn : (encode cs).length < n) (hbuf : (encode cs).length < kprintBufsz) :
    uartPrint p n = .ok (cs.map Char.val) := by
  obtain ⟨buf, hstr, hprint⟩ := uartPrint_copies h hn
  obtain ⟨t, ht, hlen, -, hbytes⟩ := textIn_of_strAt hstr hbuf
  have hdraw : gstrWriteLoop t.rd (fun out uc => .ok (out ++ [uc])) (t.len + 1) 0 []
      = .ok (cs.map Char.val) := by
    have hmax : t.len ≤ intMax := by
      have hsz : kprintBufsz = 512 := rfl
      have hint : intMax = 2147483647 := rfl
      omega
    have hcs := length_le_encode cs
    rw [gstrWriteLoop_encode hmax cs 0 _ [] (Nat.zero_le _) hbytes (by omega), foldlM_append]
    rfl
  unfold kprintWrite at hprint
  rw [hprint, ht]
  dsimp only
  rw [hdraw]

/-- **A longer text runs over the array.** -/
theorem uartPrint_overruns (h : StrAt p 0 s) (hn : s.length < n) (hbuf : kprintBufsz ≤ s.length) :
    uartPrint p n = .error "kprint buf" := by
  obtain ⟨buf, hstr, hprint⟩ := uartPrint_copies h hn
  have hfind : ((List.range kprintBufsz).find? fun i => buf i = 0) = none := by
    refine List.find?_eq_none.mpr fun i hi h0 => ?_
    have hlt : i < s.length := Nat.lt_of_lt_of_le (List.mem_range.mp hi) hbuf
    have hat := hstr.1 i (by rw [List.length_append]; omega)
    rw [Nat.zero_add, List.getElem_append_left hlt, of_decide_eq_true h0] at hat
    exact hstr.2 (hat ▸ List.getElem_mem hlt)
  have hnone : textIn buf kprintBufsz = none := by
    unfold textIn
    split
    · rfl
    · rename_i len hsome
      rw [hfind] at hsome
      cases hsome
  rw [hprint]
  unfold kprintWrite
  rw [hnone]

/-- UTF-8 with its `NUL` in a buffer of `n` bytes, and with room for it in the array. -/
def UartText (p : Nat → UInt8) (n : Nat) : Prop :=
  ∃ cs, StrAt p 0 (encode cs) ∧ (encode cs).length < n ∧ (encode cs).length < kprintBufsz

theorem UartText.prints (h : UartText p n) : ∃ out, uartPrint p n = .ok out := by
  obtain ⟨cs, hstr, hn, hbuf⟩ := h
  exact ⟨_, uartPrint_utf8 hstr hn hbuf⟩

/-- A test for `UartText`, of texts in ASCII. -/
def uartText (p : Nat → UInt8) (n : Nat) : Bool :=
  match textIn p (min n kprintBufsz) with
  | none => false
  | some t => t.bytes = encode (t.bytes.map fun b => Char.ofNat b.toNat)

theorem textIn_some {t : Text} (h : textIn p n = some t) : StrAt p 0 t.bytes ∧ t.len < n := by
  unfold textIn at h
  split at h
  · cases h
  · rename_i len hsome
    cases h
    obtain ⟨hend, hlt, hinner⟩ := List.find?_range_eq_some.mp hsome
    refine ⟨⟨fun i hi => ?_, fun h0 => ?_⟩, List.mem_range.mp hlt⟩
    · rw [Nat.zero_add]
      rw [List.length_append, Text.length_bytes, List.length_singleton] at hi
      rcases Nat.lt_or_eq_of_le (Nat.le_of_lt_succ hi) with hin | rfl
      · rw [List.getElem_append_left (by rw [Text.length_bytes]; exact hin)]
        simp [Text.bytes]
      · rw [List.getElem_append_right (by rw [Text.length_bytes])]
        simpa using hend
    · obtain ⟨i, hi, hpi⟩ := List.mem_map.mp h0
      have hnot := hinner i (List.mem_range.mp hi)
      rw [show p i = 0 from hpi] at hnot
      cases hnot

theorem uartText_text (h : uartText p n = true) : UartText p n := by
  unfold uartText at h
  split at h
  · cases h
  · rename_i t ht
    obtain ⟨hstr, hlt⟩ := textIn_some ht
    have hbytes := of_decide_eq_true h
    have hlen := congrArg List.length hbytes
    rw [Text.length_bytes] at hlen
    rw [hbytes] at hstr
    exact ⟨_, hstr, by omega, by omega⟩

end Cosmos.Drivers
