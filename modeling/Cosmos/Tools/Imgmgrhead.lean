import Cosmos.Lib.Bytes

/-!
# The records of a kernel image

`mlosrddsc_t` describes the zones of an image and `fhdsc_t` one packed file.  The
packing tool writes them; the tool, the loader and the kernel read them, each with
its own copy of the same declaration.
-/

namespace Cosmos.Tools

open Cosmos.Lib.Bytes

/-- `FHDSC_NMAX`. -/
abbrev fhdscNmax : Nat := 192

/-- `sizeof(fhdsc_t)`, which must be `FHDSC_SZMAX`. -/
abbrev sizeofFhdsc : Nat := 256

/-- `sizeof(mlosrddsc_t)`. -/
abbrev sizeofMlosrddsc : Nat := 176

/-- `LMOSMDSK`, the first byte lowest. -/
abbrev mdcMgicLmosmdsk : Nat := 0x4b53444d534f4d4c

/-- `MDC_ENDGIC`. -/
abbrev mdcEndgicVal : Nat := 0xaaffaaffaaffaaff

/-- `MDC_RVGIC`. -/
abbrev mdcRvgic : Nat := 0xffaaffaaffaaffaa

/-- `mlosrddsc_t`. -/
structure Mlosrddsc where
  mdcMgic : Nat
  mdcSfsum : Nat
  mdcSfsoff : Nat
  mdcSfeoff : Nat
  mdcSfrlsz : Nat
  mdcLdrbkS : Nat
  mdcLdrbkE : Nat
  mdcLdrbkRsz : Nat
  mdcLdrbkSum : Nat
  mdcFhdbkS : Nat
  mdcFhdbkE : Nat
  mdcFhdbkRsz : Nat
  mdcFhdbkSum : Nat
  mdcFilbkS : Nat
  mdcFilbkE : Nat
  mdcFilbkRsz : Nat
  mdcFilbkSum : Nat
  mdcLdrcodenr : Nat
  mdcFhdnr : Nat
  mdcFilnr : Nat
  mdcEndgic : Nat
  mdcRv : Nat
deriving DecidableEq, Repr

/-- The fields in the order of the declaration; each is a `u64_t`. -/
def Mlosrddsc.words (d : Mlosrddsc) : List Nat :=
  [d.mdcMgic, d.mdcSfsum, d.mdcSfsoff, d.mdcSfeoff, d.mdcSfrlsz, d.mdcLdrbkS, d.mdcLdrbkE,
    d.mdcLdrbkRsz, d.mdcLdrbkSum, d.mdcFhdbkS, d.mdcFhdbkE, d.mdcFhdbkRsz, d.mdcFhdbkSum,
    d.mdcFilbkS, d.mdcFilbkE, d.mdcFilbkRsz, d.mdcFilbkSum, d.mdcLdrcodenr, d.mdcFhdnr,
    d.mdcFilnr, d.mdcEndgic, d.mdcRv]

/-- The bytes of the record. -/
def Mlosrddsc.bytes (d : Mlosrddsc) : List UInt8 := wordBytes d.words

/-- The record at the address `a`. -/
def Mlosrddsc.rd (f : Nat → UInt8) (a : Nat) : Mlosrddsc where
  mdcMgic := rd64 f a
  mdcSfsum := rd64 f (a + 8)
  mdcSfsoff := rd64 f (a + 16)
  mdcSfeoff := rd64 f (a + 24)
  mdcSfrlsz := rd64 f (a + 32)
  mdcLdrbkS := rd64 f (a + 40)
  mdcLdrbkE := rd64 f (a + 48)
  mdcLdrbkRsz := rd64 f (a + 56)
  mdcLdrbkSum := rd64 f (a + 64)
  mdcFhdbkS := rd64 f (a + 72)
  mdcFhdbkE := rd64 f (a + 80)
  mdcFhdbkRsz := rd64 f (a + 88)
  mdcFhdbkSum := rd64 f (a + 96)
  mdcFilbkS := rd64 f (a + 104)
  mdcFilbkE := rd64 f (a + 112)
  mdcFilbkRsz := rd64 f (a + 120)
  mdcFilbkSum := rd64 f (a + 128)
  mdcLdrcodenr := rd64 f (a + 136)
  mdcFhdnr := rd64 f (a + 144)
  mdcFilnr := rd64 f (a + 152)
  mdcEndgic := rd64 f (a + 160)
  mdcRv := rd64 f (a + 168)

/-- `mlosrddsc_t_init`. -/
def mlosrddscInit : Mlosrddsc where
  mdcMgic := mdcMgicLmosmdsk
  mdcSfsum := 0
  mdcSfsoff := 0
  mdcSfeoff := 0
  mdcSfrlsz := sizeofMlosrddsc
  mdcLdrbkS := 0
  mdcLdrbkE := 0
  mdcLdrbkRsz := 0
  mdcLdrbkSum := 0
  mdcFhdbkS := 0
  mdcFhdbkE := 0
  mdcFhdbkRsz := 0
  mdcFhdbkSum := 0
  mdcFilbkS := 0
  mdcFilbkE := 0
  mdcFilbkRsz := 0
  mdcFilbkSum := 0
  mdcLdrcodenr := 0
  mdcFhdnr := 0
  mdcFilnr := 0
  mdcEndgic := mdcEndgicVal
  mdcRv := mdcRvgic

/-- `fhdsc_t`. -/
structure Fhdsc where
  fhdType : Nat
  fhdSubtype : Nat
  fhdStuts : Nat
  fhdId : Nat
  fhdIntsfsoff : Nat
  fhdIntsfend : Nat
  fhdFrealsz : Nat
  fhdFsum : Nat
  fhdName : List UInt8
deriving DecidableEq, Repr

/-- The fields before the name. -/
def Fhdsc.words (d : Fhdsc) : List Nat :=
  [d.fhdType, d.fhdSubtype, d.fhdStuts, d.fhdId, d.fhdIntsfsoff, d.fhdIntsfend, d.fhdFrealsz,
    d.fhdFsum]

/-- The bytes of the record. -/
def Fhdsc.bytes (d : Fhdsc) : List UInt8 := wordBytes d.words ++ d.fhdName

/-- The record at the address `a`. -/
def Fhdsc.rd (f : Nat → UInt8) (a : Nat) : Fhdsc where
  fhdType := rd64 f a
  fhdSubtype := rd64 f (a + 8)
  fhdStuts := rd64 f (a + 16)
  fhdId := rd64 f (a + 24)
  fhdIntsfsoff := rd64 f (a + 32)
  fhdIntsfend := rd64 f (a + 40)
  fhdFrealsz := rd64 f (a + 48)
  fhdFsum := rd64 f (a + 56)
  fhdName := (List.range fhdscNmax).map fun k => f (a + 64 + k)

/-- `fhdsc_t_init`. -/
def fhdscInit : Fhdsc where
  fhdType := 0
  fhdSubtype := 0
  fhdStuts := 0
  fhdId := 0
  fhdIntsfsoff := 0
  fhdIntsfend := 0
  fhdFrealsz := 0
  fhdFsum := 0
  fhdName := List.replicate fhdscNmax 0

/-- `strcpy` into the array `dest`. -/
def strcpy (dest src : List UInt8) : List UInt8 := src ++ 0 :: dest.drop (src.length + 1)

/-- The text of a character array, up to its first zero. -/
def cstr (name : List UInt8) : List UInt8 := name.takeWhile (· ≠ 0)

/-- `computer_sum`. -/
def computerSum (buf : List UInt8) : Nat := (buf.map UInt8.toNat).sum % 2 ^ 64

/-! ## Reading the records back -/

section Read

variable {f : Nat → UInt8} {a : Nat}

@[simp] theorem Mlosrddsc.bytes_length (d : Mlosrddsc) : d.bytes.length = sizeofMlosrddsc :=
  wordBytes_length d.words

theorem Mlosrddsc.words_injective : Function.Injective Mlosrddsc.words := by
  rintro ⟨⟩ ⟨⟩ h
  simpa [Mlosrddsc.words] using h

theorem Mlosrddsc.words_rd (f : Nat → UInt8) (a : Nat) :
    (Mlosrddsc.rd f a).words = (List.range 22).map fun i => rd64 f (a + 8 * i) := rfl

/-- **The descriptor that was written is read back.** -/
theorem Mlosrddsc.rd_of_at {d : Mlosrddsc} (h : At f a d.bytes) (hd : ∀ w ∈ d.words, w < 2 ^ 64) :
    Mlosrddsc.rd f a = d := by
  apply Mlosrddsc.words_injective
  rw [Mlosrddsc.words_rd]
  exact rd64s_of_words h hd

theorem Fhdsc.bytes_length {d : Fhdsc} (h : d.fhdName.length = fhdscNmax) :
    d.bytes.length = sizeofFhdsc := by
  rw [Fhdsc.bytes, List.length_append, wordBytes_length, h]
  rfl

theorem Fhdsc.words_rd (f : Nat → UInt8) (a : Nat) :
    (Fhdsc.rd f a).words = (List.range 8).map fun i => rd64 f (a + 8 * i) := rfl

theorem Fhdsc.ext_words {d e : Fhdsc} (hwords : d.words = e.words) (hname : d.fhdName = e.fhdName) :
    d = e := by
  rcases d with ⟨⟩
  rcases e with ⟨⟩
  obtain rfl := hname
  simpa [Fhdsc.words] using hwords

/-- **The record of a file that was written is read back.** -/
theorem Fhdsc.rd_of_at {d : Fhdsc} (h : At f a d.bytes) (hd : ∀ w ∈ d.words, w < 2 ^ 64)
    (hname : d.fhdName.length = fhdscNmax) : Fhdsc.rd f a = d := by
  obtain ⟨hwords, htext⟩ := at_append.mp h
  apply Fhdsc.ext_words
  · rw [Fhdsc.words_rd]
    exact rd64s_of_words hwords hd
  · show (List.range fhdscNmax).map (fun k => f (a + 64 + k)) = d.fhdName
    refine List.ext_getElem (by rw [List.length_map, List.length_range, hname]) fun k hk hk' => ?_
    rw [List.getElem_map, List.getElem_range]
    exact htext k hk'

/-- A name that fits is what the array holds. -/
theorem cstr_strcpy {dest src : List UInt8} (h : 0 ∉ src) : cstr (strcpy dest src) = src := by
  rw [cstr, strcpy, List.takeWhile_append_of_pos fun x hx => by
    simpa using fun h0 : x = 0 => h (h0 ▸ hx)]
  simp

theorem strcpy_length {dest src : List UInt8} (h : src.length < dest.length) :
    (strcpy dest src).length = dest.length := by
  rw [strcpy, List.length_append, List.length_cons, List.length_drop]
  omega

end Read

end Cosmos.Tools
