import Mathlib.Data.List.Nodup
import Cosmos.Hal.Halplatform
import Cosmos.Lib.Run
import Cosmos.Lib.Word64
import Cosmos.Tools.ImgcorePacked

/-!
# Finding a file in the kernel image

`get_file_rvadrandsz` of `halplatform.c`: the kernel reads the descriptor of the image
that stands at `mb_imgpadr`, and looks for the name in the records behind it.  Memory
is a function of virtual addresses; the kernel sees physical memory from
`KRNL_MAP_VIRTADDRESS_START` on.  The pointers that are passed in are not `NULL`.

## Main results

* `strcmpl_eq_zero`: the comparison finds a name that stands with its terminating zero.
* `ImgAt.getFileRvadrandsz_first`: the size and the address of a packed file.
* `Placed.getFileRvadrandsz_other`: a name that was not packed has address 0.
-/

namespace Cosmos.Hal

open Cosmos.Lib.Bytes Cosmos.Lib.Files Cosmos.Lib.Run Cosmos.Lib.Word64 Cosmos.Tools

/-- `MLOSDSC_OFF`. -/
abbrev mlosdscOff : Nat := 0x1000

/-- `strcmpl` of the string `a` and the one that stands at `b`; a `char` is signed. -/
def strcmpl : List UInt8 → (Nat → UInt8) → Nat → Int
  | [], f, b => (f b).toInt8.toInt
  | x :: a, f, b =>
      if f b ≠ 0 ∧ f b = x then strcmpl a f (b + 1)
      else (f b).toInt8.toInt - x.toInt8.toInt

/-- The loop of `get_fileinfo`: `n` records are left, record `i` is the next. -/
def fileinfoLoop (fname : List UInt8) (f : Nat → UInt8) (fhdscstart : Nat) :
    Nat → Nat → Option Nat
  | 0, _ => none
  | n + 1, i =>
      if strcmpl fname f (fhdscstart + 256 * i + 64) = 0 then some (fhdscstart + 256 * i)
      else fileinfoLoop fname f fhdscstart n (i + 1)

/-- What `get_fileinfo` checks of the descriptor. -/
def Checked (md : Mlosrddsc) : Prop :=
  ¬ (md.mdcEndgic ≠ mdcEndgicVal ∨ md.mdcRv ≠ mdcRvgic ∨ md.mdcFhdnr < 2 ∨ md.mdcFilnr < 2)

instance (md : Mlosrddsc) : Decidable (Checked md) := inferInstanceAs (Decidable (¬ _))

/-- `get_fileinfo`: the address of the record. -/
def getFileinfo (fname : List UInt8) (mbsp : Machbstart) (f : Nat → UInt8) :
    Except String (Option Nat) := do
  let mrddadrs ← phyadrToViradr (add64 mbsp.mbImgpadr mlosdscOff)
  let md := Mlosrddsc.rd f mrddadrs
  if Checked md then
    let imgvadr ← phyadrToViradr mbsp.mbImgpadr
    return fileinfoLoop fname f (add64 md.mdcFhdbkS imgvadr) md.mdcFhdnr 0
  else
    return none

/-- `get_file_rvadrandsz`: what it leaves in `*retadr` and in `*retsz`, which had the value
`retsz`. -/
def getFileRvadrandsz (fname : List UInt8) (mbsp : Machbstart) (f : Nat → UInt8) (retsz : Nat) :
    Except String (Nat × Nat) := do
  match ← getFileinfo fname mbsp f with
  | none => return (0, retsz)
  | some fhdsc =>
      let imgvadr ← phyadrToViradr mbsp.mbImgpadr
      return (add64 (Fhdsc.rd f fhdsc).fhdIntsfsoff imgvadr, (Fhdsc.rd f fhdsc).fhdFrealsz)

/-! ## Comparing names -/

section Strcmpl

variable {f : Nat → UInt8} {b : Nat} {a : List UInt8}

theorem char_inj {x y : UInt8} : x.toInt8.toInt = y.toInt8.toInt ↔ x = y := by
  constructor
  · intro h
    have hback := congrArg Int8.toUInt8 (Int8.toInt_inj.mp h)
    rwa [UInt8.toUInt8_toInt8, UInt8.toUInt8_toInt8] at hback
  · rintro rfl
    rfl

/-- **The strings are equal** when the other one is the name and its zero. -/
theorem strcmpl_eq_zero (ha : 0 ∉ a) : strcmpl a f b = 0 ↔ At f b (a ++ [0]) := by
  induction a generalizing b with
  | nil =>
      rw [strcmpl, show (0 : Int) = (0 : UInt8).toInt8.toInt from rfl, char_inj, List.nil_append,
        at_cons]
      exact ⟨fun h => ⟨h, at_nil⟩, fun h => h.1⟩
  | cons x a ih =>
      obtain ⟨hx, ha⟩ := not_or.mp (mt List.mem_cons.mpr ha)
      rw [strcmpl, List.cons_append, at_cons]
      by_cases heq : f b ≠ 0 ∧ f b = x
      · rw [if_pos heq, ih ha]
        exact ⟨fun h => ⟨heq.2, h⟩, fun h => h.2⟩
      · rw [if_neg heq]
        constructor
        · intro h
          have hsame : f b = x := char_inj.mp (by omega)
          exact absurd ⟨fun h0 => hx (hsame ▸ h0.symm), hsame⟩ heq
        · rintro ⟨hsame, -⟩
          exact absurd ⟨fun h0 => hx (hsame ▸ h0.symm), hsame⟩ heq

/-- Two names with their zeros at one address. -/
theorem at_zero_unique {a c : List UInt8} (ha : 0 ∉ a) (hc : 0 ∉ c) (h₁ : At f b (a ++ [0]))
    (h₂ : At f b (c ++ [0])) : a = c := by
  induction a generalizing b c with
  | nil =>
      cases c with
      | nil => rfl
      | cons y c =>
          have h0 : f b = 0 := (at_cons.mp h₁).1
          have hy : f b = y := (at_cons.mp h₂).1
          exact absurd (List.mem_cons.mpr (Or.inl (h0.symm.trans hy))) hc
  | cons x a ih =>
      have hx : f b = x := (at_cons.mp h₁).1
      cases c with
      | nil =>
          have h0 : f b = 0 := (at_cons.mp h₂).1
          exact absurd (List.mem_cons.mpr (Or.inl (h0.symm.trans hx))) ha
      | cons y c =>
          have hy : f b = y := (at_cons.mp h₂).1
          have hrest := ih (fun h => ha (List.mem_cons_of_mem x h))
            (fun h => hc (List.mem_cons_of_mem y h)) (at_cons.mp h₁).2 (at_cons.mp h₂).2
          rw [← hx, ← hy, hrest]

end Strcmpl

/-! ## The records of a packed image -/

/-- The first `n` bytes of the image stand at `a`. -/
def Placed (img : PFile) (n : Nat) (f : Nat → UInt8) (a : Nat) : Prop :=
  ∀ k < n, f (a + k) = img.byte k

/-- The first `n` bytes of the image contain every file. -/
def HoldsFiles (m : Mparam) (n : Nat) : Prop :=
  ∀ i (hi : i < m.infile.length), fileStart m i + m.infile[i].data.length ≤ n

section Lookup

variable {m : Mparam} {img : PFile} {n a s i k : Nat} {f : Nat → UInt8} {fname : List UInt8}

theorem fileinfoLoop_found (hfirst : ∀ j, i ≤ j → j < k → strcmpl fname f (s + 256 * j + 64) ≠ 0)
    (hk : strcmpl fname f (s + 256 * k + 64) = 0) (hik : i ≤ k) (hkn : k < i + n) :
    fileinfoLoop fname f s n i = some (s + 256 * k) := by
  induction n generalizing i with
  | zero => omega
  | succ n ih =>
      rw [fileinfoLoop]
      rcases Nat.lt_or_eq_of_le hik with hlt | rfl
      · rw [if_neg (hfirst i (Nat.le_refl i) hlt)]
        exact ih (fun j hj => hfirst j (by omega)) hlt (by omega)
      · rw [if_pos hk]

theorem fileinfoLoop_none (h : ∀ j, i ≤ j → j < i + n → strcmpl fname f (s + 256 * j + 64) ≠ 0) :
    fileinfoLoop fname f s n i = none := by
  induction n generalizing i with
  | zero => rfl
  | succ n ih =>
      rw [fileinfoLoop, if_neg (h i (Nat.le_refl i) (by omega))]
      exact ih fun j hj hjn => h j (by omega) (by omega)

/-- The records stand before the files. -/
theorem HoldsFiles.fhdscs_le (h : HoldsFiles m n) (hpos : 0 < m.infile.length) :
    0x2000 + 256 * m.infile.length ≤ n := by
  have hfile := h 0 hpos
  have hfhed := le_fhedLen m
  rw [fileStart_zero] at hfile
  omega

/-- A file whose name no earlier one has. -/
def FirstOfName (m : Mparam) {i : Nat} (hi : i < m.infile.length) : Prop :=
  ∀ j (hj : j < m.infile.length), j < i → m.infile[i].pathname ≠ m.infile[j].pathname

/-- Where the names are pairwise different, each is the first of its name. -/
theorem names_first (hnames : (m.infile.map Infile.pathname).Nodup) (hi : i < m.infile.length) :
    FirstOfName m hi := by
  intro j hj hji he
  have hi' : i < (m.infile.map Infile.pathname).length := by rwa [List.length_map]
  have hj' : j < (m.infile.map Infile.pathname).length := by rwa [List.length_map]
  have hsame : (m.infile.map Infile.pathname)[i] = (m.infile.map Infile.pathname)[j] := by
    rw [List.getElem_map, List.getElem_map, he]
  have hij := hnames.getElem_inj_iff.mp hsame
  omega

/-- A packed image holds its files. -/
theorem holdsFiles_of_packed (h : Packed m img) : HoldsFiles m img.len := by
  intro i hi
  rw [h.len]
  exact fileStart_add_le hi hi

namespace Placed

variable (hp : Placed img n f a) (h : Packed m img)
  (hn : 0x2000 + 256 * m.infile.length ≤ n)

include hp

theorem copy {bs : List UInt8} {c : Nat} (hat : At img.byte c bs) (hc : c + bs.length ≤ n) :
    At f (a + c) bs :=
  hat.copy fun k hk => by rw [Nat.add_assoc]; exact hp (c + k) (by omega)

include h hn

theorem fhdsc_rd (hi : i < m.infile.length) :
    ∃ sum, Fhdsc.rd f (a + 0x2000 + 256 * i) = imgFhdsc m i hi sum := by
  have hsz : sizeofFhdsc = 256 := rfl
  apply h.fhdsc_rd hi
  intro k hk
  have hkey := hp (0x2000 + 256 * i + k) (by omega)
  rwa [← Nat.add_assoc, ← Nat.add_assoc] at hkey

/-- The comparison with a record finds the name of its file and no other. -/
theorem strcmpl_fhdsc (hfname : 0 ∉ fname) (hi : i < m.infile.length) :
    strcmpl fname f (a + 0x2000 + 256 * i + 64) = 0 ↔ fname = m.infile[i].pathname := by
  obtain ⟨sum, -, hat⟩ := h.fhdsc i hi hi
  have hname := h.named i hi hi
  have hsz : sizeofFhdsc = 256 := rfl
  have hrec : At f (a + (0x2000 + 256 * i)) (imgFhdsc m i hi sum).bytes :=
    hp.copy hat (by rw [imgFhdsc, fhdscFill_bytes_length hname]; omega)
  have htext := (at_append.mp hrec).2
  rw [wordBytes_length] at htext
  have hcopy : (imgFhdsc m i hi sum).fhdName = (m.infile[i].pathname ++ [0])
      ++ (List.replicate fhdscNmax 0).drop (m.infile[i].pathname.length + 1) := by
    rw [List.append_assoc]
    rfl
  rw [hcopy] at htext
  have hstr : At f (a + 0x2000 + 256 * i + 64) (m.infile[i].pathname ++ [0]) := by
    have := (at_append.mp htext).1
    rwa [← Nat.add_assoc] at this
  rw [strcmpl_eq_zero hfname]
  exact ⟨fun hf => at_zero_unique hfname m.infile[i].hpathname hf hstr, fun he => he ▸ hstr⟩

/-- **The first record of a name is found.** -/
theorem fileinfoLoop_first (hi : i < m.infile.length) (hfirst : FirstOfName m hi) :
    fileinfoLoop m.infile[i].pathname f (a + 0x2000) m.infile.length 0
      = some (a + 0x2000 + 256 * i) := by
  refine fileinfoLoop_found (fun j _ hji => ?_) ?_ (Nat.zero_le i) (by omega)
  · have hj : j < m.infile.length := by omega
    rw [Ne, hp.strcmpl_fhdsc h hn m.infile[i].hpathname hj]
    exact hfirst j hj hji
  · exact (hp.strcmpl_fhdsc h hn m.infile[i].hpathname hi).mpr rfl

/-- No record has another name. -/
theorem fileinfoLoop_other (hfname : 0 ∉ fname) (hother : fname ∉ m.infile.map Infile.pathname) :
    fileinfoLoop fname f (a + 0x2000) m.infile.length 0 = none := by
  apply fileinfoLoop_none
  intro j _ hj
  rw [Nat.zero_add] at hj
  rw [Ne, hp.strcmpl_fhdsc h hn hfname hj]
  rintro rfl
  exact hother (List.mem_map_of_mem (List.getElem_mem hj))

/-- The descriptor that the readers see. -/
theorem mlosrddsc_rd : Mlosrddsc.rd f (a + 0x1000) = imgMlosrddsc m := by
  have hsz : sizeofMlosrddsc = 176 := rfl
  exact h.mlosrddsc_rd fun k hk => by rw [Nat.add_assoc]; exact hp (0x1000 + k) (by omega)

end Placed

/-- The readers accept the descriptor of an image of at least two files. -/
theorem checked_iff (m : Mparam) : Checked (imgMlosrddsc m) ↔ 2 ≤ m.infile.length := by
  have hend : (imgMlosrddsc m).mdcEndgic = mdcEndgicVal := rfl
  have hrv : (imgMlosrddsc m).mdcRv = mdcRvgic := rfl
  have hfhd : (imgMlosrddsc m).mdcFhdnr = m.infile.length := rfl
  have hfil : (imgMlosrddsc m).mdcFilnr = m.infile.length := rfl
  rw [Checked, hend, hrv, hfhd, hfil]
  omega

end Lookup

/-! ## Looking up files -/

section Kernel

variable {m : Mparam} {img : PFile} {n : Nat} {mbsp : Machbstart} {f : Nat → UInt8}
  {fname : List UInt8}

/-- The first `n` bytes of the image stand at `mb_imgpadr`, where the kernel maps them. -/
structure ImgAt (img : PFile) (n : Nat) (mbsp : Machbstart) (f : Nat → UInt8) : Prop where
  placed : Placed img n f (mbsp.mbImgpadr + krnlMapVirtaddressStart)
  mapped : mbsp.mbImgpadr + n ≤ krnlMapPhyaddressEnd

namespace ImgAt

variable (hat : ImgAt img n mbsp f) (h : Packed m img)
  (hn : 0x2000 + 256 * m.infile.length ≤ n)

include hat hn

theorem phyadrToViradr_imgpadr :
    phyadrToViradr mbsp.mbImgpadr = .ok (mbsp.mbImgpadr + krnlMapVirtaddressStart) := by
  have hmap := hat.mapped
  rw [phyadrToViradr, if_neg (by omega)]

include h

/-- What `get_fileinfo` returns. -/
theorem getFileinfo_eq (fname : List UInt8) :
    getFileinfo fname mbsp f = .ok (if 2 ≤ m.infile.length then
      fileinfoLoop fname f (mbsp.mbImgpadr + krnlMapVirtaddressStart + 0x2000) m.infile.length 0
      else none) := by
  have hmap := hat.mapped
  have hoff : mlosdscOff = 0x1000 := rfl
  have hend : krnlMapPhyaddressEnd = 0x400000000 := rfl
  have hvir : krnlMapVirtaddressStart = 0xffff800000000000 := rfl
  have hdsc : phyadrToViradr (add64 mbsp.mbImgpadr mlosdscOff)
      = .ok (mbsp.mbImgpadr + krnlMapVirtaddressStart + 0x1000) := by
    rw [add64_eq (show _ < 2 ^ 64 by omega), phyadrToViradr, if_neg (by omega), hoff,
      Nat.add_right_comm]
  have hstart : add64 0x2000 (mbsp.mbImgpadr + krnlMapVirtaddressStart)
      = mbsp.mbImgpadr + krnlMapVirtaddressStart + 0x2000 := by
    rw [add64_eq (show _ < 2 ^ 64 by omega), Nat.add_comm]
  have hmd := hat.placed.mlosrddsc_rd h hn
  simp only [getFileinfo, hdsc, bind, Except.bind, hmd, checked_iff,
    hat.phyadrToViradr_imgpadr hn]
  by_cases htwo : 2 ≤ m.infile.length
  · simp only [if_pos htwo]
    show Except.ok (fileinfoLoop fname f (add64 0x2000 _) m.infile.length 0) = _
    rw [hstart]
  · simp only [if_neg htwo]
    rfl

/-- **A packed file is found** with its size and its bytes: the first one of its name. -/
theorem getFileRvadrandsz_first (htwo : 2 ≤ m.infile.length) {i : Nat}
    (hi : i < m.infile.length) (hfirst : FirstOfName m hi)
    (hfile : fileStart m i + m.infile[i].data.length ≤ n) (retsz : Nat) :
    getFileRvadrandsz m.infile[i].pathname mbsp f retsz
        = .ok (mbsp.mbImgpadr + krnlMapVirtaddressStart + fileStart m i, m.infile[i].data.length) ∧
      At f (mbsp.mbImgpadr + krnlMapVirtaddressStart + fileStart m i) m.infile[i].data := by
  have hmap := hat.mapped
  have hend : krnlMapPhyaddressEnd = 0x400000000 := rfl
  have hvir : krnlMapVirtaddressStart = 0xffff800000000000 := rfl
  obtain ⟨sum, hrec⟩ := hat.placed.fhdsc_rd h hn hi
  have hadr : add64 (fileStart m i) (mbsp.mbImgpadr + krnlMapVirtaddressStart)
      = mbsp.mbImgpadr + krnlMapVirtaddressStart + fileStart m i := by
    rw [add64_eq (show _ < 2 ^ 64 by omega), Nat.add_comm]
  refine ⟨?_, hat.placed.copy (h.data i hi hi) hfile⟩
  simp only [getFileRvadrandsz, hat.getFileinfo_eq h hn, if_pos htwo,
    hat.placed.fileinfoLoop_first h hn hi hfirst, bind, Except.bind,
    hat.phyadrToViradr_imgpadr hn, hrec]
  show Except.ok (add64 (fileStart m i) _, m.infile[i].data.length) = _
  rw [hadr]

/-- **Another name is not found.** -/
theorem getFileRvadrandsz_other (hfname : 0 ∉ fname)
    (hother : fname ∉ m.infile.map Infile.pathname) (retsz : Nat) :
    getFileRvadrandsz fname mbsp f retsz = .ok (0, retsz) := by
  simp only [getFileRvadrandsz, hat.getFileinfo_eq h hn,
    hat.placed.fileinfoLoop_other h hn hfname hother, ite_self]
  rfl

/-- The kernel rejects an image of one file, so that no name is found. -/
theorem getFileRvadrandsz_single (hone : m.infile.length < 2) (fname : List UInt8) (retsz : Nat) :
    getFileRvadrandsz fname mbsp f retsz = .ok (0, retsz) := by
  simp only [getFileRvadrandsz, hat.getFileinfo_eq h hn, if_neg (Nat.not_le.mpr hone)]
  rfl

end ImgAt

/-- **The kernel reads an image of at least two files.**  Each packed name has its size and
an address at which its bytes stand; every other name has address 0. -/
theorem getFileRvadrandsz_of_pack (hnames : (m.infile.map Infile.pathname).Nodup)
    (hpack : limgKrnlModeRun m = .ok img) (htwo : 2 ≤ m.infile.length)
    (hat : ImgAt img img.len mbsp f) (retsz : Nat) :
    (∀ file ∈ m.infile, ∃ retadr,
      getFileRvadrandsz file.pathname mbsp f retsz = .ok (retadr, file.data.length) ∧
        retadr ≠ 0 ∧ At f retadr file.data) ∧
    ∀ fname, 0 ∉ fname → fname ∉ m.infile.map Infile.pathname →
      getFileRvadrandsz fname mbsp f retsz = .ok (0, retsz) := by
  have h := packed_of_run hpack
  have hfiles := holdsFiles_of_packed h
  have hn := hfiles.fhdscs_le h.infile_pos
  constructor
  · intro file hfile
    obtain ⟨i, hi, rfl⟩ := List.mem_iff_getElem.mp hfile
    obtain ⟨hget, hbytes⟩ := hat.getFileRvadrandsz_first h hn htwo hi (names_first hnames hi)
      (hfiles i hi) retsz
    have hvir : krnlMapVirtaddressStart = 0xffff800000000000 := rfl
    exact ⟨_, hget, by omega, hbytes⟩
  · intro fname hfname hother
    exact hat.getFileRvadrandsz_other h hn hfname hother retsz

/-- Memory with the image at physical address `0x4000000`. -/
def loadedAt4000000 (img : PFile) (vadr : Nat) : UInt8 :=
  img.byte (vadr - (0x4000000 + krnlMapVirtaddressStart))

/-- The boot parameters of an image at `0x4000000`. -/
def mbspAt4000000 : Machbstart := { machbstartInit with mbImgpadr := 0x4000000 }

theorem imgAt_4000000 (hlen : img.len ≤ 0x1000000) :
    ImgAt img img.len mbspAt4000000 (loadedAt4000000 img) where
  placed k _ := by
    show img.byte (0x4000000 + krnlMapVirtaddressStart + k - (0x4000000 + krnlMapVirtaddressStart))
      = img.byte k
    rw [Nat.add_sub_cancel_left]
  mapped := by
    show 0x4000000 + img.len ≤ 0x400000000
    omega

/-- A file of two bytes and one of three. -/
def packBA : Mparam where
  ldrh := fileL
  infile := [fileB, fileA]
  hargc := by decide

theorem getFileRvadrandsz_of_pack_packBA : ∃ img retadr,
    limgKrnlModeRun packBA = .ok img ∧
      getFileRvadrandsz [97] mbspAt4000000 (loadedAt4000000 img) 0 = .ok (retadr, 3) ∧
      At (loadedAt4000000 img) retadr [1, 2, 3] ∧
      getFileRvadrandsz [99] mbspAt4000000 (loadedAt4000000 img) 0 = .ok (0, 0) := by
  obtain ⟨img, himg, -⟩ := exists_of_okAnd (e := limgKrnlModeRun packBA) (q := fun _ => true)
    (by decide +kernel)
  have hlen : img.len = 0x5000 := (packed_of_run himg).len.trans (by decide +kernel)
  obtain ⟨hpacked, hother⟩ := getFileRvadrandsz_of_pack (m := packBA) (by decide) himg (by decide)
    (imgAt_4000000 (by omega)) 0
  obtain ⟨retadr, hget, -, hbytes⟩ :=
    hpacked _ (List.mem_cons_of_mem _ List.mem_cons_self)
  exact ⟨img, retadr, himg, hget, hbytes, hother _ (by decide) (by decide)⟩

/-- One file of three bytes. -/
def packA : Mparam where
  ldrh := fileL
  infile := [fileA]
  hargc := by decide

/-- An image of one file is rejected: its file is not found. -/
theorem getFileRvadrandsz_packA : ∃ img,
    limgKrnlModeRun packA = .ok img ∧ ImgAt img img.len mbspAt4000000 (loadedAt4000000 img) ∧
      ¬ ∃ retadr, getFileRvadrandsz [97] mbspAt4000000 (loadedAt4000000 img) 0 = .ok (retadr, 3) := by
  obtain ⟨img, himg, -⟩ := exists_of_okAnd (e := limgKrnlModeRun packA) (q := fun _ => true)
    (by decide +kernel)
  have h := packed_of_run himg
  have hlen : img.len = 0x4000 := h.len.trans (by decide +kernel)
  have hat : ImgAt img img.len mbspAt4000000 (loadedAt4000000 img) := imgAt_4000000 (by omega)
  refine ⟨img, himg, hat, ?_⟩
  rw [hat.getFileRvadrandsz_single h ((holdsFiles_of_packed h).fhdscs_le h.infile_pos) (by decide)]
  rintro ⟨retadr, hget⟩
  cases hget

end Kernel

end Cosmos.Hal
