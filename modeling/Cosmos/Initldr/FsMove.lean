import Cosmos.Hal.HalplatformMove
import Cosmos.Lib.Run

/-!
# Moving the image

`get_wt_imgfilesz` takes the size of the image from `mdc_filbk_e`, the last byte of the
zone of the files, so that every move leaves the last byte of the image behind.  It is a
byte of the last file when that file ends at a block boundary.

## Main results

* `LdrAt.getFileRpadrandsz_first`: the loader finds a packed file.
* `LdrInv.step`: a move of the loader keeps the files.
* `moves_keep_files`: so do runs of moves of the loader and of the kernel.
-/

namespace Cosmos.Initldr

open Cosmos.Lib.Bytes Cosmos.Lib.Copy Cosmos.Lib.Files Cosmos.Lib.Run Cosmos.Lib.Word64
open Cosmos.Hal Cosmos.Tools

/-! ## Finding a file -/

theorem u32_eq {x : Nat} (h : x < 2 ^ 32) : u32 x = x := Nat.mod_eq_of_lt h

/-- The first `n` bytes of the image stand at `mb_imgpadr`. -/
structure LdrAt (img : PFile) (n : Nat) (s : Ldr) : Prop where
  placed : Placed img n s.mem s.mbsp.mbImgpadr
  inMem : s.mbsp.mbImgpadr + n ≤ 2 ^ 32

section Lookup

variable {m : Mparam} {img : PFile} {n i : Nat} {s : Ldr} {fname : List UInt8}

namespace LdrAt

variable (hat : LdrAt img n s) (h : Packed m img)
  (hn : 0x2000 + 256 * m.infile.length ≤ n)

include hat h hn

/-- What `get_fileinfo` of the loader looks through. -/
theorem ldrGetFileinfo_eq (fname : List UInt8) (htwo : 2 ≤ m.infile.length) :
    ldrGetFileinfo fname s =
      match fileinfoLoop fname s.mem (s.mbsp.mbImgpadr + 0x2000) m.infile.length 0 with
      | none => .error "not find file"
      | some fhdsc => .ok fhdsc := by
  have hmem := hat.inMem
  have hoff : mlosdscOff = 0x1000 := rfl
  have hdsc : u32 (add64 s.mbsp.mbImgpadr mlosdscOff) = s.mbsp.mbImgpadr + 0x1000 := by
    rw [add64_eq (show _ < 2 ^ 64 by omega), hoff]
    exact u32_eq (by omega)
  have hstart : u32 (u32 0x2000 + u32 s.mbsp.mbImgpadr) = s.mbsp.mbImgpadr + 0x2000 := by
    rw [u32_eq (show 0x2000 < 2 ^ 32 by decide), u32_eq (show s.mbsp.mbImgpadr < 2 ^ 32 by omega),
      Nat.add_comm]
    exact u32_eq (by omega)
  have hmd := hat.placed.mlosrddsc_rd h hn
  simp only [ldrGetFileinfo, hdsc, hmd, checked_iff, if_pos htwo]
  show (match fileinfoLoop fname s.mem (u32 (u32 0x2000 + u32 s.mbsp.mbImgpadr)) m.infile.length 0
    with | none => _ | some fhdsc => _) = _
  rw [hstart]

/-- **The loader finds a packed file**: the first one of its name. -/
theorem getFileRpadrandsz_first (htwo : 2 ≤ m.infile.length) (hi : i < m.infile.length)
    (hfirst : FirstOfName m hi)
    (hbegin : fileStart m i < n) (hfile : fileStart m i + m.infile[i].data.length ≤ n + 1)
    (retsz : Nat) :
    getFileRpadrandsz m.infile[i].pathname s retsz
        = .ok (s.mbsp.mbImgpadr + fileStart m i, m.infile[i].data.length) := by
  have hmem := hat.inMem
  have hpos := h.data_pos hi
  have hstart := fhdsc_end_le hi i
  obtain ⟨sum, hrec⟩ := hat.placed.fhdsc_rd h hn hi
  have hadr : add64 (fileStart m i) s.mbsp.mbImgpadr = s.mbsp.mbImgpadr + fileStart m i := by
    rw [add64_eq (show _ < 2 ^ 64 by omega), Nat.add_comm]
  simp only [getFileRpadrandsz, hat.ldrGetFileinfo_eq h hn _ htwo,
    hat.placed.fileinfoLoop_first h hn hi hfirst, bind, Except.bind, hrec]
  show (if 0xffffffff < add64 (fileStart m i) s.mbsp.mbImgpadr then _ else
    Except.ok (u32 (add64 (fileStart m i) s.mbsp.mbImgpadr), u32 m.infile[i].data.length)) = _
  rw [hadr, if_neg (by omega), u32_eq (by omega), u32_eq (by omega)]

/-- A name that was not packed stops the loader. -/
theorem getFileRpadrandsz_other (htwo : 2 ≤ m.infile.length) (hfname : 0 ∉ fname)
    (hother : fname ∉ m.infile.map Infile.pathname) (retsz : Nat) :
    getFileRpadrandsz fname s retsz = .error "not find file" := by
  simp only [getFileRpadrandsz, hat.ldrGetFileinfo_eq h hn _ htwo,
    hat.placed.fileinfoLoop_other h hn hfname hother]
  rfl

end LdrAt

end Lookup

/-! ## The size that is moved -/

/-- The last packed file does not end at a block boundary. -/
def RaggedEnd (m : Mparam) : Prop :=
  ∀ f, m.infile.getLast? = some f → f.data.length % 0x1000 ≠ 0

/-- The image stands at `LDRFILEADR`. -/
structure Loaded (img : PFile) (mem : Nat → UInt8) : Prop where
  placed : Placed img img.len mem ldrfileadr
  inMem : ldrfileadr + img.len ≤ 2 ^ 32

section Size

variable {m : Mparam} {img : PFile} {s : Ldr}

/-- All but the last byte of the image hold the files, unless the last one ends with it. -/
theorem holdsFiles_pred (h : Packed m img) (hrag : RaggedEnd m) :
    HoldsFiles m (img.len - 1) := by
  intro i hi
  have hpos := h.infile_pos
  rcases Nat.lt_or_ge (i + 1) m.infile.length with hlt | hge
  · -- the last file begins behind file `i`
    have hlast : m.infile.length - 1 < m.infile.length := by omega
    have hbefore := fileStart_add_le hi (show i < m.infile.length - 1 by omega)
    have hbehind := fileStart_add_le hlast hlast
    have hdata := h.data_pos hlast
    rw [h.len]
    omega
  · obtain rfl : i = m.infile.length - 1 := by omega
    have hmod := hrag m.infile[m.infile.length - 1] (by
      rw [List.getLast?_eq_getElem?, List.getElem?_eq_getElem hi])
    have htop := add_lt_of_le_offMax m.infile[m.infile.length - 1].hdata
    have hend : img.len = fileStart m (m.infile.length - 1)
        + blkAlign m.infile[m.infile.length - 1].data.length := by
      rw [h.len, ← fileStart_succ hi, Nat.sub_add_cancel hpos]
    rw [hend, blkAlign_eq htop]
    omega

/-- An image of two files has a block of records and two of data. -/
theorem len_ge_of_two (h : Packed m img) (htwo : 2 ≤ m.infile.length) : 0x5000 ≤ img.len := by
  have hfhed := le_fhedLen m
  have hmod : fhedLen m % 0x1000 = 0 := blkAlign_mod _
  have hend : fileStart m 2 ≤ fileStart m m.infile.length := fileStart_mono htwo
  have hone : fileStart m 1 = fileStart m 0 + _ := fileStart_succ (by omega)
  have hsucc : fileStart m 2 = fileStart m 1 + _ := fileStart_succ (by omega)
  have hblk : ∀ i (hi : i < m.infile.length), 0x1000 ≤ blkAlign m.infile[i].data.length := by
    intro i hi
    have hdata := h.data_pos hi
    rw [blkAlign_eq (add_lt_of_le_offMax m.infile[i].hdata)]
    omega
  have h₀ := hblk 0 (by omega)
  have h₁ := hblk 1 (by omega)
  rw [fileStart_zero] at hone
  rw [h.len]
  omega

/-- **`get_wt_imgfilesz` misses the last byte of the image.** -/
theorem getWtImgfilesz_eq (h : Packed m img) (htwo : 2 ≤ m.infile.length)
    (hload : Loaded img s.mem) :
    getWtImgfilesz s = (img.len - 1, { s with
      mbsp := { s.mbsp with mbImgpadr := ldrfileadr, mbImgsz := img.len - 1 } }) := by
  have hlen := len_ge_of_two h htwo
  have hmem := hload.inMem
  have hldr : ldrfileadr = 0x4000000 := rfl
  have hmd := hload.placed.mlosrddsc_rd h ((holdsFiles_of_packed h).fhdscs_le h.infile_pos)
  have hsz : sub64 (add64 ldrfileadr (img.len - 1)) ldrfileadr = img.len - 1 := by
    rw [add64_eq (show _ < 2 ^ 64 by omega), sub64_eq (show _ < 2 ^ 64 by omega) (by omega)]
    omega
  simp only [getWtImgfilesz, hmd, checked_iff, if_pos htwo, h.filbkE,
    if_neg (show ¬ img.len - 1 < 0x4000 by omega), hsz]

end Size

/-! ## Moves -/

/-- A call of `move_krlimg`, which the callers take for an error when it returns less than 1. -/
def ldrStep (s : Ldr) (cpy : Nat × Nat) : Except String Ldr :=
  match moveKrlimg cpy.1 cpy.2 s with
  | (ret, s') => if ret < 1 then .error "move_krlimg err" else .ok s'

/-- A call of `move_img2maxpadr`. -/
def krnlStep (s : Krnl) (_ : Unit) : Except String Krnl := moveImg2maxpadr s

/-- What the kernel starts from: it sees the memory at its virtual addresses, and
`init_bstartpages` has set `mb_kpmapphymemsz`. -/
def krnlStart (s : Ldr) : Krnl where
  mbsp := { s.mbsp with mbKpmapphymemsz := 0x400000000 }
  mem vadr := s.mem (vadr - krnlMapVirtaddressStart)

/-- When `move_krlimg` moves the image to another place: the last file has padding behind it,
the size is positive as a `sint_t`, and the new place is in the address space of the loader. -/
def LdrMoveOk (m : Mparam) (s : Ldr) (cpy : Nat × Nat) : Prop :=
  adrzoneIsOk s.mbsp.mbImgpadr s.mbsp.mbImgsz cpy.1 cpy.2 ≠ 0 →
    u32 (p4kAlign (add64 cpy.1 cpy.2)) ≠ s.mbsp.mbImgpadr →
    RaggedEnd m ∧ s.mbsp.mbImgsz < 2 ^ 31 ∧ cpy.1 + cpy.2 ≤ 0xfffff000 ∧
      p4kAlign (cpy.1 + cpy.2) + s.mbsp.mbImgsz ≤ 2 ^ 32

section Moves

variable {m : Mparam} {img : PFile}

/-- The loader holds the files of the image. -/
structure LdrInv (m : Mparam) (img : PFile) (s : Ldr) : Prop where
  imgsz : s.mbsp.mbImgsz = img.len - 1
  imgpadr : 0 < s.mbsp.mbImgpadr
  held : ∃ n, img.len - 1 ≤ n ∧ HoldsFiles m n ∧ LdrAt img n s

/-- What a successful `move_krlimg` does. -/
theorem ldrStep_cases {s s' : Ldr} {cpy : Nat × Nat} (h : ldrStep s cpy = .ok s') :
    s' = s ∧ adrzoneIsOk s.mbsp.mbImgpadr s.mbsp.mbImgsz cpy.1 cpy.2 = 0 ∨
    1 ≤ cpy.2 ∧ adrzoneIsOk s.mbsp.mbImgpadr s.mbsp.mbImgsz cpy.1 cpy.2 ≠ 0 ∧
      s' = { mbsp := { s.mbsp with mbImgpadr := u32 (p4kAlign (add64 cpy.1 cpy.2)) }
             mem := (m2mcopy (2 ^ 32) (u32 s.mbsp.mbImgpadr) (u32 (p4kAlign (add64 cpy.1 cpy.2)))
               (sint32 s.mbsp.mbImgsz) s.mem).1 } := by
  unfold ldrStep moveKrlimg at h
  by_cases hsum : 0xffffffff ≤ add64 cpy.1 cpy.2 ∨ cpy.2 < 1
  · rw [if_pos hsum] at h
    cases h
  · rw [if_neg hsum] at h
    by_cases hzone : adrzoneIsOk s.mbsp.mbImgpadr s.mbsp.mbImgsz cpy.1 cpy.2 ≠ 0
    · simp only [if_pos hzone] at h
      split at h
      · cases h
      · cases h
        exact Or.inr ⟨by omega, hzone, rfl⟩
    · simp only [if_neg hzone] at h
      cases h
      exact Or.inl ⟨rfl, not_not.mp hzone⟩

/-- A move that takes place. -/
theorem ldrStep_moved {s : Ldr} {cpy : Nat × Nat}
    (hsum : ¬ (0xffffffff ≤ add64 cpy.1 cpy.2 ∨ cpy.2 < 1))
    (hzone : adrzoneIsOk s.mbsp.mbImgpadr s.mbsp.mbImgsz cpy.1 cpy.2 ≠ 0)
    (hchk : chkMemsize s.mem (u32 s.mbsp.mbE820padr) (u32 s.mbsp.mbE820nr)
      (u32 (p4kAlign (add64 cpy.1 cpy.2))) (u64OfSint (sint32 s.mbsp.mbImgsz)) ≠ none) :
    ldrStep s cpy = .ok
      { mbsp := { s.mbsp with mbImgpadr := u32 (p4kAlign (add64 cpy.1 cpy.2)) }
        mem := (m2mcopy (2 ^ 32) (u32 s.mbsp.mbImgpadr) (u32 (p4kAlign (add64 cpy.1 cpy.2)))
          (sint32 s.mbsp.mbImgsz) s.mem).1 } := by
  simp only [ldrStep, moveKrlimg, if_neg hsum, if_pos hzone, if_neg hchk]
  rfl

/-- **A move of the loader keeps the files.** -/
theorem LdrInv.step (h : Packed m img) (htwo : 2 ≤ m.infile.length) {s s' : Ldr}
    {cpy : Nat × Nat} (hinv : LdrInv m img s) (hok : LdrMoveOk m s cpy)
    (hstep : ldrStep s cpy = .ok s') : LdrInv m img s' := by
  rcases ldrStep_cases hstep with ⟨rfl, -⟩ | ⟨hsz, hzone, rfl⟩
  · exact hinv
  · obtain ⟨n, hn, -, hat⟩ := hinv.held
    have hlen := len_ge_of_two h htwo
    have himgsz := hinv.imgsz
    have himgpadr := hinv.imgpadr
    have hmem := hat.inMem
    have hpadr : u32 s.mbsp.mbImgpadr = s.mbsp.mbImgpadr := u32_eq (by omega)
    by_cases hplace : u32 (p4kAlign (add64 cpy.1 cpy.2)) = s.mbsp.mbImgpadr
    · -- the range ends at the page where the image begins
      rw [hplace, hpadr, m2mcopy_self]
      exact hinv
    obtain ⟨hrag, hsmall, hsum, hfit⟩ := hok hzone hplace
    have hto : u32 (p4kAlign (add64 cpy.1 cpy.2)) = p4kAlign (cpy.1 + cpy.2) := by
      rw [add64_eq (show _ < 2 ^ 64 by omega)]
      exact u32_eq (by omega)
    have hto_pos : 0x1000 ≤ p4kAlign (cpy.1 + cpy.2) := by
      rw [p4kAlign, add64_eq (show _ < 2 ^ 64 by omega)]
      omega
    have hsint : sint32 s.mbsp.mbImgsz = (s.mbsp.mbImgsz : Int) := by
      rw [sint32, u32_eq (by omega), if_pos hsmall]
    have hcopy := m2mcopy_eq (M := 2 ^ 32) (f := s.mem) (n := s.mbsp.mbImgsz)
      (show s.mbsp.mbImgpadr ≠ 0 by omega) (show p4kAlign (cpy.1 + cpy.2) ≠ 0 by omega)
      (by omega) (by omega) hfit
    rw [hto, hsint, hpadr, hcopy]
    refine ⟨himgsz, by show 0 < p4kAlign (cpy.1 + cpy.2); omega, img.len - 1, Nat.le_refl _,
      holdsFiles_pred h hrag, ?_, ?_⟩
    · intro k hk
      show moved s.mem s.mbsp.mbImgpadr (p4kAlign (cpy.1 + cpy.2)) s.mbsp.mbImgsz _ = img.byte k
      rw [moved_in (by omega)]
      exact hat.placed k (by omega)
    · rw [← himgsz]
      exact hfit

/-- The kernel holds the files of the image. -/
structure KrnlInv (m : Mparam) (img : PFile) (s : Krnl) : Prop where
  imgsz : s.mbsp.mbImgsz = img.len - 1
  kpmap : s.mbsp.mbKpmapphymemsz = krnlMapPhyaddressEnd
  held : ∃ n, img.len - 1 ≤ n ∧ HoldsFiles m n ∧ ImgAt img n s.mbsp s.mem

/-- **A move of the kernel keeps the files.** -/
theorem KrnlInv.step (h : Packed m img) (htwo : 2 ≤ m.infile.length) (hsmall : img.len ≤ 2 ^ 32)
    {s s' : Krnl} (hinv : KrnlInv m img s) (hrag : RaggedEnd m)
    (hstep : krnlStep s () = .ok s') : KrnlInv m img s' := by
  have hlen := len_ge_of_two h htwo
  have himgsz := hinv.imgsz
  obtain ⟨n, hn, -, hat⟩ := hinv.held
  obtain ⟨toadr, hfit, rfl⟩ := moveImg2maxpadr_ok hstep (Nat.le_of_eq hinv.kpmap) (by omega)
    (by omega)
  refine ⟨himgsz, hinv.kpmap, img.len - 1, Nat.le_refl _, holdsFiles_pred h hrag, ?_, ?_⟩
  · intro k hk
    show moved s.mem (s.mbsp.mbImgpadr + krnlMapVirtaddressStart)
      (toadr + krnlMapVirtaddressStart) s.mbsp.mbImgsz _ = img.byte k
    rw [moved_in (by omega)]
    exact hat.placed k (by omega)
  · rw [← himgsz]
    exact hfit

/-- The image that was loaded. -/
theorem ldrInv_loaded (h : Packed m img) (htwo : 2 ≤ m.infile.length) {s : Ldr}
    (hload : Loaded img s.mem) : LdrInv m img (getWtImgfilesz s).2 := by
  rw [getWtImgfilesz_eq h htwo hload]
  exact ⟨rfl, show 0 < ldrfileadr by decide, img.len, Nat.sub_le _ _, holdsFiles_of_packed h,
    hload.placed, hload.inMem⟩

/-- The kernel takes the image over. -/
theorem LdrInv.krnlStart {s : Ldr} (hinv : LdrInv m img s) : KrnlInv m img (krnlStart s) := by
  obtain ⟨n, hn, hfiles, hat⟩ := hinv.held
  have hmem := hat.inMem
  have hend : krnlMapPhyaddressEnd = 0x400000000 := rfl
  refine ⟨hinv.imgsz, rfl, n, hn, hfiles, ?_, ?_⟩
  · intro k hk
    show s.mem (s.mbsp.mbImgpadr + krnlMapVirtaddressStart + k - krnlMapVirtaddressStart) = _
    rw [Nat.add_right_comm, Nat.add_sub_cancel]
    exact hat.placed k hk
  · show s.mbsp.mbImgpadr + n ≤ krnlMapPhyaddressEnd
    omega

/-- **Runs of moves keep every file**, when each move that takes place meets its condition.
After the moves of the loader, and after the moves of the kernel that follow, each packed
name has the size of the first file of that name, and an address at which its bytes stand. -/
theorem moves_keep_files (hpack : limgKrnlModeRun m = .ok img) (htwo : 2 ≤ m.infile.length)
    {s₀ s₁ : Ldr} (hload : Loaded img s₀.mem) {cpys : List (Nat × Nat)}
    (hldr : run ldrStep cpys (getWtImgfilesz s₀).2 = .ok s₁)
    (hok : AllSteps ldrStep (LdrMoveOk m) cpys (getWtImgfilesz s₀).2) :
    (∀ i (hi : i < m.infile.length), FirstOfName m hi → ∃ retadr,
      getFileRpadrandsz m.infile[i].pathname s₁ 0 = .ok (retadr, m.infile[i].data.length) ∧
        At s₁.mem retadr m.infile[i].data) ∧
    ∀ calls s₂, run krnlStep calls (krnlStart s₁) = .ok s₂ →
      AllSteps krnlStep (fun _ _ => RaggedEnd m) calls (krnlStart s₁) →
      ∀ i (hi : i < m.infile.length), FirstOfName m hi → ∃ retadr,
        getFileRvadrandsz m.infile[i].pathname s₂.mbsp s₂.mem 0
          = .ok (retadr, m.infile[i].data.length) ∧ At s₂.mem retadr m.infile[i].data := by
  have h := packed_of_run hpack
  have hinv : LdrInv m img s₁ := run_inv_of_allSteps (LdrInv m img) (LdrMoveOk m)
    (fun s cpy s' hs hP hstep => hs.step h htwo hP hstep) cpys _ s₁ (ldrInv_loaded h htwo hload)
    hok hldr
  have hsmall : img.len ≤ 2 ^ 32 := by
    have hmem := hload.inMem
    omega
  constructor
  · intro i hi hfirst
    obtain ⟨n, -, hfiles, hat⟩ := hinv.held
    have hfile := hfiles i hi
    have hpos := h.data_pos hi
    exact ⟨_, hat.getFileRpadrandsz_first h (hfiles.fhdscs_le h.infile_pos) htwo hi
      hfirst (by omega) (by omega) 0, hat.placed.copy (h.data i hi hi) hfile⟩
  · intro calls s₂ hkrnl hrag
    have hinv₂ : KrnlInv m img s₂ := run_inv_of_allSteps (KrnlInv m img) (fun _ _ => RaggedEnd m)
      (fun s _ s' hs hP hstep => hs.step h htwo hsmall hP hstep) calls _ s₂ hinv.krnlStart hrag
      hkrnl
    intro i hi hfirst
    obtain ⟨n, -, hfiles, hat⟩ := hinv₂.held
    obtain ⟨hget, hbytes⟩ := hat.getFileRvadrandsz_first h (hfiles.fhdscs_le h.infile_pos) htwo hi
      hfirst (hfiles i hi) 0
    exact ⟨_, hget, hbytes⟩

/-! ### A move of 4 KiB -/

/-- The bytes of an entry of the memory map. -/
def e820Bytes (e : E820map) : List UInt8 := wordBytes [e.saddr, e.lsize] ++ leBytes 4 e.type

theorem e820At_of_at {f : Nat → UInt8} {a : Nat} {e : E820map} (hat : At f a (e820Bytes e))
    (hsaddr : e.saddr < 2 ^ 64) (hlsize : e.lsize < 2 ^ 64) (htype : e.type < 2 ^ 32) :
    e820At f a = e := by
  obtain ⟨hwords, hcode⟩ := at_append.mp hat
  have hword := rd64_of_words hwords
    (List.forall_mem_cons.mpr ⟨hsaddr, List.forall_mem_cons.mpr ⟨hlsize, fun _ hw => nomatch hw⟩⟩)
  have hs : rd64 f a = e.saddr := hword 0 Nat.two_pos
  have hl : rd64 f (a + 8) = e.lsize := hword 1 Nat.one_lt_two
  have ht : leVal f (a + 16) 4 = e.type := (leVal_of_at hcode).trans (Nat.mod_eq_of_lt htype)
  rw [e820At, hs, hl, ht]

/-- A map of one entry: 1 GiB of usable memory from 1 MiB on. -/
def oneE820 : E820map := ⟨0x100000, 0x40000000, ramUsable⟩

/-- The loader with an image at `LDRFILEADR` and the map at `0x5000`. -/
def ldrWith (img : PFile) : Ldr where
  mbsp := { machbstartInit with mbE820padr := 0x5000, mbE820nr := 1 }
  mem a :=
    if ldrfileadr ≤ a then img.byte (a - ldrfileadr) else (e820Bytes oneE820).getD (a - 0x5000) 0

theorem loaded_ldrWith (hlen : img.len = 0x5000) : Loaded img (ldrWith img).mem where
  placed k _ := by
    show (if ldrfileadr ≤ ldrfileadr + k then _ else _) = _
    rw [if_pos (Nat.le_add_right _ _), Nat.add_sub_cancel_left]
  inMem := by
    rw [hlen]
    decide

theorem chkMemsize_ldrWith (img : PFile) :
    chkMemsize (ldrWith img).mem 0x5000 1 0x4001000 0x4fff = some 0x5000 := by
  have hat : At (ldrWith img).mem 0x5000 (e820Bytes oneE820) := fun k hk => by
    have hlow : ¬ ldrfileadr ≤ 0x5000 + k := by
      have hlen : (e820Bytes oneE820).length = 20 := rfl
      have hldr : ldrfileadr = 0x4000000 := rfl
      omega
    show (if ldrfileadr ≤ 0x5000 + k then _ else _) = _
    rw [if_neg hlow, Nat.add_sub_cancel_left, List.getD_eq_getElem _ 0 hk]
  have he : e820At (ldrWith img).mem (0x5000 + sizeofE820map * 0) = oneE820 :=
    e820At_of_at hat (by decide) (by decide) (by decide)
  rw [chkMemsize, if_neg (by decide), chkMemsizeLoop, he]
  rfl

/-- The state after `move_krlimg(0x4000000, 0x1000)`. -/
def ldrMoved (img : PFile) : Ldr where
  mbsp := { (ldrWith img).mbsp with mbImgpadr := 0x4001000, mbImgsz := 0x4fff }
  mem := moved (ldrWith img).mem ldrfileadr 0x4001000 0x4fff

/-- The image of 20 KiB is in the way and is moved. -/
theorem ldrStep_ldrWith (h : Packed m img) (htwo : 2 ≤ m.infile.length) (hlen : img.len = 0x5000) :
    ldrStep (getWtImgfilesz (ldrWith img)).2 (ldrfileadr, 0x1000) = .ok (ldrMoved img) := by
  have hcopy : m2mcopy (2 ^ 32) ldrfileadr 0x4001000 ((0x4fff : Nat) : Int) (ldrWith img).mem
      = (moved (ldrWith img).mem ldrfileadr 0x4001000 0x4fff, ((0x4fff : Nat) : Int)) :=
    m2mcopy_eq (by decide) (by decide) (by decide) (by decide) (by decide)
  have hto : u32 (p4kAlign (add64 ldrfileadr 0x1000)) = 0x4001000 := by decide
  have hsint : sint32 (0x5000 - 1) = ((0x4fff : Nat) : Int) := by decide
  have hldr : u32 ldrfileadr = ldrfileadr := by decide
  rw [getWtImgfilesz_eq h htwo (loaded_ldrWith hlen), hlen]
  rw [ldrStep_moved (by decide) (show adrzoneIsOk ldrfileadr 0x4fff ldrfileadr 0x1000 ≠ 0 by decide) (by
    show chkMemsize (ldrWith img).mem 0x5000 1 (u32 (p4kAlign (add64 ldrfileadr 0x1000)))
      (u64OfSint (sint32 (0x5000 - 1))) ≠ none
    rw [hto, hsint, show u64OfSint ((0x4fff : Nat) : Int) = 0x4fff by decide, chkMemsize_ldrWith]
    exact Option.some_ne_none _)]
  simp only [hto, hsint, hldr, hcopy]
  rfl

theorem moves_keep_files_packBA : ∃ img s₁ retadr,
    limgKrnlModeRun packBA = .ok img ∧
      run ldrStep [(ldrfileadr, 0x1000)] (getWtImgfilesz (ldrWith img)).2 = .ok s₁ ∧
      getFileRpadrandsz [97] s₁ 0 = .ok (retadr, 3) ∧ At s₁.mem retadr [1, 2, 3] := by
  obtain ⟨img, himg, -⟩ := exists_of_okAnd (e := limgKrnlModeRun packBA) (q := fun _ => true)
    (by decide +kernel)
  have h := packed_of_run himg
  have hlen : img.len = 0x5000 := h.len.trans (by decide +kernel)
  have hstep := ldrStep_ldrWith h (by decide) hlen
  have hrun : run ldrStep [(ldrfileadr, 0x1000)] (getWtImgfilesz (ldrWith img)).2
      = .ok (ldrMoved img) := by rw [run_cons_ok hstep, run_nil]
  have hrag : RaggedEnd packBA := by
    intro f hf
    cases hf
    decide
  have hsize : (getWtImgfilesz (ldrWith img)).2.mbsp.mbImgsz = 0x4fff := by
    rw [getWtImgfilesz_eq h (by decide) (loaded_ldrWith hlen), hlen]
  have hok : LdrMoveOk packBA (getWtImgfilesz (ldrWith img)).2 (ldrfileadr, 0x1000) := fun _ _ => by
    rw [hsize]
    exact ⟨hrag, by decide, by decide, by decide⟩
  obtain ⟨hldr, -⟩ := moves_keep_files (m := packBA) himg (by decide)
    (loaded_ldrWith hlen) hrun ⟨hok, fun _ _ => trivial⟩
  obtain ⟨retadr, hget, hbytes⟩ := hldr 1 (by decide) (names_first (by decide) (by decide))
  exact ⟨img, ldrMoved img, retadr, himg, hrun, hget, hbytes⟩

/-- A file of two bytes and one of 4096, which ends at a block boundary. -/
def packAligned : Mparam where
  ldrh := fileL
  infile := [fileB,
    ⟨[97], List.replicate 4096 1, fileA.hpathname, by rw [List.length_replicate]; decide⟩]
  hargc := by decide

/-- The move leaves the last byte of the second file behind: where the file is found, its
bytes do not stand. -/
theorem moves_packAligned : ∃ img,
    limgKrnlModeRun packAligned = .ok img ∧ Loaded img (ldrWith img).mem ∧
      run ldrStep [(ldrfileadr, 0x1000)] (getWtImgfilesz (ldrWith img)).2 = .ok (ldrMoved img) ∧
      ¬ ∃ retadr, getFileRpadrandsz [97] (ldrMoved img) 0 = .ok (retadr, 4096) ∧
        At (ldrMoved img).mem retadr (List.replicate 4096 1) := by
  obtain ⟨img, himg, -⟩ := exists_of_okAnd (e := limgKrnlModeRun packAligned) (q := fun _ => true)
    (by decide +kernel)
  have h := packed_of_run himg
  have hlen : img.len = 0x5000 := h.len.trans (by decide +kernel)
  have hstep := ldrStep_ldrWith h (by decide) hlen
  refine ⟨img, himg, loaded_ldrWith hlen, by rw [run_cons_ok hstep, run_nil], ?_⟩
  rintro ⟨retadr, hget, hbytes⟩
  -- the record of the file is found in what was moved
  have hat : LdrAt img 0x4fff (ldrMoved img) := by
    refine ⟨fun k hk => ?_, show 0x4001000 + 0x4fff ≤ 2 ^ 32 by decide⟩
    show moved (ldrWith img).mem ldrfileadr 0x4001000 0x4fff (0x4001000 + k) = img.byte k
    rw [moved_in hk]
    exact (loaded_ldrWith hlen).placed k (by omega)
  have hfound := hat.getFileRpadrandsz_first h (i := 1) (by decide) (by decide) (by decide)
    (names_first (by decide) (by decide)) (by decide +kernel) (by decide +kernel) 0
  rw [show packAligned.infile[1].pathname = [97] from rfl, hget] at hfound
  have hadr : retadr = 0x4001000 + fileStart packAligned 1 :=
    (Prod.mk.inj (Except.ok.inj hfound)).1
  -- its last byte is what stood behind the loaded image
  have hlast := hbytes 4095 (by rw [List.length_replicate]; decide)
  rw [List.getElem_replicate, hadr, show fileStart packAligned 1 = 0x4000 by decide +kernel] at hlast
  have hbehind : (ldrMoved img).mem (0x4001000 + 0x4000 + 4095) = 0 := by
    rw [show (ldrMoved img).mem = moved (ldrWith img).mem ldrfileadr 0x4001000 0x4fff from rfl,
      moved_out (Or.inr (by decide))]
    exact img.zero _ (by rw [hlen]; decide)
  rw [hbehind] at hlast
  exact absurd hlast (by decide)

end Moves

end Cosmos.Initldr
