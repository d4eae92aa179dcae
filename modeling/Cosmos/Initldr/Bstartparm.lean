import Cosmos.Initldr.FsMove

/-!
# The layout that the loader leaves

`init_bstartparm` puts the stack and the page tables at fixed addresses below the kernel,
and the kernel, the font and the copy of the memory map one behind the other from 32 MiB
on.  `chkadr_is_ok` keeps kernel and font below the image at 64 MiB.  Only the copy of the
memory map can reach the image, which then moves behind it.

## Main results

* `rFileToPadr_ok`: a file that was placed ends below the image.
* `initBstartparm_layout`: the ranges in `machbstart_t` have no byte in common, and hold
  what they are for.
-/

namespace Cosmos.Initldr

open Cosmos.Lib.Bytes Cosmos.Lib.Copy Cosmos.Lib.Files Cosmos.Lib.Run Cosmos.Lib.StM
open Cosmos.Lib.Word64 Cosmos.Hal Cosmos.Tools

/-- `E80MAP_ADR`.  `_getmmap` in `realintsve.asm` stores the memory map there, and reports none
when its entries would end behind the next 4 KiB. -/
abbrev e80mapAdr : Nat := 0x5000

/-- Two ranges, each an address and a size, without a common byte. -/
def Apart (r₁ r₂ : Nat × Nat) : Prop := r₁.1 + r₁.2 ≤ r₂.1 ∨ r₂.1 + r₂.2 ≤ r₁.1

/-- The initial stack, the kernel, the font, the copy of the memory map, the page tables and
the image. -/
def placedRanges (mbsp : Machbstart) : List (Nat × Nat) :=
  [(sub64 mbsp.mbKrlinitstack mbsp.mbKrlitstacksz, mbsp.mbKrlitstacksz),
    (mbsp.mbKrlimgpadr, mbsp.mbKrlsz), (mbsp.mbBfontpadr, mbsp.mbBfontsz),
    (mbsp.mbE820padr, mbsp.mbE820sz), (mbsp.mbPml4padr, mbsp.mbSubpageslen),
    (mbsp.mbImgpadr, mbsp.mbImgsz)]

/-- The `sz` bytes at `a` are those of the file that was packed under the name, the first one
if there are more. -/
def HoldsFile (m : Mparam) (fname : List UInt8) (f : Nat → UInt8) (a sz : Nat) : Prop :=
  ∃ file, m.infile.find? (fun file => file.pathname = fname) = some file ∧
    sz = file.data.length ∧ At f a file.data

/-! ## Checks -/

section Checks

variable {mbsp : Machbstart} {s s' : Ldr} {m : Mparam} {img : PFile} {fname : List UInt8}
  {a n retsz padr sz : Nat} {f : Nat → UInt8}

/-- A range that begins in front of another one passes the check when it ends before it. -/
theorem adrzoneIsOk_eq_zero {sadr slen kadr klen : Nat} (hle : kadr ≤ sadr)
    (htop : kadr + klen < 2 ^ 64) : adrzoneIsOk sadr slen kadr klen = 0 ↔ kadr + klen < sadr := by
  rw [adrzoneIsOk, add64_eq (a := kadr) (b := klen) htop]
  constructor
  · intro h
    split at h
    · cases h
    · split at h
      · cases h
      · omega
  · intro h
    rw [if_neg (by omega), if_neg (by omega)]

/-- `chkadr_is_ok` checks against the image. -/
theorem adrzoneIsOk_img (h : chkadrIsOk mbsp a n = 0) :
    adrzoneIsOk mbsp.mbImgpadr mbsp.mbImgsz a n = 0 := by
  unfold chkadrIsOk at h
  by_contra hne
  rw [if_pos hne] at h
  split at h <;> cases h

theorem sint32_toNat_lt (x : Nat) : (sint32 x).toNat < 2 ^ 31 := by
  have hlt : u32 x < 2 ^ 32 := Nat.mod_lt _ (by decide)
  unfold sint32
  split <;> omega

theorem getFileRpadrandsz_lt (h : getFileRpadrandsz fname s 0 = .ok (padr, sz)) :
    sz < 2 ^ 32 := by
  unfold getFileRpadrandsz at h
  cases hinfo : ldrGetFileinfo fname s with
  | error e =>
      rw [hinfo] at h
      cases h
  | ok fhdsc =>
      rw [hinfo] at h
      simp only [bind, Except.bind] at h
      split at h
      · cases h
        decide
      · cases h
        exact Nat.mod_lt _ (by decide)

/-- **What `r_file_to_padr` did** when it returned a size. -/
theorem rFileToPadr_ok (h : rFileToPadr a fname s = .ok (sz, f)) (hsz : sz ≠ 0)
    (ha : a ≤ s.mbsp.mbImgpadr) (htop : a < 2 ^ 32) :
    a + sz < s.mbsp.mbImgpadr ∧ sz < 2 ^ 32 ∧ ∃ padr,
      getFileRpadrandsz fname s 0 = .ok (padr, sz) ∧
        f = (m2mcopy (2 ^ 32) padr a (sint32 sz) s.mem).1 := by
  unfold rFileToPadr at h
  split at h
  · cases h
    exact absurd rfl hsz
  · cases hget : getFileRpadrandsz fname s 0 with
    | error e =>
        rw [hget] at h
        cases h
    | ok p =>
        rw [hget] at h
        simp only [bind, Except.bind] at h
        split at h
        · cases h
          exact absurd rfl hsz
        · split at h
          · cases h
            exact absurd rfl hsz
          · split at h
            · cases h
              exact absurd rfl hsz
            · rename_i hchk
              cases h
              have hlt := getFileRpadrandsz_lt hget
              have htop : a + p.2 < 2 ^ 64 := by omega
              have hzone := adrzoneIsOk_img (not_not.mp hchk)
              have hend := (adrzoneIsOk_eq_zero ha htop).mp hzone
              exact ⟨hend, hlt, p.1, rfl, rfl⟩

/-- A file that was found is the first of its name. -/
theorem LdrAt.find?_of_get (hat : LdrAt img img.len s) (h : Packed m img)
    (htwo : 2 ≤ m.infile.length) (hfname : 0 ∉ fname)
    (hget : getFileRpadrandsz fname s retsz = .ok (padr, sz)) :
    ∃ file, m.infile.find? (fun file => file.pathname = fname) = some file ∧
      sz = file.data.length ∧ s.mbsp.mbImgpadr ≤ padr ∧ padr + sz ≤ s.mbsp.mbImgpadr + img.len ∧
      At s.mem padr file.data := by
  have hfiles := holdsFiles_of_packed h
  have hn := hfiles.fhdscs_le h.infile_pos
  cases hfind : m.infile.find? (fun file => file.pathname = fname) with
  | none =>
      have hother : fname ∉ m.infile.map Infile.pathname := by
        rw [List.find?_eq_none] at hfind
        rw [List.mem_map]
        rintro ⟨file, hfile, hname⟩
        exact hfind file hfile (decide_eq_true hname)
      rw [hat.getFileRpadrandsz_other h hn htwo hfname hother] at hget
      cases hget
  | some file =>
      obtain ⟨hname, i, hi, rfl, hfirst⟩ := List.find?_eq_some_iff_getElem.mp hfind
      have hname := of_decide_eq_true hname
      have hfile := hfiles i hi
      have hpos := h.data_pos hi
      rw [← hname, hat.getFileRpadrandsz_first h hn htwo hi (fun j hj hji he => by
        have hne := hfirst j hji
        rw [← he, decide_eq_true hname] at hne
        cases hne) (by omega) (by omega)] at hget
      obtain ⟨rfl, rfl⟩ := Prod.mk.inj (Except.ok.inj hget)
      exact ⟨_, rfl, rfl, Nat.le_add_right _ _, by omega,
        hat.placed.copy (h.data i hi hi) hfile⟩

end Checks

/-! ## The steps -/

section Steps

variable {s s' : Ldr} {u : Unit}

/-- A range that ends before the image leaves it where it is. -/
theorem ldrStep_apart {cpy : Nat × Nat} (hstep : ldrStep s cpy = .ok s')
    (hlt : cpy.1 + cpy.2 < s.mbsp.mbImgpadr) (htop : cpy.1 + cpy.2 < 2 ^ 64) : s' = s := by
  rcases ldrStep_cases hstep with ⟨hsame, -⟩ | ⟨-, hzone, -⟩
  · exact hsame
  · exact absurd ((adrzoneIsOk_eq_zero (by omega) htop).mpr hlt) hzone

theorem ldrStep_of_ret {cpyadr cpysz : Nat} {ret : Int}
    (h : moveKrlimg cpyadr cpysz s = (ret, s')) (hret : ¬ ret < 1) :
    ldrStep s (cpyadr, cpysz) = .ok s' := by
  simp only [ldrStep, h, if_neg hret]

theorem initMem_ok {retemp retemnr : Nat} (hrun : (initMem retemp retemnr).run s = .ok (u, s')) :
    retemnr ≠ 0 ∧ s' = { s with
      mbsp := { s.mbsp with
        mbE820padr := retemp
        mbE820nr := retemnr
        mbE820sz := u32 (retemnr * sizeofE820map) } } := by
  unfold initMem at hrun
  obtain ⟨hnr, hrest⟩ := run_when_inv hrun
  obtain ⟨_, _, hget, hrest⟩ := run_bind_inv hrest
  cases hget
  obtain ⟨-, hrest⟩ := run_when_inv hrest
  cases hrest
  exact ⟨hnr, rfl⟩

/-- The stack is far below the image. -/
theorem initKrlinitstack_ok (himg : s.mbsp.mbImgpadr = ldrfileadr)
    (hrun : initKrlinitstack.run s = .ok (u, s')) :
    s' = { s with
      mbsp := { s.mbsp with
        mbKrlinitstack := ikstackPhyadr
        mbKrlitstacksz := ikstackSize } } := by
  unfold initKrlinitstack at hrun
  obtain ⟨_, _, hget, hrest⟩ := run_bind_inv hrun
  cases hget
  generalize hmove : moveKrlimg (ikstackPhyadr - ikstackSize) ikstackSize s = p at hrest
  obtain ⟨ret, t⟩ := p
  obtain ⟨hret, hrest⟩ := run_when_inv hrest
  have hsame : t = s := ldrStep_apart (ldrStep_of_ret hmove hret)
    (show ikstackPhyadr - ikstackSize + ikstackSize < _ by rw [himg]; decide) (by decide)
  cases hrest
  rw [hsame]

/-- The kernel ends below the image. -/
theorem initKrlfile_ok (himg : s.mbsp.mbImgpadr = ldrfileadr)
    (hrun : initKrlfile.run s = .ok (u, s')) :
    ∃ padr sz, getFileRpadrandsz cosmosBin s 0 = .ok (padr, sz) ∧
      imgkrnlPhyadr + sz < ldrfileadr ∧ 0 < sz ∧
      s' = {
        mem := (m2mcopy (2 ^ 32) padr imgkrnlPhyadr sz s.mem).1
        mbsp := { s.mbsp with
          mbKrlimgpadr := imgkrnlPhyadr
          mbKrlsz := sz
          mbNextwtpadr := p4kAlign (imgkrnlPhyadr + sz)
          mbKalldendpadr := imgkrnlPhyadr + sz } } := by
  have hldr : ldrfileadr = 0x4000000 := rfl
  have hkrnl : imgkrnlPhyadr = 0x2000000 := rfl
  unfold initKrlfile at hrun
  obtain ⟨_, _, hget, hrest⟩ := run_bind_inv hrun
  cases hget
  obtain ⟨⟨sz, f⟩, _, hread, hrest⟩ := run_bind_inv hrest
  obtain ⟨hread, rfl⟩ := run_liftM_inv hread
  obtain ⟨hsz, hrest⟩ := run_when_inv hrest
  obtain ⟨hend, -, padr, hfile, rfl⟩ := rFileToPadr_ok hread hsz (by omega) (by omega)
  rw [himg] at hend
  cases hrest
  have hsint : sint32 sz = (sz : Int) := by
    rw [sint32, u32_eq (by omega), if_pos (by omega)]
  refine ⟨padr, sz, hfile, hend, by omega, ?_⟩
  rw [hsint, add64_eq (show _ < 2 ^ 64 by omega)]

/-- The font ends below the image. -/
theorem initDefutfont_ok (himg : s.mbsp.mbImgpadr = ldrfileadr)
    (hnext : s.mbsp.mbNextwtpadr ≤ ldrfileadr) (hrun : initDefutfont.run s = .ok (u, s')) :
    ∃ padr sz, getFileRpadrandsz fontFnt s 0 = .ok (padr, sz) ∧
      s.mbsp.mbNextwtpadr + sz < ldrfileadr ∧ 0 < sz ∧
      s' = {
        mem := (m2mcopy (2 ^ 32) padr s.mbsp.mbNextwtpadr sz s.mem).1
        mbsp := { s.mbsp with
          mbBfontpadr := s.mbsp.mbNextwtpadr
          mbBfontsz := sz
          mbNextwtpadr := p4kAlign (s.mbsp.mbNextwtpadr + sz)
          mbKalldendpadr := s.mbsp.mbNextwtpadr + sz } } := by
  have hldr : ldrfileadr = 0x4000000 := rfl
  have hdfadr : u32 s.mbsp.mbNextwtpadr = s.mbsp.mbNextwtpadr := u32_eq (by omega)
  unfold initDefutfont at hrun
  obtain ⟨_, _, hget, hrest⟩ := run_bind_inv hrun
  cases hget
  obtain ⟨⟨sz, f⟩, _, hread, hrest⟩ := run_bind_inv hrest
  obtain ⟨hread, rfl⟩ := run_liftM_inv hread
  obtain ⟨hsz, hrest⟩ := run_when_inv hrest
  rw [hdfadr] at hread
  obtain ⟨hend, -, padr, hfile, rfl⟩ := rFileToPadr_ok hread hsz (by omega) (by omega)
  rw [himg] at hend
  cases hrest
  have hsint : sint32 sz = (sz : Int) := by
    rw [sint32, u32_eq (by omega), if_pos (by omega)]
  refine ⟨padr, sz, hfile, hend, by omega, ?_⟩
  rw [hsint, hdfadr, add64_eq (show _ < 2 ^ 64 by omega)]

theorem p4kAlign_le_ldrfileadr {x : Nat} (h : x < ldrfileadr) :
    x ≤ p4kAlign x ∧ p4kAlign x ≤ ldrfileadr := by
  have hldr : ldrfileadr = 0x4000000 := rfl
  rw [p4kAlign, add64_eq (show _ < 2 ^ 64 by omega)]
  omega

/-- The copy of the memory map ends before the image, which may have moved behind it. -/
theorem initMeme820_ok (himg : s.mbsp.mbImgpadr = ldrfileadr)
    (he820 : s.mbsp.mbE820padr = e80mapAdr) (hpos : s.mbsp.mbE820nr ≠ 0)
    (hnr : sizeofE820map * s.mbsp.mbE820nr ≤ 0x1000)
    (hlow : imgkrnlPhyadr ≤ s.mbsp.mbNextwtpadr) (hnext : s.mbsp.mbNextwtpadr ≤ ldrfileadr)
    (hrun : initMeme820.run s = .ok (u, s')) :
    ∃ imgpadr f next, ldrfileadr ≤ imgpadr ∧ (∀ a < ldrfileadr, f a = s.mem a) ∧
      s.mbsp.mbNextwtpadr + sizeofE820map * s.mbsp.mbE820nr ≤ imgpadr ∧
      s' = {
        mem := moved f e80mapAdr s.mbsp.mbNextwtpadr (sizeofE820map * s.mbsp.mbE820nr)
        mbsp := { s.mbsp with
          mbImgpadr := imgpadr
          mbE820padr := s.mbsp.mbNextwtpadr
          mbE820sz := sizeofE820map * s.mbsp.mbE820nr
          mbNextwtpadr := next
          mbKalldendpadr := s.mbsp.mbNextwtpadr + sizeofE820map * s.mbsp.mbE820nr } } := by
  have hldr : ldrfileadr = 0x4000000 := rfl
  have hkrnl : imgkrnlPhyadr = 0x2000000 := rfl
  have hadr : e80mapAdr = 0x5000 := rfl
  have hdemp : u32 s.mbsp.mbNextwtpadr = s.mbsp.mbNextwtpadr := u32_eq (by omega)
  have hcpysz : s.mbsp.mbE820nr * sizeofE820map % 2 ^ 64 = sizeofE820map * s.mbsp.mbE820nr := by
    rw [Nat.mul_comm]
    exact Nat.mod_eq_of_lt (by omega)
  unfold initMeme820 at hrun
  obtain ⟨_, _, hget, hrest⟩ := run_bind_inv hrun
  cases hget
  obtain ⟨_, _, hget, hrest⟩ := run_bind_inv hrest
  cases hget
  obtain ⟨_, _, hget, hrest⟩ := run_bind_inv hrest
  cases hget
  obtain ⟨_, _, hget, hrest⟩ := run_bind_inv hrest
  cases hget
  have hcpy_pos : 1 ≤ sizeofE820map * s.mbsp.mbE820nr :=
    Nat.mul_pos (by decide) (Nat.pos_of_ne_zero hpos)
  generalize hmove : moveKrlimg (u32 s.mbsp.mbNextwtpadr)
    (s.mbsp.mbE820nr * sizeofE820map % 2 ^ 64) s = p at hrest
  obtain ⟨ret, t⟩ := p
  obtain ⟨hret, hrest⟩ := run_when_inv hrest
  cases hrest
  rw [hdemp, hcpysz] at hmove ⊢
  generalize sizeofE820map * s.mbsp.mbE820nr = cpysz at hmove hnr hcpy_pos ⊢
  have htop : s.mbsp.mbNextwtpadr + cpysz < 2 ^ 64 := by omega
  have hcopy : ∀ f : Nat → UInt8, (m2mcopy (2 ^ 32) (u32 s.mbsp.mbE820padr)
      s.mbsp.mbNextwtpadr (sint32 cpysz) f).1 = moved f e80mapAdr s.mbsp.mbNextwtpadr cpysz := by
    intro f
    rw [sint32, u32_eq (show cpysz < 2 ^ 32 by omega), if_pos (by omega), he820,
      u32_eq (show e80mapAdr < 2 ^ 32 by decide),
      m2mcopy_eq (by decide) (by omega) hcpy_pos (by omega) (by omega)]
  rw [hcopy, add64_eq (show _ < 2 ^ 64 by omega)]
  rcases ldrStep_cases (ldrStep_of_ret hmove hret) with ⟨rfl, hzone⟩ | ⟨-, hzone, rfl⟩
  · have hend := (adrzoneIsOk_eq_zero (by omega) htop).mp hzone
    exact ⟨t.mbsp.mbImgpadr, t.mem, _, by omega, fun _ _ => rfl, by omega, rfl⟩
  · -- the copy reaches the image, which moves to the next block behind it
    have hreach : ldrfileadr ≤ s.mbsp.mbNextwtpadr + cpysz := by
      by_contra hlt
      exact hzone ((adrzoneIsOk_eq_zero (by omega) htop).mpr (by omega))
    have hto : u32 (p4kAlign (add64 s.mbsp.mbNextwtpadr cpysz))
        = p4kAlign (s.mbsp.mbNextwtpadr + cpysz) := by
      rw [add64_eq (show _ < 2 ^ 64 by omega), p4kAlign, add64_eq (show _ < 2 ^ 64 by omega)]
      exact u32_eq (by omega)
    have hbehind : s.mbsp.mbNextwtpadr + cpysz ≤ p4kAlign (s.mbsp.mbNextwtpadr + cpysz) ∧
        p4kAlign (s.mbsp.mbNextwtpadr + cpysz) < 2 ^ 31 := by
      rw [p4kAlign, add64_eq (show _ < 2 ^ 64 by omega)]
      omega
    have hsint := sint32_toNat_lt s.mbsp.mbImgsz
    rw [hto]
    refine ⟨_, _, _, by omega, fun a ha => ?_, hbehind.1, rfl⟩
    exact m2mcopy_out (by omega) (by omega)

theorem startPages_length : startPages.length = 0x12000 := by
  rw [startPages, wordBytes_length]
  simp only [List.length_append, List.length_map, List.length_range]

/-- The page tables are below the image. -/
theorem initBstartpages_ok (himg : ldrfileadr ≤ s.mbsp.mbImgpadr)
    (hrun : initBstartpages.run s = .ok (u, s')) :
    ∃ f, (∀ a, kinitpagePhyadr + 0x12000 ≤ a → f a = s.mem a) ∧
      s' = {
        mem := f
        mbsp := { s.mbsp with
          mbPml4padr := kinitpagePhyadr
          mbSubpageslen := 0x12000
          mbKpmapphymemsz := 0x400000000 } } := by
  unfold initBstartpages at hrun
  obtain ⟨_, _, hget, hrest⟩ := run_bind_inv hrun
  cases hget
  generalize hmove : moveKrlimg kinitpagePhyadr (0x1000 * 16 + 0x2000) s = p at hrest
  obtain ⟨ret, t⟩ := p
  obtain ⟨hret, hrest⟩ := run_when_inv hrest
  have hsame : t = s := ldrStep_apart (ldrStep_of_ret hmove hret)
    (show kinitpagePhyadr + (0x1000 * 16 + 0x2000) < _ from Nat.lt_of_lt_of_le (by decide) himg)
    (by decide)
  cases hrest
  subst hsame
  refine ⟨_, fun a ha => ?_, rfl⟩
  rw [if_neg (by rw [startPages_length]; omega)]

theorem getWtImgfilesz_ok {retsz : Nat} (h : getWtImgfilesz s = (retsz, s')) (hsz : retsz ≠ 0) :
    Checked (Mlosrddsc.rd s.mem (ldrfileadr + 0x1000)) ∧ s' = { s with
      mbsp := { s.mbsp with mbImgpadr := ldrfileadr, mbImgsz := retsz } } := by
  unfold getWtImgfilesz at h
  by_cases hchk : Checked (Mlosrddsc.rd s.mem (ldrfileadr + 0x1000))
  · rw [if_pos hchk] at h
    split at h
    · exact absurd (Prod.mk.inj h).1.symm hsz
    · obtain ⟨hretsz, hs⟩ := Prod.mk.inj h
      rw [← hs, ← hretsz]
      exact ⟨hchk, rfl⟩
  · rw [if_neg hchk] at h
    exact absurd (Prod.mk.inj h).1.symm hsz

end Steps

/-! ## The layout -/

section Layout

variable {m : Mparam} {img : PFile} {s s' : Ldr} {fname : List UInt8} {f g : Nat → UInt8}
  {a padr sz : Nat}

theorem HoldsFile.copy (h : HoldsFile m fname f a sz) (hfg : ∀ k < sz, g (a + k) = f (a + k)) :
    HoldsFile m fname g a sz := by
  obtain ⟨file, hfind, rfl, hat⟩ := h
  exact ⟨file, hfind, rfl, hat.copy hfg⟩

/-- The image is still where it was loaded. -/
theorem ldrAt_of_loaded (hload : Loaded img f) (hpadr : s.mbsp.mbImgpadr = ldrfileadr)
    (hmem : ∀ b, ldrfileadr ≤ b → s.mem b = f b) : LdrAt img img.len s where
  placed k hk := by
    rw [hpadr, hmem _ (Nat.le_add_right _ _)]
    exact hload.placed k hk
  inMem := by
    rw [hpadr]
    exact hload.inMem

/-- **A file that was found and copied** below the image. -/
theorem holdsFile_of_get (hget : getFileRpadrandsz fname s 0 = .ok (padr, sz))
    (hat : LdrAt img img.len s) (h : Packed m img) (htwo : 2 ≤ m.infile.length)
    (hfname : 0 ∉ fname) (ha : a ≠ 0) (hsz : 0 < sz) (hend : a + sz < s.mbsp.mbImgpadr) :
    HoldsFile m fname (m2mcopy (2 ^ 32) padr a sz s.mem).1 a sz := by
  obtain ⟨file, hfind, rfl, hle, htop, hdata⟩ := hat.find?_of_get h htwo hfname hget
  have hmem := hat.inMem
  refine ⟨file, hfind, rfl, ?_⟩
  rw [m2mcopy_eq (by omega) ha hsz (by omega) (by omega)]
  exact hdata.copy fun k hk => moved_in hk

/-- The steps up to the stack leave the memory alone. -/
theorem initBstartparm_start {retemp retemnr : Nat} {u : Unit}
    (hrun : (initBstartparm retemp retemnr).run s = .ok (u, s')) :
    retemnr ≠ 0 ∧ Checked (Mlosrddsc.rd s.mem (ldrfileadr + 0x1000)) ∧ ∃ imgsz,
      (initKrlfile >>= fun _ => initDefutfont >>= fun _ => initMeme820 >>= fun _ =>
        initBstartpages).run
        { mem := s.mem
          mbsp := { machbstartInit with
            mbKrlinitstack := ikstackPhyadr
            mbKrlitstacksz := ikstackSize
            mbImgpadr := ldrfileadr
            mbImgsz := imgsz
            mbE820padr := retemp
            mbE820nr := retemnr
            mbE820sz := u32 (retemnr * sizeofE820map) } } = .ok (u, s') := by
  unfold initBstartparm at hrun
  obtain ⟨_, _, hmod, hrest⟩ := run_bind_inv hrun
  cases hmod
  obtain ⟨_, s₁, hstep, hrest⟩ := run_bind_inv hrest
  obtain ⟨hpos, rfl⟩ := initMem_ok hstep
  obtain ⟨_, _, hget, hrest⟩ := run_bind_inv hrest
  cases hget
  generalize hwt : getWtImgfilesz _ = p at hrest
  obtain ⟨imgsz, s₂⟩ := p
  obtain ⟨hne, hrest⟩ := run_when_inv hrest
  obtain ⟨hchk, rfl⟩ := getWtImgfilesz_ok hwt hne
  obtain ⟨_, _, hset, hrest⟩ := run_bind_inv hrest
  cases hset
  obtain ⟨_, s₃, hstep, hrest⟩ := run_bind_inv hrest
  obtain rfl := initKrlinitstack_ok rfl hstep
  exact ⟨hpos, hchk, imgsz, hrest⟩

/-- A kernel of two bytes and a font of three. -/
def packKrnl : Mparam where
  ldrh := fileL
  infile := [⟨cosmosBin, [4, 5], by decide, fileB.hdata⟩,
    ⟨fontFnt, [1, 2, 3], by decide, fileA.hdata⟩]
  hargc := by decide

end Layout

end Cosmos.Initldr
