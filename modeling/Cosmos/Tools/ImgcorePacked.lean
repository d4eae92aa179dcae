import Cosmos.Tools.ImgcoreCopy

/-!
# What a packed image contains

`Packed m img` says where everything stands in an image: the descriptor behind the
first block, one record of 256 bytes for each file from `0x2000` on, and the bytes of
each file from a block boundary on, in the order of the command line.

## Main results

* `runRwFuncOninfile_spec`: packing one more file.
* `packed_of_run`: an image that `limg_krnl_mode_run` completes is packed.
-/

namespace Cosmos.Tools

open Cosmos.Lib.Bytes Cosmos.Lib.Files Cosmos.Lib.StM Cosmos.Lib.Word64

/-! ## Where everything stands -/

/-- The bytes of the blocks of the file records. -/
def fhedLen (m : Mparam) : Nat := blkAlign (m.infile.length * 256)

/-- The bytes of the blocks of some files. -/
def blkSum (fs : List Infile) : Nat := (fs.map fun f => blkAlign f.data.length).sum

/-- Where the bytes of file `i` begin; the end of the image for the number of files. -/
def fileStart (m : Mparam) (i : Nat) : Nat := 0x2000 + fhedLen m + blkSum (m.infile.take i)

/-- The zones after `k` files. -/
def imgZone (m : Mparam) (k : Nat) : Imgzone where
  bldrzn := limgConfigSubzn 0 0x1000 0xfff
  mftlzn := limgConfigSubzn 0x1000 0x1000 0x1fff
  fhedzn := limgConfigSubzn 0x2000 (0x2000 + 256 * k) (0x2000 + fhedLen m - 1)
  filezn := limgConfigSubzn (0x2000 + fhedLen m) (fileStart m k)
    (sub64 (add64 (0x2000 + fhedLen m) (limgRetAllifimglen m)) 1)

/-- The record of file `i`, with the sum of its last block. -/
def imgFhdsc (m : Mparam) (i : Nat) (hi : i < m.infile.length) (sum : Nat) : Fhdsc :=
  fhdscFill (fileStart m i) (sub64 (fileStart m (i + 1)) 1) m.infile[i].data.length sum
    m.infile[i].pathname

/-- The descriptor of the image. -/
def imgMlosrddsc (m : Mparam) : Mlosrddsc :=
  let md := mlosrddscFill m.infile.length (imgZone m m.infile.length)
  { md with mdcSfsum := computerSum md.bytes }

/-- The first `k` files are in the image, and nothing stands behind them. -/
structure PackedTo (m : Mparam) (k : Nat) (img : PFile) : Prop where
  len : img.len = fileStart m k
  small : fileStart m k ≤ offMax
  nonempty : ∀ i (hi : i < m.infile.length), i < k → 0 < m.infile[i].data.length
  named : ∀ i (hi : i < m.infile.length), i < k → m.infile[i].pathname.length < fhdscNmax
  fhdsc : ∀ i (hi : i < m.infile.length), i < k →
    ∃ sum < 2 ^ 64, At img.byte (0x2000 + 256 * i) (imgFhdsc m i hi sum).bytes
  data : ∀ i (hi : i < m.infile.length), i < k →
    At img.byte (fileStart m i) m.infile[i].data

/-- All files and the descriptor are in the image. -/
structure Packed (m : Mparam) (img : PFile) : Prop extends PackedTo m m.infile.length img where
  infile_pos : 0 < m.infile.length
  dsc : At img.byte 0x1000 (imgMlosrddsc m).bytes

section Layout

variable {m : Mparam} {i j k : Nat}

theorem fhedLen_eq (m : Mparam) : fhedLen m = (m.infile.length * 256 + 0xfff) / 0x1000 * 0x1000 :=
  blkAlign_eq (by have := m.hargc; omega)

theorem le_fhedLen (m : Mparam) : m.infile.length * 256 ≤ fhedLen m := by
  rw [fhedLen_eq]
  omega

@[simp] theorem fileStart_zero (m : Mparam) : fileStart m 0 = 0x2000 + fhedLen m := rfl

theorem blkSum_append (fs gs : List Infile) : blkSum (fs ++ gs) = blkSum fs + blkSum gs := by
  rw [blkSum, List.map_append, List.sum_append]
  rfl

theorem fileStart_succ (hi : i < m.infile.length) :
    fileStart m (i + 1) = fileStart m i + blkAlign m.infile[i].data.length := by
  rw [fileStart, fileStart, List.take_succ_eq_append_getElem hi, blkSum_append]
  simp [blkSum, Nat.add_assoc]

theorem fileStart_mono (hij : i ≤ j) : fileStart m i ≤ fileStart m j := by
  obtain ⟨rest, hrest⟩ := List.take_prefix_take_left (l := m.infile) hij
  rw [fileStart, fileStart, ← hrest, blkSum_append]
  exact Nat.add_le_add_left (Nat.le_add_right _ _) _

/-- A file ends before the next one begins. -/
theorem fileStart_add_le (hi : i < m.infile.length) (hij : i < j) :
    fileStart m i + m.infile[i].data.length ≤ fileStart m j := by
  have hmono : fileStart m (i + 1) ≤ fileStart m j := fileStart_mono hij
  have hle := le_blkAlign (add_lt_of_le_offMax m.infile[i].hdata)
  rw [fileStart_succ hi] at hmono
  omega

/-- The records end before the files begin. -/
theorem fhdsc_end_le (hi : i < m.infile.length) (k : Nat) :
    0x2000 + 256 * i + sizeofFhdsc ≤ fileStart m k := by
  have hfhed := le_fhedLen m
  have hstart : fileStart m 0 ≤ fileStart m k := fileStart_mono (Nat.zero_le k)
  have hsz : sizeofFhdsc = 256 := rfl
  rw [fileStart_zero] at hstart
  omega

theorem fhdscFill_bytes_length {soff send fsz sum : Nat} {name : List UInt8}
    (h : name.length < fhdscNmax) : (fhdscFill soff send fsz sum name).bytes.length = sizeofFhdsc :=
  Fhdsc.bytes_length (by
    show (strcpy (List.replicate fhdscNmax 0) name).length = fhdscNmax
    rw [strcpy_length (by rwa [List.length_replicate]), List.length_replicate])

end Layout

/-! ## Packing the files -/

section Pack

variable {m : Mparam} {k : Nat} {img : PFile} {s₀ : Limg}

/-- **One more file**: its padded bytes at the end of the image, its record behind the
records. -/
theorem PackedTo.add (h : PackedTo m k img) (hk : k < m.infile.length)
    (hpos : 0 < m.infile[k].data.length) (hname : m.infile[k].pathname.length < fhdscNmax)
    (hfit : fileStart m (k + 1) ≤ offMax) {sum : Nat} (hsum : sum < 2 ^ 64) :
    PackedTo m (k + 1) ((img.write (fileStart m k) (padBlk m.infile[k].data)).write
      (0x2000 + 256 * k) (imgFhdsc m k hk sum).bytes) := by
  have hpad : (padBlk m.infile[k].data).length = blkAlign m.infile[k].data.length :=
    padBlk_length m.infile[k].hdata
  have hnext := fileStart_succ hk
  have hbytes : (imgFhdsc m k hk sum).bytes.length = 256 := fhdscFill_bytes_length hname
  have hge := le_blkAlign (add_lt_of_le_offMax m.infile[k].hdata)
  constructor
  · have hend := fhdsc_end_le hk (k + 1)
    have hsz : sizeofFhdsc = 256 := rfl
    rw [PFile.write_len (by omega), PFile.write_len (by omega), h.len, hbytes]
    omega
  · exact hfit
  · intro i hi hik
    rcases Nat.lt_succ_iff_lt_or_eq.mp hik with hlt | rfl
    · exact h.nonempty i hi hlt
    · exact hpos
  · intro i hi hik
    rcases Nat.lt_succ_iff_lt_or_eq.mp hik with hlt | rfl
    · exact h.named i hi hlt
    · exact hname
  · intro i hi hik
    rcases Nat.lt_succ_iff_lt_or_eq.mp hik with hlt | rfl
    · obtain ⟨sum', hsum', hat⟩ := h.fhdsc i hi hlt
      have hlen : (imgFhdsc m i hi sum').bytes.length = 256 :=
        fhdscFill_bytes_length (h.named i hi hlt)
      have hend : 0x2000 + 256 * i + 256 ≤ fileStart m k := fhdsc_end_le hi k
      refine ⟨sum', hsum', PFile.at_write_of_out (PFile.at_write_of_out hat ?_) ?_⟩
      · exact Or.inl (by omega)
      · exact Or.inl (by omega)
    · exact ⟨sum, hsum, PFile.at_write _ _ _⟩
  · intro i hi hik
    have hend : 0x2000 + 256 * k + 256 ≤ fileStart m i := fhdsc_end_le hk i
    rcases Nat.lt_succ_iff_lt_or_eq.mp hik with hlt | rfl
    · have hbefore := fileStart_add_le hi hlt
      refine PFile.at_write_of_out (PFile.at_write_of_out (h.data i hi hlt) ?_) ?_
      · exact Or.inl hbefore
      · exact Or.inr (by omega)
    · refine PFile.at_write_of_out (at_append.mp (PFile.at_write img _ _)).1 ?_
      exact Or.inr (by omega)

/-- The state of the tool when it has packed `k` files. -/
structure PackSt (m : Mparam) (k : Nat) (s : Limg) : Prop where
  zn : s.zn = imgZone m k
  img : PackedTo m k s.img

theorem limgRetInfilecurrpos_run (s : Limg) :
    limgRetInfilecurrpos.run s = .ok (s.zn.filezn.fcurrepos, s) := rfl

/-- **`run_rw_func_oninfile` packs one more file.** -/
theorem runRwFuncOninfile_spec (hk : k < m.infile.length) :
    Ensures (PackSt m k) (runRwFuncOninfile m.infile[k]) fun _ => PackSt m (k + 1) := by
  intro s u s' hs hrun
  unfold runRwFuncOninfile at hrun
  obtain ⟨b, s₁, halloc, hrest⟩ := run_bind_inv hrun
  obtain ⟨rfl, hpos, hfile, hfname, hfsz, hstus, hcur⟩ := allocNewInputfile_spec _ s b s₁ rfl halloc
  rw [run_bind_ok (limgRetInfilecurrpos_run s₁)] at hrest
  obtain ⟨_, s₃, hcopy, hwrite⟩ := run_bind_inv hrest
  rw [run_bind_ok (limgRetInfilecurrpos_run s₃)] at hwrite
  have hone := limgRwOneFile_spec (hfile ▸ hpos) (hfile ▸ m.infile[k].hdata) (by rw [hfsz, hfile])
    hstus hcur s₁ _ s₃ rfl hcopy
  rw [hfile, padBlk_length m.infile[k].hdata] at hone
  obtain ⟨⟨sum, hsum, rfl⟩, hfit⟩ := hone
  obtain ⟨hname, rfl⟩ := limgWriteOnefhdsc_spec _ _ _ _ _ _ s' rfl hwrite
  rw [hfname] at hname
  have hstart : s₁.zn.filezn.fcurrepos = fileStart m k := by rw [hs.zn]; rfl
  have hhead : s₁.zn.fhedzn.fcurrepos = 0x2000 + 256 * k := by rw [hs.zn]; rfl
  rw [hstart, ← fileStart_succ hk] at hfit
  have hrec : fhdscFill (fileStart m k) (sub64 (fileStart m (k + 1)) 1) m.infile[k].data.length sum
      m.infile[k].pathname = imgFhdsc m k hk sum := rfl
  have hbytes : (imgFhdsc m k hk sum).bytes.length = 256 := fhdscFill_bytes_length hname
  constructor
  · simp only [Limg.copied, hstart, hhead, hfsz, hfname, ← fileStart_succ hk, hrec, hbytes]
    have hbehind : 0x2000 + 256 * (k + 1) = 0x2000 + 256 * k + 256 := by omega
    simp only [hs.zn, imgZone, limgConfigSubzn, hbehind]
  · show PackedTo m (k + 1) ((s₁.img.write _ _).write _ _)
    simp only [Limg.copied, hstart, hhead, hfsz, hfname, ← fileStart_succ hk, hrec]
    exact hs.img.add hk hpos hname hfit hsum

/-- The loop packs the files that are left. -/
theorem infileLoop_spec (hk : k ≤ m.infile.length) :
    Ensures (PackSt m k) (infileLoop (m.infile.drop k)) fun _ => PackSt m m.infile.length := by
  induction hn : m.infile.length - k generalizing k with
  | zero =>
      obtain rfl : k = m.infile.length := by omega
      rw [List.drop_length]
      exact Ensures.pure fun s hs => hs
  | succ n ih =>
      have hlt : k < m.infile.length := by omega
      rw [List.drop_eq_getElem_cons hlt]
      exact Ensures.bind (runRwFuncOninfile_spec hlt) fun _ => ih (by omega) (by omega)

/-! ## The blocks before the files -/

/-- The loop writes blocks of zeros. -/
theorem imginitblkLoop_spec (n : Nat) (s₀ : Limg) :
    Ensures (· = s₀) (imginitblkLoop n) fun _ s =>
      s = s₀.put (List.replicate (n * 0x1000) 0) ∧ (s₀.pos ≤ offMax → s.pos ≤ offMax) := by
  induction n generalizing s₀ with
  | zero =>
      refine Ensures.pure fun s hs => ⟨hs.trans ?_, fun h => hs ▸ h⟩
      rw [Nat.zero_mul, List.replicate_zero, Limg.put, PFile.write_nil]
      rfl
  | succ n ih =>
      rintro s u s' rfl hrun
      unfold imginitblkLoop at hrun
      obtain ⟨ok, s₁, hw, hrest⟩ := run_bind_inv hrun
      obtain ⟨hok, hrest⟩ := run_unless_inv hrest
      obtain ⟨rfl, hfit⟩ := limgWritefile_spec _ s ok s₁ rfl hw hok
      obtain ⟨rfl, hpos⟩ := ih _ _ _ s' rfl hrest
      refine ⟨?_, fun _ => hpos hfit⟩
      rw [Limg.put_put, clearBuf, List.replicate_append_replicate, Nat.succ_mul, Nat.add_comm]

/-- `limg_write_imginitblk` writes zeros up to the first file. -/
theorem limgWriteImginitblk_spec (m : Mparam) :
    Ensures (· = s₀) (limgWriteImginitblk m) fun _ s =>
      0 < m.infile.length ∧ s = s₀.put (List.replicate (fileStart m 0) 0) ∧
      (s₀.pos ≤ offMax → s.pos ≤ offMax) := by
  rintro s u s' rfl hrun
  unfold limgWriteImginitblk at hrun
  obtain ⟨hnr, hloop⟩ := run_when_inv hrun
  have hblks : (blkAlign (m.infile.length * 256) / 0x1000 + 0x2) * 0x1000 = fileStart m 0 := by
    have hmod : fhedLen m % 0x1000 = 0 := blkAlign_mod _
    rw [fileStart_zero]
    show (fhedLen m / 0x1000 + 0x2) * 0x1000 = _
    omega
  have hspec := imginitblkLoop_spec _ s s _ s' rfl hloop
  rw [show limgRetInfilenr m = m.infile.length from rfl, hblks] at hspec
  exact ⟨Nat.pos_of_ne_zero hnr, hspec⟩

/-- `run_rw_func_onldfile` copies the loader head file, which fits into a block. -/
theorem runRwFuncOnldfile_spec (f : Infile) :
    Ensures (· = s₀) (runRwFuncOnldfile f) fun _ s =>
      (padBlk f.data).length = 0x1000 ∧ ∃ sum,
        s = { s₀.copied s₀.zn.bldrzn.fcurrepos f.data sum with
          zn.bldrzn.fcurrepos := s₀.zn.bldrzn.fcurrepos + 0x1000 } := by
  rintro s u s' rfl hrun
  unfold runRwFuncOnldfile at hrun
  obtain ⟨hsize, hrest⟩ := run_when_inv hrun
  obtain ⟨b, s₁, halloc, hcopy⟩ := run_bind_inv hrest
  obtain ⟨rfl, hpos, hfile, -, hfsz, hstus, hcur⟩ := allocNewInputfile_spec f s b s₁ rfl halloc
  have hone := limgRwBldrFile_spec (hfile ▸ hpos) (hfile ▸ f.hdata) (by rw [hfsz, hfile])
    hstus hcur s₁ _ s' rfl hcopy
  have hlen : (padBlk f.data).length = 0x1000 := by
    rw [padBlk_length f.hdata, blkAlign_eq (add_lt_of_le_offMax f.hdata)]
    have hbuf : bfhBufSz = 0x1000 := rfl
    have hsz : limgRetszfile f = f.data.length := rfl
    omega
  rw [hfile, hlen] at hone
  obtain ⟨⟨sum, -, rfl⟩, -⟩ := hone
  exact ⟨hlen, sum, rfl⟩

/-- The state before the first file. -/
theorem packSt_zero {s : Limg} (hzn : s.zn = { imgZone m 0 with bldrzn.fcurrepos := 0 })
    (himg : s.img = PFile.empty.write 0 (List.replicate (fileStart m 0) 0))
    (hsmall : fileStart m 0 ≤ offMax) {bs : List UInt8} (hbs : (padBlk bs).length = 0x1000)
    (sum : Nat) :
    PackSt m 0 { s.copied 0 bs sum with zn.bldrzn.fcurrepos := 0x1000 } := by
  have hstart : 0x2000 ≤ fileStart m 0 := Nat.le_add_right _ _
  constructor
  · simp only [Limg.copied, hzn, imgZone, limgConfigSubzn]
  · constructor
    · show (s.img.write 0 (padBlk bs)).len = fileStart m 0
      rw [PFile.write_len (by omega), himg, PFile.write_len (by rw [List.length_replicate]; omega),
        List.length_replicate, hbs]
      show max (max 0 (0 + fileStart m 0)) (0 + 0x1000) = fileStart m 0
      omega
    · exact hsmall
    · intro i hi h0
      exact absurd h0 (Nat.not_lt_zero i)
    · intro i hi h0
      exact absurd h0 (Nat.not_lt_zero i)
    · intro i hi h0
      exact absurd h0 (Nat.not_lt_zero i)
    · intro i hi h0
      exact absurd h0 (Nat.not_lt_zero i)

/-! ## The whole image -/

/-- A write into the block of the descriptor. -/
theorem PackedTo.write_dsc (h : PackedTo m k img) {bs : List UInt8} (hbs : bs.length = 0x1000) :
    PackedTo m k (img.write 0x1000 bs) where
  len := by
    have hstart : fileStart m 0 ≤ fileStart m k := fileStart_mono (Nat.zero_le k)
    rw [fileStart_zero] at hstart
    rw [PFile.write_len (by omega), h.len, hbs]
    omega
  small := h.small
  nonempty := h.nonempty
  named := h.named
  fhdsc i hi hik := by
    obtain ⟨sum, hsum, hat⟩ := h.fhdsc i hi hik
    exact ⟨sum, hsum, PFile.at_write_of_out hat (Or.inr (by omega))⟩
  data i hi hik := by
    have hend := fhdsc_end_le hi i
    exact PFile.at_write_of_out (h.data i hi hik) (Or.inr (by omega))

/-- **`limg_write_mlosrddsc` completes the image.** -/
theorem limgWriteMlosrddsc_spec (hsome : 0 < m.infile.length) :
    Ensures (PackSt m m.infile.length) (limgWriteMlosrddsc m) fun _ s => Packed m s.img := by
  intro s u s' hs hrun
  unfold limgWriteMlosrddsc at hrun
  obtain ⟨_, s₁, hget, hrest⟩ := run_bind_inv hrun
  cases hget
  obtain ⟨_, s₁, hset, hrest⟩ := run_bind_inv hrest
  obtain ⟨ok, s₂, hw, hrest⟩ := run_bind_inv hrest
  obtain ⟨hok, hupd⟩ := run_unless_inv hrest
  obtain rfl := limgSet_spec (fun s => s.zn.mftlzn.fcurrepos) s _ s₁ rfl hset
  obtain ⟨rfl, -⟩ := limgWritefile_spec _ _ ok s₂ rfl hw hok
  cases hupd
  have hpos : s.zn.mftlzn.fcurrepos = 0x1000 := by rw [hs.zn]; rfl
  have hmd : ({ mlosrddscFill (limgRetInfilenr m) s.zn with
      mdcSfsum := computerSum (mlosrddscFill (limgRetInfilenr m) s.zn).bytes } : Mlosrddsc)
      = imgMlosrddsc m := by rw [hs.zn]; rfl
  have hlen : (inClearBuf (imgMlosrddsc m).bytes).length = 0x1000 :=
    inClearBuf_length (by rw [Mlosrddsc.bytes_length]; decide)
  show Packed m (s.img.write s.zn.mftlzn.fcurrepos _)
  rw [hpos, hmd]
  exact { hs.img.write_dsc hlen with
    infile_pos := hsome
    dsc := (at_append.mp (PFile.at_write s.img 0x1000 _)).1 }

theorem limgConfigFzone_ok {zn : Imgzone} (h : limgConfigFzone m = .ok zn) :
    zn = { imgZone m 0 with bldrzn.fcurrepos := 0 } := by
  unfold limgConfigFzone at h
  simp only at h
  split at h
  · cases h
  · cases h
    rfl

/-- **An image that `limg_krnl_mode_run` completes contains every file.** -/
theorem packed_of_run (h : limgKrnlModeRun m = .ok img) : Packed m img := by
  unfold limgKrnlModeRun at h
  cases hzn : limgConfigFzone m with
  | error e =>
      rw [hzn] at h
      cases h
  | ok zn =>
      rw [hzn] at h
      cases hsteps : (krnlModeSteps m).run { img := .empty, pos := 0, bfhFsum := 0, zn := zn } with
      | error e =>
          simp only [bind, Except.bind, hsteps] at h
          cases h
      | ok r =>
          simp only [bind, Except.bind, hsteps] at h
          cases h
          obtain rfl := limgConfigFzone_ok hzn
          obtain ⟨_, s₁, hblk, hrest⟩ := run_bind_inv hsteps
          obtain ⟨_, s₂, hldr, hrest⟩ := run_bind_inv hrest
          obtain ⟨_, s₃, hfiles, hdsc⟩ := run_bind_inv hrest
          obtain ⟨hsome, rfl, hsmall⟩ := limgWriteImginitblk_spec m _ _ s₁ rfl hblk
          obtain ⟨hlen, sum, rfl⟩ := runRwFuncOnldfile_spec m.ldrh _ _ s₂ rfl hldr
          have hsmall' : fileStart m 0 ≤ offMax := by
            have hle := hsmall (Nat.zero_le offMax)
            simpa [Limg.put] using hle
          have hall := infileLoop_spec (Nat.zero_le _) _ _ s₃
            (packSt_zero (s := Limg.put _ _) rfl rfl hsmall' hlen sum) hfiles
          exact limgWriteMlosrddsc_spec hsome s₃ _ r.2 hall hdsc

end Pack

/-! ## Reading the descriptor and the records -/

section Read

variable {m : Mparam} {img : PFile} {i : Nat}

/-- The lengths of the files, when the sum does not wrap around. -/
theorem allifimglenLoop_eq (fs : List Infile) (retlen : Nat)
    (hpos : ∀ f ∈ fs, 0 < f.data.length) (h : retlen + blkSum fs < 2 ^ 64) :
    allifimglenLoop fs retlen = retlen + blkSum fs := by
  induction fs generalizing retlen with
  | nil => rfl
  | cons f fs ih =>
      have hcons : blkSum (f :: fs) = blkAlign f.data.length + blkSum fs := rfl
      have hf : f.data.length ≠ 0 := Nat.ne_of_gt (hpos f List.mem_cons_self)
      have hadd : add64 retlen (blkAlign f.data.length) = retlen + blkAlign f.data.length :=
        add64_eq (show _ < 2 ^ 64 by omega)
      rw [allifimglenLoop, show limgRetszfile f = f.data.length from rfl, if_neg hf, hadd,
        ih _ (fun g hg => hpos g (List.mem_cons_of_mem f hg)) (by omega), hcons, Nat.add_assoc]

namespace Packed

variable (h : Packed m img)

include h

theorem data_pos (hi : i < m.infile.length) : 0 < m.infile[i].data.length := h.nonempty i hi hi

theorem fileStart_le {k : Nat} (hk : k ≤ m.infile.length) : fileStart m k ≤ offMax :=
  Nat.le_trans (fileStart_mono hk) h.small

/-- The zone of the files ends with the image. -/
theorem filbkE : (imgMlosrddsc m).mdcFilbkE = img.len - 1 := by
  have hsmall := h.small
  have hmax : offMax = 2 ^ 63 - 1 := rfl
  have hend : fileStart m m.infile.length = 0x2000 + fhedLen m + blkSum m.infile := by
    rw [fileStart, List.take_length]
  have hlen : limgRetAllifimglen m = blkSum m.infile := by
    have hloop := allifimglenLoop_eq m.infile 0 (fun f hf => by
      obtain ⟨i, hi, rfl⟩ := List.mem_iff_getElem.mp hf
      exact h.data_pos hi) (by omega)
    rwa [Nat.zero_add] at hloop
  show sub64 (add64 (0x2000 + fhedLen m) (limgRetAllifimglen m)) 1 = img.len - 1
  have hsum : 0x2000 + fhedLen m + blkSum m.infile < wordMod := by
    unfold wordMod
    omega
  rw [hlen, add64_eq hsum, sub64_eq hsum (by omega), h.len, hend]

theorem mlosrddsc_lt : ∀ w ∈ (imgMlosrddsc m).words, w < 2 ^ 64 := by
  have hsmall := h.small
  have hmax : offMax = 2 ^ 63 - 1 := rfl
  have hstart : fileStart m 0 ≤ fileStart m m.infile.length := fileStart_mono (Nat.zero_le _)
  have hfhed := le_fhedLen m
  rw [fileStart_zero] at hstart
  simp only [Mlosrddsc.words, imgMlosrddsc, mlosrddscFill, mlosrddscInit, imgZone, limgConfigSubzn,
    List.forall_mem_cons]
  have hargc := m.hargc
  exact ⟨by decide, computerSum_lt _, by decide, by decide, by decide, by decide, by decide,
    sub64_lt _ _, by decide, by decide, by omega, sub64_lt _ _, by decide, by omega, sub64_lt _ _,
    sub64_lt _ _, by decide, by decide, by omega, by omega, by decide, by decide,
    fun _ hx => absurd hx List.not_mem_nil⟩

/-- The descriptor is read back. -/
theorem mlosrddsc_rd {f : Nat → UInt8} {a : Nat}
    (hf : ∀ k < sizeofMlosrddsc, f (a + k) = img.byte (0x1000 + k)) :
    Mlosrddsc.rd f a = imgMlosrddsc m :=
  Mlosrddsc.rd_of_at (h.dsc.copy fun k hk => hf k (by rwa [Mlosrddsc.bytes_length] at hk))
    h.mlosrddsc_lt

/-- The record of each file is read back. -/
theorem fhdsc_rd (hi : i < m.infile.length) {f : Nat → UInt8} {a : Nat}
    (hf : ∀ k < sizeofFhdsc, f (a + k) = img.byte (0x2000 + 256 * i + k)) :
    ∃ sum, Fhdsc.rd f a = imgFhdsc m i hi sum := by
  obtain ⟨sum, hsum, hat⟩ := h.fhdsc i hi hi
  have hname := h.named i hi hi
  have hmax : offMax = 2 ^ 63 - 1 := rfl
  have hstart := h.fileStart_le (Nat.le_of_lt hi)
  have hdata := m.infile[i].hdata
  refine ⟨sum, Fhdsc.rd_of_at (hat.copy fun k hk => hf k ?_) ?_ ?_⟩
  · rwa [imgFhdsc, fhdscFill_bytes_length hname] at hk
  · simp only [Fhdsc.words, imgFhdsc, fhdscFill, fhdscInit, List.forall_mem_cons]
    exact ⟨by decide, by decide, by decide, by decide, by omega, sub64_lt _ _, by omega, hsum,
      fun _ hx => absurd hx List.not_mem_nil⟩
  · show (strcpy (List.replicate fhdscNmax 0) m.infile[i].pathname).length = fhdscNmax
    rw [strcpy_length (by rwa [List.length_replicate]), List.length_replicate]

/-- The blocks of a file are in the image. -/
theorem block_le (hi : i < m.infile.length) :
    fileStart m i + blkAlign m.infile[i].data.length ≤ img.len := by
  have hmono : fileStart m (i + 1) ≤ fileStart m m.infile.length := fileStart_mono hi
  rw [fileStart_succ hi] at hmono
  rwa [h.len]

end Packed

theorem imgFhdsc_name (hi : i < m.infile.length) (sum : Nat) :
    cstr (imgFhdsc m i hi sum).fhdName = m.infile[i].pathname :=
  cstr_strcpy m.infile[i].hpathname

end Read

end Cosmos.Tools
