import Cosmos.Lib.Run
import Cosmos.Tools.ImgcorePacked

/-!
# Unpacking a kernel image

`imgundo.c`: `limg_undomain` reads the descriptor of an image, checks its magic words
and its sum, and creates the file of each record.  Creating a file and reading one do
not fail.

## Main results

* `undoimgLoop_spec`: the loop over the blocks of a file writes its bytes and no more.
* `undo_of_pack`: undoing an image that was packed creates exactly the packed files.
-/

namespace Cosmos.Tools

open Cosmos.Lib Cosmos.Lib.Bytes Cosmos.Lib.Files Cosmos.Lib.Word64

/-- The files of a directory, by name. -/
abbrev Dir := List UInt8 → Option (List UInt8)

/-- `sum_mlorddsc`, as `read_mlosrddsc` uses it. -/
def sumMlorddsc (md : Mlosrddsc) : Except String Unit :=
  if md.mdcMgic = mdcMgicLmosmdsk then
    if md.mdcEndgic ≠ mdcEndgicVal ∨ md.mdcRv ≠ mdcRvgic then .error "sum file"
    else if md.mdcSfsum ≠ computerSum { md with mdcSfsum := 0 }.bytes then .error "sum err"
    else .ok ()
  else .error "sum file"

/-- `read_mlosrddsc`: what a short read leaves of the buffer is zero, as the image is
behind its end. -/
def readMlosrddsc (img : PFile) : Except String Mlosrddsc := do
  if img.len < 0x1000 then throw "no undofile"
  let md := Mlosrddsc.rd img.byte 0x1000
  sumMlorddsc md
  return md

/-- `undo_read_nextfhdsc`: the record at the offset `pos`. -/
def undoReadNextfhdsc (img : PFile) (pos : Nat) : Except String Fhdsc :=
  if offMax < pos then .error "set leek"
  else if (img.read pos sizeofFhdsc).length < sizeofFhdsc then .error "read fhdsc"
  else .ok (Fhdsc.rd img.byte pos)

/-- The loop of `limg_undoimg_onfhdsc`: `pos` is the offset in the image, `fsz` and
`currrwsz` are `uf_fsz` and `uf_currrwsz`, and `out` is what was written so far.  A
turn that reads nothing would be repeated for ever. -/
def undoimgLoop (img : PFile) : Nat → Nat → Nat → Nat → List UInt8 →
    Except String (List UInt8)
  | 0, _, _, _, _ => .error "endless"
  | fuel + 1, pos, fsz, currrwsz, out =>
      if fsz ≤ currrwsz then .ok out
      else
        let buf := img.read pos bfhBufSz
        let sz := buf.length
        let currrwsz := add64 currrwsz sz
        let wsz := if fsz < currrwsz then sub64 bfhBufSz (sub64 currrwsz fsz) else sz
        undoimgLoop img fuel (pos + sz) fsz currrwsz (out ++ (inClearBuf buf).take wsz)

/-- `limg_undoimg_onfhdsc`. -/
def limgUndoimgOnfhdsc (img : PFile) (fhd : Fhdsc) (dir : Dir) : Except String Dir := do
  let ufs := fhd.fhdIntsfsoff
  if offMax < ufs then throw "set leek"
  let out ← undoimgLoop img (fhd.fhdFrealsz + 1) ufs fhd.fhdFrealsz 0 []
  return Function.update dir (cstr fhd.fhdName) (some out)

/-- `limg_run_undoimg`: `nr` records are left, the next one at the offset `pos`. -/
def limgRunUndoimg (img : PFile) : Nat → Nat → Dir → Except String Dir
  | 0, _, dir => .ok dir
  | nr + 1, pos, dir => do
      let fhd ← undoReadNextfhdsc img pos
      let dir ← limgUndoimgOnfhdsc img fhd dir
      limgRunUndoimg img nr (pos + sizeofFhdsc) dir

/-- `limg_undomain`: what it leaves of the directory it runs in. -/
def limgUndomain (img : PFile) (dir : Dir) : Except String Dir := do
  let md ← readMlosrddsc img
  limgRunUndoimg img md.mdcFhdnr md.mdcFhdbkS dir

section Undo

variable {m : Mparam} {img : PFile} {i : Nat}

/-- What a turn of the loop writes: the next block, and of the last one only the bytes
of the file. -/
theorem undo_block {start c wsz : Nat} {data : List UInt8} (hat : At img.byte start data)
    (hc : c ≤ data.length) (hfull : start + c + bfhBufSz ≤ img.len)
    (hwsz : wsz = min bfhBufSz (data.length - c)) :
    (inClearBuf (img.read (start + c) bfhBufSz)).take wsz = (data.drop c).take bfhBufSz := by
  have hlen : (img.read (start + c) bfhBufSz).length = bfhBufSz := by
    rw [PFile.read_length]
    omega
  have hbuf : inClearBuf (img.read (start + c) bfhBufSz) = img.read (start + c) bfhBufSz := by
    rw [inClearBuf, hlen, Nat.sub_self, List.replicate_zero, List.append_nil]
  rw [hbuf]
  refine ((img.at_read (start + c) bfhBufSz).take wsz).unique ((hat.drop hc).take bfhBufSz) ?_
  rw [List.length_take, List.length_take, List.length_drop, hlen]
  omega

/-- **Undoing the blocks of a file**: from a block boundary `c` on, when the blocks
before it were written. -/
theorem undoimgLoop_spec {start : Nat} {data : List UInt8} (hat : At img.byte start data)
    (hblk : start + blkAlign data.length ≤ img.len) (hmax : data.length ≤ offMax) (fuel c : Nat)
    (hc : c % 0x1000 = 0) (hfuel : data.length - c < fuel) :
    undoimgLoop img fuel (start + c) data.length c (data.take c) = .ok data := by
  have htop := add_lt_of_le_offMax hmax
  have halign := blkAlign_eq htop
  have hbuf : bfhBufSz = 0x1000 := rfl
  induction fuel generalizing c with
  | zero => exact absurd hfuel (Nat.not_lt_zero _)
  | succ fuel ih =>
      rw [undoimgLoop]
      by_cases hend : data.length ≤ c
      · rw [if_pos hend, List.take_of_length_le hend]
      · -- a whole block is left in the image
        have hfull : start + c + bfhBufSz ≤ img.len := by omega
        have hsz : (img.read (start + c) bfhBufSz).length = bfhBufSz := by
          rw [PFile.read_length]
          omega
        have hcurr : add64 c bfhBufSz = c + bfhBufSz := add64_eq (show _ < 2 ^ 64 by omega)
        have hwsz : (if data.length < c + bfhBufSz then
            sub64 bfhBufSz (sub64 (c + bfhBufSz) data.length) else bfhBufSz)
            = min bfhBufSz (data.length - c) := by
          split
          · have hover : sub64 (c + bfhBufSz) data.length = c + bfhBufSz - data.length :=
              sub64_eq (show _ < 2 ^ 64 by omega) (by omega)
            rw [hover, sub64_eq (show _ < 2 ^ 64 by omega) (by omega)]
            omega
          · omega
        simp only [if_neg hend, hsz, hcurr, hwsz]
        rw [undo_block hat (by omega) hfull rfl, ← List.take_add, Nat.add_assoc]
        exact ih (c + bfhBufSz) (by omega) (by omega)

/-- The file of a record is created with its bytes. -/
theorem Packed.undoimg (h : Packed m img) (hi : i < m.infile.length) (sum : Nat) (dir : Dir) :
    limgUndoimgOnfhdsc img (imgFhdsc m i hi sum) dir =
      .ok (Function.update dir m.infile[i].pathname (some m.infile[i].data)) := by
  have hstart : ¬ offMax < (imgFhdsc m i hi sum).fhdIntsfsoff :=
    Nat.not_lt.mpr (h.fileStart_le (Nat.le_of_lt hi))
  have hloop := undoimgLoop_spec (h.data i hi hi) (h.block_le hi) m.infile[i].hdata
    (m.infile[i].data.length + 1) 0 rfl (by omega)
  rw [limgUndoimgOnfhdsc, imgFhdsc_name]
  simp only [if_neg hstart]
  show (undoimgLoop img (m.infile[i].data.length + 1) (fileStart m i) m.infile[i].data.length 0 []
    >>= fun out => _) = _
  rw [show undoimgLoop img (m.infile[i].data.length + 1) (fileStart m i) m.infile[i].data.length 0 []
    = .ok m.infile[i].data from hloop]
  rfl

/-- The next record is read. -/
theorem Packed.undoRead (h : Packed m img) (hi : i < m.infile.length) :
    ∃ sum, undoReadNextfhdsc img (0x2000 + 256 * i) = .ok (imgFhdsc m i hi sum) := by
  obtain ⟨sum, hrd⟩ := h.fhdsc_rd hi fun k _ => rfl
  have hend := fhdsc_end_le hi m.infile.length
  have hsmall := h.small
  refine ⟨sum, ?_⟩
  rw [undoReadNextfhdsc, if_neg (by omega), if_neg, hrd]
  rw [PFile.read_length, h.len]
  omega

/-- The files from `k` on are created. -/
def undone (fs : List Infile) (dir : Dir) : Dir :=
  fs.foldl (fun dir f => Function.update dir f.pathname (some f.data)) dir

theorem Packed.runUndoimg (h : Packed m img) (nr k : Nat) (hk : k + nr = m.infile.length)
    (dir : Dir) :
    limgRunUndoimg img nr (0x2000 + 256 * k) dir = .ok (undone (m.infile.drop k) dir) := by
  induction nr generalizing k dir with
  | zero =>
      obtain rfl : k = m.infile.length := by omega
      rw [List.drop_length]
      rfl
  | succ nr ih =>
      have hlt : k < m.infile.length := by omega
      obtain ⟨sum, hread⟩ := h.undoRead hlt
      have hgo := ih (k + 1) (by omega)
        (Function.update dir m.infile[k].pathname (some m.infile[k].data))
      rw [limgRunUndoimg, hread]
      show (limgUndoimgOnfhdsc img (imgFhdsc m k hlt sum) dir >>= fun dir =>
        limgRunUndoimg img nr (0x2000 + 256 * k + sizeofFhdsc) dir) = _
      have hnext : 0x2000 + 256 * k + sizeofFhdsc = 0x2000 + 256 * (k + 1) := by
        have hsz : sizeofFhdsc = 256 := rfl
        omega
      rw [h.undoimg hlt, List.drop_eq_getElem_cons hlt, hnext]
      exact hgo

theorem undone_of_not_mem {fs : List Infile} {n : List UInt8} (dir : Dir)
    (h : ∀ f ∈ fs, f.pathname ≠ n) : undone fs dir n = dir n := by
  induction fs generalizing dir with
  | nil => rfl
  | cons f fs ih =>
      have hne : n ≠ f.pathname := (h f List.mem_cons_self).symm
      show undone fs (Function.update dir f.pathname (some f.data)) n = dir n
      rw [ih _ fun g hg => h g (List.mem_cons_of_mem f hg), Function.update_of_ne hne]

theorem undone_of_mem {fs : List Infile} (dir : Dir) (hnames : (fs.map Infile.pathname).Nodup)
    {f : Infile} (hf : f ∈ fs) : undone fs dir f.pathname = some f.data := by
  induction fs generalizing dir with
  | nil => cases hf
  | cons g fs ih =>
      obtain ⟨hg, hrest⟩ := List.nodup_cons.mp hnames
      rcases List.mem_cons.mp hf with rfl | hmem
      · -- later files have other names
        show undone fs (Function.update dir f.pathname (some f.data)) f.pathname = _
        have hlater : ∀ g ∈ fs, g.pathname ≠ f.pathname := fun g hgm he =>
          hg (List.mem_map.mpr ⟨g, hgm, he⟩)
        rw [undone_of_not_mem _ hlater, Function.update_self]
      · exact ih _ hrest hmem

/-- The descriptor passes the check of its sum. -/
theorem Packed.readMlosrddsc (h : Packed m img) :
    readMlosrddsc img = .ok (imgMlosrddsc m) := by
  have hlen : ¬ img.len < 0x1000 := by
    have hstart : fileStart m 0 ≤ fileStart m m.infile.length := fileStart_mono (Nat.zero_le _)
    rw [fileStart_zero] at hstart
    rw [h.len]
    omega
  have hmd := h.mlosrddsc_rd fun k _ => rfl
  have hsum : sumMlorddsc (imgMlosrddsc m) = .ok () := by
    have hmgic : (imgMlosrddsc m).mdcMgic = mdcMgicLmosmdsk := rfl
    have hend : ¬ ((imgMlosrddsc m).mdcEndgic ≠ mdcEndgicVal ∨ (imgMlosrddsc m).mdcRv ≠ mdcRvgic) :=
      not_or.mpr ⟨fun hne => hne rfl, fun hne => hne rfl⟩
    rw [sumMlorddsc, if_pos hmgic, if_neg hend, if_neg fun hne => hne rfl]
  simp only [Tools.readMlosrddsc, if_neg hlen, hmd, hsum]
  rfl

/-- **Packing and undoing.**  Undoing an image that the tool packed creates exactly the
packed files: each name has its bytes, and every other name is left as it was. -/
theorem undo_of_pack {m : Mparam} {img : PFile}
    (hnames : (m.infile.map Infile.pathname).Nodup) (hpack : limgKrnlModeRun m = .ok img)
    (dir : Dir) :
    ∃ dir', limgUndomain img dir = .ok dir' ∧
      (∀ f ∈ m.infile, dir' f.pathname = some f.data) ∧
      ∀ n, (∀ f ∈ m.infile, f.pathname ≠ n) → dir' n = dir n := by
  have h := packed_of_run hpack
  refine ⟨undone m.infile dir, ?_, fun f hf => undone_of_mem dir hnames hf,
    fun n hn => undone_of_not_mem dir hn⟩
  have hrun := h.runUndoimg m.infile.length 0 (Nat.zero_add _) dir
  rw [limgUndomain, h.readMlosrddsc]
  exact hrun

/-- A loader head file of two bytes, a file of 5000 bytes and one of three. -/
def twoFiles : Mparam where
  ldrh := ⟨[108], [1, 2], fileL.hpathname, by decide⟩
  infile := [⟨[97], List.replicate 5000 7, fileA.hpathname, by rw [List.length_replicate]; decide⟩,
    ⟨[98], [8, 9, 10], fileB.hpathname, by decide⟩]
  hargc := by decide

theorem undo_of_pack_twoFiles : ∃ img dir',
    limgKrnlModeRun twoFiles = .ok img ∧ limgUndomain img (fun _ => none) = .ok dir' ∧
      dir' [98] = some [8, 9, 10] := by
  obtain ⟨img, himg, -⟩ := Run.exists_of_okAnd (e := limgKrnlModeRun twoFiles) (q := fun _ => true)
    (by decide +kernel)
  obtain ⟨dir', hundo, hall, -⟩ := undo_of_pack (m := twoFiles) (by decide) himg fun _ => none
  exact ⟨img, dir', himg, hundo, hall _ (List.mem_cons_of_mem _ List.mem_cons_self)⟩

end Undo

end Cosmos.Tools
