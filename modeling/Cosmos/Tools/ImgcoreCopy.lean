import Cosmos.Tools.Imgcore

/-!
# Copying files into the image

What each step of the packing does to the output file: a file is copied block by
block to the position of its zone, and a record is written to the position of the
record zone.

## Main results

* `rwLoop_spec`: copying a file block by block is one write of its bytes, padded with
  zeros to a block boundary.
* `limgRwOneFile_spec`, `limgWriteOnefhdsc_spec`: the two writes for one input file.
-/

namespace Cosmos.Tools

open Cosmos.Lib.Bytes Cosmos.Lib.Files Cosmos.Lib.StM Cosmos.Lib.Word64

/-! ## Blocks -/

/-- A size that does not reach the top is rounded up to a block boundary. -/
theorem blkAlign_eq {x : Nat} (h : x + 0xfff < 2 ^ 64) :
    blkAlign x = (x + 0xfff) / 0x1000 * 0x1000 := by
  rw [blkAlign, add64_eq h]

theorem le_blkAlign {x : Nat} (h : x + 0xfff < 2 ^ 64) : x ≤ blkAlign x := by
  rw [blkAlign_eq h]
  omega

theorem blkAlign_mod (x : Nat) : blkAlign x % 0x1000 = 0 := Nat.mul_mod_left _ _

/-- An offset of a file is far from the top. -/
theorem add_lt_of_le_offMax {x : Nat} (h : x ≤ offMax) : x + 0xfff < 2 ^ 64 := by
  have hmax : offMax = 2 ^ 63 - 1 := rfl
  omega

/-- The bytes `bs`, filled up with zeros to a block boundary. -/
def padBlk (bs : List UInt8) : List UInt8 :=
  bs ++ List.replicate (blkAlign bs.length - bs.length) 0

variable {bs : List UInt8}

theorem padBlk_length (h : bs.length ≤ offMax) : (padBlk bs).length = blkAlign bs.length := by
  have hle := le_blkAlign (add_lt_of_le_offMax h)
  rw [padBlk, List.length_append, List.length_replicate]
  omega

theorem inClearBuf_length (h : bs.length ≤ bfhBufSz) : (inClearBuf bs).length = bfhBufSz := by
  rw [inClearBuf, List.length_append, List.length_replicate]
  omega

/-- The bytes of a file of one block. -/
theorem inClearBuf_eq_padBlk (hpos : 0 < bs.length) (h : bs.length ≤ bfhBufSz) :
    inClearBuf bs = padBlk bs := by
  have hbuf : bfhBufSz = 0x1000 := rfl
  have hone : blkAlign bs.length = bfhBufSz := by
    rw [blkAlign_eq (by omega)]
    omega
  rw [inClearBuf, padBlk, hone]

/-- The first block of a longer file, and the rest. -/
theorem padBlk_cut (h : bfhBufSz < bs.length) (hmax : bs.length ≤ offMax) :
    padBlk bs = inClearBuf (bs.take bfhBufSz) ++ padBlk (bs.drop bfhBufSz) := by
  have hbuf : bfhBufSz = 0x1000 := rfl
  have htake : (bs.take bfhBufSz).length = bfhBufSz := by rw [List.length_take]; omega
  have hdrop : (bs.drop bfhBufSz).length = bs.length - bfhBufSz := List.length_drop
  have htop := add_lt_of_le_offMax hmax
  have hpad : blkAlign bs.length - bs.length
      = blkAlign (bs.length - bfhBufSz) - (bs.length - bfhBufSz) := by
    rw [blkAlign_eq htop, blkAlign_eq (by omega)]
    omega
  rw [inClearBuf, htake, Nat.sub_self, List.replicate_zero, List.append_nil, padBlk, padBlk, hdrop,
    ← List.append_assoc, List.take_append_drop, hpad]

/-! ## Writes and seeks of the tool -/

variable {s₀ : Limg}

/-- The state after writing `buf`. -/
def Limg.put (s : Limg) (buf : List UInt8) : Limg :=
  { s with img := s.img.write s.pos buf, pos := s.pos + buf.length }

theorem Limg.put_put (s : Limg) (bs cs : List UInt8) : (s.put bs).put cs = s.put (bs ++ cs) := by
  simp only [Limg.put, PFile.write_write, List.length_append, Nat.add_assoc]

/-- A write succeeds when it fits. -/
theorem limgWritefile_spec (buf : List UInt8) :
    Ensures (· = s₀) (limgWritefile buf)
      fun ok s => ok = true → s = s₀.put buf ∧ s₀.pos + buf.length ≤ offMax := by
  refine Ensures.bind (Ensures.get (Q := fun a s => a = s₀ ∧ s = s₀) fun s hs => ⟨hs, hs⟩)
    fun s => Ensures.of_pre (c := s = s₀) (fun hs => ?_) fun _ h => h.1
  subst hs
  refine Ensures.ite (fun hfit => ?_) fun _ => ?_
  · exact Ensures.bind (Ensures.set (Q := fun _ s' => s' = s.put buf) fun _ _ => rfl)
      fun _ => Ensures.pure fun s' hs' _ => ⟨hs', hfit⟩
  · exact Ensures.pure fun s' _ hfalse => nomatch hfalse

/-- A seek moves the offset and nothing else. -/
theorem limgLseekfile_spec (pos : Nat) :
    Ensures (· = s₀) (limgLseekfile pos)
      fun ok s => ok = true → s = { s₀ with pos := pos } := by
  refine Ensures.bind (Ensures.get (Q := fun a s => a = s₀ ∧ s = s₀) fun s hs => ⟨hs, hs⟩)
    fun s => Ensures.of_pre (c := s = s₀) (fun hs => ?_) fun _ h => h.1
  subst hs
  refine Ensures.ite (fun _ => ?_) fun _ => ?_
  · exact Ensures.bind (Ensures.set (Q := fun _ s' => s' = { s with pos := pos }) fun _ _ => rfl)
      fun _ => Ensures.pure fun s' hs' _ => hs'
  · exact Ensures.pure fun s' _ hfalse => nomatch hfalse

/-- A seek to a position that the state holds. -/
theorem limgSet_spec (cur : Limg → Nat) :
    Ensures (· = s₀) (do unless (← limgLseekfile (cur (← get))) do throw "set leek" : LimgM Unit)
      fun _ s => s = { s₀ with pos := cur s₀ } := by
  rintro s u s' rfl hrun
  obtain ⟨s₁, s₂, hget, hrun⟩ := run_bind_inv hrun
  cases hget
  obtain ⟨ok, s₁, hseek, hcheck⟩ := run_bind_inv hrun
  have hspec := limgLseekfile_spec (cur s) s ok s₁ rfl hseek
  cases ok with
  | true =>
      cases hcheck
      exact hspec rfl
  | false => cases hcheck

theorem writeImgfileFrBuf_spec (buf : List UInt8) :
    Ensures (· = s₀) (writeImgfileFrBuf buf)
      fun _ s => s = { s₀.put buf with bfhFsum := computerSum buf } ∧
        s₀.pos + buf.length ≤ offMax := by
  rintro s u s' rfl hrun
  obtain ⟨ok, s₁, hw, hrun⟩ := run_bind_inv hrun
  obtain ⟨hok, hmod⟩ := run_unless_inv hrun
  obtain ⟨rfl, hfit⟩ := limgWritefile_spec buf s ok s₁ rfl hw hok
  cases hmod
  exact ⟨rfl, hfit⟩

/-! ## Copying a file -/

theorem computerSum_lt (buf : List UInt8) : computerSum buf < 2 ^ 64 := Nat.mod_lt _ (by decide)

/-- The bytes that the next read of the input file returns. -/
def Binfhead.next (b : Binfhead) : List UInt8 := (b.file.drop b.bfhRwfcurrbyte).take bfhBufSz

section Read

variable (b : Binfhead)

@[simp] theorem readImgfileToBuf_buf : (readImgfileToBuf b).bfhBuf = inClearBuf b.next := by
  simp only [readImgfileToBuf, apply_ite Binfhead.bfhBuf, ite_self]
  rfl

@[simp] theorem readImgfileToBuf_file : (readImgfileToBuf b).file = b.file := by
  simp only [readImgfileToBuf, apply_ite Binfhead.file, ite_self]

@[simp] theorem readImgfileToBuf_fsz : (readImgfileToBuf b).bfhFsz = b.bfhFsz := by
  simp only [readImgfileToBuf, apply_ite Binfhead.bfhFsz, ite_self]

@[simp] theorem readImgfileToBuf_cur :
    (readImgfileToBuf b).bfhRwfcurrbyte = b.bfhRwfcurrbyte + b.next.length := by
  simp only [readImgfileToBuf, apply_ite Binfhead.bfhRwfcurrbyte, ite_self]
  rfl

theorem readImgfileToBuf_stus :
    (readImgfileToBuf b).bfhRwretstus =
      if b.bfhRwfcurrbyte + b.next.length = b.bfhFsz then .allOk else .oneOk := by
  simp only [readImgfileToBuf, apply_ite Binfhead.bfhRwretstus]
  rfl

theorem Binfhead.next_length :
    b.next.length = min bfhBufSz (b.file.length - b.bfhRwfcurrbyte) := by
  rw [Binfhead.next, List.length_take, List.length_drop]

end Read

/-- A file that was read to its end. -/
theorem rwLoop_done {b : Binfhead} (hall : b.bfhRwretstus = .allOk) (fuel : Nat) :
    Ensures (· = s₀) (rwLoop fuel b) fun _ s => s = s₀ := by
  cases fuel with
  | zero => exact Ensures.throw
  | succ fuel =>
      rw [rwLoop, if_pos hall]
      exact Ensures.pure fun s hs => hs

/-- **Copying a file block by block is one write**: its bytes, padded with zeros to a
block boundary. -/
theorem rwLoop_spec (fuel : Nat) (b : Binfhead) (s₀ : Limg) (hstus : b.bfhRwretstus ≠ .allOk)
    (hsz : b.bfhFsz = b.file.length) (hmax : b.file.length ≤ offMax)
    (hcur : b.bfhRwfcurrbyte < b.file.length) :
    Ensures (· = s₀) (rwLoop fuel b) fun _ s =>
      (∃ sum < 2 ^ 64,
        s = { s₀.put (padBlk (b.file.drop b.bfhRwfcurrbyte)) with bfhFsum := sum }) ∧
      s₀.pos + (padBlk (b.file.drop b.bfhRwfcurrbyte)).length ≤ offMax := by
  induction fuel generalizing b s₀ with
  | zero => exact Ensures.throw
  | succ fuel ih =>
      have hbuf : bfhBufSz = 0x1000 := rfl
      have hnext := b.next_length
      have hrest : (b.file.drop b.bfhRwfcurrbyte).length = b.file.length - b.bfhRwfcurrbyte :=
        List.length_drop
      rw [rwLoop, if_neg hstus]
      refine Ensures.bind (writeImgfileFrBuf_spec _) fun _ => Ensures.of_pre (fun hfit => ?_)
        fun _ hs => hs.2
      rw [readImgfileToBuf_buf] at hfit ⊢
      by_cases hlast : b.bfhRwfcurrbyte + b.next.length = b.bfhFsz
      · -- the last block
        have hall : b.next = b.file.drop b.bfhRwfcurrbyte := List.take_of_length_le (by omega)
        have hpad : inClearBuf b.next = padBlk (b.file.drop b.bfhRwfcurrbyte) := by
          rw [hall]
          exact inClearBuf_eq_padBlk (by omega) (by omega)
        have hstop : (readImgfileToBuf b).bfhRwretstus = .allOk := by
          rw [readImgfileToBuf_stus, if_pos hlast]
        refine (rwLoop_done hstop fuel).weaken (fun s hs => hs.1) fun _ s hs => ?_
        rw [hpad] at hs hfit
        exact ⟨⟨_, computerSum_lt _, hs⟩, hfit⟩
      · -- a full block, and more behind it
        have hlong : bfhBufSz < (b.file.drop b.bfhRwfcurrbyte).length := by omega
        have hcut := padBlk_cut hlong (by omega)
        have hgo := ih (readImgfileToBuf b)
          { s₀.put (inClearBuf b.next) with bfhFsum := computerSum (inClearBuf b.next) }
          (by rw [readImgfileToBuf_stus, if_neg hlast]; simp) (by simpa using hsz)
          (by simpa using hmax) (by rw [readImgfileToBuf_file, readImgfileToBuf_cur]; omega)
        have hmore : (readImgfileToBuf b).file.drop (readImgfileToBuf b).bfhRwfcurrbyte
            = (b.file.drop b.bfhRwfcurrbyte).drop bfhBufSz := by
          rw [readImgfileToBuf_file, readImgfileToBuf_cur, List.drop_drop]
          congr 1
          omega
        rw [hmore] at hgo
        refine hgo.weaken (fun s hs => hs.1) fun _ s hs => ?_
        obtain ⟨⟨sum, hsum, rfl⟩, hfit'⟩ := hs
        rw [hcut]
        refine ⟨⟨sum, hsum, ?_⟩, ?_⟩
        · rw [← Limg.put_put]
          rfl
        · rw [List.length_append, ← Nat.add_assoc]
          exact hfit'

/-- The input head of a file that was just opened. -/
theorem allocNewInputfile_spec (f : Infile) :
    Ensures (· = s₀) (allocNewInputfile f) fun b s =>
      s = s₀ ∧ 0 < f.data.length ∧ b.file = f.data ∧ b.bfhFname = f.pathname ∧
      b.bfhFsz = f.data.length ∧ b.bfhRwretstus = .init ∧ b.bfhRwfcurrbyte = 0 := by
  rintro s b s' rfl hrun
  unfold allocNewInputfile at hrun
  obtain ⟨hne, hrun⟩ := run_when_inv hrun
  cases hrun
  exact ⟨rfl, Nat.pos_of_ne_zero hne, rfl, rfl, rfl, rfl, rfl⟩

/-- The state after a padded copy of `bs` at `pos`; `sum` is that of its last block. -/
def Limg.copied (s : Limg) (pos : Nat) (bs : List UInt8) (sum : Nat) : Limg :=
  { s with
    img := s.img.write pos (padBlk bs)
    pos := pos + (padBlk bs).length
    bfhFsum := sum }

section Copy

variable {b : Binfhead} (hpos : 0 < b.file.length) (hmax : b.file.length ≤ offMax)
  (hsz : b.bfhFsz = b.file.length) (hstus : b.bfhRwretstus = .init) (hcur : b.bfhRwfcurrbyte = 0)

include hpos hmax hsz hstus hcur

/-- The loop over a file that was just opened. -/
theorem rwLoop_copied (fuel : Nat) :
    Ensures (· = s₀) (rwLoop fuel b) fun _ s =>
      (∃ sum < 2 ^ 64, s = s₀.copied s₀.pos b.file sum) ∧
      s₀.pos + (padBlk b.file).length ≤ offMax := by
  have hloop := rwLoop_spec fuel b s₀ (by simp [hstus]) hsz hmax (by omega)
  rw [hcur, List.drop_zero] at hloop
  exact hloop

/-- `limg_rw_bldr_file` copies the file to the position of its zone and moves the
position behind it. -/
theorem limgRwBldrFile_spec :
    Ensures (· = s₀) (limgRwBldrFile b) fun _ s =>
      (∃ sum < 2 ^ 64, s = { s₀.copied s₀.zn.bldrzn.fcurrepos b.file sum with
        zn.bldrzn.fcurrepos := s₀.zn.bldrzn.fcurrepos + (padBlk b.file).length }) ∧
      s₀.zn.bldrzn.fcurrepos + (padBlk b.file).length ≤ offMax := by
  rintro s u s' rfl hrun
  obtain ⟨_, s₁, hset, hrun⟩ := run_bind_inv hrun
  obtain ⟨_, s₂, hloop, hupd⟩ := run_bind_inv hrun
  obtain rfl := limgSet_spec (fun s => s.zn.bldrzn.fcurrepos) s _ s₁ rfl hset
  obtain ⟨⟨sum, hsum, rfl⟩, hfit⟩ :=
    rwLoop_copied hpos hmax hsz hstus hcur (b.bfhFsz + 1) _ _ s₂ rfl hloop
  cases hupd
  exact ⟨⟨sum, hsum, rfl⟩, hfit⟩

/-- `limg_rw_one_file`, likewise. -/
theorem limgRwOneFile_spec :
    Ensures (· = s₀) (limgRwOneFile b) fun _ s =>
      (∃ sum < 2 ^ 64, s = { s₀.copied s₀.zn.filezn.fcurrepos b.file sum with
        zn.filezn.fcurrepos := s₀.zn.filezn.fcurrepos + (padBlk b.file).length }) ∧
      s₀.zn.filezn.fcurrepos + (padBlk b.file).length ≤ offMax := by
  rintro s u s' rfl hrun
  obtain ⟨_, s₁, hset, hrun⟩ := run_bind_inv hrun
  obtain ⟨_, s₂, hloop, hupd⟩ := run_bind_inv hrun
  obtain rfl := limgSet_spec (fun s => s.zn.filezn.fcurrepos) s _ s₁ rfl hset
  obtain ⟨⟨sum, hsum, rfl⟩, hfit⟩ :=
    rwLoop_copied hpos hmax hsz hstus hcur (b.bfhFsz + 1) _ _ s₂ rfl hloop
  cases hupd
  exact ⟨⟨sum, hsum, rfl⟩, hfit⟩

end Copy

/-- The record that `limg_write_onefhdsc` fills in. -/
def fhdscFill (inimgoff inimgend frealsz sum : Nat) (fname : List UInt8) : Fhdsc :=
  { fhdscInit with
    fhdIntsfsoff := inimgoff
    fhdIntsfend := inimgend
    fhdFrealsz := frealsz
    fhdFsum := sum
    fhdName := strcpy fhdscInit.fhdName fname }

/-- `limg_write_onefhdsc` writes the record to the position of its zone and moves the
position behind it. -/
theorem limgWriteOnefhdsc_spec (inimgoff inimgend frealsz : Nat) (fname : List UInt8) :
    Ensures (· = s₀) (limgWriteOnefhdsc inimgoff inimgend frealsz fname) fun _ s =>
      fname.length < fhdscNmax ∧
      let buf := (fhdscFill inimgoff inimgend frealsz s₀.bfhFsum fname).bytes
      let pos := s₀.zn.fhedzn.fcurrepos
      s = { s₀ with
        img := s₀.img.write pos buf
        pos := pos + buf.length
        zn.fhedzn.fcurrepos := pos + buf.length } := by
  rintro s u s' rfl hrun
  unfold limgWriteOnefhdsc at hrun
  obtain ⟨hlen, hrun⟩ := run_when_inv hrun
  obtain ⟨_, s₁, hget, hrun⟩ := run_bind_inv hrun
  cases hget
  obtain ⟨_, s₁, hset, hrun⟩ := run_bind_inv hrun
  obtain ⟨ok, s₂, hw, hrun⟩ := run_bind_inv hrun
  obtain ⟨hok, hupd⟩ := run_unless_inv hrun
  obtain rfl := limgSet_spec (fun s => s.zn.fhedzn.fcurrepos) s _ s₁ rfl hset
  obtain ⟨rfl, hfit⟩ := limgWritefile_spec _ _ ok s₂ rfl hw hok
  cases hupd
  exact ⟨by omega, rfl⟩

end Cosmos.Tools
