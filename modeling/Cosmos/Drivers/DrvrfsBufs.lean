import Cosmos.Drivers.DrvrfsRun

/-!
# The buffers of the RAM file system

The functions of `drvrfs.c` once more, with the buffers they work in.  A buffer is an
object of `krlnew`; here it is named by the number of the call that made it, so that a
buffer is never taken for another one, and it is given back under that name and its size,
or the kernel stops.  What a buffer holds is passed along with it.

Without their buffers the functions are those of `Cosmos.Drivers.Drvrfs` (`Erases`), so
that what is proved of the blocks there holds here.  What is proved here in addition is
which buffers are live after a call, and that no call gives back what it does not hold.

`get_bitmapblk` keeps the superblock's buffer when there is none for the bitmap, and
`rfs_new_dirfileblk` keeps the block it got when there is no room for an entry.
-/

namespace Cosmos.Drivers.Bufs

open Cosmos.Lib.StM

/-- The device, and the live objects of `krlnew` with their sizes. -/
structure FsMem where
  dev : Dev
  live : List (Nat × Nat)

/-- Code that holds buffers; an error stops the kernel. -/
abbrev BufM := StateT FsMem (Except String)

/-- Code that works on the device only. -/
def onDev {α : Type} (x : RfsM α) : BufM α := fun m =>
  (x m.dev).map fun r => (r.1, { m with dev := r.2 })

/-- `krlnew`, of a size it serves. -/
def krlnew (mmsize : Nat) : BufM (Option Nat) := do
  let m ← get
  let dev := { m.dev with tick := m.dev.tick + 1 }
  if m.dev.alc m.dev.tick then
    set { m with dev := dev, live := (m.dev.tick, mmsize) :: m.live }
    return some m.dev.tick
  else
    set { m with dev := dev }
    return none

/-- `krldelete`. -/
def krldelete (fradr frsz : Nat) : BufM Bool := do
  let m ← get
  if (fradr, frsz) ∈ m.live then
    set { m with live := m.live.erase (fradr, frsz) }
    return true
  else return false

/-- `new_buf`. -/
def newBuf (bufsz : Nat) : BufM (Option Nat) := krlnew bufsz

/-- `del_buf`. -/
def delBuf (buf bufsz : Nat) : BufM Unit := do
  if ← krldelete buf bufsz then return () else throw "del buf err"

/-! ## Blocks in buffers -/

/-- `get_superblk`. -/
def getSuperblk : BufM (Option (Nat × Rfssublk)) := do
  match ← newBuf fsysAlcblksz with
  | none => return none
  | some buf =>
      match ← onDev (readRfsdevblk 0) with
      | some (.sup s) => return some (buf, s)
      | some _ => throw wildBlock
      | none =>
          delBuf buf fsysAlcblksz
          return none

/-- `del_superblk`. -/
def delSuperblk (sbp : Nat × Rfssublk) : BufM Unit := do
  if ← onDev (writeRfsdevblk (.sup sbp.2) 0) then delBuf sbp.1 fsysAlcblksz
  else throw "del superblk err"

/-- `get_rootdir`. -/
def getRootdir : BufM (Option (Nat × Rfsdir)) := do
  match ← getSuperblk with
  | none => return none
  | some sbp =>
      let buf ← newBuf sizeofRfsdir
      delSuperblk sbp
      return buf.map fun b => (b, sbp.2.rsbRootdir)

/-- `del_rootdir`. -/
def delRootdir (rdir : Nat × Rfsdir) : BufM Unit := delBuf rdir.1 sizeofRfsdir

/-- `get_rootdirfile_blk`. -/
def getRootdirfileBlk : BufM (Option (Nat × Dirblk)) := do
  match ← getRootdir with
  | none => return none
  | some rtdir =>
      match ← newBuf fsysAlcblksz with
      | none =>
          delRootdir rtdir
          return none
      | some buf =>
          match ← onDev (readRfsdevblk rtdir.2.rdrBlknr) with
          | some (.dir d) =>
              delRootdir rtdir
              return some (buf, d)
          | some _ => throw wildBlock
          | none =>
              delBuf buf fsysAlcblksz
              delRootdir rtdir
              return none

/-- `del_rootdirfile_blk`. -/
def delRootdirfileBlk (blkp : Nat × Dirblk) : BufM Unit := do
  if ← onDev (writeRfsdevblk (.dir blkp.2) blkp.2.hd.fmdSfblk) then delBuf blkp.1 fsysAlcblksz
  else throw "del_rootfile_blk err"

/-- `get_bitmapblk`. -/
def getBitmapblk : BufM (Option (Nat × (Nat → UInt8))) := do
  match ← getSuperblk with
  | none => return none
  | some sbp =>
      match ← newBuf fsysAlcblksz with
      -- the superblock's buffer is not given back
      | none => return none
      | some buf =>
          match ← onDev (readRfsdevblk sbp.2.rsbBmpbks) with
          | some (.bmp m) =>
              delSuperblk sbp
              return some (buf, m)
          | some _ => throw wildBlock
          | none =>
              delBuf buf fsysAlcblksz
              delSuperblk sbp
              return none

/-- `del_bitmapblk`. -/
def delBitmapblk (bitmap : Nat × (Nat → UInt8)) : BufM Unit := do
  match ← getSuperblk with
  | none => throw "del superblk err"
  | some sbp =>
      if ← onDev (writeRfsdevblk (.bmp bitmap.2) sbp.2.rsbBmpbks) then
        delSuperblk sbp
        delBuf bitmap.1 fsysAlcblksz
      else throw "del superblk err1"

/-- `rfs_new_blk`; 0 when there is none. -/
def rfsNewBlk : BufM Nat := do
  match ← getBitmapblk with
  | none => return 0
  | some bitmap =>
      match freeBlknr bitmap.2 with
      | some blknr =>
          delBitmapblk (bitmap.1, Function.update bitmap.2 blknr 1)
          return blknr
      | none =>
          delBitmapblk bitmap
          return 0

/-! ## Files -/

/-- `rfs_chkfileisindev`: 0 when there is no such file. -/
def rfsChkfileisindev (fname : Name) : BufM Nat := do
  if fname.length < 1 ∨ drNmMax ≤ fname.length then return 4
  else
    match ← getRootdirfileBlk with
    | none => return 2
    | some d =>
        let rets :=
          if d.2.hd.fmdType ≠ .dir then 3
          else if d.2.isEmpty then 0
          else if (findEnt d.2 fname).isSome then 1 else 0
        delRootdirfileBlk d
        return rets

/-- `rfs_new_dirfileblk` for a file; `true` is `DFCOKSTUS`. -/
def rfsNewDirfileblk (fname : Name) : BufM Bool := do
  match ← newBuf fsysAlcblksz with
  | none => return false
  | some buf =>
      let fblk ← rfsNewBlk
      if fblk = 0 then
        delBuf buf fsysAlcblksz
        return false
      else
        match ← getRootdirfileBlk with
        | none =>
            delBuf buf fsysAlcblksz
            return false
        | some d =>
            if fsysAlcblksz ≤ d.2.hd.fmdCurfinwbkoff then
              delRootdirfileBlk d
              delBuf buf fsysAlcblksz
              return false
            else
              let ok ← onDev (writeRfsdevblk (.fil ⟨newHead .fil fblk, fun _ => 0⟩) fblk)
              delRootdirfileBlk (d.1, d.2.addEnt fname fblk)
              delBuf buf fsysAlcblksz
              return ok

/-- `rfs_new_file`. -/
def rfsNewFile (fname : Nat → UInt8) : BufM Bool := do
  match rfsRetFname fname with
  | none => return false
  | some fne =>
      if (← rfsChkfileisindev fne) ≠ 0 then return false else rfsNewDirfileblk fne

/-- `rfs_openfileblk`: the buffer and the copy in it. -/
def rfsOpenfileblk (fname : Nat → UInt8) : BufM (Option (Nat × Filblk)) := do
  match rfsRetFname fname with
  | none => return none
  | some fne =>
      match ← getRootdirfileBlk with
      | none => return none
      | some d =>
          if d.2.hd.fmdType ≠ .dir then
            delRootdirfileBlk d
            return none
          else if d.2.isEmpty then
            delRootdirfileBlk d
            return none
          else
            match findEnt d.2 fne with
            | none =>
                delRootdirfileBlk d
                return none
            | some k =>
                match ← newBuf fsysAlcblksz with
                | none =>
                    delRootdirfileBlk d
                    return none
                | some buf =>
                    match ← onDev (readRfsdevblk (d.2.ent k).rdrBlknr) with
                    | none =>
                        delBuf buf fsysAlcblksz
                        delRootdirfileBlk d
                        return none
                    | some (.fil f) =>
                        if f.hd.fmdType = .nul ∨ f.hd.fmdFileifstbkoff ≠ 0x200 then
                          delBuf buf fsysAlcblksz
                          delRootdirfileBlk d
                          return none
                        else
                          delRootdirfileBlk d
                          return some (buf, f)
                    | some _ => throw wildBlock

/-- `rfs_closefileblk`. -/
def rfsClosefileblk (fblkp : Nat × Filblk) : BufM Bool := do
  let _ ← onDev (writeRfsdevblk (.fil fblkp.2) fblkp.2.hd.fmdSfblk)
  delBuf fblkp.1 fsysAlcblksz
  return true

/-! ## Without the buffers -/

/-- Without its buffers, what `x` does is what `y` does. -/
def Erases {α β : Type} (x : BufM α) (g : α → β) (y : RfsM β) : Prop :=
  ∀ m a m', x.run m = .ok (a, m') → y.run m.dev = .ok (g a, m'.dev)

section Erasing

variable {α β γ δ : Type}

theorem Erases.bind {x : BufM α} {g : α → β} {y : RfsM β} {f : α → BufM γ} {h : γ → δ}
    {k : β → RfsM δ} (hx : Erases x g y) (hf : ∀ a, Erases (f a) h (k (g a))) :
    Erases (x >>= f) h (y >>= k) := by
  intro m c m' hrun
  obtain ⟨a, m₁, hfirst, hrest⟩ := run_bind_inv hrun
  rw [run_bind_ok (hx m a m₁ hfirst)]
  exact hf a m₁ c m' hrest

theorem Erases.pure {a : α} {b : β} {g : α → β} (h : g a = b) :
    Erases (Pure.pure a) g (Pure.pure b) := by
  intro m c m' hrun
  cases hrun
  rw [h]
  rfl

theorem Erases.throw {e : String} {g : α → β} {y : RfsM β} : Erases (throw e) g y := by
  intro m c m' hrun
  cases hrun

theorem Erases.onDev (x : RfsM α) : Erases (onDev x) id x := by
  intro m a m' hrun
  change (x m.dev).map (fun r => (r.1, { m with dev := r.2 })) = .ok (a, m') at hrun
  change x m.dev = _
  cases hx : x m.dev with
  | error e =>
      rw [hx] at hrun
      cases hrun
  | ok r =>
      rw [hx] at hrun
      cases hrun
      rfl

theorem Erases.newBuf (bufsz : Nat) : Erases (newBuf bufsz) Option.isSome Drivers.newBuf := by
  intro m a m' hrun
  have halc : Drivers.newBuf.run m.dev
      = .ok (m.dev.alc m.dev.tick, { m.dev with tick := m.dev.tick + 1 }) := rfl
  rw [halc]
  unfold Bufs.newBuf krlnew at hrun
  obtain ⟨m₀, _, hget, hrest⟩ := run_bind_inv hrun
  cases hget
  cases h : m.dev.alc m.dev.tick with
  | false =>
      rw [h] at hrest
      cases hrest
      rfl
  | true =>
      rw [h] at hrest
      cases hrest
      rfl

/-- Giving a buffer back does nothing to the device. -/
theorem Erases.delBuf {buf bufsz : Nat} {f : Unit → BufM α} {g : α → β} {y : RfsM β}
    (h : Erases (f ()) g y) : Erases (delBuf buf bufsz >>= f) g y := by
  intro m a m' hrun
  obtain ⟨u, m₁, hdel, hrest⟩ := run_bind_inv hrun
  have hdev : m₁.dev = m.dev := by
    unfold Bufs.delBuf krldelete at hdel
    obtain ⟨b, m₂, hb, hr⟩ := run_bind_inv hdel
    obtain ⟨m₀, _, hget, hb⟩ := run_bind_inv hb
    cases hget
    split at hb
    · cases hb
      cases hr
      rfl
    · cases hb
      cases hr
  rw [← hdev]
  exact h m₁ a m' hrest

/-- The last thing a function does. -/
theorem Erases.delBuf_last (buf bufsz : Nat) : Erases (Bufs.delBuf buf bufsz) id (Pure.pure ()) := by
  have h : Erases (Bufs.delBuf buf bufsz >>= Pure.pure) id (Pure.pure ()) :=
    Erases.delBuf (by exact Erases.pure rfl)
  rwa [bind_pure] at h

end Erasing

theorem erases_getSuperblk : Erases getSuperblk (Option.map Prod.snd) Drivers.getSuperblk := by
  unfold getSuperblk Drivers.getSuperblk
  refine (Erases.newBuf _).bind fun b => ?_
  cases b with
  | none => exact Erases.pure rfl
  | some buf =>
      refine (Erases.onDev _).bind fun r => ?_
      match r with
      | none => exact Erases.delBuf (by exact Erases.pure rfl)
      | some (.sup s) => exact Erases.pure rfl
      | some .raw | some (.bmp _) | some (.dir _) | some (.fil _) => exact Erases.throw

theorem erases_delSuperblk (sbp : Nat × Rfssublk) :
    Erases (delSuperblk sbp) id (Drivers.delSuperblk sbp.2) := by
  unfold delSuperblk Drivers.delSuperblk
  refine (Erases.onDev _).bind fun r => ?_
  cases r with
  | false => exact Erases.throw
  | true => exact Erases.delBuf_last _ _

theorem erases_getRootdir : Erases getRootdir (Option.map Prod.snd) Drivers.getRootdir := by
  unfold getRootdir Drivers.getRootdir
  refine erases_getSuperblk.bind fun r => ?_
  cases r with
  | none => exact Erases.pure rfl
  | some sbp =>
      refine (Erases.newBuf _).bind fun b => (erases_delSuperblk sbp).bind fun _ => ?_
      cases b with
      | none => exact Erases.pure rfl
      | some buf => exact Erases.pure rfl

theorem erases_getRootdirfileBlk :
    Erases getRootdirfileBlk (Option.map Prod.snd) Drivers.getRootdirfileBlk := by
  unfold getRootdirfileBlk Drivers.getRootdirfileBlk
  refine erases_getRootdir.bind fun r => ?_
  cases r with
  | none => exact Erases.pure rfl
  | some rtdir =>
      refine (Erases.newBuf _).bind fun b => ?_
      cases b with
      | none => exact Erases.delBuf (by exact Erases.pure rfl)
      | some buf =>
          refine (Erases.onDev _).bind fun r => ?_
          match r with
          | none => exact Erases.delBuf (by exact Erases.delBuf (by exact Erases.pure rfl))
          | some (.dir d) => exact Erases.delBuf (by exact Erases.pure rfl)
          | some .raw | some (.bmp _) | some (.sup _) | some (.fil _) => exact Erases.throw

theorem erases_delRootdirfileBlk (blkp : Nat × Dirblk) :
    Erases (delRootdirfileBlk blkp) id (Drivers.delRootdirfileBlk blkp.2) := by
  unfold delRootdirfileBlk Drivers.delRootdirfileBlk
  refine (Erases.onDev _).bind fun r => ?_
  cases r with
  | false => exact Erases.throw
  | true => exact Erases.delBuf_last _ _

theorem erases_getBitmapblk :
    Erases getBitmapblk (Option.map Prod.snd) Drivers.getBitmapblk := by
  unfold getBitmapblk Drivers.getBitmapblk
  refine erases_getSuperblk.bind fun r => ?_
  cases r with
  | none => exact Erases.pure rfl
  | some sbp =>
      refine (Erases.newBuf _).bind fun b => ?_
      cases b with
      | none => exact Erases.pure rfl
      | some buf =>
          refine (Erases.onDev _).bind fun r => ?_
          match r with
          | none =>
              refine Erases.delBuf ?_
              exact (erases_delSuperblk sbp).bind fun _ => Erases.pure rfl
          | some (.bmp m) => exact (erases_delSuperblk sbp).bind fun _ => Erases.pure rfl
          | some .raw | some (.dir _) | some (.sup _) | some (.fil _) => exact Erases.throw

theorem erases_delBitmapblk (bitmap : Nat × (Nat → UInt8)) :
    Erases (delBitmapblk bitmap) id (Drivers.delBitmapblk bitmap.2) := by
  unfold delBitmapblk Drivers.delBitmapblk
  refine erases_getSuperblk.bind fun r => ?_
  cases r with
  | none => exact Erases.throw
  | some sbp =>
      refine (Erases.onDev _).bind fun r => ?_
      cases r with
      | false => exact Erases.throw
      | true =>
          intro m a m' hrun
          obtain ⟨u, m₁, hsup, hrest⟩ := run_bind_inv hrun
          have hdev : m₁.dev = m'.dev :=
            congrArg Prod.snd (Except.ok.inj (Erases.delBuf_last _ _ m₁ a m' hrest))
          show _ = Except.ok (_, m'.dev)
          rw [← hdev]
          exact erases_delSuperblk sbp m u m₁ hsup

theorem erases_rfsNewBlk : Erases rfsNewBlk id Drivers.rfsNewBlk := by
  unfold rfsNewBlk Drivers.rfsNewBlk
  refine erases_getBitmapblk.bind fun r => ?_
  cases r with
  | none => exact Erases.pure rfl
  | some bitmap =>
      show Erases (match freeBlknr bitmap.2 with
        | some blknr => _
        | none => _) id (match freeBlknr bitmap.2 with
        | some blknr => _
        | none => _)
      cases freeBlknr bitmap.2 with
      | none => exact (erases_delBitmapblk _).bind fun _ => Erases.pure rfl
      | some blknr => exact (erases_delBitmapblk _).bind fun _ => Erases.pure rfl

theorem erases_rfsChkfileisindev (fname : Name) :
    Erases (rfsChkfileisindev fname) id (Drivers.rfsChkfileisindev fname) := by
  unfold rfsChkfileisindev Drivers.rfsChkfileisindev
  split
  · exact Erases.pure rfl
  · refine erases_getRootdirfileBlk.bind fun r => ?_
    cases r with
    | none => exact Erases.pure rfl
    | some d => exact (erases_delRootdirfileBlk d).bind fun _ => Erases.pure rfl

theorem erases_rfsNewDirfileblk (fname : Name) :
    Erases (rfsNewDirfileblk fname) id (Drivers.rfsNewDirfileblk fname) := by
  unfold rfsNewDirfileblk Drivers.rfsNewDirfileblk
  refine (Erases.newBuf _).bind fun b => ?_
  cases b with
  | none => exact Erases.pure rfl
  | some buf =>
      refine erases_rfsNewBlk.bind fun fblk => ?_
      show Erases (if fblk = 0 then _ else _) id (if fblk = 0 then _ else _)
      split
      · exact Erases.delBuf (by exact Erases.pure rfl)
      · refine erases_getRootdirfileBlk.bind fun r => ?_
        cases r with
        | none => exact Erases.delBuf (by exact Erases.pure rfl)
        | some d =>
            show Erases (if fsysAlcblksz ≤ d.2.hd.fmdCurfinwbkoff then _ else _) id
              (if fsysAlcblksz ≤ d.2.hd.fmdCurfinwbkoff then _ else _)
            split
            · refine (erases_delRootdirfileBlk d).bind fun _ => ?_
              exact Erases.delBuf (by exact Erases.pure rfl)
            · refine (Erases.onDev _).bind fun ok => ?_
              refine (erases_delRootdirfileBlk _).bind fun _ => ?_
              exact Erases.delBuf (by exact Erases.pure rfl)

theorem erases_rfsNewFile (fname : Nat → UInt8) :
    Erases (rfsNewFile fname) id (Drivers.rfsNewFile fname) := by
  unfold rfsNewFile Drivers.rfsNewFile
  cases rfsRetFname fname with
  | none => exact Erases.pure rfl
  | some fne =>
      refine (erases_rfsChkfileisindev fne).bind fun r => ?_
      show Erases (if r ≠ 0 then _ else _) id (if r ≠ 0 then _ else _)
      split
      · exact Erases.pure rfl
      · exact erases_rfsNewDirfileblk fne

theorem erases_rfsOpenfileblk (fname : Nat → UInt8) :
    Erases (rfsOpenfileblk fname) (Option.map Prod.snd) (Drivers.rfsOpenfileblk fname) := by
  unfold rfsOpenfileblk Drivers.rfsOpenfileblk
  cases rfsRetFname fname with
  | none => exact Erases.pure rfl
  | some fne =>
      refine erases_getRootdirfileBlk.bind fun r => ?_
      cases r with
      | none => exact Erases.pure rfl
      | some d =>
          have hnone : Erases (do
              delRootdirfileBlk d
              return (none : Option (Nat × Filblk))) (Option.map Prod.snd) (do
              Drivers.delRootdirfileBlk d.2
              return (none : Option Filblk)) :=
            (erases_delRootdirfileBlk d).bind fun _ => Erases.pure rfl
          show Erases (if d.2.hd.fmdType ≠ .dir then _ else _) (Option.map Prod.snd)
            (if d.2.hd.fmdType ≠ .dir then _ else _)
          split
          · exact hnone
          show Erases (if d.2.isEmpty then _ else _) (Option.map Prod.snd)
            (if d.2.isEmpty then _ else _)
          split
          · exact hnone
          show Erases (match findEnt d.2 fne with
            | none => _
            | some k => _) (Option.map Prod.snd) (match findEnt d.2 fne with
            | none => _
            | some k => _)
          cases findEnt d.2 fne with
          | none => exact hnone
          | some k =>
              refine (Erases.newBuf _).bind fun b => ?_
              cases b with
              | none => exact hnone
              | some buf =>
                  refine (Erases.onDev _).bind fun r => ?_
                  match r with
                  | none => exact Erases.delBuf (by exact hnone)
                  | some (.fil f) =>
                      show Erases (if f.hd.fmdType = .nul ∨ f.hd.fmdFileifstbkoff ≠ 0x200
                        then _ else _) (Option.map Prod.snd) _
                      split
                      · rename_i hbad
                        refine Erases.delBuf ?_
                        refine (erases_delRootdirfileBlk d).bind fun _ => Erases.pure ?_
                        rw [if_pos hbad]
                        rfl
                      · rename_i hgood
                        refine (erases_delRootdirfileBlk d).bind fun _ => Erases.pure ?_
                        rw [if_neg hgood]
                        rfl
                  | some .raw | some (.bmp _) | some (.sup _) | some (.dir _) =>
                      exact Erases.throw

theorem erases_rfsClosefileblk (fblkp : Nat × Filblk) :
    Erases (rfsClosefileblk fblkp) id (Drivers.rfsClosefileblk fblkp.2) := by
  unfold rfsClosefileblk Drivers.rfsClosefileblk
  refine (Erases.onDev _).bind fun _ => ?_
  exact Erases.delBuf (by exact Erases.pure rfl)

/-! ## Which buffers are live -/

/-- `n` calls of `krlnew` later, with the objects `os` more. -/
def FsMem.after (m : FsMem) (n : Nat) (os : List (Nat × Nat)) : FsMem :=
  ⟨{ m.dev with tick := m.dev.tick + n }, os ++ m.live⟩

/-- The next `n` calls of `krlnew` succeed. -/
def FsMem.AllAlc (m : FsMem) (n : Nat) : Prop := ∀ i < n, m.dev.alc (m.dev.tick + i) = true

section Live

variable {m : FsMem} {n : Nat} {os : List (Nat × Nat)}

theorem after_after (m : FsMem) (n k : Nat) (os os' : List (Nat × Nat)) :
    (m.after n os).after k os' = m.after (n + k) (os' ++ os) := by
  unfold FsMem.after
  rw [List.append_assoc, Nat.add_assoc]

theorem newBuf_some (h : m.dev.alc m.dev.tick = true) (bufsz : Nat) :
    (newBuf bufsz).run m = .ok (some m.dev.tick, m.after 1 [(m.dev.tick, bufsz)]) := by
  unfold newBuf krlnew
  rw [run_get_bind, if_pos h]
  rfl

theorem newBuf_none (h : m.dev.alc m.dev.tick = false) (bufsz : Nat) :
    (newBuf bufsz).run m = .ok (none, m.after 1 []) := by
  unfold newBuf krlnew
  rw [run_get_bind, if_neg (by rw [h]; decide)]
  rfl

/-- A live object is given back. -/
theorem krldelete_run {fradr frsz : Nat} (h : (fradr, frsz) ∈ m.live) :
    (krldelete fradr frsz).run m = .ok (true, { m with live := m.live.erase (fradr, frsz) }) := by
  unfold krldelete
  rw [run_get_bind, if_pos h]
  rfl

theorem delBuf_live {buf bufsz : Nat} (h : (buf, bufsz) ∈ m.live) :
    (delBuf buf bufsz).run m = .ok ((), { m with live := m.live.erase (buf, bufsz) }) := by
  unfold delBuf
  rw [run_bind_ok (krldelete_run h)]
  rfl

/-- A buffer that a function holds is given back. -/
theorem delBuf_run {buf bufsz : Nat} (h : (buf, bufsz) ∈ os) :
    (delBuf buf bufsz).run (m.after n os) = .ok ((), m.after n (os.erase (buf, bufsz))) := by
  rw [delBuf_live (List.mem_append_left _ h)]
  show Except.ok ((), (⟨_, (os ++ m.live).erase (buf, bufsz)⟩ : FsMem)) = _
  rw [List.erase_append_left _ h]
  rfl

theorem read_run (hm : m.dev.rdeMsize = fsmmBlk) {b : Nat} (hb : b < 1024) :
    (onDev (readRfsdevblk b)).run m = .ok (some (m.dev.disk b), m) := by
  have hin := (retRfsdevblk_iff hm b).mpr hb
  show Except.ok ((if retRfsdevblk m.dev b then some (m.dev.disk b) else none), m) = _
  rw [if_pos hin]

/-- The device with a block stored. -/
def FsMem.store (m : FsMem) (b : Nat) (blk : Blk) : FsMem := { m with dev := m.dev.put b blk }

theorem store_same {b : Nat} {blk : Blk} (h : m.dev.disk b = blk) : m.store b blk = m := by
  unfold FsMem.store Dev.put
  rw [← h, Function.update_eq_self]

theorem write_run (hm : m.dev.rdeMsize = fsmmBlk) {b : Nat} (hb : b < 1024) (blk : Blk) :
    (onDev (writeRfsdevblk blk b)).run m = .ok (true, m.store b blk) := by
  show ((writeRfsdevblk blk b).run m.dev).map _ = _
  rw [writeRfsdevblk_ok hm hb]
  rfl

/-- Storing a block that is stored. -/
theorem write_same (hm : m.dev.rdeMsize = fsmmBlk) {b : Nat} (hb : b < 1024) {blk : Blk}
    (hblk : m.dev.disk b = blk) : (onDev (writeRfsdevblk blk b)).run m = .ok (true, m) := by
  rw [write_run hm hb, store_same hblk]

/-! ### Superblock and root directory -/

theorem FsMem.AllAlc.at {k : Nat} (h : m.AllAlc n) (hk : k < n) (os : List (Nat × Nat)) :
    (m.after k os).dev.alc (m.after k os).dev.tick = true := h k hk

theorem FsMem.AllAlc.mono {k : Nat} (h : m.AllAlc n) (hk : k ≤ n) : m.AllAlc k :=
  fun i hi => h i (Nat.lt_of_lt_of_le hi hk)

theorem allAlc_succ : m.AllAlc (n + 1) ↔ m.AllAlc n ∧ m.dev.alc (m.dev.tick + n) = true := by
  constructor
  · exact fun h => ⟨h.mono (Nat.le_succ n), h n (Nat.lt_succ_self n)⟩
  · rintro ⟨h, hn⟩ i hi
    rcases Nat.lt_succ_iff_lt_or_eq.mp hi with hlt | rfl
    · exact h i hlt
    · exact hn

/-- Calls one behind the other. -/
theorem allAlc_add (k : Nat) (os : List (Nat × Nat)) :
    m.AllAlc (k + n) ↔ m.AllAlc k ∧ (m.after k os).AllAlc n := by
  constructor
  · refine fun h => ⟨h.mono (Nat.le_add_right k n), fun i hi => ?_⟩
    show m.dev.alc (m.dev.tick + k + i) = true
    rw [Nat.add_assoc]
    exact h (k + i) (Nat.add_lt_add_left hi k)
  · rintro ⟨hk, hn⟩ i hi
    rcases Nat.lt_or_ge i k with hlt | hge
    · exact hk i hlt
    · obtain ⟨j, rfl⟩ := Nat.exists_eq_add_of_le hge
      rw [← Nat.add_assoc]
      exact hn j (Nat.lt_of_add_lt_add_left hi)

theorem getSuperblk_some (hm : m.dev.rdeMsize = fsmmBlk) (hs : m.dev.disk 0 = .sup sublkFmat)
    (h : m.dev.alc m.dev.tick = true) : getSuperblk.run m
      = .ok (some (m.dev.tick, sublkFmat), m.after 1 [(m.dev.tick, fsysAlcblksz)]) := by
  unfold getSuperblk
  rw [run_bind_ok (newBuf_some h fsysAlcblksz)]
  dsimp only
  rw [run_bind_ok (read_run (m := m.after 1 _) hm (by decide))]
  show StateT.run (match some (m.dev.disk 0) with
    | some (.sup s) => _
    | some _ => _
    | none => _) _ = _
  rw [hs]
  rfl

theorem getSuperblk_none (h : m.dev.alc m.dev.tick = false) :
    getSuperblk.run m = .ok (none, m.after 1 []) := by
  unfold getSuperblk
  rw [run_bind_ok (newBuf_none h fsysAlcblksz)]
  rfl

theorem delSuperblk_run (hm : m.dev.rdeMsize = fsmmBlk) (hs : m.dev.disk 0 = .sup sublkFmat)
    {buf : Nat} (h : (buf, fsysAlcblksz) ∈ os) :
    (delSuperblk (buf, sublkFmat)).run (m.after n os)
      = .ok ((), m.after n (os.erase (buf, fsysAlcblksz))) := by
  unfold delSuperblk
  rw [run_bind_ok (write_same (m := m.after n os) hm (by decide) hs), if_pos rfl]
  exact delBuf_run h

/-- `get_rootdir` holds the buffer of the entry, or nothing. -/
theorem getRootdir_run (hm : m.dev.rdeMsize = fsmmBlk) (hs : m.dev.disk 0 = .sup sublkFmat) :
    (m.AllAlc 2 ∧ getRootdir.run m = .ok (some (m.dev.tick + 1, sublkFmat.rsbRootdir),
      m.after 2 [(m.dev.tick + 1, sizeofRfsdir)])) ∨
    (¬ m.AllAlc 2 ∧ ∃ k, getRootdir.run m = .ok (none, m.after k [])) := by
  unfold getRootdir
  cases h0 : m.dev.alc m.dev.tick with
  | false =>
      refine Or.inr ⟨fun hall => ?_, 1, ?_⟩
      · rw [show m.dev.tick = m.dev.tick + 0 from rfl, hall 0 (by decide)] at h0
        cases h0
      · rw [run_bind_ok (getSuperblk_none h0)]
        rfl
  | true =>
      rw [run_bind_ok (getSuperblk_some hm hs h0)]
      cases h1 : m.dev.alc (m.dev.tick + 1) with
      | false =>
          refine Or.inr ⟨fun hall => ?_, 2, ?_⟩
          · rw [hall 1 (by decide)] at h1
            cases h1
          · dsimp only
            rw [run_bind_ok (newBuf_none (m := m.after 1 _) h1 sizeofRfsdir), after_after,
              run_bind_ok (delSuperblk_run hm hs (by simp))]
            simp
            rfl
      | true =>
          refine Or.inl ⟨fun i hi => ?_, ?_⟩
          · rcases (by omega : i = 0 ∨ i = 1) with rfl | rfl
            · exact h0
            · exact h1
          · dsimp only
            rw [run_bind_ok (newBuf_some (m := m.after 1 _) h1 sizeofRfsdir), after_after,
              run_bind_ok (delSuperblk_run hm hs (by simp))]
            simp
            rfl

theorem delRootdir_run {rdir : Nat × Rfsdir} (h : (rdir.1, sizeofRfsdir) ∈ os) :
    (delRootdir rdir).run (m.after n os)
      = .ok ((), m.after n (os.erase (rdir.1, sizeofRfsdir))) :=
  delBuf_run h

section Root

variable {dir : Dirblk} (hm : m.dev.rdeMsize = fsmmBlk) (hs : m.dev.disk 0 = .sup sublkFmat)
  (hd : m.dev.disk 2 = .dir dir)

include hm hs hd in
/-- `get_rootdirfile_blk` holds the buffer of the directory, or nothing. -/
theorem getRootdirfileBlk_run :
    (m.AllAlc 3 ∧ getRootdirfileBlk.run m = .ok (some (m.dev.tick + 2, dir),
      m.after 3 [(m.dev.tick + 2, fsysAlcblksz)])) ∨
    (¬ m.AllAlc 3 ∧ ∃ k, getRootdirfileBlk.run m = .ok (none, m.after k [])) := by
  unfold getRootdirfileBlk
  rcases getRootdir_run hm hs with ⟨h2, hrun⟩ | ⟨h2, k, hrun⟩
  · rw [run_bind_ok hrun]
    dsimp only
    cases h3 : m.dev.alc (m.dev.tick + 2) with
    | false =>
        refine Or.inr ⟨fun hall => ?_, 3, ?_⟩
        · rw [hall 2 (by decide)] at h3
          cases h3
        · rw [run_bind_ok (newBuf_none (m := m.after 2 _) h3 fsysAlcblksz), after_after]
          dsimp only
          rw [run_bind_ok (delRootdir_run (by simp))]
          simp
          rfl
    | true =>
        refine Or.inl ⟨allAlc_succ.mpr ⟨h2, h3⟩, ?_⟩
        rw [run_bind_ok (newBuf_some (m := m.after 2 _) h3 fsysAlcblksz), after_after]
        dsimp only
        rw [run_bind_ok (read_run (m := m.after 3 _) hm (by decide))]
        show StateT.run (match some (m.dev.disk 2) with
          | some (.dir d) => _
          | some _ => _
          | none => _) _ = _
        rw [hd]
        dsimp only
        rw [run_bind_ok (delRootdir_run (by simp [FsMem.after]))]
        simp [FsMem.after]
        rfl
  · refine Or.inr ⟨fun hall => h2 (hall.mono (by decide)), k, ?_⟩
    rw [run_bind_ok hrun]
    rfl

include hm in
/-- Storing a directory. -/
theorem delRootdirfileBlk_run (hroot : dir.hd.fmdSfblk = 2) {buf : Nat}
    (h : (buf, fsysAlcblksz) ∈ os) : (delRootdirfileBlk (buf, dir)).run (m.after n os)
      = .ok ((), (m.store 2 (.dir dir)).after n (os.erase (buf, fsysAlcblksz))) := by
  unfold delRootdirfileBlk
  rw [run_bind_ok (write_run (m := m.after n os) hm (by rw [hroot]; decide) _), if_pos rfl, hroot]
  exact delBuf_run (m := m.store 2 (.dir dir)) h

include hm hd in
/-- Storing the directory that was read. -/
theorem delRootdirfileBlk_same (hroot : dir.hd.fmdSfblk = 2) {buf : Nat}
    (h : (buf, fsysAlcblksz) ∈ os) : (delRootdirfileBlk (buf, dir)).run (m.after n os)
      = .ok ((), m.after n (os.erase (buf, fsysAlcblksz))) := by
  rw [delRootdirfileBlk_run hm hroot h, store_same hd]

end Root

/-! ### The bitmap -/

section Bitmap

variable {bmp : Nat → UInt8} (hm : m.dev.rdeMsize = fsmmBlk)
  (hs : m.dev.disk 0 = .sup sublkFmat) (hb : m.dev.disk 1 = .bmp bmp)

include hm hs hb in
theorem getBitmapblk_some (h : m.AllAlc 2) : getBitmapblk.run m
    = .ok (some (m.dev.tick + 1, bmp), m.after 2 [(m.dev.tick + 1, fsysAlcblksz)]) := by
  unfold getBitmapblk
  rw [run_bind_ok (getSuperblk_some hm hs (h 0 (by decide)))]
  dsimp only
  rw [run_bind_ok (newBuf_some (m := m.after 1 _) (h 1 (by decide)) fsysAlcblksz), after_after]
  dsimp only
  rw [run_bind_ok (read_run (m := m.after 2 _) hm (by decide))]
  show StateT.run (match some (m.dev.disk 1) with
    | some (.bmp m) => _
    | some _ => _
    | none => _) _ = _
  rw [hb]
  dsimp only
  rw [run_bind_ok (delSuperblk_run hm hs (by simp [FsMem.after]))]
  simp [FsMem.after]
  rfl

theorem getBitmapblk_none (h : m.dev.alc m.dev.tick = false) :
    getBitmapblk.run m = .ok (none, m.after 1 []) := by
  unfold getBitmapblk
  rw [run_bind_ok (getSuperblk_none h)]
  rfl

include hm hs in
/-- `del_bitmapblk` needs a buffer for the superblock. -/
theorem delBitmapblk_run {buf : Nat} {os : List (Nat × Nat)} {n : Nat}
    (h : m.dev.alc (m.dev.tick + n) = true) (hbuf : (buf, fsysAlcblksz) ∈ os)
    (bitmap : Nat → UInt8) :
    (delBitmapblk (buf, bitmap)).run (m.after n os)
      = .ok ((), (m.store 1 (.bmp bitmap)).after (n + 1) (os.erase (buf, fsysAlcblksz))) := by
  unfold delBitmapblk
  rw [run_bind_ok (getSuperblk_some (m := m.after n os) hm hs h)]
  dsimp only
  rw [run_bind_ok (write_run (m := (m.after n os).after 1 _) hm (by decide) _), if_pos rfl]
  show StateT.run (delSuperblk (m.dev.tick + n, sublkFmat) >>= _)
    ((m.store 1 (.bmp bitmap)).after (n + 1) ((m.dev.tick + n, fsysAlcblksz) :: os)) = _
  have hs' : (m.store 1 (.bmp bitmap)).dev.disk 0 = .sup sublkFmat := by
    rw [← hs]
    exact put_disk_ne _ _ (by decide)
  rw [run_bind_ok (delSuperblk_run (m := m.store 1 (.bmp bitmap)) hm hs'
    (List.mem_cons_self ..)), List.erase_cons_head]
  exact delBuf_run hbuf

include hm hs hb in
/-- `rfs_new_blk`, when it gets the buffers it needs: the first free block, marked. -/
theorem rfsNewBlk_run (h : m.AllAlc 3) : rfsNewBlk.run m = .ok (match freeBlknr bmp with
    | some b => (b, (m.store 1 (.bmp (Function.update bmp b 1))).after 3 [])
    | none => (0, m.after 3 [])) := by
  have hdel : ∀ bitmap, (delBitmapblk (m.dev.tick + 1, bitmap)).run
      (m.after 2 [(m.dev.tick + 1, fsysAlcblksz)])
        = .ok ((), (m.store 1 (.bmp bitmap)).after 3 []) := by
    intro bitmap
    rw [delBitmapblk_run hm hs (h 2 (by decide)) (List.mem_cons_self ..), List.erase_cons_head]
  unfold rfsNewBlk
  rw [run_bind_ok (getBitmapblk_some hm hs hb (h.mono (by decide)))]
  show StateT.run (match freeBlknr bmp with
    | some blknr => _
    | none => _) _ = _
  cases freeBlknr bmp with
  | none =>
      dsimp only
      rw [run_bind_ok (hdel bmp), store_same hb]
      rfl
  | some b =>
      dsimp only
      rw [run_bind_ok (hdel _)]
      rfl

theorem rfsNewBlk_none (h : m.dev.alc m.dev.tick = false) :
    rfsNewBlk.run m = .ok (0, m.after 1 []) := by
  unfold rfsNewBlk
  rw [run_bind_ok (getBitmapblk_none h)]
  rfl

end Bitmap

/-! ### Files -/

section Files

variable {bmp : Nat → UInt8} {dir : Dirblk} (h : RfsInv m.dev bmp dir)

include h in
/-- `rfs_chkfileisindev` finds out, when it gets its buffers. -/
theorem rfsChkfileisindev_run (fne : Name) :
    ((1 ≤ fne.length ∧ fne.length < drNmMax ∧ m.AllAlc 3) ∧ (rfsChkfileisindev fne).run m
      = .ok (if (findEnt dir fne).isSome then 1 else 0, m.after 3 [])) ∨
    (¬ (1 ≤ fne.length ∧ fne.length < drNmMax ∧ m.AllAlc 3) ∧ ∃ k r, r ≠ 0 ∧
      (rfsChkfileisindev fne).run m = .ok (r, m.after k [])) := by
  unfold rfsChkfileisindev
  by_cases hlen : fne.length < 1 ∨ drNmMax ≤ fne.length
  · refine Or.inr ⟨by omega, 0, 4, by decide, ?_⟩
    rw [if_pos hlen]
    rfl
  · rw [if_neg hlen]
    rcases getRootdirfileBlk_run h.msize h.sup h.dirblk with ⟨h3, hrun⟩ | ⟨h3, k, hrun⟩
    · refine Or.inl ⟨⟨by omega, by omega, h3⟩, ?_⟩
      rw [run_bind_ok hrun]
      dsimp only
      rw [run_bind_ok (delRootdirfileBlk_same h.msize h.dirblk h.root.sfblk
        (List.mem_singleton_self _)), List.erase_cons_head]
      have hrets : (if dir.hd.fmdType ≠ .dir then 3 else if dir.isEmpty then 0
          else if (findEnt dir fne).isSome then 1 else 0)
          = if (findEnt dir fne).isSome then 1 else 0 := by
        rw [if_neg (by rw [h.root.type]; simp)]
        split
        · rename_i hempty
          cases hk : findEnt dir fne with
          | none => rfl
          | some k =>
              exact absurd (findEnt_some h.root hk).1 (h.root.isEmpty_noFile hempty k)
        · rfl
      rw [hrets]
      rfl
    · refine Or.inr ⟨fun hc => h3 hc.2.2, k, 2, by decide, ?_⟩
      rw [run_bind_ok hrun]
      rfl

/-- A call gave back all its buffers, and if it failed the blocks are as they were. -/
def Clean (m m' : FsMem) (ok : Bool) : Prop :=
  m'.live = m.live ∧ m.dev.tick ≤ m'.dev.tick ∧ (ok = false → m'.dev.disk = m.dev.disk)

theorem clean_after (m : FsMem) (n : Nat) (ok : Bool) : Clean m (m.after n []) ok :=
  ⟨rfl, Nat.le_add_right _ _, fun _ => rfl⟩

include h in
/-- `rfs_new_dirfileblk`, when a call that gets its own buffer and one for the superblock
gets all it needs, and there is room for an entry if there is a free block. -/
theorem rfsNewDirfileblk_run (fne : Name) (hsafe : m.AllAlc 2 → m.AllAlc 4 ∧
      (freeBlknr bmp ≠ none → m.AllAlc 7 ∧ dir.hd.fmdCurfinwbkoff < fsysAlcblksz)) :
    ∃ ok m', (rfsNewDirfileblk fne).run m = .ok (ok, m') ∧ Clean m m' ok := by
  have hdel : ∀ n (m' : FsMem), (delBuf m.dev.tick fsysAlcblksz).run
      (m'.after n [(m.dev.tick, fsysAlcblksz)]) = .ok ((), m'.after n []) := by
    intro n m'
    rw [delBuf_run (List.mem_singleton_self _), List.erase_cons_head]
  unfold rfsNewDirfileblk
  cases h0 : m.dev.alc m.dev.tick with
  | false =>
      refine ⟨false, m.after 1 [], ?_, clean_after m 1 false⟩
      rw [run_bind_ok (newBuf_none h0 fsysAlcblksz)]
      rfl
  | true =>
      rw [run_bind_ok (newBuf_some h0 fsysAlcblksz)]
      dsimp only
      cases h1 : m.dev.alc (m.dev.tick + 1) with
      | false =>
          refine ⟨false, m.after 2 [], ?_, clean_after m 2 false⟩
          rw [run_bind_ok (rfsNewBlk_none (m := m.after 1 _) h1), after_after, if_pos rfl,
            List.nil_append, run_bind_ok (hdel _ m)]
          rfl
      | true =>
          have h2 : m.AllAlc 2 := allAlc_succ.mpr ⟨allAlc_succ.mpr
            ⟨fun i hi => absurd hi (Nat.not_lt_zero i), h0⟩, h1⟩
          obtain ⟨h4, hroom⟩ := hsafe h2
          have hblk := rfsNewBlk_run (m := m.after 1 [(m.dev.tick, fsysAlcblksz)]) h.msize h.sup
            h.bmpblk ((allAlc_add 1 _).mp h4).2
          cases hf : freeBlknr bmp with
          | none =>
              refine ⟨false, m.after 4 [], ?_, clean_after m 4 false⟩
              rw [hf] at hblk
              rw [run_bind_ok hblk, after_after, if_pos rfl, List.nil_append, run_bind_ok (hdel _ m)]
              rfl
          | some n =>
              rw [hf] at hblk
              obtain ⟨h7, hlt⟩ := hroom (by rw [hf]; simp)
              have hn := freeBlknr_some hf
              have hn1 : n < 1024 := by
                by_contra hge
                exact h.out n (by omega) hn.2.1 hn.2.2
              -- the state with the bitmap stored, and with the file stored
              let m₁ := m.store 1 (.bmp (Function.update bmp n 1))
              let m₂ := m₁.store n (.fil ⟨newHead .fil n, fun _ => 0⟩)
              have hinv : RfsInv m₁.dev (Function.update bmp n 1) dir := h.leak hf
              have h7' : (m₁.after 4 [(m.dev.tick, fsysAlcblksz)]).AllAlc 3 :=
                ((allAlc_add 4 [(m.dev.tick, fsysAlcblksz)]).mp h7).2
              have hdir := (getRootdirfileBlk_run (m := m₁.after 4 [(m.dev.tick, fsysAlcblksz)])
                hinv.msize hinv.sup hinv.dirblk).resolve_right fun hno => hno.1 h7'
              refine ⟨true, (m₂.store 2 (.dir (dir.addEnt fne n))).after 7 [], ?_, rfl,
                Nat.le_add_right _ _, fun hfalse => by cases hfalse⟩
              rw [run_bind_ok hblk, if_neg (by omega)]
              show StateT.run _ (m₁.after 4 [(m.dev.tick, fsysAlcblksz)]) = _
              rw [run_bind_ok hdir.2, after_after]
              dsimp only
              rw [if_neg (by omega), run_bind_ok (write_run (m := m₁.after 7 _) hinv.msize hn1 _)]
              show StateT.run (delRootdirfileBlk (m.dev.tick + 6, dir.addEnt fne n) >>= _)
                (m₂.after 7 [(m.dev.tick + 6, fsysAlcblksz), (m.dev.tick, fsysAlcblksz)]) = _
              have hroot : (dir.addEnt fne n).hd.fmdSfblk = 2 := h.root.sfblk
              rw [run_bind_ok (delRootdirfileBlk_run (m := m₂) hinv.msize hroot
                (List.mem_cons_self ..)), List.erase_cons_head, run_bind_ok (hdel _ _)]
              rfl

/-- `rfs_new_file` does not stop halfway: when the name is good, new, and the calls up to
the one for the superblock of the bitmap got their buffers, so do the others, and there is
room for an entry if there is a free block. -/
def NewSafe (m : FsMem) (bmp : Nat → UInt8) (dir : Dirblk) (fname : Nat → UInt8) : Prop :=
  ∀ fne, rfsRetFname fname = some fne → 1 ≤ fne.length → fne.length < drNmMax →
    findEnt dir fne = none → m.AllAlc 5 → m.AllAlc 7 ∧
      (freeBlknr bmp ≠ none → m.AllAlc 10 ∧ dir.hd.fmdCurfinwbkoff < fsysAlcblksz)

include h in
/-- **`rfs_new_file`** gives its buffers back, and a call that fails changes no block. -/
theorem rfsNewFile_run (fname : Nat → UInt8) (hsafe : NewSafe m bmp dir fname) :
    ∃ ok m', (rfsNewFile fname).run m = .ok (ok, m') ∧ Clean m m' ok := by
  unfold rfsNewFile
  cases hname : rfsRetFname fname with
  | none => exact ⟨false, m, rfl, rfl, Nat.le_refl _, fun _ => rfl⟩
  | some fne =>
      rcases rfsChkfileisindev_run h fne with ⟨⟨hl1, hl2, h3⟩, hrun⟩ | ⟨_, k, r, hr, hrun⟩
      · rw [run_bind_ok hrun]
        cases hk : findEnt dir fne with
        | some k =>
            refine ⟨false, m.after 3 [], ?_, clean_after m 3 false⟩
            rfl
        | none =>
            have hsafe' : (m.after 3 []).AllAlc 2 → (m.after 3 []).AllAlc 4 ∧
                (freeBlknr bmp ≠ none → (m.after 3 []).AllAlc 7 ∧
                  dir.hd.fmdCurfinwbkoff < fsysAlcblksz) := by
              intro h2
              obtain ⟨h7, hroom⟩ := hsafe fne hname hl1 hl2 hk ((allAlc_add 3 []).mpr ⟨h3, h2⟩)
              refine ⟨((allAlc_add 3 []).mp h7).2, fun hf => ?_⟩
              exact ⟨((allAlc_add 3 []).mp (hroom hf).1).2, (hroom hf).2⟩
            have hinv : RfsInv (m.after 3 []).dev bmp dir := h.same ⟨rfl, rfl⟩
            obtain ⟨ok, m', hrun', hlive, htick, hdisk⟩ := rfsNewDirfileblk_run hinv fne hsafe'
            exact ⟨ok, m', hrun', hlive, Nat.le_trans (Nat.le_add_right _ 3) htick, hdisk⟩
      · refine ⟨false, m.after k [], ?_, clean_after m k false⟩
        rw [run_bind_ok hrun, if_pos hr]
        rfl

/-- The file is there, and `rfs_openfileblk` gets its buffers. -/
def OpenOk (m : FsMem) (dir : Dirblk) (fname : Nat → UInt8) : Prop :=
  ∃ fne, rfsRetFname fname = some fne ∧ (findEnt dir fne).isSome ∧ m.AllAlc 4

include h in
/-- **`rfs_openfileblk`** holds the buffer of the copy. -/
theorem rfsOpenfileblk_run {fname : Nat → UInt8} (hok : OpenOk m dir fname) :
    ∃ f b, FileHd f.hd b ∧ m.dev.disk b = .fil f ∧ (rfsOpenfileblk fname).run m
      = .ok (some (m.dev.tick + 3, f), m.after 4 [(m.dev.tick + 3, fsysAlcblksz)]) := by
  obtain ⟨fne, hname, hsome, h4⟩ := hok
  obtain ⟨k, hk⟩ := Option.isSome_iff_exists.mp hsome
  have hfile := (findEnt_some h.root hk).1
  obtain ⟨_, f, hblk, hf⟩ := h.file k hfile
  have hnot : ¬ dir.isEmpty = true := fun hempty => h.root.isEmpty_noFile hempty k hfile
  have hdir := (getRootdirfileBlk_run h.msize h.sup h.dirblk).resolve_right fun hno =>
    hno.1 (h4.mono (by decide))
  refine ⟨f, _, hf, hblk, ?_⟩
  unfold rfsOpenfileblk
  rw [hname]
  dsimp only
  rw [run_bind_ok hdir.2]
  dsimp only
  rw [if_neg (by rw [h.root.type]; simp), if_neg hnot, hk]
  dsimp only
  rw [run_bind_ok (newBuf_some (m := m.after 3 _) (h4 3 (by decide)) fsysAlcblksz), after_after]
  dsimp only
  rw [run_bind_ok (read_run (m := m.after 4 _) h.msize hf.lt)]
  show StateT.run (match some (m.dev.disk (dir.ent k).rdrBlknr) with
    | none => _
    | some (.fil f) => _
    | some _ => _) _ = _
  rw [hblk]
  dsimp only
  rw [if_neg (by rw [hf.type, hf.ifst]; simp), run_bind_ok (delRootdirfileBlk_same h.msize
    h.dirblk h.root.sfblk (by simp [FsMem.after]))]
  simp [FsMem.after]
  rfl

include h in
/-- **`rfs_closefileblk`** gives the buffer of the copy back. -/
theorem rfsClosefileblk_run {f : Filblk} {b buf : Nat} (hf : FileHd f.hd b)
    (hbuf : (buf, fsysAlcblksz) ∈ m.live) : (rfsClosefileblk (buf, f)).run m
      = .ok (true, ⟨m.dev.put b (.fil f), m.live.erase (buf, fsysAlcblksz)⟩) := by
  unfold rfsClosefileblk
  rw [hf.sfblk, run_bind_ok (write_run h.msize hf.lt _)]
  rw [run_bind_ok (delBuf_live (m := m.store b (.fil f)) hbuf)]
  rfl

end Files

end Live

end Cosmos.Drivers.Bufs
