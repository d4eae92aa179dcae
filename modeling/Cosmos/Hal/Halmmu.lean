import Cosmos.Lib.Supply
import Mathlib.Algebra.Group.Nat.Defs
import Mathlib.Logic.Function.Basic

/-!
# Page tables

`halmmu.c`: the four levels of page tables of an address space.  A table is the
512 entries of a page frame; an entry is a 64-bit word whose bits 12 to 51 are the
number of the frame it points to.  Tables are made when a page is mapped, from one
page of the kernel area each, and given back when a page is unmapped and nothing is
left in them.

The functions for the `sdir`, `idir` and `mdir` level differ in nothing but the list,
the counter and the index, so each kind is one definition with the level as its
argument.  `mm_division_pages` for one page is a supply of frames that never hands
out what is outstanding, and `mm_merge_pages` takes back what is.
-/

namespace Cosmos.Hal

open Cosmos.Lib

/-- The number of a page frame: not 0, and 40 bits. -/
structure PageFrame where
  val : Nat
  pos : 0 < val
  lt : val < 2 ^ 40
deriving DecidableEq

/-- The kinds of tables, from the top. -/
inductive DirLevel where
  | tdir
  | sdir
  | idir
  | mdir
deriving DecidableEq, Repr

/-- `mmudsc_t`: `mudHead` are the lists `mud_tdirhead`, `mud_sdirhead`, `mud_idirhead`
and `mud_mdirhead`, and `mudMsanr` their counters. -/
structure Mmudsc where
  mudTdirearr : Option PageFrame
  mudHead : DirLevel → List PageFrame
  mudMsanr : DirLevel → Nat

/-- `mmudsc_t_init`. -/
def mmudscInit : Mmudsc where
  mudTdirearr := none
  mudHead := fun _ => []
  mudMsanr := fun _ => 0

/-- An address space's tables: the words of every frame, the descriptor, and the
page allocator. -/
structure MmuSt where
  tbl : PageFrame → Nat → Nat
  mmu : Mmudsc
  pgs : Supply PageFrame

/-- Code that runs on the tables; an error stops the kernel. -/
abbrev MmuM := StateT MmuSt (Except String)

/-! ## Entries -/

/-- The frame an entry points to, as the processor follows it, and the code to a table:
`…_is_have` and `…_ret_padr`.  Tables lie in the kernel area, below `2^34`. -/
def direFrame (entry : Nat) : Option PageFrame :=
  let n := (entry >>> 12) % 2 ^ 40
  if h : 0 < n ∧ n < 2 ^ 40 then some ⟨n, h.1, h.2⟩ else none

/-- The entry for an address. -/
def direEntry (padrs flags : Nat) : Nat := padrs ||| flags

/-- `msadsc_ret_addr` of the frame's descriptor. -/
def frameAddr (msa : PageFrame) : Nat := msa.val <<< 12

/-- `mmumsa_ret_padr`: `m_msa` is a bit-field of 40 bits, and is shifted in 40 bits. -/
def mmumsaRetPadr (msa : PageFrame) : Nat := (msa.val <<< 12) % 2 ^ 40

/-- `mmu_tdire_index`. -/
def mmuTdireIndex (vadrs : Nat) : Nat := vadrs >>> 39 &&& 0x1ff

/-- `mmu_sdire_index`. -/
def mmuSdireIndex (vadrs : Nat) : Nat := vadrs >>> 30 &&& 0x1ff

/-- `mmu_idire_index`. -/
def mmuIdireIndex (vadrs : Nat) : Nat := vadrs >>> 21 &&& 0x1ff

/-- `mmu_mdire_index`. -/
def mmuMdireIndex (vadrs : Nat) : Nat := vadrs >>> 12 &&& 0x1ff

/-- Where the table of a level stands in the table above it. -/
def DirLevel.index : DirLevel → Nat → Nat
  | .tdir, _ => 0
  | .sdir, vadrs => mmuTdireIndex vadrs
  | .idir, vadrs => mmuSdireIndex vadrs
  | .mdir, vadrs => mmuIdireIndex vadrs

/-- The state with one entry written. -/
def MmuSt.setEntry (s : MmuSt) (f : PageFrame) (i e : Nat) : MmuSt :=
  { s with tbl := Function.update s.tbl f (Function.update (s.tbl f) i e) }

/-- `…direarr_is_allzero`. -/
def direarrIsAllzero (s : MmuSt) (f : PageFrame) : Bool :=
  (List.range 512).all fun i => s.tbl f i = 0

/-! ## Tables -/

/-- A frame joins the list of a level. -/
def Mmudsc.addMsa (mmu : Mmudsc) (lv : DirLevel) (msa : PageFrame) : Mmudsc :=
  { mmu with
    mudHead := Function.update mmu.mudHead lv (msa :: mmu.mudHead lv)
    mudMsanr := Function.update mmu.mudMsanr lv (mmu.mudMsanr lv + 1) }

/-- A frame leaves the list of a level. -/
def Mmudsc.delMsa (mmu : Mmudsc) (lv : DirLevel) (msa : PageFrame) : Mmudsc :=
  { mmu with
    mudHead := Function.update mmu.mudHead lv ((mmu.mudHead lv).erase msa)
    mudMsanr := Function.update mmu.mudMsanr lv (mmu.mudMsanr lv - 1) }

/-- `mmu_new_sdirearr`, `mmu_new_idirearr` and `mmu_new_mdirearr`: a zeroed table. -/
def mmuNewDirearr (lv : DirLevel) : MmuM (Option PageFrame) := do
  let s ← get
  match s.pgs.take with
  | (none, pgs) =>
      set { s with pgs := pgs }
      return none
  | (some msa, pgs) =>
      set { s with
        tbl := Function.update s.tbl msa fun _ => 0
        mmu := s.mmu.addMsa lv msa
        pgs := pgs }
      return some msa

/-- `mmu_new_tdirearr`. -/
def mmuNewTdirearr : MmuM (Option PageFrame) := do
  match ← mmuNewDirearr .tdir with
  | none => return none
  | some msa =>
      modify fun s => { s with mmu := { s.mmu with mudTdirearr := some msa } }
      return some msa

/-- `mmu_del_sdirearr`, `mmu_del_idirearr` and `mmu_del_mdirearr`: `msa` is the
descriptor of the table if the caller knows it. -/
def mmuDelDirearr (lv : DirLevel) (direarr : PageFrame) (msa : Option PageFrame) : MmuM Bool := do
  let s ← get
  if msa = some direarr ∨ direarr ∈ s.mmu.mudHead lv then
    match s.pgs.give direarr with
    | none => throw "mmu_del_tdirearr err\n"
    | some pgs =>
        set { s with mmu := s.mmu.delMsa lv direarr, pgs := pgs }
        return true
  else return false

/-- `mmu_untransform_msa`: the address that the entry gives, 0 if there is none. -/
def mmuUntransformMsa (mdirearr : PageFrame) (vadrs : Nat) : MmuM Nat := do
  let s ← get
  match direFrame (s.tbl mdirearr (mmuMdireIndex vadrs)) with
  | none => return 0
  | some f =>
      set (s.setEntry mdirearr (mmuMdireIndex vadrs) 0)
      return mmumsaRetPadr f

/-- `mmu_transform_msa`. -/
def mmuTransformMsa (mdirearr : PageFrame) (vadrs padrs flags : Nat) : MmuM Bool := do
  modify fun s => s.setEntry mdirearr (mmuMdireIndex vadrs) (direEntry padrs flags)
  return true

/-- `mmu_untransform_sdire`, `mmu_untransform_idire` and `mmu_untransform_mdire`: the
table of level `lv` goes if nothing is left in it. -/
def mmuUntransformDire (lv : DirLevel) (parent : PageFrame) (msa : Option PageFrame) (vadrs : Nat) :
    MmuM Bool := do
  let s ← get
  match direFrame (s.tbl parent (lv.index vadrs)) with
  | none => return true
  | some direarr =>
      if !direarrIsAllzero s direarr then return true
      else if !(← mmuDelDirearr lv direarr msa) then return false
      else
        modify fun s => s.setEntry parent (lv.index vadrs) 0
        return true

/-- `mmu_transform_sdire`, `mmu_transform_idire` and `mmu_transform_mdire`: the table
of level `lv`, and its descriptor if it is a new one. -/
def mmuTransformDire (lv : DirLevel) (parent : PageFrame) (vadrs flags : Nat) :
    MmuM (Option PageFrame × Option PageFrame) := do
  let s ← get
  match direFrame (s.tbl parent (lv.index vadrs)) with
  | some direarr => return (some direarr, none)
  | none =>
      match ← mmuNewDirearr lv with
      | none => return (none, none)
      | some msa =>
          modify fun s =>
            s.setEntry parent (lv.index vadrs) (direEntry (frameAddr msa) flags)
          return (some msa, some msa)

/-! ## Mapping and unmapping a page -/

/-- The labels `untf_mdire`, `untf_idire` and `untf_sdire` from the one of `lv` on; the
descriptors are those of new tables. -/
def untfSdire (tdirearr : PageFrame) (smsa : Option PageFrame) (vadrs : Nat) : MmuM Bool := do
  let _ ← mmuUntransformDire .sdir tdirearr smsa vadrs
  return false

def untfIdire (tdirearr sdirearr : PageFrame) (smsa imsa : Option PageFrame) (vadrs : Nat) :
    MmuM Bool := do
  let _ ← mmuUntransformDire .idir sdirearr imsa vadrs
  untfSdire tdirearr smsa vadrs

def untfMdire (tdirearr sdirearr idirearr : PageFrame) (smsa imsa mmsa : Option PageFrame)
    (vadrs : Nat) : MmuM Bool := do
  let _ ← mmuUntransformDire .mdir idirearr mmsa vadrs
  untfIdire tdirearr sdirearr smsa imsa vadrs

/-- `hal_mmu_transform`.  `mmu_transform_msa` on tables that are there succeeds. -/
def halMmuTransform (vadrs padrs flags : Nat) : MmuM Bool := do
  let s ← get
  match s.mmu.mudTdirearr with
  | none => return false
  | some tdirearr =>
      match ← mmuTransformDire .sdir tdirearr vadrs flags with
      | (none, smsa) => untfSdire tdirearr smsa vadrs
      | (some sdirearr, smsa) =>
          match ← mmuTransformDire .idir sdirearr vadrs flags with
          | (none, imsa) => untfIdire tdirearr sdirearr smsa imsa vadrs
          | (some idirearr, imsa) =>
              match ← mmuTransformDire .mdir idirearr vadrs flags with
              | (none, mmsa) => untfMdire tdirearr sdirearr idirearr smsa imsa mmsa vadrs
              | (some mdirearr, _) => mmuTransformMsa mdirearr vadrs padrs flags

/-- `mmu_find_sdirearr`, `mmu_find_idirearr` and `mmu_find_mdirearr`. -/
def mmuFindDirearr (s : MmuSt) (lv : DirLevel) (parent : PageFrame) (vadrs : Nat) : Option PageFrame :=
  direFrame (s.tbl parent (lv.index vadrs))

/-- `hal_mmu_untransform`: the address that the entry of the page gave, 0 if the page was
not mapped. -/
def halMmuUntransform (vadrs : Nat) : MmuM Nat := do
  let s ← get
  match s.mmu.mudTdirearr with
  | none => return 0
  | some tdirearr =>
      match mmuFindDirearr s .sdir tdirearr vadrs with
      | none => return 0
      | some sdirearr =>
          match mmuFindDirearr s .idir sdirearr vadrs with
          | none =>
              let _ ← mmuUntransformDire .sdir tdirearr none vadrs
              return 0
          | some idirearr =>
              match mmuFindDirearr s .mdir idirearr vadrs with
              | none =>
                  let _ ← mmuUntransformDire .idir sdirearr none vadrs
                  let _ ← mmuUntransformDire .sdir tdirearr none vadrs
                  return 0
              | some mdirearr =>
                  let retadr ← mmuUntransformMsa mdirearr vadrs
                  let _ ← mmuUntransformDire .mdir idirearr none vadrs
                  let _ ← mmuUntransformDire .idir sdirearr none vadrs
                  let _ ← mmuUntransformDire .sdir tdirearr none vadrs
                  return retadr

/-! ## The address space -/

/-- `copy_pages_data`: the kernel's top table, with the kernel half at entry 256. -/
def copyPagesData (pdptepd : Nat) : Nat → Nat := fun mi =>
  if mi = 256 then pdptepd ||| 3 else 0

/-- `hal_mmu_init`, where `pml4` is the kernel's top table. -/
def halMmuInit (pml4 : Nat → Nat) : MmuM Bool := do
  match ← mmuNewTdirearr with
  | none => return false
  | some tdirearr =>
      modify fun s => { s with tbl := Function.update s.tbl tdirearr pml4 }
      modify fun s => s.setEntry tdirearr 0 0
      return true

/-- What the loop of a level says when a page is not taken back. -/
def DirLevel.cleanErr : DirLevel → String
  | .tdir => "mmu_clean_tdirearrmsas"
  | .sdir => "mmu_clean_sdirearrmsas"
  | .idir => "mmu_clean_idirearrmsas"
  | .mdir => "mmu_clean_mdirearrmsas"

/-- The loop of `mmu_clean_tdirearrmsas`, `mmu_clean_sdirearrmsas`,
`mmu_clean_idirearrmsas` and `mmu_clean_mdirearrmsas`. -/
def mmuCleanDirearrmsas (lv : DirLevel) : List PageFrame → MmuM Unit
  | [] => return ()
  | msa :: l => do
      let s ← get
      match s.pgs.give msa with
      | none => throw lv.cleanErr
      | some pgs =>
          set { s with mmu := s.mmu.delMsa lv msa, pgs := pgs }
          mmuCleanDirearrmsas lv l

/-- `hal_mmu_clean`, with the loaded top table. -/
def halMmuClean (cr3 : PageFrame) : MmuM Bool := do
  let s ← get
  if s.mmu.mudTdirearr = some cr3 then return false
  else
    mmuCleanDirearrmsas .mdir (s.mmu.mudHead .mdir)
    mmuCleanDirearrmsas .idir (s.mmu.mudHead .idir)
    mmuCleanDirearrmsas .sdir (s.mmu.mudHead .sdir)
    mmuCleanDirearrmsas .tdir (s.mmu.mudHead .tdir)
    return true

/-- Following the tables for an address to the frame that the processor reaches. -/
def mmuLookup (s : MmuSt) (vadrs : Nat) : Option PageFrame :=
  s.mmu.mudTdirearr.bind fun tdirearr =>
    (mmuFindDirearr s .sdir tdirearr vadrs).bind fun sdirearr =>
      (mmuFindDirearr s .idir sdirearr vadrs).bind fun idirearr =>
        (mmuFindDirearr s .mdir idirearr vadrs).bind fun mdirearr =>
          direFrame (s.tbl mdirearr (mmuMdireIndex vadrs))

end Cosmos.Hal
