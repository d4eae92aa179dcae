import Cosmos.Lib.Word64
import Cosmos.Hal.Msadsc

/-!
# Memory areas and their construction at boot

A memory area (`memarea_t`) keeps the free pages of one range of physical
addresses: 52 lists `dm_mdmlielst[k]` of blocks of `2 ^ k` pages, and the list
`dm_onemsalst` of single pages that only the process area uses.  The second
half of the file is the boot code of `memarea.c`: it stamps every descriptor
with the area its page lies in, finds the maximal runs of free consecutive
pages and cuts each run into blocks.

Loops are structural recursions on the number of rounds left.  A failed
`system_error` check ends a function with the text of the message.
-/

namespace Cosmos.Hal

open Cosmos.Lib.Word64

/-- `MDIVMER_ARR_LMAX`. -/
abbrev mdivmerArrLmax : Nat := 52

/-- `MEMAREA_MAX`. -/
abbrev memareaMax : Nat := 4

/-- `BAFH_STUS_*`. -/
inductive BafhStus where
  | init
  | onem
  | divp
  | divm
deriving DecidableEq, Repr

/-- `bafhlst_t`: a list of free blocks of `afOderpnr` pages each. -/
structure Bafhlst where
  afStus : BafhStus
  afOderpnr : Nat
  afFobjnr : Nat
  afMobjnr : Nat
  /-- first descriptors of the blocks, head of the list first -/
  afFrelst : List Nat
deriving DecidableEq, Repr

/-- `bafhlst_t_init`. -/
def bafhlstInit (stus : BafhStus) (oderpnr : Nat) : Bafhlst where
  afStus := stus
  afOderpnr := oderpnr
  afFobjnr := 0
  afMobjnr := 0
  afFrelst := []

/-- `memarea_t` with its `ma_mdmdata`. -/
structure Memarea where
  maType : MaType
  maMaxpages : Nat
  maAllocpages : Nat
  maFreepages : Nat
  maLogicstart : Nat
  maLogicend : Nat
  maAllmsadscnr : Nat
  dmMdmlielst : Nat → Bafhlst
  dmOnemsalst : Bafhlst

/-- The areas, and what lies behind the last of them. -/
abbrev MareaArr := Nat → Memarea

/-- `memarea_t_init` and `memdivmer_t_init`. -/
def memareaInit (ty : MaType) (lstart lend : Nat) : Memarea where
  maType := ty
  maMaxpages := 0
  maAllocpages := 0
  maFreepages := 0
  maLogicstart := lstart
  maLogicend := lend
  maAllmsadscnr := 0
  dmMdmlielst := fun li => bafhlstInit .divm (2 ^ li)
  dmOnemsalst := bafhlstInit .onem 1

/-- The four areas `init_memarea_core` sets up. -/
def initMemareaCore : MareaArr
  | 0 => memareaInit .hwad 0 0x1ffffff
  | 1 => memareaInit .krnl 0x2000000 0x3ffffffff
  | 2 => memareaInit .proc 0x400000000 0xffffffffffffffff
  | 3 => memareaInit .shar 0 0
  | _ => memareaInit .init 0 0

/-- The memory the allocator works on: the areas and the descriptors. -/
structure Mem where
  mareastat : MareaArr
  msadscstat : MsaArr

/-- The free list a `bafhlst_t *` points to. -/
def Mem.bafh (x : Mem) : BafhPtr → Bafhlst
  | .lie a k => (x.mareastat a).dmMdmlielst k
  | .one a => (x.mareastat a).dmOnemsalst

/-- Write an area. -/
def Mem.setMarea (x : Mem) (a : Nat) (f : Memarea → Memarea) : Mem :=
  { x with mareastat := Function.update x.mareastat a (f (x.mareastat a)) }

/-- Write a free list. -/
def Mem.setBafh (x : Mem) (p : BafhPtr) (b : Bafhlst) : Mem :=
  match p with
  | .lie a k => x.setMarea a (fun m =>
      { m with dmMdmlielst := Function.update m.dmMdmlielst k b })
  | .one a => x.setMarea a (fun m => { m with dmOnemsalst := b })

/-- Write a descriptor. -/
def Mem.setMsa (x : Mem) (i : Nat) (f : Msadsc → Msadsc) : Mem :=
  { x with msadscstat := upd x.msadscstat i f }

/-- `list_add` of a block, with the two counters every caller bumps. -/
def Bafhlst.addObj (b : Bafhlst) (s : Nat) : Bafhlst :=
  { b with
    afFrelst := s :: b.afFrelst
    afFobjnr := add64 b.afFobjnr 1
    afMobjnr := add64 b.afMobjnr 1 }

/-- `list_del` of a block, with the two counters every caller drops. -/
def Bafhlst.delObj (b : Bafhlst) (s : Nat) : Bafhlst :=
  { b with
    afFrelst := b.afFrelst.erase s
    afFobjnr := sub64 b.afFobjnr 1
    afMobjnr := sub64 b.afMobjnr 1 }

/-- The tags a block carries on list `p`: the first descriptor points to the
last one, which points to the list.  The writes come in this order, so a block
of one page keeps only the second tag. -/
def Mem.tagBlock (x : Mem) (p : BafhPtr) (mstat mend : Nat) : Mem :=
  (x.setMsa mstat (fun m => { m with mfOlkty := .oder, mdOdlink := .msa mend })).setMsa
    mend (fun m => { m with mfOlkty := .bafh, mdOdlink := .bafh p })

/-! ## Finding runs of free pages -/

/-- The test the boot code makes of a descriptor before it files it. -/
def msaIsFree (m : Msadsc) (ty : MaType) : Bool :=
  m.mfMarty = ty && m.mfUindx = 0 && m.mfMocty = .free && !m.pafAlloc

/-- `continumsadsc_is_ok`: 0 if `prevmsa` is not free, 1 if the run ends with
it, 2 if `nextmsa` continues it. -/
def continumsadscIsOk (prevmsa nextmsa : Msadsc) (ty : MaType) : Nat :=
  if msaIsFree prevmsa ty then
    if msaIsFree nextmsa ty then
      if sub64 (msadscRetAddr nextmsa) (msadscRetAddr prevmsa) = pagesize then 2
      else 1
    else 1
  else 0

/-- Loop of `scan_len_msadsc`; `retnr` also counts the rounds done. -/
def scanLenLoop (d : MsaArr) (ty : MaType) (mstat : Nat) :
    Nat → Nat → Option Nat
  | 0, retnr => some retnr
  | n + 1, retnr =>
      match continumsadscIsOk (d (mstat + retnr)) (d (mstat + retnr + 1)) ty with
      | 0 => none
      | 1 => some retnr
      | _ => scanLenLoop d ty mstat n (retnr + 1)

/-- `scan_len_msadsc`: number of descriptors that continue the run at `mstat`.
It looks at up to `mnr` descriptors from `mstat` on. -/
def scanLenMsadsc (d : MsaArr) (mstat : Nat) (ty : MaType) (mnr : Nat) :
    Option Nat :=
  if mnr = 0 then none else scanLenLoop d ty mstat (mnr - 1) 0

/-- The `switch` on `ma_type`: the areas that own pages. -/
def martyOfArea : MaType → Option MaType
  | .hwad => some .hwad
  | .krnl => some .krnl
  | .proc => some .proc
  | _ => none

/-- Loop of `check_continumsadsc` from `ms` on, `ok` links checked so far. -/
def checkContinuLoop (d : MsaArr) (ty : MaType) : Nat → Nat → Nat → Nat
  | 0, _, ok => ok
  | n + 1, ms, ok =>
      if !msaIsFree (d ms) ty || !msaIsFree (d (ms + 1)) ty then 0
      else if sub64 (msadscRetAddr (d (ms + 1))) (msadscRetAddr (d ms)) ≠ pagesize then 0
      else checkContinuLoop d ty n (ms + 1) (ok + 1)

/-- `check_continumsadsc`: recheck of a run before it is filed; 0 is failure. -/
def checkContinumsadsc (m : Memarea) (d : MsaArr) (stat fend fmnr : Nat) : Nat :=
  if fmnr = 0 ∨ fend < stat then 0
  else
    match martyOfArea m.maType with
    | none => 0
    | some ty =>
        if stat = fend then
          if msaIsFree (d stat) ty ∧ fmnr = 1 then 1 else 0
        else
          let ok := checkContinuLoop d ty (fend - stat) stat 0
          if ok = 0 then 0 else if ok + 1 ≠ fmnr then 0 else ok

/-- Loop of `merlove_scan_continumsadsc` from `tmidx` on. -/
def scanContinuLoop (d : MsaArr) (ty : MaType) (fmsanr : Nat) :
    Nat → Nat → Except String (Nat × Option (Nat × Nat × Nat))
  | 0, _ => .ok (fmsanr, none)
  | n + 1, tmidx =>
      if msaIsFree (d tmidx) ty then
        match scanLenMsadsc d tmidx ty fmsanr with
        | none => .error "scan_len_msadsc err\n"
        | some r => .ok (tmidx + r + 1, some (tmidx, tmidx + r, r + 1))
      else scanContinuLoop d ty fmsanr n (tmidx + 1)

/-- `merlove_scan_continumsadsc`: the next run of free pages of the area at or
behind `fntmsanr`.  `none` is `FALSE`; otherwise the index to go on from and
the first and last descriptor and the length of the run, if there is one. -/
def merloveScanContinumsadsc (m : Memarea) (d : MsaArr) (fntmsanr fmsanr : Nat) :
    Except String (Option (Nat × Option (Nat × Nat × Nat))) :=
  if fmsanr = 0 ∨ fmsanr ≤ fntmsanr then .ok none
  else
    match martyOfArea m.maType with
    | none => .ok none
    | some ty =>
        match scanContinuLoop d ty fmsanr (fmsanr - fntmsanr) fntmsanr with
        | .error e => .error e
        | .ok r => .ok (some r)

/-- In an area that is searched, the next run is that of its type. -/
theorem merloveScanContinumsadsc_eq {m : Memarea} {d : MsaArr} {f n : Nat} {ty : MaType}
    (hf : f < n) (hmarty : martyOfArea m.maType = some ty) :
    merloveScanContinumsadsc m d f n = (scanContinuLoop d ty n (n - f) f).map some := by
  unfold merloveScanContinumsadsc
  rw [if_neg (by omega), hmarty]
  dsimp only
  cases scanContinuLoop d ty n (n - f) f <;> rfl

/-! ## Stamping the descriptors with their area -/

/-- The page lies in the range of the area. -/
def inMarea (m : Memarea) (phyadr : Nat) : Bool :=
  m.maLogicstart ≤ phyadr && sub64 (add64 phyadr pagesize) 1 ≤ m.maLogicend

/-- One round of `merlove_setallmarflgs_onmemarea`. -/
def setMarflg (m : Memarea) (ty : MaType) (st : MsaArr × Nat) (mix : Nat) :
    MsaArr × Nat :=
  if (st.1 mix).mfMarty = .init ∧ inMarea m (msadscRetAddr (st.1 mix)) then
    (upd st.1 mix (fun x => { x with mfMarty := ty }), st.2 + 1)
  else st

/-- `merlove_setallmarflgs_onmemarea`; `none` is the error value `~0UL`. -/
def merloveSetallmarflgsOnmemarea (m : Memarea) (d : MsaArr) (msanr : Nat) :
    MsaArr × Option Nat :=
  if msanr = 0 then (d, none)
  else if m.maType = .shar then (d, some 0)
  else
    match martyOfArea m.maType with
    | none => (d, none)
    | some ty =>
        let r := (List.range msanr).foldl (setMarflg m ty) (d, 0)
        (r.1, some r.2)

/-- `test_setflgs`: the descriptors stamped with the area. -/
def testSetflgs (m : Memarea) (d : MsaArr) (msanr : Nat) : Option Nat :=
  if msanr = 0 then none
  else if m.maType = .shar then some 0
  else
    match martyOfArea m.maType with
    | none => none
    | some ty =>
        some ((List.range msanr).countP fun mix =>
          inMarea m (msadscRetAddr (d mix)) && (d mix).mfMarty = ty)

/-! ## Filing a run -/

/-- One round of `find_continumsa_inbafhlst`. -/
def findContinumsaStep (m : Memarea) (fmnr : Nat) (st : Option Nat × Nat) (li : Nat) :
    Option Nat × Nat :=
  if (m.dmMdmlielst li).afOderpnr ≤ fmnr then (some li, st.2 + 1) else st

/-- `find_continumsa_inbafhlst`: the list for the largest block that fits. -/
def findContinumsaInbafhlst (a : Nat) (m : Memarea) (fmnr : Nat) : Option BafhPtr :=
  if fmnr = 0 then none
  else if m.maType = .proc then some (.one a)
  else if m.maType = .shar then none
  else
    match (List.range mdivmerArrLmax).foldl (findContinumsaStep m fmnr) (none, 0) with
    | (none, _) => none
    | (some li, cnt) => if mdivmerArrLmax ≤ cnt then none else some (.lie a li)

/-- The counters of an area that grow with every block filed at boot. -/
def Memarea.addPages (m : Memarea) (fmnr : Nat) : Memarea :=
  { m with
    maMaxpages := add64 m.maMaxpages fmnr
    maFreepages := add64 m.maFreepages fmnr
    maAllmsadscnr := add64 m.maAllmsadscnr fmnr }

/-- One page of `continumsadsc_add_procmareabafh`. -/
def addProcMsa (a fstat : Nat) (x : Mem) (tmpnr : Nat) : Mem :=
  let x := x.setMsa (fstat + tmpnr) (fun m =>
    { m with mfOlkty := .bafh, mdOdlink := .bafh (.one a) })
  let x := x.setBafh (.one a) ((x.bafh (.one a)).addObj (fstat + tmpnr))
  x.setMarea a (fun m => m.addPages 1)

/-- `continumsadsc_add_procmareabafh`. -/
def continumsadscAddProcmareabafh (x : Mem) (a fstat fend fmnr : Nat) : Option Mem :=
  let bafhp := x.bafh (.one a)
  if fmnr = 0 then none
  else if bafhp.afStus ≠ .onem ∨ (x.mareastat a).maType ≠ .proc then none
  else if bafhp.afOderpnr ≠ 1 then none
  else if fstat + (fmnr - 1) ≠ fend then none
  else some ((List.range fmnr).foldl (addProcMsa a fstat) x)

/-- `continumsadsc_add_bafhlst`. -/
def continumsadscAddBafhlst (x : Mem) (a : Nat) (p : BafhPtr) (fstat fend fmnr : Nat) :
    Option Mem :=
  if fmnr = 0 then none
  else if (x.bafh p).afOderpnr ≠ fmnr then none
  else if fstat + (fmnr - 1) ≠ fend then none
  else
    let x := x.tagBlock p fstat fend
    let x := x.setBafh p ((x.bafh p).addObj fstat)
    some (x.setMarea a (fun m => m.addPages fmnr))

/-- `continumsadsc_mareabafh_core`: file one block of the run `rfstat`,
`rfend`, `rfmnr`; the result carries the rest of the run. -/
def continumsadscMareabafhCore (x : Mem) (a rfstat rfend rfmnr : Nat) :
    Option (Mem × Nat × Option Nat × Nat) :=
  if rfmnr < 1 then none
  else
    match findContinumsaInbafhlst a (x.mareastat a) rfmnr with
    | none => none
    | some p =>
        let bafhp := x.bafh p
        let ty := (x.mareastat a).maType
        if rfmnr < bafhp.afOderpnr then none
        else if (bafhp.afStus = .divp ∨ bafhp.afStus = .divm) ∧ ty ≠ .proc then
          match continumsadscAddBafhlst x a p rfstat
              (rfstat + (bafhp.afOderpnr - 1)) bafhp.afOderpnr with
          | none => none
          | some x' =>
              if rfmnr - bafhp.afOderpnr = 0 then some (x', rfstat, none, 0)
              else some (x', rfstat + bafhp.afOderpnr, some rfend,
                rfmnr - bafhp.afOderpnr)
        else if bafhp.afStus = .onem ∧ ty = .proc then
          match continumsadscAddProcmareabafh x a rfstat rfend rfmnr with
          | none => none
          | some x' => some (x', rfstat, none, 0)
        else none

/-- Loop of `merlove_continumsadsc_mareabafh`.  Every round files at least one
page, so as many rounds as pages are enough. -/
def merloveContinuLoop (a : Nat) : Nat → Mem → Nat → Option Nat → Nat → Except String Mem
  | 0, x, _, _, _ => .ok x
  | n + 1, x, fstat, fend, mnridx =>
      match fend with
      | none => .ok x
      | some e =>
          if mnridx = 0 then .ok x
          else
            match continumsadscMareabafhCore x a fstat e mnridx with
            | none => .error "continumsadsc_mareabafh_core fail\n"
            | some (x', fstat', fend', mnridx') =>
                merloveContinuLoop a n x' fstat' fend' mnridx'

/-- `merlove_continumsadsc_mareabafh`: file a whole run. -/
def merloveContinumsadscMareabafh (x : Mem) (a mstat mend mnr : Nat) :
    Except String (Option Mem) :=
  if mnr = 0 then .ok none
  else
    match merloveContinuLoop a mnr x mstat (some mend) mnr with
    | .error e => .error e
    | .ok x' => .ok (some x')

/-- Loop of `merlove_mem_onmemarea`.  The index `fntmnr` grows in every round,
so as many rounds as descriptors are enough. -/
def merloveMemLoop (a msanr : Nat) : Nat → Mem → Nat → Except String Mem
  | 0, x, _ => .ok x
  | n + 1, x, fntmnr =>
      if msanr ≤ fntmnr then .ok x
      else
        match merloveScanContinumsadsc (x.mareastat a) x.msadscstat fntmnr msanr with
        | .error e => .error e
        | .ok none => .error "merlove_scan_continumsadsc fail\n"
        | .ok (some (fntmnr', none)) => merloveMemLoop a msanr n x fntmnr'
        | .ok (some (fntmnr', some (stat, fend, nr))) =>
            if checkContinumsadsc (x.mareastat a) x.msadscstat stat fend nr = 0 then
              .error "check_continumsadsc fail\n"
            else
              match merloveContinumsadscMareabafh x a stat fend nr with
              | .error e => .error e
              | .ok none => .error "merlove_continumsadsc_mareabafh fail\n"
              | .ok (some x') => merloveMemLoop a msanr n x' fntmnr'

/-- `merlove_mem_onmemarea`; `none` is `FALSE`. -/
def merloveMemOnmemarea (x : Mem) (a msanr : Nat) : Except String (Option Mem) :=
  if msanr = 0 then .ok none
  else if (x.mareastat a).maType = .shar then .ok (some x)
  else if (x.mareastat a).maType = .init then .ok none
  else
    match merloveMemLoop a msanr msanr x 0 with
    | .error e => .error e
    | .ok x' => .ok (some x')

/-! ## The whole of `merlove_mem_core` -/

/-- First loop of `merlove_mem_core`: stamp and recount, area by area. -/
def merloveSetLoop (marea : MareaArr) (msanr : Nat) : Nat → Nat → MsaArr → Option MsaArr
  | 0, _, d => some d
  | n + 1, mi, d =>
      match merloveSetallmarflgsOnmemarea (marea mi) d msanr with
      | (_, none) => none
      | (d', some sretf) =>
          match testSetflgs (marea mi) d' msanr with
          | none => none
          | some tretf =>
              if sretf ≠ tretf then none else merloveSetLoop marea msanr n (mi + 1) d'

/-- Second loop of `merlove_mem_core`: build the free lists, area by area. -/
def merloveAreaLoop (msanr : Nat) : Nat → Nat → Mem → Except String (Option Mem)
  | 0, _, x => .ok (some x)
  | n + 1, maidx, x =>
      match merloveMemOnmemarea x maidx msanr with
      | .error e => .error e
      | .ok none => .ok none
      | .ok (some x') => merloveAreaLoop msanr n (maidx + 1) x'

/-- `merlove_mem_core`. -/
def merloveMemCore (x : Mem) (msanr : Nat) : Except String (Option Mem) :=
  match merloveSetLoop x.mareastat msanr memareaMax 0 x.msadscstat with
  | none => .ok none
  | some d => merloveAreaLoop msanr memareaMax 0 { x with msadscstat := d }

/-! ## The self-check after boot -/

/-- Loop of `check_multi_msadsc`. -/
def checkMultiLoop (m : Memarea) (d : MsaArr) (mstat : Nat) : Nat → Nat → Bool
  | 0, _ => true
  | n + 1, mi =>
      let cur := d (mstat + mi)
      let nxt := d (mstat + mi + 1)
      if cur.mfMarty ≠ m.maType then false
      else if cur.pafAlloc || cur.mfUindx ≠ 0 then false
      else if nxt.pafAlloc || nxt.mfUindx ≠ 0 then false
      else if add64 (msadscRetAddr cur) pagesize ≠ msadscRetAddr nxt then false
      else if msadscRetAddr cur < m.maLogicstart ||
          m.maLogicend < sub64 (add64 (msadscRetAddr nxt) pagesize) 1 then false
      else checkMultiLoop m d mstat n (mi + 1)

/-- `check_multi_msadsc`: the length of the block at `mstat`, 0 if it is not a
well-formed entry of list `p`. -/
def checkMultiMsadsc (m : Memarea) (d : MsaArr) (p : BafhPtr) (bafhp : Bafhlst)
    (mstat : Nat) : Nat :=
  let mend : Option Nat :=
    match (d mstat).mfOlkty with
    | .oder => (d mstat).mdOdlink.toMsa
    | .bafh => if (d mstat).mdOdlink = .null then none else some mstat
    | _ => none
  match mend with
  | none => 0
  | some e =>
      let mnr := add64 (sub64 e mstat) 1
      if mnr ≠ bafhp.afOderpnr then 0
      else if (d e).mfOlkty ≠ .bafh then 0
      else if (d e).mdOdlink ≠ .bafh p then 0
      else if mnr = 1 then
        if (d mstat).mfMarty ≠ m.maType then 0
        else if (d mstat).pafAlloc || (d mstat).mfUindx ≠ 0 then 0
        else if !inMarea m (msadscRetAddr (d mstat)) then 0
        else 1
      else if checkMultiLoop m d mstat (mnr - 1) 0 then mnr else 0

/-- `check_one_bafhlst`. -/
def checkOneBafhlst (m : Memarea) (d : MsaArr) (p : BafhPtr) (bafhp : Bafhlst) : Bool :=
  if bafhp.afMobjnr < 1 ∧ bafhp.afFobjnr < 1 then true
  else
    bafhp.afFrelst.all (fun msap => bafhp.afOderpnr = checkMultiMsadsc m d p bafhp msap) &&
      (bafhp.afFrelst.length = bafhp.afFobjnr && bafhp.afFrelst.length = bafhp.afMobjnr)

/-- `check_one_memarea`. -/
def checkOneMemarea (x : Mem) (a : Nat) : Bool :=
  let m := x.mareastat a
  if m.maMaxpages < 1 then true
  else
    (List.range mdivmerArrLmax).all (fun li =>
        checkOneBafhlst m x.msadscstat (.lie a li) (x.bafh (.lie a li))) &&
      checkOneBafhlst m x.msadscstat (.one a) (x.bafh (.one a))

/-- `mem_check_mareadata`. -/
def memCheckMareadata (x : Mem) : Except String Unit :=
  if (List.range memareaMax).all (checkOneMemarea x) then .ok ()
  else .error "check_one_memarea fail\n"

/-- `init_merlove_mem`. -/
def initMerloveMem (x : Mem) (msanr : Nat) : Except String Mem :=
  match merloveMemCore x msanr with
  | .error e => .error e
  | .ok none => .error "merlove_mem_core fail\n"
  | .ok (some x') =>
      match memCheckMareadata x' with
      | .error e => .error e
      | .ok () => .ok x'

end Cosmos.Hal
