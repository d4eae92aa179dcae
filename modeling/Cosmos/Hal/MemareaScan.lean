import Cosmos.Hal.MemareaInit

/-!
# The descriptors that the boot scan looks at

The array of descriptors ends at `msanr`, and `merlove_mem_onmemarea` knows that.  It looks for
runs of free pages with `scan_len_msadsc`, which is given the start of a run and again the
length of the whole array.  The functions of `Cosmos.Hal.Memarea` are followed here once more
with what they do with descriptors, one event after the other, and with the runs that
`merlove_scan_continumsadsc` reports; the states in between are theirs.

## Main results

* `memLoopEvs_some` : the loop ends.
* `bootScan_inside_iff` and `bootScan_not_inside` : the events lie inside the array unless the
  last run of free pages begins behind the first descriptor.
-/

namespace Cosmos.Hal

open Cosmos.Lib.Word64

/-- What happens to descriptors. -/
inductive ScanEv where
  /-- descriptor `i` is inspected or modified -/
  | msa (i : Nat)
  /-- `merlove_scan_continumsadsc` reports a run -/
  | run (stat fend nr : Nat)
deriving DecidableEq

/-- Inside an array of `msanr` descriptors. -/
def ScanEv.Inside (msanr : Nat) : ScanEv → Prop
  | .msa i => i < msanr
  | .run stat fend nr => stat ≤ fend ∧ fend < msanr ∧ stat + nr ≤ msanr

instance (msanr : Nat) (e : ScanEv) : Decidable (e.Inside msanr) := by
  cases e with
  | msa i => exact inferInstanceAs (Decidable (i < msanr))
  | run s e n => exact inferInstanceAs (Decidable (s ≤ e ∧ e < msanr ∧ s + n ≤ msanr))

/-! ## Scanning -/

/-- `continumsadsc_is_ok`: the second descriptor is of interest when the first is free. -/
def continumsadscIsOkEvs (d : MsaArr) (ty : MaType) (i : Nat) : List ScanEv :=
  if msaIsFree (d i) ty then [.msa i, .msa (i + 1)] else [.msa i]

/-- `scan_len_msadsc`. -/
def scanLenEvs (d : MsaArr) (ty : MaType) (mstat : Nat) : Nat → Nat → List ScanEv
  | 0, _ => []
  | n + 1, retnr =>
      continumsadscIsOkEvs d ty (mstat + retnr) ++
        if continumsadscIsOk (d (mstat + retnr)) (d (mstat + retnr + 1)) ty = 2 then
          scanLenEvs d ty mstat n (retnr + 1)
        else []

/-- Loop of `merlove_scan_continumsadsc`. -/
def scanContinuEvs (d : MsaArr) (ty : MaType) (fmsanr : Nat) : Nat → Nat → List ScanEv
  | 0, _ => []
  | n + 1, tmidx =>
      .msa tmidx ::
        if msaIsFree (d tmidx) ty then scanLenEvs d ty tmidx (fmsanr - 1) 0
        else scanContinuEvs d ty fmsanr n (tmidx + 1)

/-- `merlove_scan_continumsadsc`. -/
def merloveScanEvs (m : Memarea) (d : MsaArr) (fntmsanr fmsanr : Nat) : List ScanEv :=
  if fmsanr = 0 ∨ fmsanr ≤ fntmsanr then []
  else
    match martyOfArea m.maType with
    | none => []
    | some ty => scanContinuEvs d ty fmsanr (fmsanr - fntmsanr) fntmsanr

/-- Loop of `check_continumsadsc`.  The type of the first descriptor decides whether the second
one is looked at. -/
def checkContinuEvs (d : MsaArr) (ty : MaType) : Nat → Nat → List ScanEv
  | 0, _ => []
  | n + 1, ms =>
      .msa ms ::
        if (d ms).mfMarty = ty then
          .msa (ms + 1) ::
            if !msaIsFree (d ms) ty || !msaIsFree (d (ms + 1)) ty then []
            else if sub64 (msadscRetAddr (d (ms + 1))) (msadscRetAddr (d ms)) ≠ pagesize then []
            else checkContinuEvs d ty n (ms + 1)
        else []

/-- `check_continumsadsc`. -/
def checkContinumsadscEvs (m : Memarea) (d : MsaArr) (stat fend fmnr : Nat) : List ScanEv :=
  if fmnr = 0 ∨ fend < stat then []
  else
    match martyOfArea m.maType with
    | none => []
    | some ty => if stat = fend then [.msa stat] else checkContinuEvs d ty (fend - stat) stat

/-! ## Filing -/

/-- `list_add` writes a link of the descriptor that was the first one of the list. -/
def listAddEvs (b : Bafhlst) : List ScanEv := b.afFrelst.head?.toList.map .msa

/-- `continumsadsc_add_procmareabafh`. -/
def continumsadscAddProcmareabafhEvs (x : Mem) (a fstat fend fmnr : Nat) : List ScanEv :=
  if (continumsadscAddProcmareabafh x a fstat fend fmnr).isNone then []
  else
    (List.range fmnr).flatMap fun tmpnr =>
      .msa (fstat + tmpnr) ::
        listAddEvs (((List.range tmpnr).foldl (addProcMsa a fstat) x).bafh (.one a))

/-- `continumsadsc_add_bafhlst`. -/
def continumsadscAddBafhlstEvs (x : Mem) (a : Nat) (p : BafhPtr) (fstat fend fmnr : Nat) :
    List ScanEv :=
  if (continumsadscAddBafhlst x a p fstat fend fmnr).isNone then []
  else .msa fstat :: .msa fend :: listAddEvs (x.bafh p)

/-- `continumsadsc_mareabafh_core`. -/
def continumsadscMareabafhCoreEvs (x : Mem) (a rfstat rfend rfmnr : Nat) : List ScanEv :=
  if rfmnr < 1 then []
  else
    match findContinumsaInbafhlst a (x.mareastat a) rfmnr with
    | none => []
    | some p =>
        let bafhp := x.bafh p
        let ty := (x.mareastat a).maType
        if rfmnr < bafhp.afOderpnr then []
        else if (bafhp.afStus = .divp ∨ bafhp.afStus = .divm) ∧ ty ≠ .proc then
          continumsadscAddBafhlstEvs x a p rfstat (rfstat + (bafhp.afOderpnr - 1))
            bafhp.afOderpnr
        else if bafhp.afStus = .onem ∧ ty = .proc then
          continumsadscAddProcmareabafhEvs x a rfstat rfend rfmnr
        else []

/-- Loop of `merlove_continumsadsc_mareabafh`; `none` when the rounds do not suffice. -/
def merloveContinuEvs (a : Nat) : Nat → Mem → Nat → Option Nat → Nat → Option (List ScanEv)
  | 0, _, _, _, _ => none
  | n + 1, x, fstat, fend, mnridx =>
      match fend with
      | none => some []
      | some e =>
          if mnridx = 0 then some []
          else
            let evs := continumsadscMareabafhCoreEvs x a fstat e mnridx
            match continumsadscMareabafhCore x a fstat e mnridx with
            | none => some evs
            | some (x', fstat', fend', mnridx') =>
                (merloveContinuEvs a n x' fstat' fend' mnridx').map (evs ++ ·)

/-- `merlove_continumsadsc_mareabafh`. -/
def merloveContinumsadscMareabafhEvs (x : Mem) (a mstat mend mnr : Nat) :
    Option (List ScanEv) :=
  if mnr = 0 then some [] else merloveContinuEvs a (mnr + 1) x mstat (some mend) mnr

/-- Loop of `merlove_mem_onmemarea`; `none` when the rounds do not suffice. -/
def memLoopEvs (a msanr : Nat) : Nat → Mem → Nat → Option (List ScanEv)
  | 0, _, _ => none
  | n + 1, x, fntmnr =>
      if msanr ≤ fntmnr then some []
      else
        let evs := merloveScanEvs (x.mareastat a) x.msadscstat fntmnr msanr
        match merloveScanContinumsadsc (x.mareastat a) x.msadscstat fntmnr msanr with
        | .error _ => some evs
        | .ok none => some evs
        | .ok (some (fntmnr', none)) => (memLoopEvs a msanr n x fntmnr').map (evs ++ ·)
        | .ok (some (fntmnr', some (stat, fend, nr))) =>
            let evs := evs ++ .run stat fend nr ::
              checkContinumsadscEvs (x.mareastat a) x.msadscstat stat fend nr
            if checkContinumsadsc (x.mareastat a) x.msadscstat stat fend nr = 0 then some evs
            else
              (merloveContinumsadscMareabafhEvs x a stat fend nr).bind fun fevs =>
                match merloveContinumsadscMareabafh x a stat fend nr with
                | .error _ => some (evs ++ fevs)
                | .ok none => some (evs ++ fevs)
                | .ok (some x') => (memLoopEvs a msanr n x' fntmnr').map (evs ++ fevs ++ ·)

/-- `merlove_mem_onmemarea`. -/
def merloveMemOnmemareaEvs (x : Mem) (a msanr : Nat) : Option (List ScanEv) :=
  if msanr = 0 then some []
  else if (x.mareastat a).maType = .shar then some []
  else if (x.mareastat a).maType = .init then some []
  else memLoopEvs a msanr (msanr + 1) x 0

/-- The scan ends, and everything it does with descriptors lies inside the array. -/
def ScanInside (x : Mem) (a msanr : Nat) : Prop :=
  ∃ evs, merloveMemOnmemareaEvs x a msanr = some evs ∧ ∀ e ∈ evs, e.Inside msanr

/-! ## Events of a scan -/

section Scan

variable {d : MsaArr} {ty : MaType} {msanr : Nat}

theorem continumsadscIsOk_two {i : Nat} (hi : msaIsFree (d i) ty = true) :
    continumsadscIsOk (d i) (d (i + 1)) ty = 2 ↔ Link d ty i := by
  by_cases h : Link d ty i
  · rw [continumsadscIsOk_link h]
    exact iff_of_true rfl h
  · rw [continumsadscIsOk_end hi h]
    exact iff_of_false (by decide) h

/-- One round of `scan_len_msadsc` on a free descriptor. -/
theorem scanLenEvs_succ {s n r : Nat} (hr : msaIsFree (d (s + r)) ty = true) :
    (Link d ty (s + r) → scanLenEvs d ty s (n + 1) r =
      .msa (s + r) :: .msa (s + r + 1) :: scanLenEvs d ty s n (r + 1)) ∧
    (¬ Link d ty (s + r) → scanLenEvs d ty s (n + 1) r = [.msa (s + r), .msa (s + r + 1)]) := by
  constructor
  · intro hlink
    rw [scanLenEvs, continumsadscIsOkEvs, if_pos hr,
      if_pos ((continumsadscIsOk_two hr).mpr hlink)]
    rfl
  · intro hlink
    rw [scanLenEvs, continumsadscIsOkEvs, if_pos hr,
      if_neg fun h => hlink ((continumsadscIsOk_two hr).mp h)]
    rfl

/-- The length scan stays inside as long as each descriptor it gets to has one behind it. -/
theorem scanLenEvs_inside (s : Nat) : ∀ n r, msaIsFree (d (s + r)) ty = true →
    (∀ j, r ≤ j → j < r + n → (∀ i, r ≤ i → i < j → Link d ty (s + i)) → s + j + 1 < msanr) →
    ∀ e ∈ scanLenEvs d ty s n r, e.Inside msanr := by
  intro n
  induction n with
  | zero =>
      intro r _ _ e he
      exact absurd he List.not_mem_nil
  | succ n ih =>
      intro r hr hroom e he
      have hlt := hroom r (Nat.le_refl r) (by omega) fun i h1 h2 => absurd h2 (by omega)
      have h0 : (ScanEv.msa (s + r)).Inside msanr := Nat.lt_of_succ_lt hlt
      have h1 : (ScanEv.msa (s + r + 1)).Inside msanr := hlt
      by_cases hlink : Link d ty (s + r)
      · rw [(scanLenEvs_succ hr).1 hlink, List.mem_cons, List.mem_cons] at he
        rcases he with rfl | rfl | he
        · exact h0
        · exact h1
        · refine ih (r + 1) hlink.2.1 (fun j h1 h2 h3 => ?_) e he
          refine hroom j (by omega) (by omega) fun i h4 h5 => ?_
          by_cases hir : i = r
          · rwa [hir]
          · exact h3 i (by omega) h5
      · rw [(scanLenEvs_succ hr).2 hlink, List.mem_cons, List.mem_singleton] at he
        rcases he with rfl | rfl
        · exact h0
        · exact h1

/-- The length scan looks behind every descriptor it gets to. -/
theorem scanLenEvs_ahead (s : Nat) : ∀ n r, msaIsFree (d (s + r)) ty = true → ∀ j, r ≤ j →
    j < r + n → (∀ i, r ≤ i → i < j → Link d ty (s + i)) →
    .msa (s + j + 1) ∈ scanLenEvs d ty s n r := by
  intro n
  induction n with
  | zero =>
      intro r _ j h1 h2
      omega
  | succ n ih =>
      intro r hr j h1 h2 hlinks
      by_cases hjr : j = r
      · subst hjr
        by_cases hlink : Link d ty (s + j)
        · rw [(scanLenEvs_succ hr).1 hlink]
          exact List.mem_cons_of_mem _ List.mem_cons_self
        · rw [(scanLenEvs_succ hr).2 hlink]
          exact List.mem_cons_of_mem _ List.mem_cons_self
      · have hlink := hlinks r (Nat.le_refl r) (by omega)
        rw [(scanLenEvs_succ hr).1 hlink]
        refine List.mem_cons_of_mem _ (List.mem_cons_of_mem _ ?_)
        exact ih (r + 1) hlink.2.1 j (by omega) (by omega) fun i h3 h4 => hlinks i (by omega) h4

/-- The search looks at the descriptors up to the first free one, and from there on the length
scan goes on. -/
theorem mem_scanContinuEvs_found {s : Nat} (hs : msaIsFree (d s) ty = true) {e : ScanEv} :
    ∀ n f, f ≤ s → s < f + n → (∀ i, f ≤ i → i < s → ¬ msaIsFree (d i) ty = true) →
    (e ∈ scanContinuEvs d ty msanr n f ↔
      (∃ i, f ≤ i ∧ i ≤ s ∧ e = .msa i) ∨ e ∈ scanLenEvs d ty s (msanr - 1) 0) := by
  intro n
  induction n with
  | zero =>
      intro f h1 h2
      omega
  | succ n ih =>
      intro f h1 h2 hskip
      rw [scanContinuEvs, List.mem_cons]
      by_cases hfs : f = s
      · subst hfs
        rw [if_pos hs]
        refine or_congr_left ⟨fun h => ⟨f, h1, h1, h⟩, ?_⟩
        rintro ⟨i, h3, h4, rfl⟩
        exact congrArg _ (Nat.le_antisymm h4 h3)
      · rw [if_neg (hskip f (Nat.le_refl f) (by omega)), ih (f + 1) (by omega) (by omega)
          fun i h3 h4 => hskip i (by omega) h4, ← or_assoc]
        refine or_congr_left ⟨?_, ?_⟩
        · rintro (rfl | ⟨i, h3, h4, rfl⟩)
          · exact ⟨f, Nat.le_refl f, h1, rfl⟩
          · exact ⟨i, by omega, h4, rfl⟩
        · rintro ⟨i, h3, h4, rfl⟩
          by_cases hif : i = f
          · exact Or.inl (congrArg _ hif)
          · exact Or.inr ⟨i, by omega, h4, rfl⟩

/-- Without a free descriptor the search looks at each once. -/
theorem scanContinuEvs_none : ∀ n f, f + n ≤ msanr →
    (∀ i, f ≤ i → i < f + n → ¬ msaIsFree (d i) ty = true) →
    ∀ e ∈ scanContinuEvs d ty msanr n f, e.Inside msanr := by
  intro n
  induction n with
  | zero =>
      intro f _ _ e he
      exact absurd he List.not_mem_nil
  | succ n ih =>
      intro f hf hskip e he
      rw [scanContinuEvs, if_neg (hskip f (Nat.le_refl f) (by omega)), List.mem_cons] at he
      rcases he with rfl | he
      · show f < msanr
        omega
      · exact ih (f + 1) (by omega) (fun i h1 h2 => hskip i (by omega) (by omega)) e he

/-- The recheck of a run looks at the descriptors of the run. -/
theorem checkContinuEvs_inside : ∀ n ms, ms + n < msanr →
    ∀ e ∈ checkContinuEvs d ty n ms, e.Inside msanr := by
  intro n
  induction n with
  | zero =>
      intro ms _ e he
      exact absurd he List.not_mem_nil
  | succ n ih =>
      intro ms hms e he
      rw [checkContinuEvs, List.mem_cons] at he
      rcases he with rfl | he
      · show ms < msanr
        omega
      · split at he
        · rw [List.mem_cons] at he
          rcases he with rfl | he
          · show ms + 1 < msanr
            omega
          · split at he
            · exact absurd he List.not_mem_nil
            · split at he
              · exact absurd he List.not_mem_nil
              · exact ih (ms + 1) (by omega) e he
        · exact absurd he List.not_mem_nil

/-- A chain of links passes the recheck. -/
theorem checkContinuLoop_links : ∀ n ms ok, (∀ j < n, Link d ty (ms + j)) →
    checkContinuLoop d ty n ms ok = ok + n := by
  intro n
  induction n with
  | zero =>
      intro ms ok _
      rfl
  | succ n ih =>
      intro ms ok hlinks
      have hlink : Link d ty ms := hlinks 0 (Nat.succ_pos n)
      obtain ⟨h1, h2, h3⟩ := hlink
      rw [checkContinuLoop, if_neg (by simp [h1, h2]), if_neg (by simp [h3]),
        ih (ms + 1) (ok + 1) fun j hj => ?_]
      · omega
      · rw [Nat.add_assoc, Nat.add_comm 1 j]
        exact hlinks (j + 1) (by omega)

/-- What the scan found passes the recheck. -/
theorem checkContinumsadsc_run {m : Memarea} (hty : martyOfArea m.maType = some ty) {s r : Nat}
    (hs : msaIsFree (d s) ty = true) (hlinks : ∀ j < r, Link d ty (s + j)) :
    checkContinumsadsc m d s (s + r) (r + 1) ≠ 0 := by
  unfold checkContinumsadsc
  rw [if_neg (by omega), hty]
  dsimp only
  by_cases hr : r = 0
  · subst hr
    rw [if_pos (Nat.add_zero s).symm, if_pos ⟨hs, rfl⟩]
    exact Nat.one_ne_zero
  · rw [if_neg (by omega), Nat.add_sub_cancel_left, checkContinuLoop_links r s 0 hlinks,
      Nat.zero_add, if_neg hr, if_neg fun h => h rfl]
    exact hr

theorem checkContinumsadscEvs_inside (m : Memarea) {s e n : Nat} (he : e < msanr) :
    ∀ v ∈ checkContinumsadscEvs m d s e n, v.Inside msanr := by
  unfold checkContinumsadscEvs
  split
  · exact fun v hv => absurd hv List.not_mem_nil
  · rename_i hle
    split
    · exact fun v hv => absurd hv List.not_mem_nil
    · split
      · rename_i hse
        intro v hv
        rw [List.mem_singleton] at hv
        subst hv
        exact hse ▸ he
      · exact checkContinuEvs_inside (e - s) s (by omega)

end Scan

/-! ## Events of the filing -/

/-- The memory while an area is scanned: descriptors have got other tags, and the lists hold
descriptors of the array. -/
structure Scanned (d : MsaArr) (ty : MaType) (a msanr : Nat) (x : Mem) : Prop where
  lists : ListsOk x a
  type : (x.mareastat a).maType = ty
  tags : ∀ i, ∃ o l, x.msadscstat i = { d i with mfOlkty := o, mdOdlink := l }
  mem : ∀ p ∈ areaPtrs a, ∀ s ∈ x.free p, s < msanr

section File

variable {d : MsaArr} {ty : MaType} {a msanr : Nat} {x : Mem}

theorem Scanned.msaIsFree_eq (h : Scanned d ty a msanr x) (i : Nat) :
    msaIsFree (x.msadscstat i) ty = msaIsFree (d i) ty := by
  obtain ⟨o, l, hi⟩ := h.tags i
  rw [hi]
  rfl

theorem Scanned.link_iff (h : Scanned d ty a msanr x) (i : Nat) :
    Link x.msadscstat ty i ↔ Link d ty i := by
  have haddr : ∀ j, msadscRetAddr (x.msadscstat j) = msadscRetAddr (d j) := by
    intro j
    obtain ⟨o, l, hj⟩ := h.tags j
    rw [hj]
    rfl
  unfold Link
  rw [h.msaIsFree_eq, h.msaIsFree_eq, haddr, haddr]

/-- A block of the array is filed. -/
theorem Scanned.file (h : Scanned d ty a msanr x) {p : BafhPtr} (hp : p ∈ areaPtrs a) {s : Nat}
    (hs : s < msanr) : Scanned d ty a msanr (fileMem x p s) := by
  have hpa := area_of_mem_areaPtrs hp
  refine ⟨⟨fun q hq => ?_, fun q hq => ?_⟩, ?_, fun i => ?_, fun q hq t ht => ?_⟩
  · rw [fileMem_bafh]
    by_cases hqp : q = p
    · subst hqp
      rw [Function.update_self]
      exact h.lists.order q hq
    · rw [Function.update_of_ne hqp]
      exact h.lists.order q hq
  · rw [fileMem_bafh]
    by_cases hqp : q = p
    · subst hqp
      rw [Function.update_self]
      exact h.lists.stus q hq
    · rw [Function.update_of_ne hqp]
      exact h.lists.stus q hq
  · have hhdr := congrArg Memarea.maType (fileMem_hdr x p s)
    rw [hpa] at hhdr
    exact hhdr.trans h.type
  · obtain ⟨o, l, htag⟩ := tagMsa_tags x.msadscstat p s p.ord i
    obtain ⟨o', l', hold⟩ := h.tags i
    rw [fileMem_msadscstat, htag, hold]
    exact ⟨o, l, rfl⟩
  · rw [fileMem_free] at ht
    by_cases hqp : q = p
    · subst hqp
      rw [Function.update_self, List.mem_cons] at ht
      rcases ht with rfl | ht
      · exact hs
      · exact h.mem q hq t ht
    · rw [Function.update_of_ne hqp] at ht
      exact h.mem q hq t ht

theorem Scanned.listAdd (h : Scanned d ty a msanr x) {p : BafhPtr} (hp : p ∈ areaPtrs a) :
    ∀ e ∈ listAddEvs (x.bafh p), e.Inside msanr := by
  intro e he
  unfold listAddEvs at he
  obtain ⟨t, ht, rfl⟩ := List.mem_map.mp he
  exact h.mem p hp t (List.mem_of_head? (Option.mem_toList.mp ht))

/-- The events of one round outside the process area. -/
theorem continumsadscMareabafhCoreEvs_lie (h : Scanned d ty a msanr x) (hproc : ty ≠ .proc)
    (hshar : ty ≠ .shar) {n K : Nat} (hlo : 2 ^ K ≤ n) (hhi : n < 2 ^ (K + 1)) (s e : Nat) :
    continumsadscMareabafhCoreEvs x a s e n =
      if K + 1 < mdivmerArrLmax then
        .msa s :: .msa (s + (2 ^ K - 1)) :: listAddEvs (x.bafh (.lie a K))
      else [] := by
  have hpos := Nat.two_pow_pos K
  have hfind := findContinumsa_eq h.lists (h.type ▸ hproc) (h.type ▸ hshar) hlo hhi
  unfold continumsadscMareabafhCoreEvs
  rw [if_neg (by omega), hfind]
  by_cases hsmall : K + 1 < mdivmerArrLmax
  · have hmem : BafhPtr.lie a K ∈ areaPtrs a := lie_mem_areaPtrs (by omega)
    have hord : (x.bafh (.lie a K)).afOderpnr = 2 ^ K := h.lists.order _ hmem
    have hst : (x.bafh (.lie a K)).afStus = .divm := h.lists.stus _ hmem
    have hfile := continumsadscAddBafhlst_eq (p := .lie a K) hord s
    simp only [BafhPtr.area, BafhPtr.ord] at hfile
    rw [if_pos hsmall, if_pos hsmall]
    simp only [hord, hst]
    rw [if_neg (by omega), if_pos (by simp [h.type, hproc])]
    unfold continumsadscAddBafhlstEvs
    rw [hfile]
    rfl
  · rw [if_neg hsmall, if_neg hsmall]

/-- A run of 2^51 pages is too long for the lists. -/
theorem continumsadscMareabafhCore_long (h : Scanned d ty a msanr x) (hproc : ty ≠ .proc)
    (hshar : ty ≠ .shar) {n : Nat} (hn : 2 ^ 51 ≤ n) (s e : Nat) :
    continumsadscMareabafhCore x a s e n = none ∧
      continumsadscMareabafhCoreEvs x a s e n = [] := by
  have hlmax : mdivmerArrLmax = 52 := rfl
  have hlo : 2 ^ Nat.log2 n ≤ n := Nat.log2_self_le (by omega)
  have hhi : n < 2 ^ (Nat.log2 n + 1) := Nat.lt_log2_self
  have hbig : ¬ Nat.log2 n + 1 < mdivmerArrLmax := by
    intro hlt
    have hle : 2 ^ (Nat.log2 n + 1) ≤ 2 ^ 51 := Nat.pow_le_pow_right (by decide) (by omega)
    omega
  have hfind := findContinumsa_eq h.lists (h.type ▸ hproc) (h.type ▸ hshar) hlo hhi
  constructor
  · unfold continumsadscMareabafhCore
    rw [if_neg (by omega), hfind, if_neg hbig]
  · rw [continumsadscMareabafhCoreEvs_lie h hproc hshar hlo hhi, if_neg hbig]

/-- The loop over a run outside the process area. -/
theorem merloveContinuEvs_lie (hproc : ty ≠ .proc) (hshar : ty ≠ .shar) : ∀ m n s x, n ≤ m →
    0 < n → n < 2 ^ 51 → s + n ≤ msanr → Scanned d ty a msanr x →
    ∃ x' evs, merloveContinuLoop a m x s (some (s + (n - 1))) n = .ok x' ∧
      Scanned d ty a msanr x' ∧
      merloveContinuEvs a (m + 1) x s (some (s + (n - 1))) n = some evs ∧
      ∀ e ∈ evs, e.Inside msanr := by
  intro m
  induction m with
  | zero =>
      intro n s x hm hn
      omega
  | succ m ih =>
      intro n s x hm hn hsmall hs h
      have hlo : 2 ^ Nat.log2 n ≤ n := Nat.log2_self_le (by omega)
      have hhi : n < 2 ^ (Nat.log2 n + 1) := Nat.lt_log2_self
      have hK : Nat.log2 n + 1 < mdivmerArrLmax := by
        by_contra hge
        have hge : 51 ≤ Nat.log2 n := by
          have hlmax : mdivmerArrLmax = 52 := rfl
          omega
        have hle : 2 ^ 51 ≤ 2 ^ Nat.log2 n := Nat.pow_le_pow_right (by decide) hge
        omega
      generalize Nat.log2 n = K at hlo hhi hK
      have hpos := Nat.two_pow_pos K
      have hcore := continumsadscMareabafhCore_lie h.lists (h.type ▸ hproc) (h.type ▸ hshar)
        hlo hhi hK s (s + (n - 1))
      have hevs := continumsadscMareabafhCoreEvs_lie h hproc hshar hlo hhi s (s + (n - 1))
      rw [if_pos hK] at hevs
      have hmem : BafhPtr.lie a K ∈ areaPtrs a := lie_mem_areaPtrs (by omega)
      have hnew : Scanned d ty a msanr (fileMem x (.lie a K) s) := h.file hmem (by omega)
      have hin : ∀ e ∈ continumsadscMareabafhCoreEvs x a s (s + (n - 1)) n, e.Inside msanr := by
        rw [hevs]
        intro e he
        rw [List.mem_cons, List.mem_cons] at he
        rcases he with rfl | rfl | he
        · show s < msanr
          omega
        · show s + (2 ^ K - 1) < msanr
          omega
        · exact h.listAdd hmem e he
      rw [merloveContinuLoop, merloveContinuEvs]
      dsimp only
      rw [if_neg (by omega), if_neg (by omega), hcore]
      by_cases hr : n - 2 ^ K = 0
      · rw [if_pos hr]
        refine ⟨fileMem x (.lie a K) s, continumsadscMareabafhCoreEvs x a s (s + (n - 1)) n ++ [],
          ?_, hnew, rfl, ?_⟩
        · cases m <;> rfl
        · rw [List.append_nil]
          exact hin
      · rw [if_neg hr]
        obtain ⟨x', evs, hloop, hx', hrest, hall⟩ :=
          ih (n - 2 ^ K) (s + 2 ^ K) _ (by omega) (by omega) (by omega) (by omega) hnew
        have hend : s + 2 ^ K + (n - 2 ^ K - 1) = s + (n - 1) := by omega
        rw [hend] at hloop hrest
        refine ⟨x', continumsadscMareabafhCoreEvs x a s (s + (n - 1)) n ++ evs, hloop, hx', ?_,
          fun e he => ?_⟩
        · dsimp only
          rw [hrest]
          rfl
        · rcases List.mem_append.mp he with he | he
          · exact hin e he
          · exact hall e he

/-- The process area files the pages of a run one by one. -/
theorem Scanned.addProc (h : Scanned d ty a msanr x) (s : Nat) : ∀ n, s + n ≤ msanr →
    Scanned d ty a msanr ((List.range n).foldl (addProcMsa a s) x) := by
  intro n
  induction n with
  | zero => exact fun _ => h
  | succ n ih =>
      intro hn
      rw [List.range_succ, List.foldl_append]
      simp only [List.foldl_cons, List.foldl_nil]
      rw [addProcMsa_eq]
      exact (ih (by omega)).file (one_mem_areaPtrs a) (by omega)

theorem merloveContinuEvs_one (hproc : ty = .proc) (h : Scanned d ty a msanr x) {n s : Nat}
    (hn : 0 < n) (hs : s + n ≤ msanr) :
    ∃ x' evs, merloveContinuLoop a n x s (some (s + (n - 1))) n = .ok x' ∧
      Scanned d ty a msanr x' ∧
      merloveContinuEvs a (n + 1) x s (some (s + (n - 1))) n = some evs ∧
      ∀ e ∈ evs, e.Inside msanr := by
  subst hproc
  have hcore := continumsadscMareabafhCore_one h.lists h.type hn s
  have hin : ∀ e ∈ continumsadscMareabafhCoreEvs x a s (s + (n - 1)) n, e.Inside msanr := by
    have hadd : ∀ e ∈ continumsadscAddProcmareabafhEvs x a s (s + (n - 1)) n,
        e.Inside msanr := by
      unfold continumsadscAddProcmareabafhEvs
      split
      · exact fun e he => absurd he List.not_mem_nil
      · intro e he
        obtain ⟨t, ht, he⟩ := List.mem_flatMap.mp he
        have hlt := List.mem_range.mp ht
        rcases List.mem_cons.mp he with rfl | he
        · show s + t < msanr
          omega
        · exact (h.addProc s t (by omega)).listAdd (one_mem_areaPtrs a) e he
    unfold continumsadscMareabafhCoreEvs findContinumsaInbafhlst
    have hmem : BafhPtr.one a ∈ areaPtrs a := one_mem_areaPtrs a
    have hord : (x.bafh (.one a)).afOderpnr = 1 := h.lists.order _ hmem
    have hst : (x.bafh (.one a)).afStus = .onem := h.lists.stus _ hmem
    rw [if_neg (by omega), if_neg (by omega), h.type, if_pos rfl]
    simp only [hord, hst]
    rw [if_neg (by omega), if_neg (by simp), if_pos ⟨trivial, trivial⟩]
    exact hadd
  obtain ⟨m, rfl⟩ := Nat.exists_eq_succ_of_ne_zero (Nat.pos_iff_ne_zero.mp hn)
  rw [merloveContinuLoop, merloveContinuEvs]
  dsimp only
  rw [if_neg (by omega), if_neg (by omega), hcore]
  refine ⟨_, continumsadscMareabafhCoreEvs x a s (s + (m.succ - 1)) m.succ ++ [], ?_,
    h.addProc s (m + 1) hs, rfl, ?_⟩
  · cases m <;> rfl
  · rw [List.append_nil]
    exact hin

/-- **Filing a run of the array** stays inside it; only the length can stop it. -/
theorem Scanned.mareabafh (hshar : ty ≠ .shar) (h : Scanned d ty a msanr x) {s n : Nat}
    (hn : 0 < n) (hs : s + n ≤ msanr) :
    ((ty = .proc ∨ n < 2 ^ 51) ∧
      ∃ x' evs, merloveContinumsadscMareabafh x a s (s + (n - 1)) n = .ok (some x') ∧
      Scanned d ty a msanr x' ∧
      merloveContinumsadscMareabafhEvs x a s (s + (n - 1)) n = some evs ∧
      ∀ e ∈ evs, e.Inside msanr) ∨
    (ty ≠ .proc ∧ 2 ^ 51 ≤ n ∧
      (∃ msg, merloveContinumsadscMareabafh x a s (s + (n - 1)) n = .error msg) ∧
      merloveContinumsadscMareabafhEvs x a s (s + (n - 1)) n = some []) := by
  unfold merloveContinumsadscMareabafh merloveContinumsadscMareabafhEvs
  rw [if_neg (by omega), if_neg (by omega)]
  have hdone : ((ty = .proc ∨ n < 2 ^ 51) ∧
      ∃ x' evs, merloveContinuLoop a n x s (some (s + (n - 1))) n = .ok x' ∧
      Scanned d ty a msanr x' ∧
      merloveContinuEvs a (n + 1) x s (some (s + (n - 1))) n = some evs ∧
      ∀ e ∈ evs, e.Inside msanr) ∨ (ty ≠ .proc ∧ 2 ^ 51 ≤ n) := by
    by_cases hproc : ty = .proc
    · exact Or.inl ⟨Or.inl hproc, merloveContinuEvs_one hproc h hn hs⟩
    · by_cases hsmall : n < 2 ^ 51
      · exact Or.inl ⟨Or.inr hsmall,
          merloveContinuEvs_lie hproc hshar n n s x (Nat.le_refl n) hn hsmall hs h⟩
      · exact Or.inr ⟨hproc, by omega⟩
  rcases hdone with ⟨hshort, x', evs, hloop, hx', hevs, hin⟩ | ⟨hproc, hbig⟩
  · rw [hloop]
    exact Or.inl ⟨hshort, x', evs, rfl, hx', hevs, hin⟩
  · refine Or.inr ⟨hproc, hbig, ?_⟩
    obtain ⟨hcore, hevs⟩ := continumsadscMareabafhCore_long h hproc hshar hbig s (s + (n - 1))
    obtain ⟨m, rfl⟩ := Nat.exists_eq_succ_of_ne_zero (Nat.pos_iff_ne_zero.mp hn)
    rw [merloveContinuLoop, merloveContinuEvs]
    dsimp only
    rw [if_neg (by omega), if_neg (by omega), hcore, hevs]
    exact ⟨⟨_, rfl⟩, rfl⟩

end File

/-! ## The loop ends -/

section Ends

variable {a msanr : Nat} {x : Mem}

/-- A round of the loop over a run files a page or is the last one. -/
theorem continumsadscMareabafhCore_lt {s e n : Nat} {x' : Mem} {s' n' : Nat} {e' : Option Nat}
    (h : continumsadscMareabafhCore x a s e n = some (x', s', e', n')) : e' = none ∨ n' < n := by
  unfold continumsadscMareabafhCore at h
  split at h
  · cases h
  · split at h
    · cases h
    · dsimp only at h
      split at h
      · cases h
      · split at h
        · unfold continumsadscAddBafhlst at h
          split at h
          · cases h
          · rename_i p _ _ _ _ _ hadd
            have hord : ¬ (x.bafh p).afOderpnr = 0 := by
              intro hzero
              rw [if_pos hzero] at hadd
              cases hadd
            split at h
            · cases h
              exact Or.inl rfl
            · cases h
              exact Or.inr (by omega)
        · split at h
          · split at h
            · cases h
            · cases h
              exact Or.inl rfl
          · cases h

theorem merloveContinuEvs_some : ∀ n x s e k, k < n →
    ∃ evs, merloveContinuEvs a n x s e k = some evs := by
  intro n
  induction n with
  | zero =>
      intro x s e k hk
      omega
  | succ n ih =>
      intro x s e k hk
      cases e with
      | none => exact ⟨_, rfl⟩
      | some e =>
          rw [merloveContinuEvs]
          dsimp only
          by_cases hk0 : k = 0
          · rw [if_pos hk0]
            exact ⟨_, rfl⟩
          · rw [if_neg hk0]
            rcases hcore : continumsadscMareabafhCore x a s e k with _ | ⟨x', s', e', k'⟩
            · exact ⟨_, rfl⟩
            · have hrest : ∃ evs, merloveContinuEvs a n x' s' e' k' = some evs := by
                rcases continumsadscMareabafhCore_lt hcore with rfl | hlt
                · obtain ⟨m, rfl⟩ := Nat.exists_eq_succ_of_ne_zero (show n ≠ 0 by omega)
                  exact ⟨_, rfl⟩
                · exact ih x' s' e' k' (by omega)
              obtain ⟨evs, hevs⟩ := hrest
              dsimp only
              rw [hevs]
              exact ⟨_, rfl⟩

/-- A scan goes on behind where it began. -/
theorem merloveScanContinumsadsc_lt {m : Memarea} {d : MsaArr} {f f' : Nat}
    {r : Option (Nat × Nat × Nat)} (hf : f < msanr)
    (h : merloveScanContinumsadsc m d f msanr = .ok (some (f', r))) : f < f' := by
  unfold merloveScanContinumsadsc at h
  rw [if_neg (by omega)] at h
  split at h
  · cases h
  · rename_i ty _
    rcases scanContinuLoop_spec d ty (by omega : 0 < msanr) (msanr - f) f (by omega) with
      ⟨hrun, -⟩ | ⟨s, k, hrun, hfs, -⟩
    · rw [hrun] at h
      cases h
      exact hf
    · rw [hrun] at h
      cases h
      omega

/-- **The loop over the descriptors ends**, whatever the descriptors and the area hold. -/
theorem memLoopEvs_some : ∀ n f x, msanr ≤ f + n →
    ∃ evs, memLoopEvs a msanr (n + 1) x f = some evs := by
  have hend : ∀ n f x, msanr ≤ f → memLoopEvs a msanr (n + 1) x f = some [] := by
    intro n f x hf
    rw [memLoopEvs, if_pos hf]
  intro n
  induction n with
  | zero =>
      intro f x hn
      exact ⟨_, hend 0 f x hn⟩
  | succ n ih =>
      intro f x hn
      by_cases hf : msanr ≤ f
      · exact ⟨_, hend (n + 1) f x hf⟩
      · rw [memLoopEvs, if_neg hf]
        rcases hscan : merloveScanContinumsadsc (x.mareastat a) x.msadscstat f msanr with
          msg | _ | ⟨f', _ | ⟨s, e, k⟩⟩
        · exact ⟨_, rfl⟩
        · exact ⟨_, rfl⟩
        · have hlt := merloveScanContinumsadsc_lt (by omega) hscan
          obtain ⟨evs, hevs⟩ := ih f' x (by omega)
          dsimp only
          rw [hevs]
          exact ⟨_, rfl⟩
        · have hlt := merloveScanContinumsadsc_lt (by omega) hscan
          dsimp only
          split
          · exact ⟨_, rfl⟩
          · have hfile : ∃ fevs, merloveContinumsadscMareabafhEvs x a s e k = some fevs := by
              unfold merloveContinumsadscMareabafhEvs
              split
              · exact ⟨_, rfl⟩
              · exact merloveContinuEvs_some (k + 1) x s (some e) k (by omega)
            obtain ⟨fevs, hfevs⟩ := hfile
            rw [hfevs, Option.bind_some]
            rcases merloveContinumsadscMareabafh x a s e k with msg | _ | x'
            · exact ⟨_, rfl⟩
            · exact ⟨_, rfl⟩
            · obtain ⟨evs, hevs⟩ := ih f' x' (by omega)
              dsimp only
              rw [hevs]
              exact ⟨_, rfl⟩

end Ends

/-! ## Inside the array -/

section Inside

variable {d : MsaArr} {ty : MaType} {a msanr : Nat} {x : Mem}

/-- A run of 2^51 pages at or behind `f` that ends before the last descriptor. -/
def LongRun (d : MsaArr) (ty : MaType) (msanr f : Nat) : Prop :=
  ∃ s n, f ≤ s ∧ 2 ^ 51 ≤ n ∧ s + n < msanr ∧ msaIsFree (d s) ty = true ∧
    (∀ j, j + 1 < n → Link d ty (s + j)) ∧ ¬ Link d ty (s + (n - 1))

/-- The last descriptor is not a free page of the area, or all descriptors are one run, or a
run before the last one is too long to be filed. -/
def LastRunOk (d : MsaArr) (ty : MaType) (msanr : Nat) : Prop :=
  ¬ msaIsFree (d (msanr - 1)) ty = true ∨ (∀ i < msanr - 1, Link d ty i) ∨
    (ty ≠ .proc ∧ LongRun d ty msanr 0)

/-- The same for the descriptors from `f` on. -/
def RestOk (d : MsaArr) (ty : MaType) (msanr f : Nat) : Prop :=
  msanr ≤ f ∨ ¬ msaIsFree (d (msanr - 1)) ty = true ∨
    (f = 0 ∧ ∀ i < msanr - 1, Link d ty i) ∨ (ty ≠ .proc ∧ LongRun d ty msanr f)

theorem restOk_zero (hpos : 0 < msanr) : RestOk d ty msanr 0 ↔ LastRunOk d ty msanr := by
  unfold RestOk LastRunOk
  rw [or_iff_right (by omega : ¬ msanr ≤ 0)]
  simp only [true_and]

theorem LongRun.mono {f f' : Nat} (h : LongRun d ty msanr f') (hle : f ≤ f') :
    LongRun d ty msanr f := by
  obtain ⟨s, n, hf, hrest⟩ := h
  exact ⟨s, n, Nat.le_trans hle hf, hrest⟩

/-- A long run does not begin on pages that are not free, nor in a run that is not long. -/
theorem LongRun.behind {f s r : Nat} (h : LongRun d ty msanr f)
    (hskip : ∀ i, f ≤ i → i < s → ¬ msaIsFree (d i) ty = true)
    (hlinks : ∀ j < r, Link d ty (s + j)) :
    (s + r + 1 < msanr → ¬ Link d ty (s + r) → r + 1 < 2 ^ 51 → LongRun d ty msanr (s + r + 1)) ∧
      s + r + 1 < msanr := by
  obtain ⟨t, n, hft, hn, hlt, hfree, hchain, hstop⟩ := h
  have hst : s ≤ t := by
    by_contra hlt'
    exact hskip t hft (by omega) hfree
  -- a run that reaches the end of the long one has its last link
  have hreach : ¬ t + (n - 1) < s + r := by
    intro hin
    obtain ⟨j, hj⟩ := Nat.exists_eq_add_of_le (show s ≤ t + (n - 1) by omega)
    rw [hj] at hstop
    exact hstop (hlinks j (by omega))
  refine ⟨fun _ hend hshort => ?_, by omega⟩
  refine ⟨t, n, ?_, hn, hlt, hfree, hchain, hstop⟩
  by_contra hin
  -- the link missing behind the short run is one of the long run
  obtain ⟨j, hj⟩ := Nat.exists_eq_add_of_le (show t ≤ s + r by omega)
  rw [hj] at hend
  exact hend (hchain j (by omega))

/-- The events of a scan are among those of the loop. -/
theorem mem_memLoopEvs_of_scan {n f : Nat} {evs : List ScanEv} (hf : f < msanr)
    (h : memLoopEvs a msanr (n + 1) x f = some evs) :
    ∀ e ∈ merloveScanEvs (x.mareastat a) x.msadscstat f msanr, e ∈ evs := by
  intro e he
  rw [memLoopEvs, if_neg (by omega)] at h
  dsimp only at h
  split at h
  · cases h
    exact he
  · cases h
    exact he
  · obtain ⟨rest, -, rfl⟩ := Option.map_eq_some_iff.mp h
    exact List.mem_append_left _ he
  · split at h
    · cases h
      exact List.mem_append_left _ he
    · obtain ⟨fevs, -, h⟩ := Option.bind_eq_some_iff.mp h
      split at h
      · cases h
        exact List.mem_append_left _ (List.mem_append_left _ he)
      · cases h
        exact List.mem_append_left _ (List.mem_append_left _ he)
      · obtain ⟨rest, -, rfl⟩ := Option.map_eq_some_iff.mp h
        exact List.mem_append_left _ (List.mem_append_left _ (List.mem_append_left _ he))

/-- A round that finds a run inside the array, whose scan stays inside: either the run is filed
and the loop goes on behind it, or it is too long and the loop ends. -/
theorem memLoopEvs_round (hty : martyOfArea ty = some ty) (h : Scanned d ty a msanr x)
    {n f s r : Nat} {evs : List ScanEv} (hf : f < msanr) (hrun : s + r < msanr)
    (hhead : msaIsFree (x.msadscstat s) ty = true)
    (hlinks : ∀ j < r, Link x.msadscstat ty (s + j))
    (hscan : merloveScanContinumsadsc (x.mareastat a) x.msadscstat f msanr
      = .ok (some (s + r + 1, some (s, s + r, r + 1))))
    (hin : ∀ e ∈ merloveScanEvs (x.mareastat a) x.msadscstat f msanr, e.Inside msanr)
    (hevs : memLoopEvs a msanr (n + 1) x f = some evs) :
    ((ty = .proc ∨ r + 1 < 2 ^ 51) ∧
      ∃ x' rest, Scanned d ty a msanr x' ∧ memLoopEvs a msanr n x' (s + r + 1) = some rest ∧
      ((∀ e ∈ evs, e.Inside msanr) ↔ ∀ e ∈ rest, e.Inside msanr)) ∨
    (ty ≠ .proc ∧ 2 ^ 51 ≤ r + 1 ∧ ∀ e ∈ evs, e.Inside msanr) := by
  have hshar : ty ≠ .shar := by
    rintro rfl
    cases hty
  have hmarty : martyOfArea (x.mareastat a).maType = some ty := h.type ▸ hty
  have hcheck := checkContinumsadsc_run hmarty hhead hlinks
  have hin : ∀ e ∈ merloveScanEvs (x.mareastat a) x.msadscstat f msanr ++
      .run s (s + r) (r + 1) ::
        checkContinumsadscEvs (x.mareastat a) x.msadscstat s (s + r) (r + 1),
      e.Inside msanr := by
    intro e he
    rcases List.mem_append.mp he with he | he
    · exact hin e he
    · rcases List.mem_cons.mp he with rfl | he
      · exact ⟨Nat.le_add_right s r, hrun, by omega⟩
      · exact checkContinumsadscEvs_inside _ hrun e he
  rw [memLoopEvs, if_neg (by omega), hscan] at hevs
  dsimp only at hevs
  rw [if_neg hcheck] at hevs
  rcases h.mareabafh hshar (show 0 < r + 1 by omega) (show s + (r + 1) ≤ msanr by omega) with
    ⟨hshort, x', fevs, hok, hx', hfevs, hfile⟩ | ⟨hproc, hbig, ⟨msg, herr⟩, hfevs⟩
  · rw [Nat.add_sub_cancel] at hok hfevs
    rw [hfevs, Option.bind_some, hok] at hevs
    obtain ⟨rest, hrest, rfl⟩ := Option.map_eq_some_iff.mp hevs
    refine Or.inl ⟨hshort, x', rest, hx', hrest, fun hall e he => hall e (List.mem_append_right _ he),
      fun hall e he => ?_⟩
    rcases List.mem_append.mp he with he | he
    · rcases List.mem_append.mp he with he | he
      · exact hin e he
      · exact hfile e he
    · exact hall e he
  · rw [Nat.add_sub_cancel] at herr hfevs
    rw [hfevs, Option.bind_some, herr, List.append_nil] at hevs
    cases hevs
    exact Or.inr ⟨hproc, hbig, hin⟩

/-- **The loop over the descriptors** stays inside exactly when the last run does. -/
theorem memLoopEvs_inside_iff (hty : martyOfArea ty = some ty) (hpos : 0 < msanr) :
    ∀ n f x evs, Scanned d ty a msanr x → memLoopEvs a msanr n x f = some evs →
      ((∀ e ∈ evs, e.Inside msanr) ↔ RestOk d ty msanr f) := by
  intro n
  induction n with
  | zero =>
      intro f x evs _ hevs
      cases hevs
  | succ n ih =>
      intro f x evs h hevs
      by_cases hf : msanr ≤ f
      · rw [memLoopEvs, if_pos hf] at hevs
        cases hevs
        exact iff_of_true (fun e he => absurd he List.not_mem_nil) (Or.inl hf)
      have hmarty : martyOfArea (x.mareastat a).maType = some ty := h.type ▸ hty
      have hscanevs : merloveScanEvs (x.mareastat a) x.msadscstat f msanr
          = scanContinuEvs x.msadscstat ty msanr (msanr - f) f := by
        unfold merloveScanEvs
        rw [if_neg (by omega), hmarty]
      have hscan := merloveScanContinumsadsc_eq (d := x.msadscstat) (by omega : f < msanr) hmarty
      rcases scanContinuLoop_spec x.msadscstat ty hpos (msanr - f) f (by omega) with
        ⟨hrun, hnone⟩ | ⟨s, r, hrun, hfs, hs, hskip, hhead, hlinks, hlast, hr⟩
      · -- nothing is left to find
        have hfree : ¬ msaIsFree (d (msanr - 1)) ty = true := by
          rw [← h.msaIsFree_eq]
          exact hnone (msanr - 1) (by omega) (by omega)
        rw [memLoopEvs, if_neg hf, hscan, hrun] at hevs
        obtain ⟨rest, hrest, rfl⟩ := Option.map_eq_some_iff.mp hevs
        have hin := (ih msanr x rest h hrest).mpr (Or.inl (Nat.le_refl msanr))
        refine iff_of_true (fun e he => ?_) (Or.inr (Or.inl hfree))
        rcases List.mem_append.mp he with he | he
        · rw [hscanevs] at he
          exact scanContinuEvs_none (msanr - f) f (by omega)
            (fun i h1 h2 => hnone i h1 (by omega)) e he
        · exact hin e he
      rw [hrun] at hscan
      have hmem : ∀ e, e ∈ scanContinuEvs x.msadscstat ty msanr (msanr - f) f ↔ _ := fun e =>
        mem_scanContinuEvs_found hhead (msanr - f) f hfs (by omega) hskip
      have hskipd : ∀ i, f ≤ i → i < s → ¬ msaIsFree (d i) ty = true := fun i h1 h2 => by
        rw [← h.msaIsFree_eq]
        exact hskip i h1 h2
      have hlinksd : ∀ j < r, Link d ty (s + j) := fun j hj => (h.link_iff _).mp (hlinks j hj)
      -- how far the length scan looks
      have hlook : (∀ j < msanr - 1, (∀ i < j, Link x.msadscstat ty (s + i)) → s + j + 1 < msanr) →
          ∀ e ∈ merloveScanEvs (x.mareastat a) x.msadscstat f msanr, e.Inside msanr := by
        intro hroom e he
        rw [hscanevs] at he
        rcases (hmem e).mp he with ⟨i, -, hi, rfl⟩ | he
        · show i < msanr
          omega
        · exact scanLenEvs_inside s (msanr - 1) 0 hhead
            (fun j _ h2 h3 => hroom j (by omega) fun i hi => h3 i (Nat.zero_le i) hi) e he
      by_cases hin : s + r + 1 < msanr
      · -- the run ends before the last descriptor
        have hstop := hlast (by omega)
        have hstopd : ¬ Link d ty (s + r) := fun hl => hstop ((h.link_iff _).mpr hl)
        have hscanin := hlook fun j _ hj => by
          by_contra hout
          exact hstop (hj r (by omega))
        rcases memLoopEvs_round hty h (by omega) (by omega) hhead hlinks hscan hscanin hevs with
          ⟨hshort, x', rest, hx', hrest, hiff⟩ | ⟨hproc, hbig, hall⟩
        · rw [hiff, ih (s + r + 1) x' rest hx' hrest]
          constructor
          · rintro (hle | hno | ⟨hzero, -⟩ | ⟨hproc, hlong⟩)
            · omega
            · exact Or.inr (Or.inl hno)
            · omega
            · exact Or.inr (Or.inr (Or.inr ⟨hproc, hlong.mono (by omega)⟩))
          · rintro (hle | hno | ⟨-, hall⟩ | ⟨hproc, hlong⟩)
            · exact absurd hle hf
            · exact Or.inr (Or.inl hno)
            · exact absurd (hall (s + r) (by omega)) hstopd
            · exact Or.inr (Or.inr (Or.inr ⟨hproc,
                (hlong.behind hskipd hlinksd).1 hin hstopd (hshort.resolve_left hproc)⟩))
        · refine iff_of_true hall (Or.inr (Or.inr (Or.inr ⟨hproc, s, r + 1, hfs, hbig, by omega, ?_,
            fun j hj => hlinksd j (by omega), hstopd⟩)))
          rw [← h.msaIsFree_eq]
          exact hhead
      · have hfree : msaIsFree (d (msanr - 1)) ty = true := by
          obtain ⟨j, hj⟩ := Nat.exists_eq_add_of_le (show s ≤ msanr - 1 by omega)
          rw [hj, ← h.msaIsFree_eq]
          by_cases hj0 : j = 0
          · rw [hj0]
            exact hhead
          · have hlink := (hlinks (j - 1) (by omega)).2.1
            rwa [show s + (j - 1) + 1 = s + j by omega] at hlink
        by_cases hs0 : s = 0
        · -- all descriptors are one run
          subst hs0
          have hscanin := hlook fun j hj _ => by omega
          have hok : RestOk d ty msanr f := by
            refine Or.inr (Or.inr (Or.inl ⟨by omega, fun i hi => ?_⟩))
            have hi := hlinksd i (by omega)
            rwa [Nat.zero_add] at hi
          rcases memLoopEvs_round hty h (by omega) (by omega) hhead hlinks hscan hscanin hevs with
            ⟨-, x', rest, hx', hrest, hiff⟩ | ⟨-, -, hall⟩
          · rw [hiff, ih (0 + r + 1) x' rest hx' hrest]
            exact iff_of_true (Or.inl (by omega)) hok
          · exact iff_of_true hall hok
        · -- the length scan looks behind the last descriptor
          have hout : .msa msanr ∈ evs := by
            refine mem_memLoopEvs_of_scan (by omega) hevs _ ?_
            rw [hscanevs]
            have hahead := scanLenEvs_ahead s (msanr - 1) 0 hhead (msanr - 1 - s) (Nat.zero_le _)
              (by omega) fun i _ hi => hlinks i (by omega)
            rw [show s + (msanr - 1 - s) + 1 = msanr by omega] at hahead
            exact (hmem _).mpr (Or.inr hahead)
          refine iff_of_false (fun hall => absurd (hall _ hout) (Nat.lt_irrefl msanr)) ?_
          rintro (hle | hno | ⟨rfl, hall⟩ | ⟨-, hlong⟩)
          · exact hf hle
          · exact hno hfree
          · exact hskipd 0 (Nat.le_refl 0) (by omega) (hall 0 (by omega)).1
          · exact hin (hlong.behind hskipd hlinksd).2

/-- **The boot scan of an area stays inside the array exactly when** the last descriptor is no
free page of the area, or all descriptors are one run, or a run before the last one is too long
for the lists and stops the machine. -/
theorem bootScan_inside_iff (hlists : ListsOk x a)
    (hmem : ∀ p ∈ areaPtrs a, ∀ s ∈ x.free p, s < msanr) (hpos : 0 < msanr) :
    ScanInside x a msanr ↔
      ∀ ty, martyOfArea (x.mareastat a).maType = some ty → LastRunOk x.msadscstat ty msanr := by
  unfold ScanInside merloveMemOnmemareaEvs
  rw [if_neg (by omega)]
  have hnone : ∀ {o : Option (List ScanEv)}, o = some [] →
      ∃ evs, o = some evs ∧ ∀ e ∈ evs, e.Inside msanr := fun ho =>
    ⟨[], ho, fun e he => absurd he List.not_mem_nil⟩
  cases hty : (x.mareastat a).maType with
  | shar =>
      rw [if_pos rfl]
      refine iff_of_true (hnone rfl) fun ty h => ?_
      cases h
  | init =>
      rw [if_neg (by decide), if_pos rfl]
      refine iff_of_true (hnone rfl) fun ty h => ?_
      cases h
  | hwad | krnl | proc =>
      rw [if_neg (by decide), if_neg (by decide)]
      have hends : ∃ evs, memLoopEvs a msanr (msanr + 1) x 0 = some evs :=
        memLoopEvs_some msanr 0 x (by omega)
      obtain ⟨evs, hevs⟩ := hends
      have hinside := memLoopEvs_inside_iff rfl hpos (msanr + 1) 0 x evs
        ⟨hlists, hty, fun i => ⟨_, _, rfl⟩, hmem⟩ hevs
      rw [restOk_zero hpos] at hinside
      rw [hevs]
      constructor
      · rintro ⟨evs', he, hall⟩ ty h
        cases he
        cases h
        exact hinside.mp hall
      · intro h
        exact ⟨evs, rfl, hinside.mpr (h _ rfl)⟩

end Inside

/-! ## Two descriptors -/

/-- The lists of the areas before anything is filed. -/
theorem listsOk_init (d : MsaArr) {a : Nat} (ha : a < memareaMax) :
    ListsOk ⟨initMemareaCore, d⟩ a ∧
      ∀ p ∈ areaPtrs a, (Mem.mk initMemareaCore d).free p = [] := by
  have hbafh := fun {p : BafhPtr} (hp : p ∈ areaPtrs a) =>
    initMemareaCore_bafh d (mem_ptrs_of_area ha hp)
  refine ⟨⟨fun p hp => ?_, fun p hp => ?_⟩, fun p hp => ?_⟩
  · rw [hbafh hp]
    rfl
  · rw [hbafh hp]
    rfl
  · rw [Mem.free, hbafh hp]
    rfl

/-- Free pages of the hardware area, one behind the other. -/
def hwadPages : MsaArr := fun i => { writeOneMsadsc i with mfMarty := .hwad }

theorem bootScan_inside_iff_pages : ScanInside ⟨initMemareaCore, hwadPages⟩ 0 2 := by
  obtain ⟨hlists, hnil⟩ := listsOk_init hwadPages (show 0 < memareaMax by decide)
  refine (bootScan_inside_iff hlists (fun p hp s hs => ?_) (by decide)).mpr fun ty hty => ?_
  · rw [hnil p hp] at hs
    exact absurd hs List.not_mem_nil
  · cases hty
    refine Or.inr (Or.inl fun i hi => ?_)
    obtain rfl : i = 0 := by omega
    exact ⟨rfl, rfl, rfl⟩

/-- Two descriptors, the first one in use: the third one is looked at. -/
theorem bootScan_not_inside : ¬ ∀ (x : Mem) (a msanr : Nat), ListsOk x a →
    (∀ p ∈ areaPtrs a, ∀ s ∈ x.free p, s < msanr) → 0 < msanr → ScanInside x a msanr := by
  intro hall
  obtain ⟨hlists, hnil⟩ :=
    listsOk_init (upd hwadPages 0 occupyMsadsc) (show 0 < memareaMax by decide)
  obtain ⟨evs, hevs, hin⟩ := hall ⟨initMemareaCore, upd hwadPages 0 occupyMsadsc⟩ 0 2 hlists
    (fun p hp s hs => absurd (hnil p hp ▸ hs) List.not_mem_nil) (by decide)
  have hout : (merloveMemOnmemareaEvs ⟨initMemareaCore, upd hwadPages 0 occupyMsadsc⟩ 0 2).any
      (fun evs => decide (ScanEv.msa 2 ∈ evs)) = true := by decide +kernel
  rw [hevs] at hout
  have hmem : ScanEv.msa 2 ∈ evs := of_decide_eq_true hout
  exact absurd (hin _ hmem) (by decide)

end Cosmos.Hal
