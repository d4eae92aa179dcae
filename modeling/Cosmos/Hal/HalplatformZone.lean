import Cosmos.Hal.HalplatformMove

/-!
# Where the kernel may put the image

`initchkadr_is_ok` compares ends of ranges that are computed modulo `2 ^ 64`, and
`ret_kmaxmpadrcmpsz_e820map` starts its search from the start of entry 0, whatever entry 0 is.

## Main results

* `initchkadrSound_iff`: the test is sound, unless the range that is tested wraps.
* `imgChoice_iff`: when the entry that is chosen is the one that is meant, and when the image
  lies in it after the move.
-/

namespace Cosmos.Hal

open Cosmos.Lib.Bytes Cosmos.Lib.Copy Cosmos.Lib.Word64 Cosmos.Initldr

/-! ## Ranges -/

/-- The ranges that `machbstart_t` records: start and size. -/
def Machbstart.zones (mbsp : Machbstart) : List (Nat × Nat) :=
  [(mbsp.mbKrlinitstack - mbsp.mbKrlitstacksz, mbsp.mbKrlitstacksz),
    (mbsp.mbImgpadr, mbsp.mbImgsz), (mbsp.mbKrlimgpadr, mbsp.mbKrlsz),
    (mbsp.mbBfontpadr, mbsp.mbBfontsz), (mbsp.mbE820padr, mbsp.mbE820sz),
    (mbsp.mbMemznpadr, mbsp.mbMemznsz), (mbsp.mbMemmappadr, mbsp.mbMemmapsz),
    (mbsp.mbE820expadr, mbsp.mbE820exsz)]

/-- The recorded ranges do not wrap; `mb_kpmapphymemsz` is a word. -/
structure Machbstart.NoWrap (mbsp : Machbstart) : Prop where
  stack : mbsp.mbKrlitstacksz ≤ mbsp.mbKrlinitstack
  sum : ∀ z ∈ mbsp.zones, z.1 + z.2 < wordMod
  kpmap : mbsp.mbKpmapphymemsz < wordMod

instance (mbsp : Machbstart) : Decidable mbsp.NoWrap :=
  decidable_of_iff (mbsp.mbKrlitstacksz ≤ mbsp.mbKrlinitstack ∧
    (∀ z ∈ mbsp.zones, z.1 + z.2 < wordMod) ∧ mbsp.mbKpmapphymemsz < wordMod)
    ⟨fun ⟨h1, h2, h3⟩ => ⟨h1, h2, h3⟩, fun h => ⟨h.stack, h.sum, h.kpmap⟩⟩

/-- The bytes of `[a, a + n)` are in no recorded range. -/
def Machbstart.Clear (mbsp : Machbstart) (a n : Nat) : Prop :=
  ∀ z ∈ mbsp.zones, ∀ x, a ≤ x → x < a + n → ¬ (z.1 ≤ x ∧ x < z.1 + z.2)

section Zones

variable {mbsp : Machbstart} {a n s l : Nat}

/-- One check and the ones behind it. -/
theorem check_iff {x e r : Int} (he : e ≠ 0) :
    (if x ≠ 0 then e else r) = 0 ↔ x = 0 ∧ r = 0 := by
  by_cases hx : x = 0
  · rw [if_neg (not_not.mpr hx), and_iff_right hx]
  · rw [if_pos hx]
    exact iff_of_false he fun hand => hx hand.1

/-- All checks of `initchkadr_is_ok` pass. -/
theorem initchkadrIsOk_iff (h : mbsp.NoWrap) : initchkadrIsOk mbsp a n = 0 ↔
    (∀ z ∈ mbsp.zones, adrzoneIsOk z.1 z.2 a n = 0) ∧ add64 a n < mbsp.mbKpmapphymemsz := by
  have htop := h.sum _ List.mem_cons_self
  have hstack := h.stack
  have hsub : sub64 mbsp.mbKrlinitstack mbsp.mbKrlitstacksz =
      mbsp.mbKrlinitstack - mbsp.mbKrlitstacksz := sub64_eq (by dsimp only at htop; omega) hstack
  have hlast : (if mbsp.mbKpmapphymemsz ≤ add64 a n then (-9 : Int) else 0) = 0 ↔
      add64 a n < mbsp.mbKpmapphymemsz := by
    rw [← Nat.not_le]
    split <;> simp_all
  unfold initchkadrIsOk Machbstart.zones
  simp (disch := decide) only [check_iff, hsub, hlast]
  simp only [List.forall_mem_cons, List.not_mem_nil, false_implies, implies_true, and_true,
    and_assoc]

/-- **`adrzone_is_ok`** without wrapping: no byte is in both ranges, and neither ends where
the other one starts. -/
theorem adrzone_apart (hz : s + l < wordMod) (hn : a + n < wordMod)
    (h : adrzoneIsOk s l a n = 0) {x : Nat} (hlo : a ≤ x) (hhi : x < a + n) :
    ¬ (s ≤ x ∧ x < s + l) := by
  unfold adrzoneIsOk at h
  rw [add64_eq hz, add64_eq hn] at h
  split at h
  · cases h
  · split at h
    · cases h
    · omega

/-- **`adrzone_is_ok`** of a range that wraps: it passes if its start is not in the other
range. -/
theorem adrzone_wrap (hz : s + l < wordMod) (ha : a < wordMod) (hn : n < wordMod)
    (hwrap : wordMod ≤ a + n) : adrzoneIsOk s l a n = 0 ↔ ¬ (s ≤ a ∧ a ≤ s + l) := by
  have hsum : add64 a n = a + n - wordMod := by
    unfold add64
    rw [Nat.mod_eq_sub_mod hwrap, Nat.mod_eq_of_lt (by omega)]
  unfold adrzoneIsOk
  rw [add64_eq hz, hsum]
  by_cases hin : s ≤ a ∧ a ≤ s + l
  · rw [if_pos hin]
    exact iff_of_false (by decide) fun hno => hno hin
  · rw [if_neg hin, if_neg (by omega)]
    exact iff_of_true rfl hin

/-- A range that passes lies below `mb_kpmapphymemsz`, apart from all recorded ranges. -/
def ChkadrSound (mbsp : Machbstart) (a n : Nat) : Prop :=
  initchkadrIsOk mbsp a n = 0 → mbsp.Clear a n ∧ a + n < mbsp.mbKpmapphymemsz

/-- The end of the range does not wrap; or its start is in a recorded range, or at the end of
one, or the wrapped end is beyond `mb_kpmapphymemsz`. -/
def ChkadrFits (mbsp : Machbstart) (a n : Nat) : Prop :=
  a + n < wordMod ∨ (∃ z ∈ mbsp.zones, z.1 ≤ a ∧ a ≤ z.1 + z.2) ∨
    mbsp.mbKpmapphymemsz ≤ a + n - wordMod

/-- Without wrapping the test is sound. -/
theorem chkadrSound_of_lt (h : mbsp.NoWrap) (hn : a + n < wordMod) : ChkadrSound mbsp a n := by
  intro hok
  obtain ⟨hzones, hend⟩ := (initchkadrIsOk_iff h).mp hok
  rw [add64_eq hn] at hend
  exact ⟨fun z hz x hlo hhi => adrzone_apart (h.sum z hz) hn (hzones z hz) hlo hhi, hend⟩

/-- **When the range test is sound.** -/
theorem initchkadrSound_iff (h : mbsp.NoWrap) (ha : a < wordMod) (hn : n < wordMod) :
    ChkadrSound mbsp a n ↔ ChkadrFits mbsp a n := by
  by_cases hlt : a + n < wordMod
  · exact iff_of_true (chkadrSound_of_lt h hlt) (Or.inl hlt)
  have hwrap := Nat.le_of_not_lt hlt
  have hsum : add64 a n = a + n - wordMod := by
    unfold add64
    rw [Nat.mod_eq_sub_mod hwrap, Nat.mod_eq_of_lt (by omega)]
  -- a range that wraps ends beyond every word, so the test has to refuse it
  have hrefuse : ChkadrSound mbsp a n ↔ initchkadrIsOk mbsp a n ≠ 0 := by
    refine ⟨fun hsound hok => ?_, fun hne hok => absurd hok hne⟩
    have hend := (hsound hok).2
    have hkp := h.kpmap
    omega
  rw [hrefuse, ne_eq, initchkadrIsOk_iff h, hsum, not_and_or, Nat.not_lt, ChkadrFits,
    or_iff_right hlt]
  refine or_congr ?_ Iff.rfl
  simp only [not_forall, exists_prop]
  refine exists_congr fun z => and_congr_right fun hz => ?_
  rw [adrzone_wrap (h.sum z hz) ha hn hwrap, not_not]

end Zones

/-- A boot parameter block that records nothing, with all memory mapped. -/
def mappedAll : Machbstart := { machbstartInit with mbKpmapphymemsz := krnlMapPhyaddressEnd }

/-- A boot parameter block with all its ranges. -/
def recorded : Machbstart :=
  { mappedAll with
    mbKrlinitstack := 0x90000
    mbKrlitstacksz := 0x1000
    mbImgpadr := 0x4000000
    mbImgsz := 0x500000
    mbKrlimgpadr := 0x2000000
    mbKrlsz := 0x80000
    mbBfontpadr := 0x2080000
    mbBfontsz := 0x260000
    mbE820padr := 0x22e0000
    mbE820sz := 0x64
    mbE820expadr := 0x22e1000
    mbE820exsz := 0x140
    mbMemznpadr := 0x22e2000
    mbMemznsz := 0x7000
    mbMemmappadr := 0x22e9000
    mbMemmapsz := 0xa00000 }

/-- A page between two ranges passes, and a range that wraps is refused for its start. -/
theorem initchkadrSound_recorded : recorded.NoWrap ∧ initchkadrIsOk recorded 0x3000000 0x1000 = 0 ∧
    ChkadrSound recorded 0x3000000 0x1000 ∧ ChkadrSound recorded 0x4000000 (2 ^ 64 - 0x1000) := by
  have hno : recorded.NoWrap := by decide
  have hpage : ChkadrFits recorded 0x3000000 0x1000 := Or.inl (by decide)
  have hwrap : ChkadrFits recorded 0x4000000 (2 ^ 64 - 0x1000) := Or.inr (Or.inl (by decide))
  exact ⟨hno, by decide, (initchkadrSound_iff hno (by decide) (by decide)).mpr hpage,
    (initchkadrSound_iff hno (by decide) (by decide)).mpr hwrap⟩

/-- **A range that wraps** passes: its end is computed as 4096. -/
theorem initchkadrSound_not : mappedAll.NoWrap ∧
    initchkadrIsOk mappedAll (2 ^ 64 - 0x1000) 0x2000 = 0 ∧
    ¬ ChkadrSound mappedAll (2 ^ 64 - 0x1000) 0x2000 := by
  have hok : initchkadrIsOk mappedAll (2 ^ 64 - 0x1000) 0x2000 = 0 := by decide
  refine ⟨by decide, hok, fun hsound => ?_⟩
  have hend := (hsound hok).2
  exact absurd hend (by decide)

/-! ## Choosing an entry -/

section Choice

variable {emp : Nat → E820map} {mappadr cpsz : Nat}

/-- A usable entry that is large enough and ends below `mappadr`. -/
def E820map.Cand (e : E820map) (mappadr cpsz : Nat) : Prop :=
  e.type = ramUsable ∧ cpsz ≤ e.lsize ∧ e.saddr + e.lsize < mappadr

/-- A usable entry that is large enough and looks as if it ended below `mappadr`, because its
end wraps. -/
def E820map.WrapCand (e : E820map) (mappadr cpsz : Nat) : Prop :=
  e.type = ramUsable ∧ cpsz ≤ e.lsize ∧ wordMod ≤ e.saddr + e.lsize ∧
    e.saddr + e.lsize - wordMod < mappadr

instance (e : E820map) (mappadr cpsz : Nat) : Decidable (e.Cand mappadr cpsz) :=
  inferInstanceAs (Decidable (_ ∧ _))

instance (e : E820map) (mappadr cpsz : Nat) : Decidable (e.WrapCand mappadr cpsz) :=
  inferInstanceAs (Decidable (_ ∧ _))

/-- The tests of the loop, but for the start. -/
def E820map.Passes (e : E820map) (mappadr cpsz : Nat) : Prop :=
  e.type = ramUsable ∧ add64 e.saddr e.lsize < mappadr ∧ cpsz ≤ e.lsize

/-- What passes is a candidate, or wraps. -/
theorem E820map.passes_iff {e : E820map} (hs : e.saddr < wordMod) (hl : e.lsize < wordMod)
    (hm : mappadr < wordMod) :
    e.Passes mappadr cpsz ↔ e.Cand mappadr cpsz ∨ e.WrapCand mappadr cpsz := by
  unfold E820map.Passes E820map.Cand E820map.WrapCand
  by_cases hlt : e.saddr + e.lsize < wordMod
  · rw [add64_eq hlt]
    constructor
    · rintro ⟨h1, h2, h3⟩
      exact Or.inl ⟨h1, h3, h2⟩
    · rintro (⟨h1, h2, h3⟩ | ⟨-, -, h3, -⟩)
      · exact ⟨h1, h3, h2⟩
      · omega
  · have hsum : add64 e.saddr e.lsize = e.saddr + e.lsize - wordMod := by
      unfold add64
      rw [Nat.mod_eq_sub_mod (Nat.le_of_not_lt hlt), Nat.mod_eq_of_lt (by omega)]
    rw [hsum]
    constructor
    · rintro ⟨h1, h2, h3⟩
      exact Or.inr ⟨h1, h3, Nat.le_of_not_lt hlt, h2⟩
    · rintro (⟨-, -, h3⟩ | ⟨h1, h2, -, h4⟩)
      · omega
      · exact ⟨h1, h4, h2⟩

/-- Entry `k` starts above entry `j`, or at the same address and comes later, or is `j`. -/
def Beats (emp : Nat → E820map) (k j : Nat) : Prop :=
  (emp j).saddr < (emp k).saddr ∨ ((emp j).saddr = (emp k).saddr ∧ j ≤ k)

instance (emp : Nat → E820map) (k j : Nat) : Decidable (Beats emp k j) :=
  inferInstanceAs (Decidable (_ ∨ _))

/-- The last of the highest entries that pass, from `maxadr` on. -/
structure Highest (emp : Nat → E820map) (mappadr cpsz maxadr i n k : Nat) : Prop where
  ge : i ≤ k
  lt : k < i + n
  passes : (emp k).Passes mappadr cpsz
  le : maxadr ≤ (emp k).saddr
  beats : ∀ j, i ≤ j → j < i + n → (emp j).Passes mappadr cpsz → maxadr ≤ (emp j).saddr →
    Beats emp k j

/-- **The loop** ends with the last of the highest entries, or with what it started from. -/
theorem kmaxmpadrLoop_cases (emp : Nat → E820map) (mappadr cpsz n i maxadr : Nat)
    (retemp : Option E820map) :
    ((∀ j, i ≤ j → j < i + n → (emp j).Passes mappadr cpsz → (emp j).saddr < maxadr) ∧
      kmaxmpadrLoop emp mappadr cpsz n i maxadr retemp = retemp) ∨
    ∃ k, Highest emp mappadr cpsz maxadr i n k ∧
      kmaxmpadrLoop emp mappadr cpsz n i maxadr retemp = some (emp k) := by
  induction n generalizing i maxadr retemp with
  | zero => exact Or.inl ⟨fun j h1 h2 => absurd h2 (by omega), rfl⟩
  | succ n ih =>
      rw [kmaxmpadrLoop]
      by_cases hok : (emp i).type = ramUsable ∧ maxadr ≤ (emp i).saddr ∧
          add64 (emp i).saddr (emp i).lsize < mappadr ∧ cpsz ≤ (emp i).lsize
      · obtain ⟨hty, hmax, hend, hsz⟩ := hok
        rw [if_pos ⟨hty, hmax, hend, hsz⟩]
        right
        rcases ih (i + 1) (emp i).saddr (some (emp i)) with ⟨hnone, hrun⟩ | ⟨k, hk, hrun⟩
        · -- no later entry is as high
          refine ⟨i, ⟨Nat.le_refl i, by omega, ⟨hty, hend, hsz⟩, hmax, fun j h1 h2 hp _ => ?_⟩,
            hrun⟩
          by_cases hj : j = i
          · exact Or.inr ⟨by rw [hj], by omega⟩
          · exact Or.inl (hnone j (by omega) (by omega) hp)
        · refine ⟨k, ⟨by have := hk.ge; omega, by have := hk.lt; omega, hk.passes,
            Nat.le_trans hmax hk.le, fun j h1 h2 hp hj => ?_⟩, hrun⟩
          by_cases hji : j = i
          · have hki := hk.ge
            rcases Nat.lt_or_eq_of_le hk.le with hlt | heq
            · exact Or.inl (by rw [hji]; exact hlt)
            · exact Or.inr ⟨by rw [hji]; exact heq, by omega⟩
          · by_cases hlow : (emp j).saddr < (emp i).saddr
            · exact Or.inl (Nat.lt_of_lt_of_le hlow hk.le)
            · exact hk.beats j (by omega) (by omega) hp (Nat.le_of_not_lt hlow)
      · rw [if_neg hok]
        have hi : (emp i).Passes mappadr cpsz → (emp i).saddr < maxadr := by
          rintro ⟨h1, h2, h3⟩
          by_contra hge
          exact hok ⟨h1, Nat.le_of_not_lt hge, h2, h3⟩
        rcases ih (i + 1) maxadr retemp with ⟨hnone, hrun⟩ | ⟨k, hk, hrun⟩
        · refine Or.inl ⟨fun j h1 h2 hp => ?_, hrun⟩
          by_cases hji : j = i
          · rw [hji] at hp ⊢
            exact hi hp
          · exact hnone j (by omega) (by omega) hp
        · refine Or.inr ⟨k, ⟨by have := hk.ge; omega, by have := hk.lt; omega, hk.passes, hk.le,
            fun j h1 h2 hp hj => ?_⟩, hrun⟩
          by_cases hji : j = i
          · rw [hji] at hp hj
            have := hi hp
            omega
          · exact hk.beats j (by omega) (by omega) hp hj

end Choice

section Table

variable {mbsp : Machbstart} {f : Nat → UInt8} {v mappadr cpsz : Nat}

/-- The entries of the table at `v`. -/
def tableAt (f : Nat → UInt8) (v i : Nat) : E820map := e820At f (v + sizeofE820map * i)

/-- The entry whose fields the function reads at last; `none` if it reads them through `NULL`. -/
def lastRead (mbsp : Machbstart) (f : Nat → UInt8) (v mappadr cpsz : Nat) : Option E820map :=
  kmaxmpadrLoop (tableAt f v) mappadr cpsz mbsp.mbE820nr 0 (tableAt f v 0).saddr none

/-- The candidate with the greatest start is returned, and `NULL` only if there is none; nothing
is read through `NULL`. -/
structure ChoiceOk (mbsp : Machbstart) (f : Nat → UInt8) (v mappadr cpsz : Nat) : Prop where
  read : lastRead mbsp f v mappadr cpsz ≠ none
  ret : ∃ r, retKmaxmpadrcmpszE820map mbsp f mappadr cpsz = .ok r ∧
    (r = none ↔ ∀ j < mbsp.mbE820nr, ¬ (tableAt f v j).Cand mappadr cpsz) ∧
    ∀ e, r = some e → (∃ i < mbsp.mbE820nr, e = tableAt f v i) ∧ e.Cand mappadr cpsz ∧
      ∀ j < mbsp.mbE820nr, (tableAt f v j).Cand mappadr cpsz → (tableAt f v j).saddr ≤ e.saddr

/-- A candidate starts at or above entry 0, and above each entry that wraps. -/
def ChoiceFits (mbsp : Machbstart) (f : Nat → UInt8) (v mappadr cpsz : Nat) : Prop :=
  ∃ i < mbsp.mbE820nr, (tableAt f v i).Cand mappadr cpsz ∧
    (tableAt f v 0).saddr ≤ (tableAt f v i).saddr ∧
    ∀ j < mbsp.mbE820nr, (tableAt f v j).WrapCand mappadr cpsz → Beats (tableAt f v) i j

theorem tableAt_passes_iff (f : Nat → UInt8) (v cpsz : Nat) (hm : mappadr < wordMod) (i : Nat) :
    (tableAt f v i).Passes mappadr cpsz ↔
      (tableAt f v i).Cand mappadr cpsz ∨ (tableAt f v i).WrapCand mappadr cpsz :=
  E820map.passes_iff (rd64_lt f _) (rd64_lt f _) hm

/-- An entry that passed the loop passes the test behind it. -/
theorem retKmax_some (hv : phyadrToViradr mbsp.mbE820padr = .ok v) {e : E820map}
    (he : lastRead mbsp f v mappadr cpsz = some e) (hp : e.Passes mappadr cpsz) :
    retKmaxmpadrcmpszE820map mbsp f mappadr cpsz = .ok (some e) := by
  have hloop : kmaxmpadrLoop (fun i => e820At f (v + sizeofE820map * i)) mappadr cpsz
      mbsp.mbE820nr 0 (e820At f (v + sizeofE820map * 0)).saddr none = some e := he
  unfold retKmaxmpadrcmpszE820map
  simp only [hv, bind, Except.bind, hloop]
  rw [if_pos ⟨hp.2.1, hp.2.2⟩]
  rfl

/-- **When the search is right.** -/
theorem choiceOk_iff (hv : phyadrToViradr mbsp.mbE820padr = .ok v) (hm : mappadr < wordMod) :
    ChoiceOk mbsp f v mappadr cpsz ↔ ChoiceFits mbsp f v mappadr cpsz := by
  have hpass := tableAt_passes_iff f v cpsz hm
  rcases kmaxmpadrLoop_cases (tableAt f v) mappadr cpsz
    mbsp.mbE820nr 0 (tableAt f v 0).saddr none with ⟨hlow, hrun⟩ | ⟨k, hk, hrun⟩
  · refine iff_of_false (fun h => h.read hrun) ?_
    rintro ⟨i, hi, hcand, hge, -⟩
    have hlt := hlow i (Nat.zero_le i) (by omega) ((hpass i).mpr (Or.inl hcand))
    omega
  have hret := retKmax_some hv hrun hk.passes
  have hklt : k < mbsp.mbE820nr := by
    have := hk.lt
    omega
  have habove : ∀ j < mbsp.mbE820nr, (tableAt f v j).Passes mappadr cpsz →
      Beats (tableAt f v) k j := by
    intro j hj hp
    by_cases hge : (tableAt f v 0).saddr ≤ (tableAt f v j).saddr
    · exact hk.beats j (Nat.zero_le j) (by omega) hp hge
    · exact Or.inl (Nat.lt_of_lt_of_le (Nat.lt_of_not_le hge) hk.le)
  constructor
  · rintro ⟨-, r, hr, -, hspec⟩
    rw [hret] at hr
    cases hr
    obtain ⟨-, hcand, -⟩ := hspec _ rfl
    exact ⟨k, hklt, hcand, hk.le, fun j hj hw => habove j hj ((hpass j).mpr (Or.inr hw))⟩
  · rintro ⟨i, hi, hcand, hge, hwrap⟩
    have hki := habove i hi ((hpass i).mpr (Or.inl hcand))
    -- an entry that wraps cannot be the one that is chosen
    have hkcand : (tableAt f v k).Cand mappadr cpsz := by
      rcases (hpass k).mp hk.passes with hc | hw
      · exact hc
      · have hik := hwrap k hklt hw
        have heq : k = i := by
          unfold Beats at hki hik
          omega
        rw [heq] at hw
        have hend := hcand.2.2
        have hover := hw.2.2.1
        omega
    refine ⟨fun hnone => ?_, some (tableAt f v k), hret, ?_, fun e he => ?_⟩
    · rw [lastRead, hrun] at hnone
      cases hnone
    · exact iff_of_false (fun he => by cases he) fun hall => hall k hklt hkcand
    · cases he
      refine ⟨⟨k, hklt, rfl⟩, hkcand, fun j hj hc => ?_⟩
      have hkj := habove j hj ((hpass j).mpr (Or.inl hc))
      unfold Beats at hkj
      omega

end Table

/-! ## The move -/

/-- Where the image is put in an entry. -/
def imgTo (emp : E820map) (imgsz : Nat) : Nat :=
  add64 emp.saddr (sub64 emp.lsize imgsz) / 0x1000 * 0x1000

/-- What a move that completes has gone through. -/
theorem moveImg2maxpadr_cases {s s' : Krnl} (h : moveImg2maxpadr s = .ok s') : ∃ emp,
    retKmaxmpadrcmpszE820map s.mbsp s.mem s.mbsp.mbKpmapphymemsz s.mbsp.mbImgsz =
        .ok (some emp) ∧
      initchkadrIsOk s.mbsp (imgTo emp s.mbsp.mbImgsz) s.mbsp.mbImgsz = 0 ∧
      imgTo emp s.mbsp.mbImgsz < krnlMapPhyaddressEnd ∧ s.mbsp.mbImgsz % 2 ^ 64 < 2 ^ 63 ∧
      s'.mbsp.mbImgpadr = imgTo emp s.mbsp.mbImgsz := by
  simp only [moveImg2maxpadr, bind, Except.bind] at h
  split at h
  · cases h
  rename_i r hret
  split at h
  · cases h
  rename_i emp
  refine ⟨emp, hret, ?_⟩
  have hto : add64 emp.saddr (sub64 emp.lsize s.mbsp.mbImgsz) / 0x1000 * 0x1000 =
    imgTo emp s.mbsp.mbImgsz := rfl
  rw [hto] at h
  generalize imgTo emp s.mbsp.mbImgsz = toadr at h ⊢
  split at h
  · cases h
  rename_i hchk
  refine ⟨not_not.mp hchk, ?_⟩
  cases hs : phyadrToViradr s.mbsp.mbImgpadr with
  | error e =>
      rw [hs] at h
      cases h
  | ok sadr =>
      cases hd : phyadrToViradr toadr with
      | error e =>
          rw [hs, hd] at h
          cases h
      | ok dadr =>
          rw [hs, hd] at h
          simp only at h
          split at h
          · cases h
          · rename_i hcopy
            cases h
            refine ⟨(phyadrToViradr_ok hd).1, ?_, rfl⟩
            -- a size that is negative as a `sint_t` is not copied
            by_contra hneg
            have hsint : sint64 s.mbsp.mbImgsz < 0 := by
              unfold sint64
              rw [if_neg hneg]
              have := Nat.mod_lt s.mbsp.mbImgsz (show 0 < 2 ^ 64 by decide)
              omega
            apply hcopy
            unfold m2mcopy
            rw [if_pos (by omega)]
            exact (Int.ne_of_lt hsint).symm

/-- The image lies in the entry after the move, and in no recorded range. -/
def MovedInto (s s' : Krnl) (emp : E820map) : Prop :=
  (∀ x, s'.mbsp.mbImgpadr ≤ x → x < s'.mbsp.mbImgpadr + s.mbsp.mbImgsz →
      emp.saddr ≤ x ∧ x < emp.saddr + emp.lsize) ∧
    s.mbsp.Clear s'.mbsp.mbImgpadr s.mbsp.mbImgsz

/-- The image has room in the entry from an address on that is a multiple of the page size. -/
def MoveFits (emp : E820map) (imgsz : Nat) : Prop :=
  imgsz = 0 ∨ emp.saddr + (emp.lsize - imgsz) < wordMod ∧
    ∃ k, emp.saddr ≤ 0x1000 * k ∧ 0x1000 * k + imgsz ≤ emp.saddr + emp.lsize

/-- The image is put into the entry exactly if there is such an address. -/
theorem imgTo_le_iff {emp : E820map} {imgsz : Nat} (hs : emp.saddr < wordMod)
    (hl : emp.lsize < wordMod) (hsz : imgsz ≤ emp.lsize) (hpos : 1 ≤ imgsz) :
    emp.saddr ≤ imgTo emp imgsz ∧ imgTo emp imgsz + imgsz ≤ emp.saddr + emp.lsize ↔
      MoveFits emp imgsz := by
  unfold imgTo MoveFits
  rw [sub64_eq hl hsz, or_iff_right (by omega)]
  by_cases hlt : emp.saddr + (emp.lsize - imgsz) < wordMod
  · rw [add64_eq hlt, and_iff_right hlt]
    constructor
    · rintro ⟨h1, h2⟩
      exact ⟨(emp.saddr + (emp.lsize - imgsz)) / 0x1000, by omega, by omega⟩
    · rintro ⟨k, h1, h2⟩
      omega
  · have hsum : add64 emp.saddr (emp.lsize - imgsz) =
        emp.saddr + (emp.lsize - imgsz) - wordMod := by
      unfold add64
      rw [Nat.mod_eq_sub_mod (Nat.le_of_not_lt hlt), Nat.mod_eq_of_lt (by omega)]
    rw [hsum]
    refine iff_of_false ?_ fun hand => hlt hand.1
    omega

/-- An entry that is returned is one of the table, and large enough. -/
theorem retKmax_le {mbsp : Machbstart} {f : Nat → UInt8} {v mappadr cpsz : Nat} {e : E820map}
    (hv : phyadrToViradr mbsp.mbE820padr = .ok v)
    (h : retKmaxmpadrcmpszE820map mbsp f mappadr cpsz = .ok (some e)) :
    cpsz ≤ e.lsize ∧ e.saddr < wordMod ∧ e.lsize < wordMod := by
  rcases kmaxmpadrLoop_cases (tableAt f v) mappadr cpsz
    mbsp.mbE820nr 0 (tableAt f v 0).saddr none with ⟨-, hrun⟩ | ⟨k, hk, hrun⟩
  · have hnone : kmaxmpadrLoop (fun i => e820At f (v + sizeofE820map * i)) mappadr cpsz
        mbsp.mbE820nr 0 (e820At f (v + sizeofE820map * 0)).saddr none = none := hrun
    unfold retKmaxmpadrcmpszE820map at h
    simp only [hv, bind, Except.bind, hnone] at h
    cases h
  · have hret := retKmax_some hv hrun hk.passes
    rw [hret] at h
    cases h
    exact ⟨hk.passes.2.2, rd64_lt f _, rd64_lt f _⟩

/-- **When the image lies where it is meant to**, after a move that completes. -/
theorem movedInto_iff {s s' : Krnl} {emp : E820map} {v : Nat} (hno : s.mbsp.NoWrap)
    (hv : phyadrToViradr s.mbsp.mbE820padr = .ok v)
    (hret : retKmaxmpadrcmpszE820map s.mbsp s.mem s.mbsp.mbKpmapphymemsz s.mbsp.mbImgsz =
      .ok (some emp)) (h : moveImg2maxpadr s = .ok s') :
    MovedInto s s' emp ↔ MoveFits emp s.mbsp.mbImgsz := by
  obtain ⟨emp', hret', hchk, hto, hsz, hpadr⟩ := moveImg2maxpadr_cases h
  rw [hret] at hret'
  cases hret'
  obtain ⟨hle, hs, hl⟩ := retKmax_le hv hret
  have hword : wordMod = 2 ^ 64 := rfl
  have hmap : krnlMapPhyaddressEnd = 0x400000000 := rfl
  rw [Nat.mod_eq_of_lt (by omega)] at hsz
  have hclear := (chkadrSound_of_lt hno (by omega) hchk).1
  unfold MovedInto
  rw [hpadr, and_iff_left hclear]
  by_cases hpos : 1 ≤ s.mbsp.mbImgsz
  · rw [← imgTo_le_iff hs hl hle hpos]
    constructor
    · intro hin
      have hfirst := hin (imgTo emp s.mbsp.mbImgsz) (Nat.le_refl _) (by omega)
      have hlast := hin (imgTo emp s.mbsp.mbImgsz + (s.mbsp.mbImgsz - 1)) (by omega) (by omega)
      omega
    · rintro ⟨h1, h2⟩ x hlo hhi
      omega
  · refine iff_of_true (fun x hlo hhi => absurd hhi (by omega)) (Or.inl (by omega))

/-- **Choosing an entry and moving the image into it**: when the search is right, and when the
image lies in the entry after a move that completes. -/
theorem imgChoice_iff {s : Krnl} {v : Nat} (hno : s.mbsp.NoWrap)
    (hv : phyadrToViradr s.mbsp.mbE820padr = .ok v) :
    (∀ mappadr < wordMod, ∀ cpsz,
      ChoiceOk s.mbsp s.mem v mappadr cpsz ↔ ChoiceFits s.mbsp s.mem v mappadr cpsz) ∧
    ∀ emp s', retKmaxmpadrcmpszE820map s.mbsp s.mem s.mbsp.mbKpmapphymemsz s.mbsp.mbImgsz =
        .ok (some emp) → moveImg2maxpadr s = .ok s' →
      (MovedInto s s' emp ↔ MoveFits emp s.mbsp.mbImgsz) :=
  ⟨fun _ hm _ => choiceOk_iff hv hm, fun _ _ hret h => movedInto_iff hno hv hret h⟩

/-! ## Two tables -/

/-- The bytes of an entry. -/
def e820Bytes (e : E820map) : List UInt8 :=
  leBytes 8 e.saddr ++ leBytes 8 e.lsize ++ leBytes 4 e.type

/-- A memory with a table at the physical address 0x5000. -/
def tableMem (l : List E820map) (a : Nat) : UInt8 :=
  (l.flatMap e820Bytes).getD (a - (0x5000 + krnlMapVirtaddressStart)) 0

/-- A table of `nr` entries and a small image. -/
def tableKrnl (l : List E820map) : Krnl where
  mbsp := { mappedAll with
    mbE820padr := 0x5000
    mbE820nr := l.length
    mbE820sz := sizeofE820map * l.length
    mbImgpadr := 0x9000
    mbImgsz := 0x10 }
  mem := tableMem l

/-- Usable memory from 1 MiB, 64 MiB and 128 MiB on, a reserved page above it, and a usable range
above them that is too small. -/
def fiveRanges : Krnl :=
  tableKrnl [⟨0x100000, 0x1000000, ramUsable⟩, ⟨0x80000000, 0x1000, 2⟩,
    ⟨0x8000000, 0x2000000, ramUsable⟩, ⟨0x4000000, 0x1000000, ramUsable⟩,
    ⟨0x90000000, 0x8, ramUsable⟩]

/-- The image goes to the end of the third range. -/
theorem imgChoice_fiveRanges : ∃ s', moveImg2maxpadr fiveRanges = .ok s' ∧
    ChoiceOk fiveRanges.mbsp fiveRanges.mem (0x5000 + krnlMapVirtaddressStart) 0x400000000 0x10 ∧
    MovedInto fiveRanges s' ⟨0x8000000, 0x2000000, ramUsable⟩ := by
  have hiff := imgChoice_iff (s := fiveRanges) (v := 0x5000 + krnlMapVirtaddressStart)
    (by decide) (by decide)
  have hfits : ChoiceFits fiveRanges.mbsp fiveRanges.mem (0x5000 + krnlMapVirtaddressStart)
      0x400000000 0x10 := ⟨2, by decide, by decide +kernel, by decide +kernel, by decide +kernel⟩
  have hret : retKmaxmpadrcmpszE820map fiveRanges.mbsp fiveRanges.mem
      fiveRanges.mbsp.mbKpmapphymemsz fiveRanges.mbsp.mbImgsz
        = .ok (some ⟨0x8000000, 0x2000000, ramUsable⟩) := by decide +kernel
  cases hmove : moveImg2maxpadr fiveRanges with
  | error e =>
      have hsome : (moveImg2maxpadr fiveRanges).isOk = true := by decide +kernel
      rw [hmove] at hsome
      cases hsome
  | ok s' =>
      refine ⟨s', rfl, (hiff.1 _ (by decide) _).mpr hfits, (hiff.2 _ s' hret hmove).mpr ?_⟩
      exact Or.inr ⟨by decide, 0x9fff, by decide, by decide⟩

/-- The same range behind a reserved one at 2 GiB. -/
def twoRanges : Krnl :=
  tableKrnl [⟨0x80000000, 0x1000, 2⟩, ⟨0x100000, 0x1000000, ramUsable⟩]

/-- **The range is not found** behind an entry that starts above it, and the fields of the entry
are read through `NULL`. -/
theorem imgChoice_not : twoRanges.mbsp.NoWrap ∧
    (tableAt twoRanges.mem (0x5000 + krnlMapVirtaddressStart) 1).Cand 0x400000000 0x10 ∧
    lastRead twoRanges.mbsp twoRanges.mem (0x5000 + krnlMapVirtaddressStart) 0x400000000 0x10 =
      none ∧
    ¬ ChoiceOk twoRanges.mbsp twoRanges.mem (0x5000 + krnlMapVirtaddressStart) 0x400000000 0x10 :=
  have hread : lastRead twoRanges.mbsp twoRanges.mem (0x5000 + krnlMapVirtaddressStart)
      0x400000000 0x10 = none := by decide +kernel
  ⟨by decide, by decide +kernel, hread, fun h => h.read hread⟩

end Cosmos.Hal
