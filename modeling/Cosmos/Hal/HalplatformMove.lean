import Cosmos.Initldr.Fs

/-!
# The kernel moves the image

`move_img2maxpadr` of `halplatform.c`: the kernel copies the image to the end of the
highest usable range that it maps and that is large enough.

## Main results

* `moveImg2maxpadr_ok`: a move that succeeds copies `mb_imgsz` bytes to a place that is
  mapped, and sets `mb_imgpadr` to it.
-/

namespace Cosmos.Hal

open Cosmos.Lib.Copy Cosmos.Lib.Word64 Cosmos.Initldr

/-- `initchkadr_is_ok`. -/
def initchkadrIsOk (mbsp : Machbstart) (chkadr cksz : Nat) : Int :=
  if adrzoneIsOk (sub64 mbsp.mbKrlinitstack mbsp.mbKrlitstacksz) mbsp.mbKrlitstacksz
      chkadr cksz ≠ 0 then -1
  else if adrzoneIsOk mbsp.mbImgpadr mbsp.mbImgsz chkadr cksz ≠ 0 then -2
  else if adrzoneIsOk mbsp.mbKrlimgpadr mbsp.mbKrlsz chkadr cksz ≠ 0 then -3
  else if adrzoneIsOk mbsp.mbBfontpadr mbsp.mbBfontsz chkadr cksz ≠ 0 then -4
  else if adrzoneIsOk mbsp.mbE820padr mbsp.mbE820sz chkadr cksz ≠ 0 then -5
  else if adrzoneIsOk mbsp.mbMemznpadr mbsp.mbMemznsz chkadr cksz ≠ 0 then -6
  else if adrzoneIsOk mbsp.mbMemmappadr mbsp.mbMemmapsz chkadr cksz ≠ 0 then -7
  else if adrzoneIsOk mbsp.mbE820expadr mbsp.mbE820exsz chkadr cksz ≠ 0 then -8
  else if mbsp.mbKpmapphymemsz ≤ add64 chkadr cksz then -9
  else 0

/-- The loop of `ret_kmaxmpadrcmpsz_e820map` from entry `i` on, with `retemp` the entry that
was chosen last. -/
def kmaxmpadrLoop (emp : Nat → E820map) (mappadr cpsz : Nat) :
    Nat → Nat → Nat → Option E820map → Option E820map
  | 0, _, _, retemp => retemp
  | n + 1, i, maxadr, retemp =>
      if (emp i).type = ramUsable ∧ maxadr ≤ (emp i).saddr ∧
          add64 (emp i).saddr (emp i).lsize < mappadr ∧ cpsz ≤ (emp i).lsize then
        kmaxmpadrLoop emp mappadr cpsz n (i + 1) (emp i).saddr (some (emp i))
      else kmaxmpadrLoop emp mappadr cpsz n (i + 1) maxadr retemp

/-- `ret_kmaxmpadrcmpsz_e820map`.  When no entry was chosen it looks at an entry at address 0,
and returns `NULL` whatever it finds there. -/
def retKmaxmpadrcmpszE820map (mbsp : Machbstart) (f : Nat → UInt8) (mappadr cpsz : Nat) :
    Except String (Option E820map) := do
  let emp ← phyadrToViradr mbsp.mbE820padr
  let e820 := fun i => e820At f (emp + sizeofE820map * i)
  match kmaxmpadrLoop e820 mappadr cpsz mbsp.mbE820nr 0 (e820 0).saddr none with
  | none => return none
  | some retemp =>
      if add64 retemp.saddr retemp.lsize < mappadr ∧ cpsz ≤ retemp.lsize then return some retemp
      else return none

/-- A cast to the `sint_t` of the kernel. -/
def sint64 (x : Nat) : Int := if x % 2 ^ 64 < 2 ^ 63 then x % 2 ^ 64 else (x % 2 ^ 64 : Int) - 2 ^ 64

/-- The start parameters and the memory, by virtual address. -/
structure Krnl where
  mbsp : Machbstart
  mem : Nat → UInt8

/-- `move_img2maxpadr`. -/
def moveImg2maxpadr (s : Krnl) : Except String Krnl := do
  let imgsz := s.mbsp.mbImgsz
  match ← retKmaxmpadrcmpszE820map s.mbsp s.mem s.mbsp.mbKpmapphymemsz imgsz with
  | none => throw "move_img2maxpadr1 emp not ok"
  | some emp =>
      let imgtoadr := add64 emp.saddr (sub64 emp.lsize imgsz)
      let imgtoadr := imgtoadr / 0x1000 * 0x1000
      if initchkadrIsOk s.mbsp imgtoadr imgsz ≠ 0 then throw "initchkadr_is_ok not ok\n"
      let sadr ← phyadrToViradr s.mbsp.mbImgpadr
      let dadr ← phyadrToViradr imgtoadr
      let (mem, ret) := m2mcopy (2 ^ 64) sadr dadr (sint64 imgsz) s.mem
      if ret ≠ sint64 imgsz then throw "move_img2maxpadr1 m2mcopy not ok"
      return { mbsp := { s.mbsp with mbImgpadr := imgtoadr }, mem := mem }

theorem phyadrToViradr_ok {p v : Nat} (h : phyadrToViradr p = .ok v) :
    p < krnlMapPhyaddressEnd ∧ v = p + krnlMapVirtaddressStart := by
  unfold phyadrToViradr at h
  split at h
  · cases h
  · cases h
    exact ⟨by omega, rfl⟩

/-- The last check of `initchkadr_is_ok`. -/
theorem add64_lt_of_initchkadr {mbsp : Machbstart} {chkadr cksz : Nat}
    (h : initchkadrIsOk mbsp chkadr cksz = 0) : add64 chkadr cksz < mbsp.mbKpmapphymemsz := by
  unfold initchkadrIsOk at h
  by_contra hge
  rw [if_pos (Nat.not_lt.mp hge)] at h
  repeat' split at h
  all_goals cases h

/-- **A move that succeeds** copies the image into the memory that is mapped. -/
theorem moveImg2maxpadr_ok {s s' : Krnl} (h : moveImg2maxpadr s = .ok s')
    (hmap : s.mbsp.mbKpmapphymemsz ≤ krnlMapPhyaddressEnd) (hsz : 1 ≤ s.mbsp.mbImgsz)
    (hsmall : s.mbsp.mbImgsz < 2 ^ 32) :
    ∃ toadr, toadr + s.mbsp.mbImgsz ≤ krnlMapPhyaddressEnd ∧
      s' = { mbsp := { s.mbsp with mbImgpadr := toadr }
             mem := moved s.mem (s.mbsp.mbImgpadr + krnlMapVirtaddressStart)
               (toadr + krnlMapVirtaddressStart) s.mbsp.mbImgsz } := by
  have hend : krnlMapPhyaddressEnd = 0x400000000 := rfl
  have hvir : krnlMapVirtaddressStart = 0xffff800000000000 := rfl
  have hsint : sint64 s.mbsp.mbImgsz = (s.mbsp.mbImgsz : Int) := by
    unfold sint64
    rw [if_pos (by omega)]
    omega
  simp only [moveImg2maxpadr, bind, Except.bind] at h
  split at h
  · cases h
  · split at h
    · cases h
    · rename_i emp _
      generalize add64 emp.saddr (sub64 emp.lsize s.mbsp.mbImgsz) / 0x1000 * 0x1000 = toadr at h
      split at h
      · cases h
      · rename_i hchk
        have hlast := add64_lt_of_initchkadr (not_not.mp hchk)
        cases hs : phyadrToViradr s.mbsp.mbImgpadr with
        | error e =>
            rw [hs] at h
            cases h
        | ok sadr =>
            cases hd : phyadrToViradr toadr with
            | error e =>
                rw [hs, hd] at h
                cases h
            | ok dadr =>
                obtain ⟨hsadr, rfl⟩ := phyadrToViradr_ok hs
                obtain ⟨hdadr, rfl⟩ := phyadrToViradr_ok hd
                rw [add64_eq (show _ < 2 ^ 64 by omega)] at hlast
                rw [hs, hd, hsint] at h
                simp only [m2mcopy_eq (M := 2 ^ 64) (f := s.mem) (n := s.mbsp.mbImgsz)
                  (show s.mbsp.mbImgpadr + krnlMapVirtaddressStart ≠ 0 by omega)
                  (show toadr + krnlMapVirtaddressStart ≠ 0 by omega) hsz (by omega) (by omega),
                  ne_eq, not_true_eq_false, if_false] at h
                cases h
                exact ⟨toadr, by omega, rfl⟩

end Cosmos.Hal
