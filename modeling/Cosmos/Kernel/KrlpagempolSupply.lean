import Cosmos.Kernel.KrlpagempolRun
import Cosmos.Lib.Supply

/-!
# `krlnew` is a supply

Devices and the driver that makes them take their memory from a supply of addresses.  To each of
its users `krlnew` is one, whatever sizes they ask for, and whatever the users of the object and
page allocators do below it.

## Main results

* `krlnew_supplied` : what is said to a user is what a supply says.
-/

namespace Cosmos.Kernel

open Cosmos.Hal Cosmos.Lib Cosmos.Lib.Run

/-- What a call says. -/
def krlEv (st : KrlState) : KrlOp → Option (Exchange Nat)
  | .new mmsize =>
      match st.mem.krlnew mmsize with
      | .error _ => none
      | .ok r => some (.take r.2)
  | .delete fradr _ => some (.give fradr)
  | .other _ => none

/-- The address of memory in use. -/
def KrlState.HasMem (st : KrlState) (p : Nat) : Prop := ∃ o ∈ st.live, o.1 = p

section Steps

variable {b : BootArray}

/-- Memory in use has bytes, and does not overlap. -/
theorem KrlState.Inv.addr_ne {st : KrlState} (h : st.Inv b) :
    st.live.Pairwise fun o o' => o.1 ≠ o'.1 := by
  have hapart := (List.pairwise_append.mp h.memApart.apart).1
  obtain ⟨segs, lay, hinv⟩ := h
  refine hapart.imp_of_mem fun {o o'} ho ho' hd he => ?_
  have hpos := (hinv.sizes o ho).1
  have hpos' := (hinv.sizes o' ho').1
  unfold Disj at hd
  omega

/-- **One call.** -/
theorem krlStep_supplies (st : KrlState) (op : KrlOp) (st' : KrlState) (h : st.Inv b)
    (hfair : KrlFair st op) (hstep : krlStep st op = .ok st') :
    st'.Inv b ∧ Supplies (krlEv st op) st.HasMem st'.HasMem := by
  have hinv := krlStep_inv st op st' h hfair hstep
  refine ⟨hinv, ?_⟩
  have hne := hinv.addr_ne
  cases op with
  | new mmsize =>
      simp only [krlStep] at hstep
      split at hstep
      · cases hstep
      · rename_i m' hrun
        cases hstep
        simp only [krlEv, hrun]
        exact .silent (fun x hx => by cases hx) fun x hx => hx
      · rename_i m' p hrun
        cases hstep
        simp only [krlEv, hrun]
        constructor
        · intro x hx
          cases hx
          refine ⟨?_, (p, mmsize), List.mem_cons_self, rfl⟩
          rintro ⟨o, ho, rfl⟩
          exact (List.pairwise_cons.mp hne).1 o ho rfl
        · rintro x ⟨o, ho, rfl⟩ -
          exact ⟨o, List.mem_cons_of_mem _ ho, rfl⟩
  | delete fradr frsz =>
      constructor
      · intro x hx
        cases hx
      · rintro x ⟨o, ho, rfl⟩ hx
        refine ⟨o, ?_, rfl⟩
        simp only [krlStep] at hstep
        split at hstep
        · cases hstep
        · cases hstep
          refine (List.mem_erase_of_ne fun he => hx ?_).mpr ho
          rw [krlEv, he]
  | other op =>
      simp only [krlStep] at hstep
      split at hstep
      · cases hstep
      · cases hstep
        exact .silent (fun x hx => by cases hx) fun x hx => hx

/-- **To its users `krlnew` is a supply.** -/
theorem krlnew_supplied {s : KrlState} (hs : s.Start b) {ops : List (Bool × KrlOp)}
    {t : Using KrlState Nat}
    (hall : AllSteps (userStep krlStep krlEv) (fun s op =>
      KrlFair s.sys op.2 ∧ GivesOwn krlEv s op) ops ⟨s, [], []⟩)
    (hrun : run (userStep krlStep krlEv) ops ⟨s, [], []⟩ = .ok t) :
    ∃ u u' : Supply Nat, u.out = [] ∧ Supply.exchanges t.said u = some u' ∧ u'.out = t.mine :=
  Supplies.supply krlStep_supplies hs.inv hall hrun

end Steps

end Cosmos.Kernel
