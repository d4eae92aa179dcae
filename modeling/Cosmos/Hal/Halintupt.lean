import Cosmos.Hal.Halgdtidt
import Cosmos.Hal.I8259
import Cosmos.Lib.Run

/-!
# Hardware interrupts

From a line of the controller to the handlers of the devices: `halintupt.c`, `krlintupt.c` and
the interrupt table.  An interrupt that gets through the masks goes to the gate of its vector,
the code at the address in the gate calls `hal_hwint_allocator` with its own number, and
`hal_do_hwint` runs the handlers that `krladd_irqhandle` has put in the list of that number.

The handlers change neither lines nor lists, like those of the two drivers.  `krlnew` may have no
memory.  What `i8259_send_eoi` sends, and the flags of the CPU, are left out.  An index that
`hal_retn_intfltdsc` lets through though `machintflt` does not have it is an error.

## Main results

* `interrupts_served` : over any run, the handlers called are those that the history asks for.
-/

namespace Cosmos.Hal

open Cosmos.Lib.Run

/-- `IDTMAX`, the length of `machintflt`. -/
abbrev idtmax : Nat := 256

/-- `intserdsc_t`.  A device and a handler are addresses. -/
structure Intserdsc where
  sFlg : Nat
  sIntfltp : Nat
  sIndx : Nat
  sDevice : Nat
  sHandle : Nat
deriving DecidableEq, Repr

/-- `intfltdsc_t`. -/
structure Intfltdsc where
  iFlg : Nat
  iStus : Nat
  iPrity : Nat
  iIrqnr : Nat
  iDeep : Nat
  iIndx : Nat
  iSerlist : List Intserdsc
  iSernr : Nat
deriving DecidableEq, Repr

/-- A call of a handler: `s_handle(ifdnr, s_device, sframe)`. -/
structure HandleCall where
  sHandle : Nat
  ifdnr : Nat
  sDevice : Nat
deriving DecidableEq, Repr

/-- The controller, `machintflt`, and the calls of handlers so far. -/
structure IntSt where
  ctl : I8259
  machintflt : Nat → Intfltdsc
  calls : List HandleCall

/-- `intfltdsc_t_init`. -/
def intfltdscInit (flg sts prity irq : Nat) : Intfltdsc where
  iFlg := flg
  iStus := sts
  iPrity := prity
  iIrqnr := irq
  iDeep := 0
  iIndx := 0
  iSerlist := []
  iSernr := 0

/-- `init_halintupt`, the interrupt table apart. -/
def initHalintupt : IntSt where
  ctl := initI8259
  machintflt i := intfltdscInit 0 0 i i
  calls := []

/-- `hal_retn_intfltdsc`: the index of the descriptor. -/
def halRetnIntfltdsc (irqnr : Nat) : Option Nat := if idtmax < irqnr then none else some irqnr

/-- The descriptor at an index. -/
def IntSt.at (st : IntSt) (i : Nat) : Except String Intfltdsc :=
  if i < idtmax then .ok (st.machintflt i) else .error "behind machintflt"

/-- A descriptor is written. -/
def IntSt.setFlt (st : IntSt) (i : Nat) (d : Intfltdsc) : IntSt :=
  { st with machintflt := Function.update st.machintflt i d }

/-- `intserdsc_t_init`. -/
def intserdscInit (flg intfltp device handle : Nat) : Intserdsc where
  sFlg := flg
  sIntfltp := intfltp
  sIndx := 0
  sDevice := device
  sHandle := handle

/-- `hal_add_ihandle`. -/
def halAddIhandle (st : IntSt) (intdscp : Nat) (serdscp : Intserdsc) : Except String IntSt := do
  let d ← st.at intdscp
  return st.setFlt intdscp
    { d with iSerlist := serdscp :: d.iSerlist, iSernr := (d.iSernr + 1) % 2 ^ 64 }

/-- `krladd_irqhandle`; `mem` says whether `krlnew` has memory. -/
def krladdIrqhandle (st : IntSt) (device handle phyiline : Nat) (mem : Bool) :
    Except String IntSt :=
  if device = 0 ∨ handle = 0 then .ok st
  else match halRetnIntfltdsc phyiline with
    | none => .ok st
    | some intp =>
        if mem then halAddIhandle st intp (intserdscInit 0 intp device handle) else .ok st

/-- `hal_run_intflthandle`. -/
def halRunIntflthandle (st : IntSt) (ifdnr : Nat) : Except String IntSt :=
  match halRetnIntfltdsc ifdnr with
  | none => .error "hal_run_intfdsc err"
  | some i => do
      let d ← st.at i
      return { st with
        calls := st.calls ++ d.iSerlist.map fun s => ⟨s.sHandle, ifdnr, s.sDevice⟩ }

/-- `hal_do_hwint`. -/
def halDoHwint (st : IntSt) (intnumb : Nat) : Except String IntSt :=
  if idtmax < intnumb then .error "hal_do_hwint fail\n"
  else match halRetnIntfltdsc intnumb with
    | none => .error "hal_do_hwint ifdscp NULL\n"
    | some i => do
        let d ← st.at i
        let st := st.setFlt i { d with
          iIndx := (d.iIndx + 1) % 2 ^ 64, iDeep := (d.iDeep + 1) % 2 ^ 64 }
        let st ← halRunIntflthandle st intnumb
        let d ← st.at i
        return st.setFlt i { d with iDeep := (d.iDeep + 2 ^ 64 - 1) % 2 ^ 64 }

/-- All labels. -/
def Label.all : List Label :=
  [.excDivideError, .excSingleStepException, .excNmi, .excBreakpointException, .excOverflow,
   .excBoundsCheck, .excInvalOpcode, .excCoprNotAvailable, .excDoubleFault, .excCoprSegOverrun,
   .excInvalTss, .excSegmentNotPresent, .excStackException, .excGeneralProtection,
   .excPageFault, .excCoprError, .excAlignmentCheck, .excMachineCheck, .excSimdFault,
   .hxiExcGeneralIntpfault] ++ (List.finRange 24).map .hxiHwint ++
  [.hxiApicIpiSchedul, .hxiApicSvr, .hxiApicTimer, .hxiApicThermal, .hxiApicPerformonitor,
   .hxiApicLint0, .hxiApicLint1, .hxiApicError, .exiSysCall]

/-- The CPU takes an interrupt of the controller: it goes on at the address in the gate. -/
def takeInterrupt (adr : Label → BitVec 64) (idt : Nat → Gate) (st : IntSt) (v : Nat) :
    Except String IntSt :=
  match Label.all.find? (adr · = (idt v).offset) with
  | none => .error "no code there"
  | some l => match l.code with
    | .harwint nr => halDoHwint st nr
    | _ => .error "not a hardware interrupt"

/-- What can happen. -/
inductive IntEv where
  | enable (ifdnr : Nat)
  | disable (ifdnr : Nat)
  | addIrqhandle (device handle phyiline : Nat) (mem : Bool)
  /-- a device asks for an interrupt on its line, and the CPU has its interrupts on -/
  | line (n : Fin 16)
deriving DecidableEq, Repr

/-- One event. -/
def intStep (adr : Label → BitVec 64) (idt : Nat → Gate) (st : IntSt) :
    IntEv → Except String IntSt
  | .enable ifdnr => .ok { st with ctl := (halEnableIntline st.ctl ifdnr).getD st.ctl }
  | .disable ifdnr => .ok { st with ctl := (halDisableIntline st.ctl ifdnr).getD st.ctl }
  | .addIrqhandle device handle phyiline mem => krladdIrqhandle st device handle phyiline mem
  | .line n => if st.ctl.opens n then takeInterrupt adr idt st (st.ctl.vector n) else .ok st

/-! ## What a history asks for

A history has its last event first. -/

/-- The mask of a line: what the last call said that touches it. -/
def shut (n : Nat) : List IntEv → Bool
  | [] => true
  | .enable ifdnr :: h =>
      if 20 ≤ ifdnr ∧ ifdnr ≤ 36 ∧ touches n (ifdnr - 20) then false else shut n h
  | .disable ifdnr :: h =>
      if 20 ≤ ifdnr ∧ ifdnr ≤ 36 ∧ touches n (ifdnr - 20) then true else shut n h
  | _ :: h => shut n h

/-- Interrupts of the line get through. -/
def passes (n : Nat) (h : List IntEv) : Bool := !shut n h && (n < 8 || !shut 2 h)

/-- The registration is good, and goes to the list of a number. -/
def IntEv.adds : IntEv → Option Intserdsc
  | .addIrqhandle device handle phyiline mem =>
      if device ≠ 0 ∧ handle ≠ 0 ∧ phyiline ≤ idtmax ∧ mem then
        some (intserdscInit 0 phyiline device handle) else none
  | _ => none

/-- The handlers of a number, the newest one first. -/
def handlers (v : Nat) (h : List IntEv) : List Intserdsc :=
  (h.filterMap IntEv.adds).filter (·.sIntfltp = v)

/-- The calls that the interrupts so far make: each runs the handlers that its number had. -/
def asked : List IntEv → List HandleCall
  | [] => []
  | .line n :: h => asked h ++ if passes n h then
      (handlers (0x20 + n) h).map fun s => ⟨s.sHandle, 0x20 + n, s.sDevice⟩ else []
  | _ :: h => asked h

/-- How many interrupts of a number got through. -/
def taken (v : Nat) : List IntEv → Nat
  | [] => 0
  | .line n :: h => taken v h + if passes n h ∧ v = 0x20 + n.val then 1 else 0
  | _ :: h => taken v h

/-- The registration is not for the number behind the table. -/
def IntEv.InTable (e : IntEv) : Prop := ∀ s ∈ e.adds, s.sIntfltp ≠ idtmax

instance (e : IntEv) : Decidable e.InTable :=
  inferInstanceAs (Decidable (∀ s ∈ e.adds, s.sIntfltp ≠ idtmax))

/-- The state is what the history asks for. -/
structure Serves (h : List IntEv) (st : IntSt) : Prop where
  vectors : st.ctl.intmVector = zicw2 ∧ st.ctl.intsVector = sicw2
  masked : ∀ n < 16, st.ctl.masked n = shut n h
  serlist : ∀ v < idtmax, (st.machintflt v).iSerlist = handlers v h
  sernr : ∀ v < idtmax, (st.machintflt v).iSernr = (handlers v h).length % 2 ^ 64
  indx : ∀ v < idtmax, (st.machintflt v).iIndx = taken v h % 2 ^ 64
  deep : ∀ v < idtmax, (st.machintflt v).iDeep = 0
  calls : st.calls = asked h

variable {adr : Label → BitVec 64} {idt : Nat → Gate} {st st' : IntSt} {h : List IntEv}

/-! ## From a line to its number -/

theorem Label.mem_all (l : Label) : l ∈ Label.all := by
  cases l with
  | hxiHwint nr =>
      apply List.mem_append_left
      apply List.mem_append_right
      exact List.mem_map.mpr ⟨nr, List.mem_finRange nr, rfl⟩
  | _ => decide

theorem find_label (hadr : Function.Injective adr) (l : Label) :
    Label.all.find? (adr · = adr l) = some l := by
  cases hfind : Label.all.find? (adr · = adr l) with
  | none => simpa using List.find?_eq_none.mp hfind l l.mem_all
  | some l' =>
      have heq := List.find?_some hfind
      rw [hadr (of_decide_eq_true heq)]

/-- **The code of the gate** of a hardware interrupt calls `hal_do_hwint` with its number. -/
theorem takeInterrupt_eq (hadr : Function.Injective adr) {v : Nat} (hlo : 0x20 ≤ v)
    (hhi : v < 0x38) :
    takeInterrupt adr (initIdtDescriptor adr idt) st v = halDoHwint st v := by
  obtain ⟨l, hcode, hoff, -⟩ := gate_code adr idt ⟨v, by omega⟩
  have hint : codeOf v = .harwint v := by
    unfold codeOf
    rw [if_neg (by omega), if_pos (by omega)]
  simp only [takeInterrupt, hoff, find_label hadr, hcode, hint]

/-- What `hal_do_hwint` does. -/
theorem halDoHwint_eq {v : Nat} (hv : v < idtmax) (hdeep : (st.machintflt v).iDeep = 0) :
    halDoHwint st v = .ok { st with
      machintflt := Function.update st.machintflt v { st.machintflt v with
        iIndx := ((st.machintflt v).iIndx + 1) % 2 ^ 64 }
      calls := st.calls ++
        (st.machintflt v).iSerlist.map fun s => ⟨s.sHandle, v, s.sDevice⟩ } := by
  have hle : ¬ idtmax < v := by omega
  have hzero : ((0 + 1) % 2 ^ 64 + 2 ^ 64 - 1) % 2 ^ 64 = 0 := by decide
  simp only [halDoHwint, halRunIntflthandle, halRetnIntfltdsc, if_neg hle, IntSt.at, if_pos hv,
    IntSt.setFlt, bind, Except.bind, pure, Except.pure, Function.update_self,
    Function.update_idem, hdeep, hzero]

/-! ## Steps -/

theorem handlers_of_none {v : Nat} {e : IntEv} (he : e.adds = none) :
    handlers v (e :: h) = handlers v h := by
  simp [handlers, he]

theorem handlers_of_eq {v : Nat} {e : IntEv} {s : Intserdsc} (he : e.adds = some s)
    (hv : s.sIntfltp = v) : handlers v (e :: h) = s :: handlers v h := by
  simp [handlers, he, hv]

theorem handlers_of_ne {v : Nat} {e : IntEv} {s : Intserdsc} (he : e.adds = some s)
    (hne : s.sIntfltp ≠ v) : handlers v (e :: h) = handlers v h := by
  simp [handlers, he, hne]

theorem Serves.opens (hs : Serves h st) {n : Nat} (hn : n < 16) :
    st.ctl.opens n = passes n h := by
  unfold I8259.opens passes
  rw [hs.masked n hn, hs.masked 2 (by decide)]

theorem Serves.vector (hs : Serves h st) {n : Nat} : st.ctl.vector n = 0x20 + n := by
  unfold I8259.vector
  rw [hs.vectors.1, hs.vectors.2]
  split
  · rfl
  · show 0x28 + (n - 8) = 0x20 + n
    omega

/-- A call about a line. -/
theorem Serves.lines (hs : Serves h st) {c : I8259} {e : IntEv}
    (hv : c.intmVector = st.ctl.intmVector ∧ c.intsVector = st.ctl.intsVector)
    (hmasked : ∀ n < 16, c.masked n = shut n (e :: h)) (hadds : e.adds = none)
    (htaken : ∀ v, taken v (e :: h) = taken v h) (hasked : asked (e :: h) = asked h) :
    Serves (e :: h) { st with ctl := c } where
  vectors := ⟨hv.1.trans hs.vectors.1, hv.2.trans hs.vectors.2⟩
  masked := hmasked
  serlist v hlt := by
    rw [handlers_of_none hadds]
    exact hs.serlist v hlt
  sernr v hlt := by
    rw [handlers_of_none hadds]
    exact hs.sernr v hlt
  indx v hlt := by
    rw [htaken]
    exact hs.indx v hlt
  deep := hs.deep
  calls := by rw [hasked]; exact hs.calls

theorem Serves.enable (hs : Serves h st) (ifdnr : Nat) :
    Serves (.enable ifdnr :: h)
      { st with ctl := (halEnableIntline st.ctl ifdnr).getD st.ctl } := by
  refine hs.lines ?_ (fun n hn => ?_) rfl (fun v => rfl) rfl
  · unfold halEnableIntline i8259EnabledLine
    split
    · exact ⟨rfl, rfl⟩
    · simp only [Option.getD_some]
      split <;> exact ⟨rfl, rfl⟩
  · have hm := hs.masked n hn
    simp only [halEnableIntline, shut]
    by_cases hr : ifdnr < 20 ∨ 36 < ifdnr
    · rw [if_pos hr, if_neg (by omega)]
      exact hm
    · have hin : 20 ≤ ifdnr ∧ ifdnr ≤ 36 := by omega
      rw [if_neg hr, Option.getD_some, masked_enabledLine _ hn, hm]
      cases touches n (ifdnr - 20) <;> simp [hin]

theorem Serves.disable (hs : Serves h st) (ifdnr : Nat) :
    Serves (.disable ifdnr :: h)
      { st with ctl := (halDisableIntline st.ctl ifdnr).getD st.ctl } := by
  refine hs.lines ?_ (fun n hn => ?_) rfl (fun v => rfl) rfl
  · unfold halDisableIntline i8259DisableLine
    split
    · exact ⟨rfl, rfl⟩
    · simp only [Option.getD_some]
      split <;> exact ⟨rfl, rfl⟩
  · have hm := hs.masked n hn
    simp only [halDisableIntline, shut]
    by_cases hr : ifdnr < 20 ∨ 36 < ifdnr
    · rw [if_pos hr, if_neg (by omega)]
      exact hm
    · have hin : 20 ≤ ifdnr ∧ ifdnr ≤ 36 := by omega
      rw [if_neg hr, Option.getD_some, masked_disableLine _ hn, hm]
      cases touches n (ifdnr - 20) <;> simp [hin]

/-- A registration that adds nothing. -/
theorem Serves.notAdded (hs : Serves h st) {device handle phyiline : Nat} {mem : Bool}
    (hadds : (IntEv.addIrqhandle device handle phyiline mem).adds = none) :
    Serves (.addIrqhandle device handle phyiline mem :: h) st :=
  hs.lines ⟨rfl, rfl⟩ hs.masked hadds (fun _ => rfl) rfl

/-- A registration in the table. -/
theorem Serves.added (hs : Serves h st) {device handle phyiline : Nat} {mem : Bool}
    (hadds : (IntEv.addIrqhandle device handle phyiline mem).adds =
      some (intserdscInit 0 phyiline device handle)) :
    Serves (.addIrqhandle device handle phyiline mem :: h) (st.setFlt phyiline
      { st.machintflt phyiline with
        iSerlist := intserdscInit 0 phyiline device handle :: (st.machintflt phyiline).iSerlist
        iSernr := ((st.machintflt phyiline).iSernr + 1) % 2 ^ 64 }) where
  vectors := hs.vectors
  masked := hs.masked
  serlist v hlt := by
    by_cases hv : phyiline = v
    · subst hv
      rw [handlers_of_eq (v := phyiline) hadds rfl]
      simp [IntSt.setFlt, intserdscInit, hs.serlist _ hlt]
    · rw [handlers_of_ne hadds hv, ← hs.serlist v hlt]
      simp [IntSt.setFlt, Ne.symm hv]
  sernr v hlt := by
    by_cases hv : phyiline = v
    · subst hv
      rw [handlers_of_eq (v := phyiline) hadds rfl]
      simp [IntSt.setFlt, intserdscInit, hs.sernr _ hlt]
    · rw [handlers_of_ne hadds hv, ← hs.sernr v hlt]
      simp [IntSt.setFlt, Ne.symm hv]
  indx v hlt := by
    show _ = taken v h % 2 ^ 64
    rw [← hs.indx v hlt]
    by_cases hv : v = phyiline
    · subst hv
      simp [IntSt.setFlt]
    · simp [IntSt.setFlt, hv]
  deep v hlt := by
    rw [← hs.deep v hlt]
    by_cases hv : v = phyiline
    · subst hv
      simp [IntSt.setFlt]
    · simp [IntSt.setFlt, hv]
  calls := hs.calls

/-- An interrupt that gets through. -/
theorem Serves.interrupted (hs : Serves h st) {n : Fin 16} (hpass : passes n h = true) :
    ∃ st', halDoHwint st (0x20 + n) = .ok st' ∧ Serves (.line n :: h) st' := by
  have hlt : 0x20 + n.val < idtmax := by
    show 0x20 + n.val < 256
    omega
  refine ⟨_, halDoHwint_eq hlt (hs.deep _ hlt), ?_⟩
  constructor
  case vectors => exact hs.vectors
  case masked => exact hs.masked
  case calls => simp [asked, hpass, hs.calls, hs.serlist _ hlt]
  case indx =>
    intro v hv
    by_cases he : v = 0x20 + n.val
    · subst he
      simp [taken, hpass, hs.indx _ hv]
    · simp [he, taken, hs.indx _ hv]
  case serlist =>
    intro v hv
    rw [handlers_of_none rfl, ← hs.serlist v hv]
    by_cases he : v = 0x20 + n.val
    · subst he
      simp
    · simp [he]
  case sernr =>
    intro v hv
    rw [handlers_of_none rfl, ← hs.sernr v hv]
    by_cases he : v = 0x20 + n.val
    · subst he
      simp
    · simp [he]
  case deep =>
    intro v hv
    rw [← hs.deep v hv]
    by_cases he : v = 0x20 + n.val
    · subst he
      simp
    · simp [he]

/-- A line that does not get through. -/
theorem Serves.blocked (hs : Serves h st) {n : Fin 16} (hpass : ¬ passes n h = true) :
    Serves (.line n :: h) st :=
  hs.lines ⟨rfl, rfl⟩ hs.masked rfl (fun v => by simp [taken, hpass]) (by simp [asked, hpass])

/-- **A registration**: refused, in the table, or behind it. -/
theorem krladdIrqhandle_cases (st : IntSt) (device handle phyiline : Nat) (mem : Bool) :
    ((IntEv.addIrqhandle device handle phyiline mem).adds = none ∧
      krladdIrqhandle st device handle phyiline mem = .ok st) ∨
    (IntEv.addIrqhandle device handle phyiline mem).adds =
        some (intserdscInit 0 phyiline device handle) ∧
      (phyiline < idtmax ∧
        krladdIrqhandle st device handle phyiline mem = .ok (st.setFlt phyiline
          { st.machintflt phyiline with
            iSerlist := intserdscInit 0 phyiline device handle ::
              (st.machintflt phyiline).iSerlist
            iSernr := ((st.machintflt phyiline).iSernr + 1) % 2 ^ 64 }) ∨
      phyiline = idtmax ∧
        krladdIrqhandle st device handle phyiline mem = .error "behind machintflt") := by
  unfold krladdIrqhandle halRetnIntfltdsc
  by_cases h0 : device = 0 ∨ handle = 0
  · exact .inl ⟨if_neg fun hall => h0.elim hall.1 hall.2.1, if_pos h0⟩
  rw [if_neg h0]
  obtain ⟨hd, hh⟩ := not_or.mp h0
  by_cases hi : idtmax < phyiline
  · rw [if_pos hi]
    exact .inl ⟨if_neg fun hall => absurd hall.2.2.1 (Nat.not_le_of_lt hi), rfl⟩
  rw [if_neg hi]
  cases mem with
  | false => exact .inl ⟨if_neg fun hall => absurd hall.2.2.2 (by decide), rfl⟩
  | true =>
      refine .inr ⟨if_pos ⟨hd, hh, Nat.le_of_not_lt hi, rfl⟩, ?_⟩
      by_cases hlt : phyiline < idtmax
      · refine .inl ⟨hlt, ?_⟩
        simp [halAddIhandle, IntSt.at, hlt, bind, Except.bind, pure, Except.pure]
      · refine .inr ⟨by omega, ?_⟩
        simp [halAddIhandle, IntSt.at, hlt, bind, Except.bind]

/-- **One event.** -/
theorem intStep_serves (hadr : Function.Injective adr) (idt : Nat → Gate) (hs : Serves h st)
    (e : IntEv) :
    (e.InTable ∧ ∃ st', intStep adr (initIdtDescriptor adr idt) st e = .ok st' ∧
      Serves (e :: h) st') ∨
    ¬ e.InTable ∧ ∃ msg, intStep adr (initIdtDescriptor adr idt) st e = .error msg := by
  cases e with
  | enable ifdnr => exact .inl ⟨by simp [IntEv.InTable, IntEv.adds], _, rfl, hs.enable ifdnr⟩
  | disable ifdnr => exact .inl ⟨by simp [IntEv.InTable, IntEv.adds], _, rfl, hs.disable ifdnr⟩
  | addIrqhandle device handle phyiline mem =>
      obtain ⟨hadds, heq⟩ | ⟨hadds, ⟨hlt, heq⟩ | ⟨hlast, heq⟩⟩ :=
        krladdIrqhandle_cases st device handle phyiline mem
      · exact .inl ⟨by simp [IntEv.InTable, hadds], st, heq, hs.notAdded hadds⟩
      · refine .inl ⟨?_, _, heq, hs.added hadds⟩
        simpa [IntEv.InTable, hadds, intserdscInit] using Nat.ne_of_lt hlt
      · exact .inr ⟨fun hin => hin _ hadds hlast, _, heq⟩
  | line n =>
      refine .inl ⟨by simp [IntEv.InTable, IntEv.adds], ?_⟩
      simp only [intStep, hs.opens n.isLt, hs.vector]
      by_cases hpass : passes n h = true
      · rw [if_pos hpass, takeInterrupt_eq hadr (by omega) (by omega)]
        exact hs.interrupted hpass
      · rw [if_neg hpass]
        exact ⟨st, rfl, hs.blocked hpass⟩

theorem initHalintupt_serves : Serves [] initHalintupt where
  vectors := ⟨rfl, rfl⟩
  masked _ hn := masked_init hn
  serlist _ _ := rfl
  sernr _ _ := rfl
  indx _ _ := rfl
  deep _ _ := rfl
  calls := rfl

theorem run_serves (hadr : Function.Injective adr) (evs : List IntEv) (hs : Serves h st) :
    (∀ e ∈ evs, e.InTable) ↔
      ∃ st', run (intStep adr (initIdtDescriptor adr idt)) evs st = .ok st' ∧
        Serves (evs.reverse ++ h) st' := by
  induction evs generalizing h st with
  | nil => simpa using hs
  | cons e evs ih =>
      obtain ⟨hin, st', hstep, hs'⟩ | ⟨hout, msg, hstep⟩ := intStep_serves hadr idt hs e
      · rw [run_cons_ok hstep, List.reverse_cons, List.append_assoc, List.singleton_append,
          ← ih hs']
        simp [hin]
      · simp [run, hstep, hout]

/-- **The handlers that run.**  Wherever the labels are, and for any calls of the devices and any
interrupts in any order, the events can be taken exactly if no handler is registered for the
number behind `machintflt`.  The handlers called so far are then those asked for: each interrupt
of a line that the last calls have left open runs every handler of its number once, the newest
one first.  The counters of `machintflt` agree, and none is left inside a handler. -/
theorem interrupts_served (hadr : Function.Injective adr) (idt : Nat → Gate)
    (evs : List IntEv) :
    (∀ e ∈ evs, e.InTable) ↔
      ∃ st, run (intStep adr (initIdtDescriptor adr idt)) evs initHalintupt = .ok st ∧
        Serves evs.reverse st := by
  simpa using run_serves hadr evs initHalintupt_serves

/-- The labels one behind the other, each at a multiple of 16. -/
def alignedAdr (l : Label) : BitVec 64 := BitVec.ofNat 64 (16 * Label.all.idxOf l)

theorem alignedAdr_injective : Function.Injective alignedAdr := by
  intro l l' heq
  have hlen : Label.all.length = 53 := by decide
  have hl := List.idxOf_lt_length_iff.mpr l.mem_all
  have hl' := List.idxOf_lt_length_iff.mpr l'.mem_all
  have hnat := congrArg BitVec.toNat heq
  simp only [alignedAdr, BitVec.toNat_ofNat] at hnat
  have hidx : Label.all.idxOf l = Label.all.idxOf l' := by omega
  rw [← List.getElem_idxOf hl, ← List.getElem_idxOf hl']
  simp only [hidx]

/-- The keyboard and another device share a number; the keyboard line is opened between two
interrupts. -/
theorem interrupts_served_keyboard :
    ∃ st, run (intStep alignedAdr (initIdtDescriptor alignedAdr fun _ => gate 0 0 0))
        [.addIrqhandle 1 2 0x21 true, .line 1, .enable 21, .addIrqhandle 3 4 0x21 true, .line 1]
        initHalintupt = .ok st ∧
      st.calls = [⟨4, 0x21, 3⟩, ⟨2, 0x21, 1⟩] := by
  obtain ⟨st, hrun, hs⟩ := (interrupts_served alignedAdr_injective (fun _ => gate 0 0 0)
    [.addIrqhandle 1 2 0x21 true, .line 1, .enable 21, .addIrqhandle 3 4 0x21 true,
      .line 1]).mp (by decide)
  exact ⟨st, hrun, hs.calls.trans (by decide)⟩

end Cosmos.Hal
