import Mathlib.Algebra.Group.Nat.Defs
import Mathlib.Logic.Function.Basic

/-!
# The interrupt table

`halgdtidt.c`, and the labels of `kernel.asm` that the table leads to.  A label stands for the
code of its macro: which of `hal_fault_allocator`, `hal_hwint_allocator` and
`hal_syscl_allocator` is called, and with which number.

## Main results

* `gate_offset` : the address of a gate is the address it was made with.
* `gate_code` : the code that each of the 256 vectors leads to.
-/

namespace Cosmos.Hal

/-- The labels of `kernel.asm`.  `hxiHwint` stands for `hxi_hwint00` to `hxi_hwint23`. -/
inductive Label where
  | excDivideError | excSingleStepException | excNmi | excBreakpointException | excOverflow
  | excBoundsCheck | excInvalOpcode | excCoprNotAvailable | excDoubleFault | excCoprSegOverrun
  | excInvalTss | excSegmentNotPresent | excStackException | excGeneralProtection | excPageFault
  | excCoprError | excAlignmentCheck | excMachineCheck | excSimdFault
  | hxiExcGeneralIntpfault
  | hxiHwint (nr : Fin 24)
  | hxiApicIpiSchedul | hxiApicSvr | hxiApicTimer | hxiApicThermal | hxiApicPerformonitor
  | hxiApicLint0 | hxiApicLint1 | hxiApicError
  | exiSysCall
deriving DecidableEq, Repr

/-- The macros of `kernel.inc` that handle an interrupt, with their argument. -/
inductive Macro where
  | srftfault (nr : Nat)
  | srftfaultEcode (nr : Nat)
  | harwint (nr : Nat)
  | exiScall
deriving DecidableEq, Repr

/-- The code at a label. -/
def Label.code : Label → Macro
  | excDivideError => .srftfault 0
  | excSingleStepException => .srftfault 1
  | excNmi => .srftfault 2
  | excBreakpointException => .srftfault 3
  | excOverflow => .srftfault 4
  | excBoundsCheck => .srftfault 5
  | excInvalOpcode => .srftfault 6
  | excCoprNotAvailable => .srftfault 7
  | excDoubleFault => .srftfaultEcode 8
  | excCoprSegOverrun => .srftfault 9
  | excInvalTss => .srftfaultEcode 10
  | excSegmentNotPresent => .srftfaultEcode 11
  | excStackException => .srftfaultEcode 12
  | excGeneralProtection => .srftfaultEcode 13
  | excPageFault => .srftfaultEcode 14
  | excCoprError => .srftfault 16
  | excAlignmentCheck => .srftfaultEcode 17
  | excMachineCheck => .srftfault 18
  | excSimdFault => .srftfault 19
  | hxiExcGeneralIntpfault => .srftfault 256
  | hxiHwint nr => .harwint (0x20 + nr.val)
  | hxiApicIpiSchedul => .harwint 0xe0
  | hxiApicSvr => .harwint 0xef
  | hxiApicTimer => .harwint 0xf0
  | hxiApicThermal => .harwint 0xf1
  | hxiApicPerformonitor => .harwint 0xf2
  | hxiApicLint0 => .harwint 0xf3
  | hxiApicLint1 => .harwint 0xf4
  | hxiApicError => .harwint 0xf5
  | exiSysCall => .exiScall

/-! ## Gates -/

/-- `gate_t`. -/
structure Gate where
  offsetLow : BitVec 16
  selector : BitVec 16
  dcount : BitVec 8
  attr : BitVec 8
  offsetHigh : BitVec 16
  offsetHighH : BitVec 32
  offsetResv : BitVec 32
deriving DecidableEq, Repr

/-- `SELECTOR_KERNEL_CS`. -/
abbrev selectorKernelCs : BitVec 16 := 0x08#16

/-- `DA_386IGate`. -/
abbrev da386IGate : BitVec 8 := 0x8E#8

/-- `PRIVILEGE_KRNL`. -/
abbrev privilegeKrnl : BitVec 8 := 0

/-- `PRIVILEGE_USER`. -/
abbrev privilegeUser : BitVec 8 := 3

/-- The gate that `set_idt_desc` makes. -/
def gate (descType : BitVec 8) (handler : BitVec 64) (privilege : BitVec 8) : Gate where
  offsetLow := (handler &&& 0xFFFF#64).truncate 16
  selector := selectorKernelCs
  dcount := 0
  attr := descType ||| privilege <<< 5
  offsetHigh := ((handler >>> 16) &&& 0xFFFF#64).truncate 16
  offsetHighH := ((handler >>> 32) &&& 0xffffffff#64).truncate 32
  offsetResv := 0

/-- `set_idt_desc`. -/
def setIdtDesc (idt : Nat → Gate) (vector : Nat) (descType : BitVec 8) (handler : BitVec 64)
    (privilege : BitVec 8) : Nat → Gate :=
  Function.update idt vector (gate descType handler privilege)

/-- Where the CPU goes on for a gate. -/
def Gate.offset (g : Gate) : BitVec 64 := g.offsetHighH ++ g.offsetHigh ++ g.offsetLow

/-- The gate turns the interrupts off, and `int` reaches it from the privilege `dpl` on. -/
def Gate.interrupt (g : Gate) (dpl : BitVec 2) : Prop :=
  g.attr = 1#1 ++ dpl ++ 0#1 ++ 0xE#4 ∧ g.selector = selectorKernelCs

/-- Masking what is cut off anyway. -/
theorem truncate_and_mask (x : BitVec 64) {k : Nat} (hk : k ≤ 64) :
    (x &&& BitVec.ofNat 64 (2 ^ k - 1)).truncate k = x.truncate k := by
  apply BitVec.eq_of_toNat_eq
  have hpow := Nat.pow_le_pow_right (n := 2) (by decide) hk
  have hpos := Nat.two_pow_pos k
  have hmask : (2 ^ k - 1) % 2 ^ 64 = 2 ^ k - 1 := Nat.mod_eq_of_lt (by omega)
  simp only [BitVec.truncate_eq_setWidth, BitVec.toNat_setWidth, BitVec.toNat_and,
    BitVec.toNat_ofNat, hmask, Nat.and_two_pow_sub_one_eq_mod, Nat.mod_mod]

/-- **The address comes back**, whichever it is. -/
theorem gate_offset (descType : BitVec 8) (handler : BitVec 64) (privilege : BitVec 8) :
    (gate descType handler privilege).offset = handler := by
  have hlow := truncate_and_mask handler (k := 16) (by decide)
  have hmid := truncate_and_mask (handler >>> 16) (k := 16) (by decide)
  have hhigh := truncate_and_mask (handler >>> 32) (k := 32) (by decide)
  simp only [gate, Gate.offset]
  rw [show 0xFFFF#64 = BitVec.ofNat 64 (2 ^ 16 - 1) from rfl, hlow, hmid,
    show 0xffffffff#64 = BitVec.ofNat 64 (2 ^ 32 - 1) from rfl, hhigh]
  apply BitVec.eq_of_toNat_eq
  simp only [BitVec.toNat_append, BitVec.truncate_eq_setWidth, BitVec.toNat_setWidth,
    BitVec.toNat_ushiftRight]
  have hlt := handler.isLt
  rw [← Nat.shiftLeft_add_eq_or_of_lt (by omega), ← Nat.shiftLeft_add_eq_or_of_lt (by omega)]
  simp only [Nat.shiftLeft_eq, Nat.shiftRight_eq_div_pow]
  omega

/-! ## The table -/

/-- The calls of `set_idt_desc` in `init_idt_descriptor` after its loop. -/
def idtCalls : List (Nat × Label × BitVec 8) :=
  [(0x0, .excDivideError, privilegeKrnl),
   (0x1, .excSingleStepException, privilegeKrnl),
   (0x2, .excNmi, privilegeKrnl),
   (0x3, .excBreakpointException, privilegeUser),
   (0x4, .excOverflow, privilegeUser),
   (0x5, .excBoundsCheck, privilegeKrnl),
   (0x6, .excInvalOpcode, privilegeKrnl),
   (0x7, .excCoprNotAvailable, privilegeKrnl),
   (0x8, .excDoubleFault, privilegeKrnl),
   (0x9, .excCoprSegOverrun, privilegeKrnl),
   (0xA, .excInvalTss, privilegeKrnl),
   (0xB, .excSegmentNotPresent, privilegeKrnl),
   (0xC, .excStackException, privilegeKrnl),
   (0xD, .excGeneralProtection, privilegeKrnl),
   (0xE, .excPageFault, privilegeKrnl),
   (0x10, .excCoprError, privilegeKrnl),
   (0x11, .excAlignmentCheck, privilegeKrnl),
   (0x12, .excMachineCheck, privilegeKrnl),
   (0x13, .excSimdFault, privilegeKrnl),
   (0x20 + 0, .hxiHwint 0, privilegeKrnl),
   (0x20 + 1, .hxiHwint 1, privilegeKrnl),
   (0x20 + 2, .hxiHwint 2, privilegeKrnl),
   (0x20 + 3, .hxiHwint 3, privilegeKrnl),
   (0x20 + 4, .hxiHwint 4, privilegeKrnl),
   (0x20 + 5, .hxiHwint 5, privilegeKrnl),
   (0x20 + 6, .hxiHwint 6, privilegeKrnl),
   (0x20 + 7, .hxiHwint 7, privilegeKrnl),
   (0x28 + 0, .hxiHwint 8, privilegeKrnl),
   (0x28 + 1, .hxiHwint 9, privilegeKrnl),
   (0x28 + 2, .hxiHwint 10, privilegeKrnl),
   (0x28 + 3, .hxiHwint 11, privilegeKrnl),
   (0x28 + 4, .hxiHwint 12, privilegeKrnl),
   (0x28 + 5, .hxiHwint 13, privilegeKrnl),
   (0x28 + 6, .hxiHwint 14, privilegeKrnl),
   (0x28 + 7, .hxiHwint 15, privilegeKrnl),
   (0x28 + 8, .hxiHwint 16, privilegeKrnl),
   (0x28 + 9, .hxiHwint 17, privilegeKrnl),
   (0x28 + 10, .hxiHwint 18, privilegeKrnl),
   (0x28 + 11, .hxiHwint 19, privilegeKrnl),
   (0x28 + 12, .hxiHwint 20, privilegeKrnl),
   (0x28 + 13, .hxiHwint 21, privilegeKrnl),
   (0x28 + 14, .hxiHwint 22, privilegeKrnl),
   (0x28 + 15, .hxiHwint 23, privilegeKrnl),
   (0xe0, .hxiApicIpiSchedul, privilegeKrnl),
   (0xef, .hxiApicSvr, privilegeKrnl),
   (0xf0, .hxiApicTimer, privilegeKrnl),
   (0xf1, .hxiApicThermal, privilegeKrnl),
   (0xf2, .hxiApicPerformonitor, privilegeKrnl),
   (0xf3, .hxiApicLint0, privilegeKrnl),
   (0xf4, .hxiApicLint1, privilegeKrnl),
   (0xf5, .hxiApicError, privilegeKrnl),
   (0xFF, .exiSysCall, privilegeUser)]

/-- All calls of `set_idt_desc`, the loop of `init_idt_descriptor` first. -/
def idtDescs : List (Nat × Label × BitVec 8) :=
  (List.range 256).map (fun i => (i, .hxiExcGeneralIntpfault, privilegeKrnl)) ++ idtCalls

/-- `init_idt_descriptor`, with the labels at the addresses `adr`. -/
def initIdtDescriptor (adr : Label → BitVec 64) (idt : Nat → Gate) : Nat → Gate :=
  idtDescs.foldl (fun idt d => setIdtDesc idt d.1 da386IGate (adr d.2.1) d.2.2) idt

/-- The last call for a vector. -/
def idtDesc (v : Nat) : Option (Nat × Label × BitVec 8) := idtDescs.reverse.find? (·.1 = v)

/-- A table keeps of each vector the last entry. -/
theorem foldl_setIdtDesc (adr : Label → BitVec 64) (ds : List (Nat × Label × BitVec 8))
    (idt : Nat → Gate) (v : Nat) :
    ds.foldl (fun idt d => setIdtDesc idt d.1 da386IGate (adr d.2.1) d.2.2) idt v =
      ((ds.reverse.find? (·.1 = v)).map fun d => gate da386IGate (adr d.2.1) d.2.2).getD
        (idt v) := by
  induction ds generalizing idt with
  | nil => rfl
  | cons d ds ih =>
      rw [List.foldl_cons, ih, List.reverse_cons, List.find?_append]
      cases hfind : ds.reverse.find? (·.1 = v) with
      | some e => simp
      | none =>
          by_cases h : d.1 = v
          · subst h
            simp [setIdtDesc]
          · have hne : v ≠ d.1 := fun he => h he.symm
            simp [h, setIdtDesc, Function.update_of_ne hne]

/-- The faults that the CPU pushes an error code for. -/
def pushesEcode (v : Nat) : Bool := v = 8 || (10 ≤ v && v ≤ 14) || v = 17

/-- The code that a vector should lead to: a fault or an interrupt comes with its own number. -/
def codeOf (v : Nat) : Macro :=
  if v < 20 ∧ v ≠ 15 then (if pushesEcode v then .srftfaultEcode v else .srftfault v)
  else if (0x20 ≤ v ∧ v < 0x38) ∨ v = 0xe0 ∨ (0xef ≤ v ∧ v ≤ 0xf5) then .harwint v
  else if v = 0xff then .exiScall
  else .srftfault 256

/-- The privilege that a vector should be open to. -/
def privilegeOf (v : Nat) : BitVec 8 :=
  if v = 3 ∨ v = 4 ∨ v = 0xff then privilegeUser else privilegeKrnl

theorem idtDesc_code : ∀ v : Fin 256, (idtDesc v).map (fun d => (d.2.1.code, d.2.2)) =
    some (codeOf v, privilegeOf v) := by
  decide +kernel

theorem gate_interrupt (handler : BitVec 64) {privilege : BitVec 8}
    (h : privilege = privilegeKrnl ∨ privilege = privilegeUser) :
    (gate da386IGate handler privilege).interrupt (privilege.truncate 2) := by
  have hattr : ∀ p ∈ [privilegeKrnl, privilegeUser],
      da386IGate ||| p <<< 5 = 1#1 ++ p.truncate 2 ++ 0#1 ++ 0xE#4 := by decide
  exact ⟨hattr privilege (by simpa using h), rfl⟩

/-- **The code that a vector leads to.**  Each vector has an interrupt gate whose address is that
of a label with the vector's own code. -/
theorem gate_code (adr : Label → BitVec 64) (idt : Nat → Gate) (v : Fin 256) :
    ∃ l : Label, l.code = codeOf v ∧ (initIdtDescriptor adr idt v).offset = adr l ∧
      (initIdtDescriptor adr idt v).interrupt ((privilegeOf v).truncate 2) := by
  have hcode := idtDesc_code v
  obtain ⟨d, hd, heq⟩ := Option.map_eq_some_iff.mp hcode
  obtain ⟨hl, hp⟩ := Prod.mk.inj heq
  have hgate : initIdtDescriptor adr idt v = gate da386IGate (adr d.2.1) d.2.2 := by
    unfold initIdtDescriptor
    rw [foldl_setIdtDesc, show idtDescs.reverse.find? (·.1 = v.val) = some d from hd]
    rfl
  refine ⟨d.2.1, hl, ?_, ?_⟩
  · rw [hgate]
    exact gate_offset ..
  · rw [hgate, ← hp]
    apply gate_interrupt
    rw [hp]
    unfold privilegeOf
    split
    · exact .inr rfl
    · exact .inl rfl

end Cosmos.Hal
