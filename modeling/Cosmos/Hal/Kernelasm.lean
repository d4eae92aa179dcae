import Cosmos.Hal.Halgdtidt
import Cosmos.Lib.Stack

/-!
# Entering and leaving the kernel

The macros of `kernel.inc`, one instruction at a time, and what the CPU does when it takes an
interrupt and for `iretq`.  The C function that a macro calls is not part of the macro here: its
code runs between `Macro.enter` and `Macro.leave`, and `call` and `ret` belong to it.

Of `RFLAGS` the bits RF and VM are left out, which `pushfq` does not save.

## Main results

* `takeInt_spec` : what stands on the stack, and in the registers, when the C function starts.
* `leaveInt_spec` : the registers after the macro, whatever the C function has done to them.
-/

namespace Cosmos.Hal

open Cosmos.Lib.Stack

/-- The general registers but `rsp`. -/
inductive Gpr where
  | rax | rbx | rcx | rdx | rbp | rsi | rdi | r8 | r9 | r10 | r11 | r12 | r13 | r14 | r15
deriving DecidableEq, Repr

/-- The segment registers for data. -/
inductive SegReg where
  | ds | es | fs | gs
deriving DecidableEq, Repr

/-- The registers of the CPU. -/
structure Regs where
  gpr : Gpr → BitVec 64
  seg : SegReg → BitVec 16
  rsp : Nat
  rip : BitVec 64
  cs : BitVec 16
  rflags : BitVec 64
  ss : BitVec 16

/-- The CPU and its memory. -/
structure Core where
  regs : Regs
  mem : Nat → UInt8

/-- The instructions that the macros use. -/
inductive Asm where
  | push (r : Gpr)
  | pushImm (v : BitVec 64)
  | pushfq
  | pop (r : Gpr)
  | popfq
  /-- `xor r, r` -/
  | xor (r : Gpr)
  /-- the low word of `r` from a segment register -/
  | movWs (r : Gpr) (s : SegReg)
  /-- a segment register from the low word of `r` -/
  | movSw (s : SegReg) (r : Gpr)
  | movWi (r : Gpr) (v : BitVec 16)
  | movI (r : Gpr) (v : BitVec 64)
  | mov (r r' : Gpr)
  /-- `mov r, rsp` -/
  | movRsp (r : Gpr)
  | addRsp (n : Nat)
  | cli
  | iretq
deriving DecidableEq, Repr

/-- `r` with another low word. -/
def lowWord (r : BitVec 64) (v : BitVec 16) : BitVec 64 := r.extractLsb' 16 48 ++ v

/-- A selector on the stack. -/
def ext16 (v : BitVec 16) : BitVec 64 := v.zeroExtend 64

/-- A word goes on the stack. -/
def Core.push (c : Core) (w : BitVec 64) : Core :=
  let rsp := (c.regs.rsp + 2 ^ 64 - 8) % 2 ^ 64
  { regs := { c.regs with rsp := rsp }, mem := store c.mem rsp w }

/-- The word at `rsp + 8 * i`. -/
def Core.word (c : Core) (i : Nat) : BitVec 64 := load c.mem ((c.regs.rsp + 8 * i) % 2 ^ 64)

/-- The CPU with other general registers. -/
def Core.setGpr (c : Core) (r : Gpr) (v : BitVec 64) : Core :=
  { c with regs := { c.regs with gpr := Function.update c.regs.gpr r v } }

/-- `n` words leave the stack. -/
def Core.drop (c : Core) (n : Nat) : Core :=
  { c with regs := { c.regs with rsp := (c.regs.rsp + 8 * n) % 2 ^ 64 } }

/-- The flag IF. -/
abbrev ifFlag : BitVec 64 := 0x200#64

/-- One instruction. -/
def exec (c : Core) : Asm → Core
  | .push r => c.push (c.regs.gpr r)
  | .pushImm v => c.push v
  | .pushfq => c.push c.regs.rflags
  | .pop r => (c.drop 1).setGpr r (c.word 0)
  | .popfq => { c.drop 1 with regs := { (c.drop 1).regs with rflags := c.word 0 } }
  | .xor r => c.setGpr r 0
  | .movWs r s => c.setGpr r (lowWord (c.regs.gpr r) (c.regs.seg s))
  | .movSw s r => { c with
      regs := { c.regs with seg := Function.update c.regs.seg s ((c.regs.gpr r).truncate 16) } }
  | .movWi r v => c.setGpr r (lowWord (c.regs.gpr r) v)
  | .movI r v => c.setGpr r v
  | .mov r r' => c.setGpr r (c.regs.gpr r')
  | .movRsp r => c.setGpr r (BitVec.ofNat 64 c.regs.rsp)
  | .addRsp n => { c with regs := { c.regs with rsp := (c.regs.rsp + n) % 2 ^ 64 } }
  | .cli => { c with regs := { c.regs with rflags := c.regs.rflags &&& ~~~ifFlag } }
  | .iretq => { c with regs := { c.regs with
      rip := c.word 0
      cs := (c.word 1).truncate 16
      rflags := c.word 2
      rsp := (c.word 3).toNat
      ss := (c.word 4).truncate 16 } }

/-- Instructions one after the other. -/
def execs (is : List Asm) (c : Core) : Core := is.foldl exec c

/-! ## The macros -/

/-- `SAVEALL`, and `SAVEALLFAULT` has the same instructions. -/
def saveall : List Asm :=
  [.push .rax, .push .rbx, .push .rcx, .push .rdx, .push .rbp, .push .rsi, .push .rdi,
   .push .r8, .push .r9, .push .r10, .push .r11, .push .r12, .push .r13, .push .r14, .push .r15,
   .xor .r14,
   .movWs .r14 .ds, .push .r14, .movWs .r14 .es, .push .r14,
   .movWs .r14 .fs, .push .r14, .movWs .r14 .gs, .push .r14]

/-- `RESTOREALL` before `iretq`, and `RESTOREALLFAULT` before its `add`. -/
def restoreall : List Asm :=
  [.pop .r14, .movSw .gs .r14, .pop .r14, .movSw .fs .r14,
   .pop .r14, .movSw .es .r14, .pop .r14, .movSw .ds .r14,
   .pop .r15, .pop .r14, .pop .r13, .pop .r12, .pop .r11, .pop .r10, .pop .r9, .pop .r8,
   .pop .rdi, .pop .rsi, .pop .rbp, .pop .rdx, .pop .rcx, .pop .rbx, .pop .rax]

/-- The pushes of `EXI_SCALL`. -/
def saveScall : List Asm :=
  [.push .rbx, .push .rcx, .push .rdx, .push .rbp, .push .rsi, .push .rdi,
   .push .r8, .push .r9, .push .r10, .push .r11, .push .r12, .push .r13, .push .r14, .push .r15,
   .xor .r14,
   .movWs .r14 .ds, .push .r14, .movWs .r14 .es, .push .r14,
   .movWs .r14 .fs, .push .r14, .movWs .r14 .gs, .push .r14]

/-- The pops of `EXI_SCALL`. -/
def restoreScall : List Asm :=
  [.pop .r14, .movSw .gs .r14, .pop .r14, .movSw .fs .r14,
   .pop .r14, .movSw .es .r14, .pop .r14, .movSw .ds .r14,
   .pop .r15, .pop .r14, .pop .r13, .pop .r12, .pop .r11, .pop .r10, .pop .r9, .pop .r8,
   .pop .rdi, .pop .rsi, .pop .rbp, .pop .rdx, .pop .rcx, .pop .rbx]

/-- `_NOERRO_CODE`. -/
abbrev noerroCode : BitVec 64 := 0xffffffffffffffff#64

/-- `_KERNEL_DS`. -/
abbrev kernelDs : BitVec 16 := 0x10#16

/-- All macros go on with the data segment of the kernel. -/
def loadKernelDs : List Asm :=
  [.movWi .r14 kernelDs, .movSw .ds .r14, .movSw .es .r14, .movSw .fs .r14, .movSw .gs .r14]

/-- A macro up to its `call`. -/
def Macro.enter : Macro → List Asm
  | srftfault nr => .pushImm noerroCode :: saveall ++ loadKernelDs ++
      [.movI .rdi (BitVec.ofNat 64 nr), .movRsp .rsi]
  | srftfaultEcode nr => saveall ++ loadKernelDs ++
      [.movI .rdi (BitVec.ofNat 64 nr), .movRsp .rsi]
  | harwint nr => saveall ++ loadKernelDs ++ [.movI .rdi (BitVec.ofNat 64 nr), .movRsp .rsi]
  | exiScall => saveScall ++ loadKernelDs ++ [.mov .rdi .rax, .movRsp .rsi]

/-- A macro after its `call`. -/
def Macro.leave : Macro → List Asm
  | srftfault _ => restoreall ++ [.addRsp 8, .iretq]
  | srftfaultEcode _ => restoreall ++ [.addRsp 8, .iretq]
  | harwint _ => restoreall ++ [.iretq]
  | exiScall => restoreScall ++ [.iretq]

/-! ## Interrupts -/

/-- The CPU is in user mode. -/
def Regs.user (r : Regs) : Bool := r.cs &&& 3#16 ≠ 0#16

/-- The flags behind an interrupt gate: TF, IF, NT, RF and VM are off. -/
def gateFlags (f : BitVec 64) : BitVec 64 := f &&& ~~~0x34300#64

/-- Where the CPU puts the frame of an interrupt. -/
def Regs.intBase (r : Regs) (rsp0 : Nat) : Nat := (if r.user then rsp0 else r.rsp) / 16 * 16

/-- The CPU takes an interrupt.  `rsp0` is that of the TSS. -/
def hwInt (rsp0 : Nat) (c : Core) : Core :=
  let r := c.regs
  let c := { c with regs := { r with rsp := r.intBase rsp0 } }
  let c := ((((c.push (ext16 r.ss)).push (BitVec.ofNat 64 r.rsp)).push r.rflags).push
    (ext16 r.cs)).push r.rip
  { c with regs := { c.regs with
      cs := selectorKernelCs
      rflags := gateFlags r.rflags
      ss := if r.user then 0 else r.ss } }

/-- The CPU pushes an error code for the faults that have one. -/
def pushEcode (m : Macro) (ecode : BitVec 64) (c : Core) : Core :=
  match m with
  | .srftfaultEcode _ => c.push ecode
  | _ => c

/-- An interrupt up to the start of the C function, which is at `fn`. -/
def takeInt (rsp0 : Nat) (m : Macro) (ecode fn : BitVec 64) (c : Core) : Core :=
  let c := execs m.enter (pushEcode m ecode (hwInt rsp0 c))
  { c with regs := { c.regs with rip := fn } }

/-- The C function is back. -/
def leaveInt (m : Macro) (c : Core) : Core := execs m.leave c

/-! ## What is saved -/

/-- The general registers that a macro saves, in the order of its pushes. -/
def Macro.saved : Macro → List Gpr
  | exiScall => [.rbx, .rcx, .rdx, .rbp, .rsi, .rdi, .r8, .r9, .r10, .r11, .r12, .r13, .r14, .r15]
  | _ => [.rax, .rbx, .rcx, .rdx, .rbp, .rsi, .rdi, .r8, .r9, .r10, .r11, .r12, .r13, .r14, .r15]

/-- The segment registers in that order. -/
def savedSegs : List SegReg := [.ds, .es, .fs, .gs]

/-- The error code on the stack, if the frame has one. -/
def Macro.ecodeWord (m : Macro) (ecode : BitVec 64) : List (BitVec 64) :=
  match m with
  | srftfault _ => [noerroCode]
  | srftfaultEcode _ => [ecode]
  | _ => []

/-- What the CPU itself saves. -/
def Regs.intWords (r : Regs) : List (BitVec 64) :=
  [r.rip, ext16 r.cs, r.rflags, BitVec.ofNat 64 r.rsp, ext16 r.ss]

/-- The words of the frame, the one at the lowest address first: `intstkregs_t`,
`faultstkregs_t` and `stkparame_t`. -/
def Macro.frame (m : Macro) (ecode : BitVec 64) (r : Regs) : List (BitVec 64) :=
  (savedSegs.map fun s => ext16 (r.seg s)).reverse ++ ((m.saved.map r.gpr).reverse ++
    (m.ecodeWord ecode ++ r.intWords))

/-- The number that the C function gets. -/
def Macro.arg (m : Macro) (r : Regs) : BitVec 64 :=
  match m with
  | srftfault nr => BitVec.ofNat 64 nr
  | srftfaultEcode nr => BitVec.ofNat 64 nr
  | harwint nr => BitVec.ofNat 64 nr
  | exiScall => r.gpr .rax

/-- The registers when the C function at `fn` starts. -/
def Macro.entered (m : Macro) (r : Regs) (rsp : Nat) (fn : BitVec 64) : Regs where
  gpr := Function.update (Function.update (Function.update r.gpr .r14 (ext16 kernelDs))
    .rdi (m.arg r)) .rsi (BitVec.ofNat 64 rsp)
  seg := fun _ => kernelDs
  rsp := rsp
  rip := fn
  cs := selectorKernelCs
  rflags := gateFlags r.rflags
  ss := if r.user then 0 else r.ss

/-- The registers that were interrupted come back, with the result of a system call. -/
def Macro.resumed (m : Macro) (k r : Regs) : Regs :=
  match m with
  | exiScall => { r with gpr := Function.update r.gpr .rax (k.gpr .rax) }
  | _ => r

/-! ## One kind of instruction after the other -/

variable {c : Core} {m : Macro} {r : Regs} {ws : List (BitVec 64)}

theorem execs_append (is js : List Asm) (c : Core) : execs (is ++ js) c = execs js (execs is c) :=
  List.foldl_append

theorem execs_cons (i : Asm) (is : List Asm) (c : Core) : execs (i :: is) c = execs is (exec c i) :=
  rfl

@[simp] theorem lowWord_ext16 (v v' : BitVec 16) : lowWord (ext16 v') v = ext16 v := by
  apply BitVec.eq_of_toNat_eq
  have hv := v.isLt
  have hv' := v'.isLt
  simp only [lowWord, ext16, BitVec.toNat_append, BitVec.extractLsb'_toNat,
    BitVec.truncate_eq_setWidth, BitVec.toNat_setWidth, Nat.shiftRight_eq_div_pow]
  rw [show v'.toNat % 2 ^ 64 / 2 ^ 16 % 2 ^ 48 = 0 by omega, Nat.zero_shiftLeft, Nat.zero_or,
    Nat.mod_eq_of_lt (by omega)]

@[simp] theorem lowWord_zero (v : BitVec 16) : lowWord 0 v = ext16 v :=
  lowWord_ext16 v 0

@[simp] theorem truncate_ext16 (v : BitVec 16) : (ext16 v).truncate 16 = v := by
  simp [ext16]

theorem Core.push_eq (w : BitVec 64) (hroom : 8 ≤ c.regs.rsp) (hlt : c.regs.rsp < 2 ^ 64) :
    c.push w = ⟨{ c.regs with rsp := c.regs.rsp - 8 }, store c.mem (c.regs.rsp - 8) w⟩ := by
  have hmod : (c.regs.rsp + 2 ^ 64 - 8) % 2 ^ 64 = c.regs.rsp - 8 := by omega
  simp only [Core.push, hmod]

/-- `w` has been pushed, and of the registers only `rsp` has changed. -/
theorem Core.push_pushed (w : BitVec 64) (hroom : 8 ≤ c.regs.rsp) (hlt : c.regs.rsp < 2 ^ 64) :
    ∃ mem, c.push w = ⟨{ c.regs with rsp := c.regs.rsp - 8 }, mem⟩ ∧
      Pushed c.mem c.regs.rsp mem [w] :=
  ⟨_, Core.push_eq w hroom hlt, pushed_store hroom⟩

theorem pushes_spec (rs : List Gpr) (hroom : 8 * rs.length ≤ c.regs.rsp)
    (hlt : c.regs.rsp < 2 ^ 64) :
    ∃ mem, execs (rs.map .push) c = ⟨{ c.regs with rsp := c.regs.rsp - 8 * rs.length }, mem⟩ ∧
      Pushed c.mem c.regs.rsp mem (rs.map c.regs.gpr).reverse := by
  induction rs generalizing c with
  | nil => exact ⟨c.mem, rfl, Pushed.nil⟩
  | cons r rs ih =>
      rw [List.length_cons] at hroom
      obtain ⟨mem₁, heq₁, hp₁⟩ := Core.push_pushed (c.regs.gpr r) (by omega) hlt
      obtain ⟨mem₂, heq₂, hp₂⟩ := ih (c := c.push (c.regs.gpr r))
        (by rw [heq₁]; show 8 * rs.length ≤ c.regs.rsp - 8; omega)
        (by rw [heq₁]; show c.regs.rsp - 8 < 2 ^ 64; omega)
      refine ⟨mem₂, ?_, ?_⟩
      · rw [List.map_cons, execs_cons, exec, heq₂, heq₁, List.length_cons, Nat.mul_add,
          Nat.add_comm, Nat.sub_add_eq]
      · rw [heq₁] at hp₂
        simpa using hp₁.trans hp₂

theorem pushSegs_spec (ss : List SegReg) {x : BitVec 16} (hx : c.regs.gpr .r14 = ext16 x)
    (hroom : 8 * ss.length ≤ c.regs.rsp) (hlt : c.regs.rsp < 2 ^ 64) :
    ∃ y mem, execs (ss.flatMap fun s => [.movWs .r14 s, .push .r14]) c =
        ⟨{ c.regs with
            gpr := Function.update c.regs.gpr .r14 (ext16 y)
            rsp := c.regs.rsp - 8 * ss.length }, mem⟩ ∧
      Pushed c.mem c.regs.rsp mem (ss.map fun s => ext16 (c.regs.seg s)).reverse := by
  induction ss generalizing c x with
  | nil =>
      refine ⟨x, c.mem, ?_, Pushed.nil⟩
      rw [← hx, Function.update_eq_self]
      rfl
  | cons s ss ih =>
      rw [List.length_cons] at hroom
      have hmov : exec c (.movWs .r14 s) = c.setGpr .r14 (ext16 (c.regs.seg s)) := by
        simp only [exec, hx, lowWord_ext16]
      obtain ⟨mem₁, heq₁, hp₁⟩ := Core.push_pushed (c := c.setGpr .r14 (ext16 (c.regs.seg s)))
        (ext16 (c.regs.seg s)) (show 8 ≤ c.regs.rsp by omega) hlt
      obtain ⟨y, mem₂, heq₂, hp₂⟩ := ih
        (c := ⟨{ c.regs with
          gpr := Function.update c.regs.gpr .r14 (ext16 (c.regs.seg s))
          rsp := c.regs.rsp - 8 }, mem₁⟩) (x := c.regs.seg s) (by simp)
        (show 8 * ss.length ≤ c.regs.rsp - 8 by omega) (show c.regs.rsp - 8 < 2 ^ 64 by omega)
      refine ⟨y, mem₂, ?_, ?_⟩
      · have hpush : exec (c.setGpr .r14 (ext16 (c.regs.seg s))) (.push .r14) =
            ⟨{ c.regs with
              gpr := Function.update c.regs.gpr .r14 (ext16 (c.regs.seg s))
              rsp := c.regs.rsp - 8 }, mem₁⟩ := by
          refine Eq.trans ?_ heq₁
          simp [exec, Core.setGpr]
        rw [List.flatMap_cons, List.cons_append, List.cons_append, List.nil_append, execs_cons,
          execs_cons, hmov, hpush, heq₂, List.length_cons, Nat.mul_add, Nat.add_comm,
          Nat.sub_add_eq, Function.update_idem]
      · have hp : Pushed c.mem c.regs.rsp mem₁ [ext16 (c.regs.seg s)] := hp₁
        simpa using hp.trans hp₂

theorem pops_spec (rs : List Gpr) (g : Gpr → BitVec 64)
    (hws : Words c.mem c.regs.rsp (rs.map g)) (hlt : c.regs.rsp + 8 * rs.length < 2 ^ 64) :
    execs (rs.map .pop) c = ⟨{ c.regs with
      gpr := fun r => if r ∈ rs then g r else c.regs.gpr r
      rsp := c.regs.rsp + 8 * rs.length }, c.mem⟩ := by
  induction rs generalizing c with
  | nil => simp [execs]
  | cons r rs ih =>
      rw [List.length_cons] at hlt
      obtain ⟨hw, hws⟩ := words_cons.mp hws
      have hmod : (c.regs.rsp + 8 * 1) % 2 ^ 64 = c.regs.rsp + 8 := by omega
      have hword : c.word 0 = g r := by
        rw [← hw, Core.word, Nat.mul_zero, Nat.add_zero, Nat.mod_eq_of_lt (by omega)]
      have hpop : exec c (.pop r) = ⟨{ c.regs with
          gpr := Function.update c.regs.gpr r (g r), rsp := c.regs.rsp + 8 }, c.mem⟩ := by
        simp only [exec, Core.drop, Core.setGpr, hword, hmod]
      rw [List.map_cons, execs_cons, hpop,
        ih hws (show c.regs.rsp + 8 + 8 * rs.length < _ by omega)]
      have hgpr : (fun x => if x ∈ rs then g x else Function.update c.regs.gpr r (g r) x) =
          fun x => if x ∈ r :: rs then g x else c.regs.gpr x := by
        funext x
        by_cases hx : x = r
        · subst hx
          simp
        · simp [hx]
      rw [hgpr, List.length_cons, Nat.mul_add, Nat.add_assoc, Nat.add_comm 8]

theorem popSegs_spec (ss : List SegReg) (sg : SegReg → BitVec 16)
    (hws : Words c.mem c.regs.rsp (ss.map fun s => ext16 (sg s)))
    (hlt : c.regs.rsp + 8 * ss.length < 2 ^ 64) :
    ∃ x, execs (ss.flatMap fun s => [.pop .r14, .movSw s .r14]) c = ⟨{ c.regs with
      gpr := Function.update c.regs.gpr .r14 x
      seg := fun s => if s ∈ ss then sg s else c.regs.seg s
      rsp := c.regs.rsp + 8 * ss.length }, c.mem⟩ := by
  induction ss generalizing c with
  | nil => exact ⟨c.regs.gpr .r14, by simp [execs]⟩
  | cons s ss ih =>
      rw [List.length_cons] at hlt
      obtain ⟨hw, hws⟩ := words_cons.mp hws
      have hmod : (c.regs.rsp + 8 * 1) % 2 ^ 64 = c.regs.rsp + 8 := by omega
      have hword : c.word 0 = ext16 (sg s) := by
        refine Eq.trans ?_ hw
        rw [Core.word, Nat.mul_zero, Nat.add_zero, Nat.mod_eq_of_lt (by omega)]
      have hpop : exec (exec c (.pop .r14)) (.movSw s .r14) = ⟨{ c.regs with
          gpr := Function.update c.regs.gpr .r14 (ext16 (sg s))
          seg := Function.update c.regs.seg s (sg s)
          rsp := c.regs.rsp + 8 }, c.mem⟩ := by
        simp only [exec, Core.drop, Core.setGpr, hword, hmod, Function.update_self, truncate_ext16]
      obtain ⟨x, heq⟩ := ih (c := ⟨{ c.regs with
          gpr := Function.update c.regs.gpr .r14 (ext16 (sg s))
          seg := Function.update c.regs.seg s (sg s)
          rsp := c.regs.rsp + 8 }, c.mem⟩) hws
        (show c.regs.rsp + 8 + 8 * ss.length < _ by omega)
      refine ⟨x, ?_⟩
      rw [List.flatMap_cons, List.cons_append, List.cons_append, List.nil_append, execs_cons,
        execs_cons, hpop, heq]
      have hseg : (fun x => if x ∈ ss then sg x else Function.update c.regs.seg s (sg s) x) =
          fun x => if x ∈ s :: ss then sg x else c.regs.seg x := by
        funext x
        by_cases hx : x = s
        · subst hx
          simp
        · simp [hx]
      rw [Function.update_idem, hseg, List.length_cons, Nat.mul_add, Nat.add_assoc, Nat.add_comm 8]

theorem pushWords_spec (ws : List (BitVec 64)) (hroom : 8 * ws.length ≤ c.regs.rsp)
    (hlt : c.regs.rsp < 2 ^ 64) :
    ∃ mem, ws.foldl Core.push c = ⟨{ c.regs with rsp := c.regs.rsp - 8 * ws.length }, mem⟩ ∧
      Pushed c.mem c.regs.rsp mem ws.reverse := by
  induction ws generalizing c with
  | nil => exact ⟨c.mem, rfl, Pushed.nil⟩
  | cons w ws ih =>
      rw [List.length_cons] at hroom
      obtain ⟨mem₁, heq₁, hp₁⟩ := Core.push_pushed w (by omega) hlt
      obtain ⟨mem₂, heq₂, hp₂⟩ := ih (c := c.push w)
        (by rw [heq₁]; show 8 * ws.length ≤ c.regs.rsp - 8; omega)
        (by rw [heq₁]; show c.regs.rsp - 8 < 2 ^ 64; omega)
      refine ⟨mem₂, ?_, ?_⟩
      · rw [List.foldl_cons, heq₂, heq₁, List.length_cons, Nat.mul_add, Nat.add_comm,
          Nat.sub_add_eq]
      · rw [heq₁] at hp₂
        simpa using hp₁.trans hp₂

/-! ## Into the kernel -/

/-- The CPU's own part. -/
theorem hwInt_spec (rsp0 : Nat) (hroom : 40 ≤ c.regs.intBase rsp0)
    (hlt : c.regs.intBase rsp0 < 2 ^ 64) :
    ∃ mem, hwInt rsp0 c = ⟨{ c.regs with
        rsp := c.regs.intBase rsp0 - 40
        cs := selectorKernelCs
        rflags := gateFlags c.regs.rflags
        ss := if c.regs.user then 0 else c.regs.ss }, mem⟩ ∧
      Pushed c.mem (c.regs.intBase rsp0) mem c.regs.intWords := by
  obtain ⟨mem, heq, hp⟩ := pushWords_spec
    (c := { c with regs := { c.regs with rsp := c.regs.intBase rsp0 } })
    [ext16 c.regs.ss, BitVec.ofNat 64 c.regs.rsp, c.regs.rflags, ext16 c.regs.cs, c.regs.rip]
    hroom hlt
  refine ⟨mem, ?_, hp⟩
  simp only [List.foldl_cons, List.foldl_nil] at heq
  simp only [hwInt, heq]
  rfl

/-- The instructions of a macro before its pushes. -/
def Macro.pre : Macro → List Asm
  | srftfault _ => [.pushImm noerroCode]
  | _ => []

/-- The instruction that gives the C function its number. -/
def Macro.setArg : Macro → Asm
  | srftfault nr => .movI .rdi (BitVec.ofNat 64 nr)
  | srftfaultEcode nr => .movI .rdi (BitVec.ofNat 64 nr)
  | harwint nr => .movI .rdi (BitVec.ofNat 64 nr)
  | exiScall => .mov .rdi .rax

/-- The macros differ in the registers they save, and in the number. -/
theorem Macro.enter_eq (m : Macro) :
    m.enter = m.pre ++ ((m.saved.map .push ++ .xor .r14 ::
      savedSegs.flatMap fun s => [.movWs .r14 s, .push .r14]) ++
        (loadKernelDs ++ [m.setArg, .movRsp .rsi])) := by
  cases m <;> rfl

theorem ecode_spec (m : Macro) (ecode : BitVec 64) (hroom : 8 ≤ c.regs.rsp)
    (hlt : c.regs.rsp < 2 ^ 64) :
    ∃ mem, execs m.pre (pushEcode m ecode c) = ⟨{ c.regs with
        rsp := c.regs.rsp - 8 * (m.ecodeWord ecode).length }, mem⟩ ∧
      Pushed c.mem c.regs.rsp mem (m.ecodeWord ecode) := by
  cases m with
  | srftfault nr => exact Core.push_pushed noerroCode hroom hlt
  | srftfaultEcode nr => exact Core.push_pushed ecode hroom hlt
  | harwint nr => exact ⟨c.mem, rfl, Pushed.nil⟩
  | exiScall => exact ⟨c.mem, rfl, Pushed.nil⟩

theorem save_spec (rs : List Gpr) (hroom : 8 * (rs.length + 4) ≤ c.regs.rsp)
    (hlt : c.regs.rsp < 2 ^ 64) :
    ∃ y mem, execs (rs.map .push ++ .xor .r14 ::
        savedSegs.flatMap fun s => [.movWs .r14 s, .push .r14]) c = ⟨{ c.regs with
          gpr := Function.update c.regs.gpr .r14 (ext16 y)
          rsp := c.regs.rsp - 8 * (rs.length + 4) }, mem⟩ ∧
      Pushed c.mem c.regs.rsp mem ((savedSegs.map fun s => ext16 (c.regs.seg s)).reverse ++
        (rs.map c.regs.gpr).reverse) := by
  obtain ⟨mem₁, heq₁, hp₁⟩ := pushes_spec (c := c) rs (by omega) hlt
  obtain ⟨y, mem₂, heq₂, hp₂⟩ := pushSegs_spec savedSegs (x := 0)
    (c := ⟨{ c.regs with
      gpr := Function.update c.regs.gpr .r14 0
      rsp := c.regs.rsp - 8 * rs.length }, mem₁⟩) (by simp [ext16])
    (show 8 * 4 ≤ c.regs.rsp - 8 * rs.length by omega)
    (show c.regs.rsp - 8 * rs.length < 2 ^ 64 by omega)
  refine ⟨y, mem₂, ?_, ?_⟩
  · rw [execs_append, heq₁, execs_cons]
    refine heq₂.trans ?_
    rw [Function.update_idem, Nat.mul_add, Nat.sub_add_eq]
    rfl
  · refine hp₁.trans ?_
    rw [List.length_reverse, List.length_map]
    exact hp₂

/-- All segment registers are those of the kernel. -/
theorem loadKernelDs_spec {y : BitVec 16} (hy : c.regs.gpr .r14 = ext16 y) :
    execs loadKernelDs c = ⟨{ c.regs with
      gpr := Function.update c.regs.gpr .r14 (ext16 kernelDs)
      seg := fun _ => kernelDs }, c.mem⟩ := by
  have hseg : Function.update (Function.update (Function.update (Function.update c.regs.seg
      .ds kernelDs) .es kernelDs) .fs kernelDs) .gs kernelDs = fun _ => kernelDs := by
    funext s
    cases s <;> rfl
  simp only [execs, loadKernelDs, List.foldl_cons, List.foldl_nil, exec, Core.setGpr, hy,
    lowWord_ext16, Function.update_self, truncate_ext16, hseg]

theorem Macro.frame_length (m : Macro) (ecode : BitVec 64) (r : Regs) :
    (m.frame ecode r).length = 5 + (m.ecodeWord ecode).length + (m.saved.length + 4) := by
  simp only [Macro.frame, Regs.intWords, savedSegs, List.length_append, List.length_reverse,
    List.length_map, List.length_cons, List.length_nil]
  omega

theorem setArg_spec (m : Macro) (hrax : c.regs.gpr .rax = r.gpr .rax) :
    exec c m.setArg = c.setGpr .rdi (m.arg r) := by
  cases m <;> simp [Macro.setArg, Macro.arg, exec, hrax]

/-- **The C function starts** with the frame on the stack, at the address in `rsi`. -/
theorem takeInt_spec (rsp0 : Nat) (m : Macro) (ecode fn : BitVec 64)
    (hroom : 8 * (m.frame ecode c.regs).length ≤ c.regs.intBase rsp0)
    (hlt : c.regs.intBase rsp0 < 2 ^ 64) :
    ∃ mem, takeInt rsp0 m ecode fn c = ⟨m.entered c.regs
        (c.regs.intBase rsp0 - 8 * (m.frame ecode c.regs).length) fn, mem⟩ ∧
      Pushed c.mem (c.regs.intBase rsp0) mem (m.frame ecode c.regs) := by
  have hlen := m.frame_length ecode c.regs
  rw [hlen] at hroom ⊢
  generalize hb : c.regs.intBase rsp0 = b at hroom hlt ⊢
  obtain ⟨mem₀, heq₀, hp₀⟩ := hwInt_spec (c := c) rsp0 (by omega) (by omega)
  rw [hb] at heq₀ hp₀
  obtain ⟨mem₁, heq₁, hp₁⟩ := ecode_spec (c := hwInt rsp0 c) m ecode
    (by rw [heq₀]; show 8 ≤ b - 40; omega) (by rw [heq₀]; show b - 40 < 2 ^ 64; omega)
  rw [heq₀] at heq₁ hp₁
  obtain ⟨y, mem₂, heq₂, hp₂⟩ := save_spec (c := execs m.pre (pushEcode m ecode (hwInt rsp0 c)))
    m.saved (by rw [heq₀, heq₁]; show 8 * (m.saved.length + 4) ≤ b - 40 - 8 * _; omega)
    (by rw [heq₀, heq₁]; show b - 40 - 8 * _ < 2 ^ 64; omega)
  rw [heq₀, heq₁] at heq₂ hp₂
  refine ⟨mem₂, ?_, ?_⟩
  · unfold takeInt
    rw [m.enter_eq, execs_append, execs_append, heq₀, heq₁, heq₂, execs_append,
      loadKernelDs_spec (y := y), execs_cons, setArg_spec (r := c.regs), execs_cons]
    · have hrsp : b - 40 - 8 * (m.ecodeWord ecode).length - 8 * (m.saved.length + 4) =
          b - 8 * (5 + (m.ecodeWord ecode).length + (m.saved.length + 4)) := by omega
      simp only [execs, List.foldl_nil, exec, Core.setGpr, Function.update_idem, Macro.entered,
        hrsp]
    · simp
    · simp
  · have hp := hp₀.trans hp₁
    have hadr : b - 8 * (m.ecodeWord ecode ++ c.regs.intWords).length =
        b - 40 - 8 * (m.ecodeWord ecode).length := by
      rw [List.length_append, show c.regs.intWords.length = 5 from rfl]
      omega
    have hall := hp.trans (hadr ▸ hp₂)
    simpa [Macro.frame] using hall

/-! ## Out of the kernel -/

/-- The error code is dropped, if there is one. -/
def Macro.dropEcode : Macro → List Asm
  | srftfault _ => [.addRsp 8]
  | srftfaultEcode _ => [.addRsp 8]
  | _ => []

/-- The macros differ in the registers they restore, and in the error code. -/
theorem Macro.leave_eq (m : Macro) :
    m.leave = ((savedSegs.reverse.flatMap fun s => [.pop .r14, .movSw s .r14]) ++
      m.saved.reverse.map .pop) ++ (m.dropEcode ++ [.iretq]) := by
  cases m <;> rfl

theorem dropEcode_spec (m : Macro) (ecode : BitVec 64)
    (hlt : c.regs.rsp + 8 * (m.ecodeWord ecode).length < 2 ^ 64) :
    execs m.dropEcode c = ⟨{ c.regs with
      rsp := c.regs.rsp + 8 * (m.ecodeWord ecode).length }, c.mem⟩ := by
  have hmod : ∀ n, c.regs.rsp + n < 2 ^ 64 → (c.regs.rsp + n) % 2 ^ 64 = c.regs.rsp + n :=
    fun n hn => Nat.mod_eq_of_lt hn
  cases m with
  | srftfault nr =>
      show exec c (.addRsp 8) = _
      simp only [exec, hmod 8 hlt]
      rfl
  | srftfaultEcode nr =>
      show exec c (.addRsp 8) = _
      simp only [exec, hmod 8 hlt]
      rfl
  | harwint nr => rfl
  | exiScall => rfl

theorem iretq_spec (hws : Words c.mem c.regs.rsp r.intWords) (hlt : c.regs.rsp + 40 < 2 ^ 64)
    (hrsp : r.rsp < 2 ^ 64) :
    exec c .iretq = ⟨{ c.regs with
      rip := r.rip, cs := r.cs, rflags := r.rflags, rsp := r.rsp, ss := r.ss }, c.mem⟩ := by
  have hadr : ∀ n, n ≤ 4 → (c.regs.rsp + 8 * n) % 2 ^ 64 = c.regs.rsp + 8 * n :=
    fun n hn => Nat.mod_eq_of_lt (by omega)
  have hzero : c.regs.rsp % 2 ^ 64 = c.regs.rsp := Nat.mod_eq_of_lt (by omega)
  simp only [Regs.intWords, words_cons, Nat.add_assoc, Nat.reduceAdd] at hws
  obtain ⟨hrip, hcs, hflags, hsp, hss, -⟩ := hws
  have hback : (BitVec.ofNat 64 r.rsp).toNat = r.rsp := by
    rw [BitVec.toNat_ofNat, Nat.mod_eq_of_lt hrsp]
  simp only [exec, Core.word, hadr 1 (by decide), hadr 2 (by decide), hadr 3 (by decide),
    hadr 4 (by decide), Nat.reduceMul, Nat.mul_zero, Nat.add_zero, hzero, hrip, hcs, hflags, hsp,
    hss, truncate_ext16, hback]

/-- Only the system call does not save all general registers. -/
theorem resumed_gpr (m : Macro) (k r : Regs) (v : BitVec 64) :
    (fun x => if x ∈ m.saved.reverse then r.gpr x else Function.update k.gpr .r14 v x) =
      (m.resumed k r).gpr := by
  funext x
  cases m <;> cases x <;> simp [Macro.saved, Macro.resumed]

/-- **The registers come back** from a frame, whatever they are now. -/
theorem leaveInt_spec (m : Macro) {ecode : BitVec 64}
    (hws : Words c.mem c.regs.rsp (m.frame ecode r))
    (hlt : c.regs.rsp + 8 * (m.frame ecode r).length < 2 ^ 64) (hrsp : r.rsp < 2 ^ 64) :
    leaveInt m c = ⟨m.resumed c.regs r, c.mem⟩ := by
  rw [m.frame_length] at hlt
  rw [Macro.frame, ← List.map_reverse, ← List.map_reverse, words_append, words_append,
    words_append] at hws
  obtain ⟨hsegs, hgprs, hecode, hint⟩ := hws
  rw [List.length_map, List.length_reverse] at hgprs hint
  rw [List.length_map, List.length_reverse] at hint
  obtain ⟨v, heq₁⟩ := popSegs_spec (c := c) savedSegs.reverse r.seg hsegs
    (show c.regs.rsp + 8 * 4 < 2 ^ 64 by omega)
  have hseg : (fun s => if s ∈ savedSegs.reverse then r.seg s else c.regs.seg s) = r.seg := by
    funext s
    cases s <;> rfl
  unfold leaveInt
  rw [m.leave_eq, execs_append, execs_append, execs_append, heq₁,
    pops_spec m.saved.reverse r.gpr hgprs, dropEcode_spec m ecode, execs_cons,
    iretq_spec (r := r) ?_ ?_ hrsp]
  · simp only [resumed_gpr, hseg]
    cases m <;> rfl
  · show Words c.mem (c.regs.rsp + 8 * 4 + 8 * m.saved.reverse.length + 8 * _) _
    rw [List.length_reverse]
    exact hint
  · show c.regs.rsp + 8 * 4 + 8 * m.saved.reverse.length + 8 * _ + 40 < 2 ^ 64
    rw [List.length_reverse]
    omega
  · show c.regs.rsp + 8 * 4 + 8 * m.saved.reverse.length + 8 * _ < 2 ^ 64
    rw [List.length_reverse]
    omega
  · show c.regs.rsp + 8 * 4 + 8 * m.saved.reverse.length < 2 ^ 64
    rw [List.length_reverse]
    omega

end Cosmos.Hal
