import Cosmos.Hal.Kernelasm
import Cosmos.Lib.Run

/-!
# Switching between threads

`save_to_new_context`, `__to_new_context` and `retnfrom_first_sched` of `krlsched.c`, the first
stack frame of a thread (`krlthread_kernstack_init` and `krlthread_userstack_init`), and
`krlcpuidle_start`, on one CPU with its interrupts.

C code between these is arbitrary.  In the kernel it may change the general registers, the flags
and its own part of the stack; what it writes below `rsp` can be anything, since the kernel is
built with `-mno-red-zone`, and without SSE.  In user mode it may change all but `cs` and `ss`,
which it cannot.  The kernel stacks are memory that `krlnew` has
given for them, and no other code writes there.  The kernel half of the address space is the same
for all threads, so `hal_mmu_load` is left out.

There are two machines.  `Mach` is the CPU: one set of registers, memory, and of each thread its
`td_context`.  In `Spec` every activation has registers of its own, which nothing else changes: a
thread is a stack of activations, each of which was interrupted by the one above.
-/

namespace Cosmos.Kernel

open Cosmos.Hal Cosmos.Lib.Stack Cosmos.Lib.Run

/-- The kernel stacks of the threads: `td_krlstkstart`, and the size that `krlnew` was asked for.
They lie apart. -/
structure Stacks where
  start : Nat → Nat
  size : Nat → Nat
  lt : ∀ t, start t + size t < 2 ^ 64
  apart : ∀ s t, s ≠ t → start s + size s ≤ start t ∨ start t + size t ≤ start s

/-- `td_krlstktop`, once it is aligned. -/
def Stacks.top (stk : Stacks) (t : Nat) : Nat := (stk.start t + (stk.size t - 1)) / 16 * 16

/-- What `thread_t` has for this: `isNew` says that `td_stus` is `TDSTUS_NEW`. -/
structure Tctx where
  tdKrlstktop : Nat
  tdUsrstktop : Nat
  isNew : Bool
  ctxNextrsp : Nat

/-- The CPU, the `rsp0` of its TSS, and the threads. -/
structure Mach where
  core : Core
  rsp0 : Nat
  curr : Option Nat
  td : Nat → Tctx

/-! ## The code -/

/-- `sizeof(intstkregs_t)`. -/
abbrev sizeofIntstkregs : Nat := 24 * 8

/-- `intstkregs_t` as the two functions below fill it in. -/
def stkregs (ds : BitVec 16) (rip : BitVec 64) (cs : BitVec 16) (rflags : BitVec 64)
    (rsp : Nat) (ss : BitVec 16) : List (BitVec 64) :=
  [ext16 ds, ext16 ds, ext16 ds, ext16 ds,
   0, 0, 0, 0, 0, 0, 0, 0, 0, 0, 0, 0, 0, 0, 0,
   rip, ext16 cs, rflags, BitVec.ofNat 64 rsp, ext16 ss]

/-- `K_CS_IDX`. -/
abbrev kCsIdx : BitVec 16 := 0x08#16

/-- `K_DS_IDX`. -/
abbrev kDsIdx : BitVec 16 := 0x10#16

/-- `U_CS_IDX`. -/
abbrev uCsIdx : BitVec 16 := 0x1b#16

/-- `U_DS_IDX`. -/
abbrev uDsIdx : BitVec 16 := 0x23#16

/-- `KMOD_EFLAGS`. -/
abbrev kmodEflags : BitVec 64 := 0x202#64

/-- `UMOD_EFLAGS`. -/
abbrev umodEflags : BitVec 64 := 0x1202#64

/-- `krlthread_kernstack_init`. -/
def krlthreadKernstackInit (mem : Nat → UInt8) (td : Tctx) (runadr cpuflags : BitVec 64) :
    (Nat → UInt8) × Tctx :=
  let top := td.tdKrlstktop / 16 * 16
  let arp := top - sizeofIntstkregs
  (storeWords mem arp (stkregs kDsIdx runadr kCsIdx cpuflags top 0),
    { td with tdKrlstktop := top, tdUsrstktop := td.tdUsrstktop / 16 * 16, ctxNextrsp := arp })

/-- `krlthread_userstack_init`. -/
def krlthreadUserstackInit (mem : Nat → UInt8) (td : Tctx) (runadr cpuflags : BitVec 64) :
    (Nat → UInt8) × Tctx :=
  let top := td.tdKrlstktop / 16 * 16
  let usr := td.tdUsrstktop / 16 * 16
  let arp := top - sizeofIntstkregs
  (storeWords mem arp (stkregs uDsIdx runadr uCsIdx cpuflags usr uDsIdx),
    { td with tdKrlstktop := top, tdUsrstktop := usr, ctxNextrsp := arp })

/-- `krlnew_kern_thread_core` and `krlnew_user_thread_core` after they have the stacks. -/
def newThread (stk : Stacks) (m : Mach) (t : Nat) (user : Bool) (runadr : BitVec 64)
    (usrstktop : Nat) : Mach :=
  let td : Tctx := ⟨stk.start t + (stk.size t - 1), usrstktop, true, 0⟩
  let (mem, td) := if user then krlthreadUserstackInit m.core.mem td runadr umodEflags
    else krlthreadKernstackInit m.core.mem td runadr kmodEflags
  { m with core := { m.core with mem := mem }, td := Function.update m.td t td }

/-- The CPU with another stack pointer. -/
def withRsp (c : Core) (rsp : Nat) : Core := { c with regs := { c.regs with rsp := rsp } }

/-- The pops of `retnfrom_first_sched`. -/
def firstSchedCode : List Asm :=
  [.pop .r14, .movSw .gs .r14, .pop .r14, .movSw .fs .r14,
   .pop .r14, .movSw .es .r14, .pop .r14, .movSw .ds .r14,
   .pop .r15, .pop .r14, .pop .r13, .pop .r12, .pop .r11, .pop .r10, .pop .r9, .pop .r8,
   .pop .rdi, .pop .rsi, .pop .rbp, .pop .rdx, .pop .rcx, .pop .rbx, .pop .rax, .iretq]

/-- `retnfrom_first_sched`. -/
def retnfromFirstSched (m : Mach) (t : Nat) : Mach :=
  { m with core := execs firstSchedCode (withRsp m.core (m.td t).ctxNextrsp) }

/-- `td_stus = TDSTUS_RUN`. -/
def setRun (m : Mach) (t : Nat) : Mach :=
  { m with td := Function.update m.td t { m.td t with isNew := false } }

/-- `krlcpuidle_start`, where `sda_currtd` is the idle thread already. -/
def krlcpuidleStart (m : Mach) (t : Nat) : Mach :=
  let m := { setRun m t with
    rsp0 := (m.td t).tdKrlstktop
    curr := some t }
  retnfromFirstSched m t

/-- The pushes of `save_to_new_context`. -/
def saveCode : List Asm :=
  [.pushfq, .cli,
   .push .rax, .push .rbx, .push .rcx, .push .rdx, .push .rbp, .push .rsi, .push .rdi,
   .push .r8, .push .r9, .push .r10, .push .r11, .push .r12, .push .r13, .push .r14, .push .r15]

/-- The pops of `save_to_new_context`. -/
def restoreCode : List Asm :=
  [.pop .r15, .pop .r14, .pop .r13, .pop .r12, .pop .r11, .pop .r10, .pop .r9, .pop .r8,
   .pop .rdi, .pop .rsi, .pop .rbp, .pop .rdx, .pop .rcx, .pop .rbx, .pop .rax, .popfq]

/-- What C code can leave behind that `rsp` is the same after: other general registers and flags,
and words below `rsp`. -/
structure Scratch where
  gpr : Gpr → BitVec 64
  rflags : BitVec 64
  below : List (BitVec 64)

/-- The CPU after such code. -/
def scratch (c : Core) (x : Scratch) : Core where
  regs := { c.regs with gpr := x.gpr, rflags := x.rflags }
  mem := (x.below.foldl Core.push c).mem

/-- The second half of `save_to_new_context`, on the stack of the next thread: the call of
`__to_new_context`, and the pops.  `behind` is the address after the code. -/
def onNextStack (behind : BitVec 64) (m : Mach) (next : Nat) (x : Scratch) : Mach :=
  let m : Mach := ⟨scratch m.core x, (m.td next).tdKrlstktop, some next, m.td⟩
  if (m.td next).isNew then retnfromFirstSched (setRun m next) next
  else
    let c := execs restoreCode m.core
    { m with core := { c with regs := { c.regs with rip := behind } } }

/-- `save_to_new_context`. -/
def saveToNewContext (behind : BitVec 64) (m : Mach) (next prev : Nat) (x : Scratch) : Mach :=
  let c := execs saveCode m.core
  let td := Function.update m.td prev { m.td prev with ctxNextrsp := c.regs.rsp }
  onNextStack behind { m with core := withRsp c (td next).ctxNextrsp, td := td } next x

/-! ## Steps of the CPU -/

/-- What can happen. -/
inductive CtxEv where
  /-- thread `t` is made -/
  | create (t : Nat) (user : Bool) (runadr : BitVec 64) (usrstktop : Nat)
  /-- `krlcpuidle_start` -/
  | start (t : Nat)
  /-- kernel code goes on to `rip`; it has popped `k` words and pushed `ws`, the last one first -/
  | code (x : Scratch) (rip : BitVec 64) (k : Nat) (ws : List (BitVec 64))
  /-- user code -/
  | user (gpr : Gpr → BitVec 64) (seg : SegReg → BitVec 16) (rsp rip rflags : BitVec 64)
  /-- an interrupt, a fault or a system call, whose C function is at `fn` -/
  | int (mac : Macro) (ecode fn : BitVec 64)
  /-- the C function of an interrupt has returned -/
  | leave (mac : Macro)
  /-- `save_to_new_context`, called with the current thread -/
  | switch (next : Nat) (x : Scratch)

/-- Kernel code has run for a while. -/
def kernelCode (c : Core) (x : Scratch) (rip : BitVec 64) (k : Nat) (ws : List (BitVec 64)) :
    Core :=
  let c := scratch (ws.reverse.foldl Core.push (c.drop k)) x
  { c with regs := { c.regs with rip := rip } }

/-- One step of the CPU. -/
def machStep (stk : Stacks) (behind : BitVec 64) (m : Mach) : CtxEv → Except String Mach
  | .create t user runadr usrstktop => .ok (newThread stk m t user runadr usrstktop)
  | .start t => .ok (krlcpuidleStart m t)
  | .code x rip k ws => .ok { m with core := kernelCode m.core x rip k ws }
  | .user gpr seg rsp rip rflags => .ok { m with core := { m.core with
      regs := { m.core.regs with
        gpr := gpr, seg := seg, rsp := rsp.toNat, rip := rip, rflags := rflags } } }
  | .int mac ecode fn => .ok { m with core := takeInt m.rsp0 mac ecode fn m.core }
  | .leave mac => .ok { m with core := leaveInt mac m.core }
  | .switch next x =>
      match m.curr with
      | none => .error "no thread"
      | some prev => .ok (saveToNewContext behind m next prev x)

/-! ## Activations -/

/-- An activation: the registers of its own, the words it has put on the kernel stack, by which
macro it was entered, and the registers that it started with. -/
structure Act where
  regs : Regs
  loc : List (BitVec 64)
  via : Option (Macro × BitVec 64)
  entry : Regs

/-- A thread, its last activation first. -/
structure SThread where
  act : Act
  below : List Act
  isNew : Bool

/-- The threads, and which one runs. -/
structure Spec where
  thd : Nat → Option SThread
  curr : Option Nat

/-- Before there is a thread. -/
def Spec.init : Spec := ⟨fun _ => none, none⟩

/-- An activation starts. -/
def Act.start (r : Regs) (via : Option (Macro × BitVec 64)) : Act := ⟨r, [], via, r⟩

/-- The first activation of a thread. -/
def firstAct (stk : Stacks) (t : Nat) (user : Bool) (runadr : BitVec 64) (usrstktop : Nat) : Act :=
  .start (if user then
      ⟨fun _ => 0, fun _ => uDsIdx, usrstktop / 16 * 16, runadr, uCsIdx, umodEflags, uDsIdx⟩
    else ⟨fun _ => 0, fun _ => kDsIdx, stk.top t, runadr, kCsIdx, kmodEflags, 0⟩) none

/-- The registers of an activation after kernel code. -/
def Regs.after (r : Regs) (x : Scratch) (rip : BitVec 64) (rsp : Nat) : Regs :=
  { r with gpr := x.gpr, rflags := x.rflags, rip := rip, rsp := rsp }

/-- Where the next thread starts to pop, while `th` is not running. -/
def SThread.nextrsp (stk : Stacks) (t : Nat) (th : SThread) : Nat :=
  if th.isNew then stk.top t - sizeofIntstkregs else th.act.regs.rsp - 16 * 8

/-- The thread that runs. -/
def Spec.running (s : Spec) : Option (Nat × SThread) :=
  s.curr.bind fun t => (s.thd t).map fun th => (t, th)

/-- A thread is replaced. -/
def Spec.set (s : Spec) (t : Nat) (th : SThread) : Spec :=
  { s with thd := Function.update s.thd t (some th) }

/-- One step where activations have registers of their own.  Code that pops what is not its own,
and a kernel stack that would run over, are errors. -/
def specStep (stk : Stacks) (behind : BitVec 64) (s : Spec) : CtxEv → Except String Spec
  | .create t user runadr usrstktop =>
      if (s.thd t).isSome ∨ stk.top t < stk.start t + sizeofIntstkregs ∨ 2 ^ 64 ≤ usrstktop then
        .error "not a new thread"
      else .ok (s.set t ⟨firstAct stk t user runadr usrstktop, [], true⟩)
  | .start t =>
      match s.curr, s.thd t with
      | none, some th =>
          if th.isNew then .ok { s.set t { th with isNew := false } with curr := some t }
          else .error "not a new thread"
      | _, _ => .error "no such thread"
  | .code x rip k ws =>
      match s.running with
      | none => .error "no thread"
      | some (t, th) =>
          let a := th.act
          let rsp := a.regs.rsp + 8 * k - 8 * ws.length
          if a.regs.user ∨ a.loc.length < k ∨
              a.regs.rsp + 8 * k < stk.start t + 8 * (ws.length + x.below.length) then
            .error "not kernel code, or the stack runs over"
          else .ok (s.set t { th with
            act := { a with regs := Regs.after a.regs x rip rsp, loc := ws ++ a.loc.drop k } })
  | .user gpr seg rsp rip rflags =>
      match s.running with
      | none => .error "no thread"
      | some (t, th) =>
          if th.act.regs.user then .ok (s.set t { th with act := { th.act with
            regs := { th.act.regs with
              gpr := gpr, seg := seg, rsp := rsp.toNat, rip := rip, rflags := rflags } } })
          else .error "not user code"
  | .int mac ecode fn =>
      match s.running with
      | none => .error "no thread"
      | some (t, th) =>
          let a := th.act
          let base := a.regs.intBase (stk.top t)
          let n := (mac.frame ecode a.regs).length
          if base < stk.start t + 8 * n then .error "the stack runs over"
          else .ok (s.set t { th with
            act := .start (mac.entered a.regs (base - 8 * n) fn) (some (mac, ecode))
            below := a :: th.below })
  | .leave mac =>
      match s.running with
      | none => .error "no thread"
      | some (t, th) =>
          match th.act.via, th.act.loc, th.below with
          | some (mac', _), [], b :: below =>
              if mac = mac' then .ok (s.set t { th with
                act := { b with regs := mac.resumed th.act.regs b.regs }
                below := below })
              else .error "not its macro"
          | _, _, _ => .error "not at the end"
  | .switch next x =>
      match s.running with
      | none => .error "no thread"
      | some (t, th) =>
          if th.act.regs.user ∨ th.act.regs.rsp < stk.start t + 16 * 8 then
            .error "not kernel code, or the stack runs over"
          else
            let s := s.set t { th with
              act := { th.act with regs := { th.act.regs with rip := behind } } }
            match s.thd next with
            | none => .error "no such thread"
            | some th' =>
                if th'.nextrsp stk next < stk.start next + 8 * x.below.length then
                  .error "the stack runs over"
                else .ok { s.set next { th' with isNew := false } with curr := some next }

end Cosmos.Kernel
