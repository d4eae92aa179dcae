import Cosmos.Lib.Run
import Mathlib.Algebra.GroupWithZero.Nat
import Mathlib.Logic.Function.Basic

/-!
# Spin locks

`hal_spinlock_…` of `halcpuctrl.c`, one instruction at a time, on any number of CPUs.  The
functions `knl_spinlock_…` and `krlspinlock_…` are the same instructions.  A CPU runs a stack of
contexts, of which a hardware interrupt adds one and `iretq` takes one away; `krlschedul` goes on
with another stack, which comes back with the interrupts off (`save_to_new_context`).  Each
instruction is one step, `lock; xchg` too, and steps of the CPUs come in any order.

The functions are called as their callers do: a context gives back first what it took last, and
neither turns the interrupts on nor goes to `krlschedul` before it has given back what it took
with the interrupts off.
-/

namespace Cosmos.Hal

open Cosmos.Lib.Run

/-- Where a context is in these functions.  `cpuflg` is the interrupt flag that was saved, if the
lock is one that is taken with the interrupts off, and `reg` the register of `xchg`. -/
inductive Pc where
  /-- in other code -/
  | out
  | pushfq (lock : Nat)
  | cli (lock : Nat) (cpuflg : Bool)
  | popq (lock : Nat) (cpuflg : Bool)
  /-- label 1 -/
  | xchg (lock : Nat) (cpuflg : Option Bool) (reg : Nat)
  | cmpl (lock : Nat) (cpuflg : Option Bool) (reg : Nat)
  /-- label 2 -/
  | spin (lock : Nat) (cpuflg : Option Bool) (reg : Nat)
  | movl (lock : Nat) (cpuflg : Option Bool)
  | popfq (cpuflg : Bool)
deriving DecidableEq, Repr

/-- `hal_spinlock_lock`. -/
def halSpinlockLock (lock : Nat) : Pc := .xchg lock none 1

/-- `hal_spinlock_saveflg_cli`. -/
def halSpinlockSaveflgCli (lock : Nat) : Pc := .pushfq lock

/-- `hal_spinlock_unlock`. -/
def halSpinlockUnlock (lock : Nat) : Pc := .movl lock none

/-- `hal_spinunlock_restflg_sti`. -/
def halSpinunlockRestflgSti (lock : Nat) (cpuflg : Bool) : Pc := .movl lock (some cpuflg)

/-- A context. -/
structure Ctx where
  pc : Pc
  /-- the locks it has, the last one first, with the flag that was saved -/
  held : List (Nat × Option Bool)
  /-- the interrupt flag that its other code has set -/
  flg : Bool
deriving DecidableEq, Repr

/-- A CPU. -/
structure Cpu where
  iflag : Bool
  cur : Ctx
  /-- the contexts that were interrupted -/
  below : List Ctx
  /-- the stacks of the threads that do not run, the context that called `krlschedul` first -/
  parked : List (Ctx × List Ctx)
deriving DecidableEq, Repr

/-- The lock words and the CPUs. -/
structure Spin where
  lock : Nat → Nat
  cpus : List Cpu

/-- The next instruction of a context: memory, the context and the interrupt flag after it. -/
def instr (lock : Nat → Nat) (x : Ctx) (iflag : Bool) : (Nat → Nat) × Ctx × Bool :=
  match x.pc with
  | .out => (lock, x, iflag)
  | .pushfq l => (lock, { x with pc := .cli l iflag }, iflag)
  | .cli l f => (lock, { x with pc := .popq l f }, false)
  | .popq l f => (lock, { x with pc := .xchg l (some f) 1 }, iflag)
  | .xchg l f r => (Function.update lock l r, { x with pc := .cmpl l f (lock l) }, iflag)
  | .cmpl l f r =>
      if r = 0 then (lock, { x with pc := .out, held := (l, f) :: x.held }, iflag)
      else (lock, { x with pc := .spin l f r }, iflag)
  | .spin l f r =>
      if lock l = 0 then (lock, { x with pc := .xchg l f r }, iflag) else (lock, x, iflag)
  | .movl l none => (Function.update lock l 0, { x with pc := .out, held := x.held.tail }, iflag)
  | .movl l (some f) =>
      (Function.update lock l 0, { x with pc := .popfq f, held := x.held.tail }, iflag)
  | .popfq f => (lock, { x with pc := .out }, f)

/-- What a CPU does next. -/
inductive CpuOp where
  | instr
  | lock (l : Nat)
  | lockCli (l : Nat)
  | unlock
  | unlockSti
  /-- `hal_cpuflag_sti`, `hal_cpuflag_cli`, or the `popfq` of `save_to_new_context` -/
  | setIf (flg : Bool)
  /-- a hardware interrupt -/
  | hwint
  | iretq
  /-- a new thread -/
  | spawn
  /-- `save_to_new_context`, up to the call of `__to_new_context` -/
  | switch (i : Nat)
deriving DecidableEq, Repr

/-- The context has no lock that was taken with the interrupts off. -/
def Ctx.Open (x : Ctx) : Prop := x.held.filterMap Prod.snd = []

instance (x : Ctx) : Decidable x.Open := inferInstanceAs (Decidable (_ = _))

/-- One step of a CPU. -/
def cpuStep (lock : Nat → Nat) (k : Cpu) : CpuOp → Except String ((Nat → Nat) × Cpu)
  | .instr =>
      let (lock', x, f) := instr lock k.cur k.iflag
      .ok (lock', { k with iflag := f, cur := x })
  | .lock l =>
      if k.cur.pc = .out then
        .ok (lock, { k with cur := { k.cur with pc := halSpinlockLock l } })
      else .error "not in other code"
  | .lockCli l =>
      if k.cur.pc = .out then
        .ok (lock, { k with cur := { k.cur with pc := halSpinlockSaveflgCli l } })
      else .error "not in other code"
  | .unlock =>
      match k.cur.pc, k.cur.held with
      | .out, (l, none) :: _ =>
          .ok (lock, { k with cur := { k.cur with pc := halSpinlockUnlock l } })
      | _, _ => .error "no such lock taken last"
  | .unlockSti =>
      match k.cur.pc, k.cur.held with
      | .out, (l, some f) :: _ =>
          .ok (lock, { k with cur := { k.cur with pc := halSpinunlockRestflgSti l f } })
      | _, _ => .error "no such lock taken last"
  | .setIf flg =>
      if k.cur.pc = .out ∧ k.cur.Open then
        .ok (lock, { k with iflag := flg, cur := { k.cur with flg := flg } })
      else .error "not in other code"
  | .hwint =>
      if k.iflag = true then
        .ok (lock, { k with
          iflag := false
          cur := ⟨.out, [], false⟩
          below := k.cur :: k.below })
      else .error "interrupts are off"
  | .iretq =>
      match k.below with
      | [] => .error "no interrupt"
      | x :: below =>
          if k.cur.pc = .out ∧ k.cur.held = [] then
            .ok (lock, { k with iflag := true, cur := x, below := below })
          else .error "not in other code"
  | .spawn =>
      if k.cur.pc = .out then
        .ok (lock, { k with parked := k.parked ++ [(⟨.out, [], false⟩, [])] })
      else .error "not in other code"
  | .switch i =>
      match k.parked[i]? with
      | none => .error "no such thread"
      | some s =>
          if k.cur.pc = .out ∧ k.cur.Open then
            .ok (lock, { k with
              iflag := false
              cur := { s.1 with flg := false }
              below := s.2
              parked := k.parked.set i (k.cur, k.below) })
          else .error "not in other code"

/-- One step of the machine. -/
def spinStep (m : Spin) (op : Nat × CpuOp) : Except String Spin :=
  match m.cpus[op.1]? with
  | none => .error "no such CPU"
  | some k =>
      match cpuStep m.lock k op.2 with
      | .error e => .error e
      | .ok (lock, k') => .ok ⟨lock, m.cpus.set op.1 k'⟩

/-- A CPU that has started. -/
def Cpu.init : Cpu where
  iflag := false
  cur := ⟨.out, [], false⟩
  below := []
  parked := []

/-- `hal_spinlock_init` of every lock, with `n` CPUs. -/
def Spin.init (n : Nat) : Spin where
  lock := fun _ => 0
  cpus := List.replicate n Cpu.init

/-! ## Who has a lock -/

/-- The context is about to see that it has got the lock. -/
def Pc.got (l : Nat) : Pc → Nat
  | .cmpl l' _ r => if l' = l ∧ r = 0 then 1 else 0
  | _ => 0

/-- How often a context has a lock. -/
def Ctx.owns (l : Nat) (x : Ctx) : Nat := x.pc.got l + (x.held.map Prod.fst).count l

/-- The contexts of a stack that does not run. -/
def stackCtxs (s : Ctx × List Ctx) : List Ctx := s.1 :: s.2

/-- The contexts of a CPU that do not run. -/
def Cpu.rest (k : Cpu) : List Ctx := k.below ++ k.parked.flatMap stackCtxs

/-- The contexts of a CPU. -/
def Cpu.ctxs (k : Cpu) : List Ctx := k.cur :: k.rest

/-- How often contexts have a lock. -/
def ownsOf (l : Nat) (xs : List Ctx) : Nat := (xs.map (Ctx.owns l)).sum

/-- How often the contexts of the machine have a lock. -/
def Spin.owns (m : Spin) (l : Nat) : Nat := ownsOf l (m.cpus.flatMap Cpu.ctxs)

@[simp] theorem ownsOf_nil (l : Nat) : ownsOf l [] = 0 := rfl

@[simp] theorem ownsOf_cons (l : Nat) (x : Ctx) (xs : List Ctx) :
    ownsOf l (x :: xs) = x.owns l + ownsOf l xs := by
  simp [ownsOf]

@[simp] theorem ownsOf_append (l : Nat) (xs ys : List Ctx) :
    ownsOf l (xs ++ ys) = ownsOf l xs + ownsOf l ys := by
  simp [ownsOf]

theorem owns_le_ownsOf {l : Nat} {x : Ctx} {xs : List Ctx} (hx : x ∈ xs) :
    x.owns l ≤ ownsOf l xs := by
  induction xs with
  | nil => simp at hx
  | cons y xs ih =>
      rw [ownsOf_cons]
      rcases List.mem_cons.mp hx with rfl | hx
      · omega
      · have := ih hx
        omega

/-- One list of contexts replaced. -/
theorem ownsOf_flatMap_set {α : Type} (f : α → List Ctx) (l : Nat) {xs : List α} {i : Nat}
    {a : α} (b : α) (h : xs[i]? = some a) :
    ownsOf l ((xs.set i b).flatMap f) + ownsOf l (f a) =
      ownsOf l (xs.flatMap f) + ownsOf l (f b) := by
  induction xs generalizing i with
  | nil => simp at h
  | cons y xs ih =>
      cases i with
      | zero =>
          obtain rfl : y = a := by simpa using h
          simp
          omega
      | succ i =>
          have := ih (by simpa using h)
          simp
          omega

end Cosmos.Hal
