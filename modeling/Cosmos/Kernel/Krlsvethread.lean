import Cosmos.Kernel.Krlthread
import Cosmos.Kernel.KrlvadrsmemShare
import Cosmos.Kernel.KrlschedRun

/-!
# A program gets a thread

`krlsve_core_exel_thread` and what it calls.  A call has three steps: it makes a user thread
with its address space, `krlschdclass_add_thread` puts the thread on a ready list, and
`krlthread_execvl` makes the region of the program.  Interrupts are on, and the timer may
change the thread between any two of them.

`krlnew` serves kernel stacks, descriptors and long names from `kms`, like `kmsob_new`.
-/

namespace Cosmos.Kernel

open Cosmos.Lib Cosmos.Lib.Run Cosmos.Lib.StM Cosmos.Lib.Word64 Cosmos.Hal

/-- `DAFT_TDUSRSTKSZ`. -/
def daftTdusrstksz : Nat := 0x8000

/-- `THREAD_NAME_MAX`. -/
def threadNameMax : Nat := 64

/-- The descriptor `vs_stackkmvdsc` points to. -/
def Virmemadrs.stack (vma : Virmemadrs) : Option Kmvarsdsc :=
  vma.vsStackkmvdsc.bind fun a => Chain.node Kmvarsdsc.adr a vma.vsList

/-- `thread_name`, of a name with `len` letters: a long one gets memory of its own. -/
def threadName (len : Nat) : VmaM Unit := do
  if len < threadNameMax - 1 then return ()
  else
    let _ ← kmsobTake
    return ()

/-- `krlnew_user_thread_core` up to `krlschdclass_add_thread`: the thread and its
`td_mmdsc`. -/
def krlnewUserThreadCore (pml4 : Nat → Nat) (cr3 : PageFrame) (name usrstksz : Nat) :
    VmaM (Option (Nat × Nat)) := do
  match ← newMmadrsdsc pml4 with
  | none => return none
  | some mm =>
      match (← get).vma.stack with
      | none =>
          let _ ← delMmadrsdsc mm cr3
          return none
      | some stack =>
          if stack.kvaEnd ≠ userVirtualAddressEnd ∨ sub64 stack.kvaEnd stack.kvaStart < usrstksz then
            let _ ← delMmadrsdsc mm cr3
            return none
          else
            match ← kmsobTake with
            | none =>
                let _ ← delMmadrsdsc mm cr3
                return none
            | some krlstkadr =>
                match ← kmsobTake with
                | none =>
                    let _ ← kmsobGive krlstkadr
                    let _ ← delMmadrsdsc mm cr3
                    return none
                | some retTd =>
                    threadName name
                    return some (retTd, mm)

/-- The kernel objects after `krlthread_execvl` failed: a request may have been refused. -/
def krlthreadExecvlKms (s : VmaSt) (file : Nat × Nat) : Supply Nat :=
  if file.1 = 0 ∨ file.2 = 0 then s.kms
  else if threadHeapadrStart ≤ add64 0x100000 file.2 then s.kms
  else (kvmaInitdefaultVirmemadrs s.vma s.kms apprunStartVitrualaddr file.2 kmvBinType).2.2

/-! ## Calls in steps -/

/-- How far a call of `krlsve_core_exel_thread` is. -/
inductive ExelPc where
  | start
  /-- there is a thread -/
  | made (t : Nat)
  /-- it is on a ready list -/
  | added (t : Nat)
  /-- `krlthread_execvl` has made the region, and the call has returned -/
  | mapped (t : Nat)
  /-- `krlthread_execvl` has failed, and the call has returned -/
  | unmapped (t : Nat)
  /-- the call has returned without a thread -/
  | refused
deriving DecidableEq, Repr

/-- The call has not returned. -/
def ExelPc.underWay : ExelPc → Bool
  | .start => true
  | .made _ => true
  | .added _ => true
  | _ => false

/-- The thread that the call has made. -/
def ExelPc.thread : ExelPc → Option Nat
  | .made t => some t
  | .added t => some t
  | .mapped t => some t
  | .unmapped t => some t
  | _ => none

/-- A call: the thread that makes it, the length of the name, and where
`get_file_rvadrandsz` finds the file, with its size. -/
structure ExelCall where
  caller : Nat
  name : Nat
  file : Nat × Nat
  pc : ExelPc
deriving DecidableEq, Repr

/-- The scheduler, the memory of the kernel, the user threads with their address spaces
and programs, and the calls so far.  A thread is named by its address. -/
structure ExelSt where
  sched : SchedState
  cur : VmaSt
  td : Nat → Option (Mmadrsdsc × (Nat × Nat))
  calls : List ExelCall

/-- Before the first call: only the idle thread is there, which makes the first user thread. -/
def ExelSt.init (idle : Nat) (k : VmaSt) : ExelSt where
  sched := SchedState.init idle
  cur := k
  td := fun _ => none
  calls := []

/-- Call `i` goes on. -/
def ExelSt.setPc (st : ExelSt) (i : Nat) (c : ExelCall) (pc : ExelPc) : ExelSt :=
  { st with calls := st.calls.set i { c with pc := pc } }

/-- The next step of call `i`. -/
def exelGo (pml4 : Nat → Nat) (cr3 : PageFrame) (st : ExelSt) (i : Nat) (c : ExelCall) :
    Except String ExelSt :=
  match c.pc with
  | .start =>
      if c.file.1 = 0 ∨ c.file.2 = 0 then .ok (st.setPc i c .refused)
      else
        match (krlnewUserThreadCore pml4 cr3 c.name daftTdusrstksz).run st.cur with
        | .error e => .error e
        | .ok (none, s) => .ok ({ st with cur := s }.setPc i c .refused)
        | .ok (some (t, mm), s) =>
            -- `msd_thread` is the new thread
            let mmdsc := { s.leave mm with msdThread := some c.file }
            .ok ({ st with
              cur := s
              td := Function.update st.td t (some (mmdsc, c.file)) }.setPc i c (.made t))
  | .made t =>
      (schedStep st.sched (.addThread t prityMin)).map fun sched =>
        { st with sched := sched }.setPc i c (.added t)
  | .added t =>
      match st.td t with
      | none => .error "no thread"
      | some (mm, file) =>
          match krlthreadExecvl (st.cur.enter mm) file with
          | none =>
              let kms := krlthreadExecvlKms (st.cur.enter mm) file
              .ok ({ st with cur := { st.cur with kms := kms } }.setPc i c (.unmapped t))
          | some s =>
              .ok ({ st with
                cur := s
                td := Function.update st.td t (some (s.leave mm.adr, file)) }.setPc i c (.mapped t))
  | _ => .error "the call has returned"

/-- What happens: the current thread calls `krlsve_exel_thread`, a call goes on, the timer
ticks. -/
inductive ExelOp where
  | call (name : Nat) (file : Nat × Nat)
  | go (i : Nat)
  | timer
deriving DecidableEq, Repr

/-- One step.  Only the current thread makes calls and goes on with them, one at a time. -/
def exelStep (pml4 : Nat → Nat) (cr3 : PageFrame) (st : ExelSt) : ExelOp → Except String ExelSt
  | .call name file =>
      match krlschedRetnCurrthread st.sched.s with
      | .error e => .error e
      | .ok caller =>
          if st.calls.any fun c => c.caller = caller && c.pc.underWay then .error "in a call"
          else .ok { st with calls := st.calls ++ [⟨caller, name, file, .start⟩] }
  | .go i =>
      match st.calls[i]? with
      | none => .error "no call"
      | some c =>
          if st.sched.s.schda.sdaCurrtd = some c.caller then exelGo pml4 cr3 st i c
          else .error "not running"
  | .timer => (schedStep st.sched .schedul).map fun sched => { st with sched := sched }

/-! ## What threads that run need -/

/-- The address space has the region of a program with `len` bytes, and a fault at its first
instruction finds it. -/
def ProgramMapped (vma : Virmemadrs) (len : Nat) : Prop :=
  ∃ r ∈ vma.vsList, r.kvaMaptype = kmvBinType ∧ r.kvaStart = apprunStartVitrualaddr ∧
    apprunStartVitrualaddr + len ≤ r.kvaEnd ∧
    vmaMapFindKmvarsdsc vma apprunStartVitrualaddr = some r

/-- The thread is on a ready list, or selected to run. -/
def Runnable (s : Sched) (t : Nat) : Prop :=
  (∃ p, t ∈ s.listOf (.ready p) ∨ t ∈ s.listOf (.running p)) ∨ s.schda.sdaCurrtd = some t

/-- The program of every user thread that is runnable is mapped. -/
def RunnableMapped (st : ExelSt) : Prop :=
  ∀ t mm file, st.td t = some (mm, file) → Runnable st.sched.s t →
    ProgramMapped mm.msdVirmemadrs file.2

/-- In no call is the thread on a ready list without its program: none is between these two
steps, and none has failed in the second. -/
def AddedMapped (st : ExelSt) : Prop :=
  ∀ c ∈ st.calls, ∀ t, c.pc ≠ .added t ∧ c.pc ≠ .unmapped t

/-- The step puts no thread on a ready list. -/
def AddsNone (st : ExelSt) (op : ExelOp) : Prop :=
  ∀ i, op = .go i → ∀ c, st.calls[i]? = some c → ∀ t, c.pc ≠ .made t

/-- A file that is found is in the memory that the kernel maps. -/
def FileOk (file : Nat × Nat) : Prop := file.1 = 0 ∨ file.2 = 0 ∨ InKernelMap file

/-- The file of a call is. -/
def ExelOp.FileOk : ExelOp → Prop
  | .call _ file => Kernel.FileOk file
  | _ => True

end Cosmos.Kernel
