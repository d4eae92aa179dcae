import Cosmos.Kernel.KrlschedContextRun

/-!
# System calls

From a function `api_…` of the library to the function `krlsve_…` of the kernel: the macros
`API_ENTRY_PARE1` to `API_ENTRY_PARE4`, `int $255`, `EXI_SCALL`, `krlservice`, and the functions
of `osservicetab`, which read their parameters in `stkparame_t` on the kernel stack.

What a `krlsve_…` function does is modelled elsewhere.  Here only its arguments matter.

## Main results

* `krlservice_api` : the table takes the parameters in the order in which the library gives them.
* `service_called` : that holds at any time during a system call, and the caller gets the result.
-/

namespace Cosmos.Kernel

open Cosmos.Hal Cosmos.Lib.Stack Cosmos.Lib.Run

/-! ## The library -/

/-- A system call with its arguments: a function `api_…` of the library, and the function
`krlsve_…` of the kernel that does it. -/
inductive Service where
  | mallocblk (blksz : BitVec 64)
  | mfreeblk (fradr blksz : BitVec 64)
  | exelThread (file flgs : BitVec 64)
  | exitThread
  | retnThreadhand (tname : BitVec 64)
  | retnThreadstats (thand scode data buf : BitVec 64)
  | setThreadstats (thand scode data buf : BitVec 64)
  | openFile (file flgs stus : BitVec 64)
  | close (fhand : BitVec 64)
  | read (fhand buf len flgs : BitVec 64)
  | write (fhand buf len flgs : BitVec 64)
  | ioctrl (fhand buf iocode flgs : BitVec 64)
  | lseek (fhand lofset flgs : BitVec 64)
  | time (ttime : BitVec 64)
  | tick (id : BitVec 64)
deriving DecidableEq, Repr

/-- `INR_MM_ALLOC`. -/
abbrev inrMmAlloc : BitVec 64 := 0x1#64

/-- `INR_MM_FREE`. -/
abbrev inrMmFree : BitVec 64 := 0x2#64

/-- `INR_TD_EXEL`. -/
abbrev inrTdExel : BitVec 64 := 0x3#64

/-- `INR_TD_EXIT`. -/
abbrev inrTdExit : BitVec 64 := 0x4#64

/-- `INR_TD_HAND`. -/
abbrev inrTdHand : BitVec 64 := 0x5#64

/-- `INR_TD_RSTATS`. -/
abbrev inrTdRstats : BitVec 64 := 0x6#64

/-- `INR_TD_SSTATS`. -/
abbrev inrTdSstats : BitVec 64 := 0x7#64

/-- `INR_FS_OPEN`. -/
abbrev inrFsOpen : BitVec 64 := 0x8#64

/-- `INR_FS_CLOSE`. -/
abbrev inrFsClose : BitVec 64 := 0x9#64

/-- `INR_FS_READ`. -/
abbrev inrFsRead : BitVec 64 := 0xa#64

/-- `INR_FS_WRITE`. -/
abbrev inrFsWrite : BitVec 64 := 0xb#64

/-- `INR_FS_IOCTRL`. -/
abbrev inrFsIoctrl : BitVec 64 := 0xc#64

/-- `INR_FS_LSEEK`. -/
abbrev inrFsLseek : BitVec 64 := 0xd#64

/-- `INR_TIME`. -/
abbrev inrTime : BitVec 64 := 0xe#64

/-- `INR_TD_TICK`. -/
abbrev inrTdTick : BitVec 64 := 0xf#64

/-- `INR_MAX`. -/
abbrev inrMax : BitVec 64 := 0x10#64

/-- The general registers where `API_ENTRY_PARE1` has its `int $255`. -/
def apiEntryPare1 (g : Gpr → BitVec 64) (intnr pval1 : BitVec 64) : Gpr → BitVec 64 :=
  Function.update (Function.update g .rax intnr) .rbx pval1

/-- `API_ENTRY_PARE2`. -/
def apiEntryPare2 (g : Gpr → BitVec 64) (intnr pval1 pval2 : BitVec 64) : Gpr → BitVec 64 :=
  Function.update (apiEntryPare1 g intnr pval1) .rcx pval2

/-- `API_ENTRY_PARE3`. -/
def apiEntryPare3 (g : Gpr → BitVec 64) (intnr pval1 pval2 pval3 : BitVec 64) : Gpr → BitVec 64 :=
  Function.update (apiEntryPare2 g intnr pval1 pval2) .rdx pval3

/-- `API_ENTRY_PARE4`. -/
def apiEntryPare4 (g : Gpr → BitVec 64) (intnr pval1 pval2 pval3 pval4 : BitVec 64) :
    Gpr → BitVec 64 :=
  Function.update (apiEntryPare3 g intnr pval1 pval2 pval3) .rsi pval4

/-- `api_mallocblk` and the others up to `int $255`. -/
def Service.api (g : Gpr → BitVec 64) : Service → Gpr → BitVec 64
  | mallocblk blksz => apiEntryPare1 g inrMmAlloc blksz
  | mfreeblk fradr blksz => apiEntryPare2 g inrMmFree fradr blksz
  | exelThread file flgs => apiEntryPare2 g inrTdExel file flgs
  | exitThread => apiEntryPare1 g inrTdExit 0
  | retnThreadhand tname => apiEntryPare1 g inrTdHand tname
  | retnThreadstats thand scode data buf => apiEntryPare4 g inrTdRstats thand scode data buf
  | setThreadstats thand scode data buf => apiEntryPare4 g inrTdSstats thand scode data buf
  | openFile file flgs stus => apiEntryPare3 g inrFsOpen file flgs stus
  | close fhand => apiEntryPare1 g inrFsClose fhand
  | read fhand buf len flgs => apiEntryPare4 g inrFsRead fhand buf len flgs
  | write fhand buf len flgs => apiEntryPare4 g inrFsWrite fhand buf len flgs
  | ioctrl fhand buf iocode flgs => apiEntryPare4 g inrFsIoctrl fhand buf iocode flgs
  | lseek fhand lofset flgs => apiEntryPare3 g inrFsLseek fhand lofset flgs
  | time ttime => apiEntryPare1 g inrTime ttime
  | tick id => apiEntryPare1 g inrTdTick id

/-! ## The kernel -/

/-- `stkparame_t`. -/
structure Stkparame where
  (gs fs es ds : BitVec 64)
  (r15 r14 r13 r12 r11 r10 r9 r8 : BitVec 64)
  (parmv5 parmv4 rbp parmv3 parmv2 parmv1 : BitVec 64)
  (rvsrip rvscs rvsrflags rvsrsp rvsss : BitVec 64)

/-- What C code reads through a pointer to it. -/
def stkparameAt (f : Nat → UInt8) (a : Nat) : Stkparame :=
  let w (i : Nat) := load f (a + 8 * i)
  ⟨w 0, w 1, w 2, w 3, w 4, w 5, w 6, w 7, w 8, w 9, w 10, w 11, w 12, w 13, w 14, w 15, w 16,
    w 17, w 18, w 19, w 20, w 21, w 22⟩

/-- The functions of the table, which check their number.  `none` is `SYSSTUSERR`. -/
def krlsvetabl (nr : BitVec 64) (call : Stkparame → Service) (inr : BitVec 64)
    (stkparv : Stkparame) : Option Service :=
  if inr ≠ nr then none else some (call stkparv)

/-- `krlsvetabl_mallocblk`. -/
def krlsvetablMallocblk := krlsvetabl inrMmAlloc fun p => .mallocblk p.parmv1

/-- `krlsvetabl_mfreeblk`. -/
def krlsvetablMfreeblk := krlsvetabl inrMmFree fun p => .mfreeblk p.parmv1 p.parmv2

/-- `krlsvetabl_exel_thread`. -/
def krlsvetablExelThread := krlsvetabl inrTdExel fun p => .exelThread p.parmv1 p.parmv2

/-- `krlsvetabl_exit_thread`. -/
def krlsvetablExitThread := krlsvetabl inrTdExit fun _ => .exitThread

/-- `krlsvetabl_retn_threadhand`. -/
def krlsvetablRetnThreadhand := krlsvetabl inrTdHand fun p => .retnThreadhand p.parmv1

/-- `krlsvetabl_retn_threadstats`. -/
def krlsvetablRetnThreadstats := krlsvetabl inrTdRstats fun p =>
  .retnThreadstats p.parmv1 p.parmv2 p.parmv3 p.parmv4

/-- `krlsvetabl_set_threadstats`. -/
def krlsvetablSetThreadstats := krlsvetabl inrTdSstats fun p =>
  .setThreadstats p.parmv1 p.parmv2 p.parmv3 p.parmv4

/-- `krlsvetabl_open`. -/
def krlsvetablOpen := krlsvetabl inrFsOpen fun p => .openFile p.parmv1 p.parmv2 p.parmv3

/-- `krlsvetabl_close`. -/
def krlsvetablClose := krlsvetabl inrFsClose fun p => .close p.parmv1

/-- `krlsvetabl_read`. -/
def krlsvetablRead := krlsvetabl inrFsRead fun p => .read p.parmv1 p.parmv2 p.parmv3 p.parmv4

/-- `krlsvetabl_write`. -/
def krlsvetablWrite := krlsvetabl inrFsWrite fun p => .write p.parmv1 p.parmv2 p.parmv3 p.parmv4

/-- `krlsvetabl_ioctrl`. -/
def krlsvetablIoctrl := krlsvetabl inrFsIoctrl fun p =>
  .ioctrl p.parmv1 p.parmv2 p.parmv3 p.parmv4

/-- `krlsvetabl_lseek`. -/
def krlsvetablLseek := krlsvetabl inrFsLseek fun p => .lseek p.parmv1 p.parmv2 p.parmv3

/-- `krlsvetabl_time`. -/
def krlsvetablTime := krlsvetabl inrTime fun p => .time p.parmv1

/-- `krlsvetabl_tick`. -/
def krlsvetablTick := krlsvetabl inrTdTick fun p => .tick p.parmv1

/-- `osservicetab`. -/
def osservicetab : List (Option (BitVec 64 → Stkparame → Option Service)) :=
  [none, krlsvetablMallocblk, krlsvetablMfreeblk, krlsvetablExelThread, krlsvetablExitThread,
    krlsvetablRetnThreadhand, krlsvetablRetnThreadstats, krlsvetablSetThreadstats,
    krlsvetablOpen, krlsvetablClose, krlsvetablRead, krlsvetablWrite, krlsvetablIoctrl,
    krlsvetablLseek, krlsvetablTime, krlsvetablTick]

/-- `krlservice`. -/
def krlservice (inr : BitVec 64) (sframe : Stkparame) : Option Service :=
  if inrMax ≤ inr then none
  else do
    let f ← osservicetab.getD inr.toNat none
    f inr sframe

/-! ## From one to the other -/

variable {f : Nat → UInt8} {g : Gpr → BitVec 64} {adr : Nat} {ecode : BitVec 64} {r : Regs}

/-- **The table takes what the library gives**: each function of the kernel is called with the
arguments of its function in the library. -/
theorem krlservice_api (sv : Service) (p : Stkparame) (h1 : sv.api g .rbx = p.parmv1)
    (h2 : sv.api g .rcx = p.parmv2) (h3 : sv.api g .rdx = p.parmv3)
    (h4 : sv.api g .rsi = p.parmv4) : krlservice (sv.api g .rax) p = some sv := by
  cases p
  subst h1 h2 h3 h4
  cases sv <;> rfl

/-- The frame of `EXI_SCALL` shows the registers of the caller. -/
theorem krlservice_frame (sv : Service)
    (hw : Words f adr (Macro.exiScall.frame ecode r)) (hsv : r.gpr = sv.api g) :
    krlservice (r.gpr .rax) (stkparameAt f adr) = some sv := by
  have hlen : (Macro.exiScall.frame ecode r).length = 23 := rfl
  rw [hsv]
  refine krlservice_api sv (stkparameAt f adr) ?_ ?_ ?_ ?_
  · exact (congrFun hsv .rbx).symm.trans (hw.get (n := 17) (by omega)).symm
  · exact (congrFun hsv .rcx).symm.trans (hw.get (n := 16) (by omega)).symm
  · exact (congrFun hsv .rdx).symm.trans (hw.get (n := 15) (by omega)).symm
  · exact (congrFun hsv .rsi).symm.trans (hw.get (n := 13) (by omega)).symm

/-- **A system call is done with the arguments of its caller.**  The C function of a system call
has been given a number and a pointer.  Whatever it has done since, and whatever interrupts and
other threads have, these select the function that the library has called, with its arguments.
When it returns, its caller goes on where it was, with the result in `rax`. -/
theorem service_called (stk : Stacks) (behind : BitVec 64) (m : Mach) (evs : List CtxEv)
    (s : Spec) (hcurr : m.curr = none) (hrun : run (specStep stk behind) evs .init = .ok s)
    (t : Nat) (th : SThread) (hth : s.running = some (t, th)) (b : Act) (below : List Act)
    (hbelow : th.below = b :: below) (ecode : BitVec 64)
    (hvia : th.act.via = some (.exiScall, ecode)) (sv : Service) (g : Gpr → BitVec 64)
    (hsv : b.regs.gpr = sv.api g) :
    ∃ m', run (machStep stk behind) evs m = .ok m' ∧
      krlservice (th.act.entry.gpr .rdi)
        (stkparameAt m'.core.mem (th.act.entry.gpr .rsi).toNat) = some sv ∧
      (th.act.loc = [] → ∃ m'', machStep stk behind m' (.leave .exiScall) = .ok m'' ∧
        m''.core.regs = { b.regs with
          gpr := Function.update b.regs.gpr .rax (th.act.regs.gpr .rax) }) := by
  obtain ⟨m', hm', hs⟩ := run_sameThreads hcurr hrun
  obtain ⟨-, hr⟩ := hs.running hth
  refine ⟨m', hm', ?_, fun hloc => ?_⟩
  · obtain ⟨adr, fn, hentry, hle, hw⟩ := (hbelow ▸ hr.stack).frame hvia
    have hlt := stk.top_lt t
    have hrdi : th.act.entry.gpr .rdi = b.regs.gpr .rax := by
      rw [hentry]
      rfl
    have hrsi : (th.act.entry.gpr .rsi).toNat = adr := by
      rw [hentry]
      exact (BitVec.toNat_ofNat ..).trans (Nat.mod_eq_of_lt (by omega))
    rw [hrdi, hrsi]
    exact krlservice_frame sv hw hsv
  · obtain ⟨hr', -⟩ := hr.leave hvia hloc hbelow
    exact ⟨_, rfl, hr'.regs⟩

/-- A user thread writes 12 bytes.  The call is interrupted, and then returns 12. -/
def writeCall : List CtxEv :=
  [.create 0 true 0x200 0x8000, .start 0,
   .user ((Service.write 3 0x5000 12 1).api fun _ => 8) (fun _ => uDsIdx) 0x7000 0x204 0x1202,
   .int .exiScall 0 0x300, .code ⟨fun _ => 9, 0x202, []⟩ 0x304 0 [5, 6],
   .int (.harwint 0x20) 0 0x310, .code ⟨fun _ => 1, 0x202, [7, 7]⟩ 0x314 0 [],
   .leave (.harwint 0x20), .code ⟨fun _ => 12, 0x002, [3]⟩ 0x308 2 []]

theorem service_called_writeCall :
    ∃ m' m'', run (machStep twoStacks 0x400) writeCall bootMach = .ok m' ∧
      krlservice inrFsWrite (stkparameAt m'.core.mem 0x1f38) = some (.write 3 0x5000 12 1) ∧
      machStep twoStacks 0x400 m' (.leave .exiScall) = .ok m'' ∧
      m''.core.regs.gpr .rax = 12 ∧ m''.core.regs.gpr .rbx = 3 := by
  have hok : okAnd (run (specStep twoStacks 0x400) writeCall .init) (fun s =>
      s.running.any fun p => p.2.act.via == some (.exiScall, 0) && (p.2.act.loc == [] &&
        (p.2.act.entry.gpr .rdi == inrFsWrite && (p.2.act.entry.gpr .rsi == 0x1f38 &&
          (p.2.act.regs.gpr .rax == 12 && p.2.below.head?.any fun b =>
            allGprs.all fun r => b.regs.gpr r ==
              (Service.write 3 0x5000 12 1).api (fun _ => 8) r))))) = true := by decide
  obtain ⟨s, hrun, htest⟩ := exists_of_okAnd hok
  simp only [Bool.and_eq_true, Option.any_eq_true, beq_iff_eq] at htest
  obtain ⟨⟨t, th⟩, hth, hvia, hloc, hrdi, hrsi, hrax, b, hb, hgpr⟩ := htest
  obtain ⟨below, hbelow⟩ := List.head?_eq_some_iff.mp hb
  have hsv : b.regs.gpr = (Service.write 3 0x5000 12 1).api (fun _ => 8) := by
    funext r
    refine beq_iff_eq.mp (List.all_eq_true.mp hgpr r ?_)
    cases r <;> decide
  obtain ⟨m', hm', hcall, hback⟩ := service_called twoStacks 0x400 bootMach writeCall s rfl hrun
    t th hth b below hbelow 0 hvia (.write 3 0x5000 12 1) (fun _ => 8) hsv
  obtain ⟨m'', hm'', hregs⟩ := hback hloc
  rw [hrdi, hrsi] at hcall
  refine ⟨m', m'', hm', hcall, hm'', ?_, ?_⟩
  · rw [hregs, ← hrax]
    rfl
  · rw [hregs, hsv]
    rfl

end Cosmos.Kernel
