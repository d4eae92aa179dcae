import Cosmos.Kernel.KrlschedContext

/-!
# Threads have registers of their own

`SameThreads` relates the CPU to the machine in which each activation has its own registers: the
thread that runs shows its last activation, its kernel stack holds a frame for each activation
below, and the others have what `save_to_new_context` or the first frame has put there.

## Main results

* `threads_own_registers` : the CPU does what that machine does, in any order of events.
-/

namespace Cosmos.Kernel

open Cosmos.Hal Cosmos.Lib.Stack Cosmos.Lib.Run

variable {stk : Stacks} {behind : BitVec 64} {f g : Nat → UInt8} {top t : Nat} {a b : Act}
  {below : List Act} {c : Core}

/-! ## The words of a stack -/

/-- The segments of kernel code. -/
structure KernRegs (r : Regs) : Prop where
  cs : r.cs = kCsIdx
  seg : r.seg = fun _ => kernelDs
  ss : r.ss = 0

theorem KernRegs.user {r : Regs} (h : KernRegs r) : r.user = false := by
  unfold Regs.user
  rw [h.cs]
  decide

/-- The kernel stack below `top` holds the activations of a thread, the last one first. -/
inductive OnStack (f : Nat → UInt8) (top : Nat) : Act → List Act → Prop
  /-- user code has nothing there -/
  | user {a : Act} (hu : a.regs.user = true) (hloc : a.loc = []) (hlt : a.regs.rsp < 2 ^ 64) :
      OnStack f top a []
  | first {a : Act} (hk : KernRegs a.regs) (hsp : a.regs.rsp + 8 * a.loc.length = top)
      (hw : Words f a.regs.rsp a.loc) : OnStack f top a []
  | int {a b : Act} {below : List Act} {mac : Macro} {ecode : BitVec 64} (hk : KernRegs a.regs)
      {fn : BitVec 64} (hvia : a.via = some (mac, ecode))
      (hentry : a.entry = mac.entered b.regs (a.regs.rsp + 8 * a.loc.length) fn)
      (hsp : a.regs.rsp + 8 * (a.loc ++ mac.frame ecode b.regs).length = b.regs.intBase top)
      (hw : Words f a.regs.rsp (a.loc ++ mac.frame ecode b.regs))
      (hrest : OnStack f top b below) : OnStack f top a (b :: below)

theorem intBase_user (top : Nat) {r : Regs} (h : r.user = true) : r.intBase top ≤ top := by
  rw [Regs.intBase, h]
  exact Nat.div_mul_le_self top 16

theorem intBase_kern (top : Nat) {r : Regs} (h : r.user = false) : r.intBase top ≤ r.rsp := by
  rw [Regs.intBase, h]
  exact Nat.div_mul_le_self r.rsp 16

theorem OnStack.rsp_le (h : OnStack f top a below) (ha : a.regs.user = false) :
    a.regs.rsp ≤ top := by
  induction h with
  | user hu => rw [hu] at ha; cases ha
  | first hk hsp hw => omega
  | @int a b below mac ecode hk fn hvia hentry hsp hw hrest ih =>
      cases hb : b.regs.user with
      | true => have := intBase_user top hb; omega
      | false => have := intBase_kern top hb; have := ih hb; omega

theorem OnStack.intBase_le (h : OnStack f top a below) : a.regs.intBase top ≤ top := by
  cases ha : a.regs.user with
  | true => exact intBase_user _ ha
  | false => exact Nat.le_trans (intBase_kern _ ha) (h.rsp_le ha)

theorem OnStack.rsp_lt (h : OnStack f top a below) (htop : top < 2 ^ 64) :
    a.regs.rsp < 2 ^ 64 := by
  cases ha : a.regs.user with
  | false => exact Nat.lt_of_le_of_lt (h.rsp_le ha) htop
  | true =>
      cases h with
      | user hu hloc hlt => exact hlt
      | first hk => rw [hk.user] at ha; cases ha
      | int hk => rw [hk.user] at ha; cases ha

theorem OnStack.words (h : OnStack f top a below) : Words f a.regs.rsp a.loc := by
  cases h with
  | user hu hloc hlt => rw [hloc]; trivial
  | first hk hsp hw => exact hw
  | int hk hvia hentry hsp hw hrest => exact (words_append.mp hw).1

/-- The frame of the activation below is where it was when the C function started. -/
theorem OnStack.frame (h : OnStack f top a (b :: below)) {mac : Macro} {ecode : BitVec 64}
    (hvia : a.via = some (mac, ecode)) :
    ∃ adr fn, a.entry = mac.entered b.regs adr fn ∧ adr ≤ top ∧
      Words f adr (mac.frame ecode b.regs) := by
  cases h with
  | int hk hvia' hentry hsp hw hrest =>
      rw [hvia] at hvia'
      cases hvia'
      have hle := hrest.intBase_le
      rw [List.length_append] at hsp
      exact ⟨_, _, hentry, by omega, (words_append.mp hw).2⟩

/-- Only the words between `rsp` and `top` matter. -/
theorem OnStack.congr (h : OnStack f top a below)
    (hfg : a.regs.user = false → ∀ o, a.regs.rsp ≤ o → o < top → g o = f o) :
    OnStack g top a below := by
  induction h with
  | user hu hloc hlt => exact .user hu hloc hlt
  | first hk hsp hw =>
      exact .first hk hsp (words_congr (fun o h1 h2 => hfg hk.user o h1 (by omega)) hw)
  | @int a b below mac ecode hk fn hvia hentry hsp hw hrest ih =>
      have hle := hrest.intBase_le
      refine .int hk hvia hentry hsp (words_congr (fun o h1 h2 => hfg hk.user o h1 (by omega)) hw)
        (ih fun hb o h1 h2 => hfg hk.user o ?_ h2)
      have := intBase_kern top hb
      omega

/-- Other general registers, flags and another place in the code. -/
theorem OnStack.regs (h : OnStack f top a below) {r : Regs} (hrsp : r.rsp = a.regs.rsp)
    (hcs : r.cs = a.regs.cs) (hseg : r.seg = a.regs.seg) (hss : r.ss = a.regs.ss) :
    OnStack f top { a with regs := r } below := by
  have huser : r.user = a.regs.user := by simp [Regs.user, hcs]
  have hkern : KernRegs a.regs → KernRegs r := fun hk =>
    ⟨hcs.trans hk.cs, hseg.trans hk.seg, hss.trans hk.ss⟩
  cases h with
  | user hu hloc hlt => exact .user (huser.trans hu) hloc (hrsp ▸ hlt)
  | first hk hsp hw => exact .first (hkern hk) (hrsp ▸ hsp) (hrsp ▸ hw)
  | int hk hvia hentry hsp hw hrest =>
      exact .int (hkern hk) hvia (hrsp ▸ hentry) (hrsp ▸ hsp) (hrsp ▸ hw) hrest

theorem OnStack.kern (h : OnStack f top a below) (ha : a.regs.user = false) :
    KernRegs a.regs := by
  cases h with
  | user hu => rw [hu] at ha; cases ha
  | first hk => exact hk
  | int hk => exact hk

/-! ## The pieces of code -/

/-- The general registers, in the order of the pushes. -/
abbrev allGprs : List Gpr := (Macro.harwint 0).saved

/-- What `save_to_new_context` leaves on the stack. -/
def savedWords (r : Regs) : List (BitVec 64) := (allGprs.map r.gpr).reverse ++ [r.rflags]

theorem savedWords_length (r : Regs) : (savedWords r).length = 16 := rfl

/-- The pushes. -/
theorem saveCode_spec (hroom : 16 * 8 ≤ c.regs.rsp) (hlt : c.regs.rsp < 2 ^ 64) :
    ∃ mem, execs saveCode c = ⟨{ c.regs with
        rflags := c.regs.rflags &&& ~~~ifFlag
        rsp := c.regs.rsp - 16 * 8 }, mem⟩ ∧
      Pushed c.mem c.regs.rsp mem (savedWords c.regs) := by
  obtain ⟨mem₁, heq₁, hp₁⟩ := Core.push_pushed (c := c) c.regs.rflags (by omega) hlt
  obtain ⟨mem₂, heq₂, hp₂⟩ := pushes_spec allGprs
    (c := ⟨{ c.regs with
      rflags := c.regs.rflags &&& ~~~ifFlag
      rsp := c.regs.rsp - 8 }, mem₁⟩)
    (show 8 * 15 ≤ c.regs.rsp - 8 by omega) (show c.regs.rsp - 8 < 2 ^ 64 by omega)
  refine ⟨mem₂, ?_, hp₁.trans hp₂⟩
  have hcode : saveCode = [.pushfq, .cli] ++ allGprs.map .push := rfl
  have hfirst : execs [.pushfq, .cli] c = ⟨{ c.regs with
      rflags := c.regs.rflags &&& ~~~ifFlag
      rsp := c.regs.rsp - 8 }, mem₁⟩ := by
    simp only [execs, List.foldl_cons, List.foldl_nil, exec, heq₁]
  rw [hcode, execs_append, hfirst, heq₂]
  have hrsp : c.regs.rsp - 8 - 8 * allGprs.length = c.regs.rsp - 16 * 8 := by
    rw [show allGprs.length = 15 from rfl]
    omega
  simp only [hrsp]

/-- The pops. -/
theorem restoreCode_spec {r : Regs} (hws : Words c.mem c.regs.rsp (savedWords r))
    (hlt : c.regs.rsp + 16 * 8 < 2 ^ 64) :
    execs restoreCode c = ⟨{ c.regs with
      gpr := r.gpr
      rflags := r.rflags
      rsp := c.regs.rsp + 16 * 8 }, c.mem⟩ := by
  rw [savedWords, ← List.map_reverse, words_append] at hws
  obtain ⟨hgprs, hflags, -⟩ := hws
  have hcode : restoreCode = allGprs.reverse.map .pop ++ [.popfq] := rfl
  have hall : (fun x => if x ∈ allGprs.reverse then r.gpr x else c.regs.gpr x) = r.gpr := by
    funext x
    cases x <;> rfl
  rw [hcode, execs_append, pops_spec allGprs.reverse r.gpr hgprs (show _ + 8 * 15 < _ by omega),
    hall]
  have hzero : (c.regs.rsp + 8 * 15) % 2 ^ 64 = c.regs.rsp + 8 * 15 := Nat.mod_eq_of_lt (by omega)
  have hone : (c.regs.rsp + 8 * 15 + 8 * 1) % 2 ^ 64 = c.regs.rsp + 16 * 8 := by omega
  have hword : load c.mem (c.regs.rsp + 8 * 15) = r.rflags := hflags
  show exec _ .popfq = _
  simp only [exec, Core.drop, Core.word, Nat.mul_zero, Nat.add_zero,
    show allGprs.reverse.length = 15 from rfl, hzero, hone, hword]

/-- What C code leaves behind. -/
theorem scratch_spec (x : Scratch) (hroom : 8 * x.below.length ≤ c.regs.rsp)
    (hlt : c.regs.rsp < 2 ^ 64) :
    ∃ mem, scratch c x = ⟨{ c.regs with gpr := x.gpr, rflags := x.rflags }, mem⟩ ∧
      Pushed c.mem c.regs.rsp mem x.below.reverse := by
  obtain ⟨mem, heq, hp⟩ := pushWords_spec (c := c) x.below hroom hlt
  exact ⟨mem, by simp only [scratch, heq], hp⟩

/-- The first frame of a thread. -/
theorem firstSched_spec {r : Regs} (hws : Words c.mem c.regs.rsp ((Macro.harwint 0).frame 0 r))
    (hlt : c.regs.rsp + sizeofIntstkregs < 2 ^ 64) (hrsp : r.rsp < 2 ^ 64) :
    execs firstSchedCode c = ⟨r, c.mem⟩ :=
  leaveInt_spec (.harwint 0) hws hlt hrsp

/-! ## Both machines -/

theorem Stacks.top_le (stk : Stacks) (t : Nat) : stk.top t ≤ stk.start t + stk.size t :=
  Nat.le_trans (Nat.div_mul_le_self _ 16) (by omega)

theorem Stacks.top_lt (stk : Stacks) (t : Nat) : stk.top t < 2 ^ 64 :=
  Nat.lt_of_le_of_lt (stk.top_le t) (stk.lt t)

/-- A thread that has not run yet. -/
structure FirstFrame (f : Nat → UInt8) (start top nextrsp : Nat) (th : SThread) : Prop where
  adr : nextrsp + sizeofIntstkregs = top
  start_le : start ≤ nextrsp
  words : Words f nextrsp ((Macro.harwint 0).frame 0 th.act.regs)
  stack : OnStack f top th.act th.below
  low : th.act.regs.user = false → nextrsp ≤ th.act.regs.rsp

/-- A thread in `save_to_new_context`. -/
structure ParkedAt (behind : BitVec 64) (f : Nat → UInt8) (start top nextrsp : Nat)
    (th : SThread) : Prop where
  adr : nextrsp + 16 * 8 = th.act.regs.rsp
  start_le : start ≤ nextrsp
  words : Words f nextrsp (savedWords th.act.regs)
  kern : th.act.regs.user = false
  rip : th.act.regs.rip = behind
  stack : OnStack f top th.act th.below

/-- A thread that does not run. -/
structure WaitsOn (stk : Stacks) (behind : BitVec 64) (f : Nat → UInt8) (t : Nat) (td : Tctx)
    (th : SThread) : Prop where
  top : td.tdKrlstktop = stk.top t
  isNew : td.isNew = th.isNew
  first : th.isNew = true → FirstFrame f (stk.start t) (stk.top t) td.ctxNextrsp th
  parked : th.isNew = false → ParkedAt behind f (stk.start t) (stk.top t) td.ctxNextrsp th

/-- The thread that runs. -/
structure RunsOn (stk : Stacks) (t : Nat) (m : Mach) (th : SThread) : Prop where
  top : (m.td t).tdKrlstktop = stk.top t
  notNew : (m.td t).isNew = false
  isNew : th.isNew = false
  regs : m.core.regs = th.act.regs
  rsp0 : m.rsp0 = stk.top t
  stack : OnStack m.core.mem (stk.top t) th.act th.below
  low : th.act.regs.user = false → stk.start t ≤ th.act.regs.rsp

/-- The CPU shows what the machine of activations has. -/
structure SameThreads (stk : Stacks) (behind : BitVec 64) (s : Spec) (m : Mach) : Prop where
  curr : m.curr = s.curr
  runs : ∀ t, s.curr = some t → ∃ th, s.thd t = some th ∧ RunsOn stk t m th
  waits : ∀ t th, s.thd t = some th → s.curr ≠ some t →
    WaitsOn stk behind m.core.mem t (m.td t) th

variable {s s' : Spec} {m m' : Mach} {th th' : SThread} {td : Tctx}

theorem WaitsOn.start_le (h : WaitsOn stk behind f t td th) : stk.start t ≤ td.ctxNextrsp := by
  cases hnew : th.isNew with
  | true => exact (h.first hnew).start_le
  | false => exact (h.parked hnew).start_le

theorem WaitsOn.le_top (h : WaitsOn stk behind f t td th) : td.ctxNextrsp ≤ stk.top t := by
  cases hnew : th.isNew with
  | true => exact Nat.le_of_add_right_le (Nat.le_of_eq (h.first hnew).adr)
  | false =>
      have hp := h.parked hnew
      exact Nat.le_trans (Nat.le_of_add_right_le (Nat.le_of_eq hp.adr)) (hp.stack.rsp_le hp.kern)

/-- Only the part of its stack that a thread uses matters to it. -/
theorem WaitsOn.congr (h : WaitsOn stk behind f t td th)
    (hfg : ∀ o, td.ctxNextrsp ≤ o → o < stk.top t → g o = f o) :
    WaitsOn stk behind g t td th where
  top := h.top
  isNew := h.isNew
  first hnew := by
    have hf := h.first hnew
    have hadr := hf.adr
    refine ⟨hadr, hf.start_le, words_congr (fun o h1 h2 => hfg o h1 ?_) hf.words,
      hf.stack.congr fun hk o h1 h2 => hfg o (Nat.le_trans (hf.low hk) h1) h2, hf.low⟩
    have hlen : 8 * ((Macro.harwint 0).frame 0 th.act.regs).length = sizeofIntstkregs := rfl
    omega
  parked hnew := by
    have hp := h.parked hnew
    have hadr := hp.adr
    have htop := hp.stack.rsp_le hp.kern
    refine ⟨hadr, hp.start_le, words_congr (fun o h1 h2 => hfg o h1 ?_) hp.words, hp.kern,
      hp.rip, hp.stack.congr fun _ o h1 h2 => hfg o (by omega) h2⟩
    rw [savedWords_length] at h2
    omega

theorem WaitsOn.nextrsp (h : WaitsOn stk behind f t td th) :
    td.ctxNextrsp = th.nextrsp stk t := by
  unfold SThread.nextrsp
  cases hnew : th.isNew with
  | true =>
      have hadr := (h.first hnew).adr
      rw [if_pos rfl]
      omega
  | false =>
      have hadr := (h.parked hnew).adr
      rw [if_neg (by decide)]
      omega

/-- Thread `t` runs, and the others have been left alone. -/
theorem SameThreads.of_runs {tds : Nat → Tctx}
    (hw : ∀ u thu, u ≠ t → s.thd u = some thu → WaitsOn stk behind f u (tds u) thu)
    (hcurr : m.curr = some t) (htd : ∀ u, u ≠ t → m.td u = tds u)
    (hout : ∀ o, o < stk.start t ∨ stk.top t ≤ o → m.core.mem o = f o)
    (hr : RunsOn stk t m th) :
    SameThreads stk behind { s.set t th with curr := some t } m where
  curr := hcurr
  runs u hu := by
    cases hu
    exact ⟨th, Function.update_self .., hr⟩
  waits u thu hu hne := by
    have htu : u ≠ t := fun he => hne (he ▸ rfl)
    have hthd : s.thd u = some thu := by
      rw [← hu]
      exact (Function.update_of_ne htu ..).symm
    have hwait := hw u thu htu hthd
    rw [htd u htu]
    refine hwait.congr fun o h1 h2 => hout o ?_
    have hapart := stk.apart u t htu
    have hstart := hwait.start_le
    have hle := stk.top_le u
    have hle' := stk.top_le t
    omega

/-- A step of the running thread, which changes no other stack. -/
theorem SameThreads.update (hs : SameThreads stk behind s m) (hcurr : s.curr = some t)
    {c' : Core} (hout : ∀ o, o < stk.start t ∨ stk.top t ≤ o → c'.mem o = m.core.mem o)
    (hr : RunsOn stk t { m with core := c' } th') :
    SameThreads stk behind (s.set t th') { m with core := c' } := by
  have heq : s.set t th' = { s.set t th' with curr := some t } := by
    rw [← hcurr]
    rfl
  rw [heq]
  refine .of_runs (fun u thu hne hu => hs.waits u thu hu ?_) (hs.curr.trans hcurr)
    (fun _ _ => rfl) hout hr
  rw [hcurr]
  exact fun he => hne (Option.some.inj he).symm

theorem SameThreads.running (hs : SameThreads stk behind s m)
    (hrun : s.running = some (t, th)) : s.curr = some t ∧ RunsOn stk t m th := by
  obtain ⟨u, hu, hmap⟩ := Option.bind_eq_some_iff.mp hrun
  obtain ⟨thu, hthu, heq⟩ := Option.map_eq_some_iff.mp hmap
  cases heq
  obtain ⟨th', hth', hr⟩ := hs.runs t hu
  rw [hthu] at hth'
  cases hth'
  exact ⟨hu, hr⟩

/-! ## The steps of one thread -/

theorem OnStack.loc_le (h : OnStack f top a below) (ha : a.regs.user = false) :
    a.regs.rsp + 8 * a.loc.length ≤ top := by
  cases h with
  | user hu => rw [hu] at ha; cases ha
  | first hk hsp hw => exact Nat.le_of_eq hsp
  | int hk hvia hentry hsp hw hrest =>
      have hle := hrest.intBase_le
      rw [List.length_append] at hsp
      omega

/-- Kernel code has popped `k` of its own words and pushed others. -/
theorem OnStack.code (h : OnStack f top a below) (ha : a.regs.user = false) {k : Nat}
    (hk : k ≤ a.loc.length) {ws : List (BitVec 64)} (hp : Pushed f (a.regs.rsp + 8 * k) g ws)
    {r : Regs} (hrsp : r.rsp = a.regs.rsp + 8 * k - 8 * ws.length) (hcs : r.cs = a.regs.cs)
    (hseg : r.seg = a.regs.seg) (hss : r.ss = a.regs.ss) :
    OnStack g top { a with regs := r, loc := ws ++ a.loc.drop k } below := by
  have hroom := hp.room
  have hkern := h.kern ha
  have hkern' : KernRegs r := ⟨hcs.trans hkern.cs, hseg.trans hkern.seg, hss.trans hkern.ss⟩
  cases h with
  | user hu => rw [hu] at ha; cases ha
  | first _ hsp hw =>
      refine .first hkern' ?_ (hrsp ▸ hp.append (hw.drop hk))
      simp only [List.length_append, List.length_drop, hrsp]
      omega
  | @int _ b below mac ecode _ fn hvia hentry hsp hw hrest =>
      have hdrop := hw.drop (n := k) (by rw [List.length_append]; omega)
      rw [List.drop_append_of_le_length hk] at hdrop
      have hwords := hp.append hdrop
      rw [List.length_append] at hsp
      have hadr : r.rsp + 8 * (ws ++ a.loc.drop k).length = a.regs.rsp + 8 * a.loc.length := by
        simp only [List.length_append, List.length_drop, hrsp]
        omega
      refine .int hkern' hvia (hadr ▸ hentry) ?_ ?_
        (hrest.congr fun hb o h1 _ => hp.out o (.inr ?_))
      · simp only [List.length_append, List.length_drop, hrsp]
        omega
      · rw [hrsp, List.append_assoc]
        exact hwords
      · have hbase := intBase_kern top hb
        omega

/-- Kernel code. -/
theorem RunsOn.code (hr : RunsOn stk t m th) (hu : th.act.regs.user = false) {k : Nat}
    (hk : k ≤ th.act.loc.length) (x : Scratch) (rip : BitVec 64) (ws : List (BitVec 64))
    (hroom : stk.start t + 8 * (ws.length + x.below.length) ≤ th.act.regs.rsp + 8 * k) :
    RunsOn stk t { m with core := kernelCode m.core x rip k ws } { th with act := { th.act with
        regs := Regs.after th.act.regs x rip (th.act.regs.rsp + 8 * k - 8 * ws.length)
        loc := ws ++ th.act.loc.drop k } } ∧
      ∀ o, o < stk.start t ∨ stk.top t ≤ o →
        (kernelCode m.core x rip k ws).mem o = m.core.mem o := by
  have hle := hr.stack.loc_le hu
  have htop := stk.top_lt t
  have hregs := hr.regs
  have hmod : (m.core.regs.rsp + 8 * k) % 2 ^ 64 = th.act.regs.rsp + 8 * k := by
    rw [hregs]
    exact Nat.mod_eq_of_lt (by omega)
  have hdrop : m.core.drop k = withRsp m.core (th.act.regs.rsp + 8 * k) := by
    simp only [Core.drop, withRsp, hmod]
  obtain ⟨mem₁, heq₁, hp₁⟩ := pushWords_spec (c := withRsp m.core (th.act.regs.rsp + 8 * k))
    ws.reverse (by rw [List.length_reverse]; show _ ≤ th.act.regs.rsp + 8 * k; omega)
    (show th.act.regs.rsp + 8 * k < 2 ^ 64 by omega)
  rw [List.reverse_reverse] at hp₁
  rw [List.length_reverse] at heq₁
  obtain ⟨mem₂, heq₂, hp₂⟩ := scratch_spec (c := ws.reverse.foldl Core.push (m.core.drop k)) x
    (by rw [hdrop, heq₁]; show _ ≤ th.act.regs.rsp + 8 * k - 8 * ws.length; omega)
    (by rw [hdrop, heq₁]; show th.act.regs.rsp + 8 * k - 8 * ws.length < 2 ^ 64; omega)
  rw [hdrop, heq₁] at hp₂
  have hcode : kernelCode m.core x rip k ws =
      ⟨Regs.after th.act.regs x rip (th.act.regs.rsp + 8 * k - 8 * ws.length), mem₂⟩ := by
    unfold kernelCode
    rw [heq₂, hdrop, heq₁]
    simp only [withRsp, Regs.after, hregs]
  have hp₁' : Pushed m.core.mem (th.act.regs.rsp + 8 * k) mem₁ ws := hp₁
  have hstack := hr.stack.code hu hk hp₁'
    (r := Regs.after th.act.regs x rip (th.act.regs.rsp + 8 * k - 8 * ws.length)) rfl rfl rfl rfl
  rw [hcode]
  refine ⟨⟨hr.top, hr.notNew, hr.isNew, rfl, hr.rsp0, ?_, ?_⟩, fun o ho => ?_⟩
  · exact hstack.congr fun _ o h1 _ => hp₂.out o (.inr h1)
  · intro _
    show stk.start t ≤ th.act.regs.rsp + 8 * k - 8 * ws.length
    omega
  · have hin : o < th.act.regs.rsp + 8 * k - 8 * ws.length - 8 * x.below.length ∨
        th.act.regs.rsp + 8 * k - 8 * ws.length ≤ o := by omega
    have hout := hp₂.out o (by rw [List.length_reverse]; exact hin)
    exact hout.trans (hp₁'.out o (by omega))

/-- User code. -/
theorem RunsOn.user (hr : RunsOn stk t m th) (hu : th.act.regs.user = true) {r : Regs}
    (hcs : r.cs = th.act.regs.cs) (hrsp : r.rsp < 2 ^ 64) :
    RunsOn stk t { m with core := { m.core with regs := r } }
      { th with act := { th.act with regs := r } } := by
  have huser : r.user = true := by
    unfold Regs.user at hu ⊢
    rw [hcs]
    exact hu
  obtain ⟨a, below, isNew⟩ := th
  refine ⟨hr.top, hr.notNew, hr.isNew, rfl, hr.rsp0, ?_, fun hk => ?_⟩
  · cases hr.stack with
    | user _ hloc _ => exact .user huser hloc hrsp
    | first hk => rw [hk.user] at hu; cases hu
    | int hk => rw [hk.user] at hu; cases hu
  · exact absurd (huser.symm.trans hk) (by decide)

/-- An interrupt. -/
theorem RunsOn.int (hr : RunsOn stk t m th) (mac : Macro) (ecode fn : BitVec 64)
    (hroom : stk.start t + 8 * (mac.frame ecode th.act.regs).length ≤
      th.act.regs.intBase (stk.top t)) :
    RunsOn stk t { m with core := takeInt m.rsp0 mac ecode fn m.core } { th with
        act := .start (mac.entered th.act.regs (th.act.regs.intBase (stk.top t) -
          8 * (mac.frame ecode th.act.regs).length) fn) (some (mac, ecode))
        below := th.act :: th.below } ∧
      ∀ o, o < stk.start t ∨ stk.top t ≤ o →
        (takeInt m.rsp0 mac ecode fn m.core).mem o = m.core.mem o := by
  have htop := stk.top_lt t
  have hbase := hr.stack.intBase_le
  have hregs := hr.regs
  obtain ⟨mem, heq, hp⟩ := takeInt_spec (c := m.core) m.rsp0 mac ecode fn
    (by rw [hr.rsp0, hregs]; omega) (by rw [hr.rsp0, hregs]; omega)
  rw [hr.rsp0, hregs] at heq hp
  have hpr := hp.room
  have hss : th.act.regs.user = false → th.act.regs.ss = 0 := fun hk => (hr.stack.kern hk).ss
  rw [hr.rsp0, heq]
  refine ⟨⟨hr.top, hr.notNew, hr.isNew, rfl, rfl, ?_, fun _ => ?_⟩, fun o ho => ?_⟩
  · refine .int ⟨rfl, rfl, ?_⟩ rfl rfl ?_ hp.words
      (hr.stack.congr fun hk o h1 _ => hp.out o (.inr ?_))
    · show (if th.act.regs.user then 0 else th.act.regs.ss) = 0
      by_cases hu : th.act.regs.user = true
      · rw [if_pos hu]
      · rw [if_neg hu]
        exact hss (eq_false_of_ne_true hu)
    · show _ - 8 * _ + 8 * (mac.frame ecode th.act.regs).length = _
      omega
    · exact Nat.le_trans (intBase_kern _ hk) h1
  · show stk.start t ≤ _ - 8 * _
    omega
  · exact hp.out o (by omega)

/-- The end of an interrupt. -/
theorem RunsOn.leave (hr : RunsOn stk t m th) {mac : Macro} {ecode : BitVec 64}
    (hvia : th.act.via = some (mac, ecode)) (hloc : th.act.loc = [])
    (hbelow : th.below = b :: below) :
    RunsOn stk t { m with core := leaveInt mac m.core } { th with
        act := { b with regs := mac.resumed th.act.regs b.regs }
        below := below } ∧
      (leaveInt mac m.core).mem = m.core.mem := by
  have htop := stk.top_lt t
  have hstack := hr.stack
  rw [hbelow] at hstack
  obtain ⟨hk, hsp, hw, hrest⟩ : KernRegs th.act.regs ∧
      th.act.regs.rsp + 8 * (mac.frame ecode b.regs).length = b.regs.intBase (stk.top t) ∧
      Words m.core.mem th.act.regs.rsp (mac.frame ecode b.regs) ∧
      OnStack m.core.mem (stk.top t) b below := by
    generalize th.act = a at hstack hvia hloc
    cases hstack with
    | int hk hvia' _ hsp hw hrest =>
        rw [hvia] at hvia'
        cases hvia'
        rw [hloc] at hsp hw
        exact ⟨hk, hsp, hw, hrest⟩
  have hbase := hrest.intBase_le
  have hregs := hr.regs
  have heq := leaveInt_spec mac
    (show Words m.core.mem m.core.regs.rsp (mac.frame ecode b.regs) by rw [hregs]; exact hw)
    (by rw [hregs]; omega) (hrest.rsp_lt htop)
  rw [hregs] at heq
  have hsame : (mac.resumed th.act.regs b.regs).rsp = b.regs.rsp ∧
      (mac.resumed th.act.regs b.regs).cs = b.regs.cs ∧
      (mac.resumed th.act.regs b.regs).seg = b.regs.seg ∧
      (mac.resumed th.act.regs b.regs).ss = b.regs.ss := by
    cases mac <;> exact ⟨rfl, rfl, rfl, rfl⟩
  rw [heq]
  refine ⟨⟨hr.top, hr.notNew, hr.isNew, rfl, hr.rsp0, ?_, fun hk' => ?_⟩, rfl⟩
  · exact hrest.regs hsame.1 hsame.2.1 hsame.2.2.1 hsame.2.2.2
  · have hbk : b.regs.user = false := by
      unfold Regs.user at hk' ⊢
      rw [← hsame.2.1]
      exact hk'
    have hlow := hr.low hk.user
    have hle := intBase_kern (stk.top t) hbk
    show stk.start t ≤ (mac.resumed th.act.regs b.regs).rsp
    omega

/-! ## Another thread -/

/-- `save_to_new_context` up to the change of stacks. -/
theorem RunsOn.park (hr : RunsOn stk t m th) (hu : th.act.regs.user = false)
    (hroom : stk.start t + 16 * 8 ≤ th.act.regs.rsp) (behind : BitVec 64) :
    ∃ mem, execs saveCode m.core = ⟨{ th.act.regs with
          rflags := th.act.regs.rflags &&& ~~~ifFlag
          rsp := th.act.regs.rsp - 16 * 8 }, mem⟩ ∧
      WaitsOn stk behind mem t { m.td t with ctxNextrsp := th.act.regs.rsp - 16 * 8 }
        { th with act := { th.act with regs := { th.act.regs with rip := behind } } } ∧
      ∀ o, o < stk.start t ∨ stk.top t ≤ o → mem o = m.core.mem o := by
  have htop := stk.top_lt t
  have hle := hr.stack.rsp_le hu
  obtain ⟨mem, heq, hp⟩ := saveCode_spec (c := m.core) (by rw [hr.regs]; omega)
    (by rw [hr.regs]; omega)
  rw [hr.regs] at heq hp
  refine ⟨mem, heq, ⟨hr.top, hr.notNew.trans hr.isNew.symm, fun hnew => ?_, fun _ => ?_⟩,
    fun o ho => hp.out o ?_⟩
  · exact absurd (hr.isNew.symm.trans hnew) (by decide)
  · have hstack := (hr.stack.regs (r := { th.act.regs with rip := behind }) rfl rfl rfl rfl).congr
      fun _ o h1 _ => hp.out o (.inr h1)
    refine ⟨?_, ?_, hp.words, hu, rfl, hstack⟩
    · show th.act.regs.rsp - 16 * 8 + 16 * 8 = th.act.regs.rsp
      omega
    · show stk.start t ≤ th.act.regs.rsp - 16 * 8
      omega
  · rw [savedWords_length]
    omega

/-- A thread runs for the first time. -/
theorem WaitsOn.firstRun (hw : WaitsOn stk behind m.core.mem t (m.td t) th)
    (hnew : th.isNew = true) (hrsp0 : m.rsp0 = stk.top t) :
    RunsOn stk t (retnfromFirstSched (setRun m t) t) { th with isNew := false } ∧
      (retnfromFirstSched (setRun m t) t).core.mem = m.core.mem := by
  have hf := hw.first hnew
  have hadr := hf.adr
  have htop := stk.top_lt t
  have htd : (setRun m t).td t = { m.td t with isNew := false } := Function.update_self ..
  have heq := firstSched_spec (c := withRsp m.core (m.td t).ctxNextrsp) hf.words
    (show (m.td t).ctxNextrsp + sizeofIntstkregs < 2 ^ 64 by omega) (hf.stack.rsp_lt htop)
  have hcore : (retnfromFirstSched (setRun m t) t).core = ⟨th.act.regs, m.core.mem⟩ := by
    unfold retnfromFirstSched
    rw [htd]
    exact heq
  refine ⟨⟨?_, ?_, rfl, congrArg Core.regs hcore, hrsp0, ?_, fun hk => ?_⟩, by rw [hcore]⟩
  · exact (congrArg Tctx.tdKrlstktop htd).trans hw.top
  · exact congrArg Tctx.isNew htd
  · rw [hcore]
    exact hf.stack
  · exact Nat.le_trans hf.start_le (hf.low hk)

/-- `save_to_new_context` after the change of stacks. -/
theorem WaitsOn.goesOn (hw : WaitsOn stk behind m.core.mem t (m.td t) th)
    (hk : KernRegs m.core.regs) (hrsp : m.core.regs.rsp = (m.td t).ctxNextrsp) (x : Scratch)
    (hroom : stk.start t + 8 * x.below.length ≤ (m.td t).ctxNextrsp) :
    RunsOn stk t (onNextStack behind m t x) { th with isNew := false } ∧
      (onNextStack behind m t x).curr = some t ∧
      (∀ u, u ≠ t → (onNextStack behind m t x).td u = m.td u) ∧
      ∀ o, o < stk.start t ∨ stk.top t ≤ o →
        (onNextStack behind m t x).core.mem o = m.core.mem o := by
  have htop := stk.top_lt t
  have hlow := hw.le_top
  obtain ⟨mem, heq, hp⟩ := scratch_spec (c := m.core) x (by omega) (by omega)
  rw [hrsp] at hp
  have hmem : (scratch m.core x).mem = mem := by rw [heq]
  have hout : ∀ o, o < stk.start t ∨ stk.top t ≤ o → mem o = m.core.mem o := fun o ho =>
    hp.out o (by rw [List.length_reverse]; omega)
  have hwait : WaitsOn stk behind mem t (m.td t) th := hw.congr fun o h1 _ => hp.out o (.inr h1)
  cases hnew : th.isNew with
  | true =>
      have hgo : onNextStack behind m t x = retnfromFirstSched (setRun
          ⟨scratch m.core x, (m.td t).tdKrlstktop, some t, m.td⟩ t) t := by
        unfold onNextStack
        rw [if_pos (hw.isNew.trans hnew)]
      obtain ⟨hr, hback⟩ := WaitsOn.firstRun
        (m := ⟨scratch m.core x, (m.td t).tdKrlstktop, some t, m.td⟩) (hmem ▸ hwait) hnew hw.top
      rw [hgo]
      refine ⟨hr, rfl, fun u hu => Function.update_of_ne hu .., fun o ho => ?_⟩
      rw [hback, hmem]
      exact hout o ho
  | false =>
      have hpk := hwait.parked hnew
      have hadr := hpk.adr
      have hle := hpk.stack.rsp_le hpk.kern
      have hkern := hpk.stack.kern hpk.kern
      have hpops := restoreCode_spec (c := scratch m.core x) (r := th.act.regs)
        (by rw [heq]; exact hrsp ▸ hpk.words) (by rw [heq]; show m.core.regs.rsp + _ < _; omega)
      have hregs : { m.core.regs with
          gpr := th.act.regs.gpr
          rflags := th.act.regs.rflags
          rsp := m.core.regs.rsp + 16 * 8
          rip := behind } = th.act.regs := by
        show Regs.mk _ m.core.regs.seg _ _ m.core.regs.cs _ m.core.regs.ss = _
        rw [hrsp, hadr, hk.cs, hk.seg, hk.ss, ← hkern.cs, ← hkern.seg, ← hkern.ss, ← hpk.rip]
      have hgo : onNextStack behind m t x =
          ⟨⟨th.act.regs, mem⟩, (m.td t).tdKrlstktop, some t, m.td⟩ := by
        unfold onNextStack
        rw [if_neg (by rw [hw.isNew, hnew]; decide), hpops, heq, ← hregs]
      rw [hgo]
      refine ⟨⟨hw.top, hw.isNew.trans hnew, rfl, rfl, hw.top, hpk.stack, fun _ => ?_⟩, rfl,
        fun _ _ => rfl, hout⟩
      have hstart := hw.start_le
      show stk.start t ≤ th.act.regs.rsp
      omega

/-- A thread is made. -/
theorem newThread_spec (m : Mach) (t : Nat) (user : Bool) (runadr : BitVec 64) {usrstktop : Nat}
    (husr : usrstktop < 2 ^ 64) (hroom : stk.start t + sizeofIntstkregs ≤ stk.top t)
    (behind : BitVec 64) :
    ∃ mem td, newThread stk m t user runadr usrstktop =
        { m with core := { m.core with mem := mem }, td := Function.update m.td t td } ∧
      WaitsOn stk behind mem t td ⟨firstAct stk t user runadr usrstktop, [], true⟩ ∧
      ∀ o, o < stk.start t ∨ stk.top t ≤ o → mem o = m.core.mem o := by
  have hadr : stk.top t - sizeofIntstkregs + sizeofIntstkregs = stk.top t := by omega
  have hlow : stk.start t ≤ stk.top t - sizeofIntstkregs := by omega
  have hout : ∀ {ds rip cs fl rsp ss} (o : Nat), o < stk.start t ∨ stk.top t ≤ o →
      storeWords m.core.mem (stk.top t - sizeofIntstkregs) (stkregs ds rip cs fl rsp ss) o =
        m.core.mem o := by
    intro ds rip cs fl rsp ss o ho
    refine storeWords_out ?_
    show o < _ ∨ stk.top t - sizeofIntstkregs + sizeofIntstkregs ≤ o
    omega
  cases user with
  | true =>
      have hu : (firstAct stk t true runadr usrstktop).regs.user = true := by
        show decide (uCsIdx &&& 3#16 ≠ 0) = true
        decide
      refine ⟨_, _, rfl, ⟨rfl, rfl, fun _ => ⟨hadr, hlow, words_storeWords, ?_, ?_⟩, nofun⟩, hout⟩
      · refine .user hu rfl ?_
        show usrstktop / 16 * 16 < 2 ^ 64
        omega
      · intro hk
        rw [hu] at hk
        cases hk
  | false =>
      refine ⟨_, _, rfl, ⟨rfl, rfl, fun _ => ⟨hadr, hlow, words_storeWords, ?_, ?_⟩, nofun⟩, hout⟩
      · exact .first ⟨rfl, rfl, rfl⟩ rfl trivial
      · intro _
        exact Nat.sub_le (stk.top t) sizeofIntstkregs

/-! ## Every step -/

variable {x : Scratch}

theorem SameThreads.create (hs : SameThreads stk behind s m) {user : Bool} {runadr : BitVec 64}
    {usrstktop : Nat} (h : specStep stk behind s (.create t user runadr usrstktop) = .ok s') :
    SameThreads stk behind s' (newThread stk m t user runadr usrstktop) := by
  simp only [specStep] at h
  split at h
  · cases h
  · rename_i hno
    cases h
    obtain ⟨hnone, hroom, husr⟩ : s.thd t = none ∧ stk.start t + sizeofIntstkregs ≤ stk.top t ∧
        usrstktop < 2 ^ 64 := by
      simpa using hno
    obtain ⟨mem, td, heq, hw, hout⟩ := newThread_spec m t user runadr husr hroom behind
    have hcurr : s.curr ≠ some t := fun hc => by
      obtain ⟨th, hth, -⟩ := hs.runs t hc
      rw [hnone] at hth
      cases hth
    have hother : ∀ u, u ≠ t → ∀ o, stk.start u ≤ o → o < stk.top u → mem o = m.core.mem o := by
      intro u hut o h1 h2
      have hapart := stk.apart u t hut
      have hle := stk.top_le u
      have hle' := stk.top_le t
      exact hout o (by omega)
    rw [heq]
    refine ⟨hs.curr, fun u hu => ?_, fun u thu hu hne => ?_⟩
    · have hut : u ≠ t := fun he => hcurr (he ▸ hu)
      obtain ⟨th, hth, hr⟩ := hs.runs u hu
      have htd : Function.update m.td t td u = m.td u := Function.update_of_ne hut ..
      refine ⟨th, (Function.update_of_ne hut ..).trans hth, ?_⟩
      exact ⟨(congrArg Tctx.tdKrlstktop htd).trans hr.top,
        (congrArg Tctx.isNew htd).trans hr.notNew, hr.isNew, hr.regs, hr.rsp0,
        hr.stack.congr fun hk o h1 h2 => hother u hut o (Nat.le_trans (hr.low hk) h1) h2, hr.low⟩
    · by_cases hut : u = t
      · subst hut
        have hthu : thu = ⟨firstAct stk u user runadr usrstktop, [], true⟩ :=
          Option.some.inj (hu.symm.trans (Function.update_self ..))
        rw [hthu]
        show WaitsOn stk behind mem u (Function.update m.td u td u) _
        rw [Function.update_self]
        exact hw
      · have hwait := hs.waits u thu ((Function.update_of_ne hut ..).symm.trans hu) hne
        show WaitsOn stk behind mem u (Function.update m.td t td u) _
        rw [Function.update_of_ne hut]
        exact hwait.congr fun o h1 h2 => hother u hut o (Nat.le_trans hwait.start_le h1) h2

theorem SameThreads.start (hs : SameThreads stk behind s m)
    (h : specStep stk behind s (.start t) = .ok s') :
    SameThreads stk behind s' (krlcpuidleStart m t) := by
  cases hcurr : s.curr with
  | some u => simp [specStep, hcurr] at h
  | none =>
    cases hth : s.thd t with
    | none => simp [specStep, hcurr, hth] at h
    | some th =>
      cases hnew : th.isNew with
      | false => simp [specStep, hcurr, hth, hnew] at h
      | true =>
          simp only [specStep, hcurr, hth, hnew, if_true] at h
          cases h
          have hwait : ∀ u thu, s.thd u = some thu →
              WaitsOn stk behind m.core.mem u (m.td u) thu := fun u thu hu =>
            hs.waits u thu hu (by rw [hcurr]; nofun)
          have hw := hwait t th hth
          obtain ⟨hr, hmem⟩ := WaitsOn.firstRun
            (m := { m with rsp0 := (m.td t).tdKrlstktop, curr := some t }) hw hnew hw.top
          exact .of_runs (fun u thu _ hu => hwait u thu hu) rfl
            (fun u hu => Function.update_of_ne hu ..) (fun o _ => congrFun hmem o) hr

theorem SameThreads.switch (hs : SameThreads stk behind s m) {next : Nat}
    (h : specStep stk behind s (.switch next x) = .ok s') :
    ∃ m', machStep stk behind m (.switch next x) = .ok m' ∧ SameThreads stk behind s' m' := by
  cases hrun : s.running with
  | none => simp [specStep, hrun] at h
  | some p =>
    obtain ⟨t, th⟩ := p
    obtain ⟨hcurr, hr⟩ := hs.running hrun
    simp only [specStep, hrun] at h
    split at h
    · cases h
    rename_i hkern
    obtain ⟨hu, hroom⟩ : th.act.regs.user = false ∧ stk.start t + 16 * 8 ≤ th.act.regs.rsp := by
      simpa using hkern
    obtain ⟨mem, hsave, hpark, hout⟩ := hr.park hu hroom behind
    generalize hthp : { th with act := { th.act with
      regs := { th.act.regs with rip := behind } } } = thp at h hpark
    generalize htd : Function.update m.td t
      { m.td t with ctxNextrsp := th.act.regs.rsp - 16 * 8 } = tds
    -- now every thread waits, the one that ran too
    have hwait : ∀ u thu, (s.set t thp).thd u = some thu →
        WaitsOn stk behind mem u (tds u) thu := by
      intro u thu hu'
      by_cases hut : u = t
      · subst hut
        rw [Option.some.inj (hu'.symm.trans (Function.update_self ..)), ← htd,
          Function.update_self]
        exact hpark
      · have hw := hs.waits u thu ((Function.update_of_ne hut ..).symm.trans hu')
          (by rw [hcurr]; exact fun he => hut (Option.some.inj he).symm)
        rw [← htd, Function.update_of_ne hut]
        have hapart := stk.apart u t hut
        have hstart := hw.start_le
        have hle := stk.top_le u
        have hle' := stk.top_le t
        exact hw.congr fun o h1 h2 => hout o (by omega)
    cases hnext : (s.set t thp).thd next with
    | none => simp [hnext] at h
    | some th' =>
      simp only [hnext] at h
      split at h
      · cases h
      rename_i hlow
      cases h
      have hw := hwait next th' hnext
      have hk := hr.stack.kern hu
      obtain ⟨hr', hcurr', htds', hout'⟩ := WaitsOn.goesOn
        (m := ⟨withRsp (execs saveCode m.core) (tds next).ctxNextrsp, m.rsp0, m.curr, tds⟩)
        (x := x) (by rw [hsave]; exact hw) (by rw [hsave]; exact ⟨hk.cs, hk.seg, hk.ss⟩) rfl
        (by rw [hw.nextrsp]; omega)
      have hmach : saveToNewContext behind m next t x = onNextStack behind
          ⟨withRsp (execs saveCode m.core) (tds next).ctxNextrsp, m.rsp0, m.curr, tds⟩ next x := by
        unfold saveToNewContext
        rw [← htd, hsave]
      refine ⟨saveToNewContext behind m next t x, ?_, ?_⟩
      · simp only [machStep, hs.curr, hcurr]
      · rw [hmach]
        refine .of_runs (fun u thu _ hu' => hwait u thu hu') hcurr' htds' (fun o ho => ?_) hr'
        rw [hout' o ho, hsave]
        rfl

/-- **One step** of the CPU. -/
theorem SameThreads.step (hs : SameThreads stk behind s m) (ev : CtxEv)
    (h : specStep stk behind s ev = .ok s') :
    ∃ m', machStep stk behind m ev = .ok m' ∧ SameThreads stk behind s' m' := by
  cases ev with
  | create t user runadr usrstktop => exact ⟨_, rfl, hs.create h⟩
  | start t => exact ⟨_, rfl, hs.start h⟩
  | switch next x => exact hs.switch h
  | code x rip k ws =>
      refine ⟨_, rfl, ?_⟩
      cases hrun : s.running with
      | none => simp [specStep, hrun] at h
      | some p =>
          obtain ⟨t, th⟩ := p
          obtain ⟨hcurr, hr⟩ := hs.running hrun
          simp only [specStep, hrun] at h
          split at h
          · cases h
          · rename_i hno
            obtain ⟨hu, hk, hroom⟩ : th.act.regs.user = false ∧ k ≤ th.act.loc.length ∧
                stk.start t + 8 * (ws.length + x.below.length) ≤ th.act.regs.rsp + 8 * k := by
              simpa using hno
            cases h
            have hnext := hr.code hu hk x rip ws hroom
            exact hs.update hcurr hnext.2 hnext.1
  | user gpr seg rsp rip rflags =>
      refine ⟨_, rfl, ?_⟩
      cases hrun : s.running with
      | none => simp [specStep, hrun] at h
      | some p =>
          obtain ⟨t, th⟩ := p
          obtain ⟨hcurr, hr⟩ := hs.running hrun
          simp only [specStep, hrun] at h
          split at h
          · rename_i hu
            cases h
            rw [hr.regs]
            exact hs.update hcurr (fun _ _ => rfl) (hr.user hu rfl rsp.isLt)
          · cases h
  | int mac ecode fn =>
      refine ⟨_, rfl, ?_⟩
      cases hrun : s.running with
      | none => simp [specStep, hrun] at h
      | some p =>
          obtain ⟨t, th⟩ := p
          obtain ⟨hcurr, hr⟩ := hs.running hrun
          simp only [specStep, hrun] at h
          split at h
          · cases h
          · rename_i hroom
            cases h
            have hnext := hr.int mac ecode fn (Nat.le_of_not_lt hroom)
            exact hs.update hcurr hnext.2 hnext.1
  | leave mac =>
      refine ⟨_, rfl, ?_⟩
      cases hrun : s.running with
      | none => simp [specStep, hrun] at h
      | some p =>
          obtain ⟨t, th⟩ := p
          obtain ⟨hcurr, hr⟩ := hs.running hrun
          simp only [specStep, hrun] at h
          split at h
          · rename_i mac' ecode b below hvia hloc hbelow
            split at h
            · rename_i hmac
              cases h
              subst hmac
              have hnext := hr.leave hvia hloc hbelow
              exact hs.update hcurr (fun o _ => congrFun hnext.2 o) hnext.1
            · cases h
          · cases h

/-! ## Every run -/

theorem sameThreads_init (stk : Stacks) (behind : BitVec 64) (hcurr : m.curr = none) :
    SameThreads stk behind .init m where
  curr := hcurr
  runs _ ht := nomatch ht
  waits _ _ ht := nomatch ht

/-- The CPU can take all steps of a run, and shows its last state. -/
theorem run_sameThreads {evs : List CtxEv} (hcurr : m.curr = none)
    (hrun : run (specStep stk behind) evs .init = .ok s) :
    ∃ m', run (machStep stk behind) evs m = .ok m' ∧ SameThreads stk behind s m' :=
  run_sim (SameThreads stk behind) (fun _ _ ev _ hs hop => hs.step ev hop) evs .init s m
    (sameThreads_init stk behind hcurr) hrun

/-- **Threads have registers of their own.**  Threads are made, switched, interrupted, and take
faults and system calls, in any order and to any depth, and C code in between clobbers what it
may.  As long as no kernel stack runs over, the CPU goes on exactly as if each activation had
registers and stack words that nothing else can change. -/
theorem threads_own_registers (stk : Stacks) (behind : BitVec 64) (m : Mach) (evs : List CtxEv)
    (s : Spec) (hcurr : m.curr = none)
    (hrun : run (specStep stk behind) evs .init = .ok s) :
    ∃ m', run (machStep stk behind) evs m = .ok m' ∧ m'.curr = s.curr ∧
      ∀ t th, s.running = some (t, th) →
        m'.core.regs = th.act.regs ∧ Words m'.core.mem th.act.regs.rsp th.act.loc := by
  obtain ⟨m', hm', hs⟩ := run_sameThreads hcurr hrun
  refine ⟨m', hm', hs.curr, fun t th hth => ?_⟩
  obtain ⟨-, hr⟩ := hs.running hth
  exact ⟨hr.regs, hr.stack.words⟩

/-- Two stacks of a page. -/
def twoStacks : Stacks where
  start t := if t < 2 then 0x1000 * (t + 1) else 0
  size t := if t < 2 then 0x1000 else 0
  lt t := by split <;> omega
  apart s t hst := by split <;> split <;> omega

/-- A kernel thread is switched away from with 7 in `rbx` and a word on its stack.  A user thread
runs, is interrupted, and the interrupt switches back. -/
def switchAndBack : List CtxEv :=
  let x : Scratch := ⟨fun _ => 9, 0x202, [1, 2]⟩
  [.create 0 false 0x100 0, .create 1 true 0x200 0x8000, .start 0,
   .code ⟨fun r => if r = .rbx then 7 else 0, 0x202, []⟩ 0x104 0 [5], .switch 1 x,
   .user (fun _ => 8) (fun _ => uDsIdx) 0x7000 0x204 0x1202, .int (.harwint 0x20) 0 0x300,
   .code x 0x304 0 [6, 6], .switch 0 x]

/-- The CPU before there is a thread. -/
def bootMach : Mach where
  core := ⟨⟨fun _ => 3, fun _ => 0x10, 0x90000, 0x50, 0x08, 0x2, 0⟩, fun _ => 0⟩
  rsp0 := 0
  curr := none
  td _ := ⟨0, 0, false, 0⟩

theorem threads_own_registers_switchAndBack :
    ∃ m', run (machStep twoStacks 0x400) switchAndBack bootMach = .ok m' ∧
      m'.curr = some 0 ∧ m'.core.regs.gpr .rbx = 7 ∧ m'.core.regs.rip = 0x400 ∧
      load m'.core.mem m'.core.regs.rsp = 5 := by
  have hok : okAnd (run (specStep twoStacks 0x400) switchAndBack .init) (fun s =>
      s.curr == some 0 && s.running.any fun p => p.2.act.regs.gpr .rbx == 7 &&
        (p.2.act.regs.rip == 0x400 && p.2.act.loc == [5])) = true := by decide
  obtain ⟨s, hrun, htest⟩ := exists_of_okAnd hok
  simp only [Bool.and_eq_true, Option.any_eq_true, beq_iff_eq] at htest
  obtain ⟨hcurr, ⟨t, th⟩, hth, hrbx, hrip, hloc⟩ := htest
  obtain ⟨m', hm', hcurr', hall⟩ :=
    threads_own_registers twoStacks 0x400 bootMach switchAndBack s rfl hrun
  obtain ⟨hregs, hwords⟩ := hall t th hth
  rw [hloc, ← hregs] at hwords
  exact ⟨m', hm', hcurr'.trans hcurr, hregs ▸ hrbx, hregs ▸ hrip, hwords.1⟩

end Cosmos.Kernel
