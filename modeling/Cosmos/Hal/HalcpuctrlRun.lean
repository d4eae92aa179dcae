import Cosmos.Hal.Halcpuctrl

/-!
# Who has a spin lock

A lock word is the number of contexts that have the lock, counting one that is about to see that
`xchg` has brought it.  A context keeps the interrupt flags it saved in the order it saved them;
all but the oldest one say that the interrupts were off already.  `SpinInv` says both, of every
order of steps.

## Main results

* `spin_safe` : one holder for each lock, with the interrupts off, and what `popfq` brings back.
* `spin_stuck` : when a CPU never gets a lock.
-/

namespace Cosmos.Hal

open Cosmos.Lib.Run

/-! ## What holds of a context -/

/-- The flags that were saved and have not been brought back, the last one first. -/
def Pc.saved : Pc → List Bool
  | .popq _ f => [f]
  | .xchg _ f _ => f.toList
  | .cmpl _ f _ => f.toList
  | .spin _ f _ => f.toList
  | .popfq f => [f]
  | _ => []

/-- The same for a context, with those beside the locks it has. -/
def Ctx.saved (x : Ctx) : List Bool := x.pc.saved ++ x.held.filterMap Prod.snd

/-- The oldest flag is the one that other code has set, the others say that the interrupts were
off. -/
def SavedOk (flg : Bool) : List Bool → Prop
  | [] => True
  | [f] => f = flg
  | f :: fs => f = false ∧ SavedOk flg fs

/-- The interrupt flag that a context sees. -/
def sees (flg : Bool) (saved : List Bool) : Bool := if saved = [] then flg else false

/-- The register holds a value of a lock word; it is 1 where `xchg` writes it. -/
def Pc.RegOk : Pc → Prop
  | .xchg _ _ r => r = 1
  | .cmpl _ _ r => r ≤ 1
  | .spin _ _ r => r = 1
  | _ => True

/-- **What holds of a context** that sees the interrupt flag `fl`. -/
structure Ctx.Ok (fl : Bool) (x : Ctx) : Prop where
  seen : fl = sees x.flg x.saved
  saved : SavedOk x.flg x.saved
  cli : ∀ l f, x.pc = .cli l f → f = fl
  reg : x.pc.RegOk
  last : ∀ l f, x.pc = .movl l f → ∃ rest, x.held = (l, f) :: rest

theorem savedOk_cons {flg : Bool} {saved : List Bool} (h : SavedOk flg saved) :
    SavedOk flg (sees flg saved :: saved) := by
  cases saved with
  | nil => simp [SavedOk, sees]
  | cons f fs => exact ⟨by simp [sees], h⟩

theorem savedOk_of_cons {flg f : Bool} {saved : List Bool} (h : SavedOk flg (f :: saved)) :
    SavedOk flg saved ∧ f = sees flg saved := by
  cases saved with
  | nil => exact ⟨trivial, by simpa [SavedOk, sees] using h⟩
  | cons g gs => exact ⟨h.2, by simpa [sees] using h.1⟩

theorem sees_cons (flg f : Bool) (saved : List Bool) : sees flg (f :: saved) = false := by
  simp [sees]

/-- A context that was interrupted has no lock taken with the interrupts off. -/
theorem Ctx.Ok.saved_eq_nil {x : Ctx} (h : x.Ok true) : x.saved = [] := by
  by_contra hne
  have := h.seen
  simp [sees, hne] at this

/-! ## One instruction -/

section Instr

variable {lock : Nat → Nat} {x : Ctx} {fl : Bool}

/-- What an instruction keeps: of the context, and of the lock words. -/
structure InstrOk (lock : Nat → Nat) (x : Ctx) (r : (Nat → Nat) × Ctx × Bool) : Prop where
  ctx : r.2.1.Ok r.2.2
  word : ∀ l, r.1 l ≤ 1
  owns : ∀ l, r.2.1.owns l + lock l = x.owns l + r.1 l

/-- The code of a context has no other lock word in hand than those it has. -/
theorem update_le_one {l v : Nat} (hone : ∀ l, lock l ≤ 1) (hv : v ≤ 1) (l' : Nat) :
    Function.update lock l v l' ≤ 1 := by
  by_cases hl : l' = l
  · simpa [hl] using hv
  · simpa [Function.update_of_ne hl] using hone l'

/-- **One instruction.** -/
theorem instr_ok (hx : x.Ok fl) (hle : ∀ l, x.owns l ≤ lock l) (hone : ∀ l, lock l ≤ 1) :
    InstrOk lock x (instr lock x fl) := by
  obtain ⟨pc, held, flg⟩ := x
  obtain ⟨hseen, hsaved, hcli, hreg, hlast⟩ := hx
  dsimp only at hseen hsaved hcli hreg hlast
  cases pc with
  | out => exact ⟨⟨hseen, hsaved, hcli, hreg, hlast⟩, hone, fun l => rfl⟩
  | pushfq l =>
      refine ⟨⟨hseen, hsaved, ?_, trivial, ?_⟩, hone, fun l => rfl⟩
      · intro l' f he
        cases he
        rfl
      · intro l' f he
        cases he
  | cli l f =>
      obtain rfl := hcli l f rfl
      refine ⟨⟨(sees_cons _ _ _).symm, ?_, ?_, trivial, ?_⟩, hone, fun l => rfl⟩
      · have hcons := savedOk_cons hsaved
        rw [← hseen] at hcons
        exact hcons
      · intro l' f he
        cases he
      · intro l' f he
        cases he
  | popq l f =>
      refine ⟨⟨hseen, hsaved, ?_, rfl, ?_⟩, hone, fun l => rfl⟩
      · intro l' f he
        cases he
      · intro l' f he
        cases he
  | xchg l f r =>
      obtain rfl : r = 1 := hreg
      refine ⟨⟨hseen, hsaved, ?_, hone l, ?_⟩, update_le_one hone (Nat.le_refl 1), fun l' => ?_⟩
      · intro l' f he
        cases he
      · intro l' f he
        cases he
      · have := hone l'
        by_cases hl : l' = l
        · subst hl
          rcases Nat.le_one_iff_eq_zero_or_eq_one.mp this with hz | hz <;>
            simp [instr, Ctx.owns, Pc.got, hz]
          omega
        · simp [instr, Ctx.owns, Pc.got, Function.update_of_ne hl, Ne.symm hl]
  | cmpl l f r =>
      by_cases hr : r = 0
      · subst hr
        simp only [instr, if_true]
        refine ⟨⟨?_, ?_, ?_, trivial, ?_⟩, hone, fun l' => ?_⟩
        · cases f <;> simpa [Ctx.saved, Pc.saved] using hseen
        · cases f <;> simpa [Ctx.saved, Pc.saved] using hsaved
        · intro l' f he
          cases he
        · intro l' f he
          cases he
        · by_cases hl : l = l'
          · simp [Ctx.owns, Pc.got, hl]
            omega
          · simp [Ctx.owns, Pc.got, hl]
      · have hr1 : r = 1 := by
          have : r ≤ 1 := hreg
          omega
        simp only [instr, hr, if_false]
        refine ⟨⟨hseen, hsaved, ?_, hr1, ?_⟩, hone, fun l' => ?_⟩
        · intro l' f he
          cases he
        · intro l' f he
          cases he
        · simp [Ctx.owns, Pc.got, hr]
  | spin l f r =>
      by_cases hz : lock l = 0
      · simp only [instr, hz, if_true]
        refine ⟨⟨hseen, hsaved, ?_, hreg, ?_⟩, hone, fun l => rfl⟩
        · intro l' f he
          cases he
        · intro l' f he
          cases he
      · simp only [instr, hz, if_false]
        exact ⟨⟨hseen, hsaved, hcli, hreg, hlast⟩, hone, fun l => rfl⟩
  | movl l f =>
      obtain ⟨rest, rfl⟩ := hlast l f rfl
      have hword : ∀ l', (Function.update lock l 0) l' ≤ 1 := update_le_one hone (Nat.zero_le 1)
      -- the word was 1, since this context has the lock
      have howns : ∀ l', (rest.map Prod.fst).count l' + lock l' =
          (((l, f) :: rest).map Prod.fst).count l' + Function.update lock l 0 l' := by
        intro l'
        have h1 := hle l'
        have h2 := hone l'
        by_cases hl : l' = l
        · subst hl
          simp [Ctx.owns, Pc.got] at h1 ⊢
          omega
        · simp [Function.update_of_ne hl, Ne.symm hl]
      cases f with
      | none =>
          refine ⟨⟨?_, ?_, ?_, trivial, ?_⟩, hword, fun l' => ?_⟩
          · simpa [instr, Ctx.saved, Pc.saved] using hseen
          · simpa [instr, Ctx.saved, Pc.saved] using hsaved
          · intro l' f he
            cases he
          · intro l' f he
            cases he
          · simpa [instr, Ctx.owns, Pc.got] using howns l'
      | some f =>
          refine ⟨⟨?_, ?_, ?_, trivial, ?_⟩, hword, fun l' => ?_⟩
          · simpa [instr, Ctx.saved, Pc.saved] using hseen
          · simpa [instr, Ctx.saved, Pc.saved] using hsaved
          · intro l' f he
            cases he
          · intro l' f he
            cases he
          · simpa [instr, Ctx.owns, Pc.got] using howns l'
  | popfq f =>
      have hcons : SavedOk flg (f :: held.filterMap Prod.snd) := hsaved
      obtain ⟨hrest, hf⟩ := savedOk_of_cons hcons
      refine ⟨⟨hf, hrest, ?_, trivial, ?_⟩, hone, fun l => rfl⟩
      · intro l' f he
        cases he
      · intro l' f he
        cases he

end Instr

/-! ## The machine -/

section Machine

variable {lock lock' : Nat → Nat} {k k' : Cpu} {m m' : Spin} {n : Nat}

/-- **What holds of a CPU.** -/
structure Cpu.Ok (k : Cpu) : Prop where
  cur : k.cur.Ok k.iflag
  below : ∀ x ∈ k.below, x.Ok true
  parked : ∀ s ∈ k.parked, (s.1.pc = .out ∧ s.1.Open) ∧ ∀ x ∈ s.2, x.Ok true

/-- **What holds of the machine**: a lock word is the number of contexts that have the lock. -/
structure SpinInv (m : Spin) : Prop where
  word : ∀ l, m.lock l ≤ 1
  owns : ∀ l, m.owns l = m.lock l
  cpus : ∀ k ∈ m.cpus, k.Ok

/-- Other code, with no lock taken with the interrupts off, sees the flag it has set. -/
theorem Ctx.ok_of_open {x : Ctx} (hpc : x.pc = .out) (hopen : x.Open) {flg : Bool} :
    ({ x with flg := flg } : Ctx).Ok flg := by
  obtain ⟨pc, held, flg'⟩ := x
  dsimp only at hpc
  subst hpc
  have hsaved : held.filterMap Prod.snd = [] := hopen
  refine ⟨?_, ?_, ?_, trivial, ?_⟩
  · simp [sees, Ctx.saved, Pc.saved, hsaved]
  · simp [Ctx.saved, Pc.saved, hsaved, SavedOk]
  · intro l f he
    cases he
  · intro l f he
    cases he

/-- A call from other code. -/
theorem Ctx.Ok.enter {x : Ctx} {fl : Bool} (h : x.Ok fl) (hpc : x.pc = .out) {pc : Pc}
    (hsaved : pc.saved = []) (hcli : ∀ l f, pc ≠ .cli l f) (hreg : pc.RegOk)
    (hlast : ∀ l f, pc = .movl l f → ∃ rest, x.held = (l, f) :: rest) :
    ({ x with pc := pc } : Ctx).Ok fl := by
  have heq : ({ x with pc := pc } : Ctx).saved = x.saved := by
    unfold Ctx.saved
    rw [hsaved, hpc]
    rfl
  refine ⟨?_, ?_, fun l f he => absurd he (hcli l f), hreg, hlast⟩
  · rw [heq]
    exact h.seen
  · rw [heq]
    exact h.saved

/-- What a step of a CPU keeps. -/
structure StepOk (lock : Nat → Nat) (k : Cpu) (lock' : Nat → Nat) (k' : Cpu) : Prop where
  cpu : k'.Ok
  word : ∀ l, lock' l ≤ 1
  owns : ∀ l, ownsOf l k'.ctxs + lock l = ownsOf l k.ctxs + lock' l

/-- A step that writes no lock word and leaves the locks with the contexts. -/
theorem StepOk.of_same (hcpu : k'.Ok) (hone : ∀ l, lock l ≤ 1)
    (howns : ∀ l, ownsOf l k'.ctxs = ownsOf l k.ctxs) : StepOk lock k lock k' :=
  ⟨hcpu, hone, fun l => by rw [howns l]⟩

theorem Cpu.Ok.callFun (hk : k.Ok) (hone : ∀ l, lock l ≤ 1) (hpc : k.cur.pc = .out) {pc : Pc}
    (hsaved : pc.saved = []) (hcli : ∀ l f, pc ≠ .cli l f) (hreg : pc.RegOk)
    (hgot : ∀ l, pc.got l = 0)
    (hlast : ∀ l f, pc = .movl l f → ∃ rest, k.cur.held = (l, f) :: rest) :
    StepOk lock k lock { k with cur := { k.cur with pc := pc } } := by
  refine .of_same ⟨hk.cur.enter hpc hsaved hcli hreg hlast, hk.below, hk.parked⟩ hone fun l => ?_
  have hzero : k.cur.pc.got l = 0 := by
    rw [hpc]
    rfl
  simp [Cpu.ctxs, Cpu.rest, Ctx.owns, hgot l, hzero]

/-- **One step of a CPU.** -/
theorem cpuStep_ok (hk : k.Ok) (hle : ∀ l, ownsOf l k.ctxs ≤ lock l) (hone : ∀ l, lock l ≤ 1)
    {op : CpuOp} (hstep : cpuStep lock k op = .ok (lock', k')) : StepOk lock k lock' k' := by
  cases op with
  | instr =>
      have hcur : ∀ l, k.cur.owns l ≤ lock l := fun l =>
        Nat.le_trans (owns_le_ownsOf List.mem_cons_self) (hle l)
      have hinstr := instr_ok hk.cur hcur hone
      simp only [cpuStep] at hstep
      generalize instr lock k.cur k.iflag = r at hinstr hstep
      obtain ⟨lock₁, x, f⟩ := r
      cases hstep
      obtain ⟨hctx, hword, howns⟩ := hinstr
      refine ⟨⟨hctx, hk.below, hk.parked⟩, hword, fun l => ?_⟩
      have := howns l
      simp only [Cpu.ctxs, Cpu.rest, ownsOf_cons] at this ⊢
      omega
  | lock l =>
      simp only [cpuStep] at hstep
      split at hstep
      · rename_i hpc
        cases hstep
        exact hk.callFun hone hpc rfl (by simp [halSpinlockLock]) rfl (fun _ => rfl)
          (by simp [halSpinlockLock])
      · cases hstep
  | lockCli l =>
      simp only [cpuStep] at hstep
      split at hstep
      · rename_i hpc
        cases hstep
        exact hk.callFun hone hpc rfl (by simp [halSpinlockSaveflgCli]) trivial (fun _ => rfl)
          (by simp [halSpinlockSaveflgCli])
      · cases hstep
  | unlock =>
      simp only [cpuStep] at hstep
      split at hstep
      · rename_i l rest hpc hheld
        cases hstep
        refine hk.callFun hone hpc rfl (by simp [halSpinlockUnlock]) trivial (fun _ => rfl) ?_
        intro l' f he
        cases he
        exact ⟨rest, hheld⟩
      · cases hstep
  | unlockSti =>
      simp only [cpuStep] at hstep
      split at hstep
      · rename_i l f rest hpc hheld
        cases hstep
        refine hk.callFun hone hpc rfl (by simp [halSpinunlockRestflgSti]) trivial
          (fun _ => rfl) ?_
        intro l' f' he
        cases he
        exact ⟨rest, hheld⟩
      · cases hstep
  | setIf flg =>
      simp only [cpuStep] at hstep
      split at hstep
      · rename_i hpc
        cases hstep
        exact .of_same ⟨Ctx.ok_of_open hpc.1 hpc.2, hk.below, hk.parked⟩ hone fun l => rfl
      · cases hstep
  | hwint =>
      simp only [cpuStep] at hstep
      split at hstep
      · rename_i hon
        cases hstep
        have hcur : k.cur.Ok true := hon ▸ hk.cur
        refine .of_same ⟨Ctx.ok_of_open (x := ⟨.out, [], false⟩) rfl rfl, ?_, hk.parked⟩ hone
          fun l => ?_
        · intro x hx
          rcases List.mem_cons.mp hx with rfl | hx
          · exact hcur
          · exact hk.below x hx
        · simp [Cpu.ctxs, Cpu.rest, Ctx.owns, Pc.got]
      · cases hstep
  | iretq =>
      simp only [cpuStep] at hstep
      cases hbelow : k.below with
      | nil =>
          rw [hbelow] at hstep
          cases hstep
      | cons x below =>
          rw [hbelow] at hstep
          dsimp only at hstep
          split at hstep
          · rename_i hpc
            cases hstep
            have hall := hk.below
            rw [hbelow] at hall
            refine .of_same ⟨hall x List.mem_cons_self,
              fun y hy => hall y (List.mem_cons_of_mem _ hy), hk.parked⟩ hone fun l => ?_
            simp [Cpu.ctxs, Cpu.rest, hbelow, Ctx.owns, Pc.got, hpc.1, hpc.2]
          · cases hstep
  | spawn =>
      simp only [cpuStep] at hstep
      split at hstep
      · cases hstep
        refine .of_same ⟨hk.cur, hk.below, fun s hs => ?_⟩ hone fun l => ?_
        · rcases List.mem_append.mp hs with hs | hs
          · exact hk.parked s hs
          · obtain rfl : s = (⟨.out, [], false⟩, []) := by simpa using hs
            exact ⟨⟨rfl, rfl⟩, fun x hx => absurd hx List.not_mem_nil⟩
        · simp [Cpu.ctxs, Cpu.rest, stackCtxs, Ctx.owns, Pc.got]
      · cases hstep
  | switch i =>
      simp only [cpuStep] at hstep
      cases hs : k.parked[i]? with
      | none =>
          rw [hs] at hstep
          cases hstep
      | some s =>
          rw [hs] at hstep
          dsimp only at hstep
          split at hstep
          · rename_i hpc
            cases hstep
            obtain ⟨hout, hbelow⟩ := hk.parked s (List.mem_of_getElem? hs)
            refine .of_same ⟨Ctx.ok_of_open hout.1 hout.2, hbelow, fun t ht => ?_⟩ hone
              fun l => ?_
            · rcases List.mem_or_eq_of_mem_set ht with ht | rfl
              · exact hk.parked t ht
              · exact ⟨hpc, hk.below⟩
            · have hset := ownsOf_flatMap_set stackCtxs l (k.cur, k.below) hs
              simp only [stackCtxs, ownsOf_cons] at hset
              simp only [Cpu.ctxs, Cpu.rest, ownsOf_cons, ownsOf_append]
              simp only [Ctx.owns] at hset ⊢
              omega
          · cases hstep

/-- **Each step keeps the invariant.** -/
theorem spinStep_inv (m : Spin) (op : Nat × CpuOp) (m' : Spin) (h : SpinInv m)
    (hstep : spinStep m op = .ok m') : SpinInv m' := by
  unfold spinStep at hstep
  cases hk : m.cpus[op.1]? with
  | none => simp [hk] at hstep
  | some k =>
      rw [hk] at hstep
      dsimp only at hstep
      cases hcpu : cpuStep m.lock k op.2 with
      | error e => simp [hcpu] at hstep
      | ok r =>
          obtain ⟨lock', k'⟩ := r
          rw [hcpu] at hstep
          cases hstep
          have hmem := List.mem_of_getElem? hk
          have hset := fun l => ownsOf_flatMap_set Cpu.ctxs l k' hk
          have hle : ∀ l, ownsOf l k.ctxs ≤ m.lock l := by
            intro l
            rw [← h.owns l]
            have hself := ownsOf_flatMap_set Cpu.ctxs l ⟨false, ⟨.out, [], false⟩, [], []⟩ hk
            have hzero : ownsOf l (Cpu.ctxs ⟨false, ⟨.out, [], false⟩, [], []⟩) = 0 := by
              simp [Cpu.ctxs, Cpu.rest, Ctx.owns, Pc.got]
            unfold Spin.owns
            omega
          obtain ⟨hok, hword, howns⟩ := cpuStep_ok (h.cpus k hmem) hle h.word hcpu
          refine ⟨hword, fun l => ?_, fun j hj => ?_⟩
          · have h1 := howns l
            have h2 := hset l
            have h3 := h.owns l
            unfold Spin.owns at h3 ⊢
            dsimp only
            omega
          · rcases List.mem_or_eq_of_mem_set hj with hj | rfl
            · exact h.cpus j hj
            · exact hok

theorem spinInit_inv (n : Nat) : SpinInv (Spin.init n) := by
  refine ⟨fun _ => Nat.zero_le 1, fun l => ?_, fun k hk => ?_⟩
  · induction n with
    | zero => rfl
    | succ n ih =>
        have hone : ownsOf l Cpu.init.ctxs = 0 := rfl
        simp only [Spin.owns, Spin.init] at ih ⊢
        rw [List.replicate_succ, List.flatMap_cons, ownsOf_append, hone, ih]
  · obtain rfl : k = Cpu.init := List.eq_of_mem_replicate hk
    exact ⟨Ctx.ok_of_open (x := ⟨.out, [], false⟩) rfl rfl,
      fun x hx => absurd hx List.not_mem_nil, fun s hs => absurd hs List.not_mem_nil⟩

theorem spinRun_inv {ops : List (Nat × CpuOp)} (hrun : run spinStep ops (Spin.init n) = .ok m) :
    SpinInv m :=
  run_inv SpinInv spinStep_inv ops _ m (spinInit_inv n) hrun

/-! ## Waiting for a lock -/

/-- The context is about to take the lock, or has seen that somebody has it. -/
def Pc.waits (l : Nat) : Pc → Bool
  | .xchg l' _ _ => l' = l
  | .cmpl l' _ r => l' = l && r ≠ 0
  | .spin l' _ _ => l' = l
  | _ => false

/-- After `n` instructions of the CPU, it has the lock. -/
def Takes (i l n : Nat) (m : Spin) : Prop :=
  ∃ m' k', run spinStep (List.replicate n (i, .instr)) m = .ok m' ∧ m'.cpus[i]? = some k' ∧
    l ∈ k'.cur.held.map Prod.fst

/-- One instruction of a CPU. -/
theorem instr_step {i : Nat} {x : Ctx} {f : Bool} (hk : m.cpus[i]? = some k)
    (hinstr : instr m.lock k.cur k.iflag = (lock', x, f)) :
    spinStep m (i, .instr) = .ok ⟨lock', m.cpus.set i { k with iflag := f, cur := x }⟩ ∧
      (m.cpus.set i { k with iflag := f, cur := x })[i]? =
        some { k with iflag := f, cur := x } := by
  obtain ⟨hlt, -⟩ := List.getElem?_eq_some_iff.mp hk
  constructor
  · simp [spinStep, hk, cpuStep, hinstr]
  · simp [hlt]

theorem Takes.step {i l n : Nat} (hstep : spinStep m (i, .instr) = .ok m') (h : Takes i l n m') :
    Takes i l (n + 1) m := by
  obtain ⟨m₂, k', hrun, hk', hin⟩ := h
  exact ⟨m₂, k', (run_cons_ok hstep).trans hrun, hk', hin⟩

theorem takes_xchg {i l : Nat} {f : Option Bool} {r : Nat} (hk : m.cpus[i]? = some k)
    (hpc : k.cur.pc = .xchg l f r) (hfree : m.lock l = 0) : Takes i l 2 m := by
  have h1 : instr m.lock k.cur k.iflag =
      (Function.update m.lock l r, { k.cur with pc := .cmpl l f 0 }, k.iflag) := by
    simp [instr, hpc, hfree]
  obtain ⟨hstep1, hk1⟩ := instr_step hk h1
  refine Takes.step hstep1 ?_
  obtain ⟨hstep2, hk2⟩ := instr_step (m := ⟨Function.update m.lock l r, _⟩) hk1 rfl
  exact Takes.step hstep2 ⟨_, _, rfl, hk2, by simp⟩

theorem takes_spin {i l : Nat} {f : Option Bool} {r : Nat} (hk : m.cpus[i]? = some k)
    (hpc : k.cur.pc = .spin l f r) (hfree : m.lock l = 0) : Takes i l 3 m := by
  have h1 : instr m.lock k.cur k.iflag = (m.lock, { k.cur with pc := .xchg l f r }, k.iflag) := by
    simp [instr, hpc, hfree]
  obtain ⟨hstep1, hk1⟩ := instr_step hk h1
  exact Takes.step hstep1 (takes_xchg (m := ⟨m.lock, _⟩) hk1 rfl hfree)

/-- **A lock that is free** is taken, if nobody else is quicker. -/
theorem takes_of_waits {i l : Nat} (hk : m.cpus[i]? = some k) (hw : k.cur.pc.waits l = true)
    (hfree : m.lock l = 0) : ∃ n ≤ 4, Takes i l n m := by
  cases hpc : k.cur.pc with
  | xchg l' f r =>
      obtain rfl : l' = l := by simpa [hpc, Pc.waits] using hw
      exact ⟨2, by omega, takes_xchg hk hpc hfree⟩
  | cmpl l' f r =>
      obtain ⟨rfl, hr⟩ : l' = l ∧ r ≠ 0 := by simpa [hpc, Pc.waits] using hw
      have h1 : instr m.lock k.cur k.iflag =
          (m.lock, { k.cur with pc := .spin l' f r }, k.iflag) := by
        simp [instr, hpc, hr]
      obtain ⟨hstep1, hk1⟩ := instr_step hk h1
      exact ⟨4, by omega, Takes.step hstep1 (takes_spin (m := ⟨m.lock, _⟩) hk1 rfl hfree)⟩
  | spin l' f r =>
      obtain rfl : l' = l := by simpa [hpc, Pc.waits] using hw
      exact ⟨3, by omega, takes_spin hk hpc hfree⟩
  | out => simp [hpc, Pc.waits] at hw
  | pushfq l' => simp [hpc, Pc.waits] at hw
  | cli l' f => simp [hpc, Pc.waits] at hw
  | popq l' f => simp [hpc, Pc.waits] at hw
  | movl l' f => simp [hpc, Pc.waits] at hw
  | popfq f => simp [hpc, Pc.waits] at hw

/-- The locks that contexts of the machine have. -/
def Spin.held (m : Spin) : List Nat :=
  (m.cpus.flatMap Cpu.ctxs).flatMap fun x => x.held.map Prod.fst

/-- **What the locks are for.** -/
structure SpinSafe (m : Spin) : Prop where
  /-- a lock is had once, and then its word is 1 -/
  once : ∀ l, m.held.count l ≤ m.lock l ∧ m.lock l ≤ 1
  /-- who has a lock that is taken with the interrupts off is the running context, and they are -/
  off : ∀ k ∈ m.cpus, (∀ x ∈ k.rest, x.Open) ∧ (¬ k.cur.Open → k.iflag = false)
  /-- without such a lock, the interrupts are what other code has made them -/
  back : ∀ k ∈ m.cpus, k.cur.pc = .out → k.cur.Open → k.iflag = k.cur.flg
  takes : ∀ i k l, m.cpus[i]? = some k → k.cur.pc.waits l = true → m.lock l = 0 →
    ∃ n ≤ 4, Takes i l n m

theorem count_held_le (l : Nat) (xs : List Ctx) :
    (xs.flatMap fun x => x.held.map Prod.fst).count l ≤ ownsOf l xs := by
  induction xs with
  | nil => simp
  | cons x xs ih =>
      rw [List.flatMap_cons, List.count_append, ownsOf_cons]
      unfold Ctx.owns
      omega

theorem Ctx.open_of_saved {x : Ctx} (h : x.saved = []) : x.Open :=
  (List.append_eq_nil_iff.mp h).2

theorem SpinInv.safe (h : SpinInv m) : SpinSafe m where
  once l := by
    refine ⟨?_, h.word l⟩
    rw [← h.owns l]
    exact count_held_le l _
  off k hk := by
    have hok := h.cpus k hk
    refine ⟨fun x hx => ?_, fun hno => ?_⟩
    · rcases List.mem_append.mp hx with hx | hx
      · exact Ctx.open_of_saved (hok.below x hx).saved_eq_nil
      · obtain ⟨s, hs, hx⟩ := List.mem_flatMap.mp hx
        obtain ⟨hout, hbelow⟩ := hok.parked s hs
        rcases List.mem_cons.mp hx with rfl | hx
        · exact hout.2
        · exact Ctx.open_of_saved (hbelow x hx).saved_eq_nil
    · have hsaved : k.cur.saved ≠ [] := fun he => hno (Ctx.open_of_saved he)
      simpa [sees, hsaved] using hok.cur.seen
  back k hk hpc hopen := by
    have hsaved : k.cur.saved = [] := by
      unfold Ctx.saved
      rw [hpc, hopen]
      rfl
    simpa [sees, hsaved] using (h.cpus k hk).cur.seen
  takes _ _ _ := takes_of_waits

/-! ## Waiting for ever -/

/-- With the interrupts off, the CPU waits for a lock that one of its own contexts has. -/
def Stuck (i l : Nat) (m : Spin) : Prop :=
  ∃ k, m.cpus[i]? = some k ∧ k.iflag = false ∧ k.cur.pc.waits l = true ∧
    ∃ x ∈ k.ctxs, l ∈ x.held.map Prod.fst

theorem Pc.ne_out_of_waits {l : Nat} {pc : Pc} (h : pc.waits l = true) : pc ≠ .out := by
  rintro rfl
  cases h

/-- An instruction of a context that waits, while somebody has the lock. -/
theorem instr_waits {l : Nat} {x : Ctx} {fl : Bool} (hw : x.pc.waits l = true)
    (hlock : lock l = 1) :
    (instr lock x fl).2.1.pc.waits l = true ∧ (instr lock x fl).2.1.held = x.held ∧
      (instr lock x fl).2.2 = fl := by
  obtain ⟨pc, held, flg⟩ := x
  cases pc with
  | xchg l' f r =>
      obtain rfl : l' = l := by simpa [Pc.waits] using hw
      simp [instr, Pc.waits, hlock]
  | cmpl l' f r =>
      obtain ⟨rfl, hr⟩ : l' = l ∧ r ≠ 0 := by simpa [Pc.waits] using hw
      simp [instr, Pc.waits, hr]
  | spin l' f r =>
      obtain rfl : l' = l := by simpa [Pc.waits] using hw
      simp [instr, Pc.waits, hlock]
  | out => simp [Pc.waits] at hw
  | pushfq l' => simp [Pc.waits] at hw
  | cli l' f => simp [Pc.waits] at hw
  | popq l' f => simp [Pc.waits] at hw
  | movl l' f => simp [Pc.waits] at hw
  | popfq f => simp [Pc.waits] at hw

/-- A CPU that waits with the interrupts off does nothing else. -/
theorem cpuStep_waits {l : Nat} {op : CpuOp} {r : (Nat → Nat) × Cpu} (hoff : k.iflag = false)
    (hw : k.cur.pc.waits l = true) (hstep : cpuStep lock k op = .ok r) : op = .instr := by
  have hout := Pc.ne_out_of_waits hw
  cases op with
  | instr => rfl
  | lock l => simp [cpuStep, hout] at hstep
  | lockCli l => simp [cpuStep, hout] at hstep
  | unlock =>
      simp only [cpuStep] at hstep
      split at hstep
      · rename_i hpc _
        exact absurd hpc hout
      · cases hstep
  | unlockSti =>
      simp only [cpuStep] at hstep
      split at hstep
      · rename_i hpc _
        exact absurd hpc hout
      · cases hstep
  | setIf flg => simp [cpuStep, hout] at hstep
  | hwint => simp [cpuStep, hoff] at hstep
  | iretq =>
      simp only [cpuStep] at hstep
      split at hstep
      · cases hstep
      · simp [hout] at hstep
  | spawn => simp [cpuStep, hout] at hstep
  | switch i =>
      simp only [cpuStep] at hstep
      split at hstep
      · cases hstep
      · simp [hout] at hstep

/-- **Each step, of whichever CPU, leaves it stuck.** -/
theorem Stuck.step {i l : Nat} (hinv : SpinInv m) (h : Stuck i l m) {op : Nat × CpuOp}
    (hstep : spinStep m op = .ok m') : Stuck i l m' := by
  obtain ⟨k, hk, hoff, hw, x, hx, hl⟩ := h
  obtain ⟨c, op⟩ := op
  by_cases hc : c = i
  · subst hc
    -- the lock word is 1
    have hlock : m.lock l = 1 := by
      have h1 : 0 < x.owns l := by
        have := List.count_pos_iff.mpr hl
        unfold Ctx.owns
        omega
      have h2 : x ∈ m.cpus.flatMap Cpu.ctxs :=
        List.mem_flatMap.mpr ⟨k, List.mem_of_getElem? hk, hx⟩
      have h3 := owns_le_ownsOf (l := l) h2
      have h4 := hinv.owns l
      have h5 := hinv.word l
      unfold Spin.owns at h4
      omega
    have hop : op = .instr := by
      simp only [spinStep, hk] at hstep
      split at hstep
      · cases hstep
      · rename_i hcpu
        exact cpuStep_waits hoff hw hcpu
    subst hop
    have hwaits : (instr m.lock k.cur k.iflag).2.1.pc.waits l = true ∧
        (instr m.lock k.cur k.iflag).2.1.held = k.cur.held ∧
        (instr m.lock k.cur k.iflag).2.2 = k.iflag := instr_waits hw hlock
    generalize hinstr : instr m.lock k.cur k.iflag = r at hwaits
    obtain ⟨lock', y, f⟩ := r
    obtain ⟨hw', hheld, hoff'⟩ := hwaits
    obtain ⟨hstep', hk'⟩ := instr_step hk hinstr
    rw [hstep'] at hstep
    cases hstep
    refine ⟨_, hk', hoff'.trans hoff, hw', ?_⟩
    rcases List.mem_cons.mp hx with rfl | hx
    · exact ⟨y, List.mem_cons_self, hheld ▸ hl⟩
    · exact ⟨x, List.mem_cons_of_mem _ hx, hl⟩
  · unfold spinStep at hstep
    dsimp only at hstep
    cases hkc : m.cpus[c]? with
    | none => simp [hkc] at hstep
    | some kc =>
        rw [hkc] at hstep
        dsimp only at hstep
        split at hstep
        · cases hstep
        · cases hstep
          exact ⟨k, by simpa [List.getElem?_set_ne hc] using hk, hoff, hw, x, hx, hl⟩

end Machine

/-- **Spin locks are safe**, whatever the CPUs do in whichever order. -/
theorem spin_safe {n : Nat} {ops : List (Nat × CpuOp)} {m : Spin}
    (hrun : run spinStep ops (Spin.init n) = .ok m) : SpinSafe m :=
  (spinRun_inv hrun).safe

/-- Two CPUs want one lock; the first one gets it. -/
def twoCpus : List (Nat × CpuOp) :=
  [(0, .setIf true), (0, .lockCli 7), (1, .lock 7)] ++ List.replicate 3 (0, .instr) ++
    [(0, .instr), (1, .instr), (0, .instr), (1, .instr)]

theorem spin_safe_twoCpus : ∃ m : Spin, run spinStep twoCpus (Spin.init 2) = .ok m ∧
    m.held = [7] ∧ SpinSafe m := by
  obtain ⟨m, hrun, hq⟩ := exists_of_okAnd (e := run spinStep twoCpus (Spin.init 2))
    (q := fun m => m.held = [7]) (by decide +kernel)
  exact ⟨m, hrun, of_decide_eq_true hq, spin_safe hrun⟩

/-- **A CPU that waits with the interrupts off for a lock that one of its own contexts has**
waits for ever, whatever the other CPUs do. -/
theorem spin_stuck {n : Nat} {ops ops' : List (Nat × CpuOp)} {m m' : Spin} {i l : Nat}
    (hrun : run spinStep ops (Spin.init n) = .ok m) (h : Stuck i l m)
    (hrun' : run spinStep ops' m = .ok m') : Stuck i l m' := by
  have hinv : SpinInv m' ∧ Stuck i l m' :=
    run_inv (fun m => SpinInv m ∧ Stuck i l m)
      (fun m op m' hm hstep => ⟨spinStep_inv m op m' hm.1 hstep, hm.2.step hm.1 hstep⟩)
      ops' m m' ⟨spinRun_inv hrun, h⟩ hrun'
  exact hinv.2

/-- `hal_mmu_transform_core` is interrupted while it has `mud_lock`; `krlschedul` goes on with
another thread, and then with this one again, for which `__to_new_context` calls `hal_mmu_load`. -/
def switchInTransform : List (Nat × CpuOp) :=
  [(0, .spawn), (0, .setIf true), (0, .lock 7), (0, .instr), (0, .instr), (0, .hwint),
    (0, .switch 0), (0, .switch 0), (0, .lock 7)]

theorem spin_stuck_switchInTransform : ∃ m m' : Spin,
    run spinStep switchInTransform (Spin.init 1) = .ok m ∧
    run spinStep (List.replicate 5 (0, .instr)) m = .ok m' ∧ Stuck 0 7 m' := by
  obtain ⟨m, hrun, hq⟩ := exists_of_okAnd (e := run spinStep switchInTransform (Spin.init 1))
    (q := fun m => decide (m.cpus = [⟨false, ⟨.xchg 7 none 1, [], false⟩,
        [⟨.out, [(7, none)], true⟩], [(⟨.out, [], false⟩, [])]⟩]) &&
      okAnd (run spinStep (List.replicate 5 (0, .instr)) m) fun _ => true) (by decide +kernel)
  rw [Bool.and_eq_true] at hq
  obtain ⟨hcpus, hend⟩ := hq
  obtain ⟨m', hrun', -⟩ := exists_of_okAnd hend
  refine ⟨m, m', hrun, hrun', spin_stuck hrun ?_ hrun'⟩
  rw [Stuck, of_decide_eq_true hcpus]
  exact ⟨_, rfl, rfl, rfl, ⟨.out, [(7, none)], true⟩, by simp [Cpu.ctxs, Cpu.rest], by simp⟩

end Cosmos.Hal
