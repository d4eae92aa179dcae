import Cosmos.Lib.Run
import Mathlib.Data.List.Nodup

/-!
# Things that are handed out and taken back

A supply hands out things of a type and takes them back.  Whether a request is
served, and with what, is up to the supply (`alc`, asked anew at each request),
but it never hands out what is outstanding.

An allocator whose steps have this property, for all that it has handed out, is a supply to each
of its users, whatever the others do: what it says to him is what some supply says.

## Main results

* `Supply.exists_of_fair` : any exchange in which nothing is handed out twice, and only what is
  outstanding comes back, is one with a supply.
* `Supplies.supply` : to one of many users, a machine that serves them all is a supply.
-/

namespace Cosmos.Lib

open Cosmos.Lib.Run

variable {α : Type} [DecidableEq α]

/-- A supply: what is outstanding, and the answer to request number `tick`. -/
structure Supply (α : Type) where
  out : List α
  nodup : out.Nodup
  alc : Nat → Option α
  tick : Nat

/-- Ask for one. -/
def Supply.take (u : Supply α) : Option α × Supply α :=
  match u.alc u.tick with
  | some x =>
      if h : x ∈ u.out then (none, { u with tick := u.tick + 1 })
      else (some x, ⟨x :: u.out, List.nodup_cons.mpr ⟨h, u.nodup⟩, u.alc, u.tick + 1⟩)
  | none => (none, { u with tick := u.tick + 1 })

/-- Give one back; `none` if it was not outstanding. -/
def Supply.give (u : Supply α) (x : α) : Option (Supply α) :=
  if x ∈ u.out then some ⟨u.out.erase x, u.nodup.erase x, u.alc, u.tick⟩ else none

/-- A request is refused, or served with something new. -/
theorem Supply.take_cases (u : Supply α) :
    (u.take.1 = none ∧ u.take.2.out = u.out) ∨
    ∃ x, u.take.1 = some x ∧ x ∉ u.out ∧ u.take.2.out = x :: u.out := by
  unfold Supply.take
  cases u.alc u.tick with
  | none => exact Or.inl ⟨rfl, rfl⟩
  | some x =>
      by_cases h : x ∈ u.out
      · simp only [dif_pos h]
        exact Or.inl ⟨trivial, trivial⟩
      · simp only [dif_neg h]
        exact Or.inr ⟨x, rfl, h, rfl⟩

/-- The next `n` requests are served. -/
def Supply.Grants : Nat → Supply α → Prop
  | 0, _ => True
  | n + 1, u => u.take.1 ≠ none ∧ u.take.2.Grants n

/-- The supply after `n` requests. -/
def Supply.after : Nat → Supply α → Supply α
  | 0, u => u
  | n + 1, u => u.take.2.after n

/-- More requests are served exactly if some are, and then the rest. -/
theorem Supply.grants_add (m n : Nat) (u : Supply α) :
    u.Grants (m + n) ↔ u.Grants m ∧ (u.after m).Grants n := by
  induction m generalizing u with
  | zero => simp [Supply.Grants, Supply.after]
  | succ m ih =>
      rw [Nat.succ_add, Supply.Grants, ih, Supply.Grants, Supply.after, and_assoc]

/-- What is outstanding can be given back. -/
theorem Supply.give_of_mem {u : Supply α} {x : α} (h : x ∈ u.out) :
    ∃ u', u.give x = some u' ∧ u'.out = u.out.erase x :=
  ⟨_, if_pos h, rfl⟩

theorem Supply.give_inv {u u' : Supply α} {x : α} (h : u.give x = some u') :
    x ∈ u.out ∧ u'.out = u.out.erase x := by
  unfold Supply.give at h
  split at h
  · rename_i hx
    cases h
    exact ⟨hx, rfl⟩
  · cases h

/-! ## Exchanges -/

/-- What a user says to a supply and hears from it. -/
inductive Exchange (α : Type) where
  | take (answer : Option α)
  | give (x : α)
deriving DecidableEq

/-- The supply after an exchange, `none` if it does not answer so. -/
def Supply.exchange (u : Supply α) : Exchange α → Option (Supply α)
  | .take answer => if u.take.1 = answer then some u.take.2 else none
  | .give x => u.give x

/-- The supply after a list of them. -/
def Supply.exchanges : List (Exchange α) → Supply α → Option (Supply α)
  | [], u => some u
  | e :: es, u => (u.exchange e).bind (Supply.exchanges es)

/-- What is outstanding after an exchange. -/
def Exchange.held (e : Exchange α) (out : List α) : List α :=
  match e with
  | .take none => out
  | .take (some x) => x :: out
  | .give x => out.erase x

/-- Nothing is handed out twice, and only what is outstanding comes back. -/
def Exchange.Fair (e : Exchange α) (out : List α) : Prop :=
  match e with
  | .take none => True
  | .take (some x) => x ∉ out
  | .give x => x ∈ out

/-- Nor in a list of them. -/
def Fair : List (Exchange α) → List α → Prop
  | [], _ => True
  | e :: es, out => e.Fair out ∧ Fair es (e.held out)

/-- What is outstanding in the end. -/
def heldAfter (es : List (Exchange α)) (out : List α) : List α :=
  es.foldl (fun out e => e.held out) out

theorem fair_concat {es : List (Exchange α)} {e : Exchange α} {out : List α} (h : Fair es out)
    (he : e.Fair (heldAfter es out)) : Fair (es ++ [e]) out := by
  induction es generalizing out with
  | nil => exact ⟨he, trivial⟩
  | cons e' es ih => exact ⟨h.1, ih h.2 he⟩

theorem heldAfter_concat (es : List (Exchange α)) (e : Exchange α) (out : List α) :
    heldAfter (es ++ [e]) out = e.held (heldAfter es out) := List.foldl_concat ..

theorem Exchange.Fair.nodup {e : Exchange α} {out : List α} (h : e.Fair out) (hnd : out.Nodup) :
    (e.held out).Nodup := by
  match e, h with
  | .take none, _ => exact hnd
  | .take (some x), h => exact List.nodup_cons.mpr ⟨h, hnd⟩
  | .give x, _ => exact hnd.erase x

theorem Fair.nodup {es : List (Exchange α)} {out : List α} (h : Fair es out) (hnd : out.Nodup) :
    (heldAfter es out).Nodup := by
  induction es generalizing out with
  | nil => exact hnd
  | cons e es ih => exact ih h.2 (h.1.nodup hnd)

/-- The answers to the requests. -/
def answers : List (Exchange α) → List (Option α)
  | [] => []
  | .take answer :: es => answer :: answers es
  | .give _ :: es => answers es

/-- A supply that is asked for the answers gives them. -/
theorem Supply.exchanges_eq {es : List (Exchange α)} (u : Supply α) (hfair : Fair es u.out)
    (halc : ∀ i answer, (answers es)[i]? = some answer → u.alc (u.tick + i) = answer) :
    ∃ u', Supply.exchanges es u = some u' ∧ u'.out = heldAfter es u.out := by
  induction es generalizing u with
  | nil => exact ⟨u, rfl, rfl⟩
  | cons e es ih =>
      cases e with
      | take answer =>
          have hfirst : u.alc u.tick = answer := halc 0 answer rfl
          have hrest : ∀ i answer', (answers es)[i]? = some answer' →
              u.alc (u.tick + 1 + i) = answer' := fun i answer' hi => by
            rw [Nat.add_assoc, Nat.add_comm 1 i]
            exact halc (i + 1) answer' hi
          have htake : u.take.1 = answer ∧ u.take.2.out = (Exchange.take answer).held u.out ∧
              u.take.2.alc = u.alc ∧ u.take.2.tick = u.tick + 1 := by
            unfold Supply.take
            rw [hfirst]
            cases answer with
            | none => exact ⟨rfl, rfl, rfl, rfl⟩
            | some x =>
                have hx : x ∉ u.out := hfair.1
                simp only [dif_neg hx]
                exact ⟨trivial, rfl, trivial, trivial⟩
          obtain ⟨hans, hout, hal, htick⟩ := htake
          have hfair' : Fair es u.take.2.out := hout ▸ hfair.2
          obtain ⟨u', hrun, hout'⟩ := ih u.take.2 hfair' fun i answer' hi => by
            rw [hal, htick]
            exact hrest i answer' hi
          refine ⟨u', ?_, by rw [hout', hout]; rfl⟩
          simp only [Supply.exchanges, Supply.exchange, if_pos hans, Option.bind_some]
          exact hrun
      | give x =>
          have hx : x ∈ u.out := hfair.1
          obtain ⟨u', hrun, hout'⟩ :=
            ih ⟨u.out.erase x, u.nodup.erase x, u.alc, u.tick⟩ hfair.2 halc
          refine ⟨u', ?_, hout'⟩
          simp only [Supply.exchanges, Supply.exchange, Supply.give, if_pos hx, Option.bind_some]
          exact hrun

/-- **Every fair exchange is one with a supply.** -/
theorem Supply.exists_of_fair {es : List (Exchange α)} {out : List α} (hnd : out.Nodup)
    (h : Fair es out) : ∃ u u' : Supply α, u.out = out ∧ Supply.exchanges es u = some u' ∧
      u'.out = heldAfter es out := by
  have hu := Supply.exchanges_eq ⟨out, hnd, fun i => ((answers es)[i]?).getD none, 0⟩ h
    fun i answer hi => by
      show ((answers es)[0 + i]?).getD none = answer
      rw [Nat.zero_add, hi, Option.getD_some]
  obtain ⟨u', hrun, hout⟩ := hu
  exact ⟨_, u', rfl, hrun, hout⟩

/-! ## One user among others -/

section Users

variable {σ ι : Type}

/-- A machine, and one of its users: what he has, and what they said to each other. -/
structure Using (σ α : Type) where
  sys : σ
  mine : List α
  said : List (Exchange α)

/-- A step that the user asks for, or another one: `ev` is what it says. -/
def userStep (step : σ → ι → Except String σ) (ev : σ → ι → Option (Exchange α))
    (s : Using σ α) (op : Bool × ι) : Except String (Using σ α) :=
  match step s.sys op.2 with
  | .error e => .error e
  | .ok sys =>
      match op.1, ev s.sys op.2 with
      | true, some e => .ok ⟨sys, e.held s.mine, s.said ++ [e]⟩
      | _, _ => .ok { s with sys := sys }

/-- Users give back what they have. -/
def GivesOwn (ev : σ → ι → Option (Exchange α)) (s : Using σ α) (op : Bool × ι) : Prop :=
  ∀ x, ev s.sys op.2 = some (.give x) → (op.1 = true ↔ x ∈ s.mine)

/-- A step takes what is outstanding from `out` to `out'`: what it hands out was not outstanding,
and nothing comes back by itself. -/
structure Supplies (e : Option (Exchange α)) (out out' : α → Prop) : Prop where
  fresh : ∀ x, e = some (.take (some x)) → ¬ out x ∧ out' x
  kept : ∀ x, out x → e ≠ some (.give x) → out' x

omit [DecidableEq α] in
/-- A step that hands out nothing, and after which all that was outstanding is so. -/
theorem Supplies.silent {e : Option (Exchange α)} {out out' : α → Prop}
    (he : ∀ x, e ≠ some (.take (some x))) (hout : ∀ x, out x → out' x) : Supplies e out out' :=
  ⟨fun x hx => absurd hx (he x), fun x hx _ => hout x hx⟩

section Mine

variable {e : Exchange α} {mine : List α} {out out' : α → Prop}

omit [DecidableEq α] in
/-- The user's part in a step that he asks for. -/
theorem Supplies.fair_mine (h : Supplies (some e) out out') (hmine : ∀ x ∈ mine, out x)
    (hgive : ∀ x, e = .give x → x ∈ mine) : e.Fair mine := by
  match e, h, hgive with
  | .take none, _, _ => exact trivial
  | .take (some x), h, _ => exact fun hx => (h.fresh x rfl).1 (hmine x hx)
  | .give x, _, hgive => exact hgive x rfl

/-- What he has after it is outstanding. -/
theorem Supplies.held_mine (h : Supplies (some e) out out') (hnd : mine.Nodup)
    (hmine : ∀ x ∈ mine, out x) : ∀ x ∈ e.held mine, out' x := by
  intro x hx
  match e, h, hx with
  | .take none, h, hx => exact h.kept x (hmine x hx) nofun
  | .take (some y), h, hx =>
      rcases List.mem_cons.mp hx with rfl | hx
      · exact (h.fresh x rfl).2
      · exact h.kept x (hmine x hx) nofun
  | .give y, h, hx =>
      obtain ⟨hne, hx⟩ := hnd.mem_erase_iff.mp hx
      apply h.kept x (hmine x hx)
      rintro ⟨⟩
      exact hne rfl

end Mine

variable {step : σ → ι → Except String σ} {ev : σ → ι → Option (Exchange α)} {Inv : σ → Prop}
  {P : σ → ι → Prop} {out : σ → α → Prop}

/-- Between a user and a machine that serves all. -/
structure UserInv (Inv : σ → Prop) (out : σ → α → Prop) (s : Using σ α) : Prop where
  sys : Inv s.sys
  mine : ∀ x ∈ s.mine, out s.sys x
  fair : Fair s.said []
  held : heldAfter s.said [] = s.mine

/-- **One step**, of the user or of another one. -/
theorem UserInv.afterStep (hsup : ∀ s op s', Inv s → P s op → step s op = .ok s' →
      Inv s' ∧ Supplies (ev s op) (out s) (out s')) (s : Using σ α) (op : Bool × ι) (s' : Using σ α)
    (h : UserInv Inv out s) (hfair : P s.sys op.2 ∧ GivesOwn ev s op)
    (hstep : userStep step ev s op = .ok s') : UserInv Inv out s' := by
  obtain ⟨b, op⟩ := op
  obtain ⟨hP, hown⟩ := hfair
  unfold userStep at hstep
  split at hstep
  · cases hstep
  · rename_i sys hsys
    obtain ⟨hinv, hmove⟩ := hsup s.sys op sys h.sys hP hsys
    have hnd : s.mine.Nodup := h.held ▸ h.fair.nodup List.nodup_nil
    split at hstep
    · -- the user asks
      rename_i e hb he
      cases hstep
      rw [he] at hmove
      have hfair : e.Fair s.mine :=
        hmove.fair_mine h.mine fun x hx => (hown x (hx ▸ he)).mp hb
      refine ⟨hinv, hmove.held_mine hnd h.mine, fair_concat h.fair (h.held.symm ▸ hfair), ?_⟩
      rw [heldAfter_concat, h.held]
    · -- another one asks, and gives nothing of the user's back
      rename_i hother
      cases hstep
      refine ⟨hinv, fun x hx => hmove.kept x (h.mine x hx) fun he => ?_, h.fair, h.held⟩
      exact hother _ ((hown x he).mpr hx) he

/-- **A machine that serves all its users is a supply to each.** -/
theorem Supplies.supply (hsup : ∀ s op s', Inv s → P s op → step s op = .ok s' →
      Inv s' ∧ Supplies (ev s op) (out s) (out s')) {sys : σ} (hs : Inv sys) {ops : List (Bool × ι)}
    {t : Using σ α}
    (hall : AllSteps (userStep step ev) (fun s op => P s.sys op.2 ∧ GivesOwn ev s op) ops
      ⟨sys, [], []⟩)
    (hrun : run (userStep step ev) ops ⟨sys, [], []⟩ = .ok t) :
    ∃ u u' : Supply α, u.out = [] ∧ Supply.exchanges t.said u = some u' ∧ u'.out = t.mine := by
  have hstart : UserInv Inv out (⟨sys, [], []⟩ : Using σ α) :=
    ⟨hs, fun _ hx => (List.not_mem_nil hx).elim, trivial, rfl⟩
  have hinv := run_inv_of_allSteps (UserInv Inv out) _ (UserInv.afterStep hsup) ops _ t hstart
    hall hrun
  obtain ⟨u, u', hout, hex, hout'⟩ := Supply.exists_of_fair List.nodup_nil hinv.fair
  exact ⟨u, u', hout, hex, hout'.trans hinv.held⟩

end Users

end Cosmos.Lib
