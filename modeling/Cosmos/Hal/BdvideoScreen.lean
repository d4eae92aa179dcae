import Cosmos.Hal.BdvideoUtf8
import Cosmos.Lib.Run

/-!
# Staying on the screen

Where the pixels of a text land.  A glyph is drawn at a cursor that leaves room for it, and a
newline or a full row moves the cursor by a line as long as one more line fits below.  The
redraw of the background starts with row 768, which is one below a screen of 768 rows.

## Main results

* `textOutput_onScreen`: well-formed texts stay on the screen exactly as long as none of their
  newlines redraws the background.
-/

namespace Cosmos.Hal

open Cosmos.Lib.Run Cosmos.Lib.Word64

/-! ## The run of a text -/

/-- What one pass of `gstr_write` does, and what it does at the end. -/
inductive PrintOp
  | char (uc : UInt32)
  | endText
  deriving DecidableEq, Repr

/-- One character is drawn, or the text ends. -/
def printStep (env : VideoEnv) (background : Dftgraph → Except VideoStop Dftgraph) (g : Dftgraph) :
    PrintOp → Except VideoStop Dftgraph
  | .char uc => drawOne env background g.ghDeffontpx g uc
  | .endText => .ok (flushEnd g)

/-- A text of some characters, short enough for the index of `gstr_write`. -/
structure Utf8Text extends Text where
  chars : List Char
  encoded : toText.bytes = encode chars
  short : len ≤ intMax

/-- The requests that a text makes. -/
def Utf8Text.ops (t : Utf8Text) : List PrintOp := t.chars.map (fun c => .char c.val) ++ [.endText]

/-- Print some texts, one behind the other. -/
def printAll (env : VideoEnv) (background : Dftgraph → Except VideoStop Dftgraph)
    (ts : List Utf8Text) (g : Dftgraph) : Except VideoStop Dftgraph :=
  ts.foldlM (fun g t => gstrWrite env background t.toText g) g

/-- The screen as `init_dftgraph` leaves it at 1024 times 768 pixels, with the choices of
`set_charsdxwflush` and `set_deffontpx`. -/
def bootGraph (chardxw flush : Nat) (px : UInt32) : Dftgraph where
  ghX := 1024
  ghY := 768
  ghFnthight := 16
  ghNxtcharsx := 0
  ghNxtcharsy := 0
  ghLinesz := 16 + 4
  ghDeffontpx := px
  ghChardxw := chardxw
  ghFlush := flush
  out := []

/-! ## What stays -/

/-- What printing leaves of the screen's fields, and of what was shown. -/
structure GraphKept (g g' : Dftgraph) : Prop where
  x : g'.ghX = g.ghX
  y : g'.ghY = g.ghY
  fnthight : g'.ghFnthight = g.ghFnthight
  linesz : g'.ghLinesz = g.ghLinesz
  deffontpx : g'.ghDeffontpx = g.ghDeffontpx
  out : g.out ⊆ g'.out

theorem GraphKept.refl (g : Dftgraph) : GraphKept g g := ⟨rfl, rfl, rfl, rfl, rfl, fun _ h => h⟩

theorem GraphKept.trans {g g' g'' : Dftgraph} (h : GraphKept g g') (h' : GraphKept g' g'') :
    GraphKept g g'' :=
  ⟨h'.x.trans h.x, h'.y.trans h.y, h'.fnthight.trans h.fnthight, h'.linesz.trans h.linesz,
    h'.deffontpx.trans h.deffontpx, fun _ he => h'.out (h.out he)⟩

section Loops

variable {put : Nat → Shown} {bitmap : UInt8} {charyp : Nat → UInt8} {chwx linb : Nat}

/-- The bits of a byte: their pixels are in columns left of `chwx`. -/
theorem mem_bitLoop {e : Shown} (bi x : Nat) (out : List Shown)
    (he : e ∈ (bitLoop put bitmap chwx bi x out).2) :
    e ∈ out ∨ ∃ x' < chwx, e = put x' := by
  induction bi generalizing x out with
  | zero => exact .inl he
  | succ bi ih =>
      rw [bitLoop] at he
      split at he
      · exact .inl he
      · rename_i hx
        split at he
        · rcases ih _ _ he with h | h
          · rcases List.mem_append.mp h with h | h
            · exact .inl h
            · exact .inr ⟨x, Nat.lt_of_not_le hx, List.mem_singleton.mp h⟩
          · exact .inr h
        · exact ih _ _ he

theorem subset_bitLoop (bi x : Nat) (out : List Shown) :
    out ⊆ (bitLoop put bitmap chwx bi x out).2 := by
  induction bi generalizing x out with
  | zero => exact fun _ h => h
  | succ bi ih =>
      rw [bitLoop]
      split
      · exact fun _ h => h
      · split
        · exact fun _ h => ih _ _ (List.mem_append_left _ h)
        · exact ih _ _

theorem mem_bytyLoop {e : Shown} (n adr x : Nat) (out : List Shown)
    (he : e ∈ bytyLoop put charyp chwx n adr x out) :
    e ∈ out ∨ ∃ x' < chwx, e = put x' := by
  induction n generalizing adr x out with
  | zero => exact .inl he
  | succ n ih =>
      rw [bytyLoop] at he
      split at he
      · exact ih _ _ _ he
      · rcases ih _ _ _ he with h | h
        · exact mem_bitLoop _ _ _ h
        · exact .inr h

theorem subset_bytyLoop (n adr x : Nat) (out : List Shown) :
    out ⊆ bytyLoop put charyp chwx n adr x out := by
  induction n generalizing adr x out with
  | zero => exact fun _ h => h
  | succ n ih =>
      rw [bytyLoop]
      split
      · exact ih _ _ _
      · exact fun _ h => ih _ _ _ (subset_bitLoop _ _ _ h)

/-- The pixels of a glyph lie within its width and its rows. -/
theorem mem_rowLoop {put : Nat → Nat → Shown} {e : Shown} (n y : Nat) (out : List Shown)
    (he : e ∈ rowLoop put charyp chwx linb n y out) :
    e ∈ out ∨ ∃ x' < chwx, ∃ y' < y + n, e = put x' y' := by
  induction n generalizing y out with
  | zero => exact .inl he
  | succ n ih =>
      rw [rowLoop] at he
      rcases ih _ _ he with h | ⟨x', hx, y', hy, h⟩
      · rcases mem_bytyLoop _ _ _ _ h with h | ⟨x', hx, h⟩
        · exact .inl h
        · exact .inr ⟨x', hx, y, by omega, h⟩
      · exact .inr ⟨x', hx, y', by omega, h⟩

theorem subset_rowLoop {put : Nat → Nat → Shown} (n y : Nat) (out : List Shown) :
    out ⊆ rowLoop put charyp chwx linb n y out := by
  induction n generalizing y out with
  | zero => exact fun _ h => h
  | succ n ih =>
      rw [rowLoop]
      exact fun _ h => ih _ _ (subset_bytyLoop _ _ _ _ h)

end Loops

section Background

variable {bmdp : Nat → Bmdbgr}

theorem subset_backgroundRow {j : Nat} (n i k : Nat) (out : List Shown) :
    out ⊆ backgroundRow bmdp j n i k out := by
  induction n generalizing i k out with
  | zero => exact fun _ h => h
  | succ n ih =>
      rw [backgroundRow]
      exact fun _ h => ih _ _ _ (List.mem_append_left _ h)

theorem subset_backgroundLoop (n k : Nat) (out : List Shown) :
    out ⊆ backgroundLoop bmdp n k out := by
  induction n generalizing k out with
  | zero => exact fun _ h => h
  | succ n ih =>
      rw [backgroundLoop]
      exact fun _ h => ih _ _ (subset_backgroundRow _ _ _ _ h)

/-- The first row that is drawn is row `n` of `n + 1`. -/
theorem mem_backgroundLoop (n k : Nat) (out : List Shown) :
    ∃ pix, Shown.dxwritepix pix 0 n ∈ backgroundLoop bmdp (n + 1) k out := by
  have hrow : Shown.dxwritepix (bgra (bmdp k).bmdR (bmdp k).bmdG (bmdp k).bmdB) 0 n ∈
      backgroundRow bmdp n (1023 + 1) 0 k out := by
    rw [backgroundRow]
    exact subset_backgroundRow _ _ _ _ (List.mem_append_right _ (List.mem_singleton.mpr rfl))
  rw [backgroundLoop]
  exact ⟨_, subset_backgroundLoop _ _ _ hrow⟩

end Background

section Keep

variable {env : VideoEnv} {background : Dftgraph → Except VideoStop Dftgraph} {g g' : Dftgraph}

theorem wrapChars_kept (chwx : Nat) : GraphKept g (wrapChars g chwx) := by
  unfold wrapChars
  split
  · split
    · exact ⟨rfl, rfl, rfl, rfl, rfl, fun _ h => h⟩
    · exact ⟨rfl, rfl, rfl, rfl, rfl, fun _ h => h⟩
  · exact GraphKept.refl g

theorem drawChars_kept (pixop : UInt32 → Nat → Nat → Shown) (d : Fntdata) (pix : UInt32) :
    GraphKept g (drawChars pixop d pix g) :=
  ⟨rfl, rfl, rfl, rfl, rfl, subset_rowLoop _ _ _⟩

theorem pixonechar_kept {pixop : UInt32 → Nat → Nat → Shown} {uc pix : UInt32}
    (hbg : ∀ g g', background g = .ok g' → GraphKept g g')
    (h : pixonechar pixop env background uc pix g = .ok g') : GraphKept g g' := by
  unfold pixonechar at h
  split at h
  · split at h
    · have htop : GraphKept g { g with ghNxtcharsx := 0, ghNxtcharsy := 0 } :=
        ⟨rfl, rfl, rfl, rfl, rfl, fun _ h => h⟩
      exact htop.trans (hbg _ _ h)
    · cases h
      exact ⟨rfl, rfl, rfl, rfl, rfl, fun _ h => h⟩
  · cases h
    exact (wrapChars_kept _).trans (drawChars_kept _ _ _)

theorem drawOne_kept {uc pix : UInt32} (hbg : ∀ g g', background g = .ok g' → GraphKept g g')
    (h : drawOne env background pix g uc = .ok g') : GraphKept g g' := by
  unfold drawOne at h
  split at h
  · exact pixonechar_kept hbg h
  · exact pixonechar_kept hbg h

theorem flushEnd_kept : GraphKept g (flushEnd g) := by
  unfold flushEnd
  split
  · exact ⟨rfl, rfl, rfl, rfl, rfl, fun _ h => List.mem_append_left _ h⟩
  · exact GraphKept.refl g

theorem printStep_kept {op : PrintOp} (hbg : ∀ g g', background g = .ok g' → GraphKept g g')
    (h : printStep env background g op = .ok g') : GraphKept g g' := by
  cases op with
  | char uc => exact drawOne_kept hbg h
  | endText =>
      cases h
      exact flushEnd_kept

/-- What the drawing routine keeps, the loop keeps. -/
theorem gstrWriteLoop_inv {σ : Type} {rd : Nat → Except VideoStop UInt8}
    {draw : σ → UInt32 → Except VideoStop σ} (Inv : σ → Prop)
    (hdraw : ∀ s uc s', Inv s → draw s uc = .ok s' → Inv s') (n i : Nat) (s r : σ) (hs : Inv s)
    (h : gstrWriteLoop rd draw n i s = .ok r) : Inv r := by
  induction n generalizing i s with
  | zero => cases h
  | succ n ih =>
      rw [gstrWriteLoop] at h
      obtain ⟨b, -, h⟩ := exists_of_bind_ok h
      split at h
      · cases h
        exact hs
      · obtain ⟨d, -, h⟩ := exists_of_bind_ok h
        split at h
        · cases h
        · obtain ⟨s', hw, h⟩ := exists_of_bind_ok h
          exact ih _ s' (hdraw s d.1 s' hs hw) h

theorem gstrWrite_kept {t : Text} (hbg : ∀ g g', background g = .ok g' → GraphKept g g')
    (h : gstrWrite env background t g = .ok g') : GraphKept g g' := by
  obtain ⟨g₁, hloop, h⟩ := exists_of_bind_ok h
  cases h
  refine GraphKept.trans ?_ flushEnd_kept
  exact gstrWriteLoop_inv (GraphKept g)
    (fun s uc s' hs hd => hs.trans (drawOne_kept hbg hd)) _ _ _ _ (GraphKept.refl g) hloop

theorem foldlM_kept {α : Type} {print : Dftgraph → α → Except VideoStop Dftgraph}
    (hprint : ∀ t g g', print g t = .ok g' → GraphKept g g') (ts : List α) :
    ∀ g, ts.foldlM print g = .ok g' → GraphKept g g' := by
  induction ts with
  | nil =>
      intro g h
      cases h
      exact GraphKept.refl _
  | cons t ts ih =>
      intro g h
      rw [List.foldlM_cons] at h
      obtain ⟨g₁, hp, h⟩ := exists_of_bind_ok h
      exact (hprint t g g₁ hp).trans (ih g₁ h)

/-- A redraw that comes to an end keeps the screen's fields and has drawn in row 768. -/
theorem halBackground_spec (n : Nat) (h : halBackground env n g = .ok g') :
    GraphKept g g' ∧ ∃ pix, Shown.dxwritepix pix 0 768 ∈ g'.out := by
  induction n generalizing g g' with
  | zero => exact nomatch h
  | succ n ih =>
      rw [halBackground] at h
      split at h
      · exact nomatch h
      · obtain ⟨pix, hpix⟩ := @mem_backgroundLoop env.bmdp 768 0 g.out
        have hsub : g.out ⊆ backgroundLoop env.bmdp (768 + 1) 0 g.out := subset_backgroundLoop _ _ _
        change halDspversion _ env
          { g with out := backgroundLoop env.bmdp (768 + 1) 0 g.out } = _ at h
        generalize backgroundLoop env.bmdp (768 + 1) 0 g.out = out at h hpix hsub
        obtain ⟨g₁, hfold, h⟩ := exists_of_bind_ok h
        cases h
        have hkept := foldlM_kept (fun t g g' hp => gstrWrite_kept (fun g g' hb => (ih hb).1) hp)
          _ _ hfold
        exact ⟨⟨hkept.x, hkept.y, hkept.fnthight, hkept.linesz, rfl, fun _ he =>
          hkept.out (hsub he)⟩, pix, hkept.out hpix⟩

/-- So what printing keeps holds of it with the redraw of the screen itself. -/
theorem background_kept (n : Nat) (g g' : Dftgraph) (h : halBackground env n g = .ok g') :
    GraphKept g g' := (halBackground_spec n h).1

end Keep

/-! ## On the screen -/

/-- The pixel that is written, if any, is on a screen of this size. -/
def Shown.Inside (ghx ghy : Nat) : Shown → Prop
  | .writepix _ x y => x < ghx ∧ y < ghy
  | .dxwritepix _ x y => x < ghx ∧ y < ghy
  | .flush => True

/-- Cursor and pixels are on the screen. -/
structure OnScreen (g : Dftgraph) : Prop where
  x : g.ghNxtcharsx ≤ g.ghX
  y : g.ghNxtcharsy + g.ghFnthight ≤ g.ghY
  out : ∀ e ∈ g.out, e.Inside g.ghX g.ghY

/-- No newline redraws the background. -/
def NoRedraw (g : Dftgraph) (op : PrintOp) : Prop := ¬ (op = .char 10 ∧ lastLine g)

/-- The sizes that `init_dftgraph` has set. -/
structure Sizes (g : Dftgraph) : Prop where
  x : g.ghX = 1024
  y : g.ghY = 768
  fnthight : g.ghFnthight = 16
  linesz : g.ghLinesz = 20

theorem Sizes.kept {g g' : Dftgraph} (h : Sizes g) (hk : GraphKept g g') : Sizes g' :=
  ⟨hk.x.trans h.x, hk.y.trans h.y, hk.fnthight.trans h.fnthight, hk.linesz.trans h.linesz⟩

section Steps

variable {env : VideoEnv} {background : Dftgraph → Except VideoStop Dftgraph} {g g' : Dftgraph}

/-- The test for the last line, in numbers. -/
theorem lastLine_iff (hs : Sizes g) (h : OnScreen g) : lastLine g ↔ 732 < g.ghNxtcharsy := by
  have hy := h.y
  rw [hs.y, hs.fnthight] at hy
  rw [lastLine, hs.y, hs.fnthight, hs.linesz, sub64_eq (by decide) (by decide),
    add64_eq (by unfold wordMod; omega)]
  omega

/-- The cursor at the start of the next line, or of the first. -/
theorem nextLine_onScreen (hs : Sizes g) (h : OnScreen g) (hl : ¬ lastLine g) :
    OnScreen { g with ghNxtcharsx := 0, ghNxtcharsy := add64 g.ghNxtcharsy g.ghLinesz } := by
  rw [lastLine_iff hs h] at hl
  refine ⟨Nat.zero_le _, ?_, h.out⟩
  show add64 g.ghNxtcharsy g.ghLinesz + g.ghFnthight ≤ g.ghY
  rw [hs.linesz, hs.fnthight, hs.y, add64_eq (by unfold wordMod; omega)]
  omega

theorem wrapChars_onScreen (hs : Sizes g) (h : OnScreen g) (chwx : Nat) (hw : chwx < 256) :
    OnScreen (wrapChars g chwx) ∧ (wrapChars g chwx).ghNxtcharsx + chwx ≤ 1024 := by
  have hx := h.x
  rw [hs.x] at hx
  have hfull : sub64 g.ghX chwx < add64 g.ghNxtcharsx chwx ↔
      1024 < g.ghNxtcharsx + chwx + chwx := by
    rw [hs.x, sub64_eq (by decide) (by omega), add64_eq (by unfold wordMod; omega)]
    omega
  unfold wrapChars
  split
  · split
    · refine ⟨⟨Nat.zero_le _, ?_, h.out⟩, ?_⟩
      · show 0 + g.ghFnthight ≤ g.ghY
        rw [hs.fnthight, hs.y]
        decide
      · show 0 + chwx ≤ 1024
        omega
    · rename_i hl
      refine ⟨nextLine_onScreen hs h hl, ?_⟩
      show 0 + chwx ≤ 1024
      omega
  · rename_i hroom
    rw [hfull] at hroom
    exact ⟨h, by omega⟩

/-- A glyph that has room right of the cursor stays on the screen, and so does the cursor. -/
theorem drawChars_onScreen {pixop : UInt32 → Nat → Nat → Shown} {d : Fntdata} {pix : UInt32}
    (hop : ∀ pix x y ghx ghy, x < ghx → y < ghy → (pixop pix x y).Inside ghx ghy)
    (hs : Sizes g) (h : OnScreen g) (hd : d.fnthx.toNat ≤ 16)
    (hroom : g.ghNxtcharsx + d.fntwx.toNat ≤ 1024) : OnScreen (drawChars pixop d pix g) := by
  have hy := h.y
  rw [hs.y, hs.fnthight] at hy
  refine ⟨?_, h.y, fun e he => ?_⟩
  · show add64 g.ghNxtcharsx d.fntwx.toNat ≤ g.ghX
    rw [hs.x, add64_eq (by unfold wordMod; omega)]
    exact hroom
  · show e.Inside g.ghX g.ghY
    rcases mem_rowLoop _ _ _ he with hold | ⟨x, hx, y, hyh, rfl⟩
    · exact h.out e hold
    · refine hop _ _ _ _ _ ?_ ?_
      · rw [hs.x, Nat.mod_eq_of_lt (by omega)]
        omega
      · rw [hs.y, Nat.mod_eq_of_lt (by omega)]
        omega

/-- **A character that redraws nothing keeps to the screen.** -/
theorem pixonechar_onScreen {pixop : UInt32 → Nat → Nat → Shown} {uc pix : UInt32}
    (hop : ∀ pix x y ghx ghy, x < ghx → y < ghy → (pixop pix x y).Inside ghx ghy)
    (hfnt : ∀ uc, (env.fntp uc).fnthx.toNat ≤ 16) (hs : Sizes g) (h : OnScreen g)
    (hno : ¬ (uc = 10 ∧ lastLine g)) :
    ∃ g', pixonechar pixop env background uc pix g = .ok g' ∧ OnScreen g' := by
  unfold pixonechar
  by_cases huc : uc = 10
  · have hl : ¬ lastLine g := fun hl => hno ⟨huc, hl⟩
    rw [if_pos huc, if_neg hl]
    exact ⟨_, rfl, nextLine_onScreen hs h hl⟩
  · rw [if_neg huc]
    obtain ⟨hw, hroom⟩ := wrapChars_onScreen hs h (env.fntp uc).fntwx.toNat (UInt8.toNat_lt _)
    exact ⟨_, rfl, drawChars_onScreen hop (hs.kept (wrapChars_kept _)) hw (hfnt uc) hroom⟩

/-- A step without a redraw can be taken and keeps to the screen. -/
theorem printStep_onScreen {op : PrintOp} (hfnt : ∀ uc, (env.fntp uc).fnthx.toNat ≤ 16)
    (hs : Sizes g) (h : OnScreen g) (hno : NoRedraw g op) :
    ∃ g', printStep env background g op = .ok g' ∧ OnScreen g' := by
  cases op with
  | char uc =>
      have hno' : ¬ (uc = 10 ∧ lastLine g) := fun hc => hno ⟨by rw [hc.1], hc.2⟩
      show ∃ g', drawOne env background g.ghDeffontpx g uc = .ok g' ∧ OnScreen g'
      unfold drawOne
      split
      · refine pixonechar_onScreen (fun pix x y ghx ghy hx hy => ?_) hfnt hs h hno'
        show (Shown.writepix pix x y).Inside ghx ghy
        exact ⟨hx, hy⟩
      · refine pixonechar_onScreen (fun pix x y ghx ghy hx hy => ?_) hfnt hs h hno'
        show (Shown.dxwritepix pix x y).Inside ghx ghy
        exact ⟨hx, hy⟩
  | endText =>
      refine ⟨_, rfl, ?_⟩
      unfold flushEnd
      split
      · refine ⟨h.x, h.y, fun e he => ?_⟩
        rcases List.mem_append.mp he with he | he
        · exact h.out e he
        · cases List.mem_singleton.mp he
          exact trivial
      · exact h

/-- A step with a redraw leaves a pixel below the screen. -/
theorem printStep_redraw {n : Nat} {op : PrintOp} (hs : Sizes g) (hre : ¬ NoRedraw g op)
    (h : printStep env (halBackground env n) g op = .ok g') : ¬ OnScreen g' := by
  obtain ⟨rfl, hl⟩ := not_not.mp hre
  have hbg : halBackground env n { g with ghNxtcharsx := 0, ghNxtcharsy := 0 } = .ok g' := by
    have hstep : ∀ pixop, pixonechar pixop env (halBackground env n) 10 g.ghDeffontpx g =
        halBackground env n { g with ghNxtcharsx := 0, ghNxtcharsy := 0 } := fun pixop => by
      rw [pixonechar, if_pos rfl, if_pos hl]
    change drawOne env (halBackground env n) g.ghDeffontpx g 10 = _ at h
    unfold drawOne at h
    split at h
    · exact (hstep _).symm.trans h
    · exact (hstep _).symm.trans h
  obtain ⟨hk, pix, hpix⟩ := halBackground_spec n hbg
  intro hon
  have hin : 768 < g'.ghY := (hon.out _ hpix).2
  have hy : g'.ghY = g.ghY := hk.y
  rw [hy, hs.y] at hin
  exact absurd hin (by decide)

end Steps

/-! ## Whole texts -/

section Texts

variable {env : VideoEnv} {background : Dftgraph → Except VideoStop Dftgraph}

/-- **`gstr_write` is the run of its characters.** -/
theorem gstrWrite_run (hbg : ∀ g g', background g = .ok g' → GraphKept g g') (t : Utf8Text)
    (g : Dftgraph) :
    gstrWrite env background t.toText g = run (printStep env background) t.ops g := by
  -- the colour that is read at the start is the one of the state all along
  have chars : ∀ (cs : List Char) (g₁ : Dftgraph), g₁.ghDeffontpx = g.ghDeffontpx →
      (cs.map Char.val).foldlM (drawOne env background g.ghDeffontpx) g₁ =
        run (printStep env background) (cs.map fun c => .char c.val) g₁ := by
    intro cs
    induction cs with
    | nil => exact fun _ _ => rfl
    | cons c cs ih =>
        intro g₁ hpx
        have hstep : printStep env background g₁ (.char c.val) =
            drawOne env background g.ghDeffontpx g₁ c.val := by
          rw [← hpx]
          rfl
        rw [List.map_cons, List.foldlM_cons, List.map_cons, run_cons, hstep]
        cases hd : drawOne env background g.ghDeffontpx g₁ c.val with
        | error e => rfl
        | ok g₂ => exact ih g₂ ((drawOne_kept hbg hd).deffontpx.trans hpx)
  have hlen : t.chars.length < t.len + 1 := by
    have hl := length_le_encode t.chars
    rw [← t.encoded, Text.length_bytes] at hl
    exact Nat.lt_succ_of_le hl
  rw [gstrWrite, gstrWriteLoop_encode t.short t.chars 0 _ g (Nat.zero_le _) t.encoded hlen,
    chars _ g rfl, Utf8Text.ops, run_append]
  rfl

theorem printAll_run (hbg : ∀ g g', background g = .ok g' → GraphKept g g') (ts : List Utf8Text) :
    ∀ g, printAll env background ts g =
      run (printStep env background) (ts.flatMap Utf8Text.ops) g := by
  induction ts with
  | nil => exact fun _ => rfl
  | cons t ts ih =>
      intro g
      rw [List.flatMap_cons, run_append, printAll, List.foldlM_cons, gstrWrite_run hbg]
      cases run (printStep env background) t.ops g with
      | error e => rfl
      | ok g' => exact ih g'

end Texts

theorem bootGraph_sizes (chardxw flush : Nat) (px : UInt32) : Sizes (bootGraph chardxw flush px) :=
  ⟨rfl, rfl, rfl, rfl⟩

theorem bootGraph_onScreen (chardxw flush : Nat) (px : UInt32) :
    OnScreen (bootGraph chardxw flush px) :=
  ⟨Nat.zero_le 1024, (by decide : 0 + 16 ≤ 768), fun _ he => nomatch he⟩

/-- **When texts stay on the screen.**  From the first cursor on, with glyphs of at most 16
rows, texts without a redraw are printed to their end, and of texts that are printed all
cursors between the characters and all pixels are on the screen exactly if no newline redraws
the background. -/
theorem textOutput_onScreen (env : VideoEnv) (n : Nat)
    (hfnt : ∀ uc, (env.fntp uc).fnthx.toNat ≤ 16) (chardxw flush : Nat) (px : UInt32)
    (ts : List Utf8Text) :
    (AllSteps (printStep env (halBackground env n)) NoRedraw (ts.flatMap Utf8Text.ops)
        (bootGraph chardxw flush px) →
      ∃ g, printAll env (halBackground env n) ts (bootGraph chardxw flush px) = .ok g) ∧
    ∀ g, printAll env (halBackground env n) ts (bootGraph chardxw flush px) = .ok g →
      (AllSteps (printStep env (halBackground env n)) (fun g _ => OnScreen g)
          (ts.flatMap Utf8Text.ops) (bootGraph chardxw flush px) ∧ OnScreen g ↔
        AllSteps (printStep env (halBackground env n)) NoRedraw (ts.flatMap Utf8Text.ops)
          (bootGraph chardxw flush px)) := by
  have hsizes := bootGraph_sizes chardxw flush px
  have hon := bootGraph_onScreen chardxw flush px
  rw [printAll_run (background_kept n)]
  constructor
  · intro hall
    refine (run_total_of_allSteps (fun g => Sizes g ∧ OnScreen g) NoRedraw (fun _ _ => True)
      (fun g op hg hno => ⟨trivial, ?_⟩) _ _ ⟨hsizes, hon⟩ hall).1
    obtain ⟨g', hstep, hon'⟩ := printStep_onScreen hfnt hg.1 hg.2 hno
    exact ⟨g', hstep, hg.1.kept (printStep_kept (background_kept n) hstep), hon'⟩
  · intro g hrun
    refine allSteps_iff OnScreen Sizes NoRedraw (fun _ _ => True)
      (fun g op g' hg _ hstep => hg.kept (printStep_kept (background_kept n) hstep))
      (fun g op g' hg hin _ hstep => ⟨fun hon' => ?_, fun hno => ?_⟩) _ _ g hsizes hon
      (allSteps_of_forall _ _ fun _ _ => trivial) hrun
    · by_contra hre
      exact printStep_redraw hg hre hstep hon'
    · obtain ⟨g'', hstep', hon''⟩ := printStep_onScreen hfnt hg hin hno
      rw [hstep] at hstep'
      cases hstep'
      exact hon''

/-! ## One newline too many -/

/-- A text given by its characters. -/
def Utf8Text.ofChars (cs : List Char) (h : 0 ∉ encode cs) (hlen : (encode cs).length ≤ intMax)
    (hbytes : (Text.ofBytes (encode cs) h).bytes = encode cs) : Utf8Text :=
  { Text.ofBytes (encode cs) h with chars := cs, encoded := hbytes, short := hlen }

/-- Glyphs of one dot, a black picture and texts as `hal_dspversion` prints them. -/
def dotEnv : VideoEnv where
  fntp _ := { fntwxbyte := 1, fnthx := 1, fntwx := 8, fntchmap := fun _ => 0x80 }
  desktop := (0x1000000, 2359350)
  bmdp _ := ⟨0, 0, 0⟩
  versionTexts _ :=
    [Text.ofBytes (encode "Cosmos\n内核版本:00.01\n彭东 @ 构建于 Jan  1 2022 00:00:00\n".toList)
        (by decide),
      Text.ofBytes (encode "系统存在进程:3个 系统空闲内存大小:4000MB\n".toList) (by decide),
      Text.ofBytes (encode "系统处理器工作模式:64位 系统物理内存大小:4096MB\n".toList) (by decide)]

/-- Two letters and a newline. -/
def shortText : Utf8Text := Utf8Text.ofChars ['o', 'k', '\n'] (by decide) (by decide) (by decide)

theorem dotEnv_height (uc : UInt32) : (dotEnv.fntp uc).fnthx.toNat ≤ 16 :=
  (by decide : (1 : UInt8).toNat ≤ 16)

theorem textOutput_onScreen_short :
    ∃ g, printAll dotEnv (halBackground dotEnv 1) [shortText] (bootGraph 0 0 0xffffff) = .ok g ∧
      OnScreen g := by
  have hcheck : checkSteps (printStep dotEnv (halBackground dotEnv 1))
      (fun g op => decide ¬ (op = .char 10 ∧ lastLine g)) ([shortText].flatMap Utf8Text.ops)
      (bootGraph 0 0 0xffffff) = true := by decide
  have hall : AllSteps (printStep dotEnv (halBackground dotEnv 1)) NoRedraw
      ([shortText].flatMap Utf8Text.ops) (bootGraph 0 0 0xffffff) :=
    allSteps_of_check
      (fun g op h => (of_decide_eq_true h : ¬ (op = .char 10 ∧ lastLine g))) _ _ hcheck
  obtain ⟨g, hg⟩ := (textOutput_onScreen dotEnv 1 dotEnv_height 0 0 0xffffff [shortText]).1 hall
  exact ⟨g, hg, (((textOutput_onScreen dotEnv 1 dotEnv_height 0 0 0xffffff [shortText]).2 g
    hg).mpr hall).2⟩

/-- The version texts fit on the screen. -/
theorem dotEnv_version :
    okAnd (halBackground dotEnv 1 (bootGraph 0 0 0xffffff)) (fun _ => true) = true := by
  decide +kernel

/-- 38 newlines. -/
def newlines : Utf8Text :=
  Utf8Text.ofChars (List.replicate 38 '\n') (by decide) (by decide) (by decide)

theorem newlines_run : run (printStep dotEnv (halBackground dotEnv 1))
    (List.replicate 37 (.char 10)) (bootGraph 0 0 0xffffff) =
      .ok { bootGraph 0 0 0xffffff with ghNxtcharsy := 740 } := rfl

/-- **The last of 38 newlines draws below the screen.** -/
theorem textOutput_offScreen :
    ∃ g pix, printAll dotEnv (halBackground dotEnv 1) [newlines] (bootGraph 0 0 0xffffff) = .ok g ∧
      g.ghY = 768 ∧ Shown.dxwritepix pix 0 768 ∈ g.out := by
  have hops : [newlines].flatMap Utf8Text.ops =
      List.replicate 37 (.char 10) ++ [.char 10, .endText] := rfl
  obtain ⟨g, hg, -⟩ := exists_of_okAnd dotEnv_version
  have hlast : printStep dotEnv (halBackground dotEnv 1)
      { bootGraph 0 0 0xffffff with ghNxtcharsy := 740 } (.char 10) = .ok g := hg
  obtain ⟨hkept, pix, hpix⟩ := halBackground_spec 1 hg
  refine ⟨flushEnd g, pix, ?_, ?_, flushEnd_kept.out hpix⟩
  · have hbind : ∀ (s : Dftgraph) (f : Dftgraph → Except VideoStop Dftgraph),
        (Except.ok s >>= f) = f s := fun _ _ => rfl
    rw [printAll_run (background_kept 1), hops, run_append, newlines_run, hbind,
      run_cons_ok hlast]
    rfl
  · exact flushEnd_kept.y.trans hkept.y

end Cosmos.Hal
