import Cosmos.Lib.Word64

/-!
# Text on the screen

`bdvideo.c` of the HAL: how `gstr_write` takes a text apart into code points and how
`put_pixonechar` and its direct twin draw one of them at the cursor.  A newline on the last
line redraws the background, and that prints the version texts, so the two call each other;
`halBackground` ties the knot with a bound on the depth of these calls.

The pixel operations are pointers that `init_bga` or `init_vbe` fill in.  What they are called
with is all that is modelled: each call adds an entry to `out`.  Left out are the operations
on the cards themselves, the locks (they are commented out in the source) and the fields that
drawing a text does not read.
-/

namespace Cosmos.Hal

open Cosmos.Lib.Word64

/-- How printing can go wrong: it never ends, it reads behind the end of the text, the `int`
index of `gstr_write` overflows, or `system_error` stops the machine with its message. -/
inductive VideoStop
  | endless
  | behind
  | overflow
  | systemError (msg : String)
  deriving DecidableEq, Repr

/-- A text in memory: `len` bytes in front of the first `NUL`. -/
structure Text where
  byte : Nat → UInt8
  len : Nat
  inner : ∀ i < len, byte i ≠ 0
  last : byte len = 0

/-- A read of byte `i` of the text. -/
def Text.rd (t : Text) (i : Nat) : Except VideoStop UInt8 :=
  if i ≤ t.len then .ok (t.byte i) else .error .behind

/-! ## Decoding -/

/-- `tmpuc <<= 6; tmpuc |= ubyt` with the low six bits of the next byte. -/
def utfByt (tmpuc : UInt32) (b : UInt8) : UInt32 := (tmpuc <<< 6) ||| (b &&& 0x3f).toUInt32

/-- The bytes `utf_b(k + 1)` and following of a form, `n` of them. -/
def utfRest (rd : Nat → Except VideoStop UInt8) : Nat → Nat → UInt32 → Except VideoStop UInt32
  | 0, _, tmpuc => .ok tmpuc
  | n + 1, k, tmpuc => do
      let b ← rd k
      utfRest rd n (k + 1) (utfByt tmpuc b)

/-- One form of `utf8_to_unicode`: the bits of the first byte, then `n` bytes more. -/
def utfForm (rd : Nat → Except VideoStop UInt8) (tmpuc : UInt8) (n : Nat) :
    Except VideoStop (UInt32 × Nat) := do
  let ucode ← utfRest rd n 1 tmpuc.toUInt32
  return (ucode, n + 1)

/-- `utf8_to_unicode`: the code point and what it stores to `retuib`, the width of the form. -/
def utf8ToUnicode (rd : Nat → Except VideoStop UInt8) : Except VideoStop (UInt32 × Nat) := do
  let uhd ← rd 0
  if uhd < 0x80 then utfForm rd (uhd &&& 0x7f) 0
  else if 0xc0 ≤ uhd ∧ uhd ≤ 0xdf then utfForm rd (uhd &&& 0x1f) 1
  else if 0xe0 ≤ uhd ∧ uhd ≤ 0xef then utfForm rd (uhd &&& 0x0f) 2
  else if 0xf0 ≤ uhd ∧ uhd ≤ 0xf7 then utfForm rd (uhd &&& 0x7) 3
  else if 0xf8 ≤ uhd ∧ uhd ≤ 0xfb then utfForm rd (uhd &&& 0x3) 4
  else if 0xfc ≤ uhd ∧ uhd ≤ 0xfd then utfForm rd (uhd &&& 0x1) 5
  else return (0, 0)

/-- Largest value of an `int`; `chinx` is one. -/
def intMax : Nat := 2 ^ 31 - 1

/-- The loop of `gstr_write` from index `chinx` on, for any drawing routine. -/
def gstrWriteLoop {σ : Type} (rd : Nat → Except VideoStop UInt8)
    (draw : σ → UInt32 → Except VideoStop σ) : Nat → Nat → σ → Except VideoStop σ
  | 0, _, _ => .error .endless
  | n + 1, chinx, s => do
      let b ← rd chinx
      if b = 0 then return s
      else
        let r ← utf8ToUnicode fun k => rd (chinx + k)
        if intMax < chinx + r.2 then .error .overflow
        else
          let s ← draw s r.1
          gstrWriteLoop rd draw n (chinx + r.2) s

/-! ## Drawing -/

/-- `fntdata_t`; `fntchmap` is read by address, so also behind its 32 bytes. -/
structure Fntdata where
  fntwxbyte : UInt8
  fnthx : UInt8
  fntwx : UInt8
  fntchmap : Nat → UInt8

/-- `bmdbgr_t`. -/
structure Bmdbgr where
  bmdB : UInt8
  bmdG : UInt8
  bmdR : UInt8

/-- `BGRA`. -/
def bgra (r g b : UInt8) : UInt32 := r.toUInt32 <<< 16 ||| g.toUInt32 <<< 8 ||| b.toUInt32

/-- One call of a graphics operation: `dgo_writepix`, `dgo_dxwritepix` or `dgo_flush`. -/
inductive Shown
  | writepix (pix : UInt32) (x y : Nat)
  | dxwritepix (pix : UInt32) (x y : Nat)
  | flush
  deriving DecidableEq, Repr

/-- The fields of `dftgraph_t` that printing uses, and the graphics operations so far. -/
structure Dftgraph where
  ghX : Nat
  ghY : Nat
  ghFnthight : Nat
  ghNxtcharsx : Nat
  ghNxtcharsy : Nat
  ghLinesz : Nat
  ghDeffontpx : UInt32
  ghChardxw : Nat
  ghFlush : Nat
  out : List Shown

/-- What printing finds in the machine: the glyphs at `gh_fontadr`, address and size of
`"desktop1.bmp"` as `get_file_rvadrandsz` finds them, the pixels behind its headers, and the
texts that `hal_dspversion` prints in a given state. -/
structure VideoEnv where
  fntp : UInt32 → Fntdata
  desktop : Nat × Nat
  bmdp : Nat → Bmdbgr
  versionTexts : Dftgraph → List Text

/-- The inner loop of a glyph: bits `bi - 1` down to 0 of one byte, from column `x` on.
`put` writes the pixel of a column. -/
def bitLoop (put : Nat → Shown) (bitmap : UInt8) (chwx : Nat) :
    Nat → Nat → List Shown → Nat × List Shown
  | 0, x, out => (x, out)
  | bi + 1, x, out =>
      if chwx ≤ x then (x, out)
      else if bitmap.toNat >>> bi &&& 1 = 1 then bitLoop put bitmap chwx bi (x + 1) (out ++ [put x])
      else bitLoop put bitmap chwx bi (x + 1) out

/-- The bytes of one row of a glyph, `n` of them from address `adr` on. -/
def bytyLoop (put : Nat → Shown) (charyp : Nat → UInt8) (chwx : Nat) :
    Nat → Nat → Nat → List Shown → List Shown
  | 0, _, _, out => out
  | n + 1, adr, x, out =>
      if charyp adr = 0 then bytyLoop put charyp chwx n (adr + 1) (x + 8) out
      else
        let r := bitLoop put (charyp adr) chwx 8 x out
        bytyLoop put charyp chwx n (adr + 1) r.1 r.2

/-- The rows of a glyph from `y` on, `n` of them. -/
def rowLoop (put : Nat → Nat → Shown) (charyp : Nat → UInt8) (chwx linb : Nat) :
    Nat → Nat → List Shown → List Shown
  | 0, _, out => out
  | n + 1, y, out =>
      rowLoop put charyp chwx linb n (y + 1)
        (bytyLoop (fun x => put x y) charyp chwx linb (y * linb) 0 out)

/-- There is no room for another line below the one of the cursor. -/
def lastLine (g : Dftgraph) : Prop :=
  sub64 g.ghY g.ghFnthight < add64 g.ghNxtcharsy g.ghLinesz

instance (g : Dftgraph) : Decidable (lastLine g) :=
  inferInstanceAs (Decidable (sub64 g.ghY g.ghFnthight < add64 g.ghNxtcharsy g.ghLinesz))

/-- The cursor in front of a glyph of width `chwx`. -/
def wrapChars (g : Dftgraph) (chwx : Nat) : Dftgraph :=
  if sub64 g.ghX chwx < add64 g.ghNxtcharsx chwx then
    if lastLine g then { g with ghNxtcharsx := 0, ghNxtcharsy := 0 }
    else { g with ghNxtcharsx := 0, ghNxtcharsy := add64 g.ghNxtcharsy g.ghLinesz }
  else g

/-- A glyph at the cursor; the pixel operation takes `u32_t` coordinates. -/
def drawChars (pixop : UInt32 → Nat → Nat → Shown) (d : Fntdata) (pix : UInt32)
    (g : Dftgraph) : Dftgraph :=
  let chwx := d.fntwx.toNat
  let put := fun x y =>
    pixop pix ((g.ghNxtcharsx + x) % 2 ^ 32) ((g.ghNxtcharsy + y) % 2 ^ 32)
  { g with
    ghNxtcharsx := add64 g.ghNxtcharsx chwx
    out := rowLoop put d.fntchmap chwx d.fntwxbyte.toNat d.fnthx.toNat 0 g.out }

/-- `put_pixonechar` and `drxput_pixonechar`, which differ in the pixel operation. -/
def pixonechar (pixop : UInt32 → Nat → Nat → Shown) (env : VideoEnv)
    (background : Dftgraph → Except VideoStop Dftgraph) (unicode : UInt32) (pix : UInt32)
    (g : Dftgraph) : Except VideoStop Dftgraph :=
  if unicode = 10 then
    if lastLine g then background { g with ghNxtcharsx := 0, ghNxtcharsy := 0 }
    else .ok { g with ghNxtcharsx := 0, ghNxtcharsy := add64 g.ghNxtcharsy g.ghLinesz }
  else
    let d := env.fntp unicode
    .ok (drawChars pixop d pix (wrapChars g d.fntwx.toNat))

/-- `put_pixonechar`. -/
def putPixonechar := pixonechar .writepix

/-- `drxput_pixonechar`. -/
def drxputPixonechar := pixonechar .dxwritepix

/-- The body of the loop of `gstr_write` behind the decoder. -/
def drawOne (env : VideoEnv) (background : Dftgraph → Except VideoStop Dftgraph) (pix : UInt32)
    (g : Dftgraph) (uc : UInt32) : Except VideoStop Dftgraph :=
  if g.ghChardxw = 1 then putPixonechar env background uc pix g
  else drxputPixonechar env background uc pix g

/-- The end of `gstr_write`: `flush_videoram` if asked for. -/
def flushEnd (g : Dftgraph) : Dftgraph :=
  if g.ghFlush = 1 then { g with out := g.out ++ [.flush] } else g

/-- `gstr_write`.  Each pass of its loop goes at least one byte on or never ends, so one pass
for each byte and one for the `NUL` are enough. -/
def gstrWrite (env : VideoEnv) (background : Dftgraph → Except VideoStop Dftgraph) (buf : Text)
    (g : Dftgraph) : Except VideoStop Dftgraph := do
  let g ← gstrWriteLoop buf.rd (drawOne env background g.ghDeffontpx) (buf.len + 1) 0 g
  return flushEnd g

/-! ## The background -/

/-- One row of the background: columns `i` and following, `n` of them, from pixel `k` on. -/
def backgroundRow (bmdp : Nat → Bmdbgr) (j : Nat) : Nat → Nat → Nat → List Shown → List Shown
  | 0, _, _, out => out
  | n + 1, i, k, out =>
      let p := bmdp k
      backgroundRow bmdp j n (i + 1) (k + 1)
        (out ++ [.dxwritepix (bgra p.bmdR p.bmdG p.bmdB) i j])

/-- The rows `j - 1` down to 0, with 1024 pixels each. -/
def backgroundLoop (bmdp : Nat → Bmdbgr) : Nat → Nat → List Shown → List Shown
  | 0, _, out => out
  | j + 1, k, out => backgroundLoop bmdp j (k + 1024) (backgroundRow bmdp j 1024 0 k out)

/-- `hal_dspversion`: its three texts in red. -/
def halDspversion (print : Text → Dftgraph → Except VideoStop Dftgraph) (env : VideoEnv)
    (g : Dftgraph) : Except VideoStop Dftgraph := do
  let bkpx := g.ghDeffontpx
  let g ← (env.versionTexts g).foldlM (fun g t => print t g) { g with ghDeffontpx := bgra 0xff 0 0 }
  return { g with ghDeffontpx := bkpx }

/-- `hal_background`, with at most `n` calls of it inside each other. -/
def halBackground (env : VideoEnv) : Nat → Dftgraph → Except VideoStop Dftgraph
  | 0, _ => .error .endless
  | n + 1, g =>
      if env.desktop.1 = 0 ∨ env.desktop.2 = 0 then
        .error (.systemError "Cosmos background fail")
      else
        halDspversion (gstrWrite env (halBackground env n)) env
          { g with out := backgroundLoop env.bmdp 769 0 g.out }

end Cosmos.Hal
