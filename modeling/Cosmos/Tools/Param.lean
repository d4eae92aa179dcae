import Cosmos.Tools.Imgundo

/-!
# The command line of the image tool

`param.c` of `lmoskrlimg`.  An option is looked for from the first argument on, and what stands
behind it is its value.  `limg_error` prints its text and exits.  A path is asked for by its index
in `argv`, the input files one after the other.

## Main results

* `limgParam_reads` : which command lines are taken, and what they say.
* `readArgs_groups` : options may stand in any order.
-/

namespace Cosmos.Tools

/-- An argument, without its zero byte. -/
abbrev Arg := List UInt8

/-! ## The code -/

/-- `KRNEL_MODE`. -/
def krnelMode : Nat := 1

/-- `BOOT_MODE`. -/
def bootMode : Nat := 2

/-- `LDSK_MODE`. -/
def ldskMode : Nat := 3

/-- `UNDO_MODE`. -/
def undoMode : Nat := 4

/-- `-m` and `-M`. -/
def optMode : List Arg := [[45, 109], [45, 77]]

/-- `-lhf` and `-LHF`. -/
def optLhf : List Arg := [[45, 108, 104, 102], [45, 76, 72, 70]]

/-- `-f` and `-F`. -/
def optIn : List Arg := [[45, 102], [45, 70]]

/-- `-o` and `-O`. -/
def optOut : List Arg := [[45, 111], [45, 79]]

/-- The argument does not begin with `-`. -/
def isName (a : Arg) : Bool := a.head? ≠ some 45

/-- `mparam_t`, as `limg_param` fills it in. -/
structure MparamArgv where
  mpArgv : List Arg
  mpSifnr : Nat
  mpEifnr : Nat
  mpSofnr : Nat
  mpIfcurrnr : Nat
  mpIldrhnr : Nat
  mpImgmode : Nat
deriving DecidableEq, Repr

/-- `mparam_t_init`. -/
def mparamInit : MparamArgv where
  mpArgv := []
  mpSifnr := 0
  mpEifnr := 0
  mpSofnr := 0
  mpIfcurrnr := 0
  mpIldrhnr := 0
  mpImgmode := 0

/-- The loop of the `limg_param_is_*` functions that looks for an option, from the index `agi`
on: the index behind it, 0 if it is not there. -/
def optionLoop (opt argv : List Arg) : Nat → Nat → Nat
  | 0, _ => 0
  | n + 1, agi => if argv.getD agi [] ∈ opt then agi + 1 else optionLoop opt argv n (agi + 1)

/-- The index behind an option. -/
def optionIdx (opt argv : List Arg) : Nat := optionLoop opt argv (argv.length - 1) 1

/-- `limg_param_is_mode`. -/
def limgParamIsMode (p : MparamArgv) : Except String MparamArgv :=
  let mi := optionIdx optMode p.mpArgv
  if mi = 0 ∨ p.mpArgv.length ≤ mi then .error "limg_param_is_mode not -m"
  else if p.mpArgv.getD mi [] = [98] then .ok { p with mpImgmode := bootMode }
  else if p.mpArgv.getD mi [] = [107] then .ok { p with mpImgmode := krnelMode }
  else if p.mpArgv.getD mi [] = [117] then .ok { p with mpImgmode := undoMode }
  else .error "limg_param_is_mode mode is not"

/-- The index of the one name behind an option.  The texts are those of the output file in both
functions. -/
def paramIsFile (opt argv : List Arg) : Except String Nat :=
  let ofi := optionIdx opt argv
  if ofi = 0 ∨ argv.length ≤ ofi then .error "limg_param_is_outfile not -o"
  else if !isName (argv.getD ofi []) then .error "limg_param_is_outfile not outfilename"
  else .ok ofi

/-- `limg_param_is_outfile`. -/
def limgParamIsOutfile (p : MparamArgv) : Except String MparamArgv := do
  return { p with mpSofnr := ← paramIsFile optOut p.mpArgv }

/-- `limg_param_is_ldhfile`. -/
def limgParamIsLdhfile (p : MparamArgv) : Except String MparamArgv := do
  return { p with mpIldrhnr := ← paramIsFile optLhf p.mpArgv }

/-- The loop of `limg_param_is_inputfile` that looks for the end of the names. -/
def eifLoop (argv : List Arg) : Nat → Nat → Nat
  | 0, agii => agii - 1
  | n + 1, agii => if !isName (argv.getD agii []) then agii - 1 else eifLoop argv n (agii + 1)

/-- `limg_param_is_inputfile`. -/
def limgParamIsInputfile (p : MparamArgv) : Except String MparamArgv :=
  let sifi := optionIdx optIn p.mpArgv
  if sifi = 0 ∨ p.mpArgv.length ≤ sifi then .error "limg_param_is_inputfile not -t"
  else
    let eifi := eifLoop p.mpArgv (p.mpArgv.length - sifi) sifi
    if eifi < sifi then .error "limg_param_is_inputfile not inputfilename"
    else .ok { p with mpSifnr := sifi, mpEifnr := eifi }

/-- `limg_param`, after `init_param`. -/
def limgParam (argv : List Arg) : Except String MparamArgv := do
  let p ← limgParamIsMode { mparamInit with mpArgv := argv }
  if p.mpImgmode = undoMode then limgParamIsInputfile p
  else
    let p ← limgParamIsLdhfile p
    let p ← limgParamIsInputfile p
    limgParamIsOutfile p

/-- `limg_retnext_ipathname`. -/
def limgRetnextIpathname (p : MparamArgv) : Option Arg × MparamArgv :=
  if p.mpSifnr = 0 ∨ p.mpEifnr = 0 ∨ p.mpEifnr < p.mpSifnr + p.mpIfcurrnr then (none, p)
  else if p.mpArgv.length ≤ p.mpSifnr + p.mpIfcurrnr then (none, p)
  else (p.mpArgv[p.mpSifnr + p.mpIfcurrnr]?, { p with mpIfcurrnr := p.mpIfcurrnr + 1 })

/-- `limg_ret_ldrhpathname`. -/
def limgRetLdrhpathname (p : MparamArgv) : Option Arg :=
  if p.mpIldrhnr = 0 then none else p.mpArgv[p.mpIldrhnr]?

/-- `limg_retnext_opathname`. -/
def limgRetnextOpathname (p : MparamArgv) : Option Arg :=
  if p.mpSofnr = 0 then none else p.mpArgv[p.mpSofnr]?

/-- The calls of `limg_retnext_ipathname` until there is no path left. -/
def ipathLoop : Nat → MparamArgv → List Arg
  | 0, _ => []
  | n + 1, p =>
      match limgRetnextIpathname p with
      | (none, _) => []
      | (some path, p) => path :: ipathLoop n p

/-- All input files. -/
def ipathnames (p : MparamArgv) : List Arg := ipathLoop p.mpArgv.length p

/-! ## What a command line says -/

/-- The mode, the loader head file, the output file and the input files. -/
structure Cmdline where
  mode : Nat
  ldrh : Option Arg
  out : Option Arg
  files : List Arg
deriving DecidableEq, Repr

/-- The arguments behind the first occurrence of an option. -/
def behind (opt argv : List Arg) : List Arg := ((argv.drop 1).dropWhile (· ∉ opt)).drop 1

/-- The mode of a letter. -/
def modeOf : Arg → Option Nat
  | [98] => some bootMode
  | [107] => some krnelMode
  | [117] => some undoMode
  | _ => none

/-- The one name behind an option. -/
def nameBehind (opt argv : List Arg) : Option Arg := (behind opt argv).head?.filter isName

/-- The names behind `-f`, up to the next option. -/
def filesBehind (argv : List Arg) : List Arg := (behind optIn argv).takeWhile isName

/-- What a command line says; the undo mode needs no other file names. -/
def readArgs (argv : List Arg) : Option Cmdline := do
  let mode ← (behind optMode argv).head?.bind modeOf
  let files ← if filesBehind argv = [] then none else some (filesBehind argv)
  if mode = undoMode then return ⟨mode, none, none, files⟩
  else return ⟨mode, some (← nameBehind optLhf argv), some (← nameBehind optOut argv), files⟩

/-- What the tool asks `param.c` for. -/
def MparamArgv.cmdline (p : MparamArgv) : Cmdline :=
  ⟨p.mpImgmode, limgRetLdrhpathname p, limgRetnextOpathname p, ipathnames p⟩

/-! ## Options -/

variable {opt argv : List Arg} {n i : Nat}

theorem optionLoop_spec (hn : argv.length - i = n) :
    (optionLoop opt argv n i = 0 ∧ (argv.drop i).dropWhile (· ∉ opt) = []) ∨
      i < optionLoop opt argv n i ∧ optionLoop opt argv n i ≤ argv.length ∧
        argv.drop (optionLoop opt argv n i) = ((argv.drop i).dropWhile (· ∉ opt)).drop 1 := by
  induction n generalizing i with
  | zero => exact .inl ⟨rfl, by rw [List.drop_eq_nil_of_le (by omega)]; rfl⟩
  | succ n ih =>
      have hi : i < argv.length := by omega
      rw [List.drop_eq_getElem_cons hi, optionLoop, List.getD_eq_getElem argv [] hi]
      by_cases hmem : argv[i] ∈ opt
      · rw [if_pos hmem, List.dropWhile_cons_of_neg (by simpa using hmem)]
        exact .inr ⟨Nat.lt_succ_self i, hi, rfl⟩
      · rw [if_neg hmem, List.dropWhile_cons_of_pos (by simpa using hmem)]
        rcases ih (i := i + 1) (by omega) with hno | ⟨hlt, hle, hdrop⟩
        · exact .inl hno
        · exact .inr ⟨by omega, hle, hdrop⟩

/-- **The search finds the first occurrence**, and what stands behind it. -/
theorem optionIdx_spec (opt argv : List Arg) :
    (optionIdx opt argv = 0 ∧ behind opt argv = []) ∨
      0 < optionIdx opt argv ∧ argv.drop (optionIdx opt argv) = behind opt argv := by
  have hloop := @optionLoop_spec opt argv (argv.length - 1) 1 rfl
  rcases hloop with ⟨hno, hnil⟩ | ⟨hlt, -, hdrop⟩
  · exact .inl ⟨hno, by rw [behind, hnil]; rfl⟩
  · exact .inr ⟨Nat.lt_trans Nat.zero_lt_one hlt, hdrop⟩

/-- There is no value. -/
theorem behind_eq_nil_iff :
    behind opt argv = [] ↔ optionIdx opt argv = 0 ∨ argv.length ≤ optionIdx opt argv := by
  rcases optionIdx_spec opt argv with ⟨hno, hnil⟩ | ⟨hpos, hdrop⟩
  · exact iff_of_true hnil (.inl hno)
  · rw [← hdrop, List.drop_eq_nil_iff, or_iff_right (Nat.ne_of_gt hpos)]

/-- The value. -/
theorem getElem?_optionIdx (h : behind opt argv ≠ []) :
    0 < optionIdx opt argv ∧ argv[optionIdx opt argv]? = (behind opt argv).head? := by
  rcases optionIdx_spec opt argv with ⟨-, hnil⟩ | ⟨hpos, hdrop⟩
  · exact absurd hnil h
  · exact ⟨hpos, by rw [← hdrop, List.head?_drop]⟩

/-! ## The functions -/

/-- The mode of a letter, by the comparisons of the source. -/
theorem modeOf_eq (a : Arg) : modeOf a = if a = [98] then some bootMode
    else if a = [107] then some krnelMode else if a = [117] then some undoMode else none := by
  unfold modeOf
  split
  · rfl
  · rfl
  · rfl
  · rename_i h98 h107 h117
    rw [if_neg h98, if_neg h107, if_neg h117]

/-- **`limg_param_is_mode`**. -/
theorem limgParamIsMode_spec (p : MparamArgv) : (limgParamIsMode p).toOption =
    ((behind optMode p.mpArgv).head?.bind modeOf).map fun mode => { p with mpImgmode := mode } := by
  unfold limgParamIsMode
  by_cases hnil : behind optMode p.mpArgv = []
  · rw [if_pos (behind_eq_nil_iff.mp hnil), hnil]
    rfl
  · obtain ⟨hpos, hget⟩ := getElem?_optionIdx hnil
    have hidx := mt behind_eq_nil_iff.mpr hnil
    have hlt : optionIdx optMode p.mpArgv < p.mpArgv.length := by omega
    rw [List.getElem?_eq_getElem hlt] at hget
    rw [if_neg hidx, ← hget, List.getD_eq_getElem _ _ hlt, Option.bind_some, modeOf_eq]
    repeat' split
    all_goals rfl

/-- **The name behind an option.** -/
theorem paramIsFile_spec (opt argv : List Arg) :
    (paramIsFile opt argv).toOption = (nameBehind opt argv).map fun _ => optionIdx opt argv := by
  unfold paramIsFile nameBehind
  by_cases hnil : behind opt argv = []
  · rw [if_pos (behind_eq_nil_iff.mp hnil), hnil]
    rfl
  · obtain ⟨hpos, hget⟩ := getElem?_optionIdx hnil
    have hidx := mt behind_eq_nil_iff.mpr hnil
    have hlt : optionIdx opt argv < argv.length := by omega
    rw [List.getElem?_eq_getElem hlt] at hget
    rw [if_neg hidx, ← hget, List.getD_eq_getElem _ _ hlt, Option.filter_some]
    by_cases hname : isName argv[optionIdx opt argv]
    · rw [if_pos hname, hname]
      rfl
    · rw [if_neg hname, Bool.eq_false_iff.mpr hname]
      rfl

/-- The name behind an option is at its index. -/
theorem getElem?_of_nameBehind {a : Arg} (h : nameBehind opt argv = some a) :
    0 < optionIdx opt argv ∧ argv[optionIdx opt argv]? = some a := by
  obtain ⟨hhead, -⟩ := Option.filter_eq_some_iff.mp h
  have hne : behind opt argv ≠ [] := fun hnil => by
    rw [hnil] at hhead
    cases hhead
  obtain ⟨hpos, hget⟩ := getElem?_optionIdx hne
  exact ⟨hpos, hget.trans hhead⟩

/-- The names end in front of the next option. -/
theorem eifLoop_spec (hn : argv.length - i = n) (hi : 0 < i) :
    eifLoop argv n i + 1 = i + ((argv.drop i).takeWhile isName).length := by
  induction n generalizing i with
  | zero =>
      rw [List.drop_eq_nil_of_le (by omega), eifLoop]
      show i - 1 + 1 = i + 0
      omega
  | succ n ih =>
      have hlt : i < argv.length := by omega
      rw [List.drop_eq_getElem_cons hlt, eifLoop, List.getD_eq_getElem argv [] hlt]
      by_cases hname : isName argv[i] = true
      · rw [hname, List.takeWhile_cons_of_pos hname, List.length_cons]
        show eifLoop argv n (i + 1) + 1 = _
        rw [ih (by omega) (show 0 < i + 1 by omega)]
        omega
      · rw [Bool.eq_false_iff.mpr hname, List.takeWhile_cons_of_neg hname]
        show i - 1 + 1 = i + 0
        omega

/-- **`limg_param_is_inputfile`**. -/
theorem limgParamIsInputfile_spec (p : MparamArgv) :
    (filesBehind p.mpArgv = [] → (limgParamIsInputfile p).toOption = none) ∧
    (filesBehind p.mpArgv ≠ [] → ∃ eifi, limgParamIsInputfile p =
      .ok { p with mpSifnr := optionIdx optIn p.mpArgv, mpEifnr := eifi } ∧
      0 < optionIdx optIn p.mpArgv ∧
      p.mpArgv.drop (optionIdx optIn p.mpArgv) = behind optIn p.mpArgv ∧
      eifi + 1 = optionIdx optIn p.mpArgv + (filesBehind p.mpArgv).length) := by
  unfold limgParamIsInputfile filesBehind
  by_cases hnil : behind optIn p.mpArgv = []
  · rw [if_pos (behind_eq_nil_iff.mp hnil), hnil]
    exact ⟨fun _ => rfl, fun hne => absurd rfl hne⟩
  · rcases optionIdx_spec optIn p.mpArgv with ⟨-, hno⟩ | ⟨hpos, hdrop⟩
    · exact absurd hno hnil
    rw [if_neg (mt behind_eq_nil_iff.mpr hnil)]
    have heif := @eifLoop_spec p.mpArgv _ _ rfl hpos
    rw [hdrop] at heif
    refine ⟨fun hno => ?_, fun hne => ⟨_, ?_, hpos, hdrop, heif⟩⟩
    · rw [hno, List.length_nil] at heif
      rw [if_pos (by omega)]
      rfl
    · have hlen := List.length_pos_iff.mpr hne
      rw [if_neg (by omega)]

/-- **All input files**, from the index `mpSifnr` on. -/
theorem ipathLoop_spec {p : MparamArgv} {k : Nat} (hpos : 0 < p.mpSifnr)
    (heif : p.mpEifnr + 1 = p.mpSifnr + k) (hle : p.mpSifnr + k ≤ p.mpArgv.length)
    (hn : k ≤ n + p.mpIfcurrnr) : ipathLoop n p =
      (p.mpArgv.drop (p.mpSifnr + p.mpIfcurrnr)).take (k - p.mpIfcurrnr) := by
  induction n generalizing p with
  | zero =>
      rw [Nat.sub_eq_zero_of_le (by omega)]
      rfl
  | succ n ih =>
      rw [ipathLoop, limgRetnextIpathname]
      by_cases hend : p.mpEifnr < p.mpSifnr + p.mpIfcurrnr
      · rw [if_pos (.inr (.inr hend)), Nat.sub_eq_zero_of_le (by omega)]
        rfl
      · have hlt : p.mpSifnr + p.mpIfcurrnr < p.mpArgv.length := by omega
        have hrest := ih (p := { p with mpIfcurrnr := p.mpIfcurrnr + 1 }) hpos heif hle
          (by show k ≤ n + (p.mpIfcurrnr + 1); omega)
        rw [if_neg (by omega), if_neg (by omega), List.getElem?_eq_getElem hlt,
          List.drop_eq_getElem_cons hlt,
          show k - p.mpIfcurrnr = k - (p.mpIfcurrnr + 1) + 1 by omega, List.take_succ_cons]
        exact congrArg (List.cons _) hrest

/-- The paths of all input files. -/
theorem ipathnames_eq {p : MparamArgv} (hpos : 0 < p.mpSifnr)
    (hdrop : p.mpArgv.drop p.mpSifnr = behind optIn p.mpArgv) (hcur : p.mpIfcurrnr = 0)
    (heif : p.mpEifnr + 1 = p.mpSifnr + (filesBehind p.mpArgv).length)
    (hne : filesBehind p.mpArgv ≠ []) : ipathnames p = filesBehind p.mpArgv := by
  have hpre : filesBehind p.mpArgv <+: behind optIn p.mpArgv := List.takeWhile_prefix isName
  have hlen := congrArg List.length hdrop
  have hle := hpre.length_le
  have hone := List.length_pos_iff.mpr hne
  rw [List.length_drop] at hlen
  unfold ipathnames
  rw [ipathLoop_spec hpos heif (by omega) (by omega), hcur, Nat.add_zero, Nat.sub_zero, hdrop]
  exact (List.prefix_iff_eq_take.mp hpre).symm

theorem toOption_eq_none {α : Type} {x : Except String α} (h : x.toOption = none) :
    ∃ e, x = .error e := by
  cases x with
  | error e => exact ⟨e, rfl⟩
  | ok a => cases h

theorem toOption_eq_some {α : Type} {x : Except String α} {a : α} (h : x.toOption = some a) :
    x = .ok a := by
  cases x with
  | error e => cases h
  | ok b => exact congrArg Except.ok (Option.some.inj h)

/-- A name that has to be there. -/
theorem paramIsFile_cases (opt argv : List Arg) :
    (nameBehind opt argv = none ∧ ∃ e, paramIsFile opt argv = .error e) ∨
      ∃ a, nameBehind opt argv = some a ∧ paramIsFile opt argv = .ok (optionIdx opt argv) := by
  have hspec := paramIsFile_spec opt argv
  cases hname : nameBehind opt argv with
  | none =>
      rw [hname] at hspec
      exact .inl ⟨rfl, toOption_eq_none hspec⟩
  | some a =>
      rw [hname] at hspec
      exact .inr ⟨a, rfl, toOption_eq_some hspec⟩

/-- In the modes that write an image. -/
theorem limgParam_image {p : MparamArgv} (hcur : p.mpIfcurrnr = 0) :
    (limgParamIsLdhfile p >>= fun p => limgParamIsInputfile p >>= limgParamIsOutfile).toOption.map
      MparamArgv.cmdline = do
        let files ← if filesBehind p.mpArgv = [] then none else some (filesBehind p.mpArgv)
        return ⟨p.mpImgmode, some (← nameBehind optLhf p.mpArgv),
          some (← nameBehind optOut p.mpArgv), files⟩ := by
  unfold limgParamIsLdhfile
  rcases paramIsFile_cases optLhf p.mpArgv with ⟨hno, e, he⟩ | ⟨ldrh, hldrh, hidx⟩
  · rw [he, hno]
    split <;> rfl
  · obtain ⟨hnil, hfiles⟩ :=
      limgParamIsInputfile_spec { p with mpIldrhnr := optionIdx optLhf p.mpArgv }
    rw [hidx, hldrh]
    by_cases hempty : filesBehind p.mpArgv = []
    · obtain ⟨e, he⟩ := toOption_eq_none (hnil hempty)
      rw [if_pos hempty]
      show (limgParamIsInputfile _ >>= limgParamIsOutfile).toOption.map MparamArgv.cmdline = _
      rw [he]
      rfl
    · obtain ⟨eifi, hok, hpos, hdrop, heif⟩ := hfiles hempty
      rw [if_neg hempty]
      show (limgParamIsInputfile _ >>= limgParamIsOutfile).toOption.map MparamArgv.cmdline = _
      rw [hok]
      show (limgParamIsOutfile _).toOption.map MparamArgv.cmdline = _
      unfold limgParamIsOutfile
      rcases paramIsFile_cases optOut p.mpArgv with ⟨hno, e, he⟩ | ⟨out, hout, hidx'⟩
      · rw [he, hno]
        rfl
      · obtain ⟨hlpos, hlget⟩ := getElem?_of_nameBehind hldrh
        obtain ⟨hopos, hoget⟩ := getElem?_of_nameBehind hout
        have hpaths := ipathnames_eq (p := { p with
          mpIldrhnr := optionIdx optLhf p.mpArgv
          mpSifnr := optionIdx optIn p.mpArgv
          mpEifnr := eifi
          mpSofnr := optionIdx optOut p.mpArgv }) hpos hdrop hcur heif hempty
        rw [hidx', hout]
        refine congrArg some ?_
        show Cmdline.mk p.mpImgmode (if optionIdx optLhf p.mpArgv = 0 then none else
          p.mpArgv[optionIdx optLhf p.mpArgv]?) (if optionIdx optOut p.mpArgv = 0 then none else
          p.mpArgv[optionIdx optOut p.mpArgv]?) _ = _
        rw [hpaths, if_neg (Nat.ne_of_gt hlpos), if_neg (Nat.ne_of_gt hopos), hlget, hoget]

/-- In the undo mode. -/
theorem limgParam_undo {p : MparamArgv} (hcur : p.mpIfcurrnr = 0) (hldrh : p.mpIldrhnr = 0)
    (hout : p.mpSofnr = 0) : (limgParamIsInputfile p).toOption.map MparamArgv.cmdline = do
        let files ← if filesBehind p.mpArgv = [] then none else some (filesBehind p.mpArgv)
        return ⟨p.mpImgmode, none, none, files⟩ := by
  obtain ⟨hnil, hfiles⟩ := limgParamIsInputfile_spec p
  by_cases hempty : filesBehind p.mpArgv = []
  · rw [hnil hempty, if_pos hempty]
    rfl
  · obtain ⟨eifi, hok, hpos, hdrop, heif⟩ := hfiles hempty
    have hpaths := ipathnames_eq (p := { p with
      mpSifnr := optionIdx optIn p.mpArgv
      mpEifnr := eifi }) hpos hdrop hcur heif hempty
    rw [hok, if_neg hempty]
    refine congrArg some ?_
    show Cmdline.mk p.mpImgmode (if p.mpIldrhnr = 0 then none else p.mpArgv[p.mpIldrhnr]?)
      (if p.mpSofnr = 0 then none else p.mpArgv[p.mpSofnr]?) _ = _
    rw [hpaths, if_pos hldrh, if_pos hout]

/-- **What `limg_param` takes, and what it says.**  The tool stops with an error exactly at the
command lines that say nothing; at the others it gets the mode and the paths that they say. -/
theorem limgParam_reads (argv : List Arg) :
    (limgParam argv).toOption.map MparamArgv.cmdline = readArgs argv := by
  have hmode : (limgParamIsMode { mparamInit with mpArgv := argv }).toOption =
      ((behind optMode argv).head?.bind modeOf).map fun mode =>
        { mparamInit with mpArgv := argv, mpImgmode := mode } := limgParamIsMode_spec _
  unfold limgParam readArgs
  cases hm : (behind optMode argv).head?.bind modeOf with
  | none =>
      rw [hm] at hmode
      obtain ⟨e, he⟩ := toOption_eq_none hmode
      rw [he]
      rfl
  | some mode =>
      rw [hm] at hmode
      rw [toOption_eq_some hmode]
      by_cases hundo : mode = undoMode
      · subst hundo
        exact limgParam_undo (p := { mparamInit with mpArgv := argv, mpImgmode := undoMode })
          rfl rfl rfl
      · have himage := limgParam_image (p := { mparamInit with mpArgv := argv, mpImgmode := mode }) rfl
        show Option.map _ (if mode = undoMode then _ else _ : Except String MparamArgv).toOption = _
        rw [if_neg hundo, Option.bind_eq_bind, Option.bind_some]
        simp only [if_neg hundo]
        exact himage

/-! ## Options in any order -/

/-- An option and its values. -/
abbrev Group := Arg × List Arg

/-- The arguments of the options, one behind the other. -/
def args (gs : List Group) : List Arg := gs.flatMap fun g => g.1 :: g.2

/-- Options begin with `-`, values do not. -/
def GroupOk (g : Group) : Prop := isName g.1 = false ∧ ∀ a ∈ g.2, isName a = true

variable {gs rest : List Group} {w : Arg} {vals : List Arg}

/-- **The first group with an option**, when there is one. -/
theorem behind_args (prog : Arg) (hok : ∀ g ∈ gs, GroupOk g) (hopt : ∀ a ∈ opt, isName a = false)
    (hperm : gs.Perm ((w, vals) :: rest)) (hw : w ∈ opt) (hrest : ∀ g ∈ rest, g.1 ∉ opt) :
    ∃ more, behind opt (prog :: args gs) = vals ++ more ∧ more.takeWhile isName = [] := by
  obtain ⟨l, r, rfl⟩ := List.append_of_mem (hperm.mem_iff.mpr List.mem_cons_self)
  have hothers : (l ++ r).Perm rest := List.Perm.cons_inv (List.perm_middle.symm.trans hperm)
  have hskip : ∀ a ∈ args l, a ∉ opt := by
    intro a ha hmem
    obtain ⟨g, hg, hag⟩ := List.mem_flatMap.mp ha
    rcases List.mem_cons.mp hag with rfl | hval
    · exact hrest g (hothers.mem_iff.mp (List.mem_append_left r hg)) hmem
    · have hname := (hok g (List.mem_append_left _ hg)).2 a hval
      rw [hopt a hmem] at hname
      cases hname
  have hargs : args (l ++ (w, vals) :: r) = args l ++ w :: (vals ++ args r) := by
    simp only [args, List.flatMap_append, List.flatMap_cons, List.cons_append]
  refine ⟨args r, ?_, ?_⟩
  · rw [behind, hargs, List.drop_succ_cons, List.drop_zero,
      List.dropWhile_append_of_pos fun a ha => decide_eq_true (hskip a ha),
      List.dropWhile_cons_of_neg (by simpa using hw)]
    rfl
  · cases r with
    | nil => rfl
    | cons g r =>
        have hno := (hok g (List.mem_append_right l (List.mem_cons_of_mem _ List.mem_cons_self))).1
        exact List.takeWhile_cons_of_neg (Bool.eq_false_iff.mp hno)

/-- The names of the first group with `-f`. -/
theorem filesBehind_args (prog : Arg) (hok : ∀ g ∈ gs, GroupOk g)
    (hperm : gs.Perm ((w, vals) :: rest)) (hw : w ∈ optIn) (hrest : ∀ g ∈ rest, g.1 ∉ optIn) :
    filesBehind (prog :: args gs) = vals := by
  obtain ⟨more, hbehind, hmore⟩ := behind_args prog hok (by decide) hperm hw hrest
  have hvals := (hok (w, vals) (hperm.mem_iff.mpr List.mem_cons_self)).2
  rw [filesBehind, hbehind, List.takeWhile_append_of_pos hvals, hmore, List.append_nil]

/-- The value of an option with one. -/
theorem head?_behind_args {a : Arg} (prog : Arg) (hok : ∀ g ∈ gs, GroupOk g)
    (hopt : ∀ a ∈ opt, isName a = false) (hperm : gs.Perm ((w, [a]) :: rest)) (hw : w ∈ opt)
    (hrest : ∀ g ∈ rest, g.1 ∉ opt) :
    (behind opt (prog :: args gs)).head? = some a ∧ isName a = true := by
  obtain ⟨more, hbehind, -⟩ := behind_args prog hok hopt hperm hw hrest
  rw [hbehind]
  exact ⟨rfl, (hok _ (hperm.mem_iff.mpr List.mem_cons_self)).2 a List.mem_cons_self⟩

theorem nameBehind_args {a : Arg} (prog : Arg) (hok : ∀ g ∈ gs, GroupOk g)
    (hopt : ∀ a ∈ opt, isName a = false) (hperm : gs.Perm ((w, [a]) :: rest)) (hw : w ∈ opt)
    (hrest : ∀ g ∈ rest, g.1 ∉ opt) : nameBehind opt (prog :: args gs) = some a := by
  obtain ⟨hhead, hname⟩ := head?_behind_args prog hok hopt hperm hw hrest
  rw [nameBehind, hhead, Option.filter_some, if_pos hname]

/-- The four options of the kernel mode, with their values. -/
structure KrnelGroups (gs : List Group) (ldrh out : Arg) (files : List Arg) : Prop where
  ok : ∀ g ∈ gs, GroupOk g
  perm : ∃ m ∈ optMode, ∃ l ∈ optLhf, ∃ o ∈ optOut, ∃ f ∈ optIn,
    gs.Perm [(m, [[107]]), (l, [ldrh]), (o, [out]), (f, files)]
  files : files ≠ []

/-- The two options of the undo mode. -/
structure UndoGroups (gs : List Group) (img : Arg) : Prop where
  ok : ∀ g ∈ gs, GroupOk g
  perm : ∃ m ∈ optMode, ∃ f ∈ optIn, gs.Perm [(m, [[117]]), (f, [img])]

/-- **Options may stand in any order.** -/
theorem readArgs_krnel {ldrh out : Arg} {files : List Arg} (h : KrnelGroups gs ldrh out files)
    (prog : Arg) : readArgs (prog :: args gs) = some ⟨krnelMode, some ldrh, some out, files⟩ := by
  obtain ⟨m, hm, l, hl, o, ho, f, hf, hperm⟩ := h.perm
  have mapart : ∀ a ∈ optMode, a ∉ optLhf ∧ a ∉ optOut ∧ a ∉ optIn := by decide
  have lapart : ∀ a ∈ optLhf, a ∉ optMode ∧ a ∉ optOut ∧ a ∉ optIn := by decide
  have oapart : ∀ a ∈ optOut, a ∉ optMode ∧ a ∉ optLhf ∧ a ∉ optIn := by decide
  have fapart : ∀ a ∈ optIn, a ∉ optMode ∧ a ∉ optLhf ∧ a ∉ optOut := by decide
  obtain ⟨ml, mo, mf⟩ := mapart m hm
  obtain ⟨lm, lo, lf⟩ := lapart l hl
  obtain ⟨om, ol, of⟩ := oapart o ho
  obtain ⟨fm, fl, fo⟩ := fapart f hf
  have hmode := (head?_behind_args prog h.ok (by decide) hperm hm (by simp [lm, om, fm])).1
  have hldrh : nameBehind optLhf (prog :: args gs) = some ldrh :=
    nameBehind_args prog h.ok (by decide) (hperm.trans (List.Perm.swap _ _ _)) hl
      (by simp [ml, ol, fl])
  have hout : nameBehind optOut (prog :: args gs) = some out :=
    nameBehind_args prog h.ok (by decide) (hperm.trans (@List.perm_middle _ _ [_, _] _)) ho
      (by simp [mo, lo, fo])
  have hfiles : filesBehind (prog :: args gs) = files :=
    filesBehind_args prog h.ok (hperm.trans (@List.perm_middle _ _ [_, _, _] _)) hf
      (by simp [mf, lf, of])
  unfold readArgs
  simp [hmode, hldrh, hout, hfiles, h.files, modeOf, krnelMode, undoMode]

theorem readArgs_undo {img : Arg} (h : UndoGroups gs img) (prog : Arg) :
    readArgs (prog :: args gs) = some ⟨undoMode, none, none, [img]⟩ := by
  obtain ⟨m, hm, f, hf, hperm⟩ := h.perm
  have mf : ∀ a ∈ optMode, a ∉ optIn := by decide
  have fm : ∀ a ∈ optIn, a ∉ optMode := by decide
  have hmode := (head?_behind_args prog h.ok (by decide) hperm hm (by simp [fm f hf])).1
  have hfiles : filesBehind (prog :: args gs) = [img] :=
    filesBehind_args prog h.ok (hperm.trans (List.Perm.swap _ _ _)) hf (by simp [mf m hm])
  unfold readArgs
  simp [hmode, hfiles, modeOf, undoMode]

end Cosmos.Tools
