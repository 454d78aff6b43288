import Mathlib.Algebra.Group.Nat.Defs
import Minitalk.Log.Grammar

/-! # What the automaton reads of a conversion

The fields of `t_format_spec` at the letter of a conversion are those that the conversion denotes. A number is
accumulated in `temp_num` and committed by the character behind it, so a state inside a conversion is described by
its settled spec: the spec, with the number that is pending in it. -/

namespace Minitalk.Log
open CText

/-- A conversion whose numbers are of `int`. -/
structure Directive extends Conversion where
  width_lt : decimal width < 2 ^ 31
  precision_lt : decimal (precision.getD []) < 2 ^ 31

/-- The state actions over a text, one character after the other. -/
def runActions (args : VaList) (ctx : ParserCtx) (text : List UInt8) : ParserCtx := text.foldl (ctxStep args) ctx

/-! ### Characters -/

section Chars
variable {c : UInt8}

/-- Only `0` is in two classes. -/
theorem length_only (h : c ∈ cstr "lhL") {k : CharClass} (hk : k ≠ .length) : charClassTable c k = false := by
  have hall : (cstr "lhL").all (fun c => !charClassTable c k) = true := by
    cases k <;> first | exact absurd rfl hk | decide
  simpa using List.all_eq_true.mp hall c h

theorem flag_ne_percent (h : c ∈ cstr "-+ #0") : charClassTable c .percent = false := by
  have hall : (cstr "-+ #0").all (fun c => !charClassTable c .percent) = true := by decide
  simpa using List.all_eq_true.mp hall c h

theorem flag_ne_dot (h : c ∈ cstr "-+ #0") : charClassTable c .dot = false := by
  have hall : (cstr "-+ #0").all (fun c => !charClassTable c .dot) = true := by decide
  simpa using List.all_eq_true.mp hall c h

theorem flag_ne_digit (h : c ∈ cstr "-+ #0") (h0 : c ≠ chr '0') : charClassTable c .digit = false := by
  have hall : (cstr "-+ #0").all (fun c => c == chr '0' || !charClassTable c .digit) = true := by decide
  simpa [h0] using List.all_eq_true.mp hall c h

theorem digit_only (h : isDigit c = true) (h0 : c ≠ chr '0') {k : CharClass} (hk : k ≠ .digit) :
    charClassTable c k = false := by
  have hout : ∀ {s : List UInt8}, s.all (fun d => d == chr '0' || !isDigit d) = true → c ∉ s := by
    intro s hall hmem
    have := List.all_eq_true.mp hall c hmem
    simp [h, h0] at this
  cases k with
  | digit => exact absurd rfl hk
  | flag => simpa [charClassTable] using hout (s := cstr "-+ #0") (by decide)
  | spec => simpa [charClassTable] using hout (s := cstr "sdiuxXocpfgG") (by decide)
  | length => simpa [charClassTable] using hout (s := cstr "lhL") (by decide)
  | dot => simpa [charClassTable] using hout (s := [chr '.']) (by decide)
  | percent => simpa [charClassTable] using hout (s := [chr '%']) (by decide)

end Chars

/-! ### Flags and digits -/

theorem flagTable_eq (c : UInt8) (spec : FormatSpec) :
    flagTable c spec =
      { spec with
        leftAlign := spec.leftAlign || chr '-' == c
        showSign := spec.showSign || chr '+' == c
        spacePrefix := spec.spacePrefix || chr ' ' == c
        altForm := spec.altForm || chr '#' == c
        zeroPad := spec.zeroPad || chr '0' == c } := by
  by_cases hc : c ∈ cstr "-+ #0"
  · rcases (show c = chr '-' ∨ c = chr '+' ∨ c = chr ' ' ∨ c = chr '#' ∨ c = chr '0' by simpa [cstr] using hc) with
      rfl | rfl | rfl | rfl | rfl <;> simp +decide [flagTable]
  · obtain ⟨h1, h2, h3, h4, h5⟩ :
        c ≠ chr '-' ∧ c ≠ chr '+' ∧ c ≠ chr ' ' ∧ c ≠ chr '#' ∧ c ≠ chr '0' := by simpa [cstr] using hc
    have hbeq : ∀ {d : UInt8}, c ≠ d → (d == c) = false := fun h => beq_eq_false_iff_ne.mpr h.symm
    simp [flagTable, h1, h2, h3, h4, h5, hbeq h1, hbeq h2, hbeq h3, hbeq h4, hbeq h5]

theorem foldl_flagTable (flags : List UInt8) (spec : FormatSpec) :
    flags.foldl (fun spec c => flagTable c spec) spec =
      { spec with
        leftAlign := spec.leftAlign || flags.contains (chr '-')
        showSign := spec.showSign || flags.contains (chr '+')
        spacePrefix := spec.spacePrefix || flags.contains (chr ' ')
        altForm := spec.altForm || flags.contains (chr '#')
        zeroPad := spec.zeroPad || flags.contains (chr '0') } := by
  induction flags generalizing spec with
  | nil => simp
  | cons c cs ih =>
    rw [List.foldl_cons, ih, flagTable_eq]
    simp only [List.contains_cons, Bool.or_assoc]

/-! ### The settled spec -/

/-- The spec, with the number that the next character will commit. -/
def settled (ctx : ParserCtx) : FormatSpec :=
  match ctx.state with
  | .width => { ctx.spec with width := ctx.tempNum }
  | .precision => { ctx.spec with precision := ctx.tempNum }
  | _ => ctx.spec

/-- The states in which a digit goes on with a number. -/
def FormatState.inNumber : FormatState → Bool
  | .width | .precision => true
  | _ => false

/-- In this state, with this spec settled; nothing was appended and no argument consumed since `ctx₀`. -/
structure Reading (ctx₀ : ParserCtx) (st : FormatState) (spec : FormatSpec) (ctx : ParserCtx) : Prop where
  state : ctx.state = st
  settled : settled ctx = spec
  buffer : ctx.buffer = ctx₀.buffer
  argIndex : ctx.argIndex = ctx₀.argIndex

namespace Reading
variable (args : VaList) {ctx₀ ctx : ParserCtx} {st : FormatState} {spec : FormatSpec} {c : UInt8}

theorem percent (h : ctx.state = .normal) : Reading ctx .percent {} (ctxStep args ctx (chr '%')) := by
  have hstep : ctxStep args ctx (chr '%') = { ctx with state := .percent, spec := {} } := by
    simp [ctxStep, h, stateTransitionTable, actionNormal]
  rw [hstep]
  exact ⟨rfl, rfl, rfl, rfl⟩

theorem flag (h : Reading ctx₀ st spec ctx) (hst : st.inConversion = true) (hc : c ∈ cstr "-+ #0")
    (h0 : st.inNumber = true → c ≠ chr '0') : Reading ctx₀ .flags (flagTable c spec) (ctxStep args ctx c) := by
  have hflag : charClassTable c .flag = true := by simpa [charClassTable] using hc
  have hpercent := flag_ne_percent hc
  have hdot := flag_ne_dot hc
  obtain ⟨rfl, rfl, hb, hn⟩ := h
  have hdigit : ctx.state.inNumber = true → charClassTable c .digit = false := fun h => flag_ne_digit hc (h0 h)
  have hstep : ctxStep args ctx c = { ctx with state := .flags, spec := flagTable c (Log.settled ctx) } := by
    cases hs : ctx.state with
    | normal | specifier | error =>
      rw [hs] at hst
      cases hst
    | percent | flags | length =>
      simp [ctxStep, hs, stateTransitionTable, actionPercent, actionFlags, actionLength, handleFlagChar, hflag,
        hpercent, Log.settled]
    | width | precision =>
      have hdigit := hdigit (by rw [hs]; rfl)
      simp [ctxStep, hs, stateTransitionTable, actionPercent, actionWidth, actionPrecision, handleFlagChar, hflag,
        hpercent, hdot, hdigit, Log.settled]
  rw [hstep]
  exact ⟨rfl, rfl, hb, hn⟩

theorem firstDigit (h : Reading ctx₀ st spec ctx) (hst : st.inConversion = true) (hnum : st.inNumber = false)
    (hc : isDigit c = true) (h0 : c ≠ chr '0') :
    Reading ctx₀ .width { spec with width := digitValue c } (ctxStep args ctx c) := by
  have hdigit : charClassTable c .digit = true := hc
  have hflag := digit_only hc h0 (k := .flag) (by decide)
  have hpercent := digit_only hc h0 (k := .percent) (by decide)
  obtain ⟨rfl, rfl, hb, hn⟩ := h
  have hset : Log.settled ctx = ctx.spec := by
    cases hs : ctx.state <;> rw [hs] at hnum <;> first | exact absurd hnum (by decide) | simp [Log.settled, hs]
  have hstep : ctxStep args ctx c = { ctx with state := .width, tempNum := digitValue c } := by
    cases hs : ctx.state <;> rw [hs] at hst hnum <;>
      first
      | exact absurd hst (by decide)
      | exact absurd hnum (by decide)
      | simp [ctxStep, hs, stateTransitionTable, actionPercent, actionFlags, actionLength, handleOtherChars, hflag,
          hpercent, hdigit]
  rw [hstep, hset]
  exact ⟨rfl, rfl, hb, hn⟩

theorem widthDigit (h : Reading ctx₀ .width spec ctx) (hc : isDigit c = true) :
    Reading ctx₀ .width { spec with width := spec.width * 10 + digitValue c } (ctxStep args ctx c) := by
  have hdigit : charClassTable c .digit = true := hc
  obtain ⟨hs, rfl, hb, hn⟩ := h
  have hstep : ctxStep args ctx c = { ctx with tempNum := ctx.tempNum * 10 + digitValue c } := by
    simp [ctxStep, hs, stateTransitionTable, actionWidth, hdigit]
  rw [hstep]
  exact ⟨hs, by simp [Log.settled, hs], hb, hn⟩

theorem dot (h : Reading ctx₀ st spec ctx) (hst : st.inConversion = true) :
    Reading ctx₀ .precision { spec with hasPrecision := true, precision := 0 } (ctxStep args ctx (chr '.')) := by
  have hclass : ∀ k, charClassTable (chr '.') k = decide (k = .dot) := by
    intro k
    cases k <;> decide
  obtain ⟨rfl, rfl, hb, hn⟩ := h
  have hstep : ctxStep args ctx (chr '.') =
      { ctx with state := .precision, spec := { Log.settled ctx with hasPrecision := true }, tempNum := 0 } := by
    cases hs : ctx.state <;> rw [hs] at hst <;>
      first
      | exact absurd hst (by decide)
      | simp [ctxStep, hs, stateTransitionTable, actionPercent, actionFlags, actionWidth, actionPrecision, actionLength,
          handleOtherChars, hclass, Log.settled]
  rw [hstep]
  exact ⟨rfl, rfl, hb, hn⟩

theorem precisionDigit (h : Reading ctx₀ .precision spec ctx) (hc : isDigit c = true) :
    Reading ctx₀ .precision { spec with precision := spec.precision * 10 + digitValue c } (ctxStep args ctx c) := by
  have hdigit : charClassTable c .digit = true := hc
  obtain ⟨hs, rfl, hb, hn⟩ := h
  have hstep : ctxStep args ctx c = { ctx with tempNum := ctx.tempNum * 10 + digitValue c } := by
    simp [ctxStep, hs, stateTransitionTable, actionPrecision, hdigit]
  rw [hstep]
  exact ⟨hs, by simp [Log.settled, hs], hb, hn⟩

theorem lengthLetter (h : Reading ctx₀ st spec ctx) (hst : st.inConversion = true) (hc : c ∈ cstr "lhL") :
    Reading ctx₀ .length { spec with lengthMod := c } (ctxStep args ctx c) := by
  have hlength : charClassTable c .length = true := by simpa [charClassTable] using hc
  have honly := fun k => length_only hc (k := k)
  obtain ⟨rfl, rfl, hb, hn⟩ := h
  have hstep : ctxStep args ctx c =
      { ctx with state := .length, spec := { Log.settled ctx with lengthMod := c } } := by
    cases hs : ctx.state <;> rw [hs] at hst <;>
      first
      | exact absurd hst (by decide)
      | simp [ctxStep, hs, stateTransitionTable, actionPercent, actionFlags, actionWidth, actionPrecision,
          actionLength, handleOtherChars, hlength, honly, Log.settled]
  rw [hstep]
  exact ⟨rfl, rfl, hb, hn⟩

theorem conv (h : Reading ctx₀ st spec ctx) (hst : st.inConversion = true) (hc : c ∈ cstr "sdiuxXocpfgG") :
    Reading ctx₀ .specifier { spec with specifier := c } (ctxStep args ctx c) := by
  have hspec : charClassTable c .spec = true := by simpa [charClassTable] using hc
  have honly := fun k => spec_only hspec (k := k)
  obtain ⟨rfl, rfl, hb, hn⟩ := h
  have hstep : ctxStep args ctx c =
      { ctx with state := .specifier, spec := { Log.settled ctx with specifier := c } } := by
    cases hs : ctx.state <;> rw [hs] at hst <;>
      first
      | exact absurd hst (by decide)
      | simp [ctxStep, hs, stateTransitionTable, actionPercent, actionFlags, actionWidth, actionPrecision,
          actionLength, handleOtherChars, hspec, honly, Log.settled]
  rw [hstep]
  exact ⟨rfl, rfl, hb, hn⟩

/-! ### Runs of characters -/

theorem flags_run {flags : List UInt8} (h : Reading ctx₀ st spec ctx) (hst : st.inConversion = true)
    (hnum : st.inNumber = false) (hflags : ∀ c ∈ flags, c ∈ cstr "-+ #0") :
    ∃ st', st'.inConversion = true ∧ st'.inNumber = false ∧
      Reading ctx₀ st' (flags.foldl (fun spec c => flagTable c spec) spec) (runActions args ctx flags) := by
  induction flags generalizing ctx st spec with
  | nil => exact ⟨st, hst, hnum, h⟩
  | cons c cs ih =>
    have hc := h.flag args hst (hflags c List.mem_cons_self) (by simp [hnum])
    exact ih hc rfl rfl fun d hd => hflags d (List.mem_cons_of_mem c hd)

theorem width_run {ds : List UInt8} (h : Reading ctx₀ .width spec ctx) (hds : ∀ c ∈ ds, isDigit c = true) :
    Reading ctx₀ .width { spec with width := ds.foldl (fun n c => n * 10 + digitValue c) spec.width }
      (runActions args ctx ds) := by
  induction ds generalizing ctx spec with
  | nil => exact h
  | cons d ds ih =>
    have hd := h.widthDigit args (hds d List.mem_cons_self)
    exact ih hd fun c hc => hds c (List.mem_cons_of_mem d hc)

theorem precision_run {ds : List UInt8} (h : Reading ctx₀ .precision spec ctx)
    (hds : ∀ c ∈ ds, isDigit c = true) :
    Reading ctx₀ .precision { spec with precision := ds.foldl (fun n c => n * 10 + digitValue c) spec.precision }
      (runActions args ctx ds) := by
  induction ds generalizing ctx spec with
  | nil => exact h
  | cons d ds ih =>
    have hd := h.precisionDigit args (hds d List.mem_cons_self)
    exact ih hd fun c hc => hds c (List.mem_cons_of_mem d hc)

theorem length_run {ls : List UInt8} (h : Reading ctx₀ st spec ctx) (hst : st.inConversion = true)
    (hls : ∀ c ∈ ls, c ∈ cstr "lhL") :
    ∃ st', st'.inConversion = true ∧
      Reading ctx₀ st' { spec with lengthMod := (ls.getLast?).getD spec.lengthMod } (runActions args ctx ls) := by
  induction ls generalizing ctx st spec with
  | nil => exact ⟨st, hst, h⟩
  | cons l ls ih =>
    have hl := h.lengthLetter args hst (hls l List.mem_cons_self)
    obtain ⟨st', hst', hrun⟩ := ih hl rfl fun c hc => hls c (List.mem_cons_of_mem l hc)
    refine ⟨st', hst', ?_⟩
    rwa [List.getLast?_cons, Option.getD_some]

theorem width_number {d : UInt8} {ds : List UInt8} (h : Reading ctx₀ st spec ctx) (hst : st.inConversion = true)
    (hnum : st.inNumber = false) (hds : ∀ c ∈ d :: ds, isDigit c = true) (h0 : d ≠ chr '0') :
    Reading ctx₀ .width { spec with width := BitVec.ofNat 32 (decimal (d :: ds)) } (runActions args ctx (d :: ds)) := by
  have hd := h.firstDigit args hst hnum (hds d List.mem_cons_self) h0
  have hrun := hd.width_run args fun c hc => hds c (List.mem_cons_of_mem d hc)
  have hfirst : (0 : BitVec 32) * 10 + digitValue d = digitValue d := by simp
  rw [← foldl_digitValue_zero, List.foldl_cons, hfirst]
  exact hrun

theorem precision_number {ds : List UInt8} (h : Reading ctx₀ st spec ctx) (hst : st.inConversion = true)
    (hds : ∀ c ∈ ds, isDigit c = true) :
    Reading ctx₀ .precision { spec with hasPrecision := true, precision := BitVec.ofNat 32 (decimal ds) }
      (runActions args ctx (chr '.' :: ds)) := by
  have hrun := (h.dot args hst).precision_run args hds
  rw [foldl_digitValue_zero] at hrun
  exact hrun

/-- The whole width, which is absent or starts with another digit than `0`. -/
theorem width_part {ds : List UInt8} (h : Reading ctx₀ st spec ctx) (hst : st.inConversion = true)
    (hnum : st.inNumber = false) (hds : ∀ c ∈ ds, isDigit c = true) (hhead : ds.head? ≠ some (chr '0'))
    (hwidth : spec.width = 0) :
    ∃ st', st'.inConversion = true ∧
      Reading ctx₀ st' { spec with width := BitVec.ofNat 32 (decimal ds) } (runActions args ctx ds) := by
  cases ds with
  | nil =>
    have hzero : BitVec.ofNat 32 (decimal []) = spec.width := hwidth.symm
    rw [hzero]
    exact ⟨st, hst, h⟩
  | cons d ds => exact ⟨.width, rfl, h.width_number args hst hnum hds (by simpa using hhead)⟩

/-- The whole precision, with its dot. -/
theorem precision_part {precision : Option (List UInt8)} (h : Reading ctx₀ st spec ctx)
    (hst : st.inConversion = true) (hds : ∀ ds, precision = some ds → ∀ c ∈ ds, isDigit c = true)
    (hnone : spec.hasPrecision = false) (hprec : spec.precision = 0) :
    ∃ st', st'.inConversion = true ∧
      Reading ctx₀ st'
        { spec with
          hasPrecision := precision.isSome
          precision := BitVec.ofNat 32 (decimal (precision.getD [])) }
        (runActions args ctx (Conversion.precisionText precision)) := by
  cases precision with
  | none =>
    have hzero : BitVec.ofNat 32 (decimal []) = spec.precision := hprec.symm
    refine ⟨st, hst, ?_⟩
    rw [Option.isSome_none, Option.getD_none, hzero, ← hnone]
    exact h
  | some ds => exact ⟨.precision, rfl, h.precision_number args hst (hds ds rfl)⟩

end Reading

/-! ### The whole conversion -/

/-- The automaton reads a well-formed conversion: it is about to run it, with the spec that it denotes, and has
    appended nothing and consumed no argument. -/
theorem runActions_directive (args : VaList) (ctx : ParserCtx) (d : Directive) (h : ctx.state = .normal) :
    let ctx' := runActions args ctx d.text
    ctx'.state = .specifier ∧ ctx'.buffer = ctx.buffer ∧ ctx'.argIndex = ctx.argIndex ∧ ctx'.spec = d.spec ∧
      ctx'.spec.width.toInt = decimal d.width ∧ ctx'.spec.precision.toInt = decimal (d.precision.getD []) := by
  intro ctx'
  obtain ⟨s₁, hs₁, hnum, h₁⟩ := (Reading.percent args h).flags_run args rfl rfl d.flags_ok
  rw [foldl_flagTable] at h₁
  obtain ⟨s₂, hs₂, h₂⟩ := h₁.width_part args hs₁ hnum d.width_ok d.width_head rfl
  obtain ⟨s₃, hs₃, h₃⟩ := h₂.precision_part args hs₂ d.precision_ok rfl rfl
  obtain ⟨s₄, hs₄, h₄⟩ := h₃.length_run args hs₃ d.length_ok
  have h₅ := h₄.conv args hs₄ d.conv_ok
  have hrun : Reading ctx .specifier d.spec ctx' := by
    have htext : ctx' = ctxStep args (runActions args (runActions args (runActions args (runActions args
        (ctxStep args ctx (chr '%')) d.flags) d.width) (Conversion.precisionText d.precision)) d.length) d.conv := by
      simp only [ctx', Conversion.text, Conversion.modifiers, runActions, List.foldl_cons, List.foldl_append,
        List.foldl_nil]
    rw [htext]
    refine ⟨h₅.state, ?_, h₅.buffer, h₅.argIndex⟩
    rw [h₅.settled]
    simp [Conversion.spec]
  have hspec : ctx'.spec = d.spec := by
    have := hrun.settled
    rwa [settled, hrun.state] at this
  refine ⟨hrun.state, hrun.buffer, hrun.argIndex, hspec, ?_, ?_⟩
  · rw [hspec, Conversion.spec, BitVec.toInt_ofNat', Int.bmod_eq_of_le] <;> have := d.width_lt <;> omega
  · rw [hspec, Conversion.spec, BitVec.toInt_ofNat', Int.bmod_eq_of_le] <;> have := d.precision_lt <;> omega

/-- `%-012.3ld` -/
def longDirective : Directive where
  flags := cstr "-0"
  width := cstr "12"
  precision := some (cstr "3")
  length := cstr "l"
  conv := chr 'd'
  flags_ok := by decide +kernel
  width_ok := by decide +kernel
  width_head := by decide +kernel
  width_lt := by decide +kernel
  precision_ok := by
    rintro ds ⟨⟩
    decide +kernel
  precision_lt := by decide +kernel
  length_ok := by decide +kernel
  conv_ok := decimalConversion.conv_ok

theorem runActions_longDirective :
    let ctx' := runActions (fun _ => {}) { buffer := Buffer.empty bufferSize } longDirective.text
    longDirective.text = cstr "%-012.3ld" ∧ ctx'.state = .specifier ∧ ctx'.spec.leftAlign = true ∧
      ctx'.spec.width.toInt = 12 ∧ ctx'.spec.precision.toInt = 3 := by
  intro ctx'
  obtain ⟨hst, -, -, hspec, hwidth, hprec⟩ :=
    runActions_directive (fun _ => {}) { buffer := Buffer.empty bufferSize } longDirective rfl
  exact ⟨by decide, hst, by rw [hspec]; rfl, hwidth, hprec⟩

end Minitalk.Log
