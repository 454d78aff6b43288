import Mathlib.Data.List.Chain
import Minitalk.Log.Directive

/-! # What a format stands for

Every format is a list of parts: literal characters, and what starts with `%`. A conversion takes the character behind
it with it; at the end of the format it stands for nothing, like one with an unknown letter. The line of `log_msg` is in
its buffer exactly when the level and the parts have room in front of the newline and the NUL. -/

namespace Minitalk.Log
open CText

/-! ### Modifiers -/

/-- What may stand between `%` and the letter of a conversion, in any order. -/
inductive Modifier where
  | flag (c : UInt8) (hc : c ∈ cstr "-+ #0")
  | width (d : UInt8) (ds : List UInt8) (hds : ∀ c ∈ d :: ds, isDigit c = true) (h0 : d ≠ chr '0')
  | precision (ds : List UInt8) (hds : ∀ c ∈ ds, isDigit c = true)
  | length (c : UInt8) (hc : c ∈ cstr "lhL")

namespace Modifier

def text : Modifier → List UInt8
  | flag c _ => [c]
  | width d ds _ _ => d :: ds
  | precision ds _ => chr '.' :: ds
  | length c _ => [c]

/-- The spec with what the modifier sets in it. -/
def set (spec : FormatSpec) : Modifier → FormatSpec
  | flag c _ => flagTable c spec
  | width d ds _ _ => { spec with width := BitVec.ofNat 32 (decimal (d :: ds)) }
  | precision ds _ => { spec with hasPrecision := true, precision := BitVec.ofNat 32 (decimal ds) }
  | length c _ => { spec with lengthMod := c }

def isNumber : Modifier → Bool
  | width .. | precision .. => true
  | _ => false

/-- A digit behind a number would belong to it. -/
def Apart (a b : Modifier) : Prop := a.isNumber = true → ∀ c, b.text.head? = some c → isDigit c = false

theorem isModifier (m : Modifier) {c : UInt8} (h : c ∈ m.text) : IsModifier c := by
  cases m with
  | flag d hd => exact isModifier_flag (List.mem_singleton.mp h ▸ hd)
  | width d ds hds => exact isModifier_digit (hds c h)
  | precision ds hds =>
    rcases List.mem_cons.mp h with rfl | hc
    · exact isModifier_dot
    · exact isModifier_digit (hds c hc)
  | length d hd => exact isModifier_length (List.mem_singleton.mp h ▸ hd)

end Modifier

structure Modifiers where
  list : List Modifier
  apart : list.IsChain Modifier.Apart

namespace Modifiers

def text (ms : Modifiers) : List UInt8 := ms.list.flatMap Modifier.text

/-- The `t_format_spec` of the modifiers and a letter. -/
def spec (ms : Modifiers) (conv : UInt8) : FormatSpec := { ms.list.foldl Modifier.set {} with specifier := conv }

theorem isModifier (ms : Modifiers) {c : UInt8} (h : c ∈ ms.text) : IsModifier c := by
  obtain ⟨m, -, hm⟩ := List.mem_flatMap.mp h
  exact m.isModifier hm

end Modifiers

/-! ### Parts -/

inductive Part where
  | literal (c : UInt8) (hc : c ≠ chr '%')
  | percent (ms : Modifiers)
  /-- The character behind the letter belongs to the conversion. -/
  | conversion (ms : Modifiers) (conv : UInt8) (hconv : conv ∈ cstr "sdiuxXocpfgG") (behind : UInt8)
  | unknown (ms : Modifiers) (c : UInt8) (hc : ∀ k, charClassTable c k = false)

namespace Part

def text : Part → List UInt8
  | literal c _ => [c]
  | percent ms => chr '%' :: (ms.text ++ [chr '%'])
  | conversion ms conv _ behind => chr '%' :: (ms.text ++ [conv, behind])
  | unknown ms c _ => chr '%' :: (ms.text ++ [c])

/-- What the part stands for, with the n-th argument for a conversion. -/
def events (n : Nat) : Part → List Event
  | literal c _ => [.literal c]
  | percent _ => [.percent]
  | conversion ms conv _ _ => [.conversion (ms.spec conv) n]
  | unknown .. => []

/-- How many arguments it takes. -/
def arguments : Part → Nat
  | conversion .. => 1
  | _ => 0

end Part

/-- The end of a format behind its parts. -/
inductive Ending where
  | complete
  | unfinished (ms : Modifiers)
  | unrun (ms : Modifiers) (conv : UInt8) (hconv : conv ∈ cstr "sdiuxXocpfgG")

def Ending.text : Ending → List UInt8
  | complete => []
  | unfinished ms => chr '%' :: ms.text
  | unrun ms conv _ => chr '%' :: (ms.text ++ [conv])

structure Layout where
  parts : List Part
  ending : Ending

def partEvents (n : Nat) : List Part → List Event
  | [] => []
  | p :: ps => p.events n ++ partEvents (n + p.arguments) ps

namespace Layout

def text (l : Layout) : List UInt8 := l.parts.flatMap Part.text ++ l.ending.text

/-- The bytes that the parts stand for. -/
def shown (args : VaList) (l : Layout) : List UInt8 := (partEvents 0 l.parts).flatMap (Event.text args)

end Layout

/-! ### What the automaton does with the parts -/

section Steps
variable {args : VaList} {ctx : ParserCtx} {c : UInt8}

/-- Only a conversion that is run takes an argument. -/
theorem ctxStep_argIndex (h : ctx.state ≠ .specifier) : (ctxStep args ctx c).argIndex = ctx.argIndex := by
  have hpercent : ∀ ctx : ParserCtx, (actionPercent ctx c).2.argIndex = ctx.argIndex := by
    intro ctx
    simp only [actionPercent, handlePercentChar, handleFlagChar, handleOtherChars]
    repeat' split
    all_goals rfl
  simp only [ctxStep]
  cases hs : ctx.state with
  | specifier => exact absurd hs h
  | normal =>
    simp only [stateTransitionTable, actionNormal]
    split <;> rfl
  | error => rfl
  | percent => exact hpercent ctx
  | length => exact hpercent ctx
  | flags =>
    simp only [stateTransitionTable, actionFlags]
    split
    · rfl
    · exact hpercent ctx
  | width =>
    simp only [stateTransitionTable, actionWidth]
    split
    · rfl
    · split
      · rfl
      · exact hpercent _
  | precision =>
    simp only [stateTransitionTable, actionPrecision]
    split
    · rfl
    · exact hpercent _

theorem ctxStep_of_unknown (hst : ctx.state.inConversion = true) (hc : ∀ k, charClassTable c k = false) :
    (ctxStep args ctx c).state = .normal := by
  have hnext := next_of_inConversion args ctx (c := c) (P := (· = .error)) hst (by simp [hc]) (by simp [hc])
    (by simp [hc]) fun ctx => by simp [actionPercent, handleOtherChars, hc]
  simp [ctxStep, hnext]

/-- The conversion is run with the next argument, whatever the character is. -/
theorem ctxStep_specifier (hst : ctx.state = .specifier) (hspec : ctx.spec.specifier ∈ cstr "sdiuxXocpfgG") :
    (ctxStep args ctx c).state = .normal ∧ (ctxStep args ctx c).argIndex = ctx.argIndex + 1 := by
  obtain ⟨action, haction⟩ : ∃ action, specTable ctx.spec.specifier = some action := by
    have hall : (cstr "sdiuxXocpfgG").all (fun c => (specTable c).isSome) = true := by decide
    exact Option.isSome_iff_exists.mp (List.all_eq_true.mp hall _ hspec)
  simp [ctxStep, hst, stateTransitionTable, actionSpecifier, haction]

end Steps

/-- The states in which a digit would go on with a number are those behind a number. -/
theorem Reading.modifier (args : VaList) {ctx₀ ctx : ParserCtx} {st : FormatState} {spec : FormatSpec}
    (h : Reading ctx₀ st spec ctx) (hst : st.inConversion = true) (m : Modifier)
    (hfirst : st.inNumber = true → ∀ c, m.text.head? = some c → isDigit c = false) :
    ∃ st', st'.inConversion = true ∧ st'.inNumber = m.isNumber ∧
      Reading ctx₀ st' (m.set spec) (runActions args ctx m.text) := by
  cases m with
  | flag c hc =>
    refine ⟨.flags, rfl, rfl, h.flag args hst hc fun hnum h0 => ?_⟩
    have hdigit := hfirst hnum c rfl
    rw [h0] at hdigit
    exact absurd hdigit (by decide)
  | width d ds hds h0 =>
    have hnum : st.inNumber = false := Bool.eq_false_iff.mpr fun hnum => by
      have hdigit := hfirst hnum d rfl
      rw [hds d List.mem_cons_self] at hdigit
      cases hdigit
    exact ⟨.width, rfl, rfl, h.width_number args hst hnum hds h0⟩
  | precision ds hds => exact ⟨.precision, rfl, rfl, h.precision_number args hst hds⟩
  | length c hc => exact ⟨.length, rfl, rfl, h.lengthLetter args hst hc⟩

theorem Reading.modifiers (args : VaList) {ctx₀ ctx : ParserCtx} {st : FormatState} {spec : FormatSpec}
    {list : List Modifier} (h : Reading ctx₀ st spec ctx) (hst : st.inConversion = true)
    (happart : list.IsChain Modifier.Apart)
    (hfirst : st.inNumber = true → ∀ m ∈ list.head?, ∀ c, m.text.head? = some c → isDigit c = false) :
    ∃ st', st'.inConversion = true ∧
      Reading ctx₀ st' (list.foldl Modifier.set spec) (runActions args ctx (list.flatMap Modifier.text)) := by
  induction list generalizing ctx st spec with
  | nil => exact ⟨st, hst, h⟩
  | cons m ms ih =>
    obtain ⟨hnext, happart⟩ := List.isChain_cons.mp happart
    obtain ⟨st', hst', hnum, h'⟩ := h.modifier args hst m fun hnum => hfirst hnum m rfl
    rw [List.flatMap_cons, runActions, List.foldl_append]
    exact ih h' hst' happart fun h b hb => hnext b hb (hnum ▸ h)

/-! ### The events of the parts -/

section Events
variable {sc : Scanner}

theorem Scanner.events_cons (args : VaList) (ctx : ParserCtx) (c : UInt8) (w : List UInt8) :
    ctx.toScanner.events (c :: w) = ctx.observe c ++ (ctxStep args ctx c).toScanner.events w := by
  rw [events, ctxStep_toScanner]

/-- Between `%` and the letter nothing happens. -/
theorem events_run {ctx : ParserCtx} {ms : List UInt8} (args : VaList) (hst : ctx.state.inConversion = true)
    (hms : ∀ c ∈ ms, IsModifier c) (w : List UInt8) :
    ctx.toScanner.events (ms ++ w) = (runActions args ctx ms).toScanner.events w := by
  induction ms generalizing ctx with
  | nil => rfl
  | cons m ms ih =>
    have hm : IsModifier m := hms m List.mem_cons_self
    rw [List.cons_append, Scanner.events_cons args, observe_of_inConversion hst, if_neg hm.ne_percent, List.nil_append]
    exact ih (ctxStep_of_modifier hst hm) fun c hc => hms c (List.mem_cons_of_mem m hc)

/-- The automaton behind `%` and modifiers. -/
theorem events_modified (hst : sc.state = .normal) (ms : Modifiers) :
    ∃ ctx : ParserCtx, ctx.state.inConversion = true ∧ settled ctx = ms.list.foldl Modifier.set {} ∧
      ctx.argIndex = sc.argIndex ∧ ∀ w, sc.events (chr '%' :: (ms.text ++ w)) = ctx.toScanner.events w := by
  let start : ParserCtx := { toScanner := sc, buffer := Buffer.empty 0 }
  have hstart : start.state = .normal := hst
  have hpercent := Reading.percent (fun _ => {}) hstart
  obtain ⟨st, hin, hreading⟩ := hpercent.modifiers (fun _ => {}) rfl ms.apart (by simp [FormatState.inNumber])
  refine ⟨_, hreading.state ▸ hin, hreading.settled, hreading.argIndex, fun w => ?_⟩
  have hcons := Scanner.events_cons (fun _ => {}) start (chr '%') (ms.text ++ w)
  rw [observe_percent hst, List.nil_append,
    events_run (fun _ => {}) (by rw [hpercent.state]; rfl) fun c hc => ms.isModifier hc] at hcons
  exact hcons

/-- The letter of a conversion. -/
theorem events_letter (hst : sc.state = .normal) (ms : Modifiers) {conv : UInt8} (hconv : conv ∈ cstr "sdiuxXocpfgG") :
    ∃ ctx : ParserCtx, ctx.state = .specifier ∧ ctx.spec = ms.spec conv ∧ ctx.argIndex = sc.argIndex ∧
      ∀ w, sc.events (chr '%' :: (ms.text ++ conv :: w)) = ctx.toScanner.events w := by
  obtain ⟨ctx, hin, hset, harg, hevents⟩ := events_modified hst ms
  have hreading : Reading ctx ctx.state (ms.list.foldl Modifier.set {}) ctx := ⟨rfl, hset, rfl, rfl⟩
  have hletter := hreading.conv (fun _ => {}) hin hconv
  refine ⟨_, hletter.state, ?_, hletter.argIndex.trans harg, fun w => ?_⟩
  · have hspec := hletter.settled
    rwa [settled, hletter.state] at hspec
  · rw [hevents, Scanner.events_cons fun _ => {}, observe_of_inConversion hin,
      if_neg (class_ne_percent (by decide) (class_spec hconv)), List.nil_append]

theorem events_part (hst : sc.state = .normal) (p : Part) :
    ∃ sc' : Scanner, sc'.state = .normal ∧ sc'.argIndex = sc.argIndex + p.arguments ∧
      ∀ w, sc.events (p.text ++ w) = p.events sc.argIndex ++ sc'.events w := by
  cases p with
  | literal c hc =>
    let ctx : ParserCtx := { toScanner := sc, buffer := Buffer.empty 0 }
    have hne : ctx.state ≠ .specifier := by
      rw [show ctx.state = .normal from hst]
      decide
    refine ⟨(ctxStep (fun _ => {}) ctx c).toScanner, ctxStep_literal hst hc, ctxStep_argIndex hne, fun w => ?_⟩
    exact (Scanner.events_cons (fun _ => {}) ctx c w).trans (by rw [observe_literal hst hc]; rfl)
  | percent ms =>
    obtain ⟨ctx, hin, -, harg, hevents⟩ := events_modified hst ms
    have hne : ctx.state ≠ .specifier := by
      intro h
      rw [h] at hin
      cases hin
    refine ⟨(ctxStep (fun _ => {}) ctx (chr '%')).toScanner, ctxStep_of_percent hin rfl,
      (ctxStep_argIndex hne).trans harg, fun w => ?_⟩
    rw [Part.text, List.cons_append, List.append_assoc, hevents, List.singleton_append,
      Scanner.events_cons fun _ => {}, observe_of_inConversion hin, if_pos rfl]
    rfl
  | conversion ms conv hconv behind =>
    obtain ⟨ctx, hspecifier, hspec, harg, hevents⟩ := events_letter hst ms hconv
    have hletter : ctx.spec.specifier ∈ cstr "sdiuxXocpfgG" := by
      rw [hspec]
      exact hconv
    have hstep : (ctxStep (fun _ => {}) ctx behind).state = .normal ∧
        (ctxStep (fun _ => {}) ctx behind).argIndex = ctx.argIndex + 1 := ctxStep_specifier hspecifier hletter
    obtain ⟨hnormal, hargs⟩ := hstep
    refine ⟨(ctxStep (fun _ => {}) ctx behind).toScanner, hnormal, by rw [hargs, harg]; rfl, fun w => ?_⟩
    have hobserve : ctx.observe behind = [.conversion (ms.spec conv) sc.argIndex] := by
      rw [Scanner.observe, hspecifier, ← hspec, ← harg]
    rw [Part.text, List.cons_append, List.append_assoc, List.cons_append, hevents, List.singleton_append,
      Scanner.events_cons fun _ => {}, hobserve]
    rfl
  | unknown ms c hc =>
    obtain ⟨ctx, hin, -, harg, hevents⟩ := events_modified hst ms
    have hne : ctx.state ≠ .specifier := by
      intro h
      rw [h] at hin
      cases hin
    have hpercent : c ≠ chr '%' := by
      rintro rfl
      exact absurd (hc .percent) (by decide)
    refine ⟨(ctxStep (fun _ => {}) ctx c).toScanner, ctxStep_of_unknown hin hc, (ctxStep_argIndex hne).trans harg,
      fun w => ?_⟩
    rw [Part.text, List.cons_append, List.append_assoc, hevents, List.singleton_append,
      Scanner.events_cons fun _ => {}, observe_of_inConversion hin, if_neg hpercent]
    rfl

theorem events_ending (hst : sc.state = .normal) (e : Ending) : sc.events e.text = [] := by
  cases e with
  | complete => rfl
  | unfinished ms =>
    obtain ⟨ctx, -, -, -, hevents⟩ := events_modified hst ms
    have hend := hevents []
    rwa [List.append_nil] at hend
  | unrun ms conv hconv =>
    obtain ⟨ctx, -, -, -, hevents⟩ := events_letter hst ms hconv
    exact hevents []

theorem events_parts (hst : sc.state = .normal) (parts : List Part) (ending : Ending) :
    sc.events (parts.flatMap Part.text ++ ending.text) = partEvents sc.argIndex parts := by
  induction parts generalizing sc with
  | nil => exact events_ending hst ending
  | cons p ps ih =>
    obtain ⟨sc', hst', harg, hevents⟩ := events_part hst p
    rw [List.flatMap_cons, List.append_assoc, hevents, ih hst', harg, partEvents]

theorem rendering_layout (args : VaList) {fmt : CString} {l : Layout} (h : l.text = fmt.1) :
    rendering args fmt = l.shown args := by
  have hevents : ({} : Scanner).events l.text = partEvents 0 l.parts := events_parts rfl l.parts l.ending
  rw [rendering, Scanner.rendering, ← h, hevents, Layout.shown]

end Events

/-! ### Every format has a layout -/

/-- The modifiers at the front of a text, and what is behind them. -/
def Modified (cs : List UInt8) (ms : Modifiers) (rest : List UInt8) : Prop :=
  cs = ms.text ++ rest ∧ ∀ c ∈ rest.head?, ¬IsModifier c

theorem Modified.cons {m : Modifier} {ms : Modifiers} {cs rest : List UInt8} (h : Modified cs ms rest)
    (hapart : m.isNumber = true → ∀ c, cs.head? = some c → isDigit c = false) :
    ∃ ms, Modified (m.text ++ cs) ms rest := by
  obtain ⟨rfl, hrest⟩ := h
  have hchain : (m :: ms.list).IsChain Modifier.Apart := by
    refine ms.apart.cons fun b hb hnum c hc => hapart hnum c ?_
    obtain ⟨list, hlist⟩ : ∃ list, ms.list = b :: list := List.head?_eq_some_iff.mp hb
    rw [Modifiers.text, hlist, List.flatMap_cons, List.append_assoc, List.head?_append, hc, Option.some_or]
  exact ⟨⟨m :: ms.list, hchain⟩, (List.append_assoc ..).symm, hrest⟩

theorem exists_modified (cs : List UInt8) : ∃ ms rest, Modified cs ms rest := by
  induction hn : cs.length using Nat.strong_induction_on generalizing cs with
  | _ n ih =>
    cases cs with
    | nil => exact ⟨⟨[], .nil⟩, [], rfl, by simp⟩
    | cons c cs =>
      rw [List.length_cons] at hn
      have hsplit : cs.takeWhile isDigit ++ cs.dropWhile isDigit = cs := List.takeWhile_append_dropWhile
      have hdigits : ∀ d ∈ cs.takeWhile isDigit, isDigit d = true :=
        List.all_eq_true.mp List.all_takeWhile
      have hbehind : ∀ d, (cs.dropWhile isDigit).head? = some d → isDigit d = false := by
        intro d hd
        have hnot := List.head?_dropWhile_not isDigit cs
        rwa [hd] at hnot
      obtain ⟨ms₁, rest₁, h₁⟩ := ih cs.length (by omega) cs rfl
      have hle : (cs.dropWhile isDigit).length ≤ cs.length := (List.dropWhile_suffix isDigit).length_le
      obtain ⟨ms₂, rest₂, h₂⟩ := ih (cs.dropWhile isDigit).length (by omega) _ rfl
      by_cases hflag : c ∈ cstr "-+ #0"
      · exact (h₁.cons (m := .flag c hflag) nofun).imp fun ms h => ⟨rest₁, h⟩
      by_cases hlength : c ∈ cstr "lhL"
      · exact (h₁.cons (m := .length c hlength) nofun).imp fun ms h => ⟨rest₁, h⟩
      by_cases hdigit : isDigit c = true
      · have h0 : c ≠ chr '0' := by
          rintro rfl
          exact hflag (by decide)
        have hall : ∀ d ∈ c :: cs.takeWhile isDigit, isDigit d = true := List.forall_mem_cons.mpr ⟨hdigit, hdigits⟩
        obtain ⟨ms, h⟩ := h₂.cons (m := .width c (cs.takeWhile isDigit) hall h0) fun _ => hbehind
        rw [Modifier.text, List.cons_append, hsplit] at h
        exact ⟨ms, rest₂, h⟩
      by_cases hdot : c = chr '.'
      · subst hdot
        obtain ⟨ms, h⟩ := h₂.cons (m := .precision (cs.takeWhile isDigit) hdigits) fun _ => hbehind
        rw [Modifier.text, List.cons_append, hsplit] at h
        exact ⟨ms, rest₂, h⟩
      refine ⟨⟨[], .nil⟩, c :: cs, rfl, ?_⟩
      rintro d ⟨⟩ (h | h | h | h)
      · exact hflag (by simpa [charClassTable] using h)
      · exact hdigit h
      · exact hdot (by simpa [charClassTable] using h)
      · exact hlength (by simpa [charClassTable] using h)

theorem Layout.exists_cons (p : Part) {cs : List UInt8} (h : ∃ l : Layout, l.text = cs) :
    ∃ l : Layout, l.text = p.text ++ cs := by
  obtain ⟨l, rfl⟩ := h
  exact ⟨⟨p :: l.parts, l.ending⟩, List.append_assoc ..⟩

theorem exists_layout (cs : List UInt8) : ∃ l : Layout, l.text = cs := by
  induction hn : cs.length using Nat.strong_induction_on generalizing cs with
  | _ n ih =>
    cases cs with
    | nil => exact ⟨⟨[], .complete⟩, rfl⟩
    | cons c cs =>
      rw [List.length_cons] at hn
      by_cases hc : c = chr '%'
      · subst hc
        obtain ⟨ms, rest, rfl, hrest⟩ := exists_modified cs
        rw [List.length_append] at hn
        cases rest with
        | nil => exact ⟨⟨[], .unfinished ms⟩, by rw [List.append_nil]; rfl⟩
        | cons d rest =>
          rw [List.length_cons] at hn
          have hnot : ¬IsModifier d := hrest d rfl
          by_cases hconv : d ∈ cstr "sdiuxXocpfgG"
          · cases rest with
            | nil => exact ⟨⟨[], .unrun ms d hconv⟩, rfl⟩
            | cons b rest =>
              rw [List.length_cons] at hn
              have hpart := Layout.exists_cons (.conversion ms d hconv b) (ih rest.length (by omega) rest rfl)
              rwa [Part.text, List.cons_append, List.append_assoc] at hpart
          by_cases hpercent : d = chr '%'
          · subst hpercent
            have hpart := Layout.exists_cons (.percent ms) (ih rest.length (by omega) rest rfl)
            rwa [Part.text, List.cons_append, List.append_assoc] at hpart
          have hunknown : ∀ k, charClassTable d k = false := by
            intro k
            refine Bool.eq_false_iff.mpr fun h => ?_
            cases k with
            | digit => exact hnot (Or.inr (Or.inl h))
            | flag => exact hnot (Or.inl h)
            | spec => exact hconv (by simpa [charClassTable] using h)
            | length => exact hnot (Or.inr (Or.inr (Or.inr h)))
            | dot => exact hnot (Or.inr (Or.inr (Or.inl h)))
            | percent => exact hpercent (by simpa [charClassTable] using h)
          have hpart := Layout.exists_cons (.unknown ms d hunknown) (ih rest.length (by omega) rest rfl)
          rwa [Part.text, List.cons_append, List.append_assoc] at hpart
      · exact Layout.exists_cons (.literal c hc) (ih cs.length (by omega) cs rfl)

/-- However a format is laid out, `log_msg` is in its buffer exactly when the level and what the parts stand for have at
    most 1022 bytes; and every format has a layout. -/
theorem logMsg_safe_iff (enabled : Bool) (level : Int) (fmt : CString) (args : VaList) :
    (∃ l : Layout, l.text = fmt.1) ∧ ∀ l : Layout, l.text = fmt.1 →
      (LogSafe enabled level fmt args ↔
        enabled = false ∨ (levelString level).length + (l.shown args).length ≤ 1022) := by
  refine ⟨exists_layout fmt.1, fun l hl => ?_⟩
  rw [logSafe_iff, logText, rendering_layout args hl, List.length_append]

end Minitalk.Log
