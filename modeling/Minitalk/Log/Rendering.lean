import Minitalk.Log.Automaton

/-! # What the automaton renders

What the automaton does at each character, observed from its state: an unbounded text, of which the buffer shows
the first 1023 bytes. The two stores behind it, a newline and a NUL, are in the buffer exactly when that text,
with the level in front, has at most 1022 bytes. -/

namespace Minitalk.Log
open CText

inductive Event where
  | literal (c : UInt8)
  | percent
  /-- The conversion that was read, with the n-th argument. -/
  | conversion (spec : FormatSpec) (arg : Nat)
deriving DecidableEq

def Event.text (args : VaList) : Event → List UInt8
  | literal c => [c]
  | percent => [chr '%']
  | conversion spec n =>
    match specTable spec.specifier with
    | some action => action.text (args n) spec
    | none => [chr '%', spec.specifier]

/-- What the function of the state does with the character. -/
def Scanner.observe (sc : Scanner) (c : UInt8) : List Event :=
  match sc.state with
  | .normal => if c = chr '%' then [] else [.literal c]
  | .specifier => [.conversion sc.spec sc.argIndex]
  | .error => [.percent, .literal c]
  | _ => if c = chr '%' then [.percent] else []

/-- The state part of a step: neither the buffer nor the arguments matter for it. -/
def Scanner.step (sc : Scanner) (c : UInt8) : Scanner :=
  (ctxStep (fun _ => {}) { toScanner := sc, buffer := Buffer.empty 0 } c).toScanner

/-- The events of a format, read to its end. -/
def Scanner.events (sc : Scanner) : List UInt8 → List Event
  | [] => []
  | c :: cs => sc.observe c ++ (sc.step c).events cs

def Scanner.rendering (args : VaList) (sc : Scanner) (fmt : List UInt8) : List UInt8 :=
  (sc.events fmt).flatMap (Event.text args)

def rendering (args : VaList) (fmt : CString) : List UInt8 := Scanner.rendering args {} fmt.1

section Step
variable {args : VaList} {ctx : ParserCtx} {c : UInt8}

theorem actionPercent_buffer :
    (actionPercent ctx c).2.buffer = if c = chr '%' then bufferAppendChar ctx.buffer (chr '%') else ctx.buffer := by
  by_cases hc : c = chr '%'
  · simp [actionPercent, charClassTable, hc, handlePercentChar]
  · simp only [actionPercent, handleFlagChar, handleOtherChars]
    have : charClassTable c .percent = false := by simpa [charClassTable] using hc
    simp only [this, hc, Bool.false_eq_true, if_false]
    repeat' split
    all_goals rfl

theorem class_ne_percent {k : CharClass} (hk : k ≠ .percent) (h : charClassTable c k = true) : c ≠ chr '%' := by
  rintro rfl
  cases k <;> first | exact absurd rfl hk | exact absurd h (by decide)

theorem actionFlags_buffer :
    (actionFlags ctx c).2.buffer = if c = chr '%' then bufferAppendChar ctx.buffer (chr '%') else ctx.buffer := by
  unfold actionFlags
  split
  · rw [if_neg (class_ne_percent (k := .flag) (by decide) ‹_›)]
  · exact actionPercent_buffer

theorem actionWidth_buffer :
    (actionWidth ctx c).2.buffer = if c = chr '%' then bufferAppendChar ctx.buffer (chr '%') else ctx.buffer := by
  unfold actionWidth
  split
  · rw [if_neg (class_ne_percent (k := .digit) (by decide) ‹_›)]
  · dsimp only
    split
    · rw [if_neg (class_ne_percent (k := .dot) (by decide) ‹_›)]
    · exact actionPercent_buffer

theorem actionPrecision_buffer :
    (actionPrecision ctx c).2.buffer =
      if c = chr '%' then bufferAppendChar ctx.buffer (chr '%') else ctx.buffer := by
  unfold actionPrecision
  split
  · rw [if_neg (class_ne_percent (k := .digit) (by decide) ‹_›)]
  · exact actionPercent_buffer

theorem shows_ctxStep (args : VaList) (c : UInt8) {vs : List UInt8} (h : Shows ctx.buffer vs) :
    Shows (ctxStep args ctx c).buffer (vs ++ (ctx.observe c).flatMap (Event.text args)) := by
  have hpercent : ∀ {b : TBuffer}, b = (if c = chr '%' then bufferAppendChar ctx.buffer (chr '%') else ctx.buffer) →
      Shows b (vs ++ (if c = chr '%' then [Event.percent] else []).flatMap (Event.text args)) := by
    rintro b rfl
    split
    · exact h.appendChar _
    · simpa using h
  simp only [ctxStep, Scanner.observe]
  cases hst : ctx.state with
  | normal =>
    simp only [stateTransitionTable, actionNormal]
    split
    · simpa using h
    · exact h.appendChar c
  | percent => exact hpercent actionPercent_buffer
  | flags => exact hpercent actionFlags_buffer
  | width => exact hpercent actionWidth_buffer
  | precision => exact hpercent actionPrecision_buffer
  | length => exact hpercent actionPercent_buffer
  | specifier =>
    simp only [stateTransitionTable, actionSpecifier, List.flatMap_cons, List.flatMap_nil, List.append_nil,
      Event.text]
    cases specTable ctx.spec.specifier with
    | some action => exact h.action _ _ action
    | none => simpa using (h.appendChar (chr '%')).appendChar ctx.spec.specifier
  | error => simpa [stateTransitionTable, actionError, Event.text] using (h.appendChar (chr '%')).appendChar c

/-- The state part of an action, whatever the buffer and the arguments. -/
theorem actionPercent_toScanner (sc : Scanner) (b b' : TBuffer) :
    (actionPercent { toScanner := sc, buffer := b } c).1 = (actionPercent { toScanner := sc, buffer := b' } c).1 ∧
      (actionPercent { toScanner := sc, buffer := b } c).2.toScanner =
        (actionPercent { toScanner := sc, buffer := b' } c).2.toScanner := by
  simp only [actionPercent, handlePercentChar, handleFlagChar, handleOtherChars]
  repeat' split
  all_goals exact ⟨rfl, rfl⟩

theorem stateTransitionTable_toScanner (sc : Scanner) (st : FormatState) (args args' : VaList) (b b' : TBuffer) :
    (stateTransitionTable args st { toScanner := sc, buffer := b } c).1 =
        (stateTransitionTable args' st { toScanner := sc, buffer := b' } c).1 ∧
      (stateTransitionTable args st { toScanner := sc, buffer := b } c).2.toScanner =
        (stateTransitionTable args' st { toScanner := sc, buffer := b' } c).2.toScanner := by
  cases st with
  | normal =>
    simp only [stateTransitionTable, actionNormal]
    split <;> exact ⟨rfl, rfl⟩
  | percent => exact actionPercent_toScanner _ b b'
  | flags =>
    simp only [stateTransitionTable, actionFlags]
    split
    · exact ⟨rfl, rfl⟩
    · exact actionPercent_toScanner _ b b'
  | width =>
    simp only [stateTransitionTable, actionWidth]
    split
    · exact ⟨rfl, rfl⟩
    · split
      · exact ⟨rfl, rfl⟩
      · exact actionPercent_toScanner { sc with spec.width := sc.tempNum } b b'
  | precision =>
    simp only [stateTransitionTable, actionPrecision]
    split
    · exact ⟨rfl, rfl⟩
    · exact actionPercent_toScanner { sc with spec.precision := sc.tempNum } b b'
  | length => exact actionPercent_toScanner _ b b'
  | specifier =>
    simp only [stateTransitionTable, actionSpecifier]
    split <;> exact ⟨rfl, rfl⟩
  | error => exact ⟨rfl, rfl⟩

theorem ctxStep_toScanner : (ctxStep args ctx c).toScanner = ctx.toScanner.step c := by
  obtain ⟨sc, b⟩ := ctx
  obtain ⟨hnext, hctx⟩ :=
    stateTransitionTable_toScanner (c := c) sc sc.state args (fun _ => {}) b (Buffer.empty 0)
  simp only [Scanner.step, ctxStep, hnext, hctx]

end Step

/-! ### Whole formats -/

section Parsing
variable {args : VaList} {b : TBuffer} {vs : List UInt8}

theorem Shows.pos (h : Shows b vs) : b.pos = min 1023 vs.length := by
  rw [Buffer.Holds.pos h, List.length_take]

theorem Shows.of_full (h : Shows b vs) (hfull : ¬b.pos < 1023) (ws : List UInt8) : Shows b (vs ++ ws) := by
  rw [h.pos] at hfull
  unfold Shows
  rwa [List.take_append_of_le_length (by omega)]

theorem shows_ctxParsing {ctx : ParserCtx} (h : Shows ctx.buffer vs) (fmt : List UInt8) :
    Shows (ctxParsing args ctx fmt).buffer (vs ++ ctx.toScanner.rendering args fmt) := by
  induction fmt generalizing ctx vs with
  | nil => simpa [ctxParsing, Scanner.rendering, Scanner.events] using h
  | cons c cs ih =>
    rw [ctxParsing]
    split
    · have := ih (shows_ctxStep args c h)
      rw [ctxStep_toScanner, List.append_assoc] at this
      rwa [Scanner.rendering, Scanner.events, List.flatMap_append]
    · exact h.of_full ‹_› _

theorem shows_vlogMsgAutomata (args : VaList) (h : Shows b vs) (fmt : CString) :
    Shows (vlogMsgAutomata fmt args b) (vs ++ rendering args fmt) :=
  have hctx : Shows ({ buffer := b } : ParserCtx).buffer vs := h
  shows_ctxParsing hctx fmt.1

theorem flatMap_text_literals (cs : List UInt8) : (cs.map Event.literal).flatMap (Event.text args) = cs := by
  rw [List.flatMap_map]
  exact List.flatMap_singleton' cs

theorem Scanner.events_literals {sc : Scanner} (hsc : sc.state = .normal) {fmt : List UInt8}
    (h : ∀ c ∈ fmt, c ≠ chr '%') : sc.events fmt = fmt.map .literal := by
  induction fmt generalizing sc with
  | nil => rfl
  | cons c cs ih =>
    have hc : c ≠ chr '%' := h c List.mem_cons_self
    have hnext : (sc.step c).state = .normal := by
      simp [Scanner.step, ctxStep, stateTransitionTable, hsc, actionNormal, hc]
    rw [Scanner.events, ih hnext fun d hd => h d (List.mem_cons_of_mem c hd)]
    simp [Scanner.observe, hsc, hc]

end Parsing

/-! ### `log_msg` -/

/-- Every index that `log_msg` writes is one of its buffer, and `write` gets at most the whole buffer. -/
def LogSafe (enabled : Bool) (level : Int) (fmt : CString) (args : VaList) : Prop :=
  ∀ r, logMsg enabled level fmt args = some r → r.1.fault = false ∧ r.2 ≤ bufferSize

def logText (level : Int) (fmt : CString) (args : VaList) : List UInt8 := levelString level ++ rendering args fmt

section LogMsg
variable {level : Int} {fmt : CString} {args : VaList}

/-- Where the newline and the NUL go. -/
theorem logMsg_eq (level : Int) (fmt : CString) (args : VaList) :
    ∃ b : TBuffer, b.Holds bufferSize ((logText level fmt args).take 1023 ++ [chr '\n']) ∧
      logMsg true level fmt args = some (b.store b.pos 0, b.pos) := by
  have hempty : Shows (Buffer.empty bufferSize) [] := Buffer.holds_empty bufferSize
  have hlevel := hempty.appendStr (levelString level)
  have hlog := shows_vlogMsgAutomata args hlevel fmt
  refine ⟨_, Buffer.Holds.push hlog ?_ (chr '\n'), by simp [logMsg, putLevelBuffered]⟩
  exact Nat.lt_of_le_of_lt (List.length_take_le _ _) (by decide)

theorem logMsg_fault {b : TBuffer} {vs : List UInt8} (h : b.Holds bufferSize vs) :
    (b.store b.pos 0).fault = true ↔ bufferSize ≤ vs.length := by
  have hlen := h.length_cells
  have hpos := h.pos
  unfold Buffer.store
  split
  · simp only [h.sound, Bool.false_eq_true, false_iff]
    omega
  · simp only [true_iff]
    omega

/-- The NUL is inside the buffer exactly when the text of the line has at most 1022 bytes. -/
theorem logSafe_iff (enabled : Bool) :
    LogSafe enabled level fmt args ↔ enabled = false ∨ (logText level fmt args).length ≤ 1022 := by
  cases enabled with
  | false => simp [LogSafe, logMsg]
  | true =>
    obtain ⟨b, hb, heq⟩ := logMsg_eq level fmt args
    have hlen : ((logText level fmt args).take 1023 ++ [chr '\n']).length =
        min 1023 (logText level fmt args).length + 1 := by simp
    have hfault := logMsg_fault hb
    have hpos := hb.pos
    simp only [LogSafe, heq, Option.some.injEq, forall_eq', Bool.true_eq_false, false_or]
    rw [← Bool.not_eq_true, hfault, hpos, hlen, bufferSize]
    omega

end LogMsg

def letters (n : Nat) : CString :=
  ⟨List.replicate n (chr 'a'), fun c hc => by rw [(List.mem_replicate.mp hc).2]; decide⟩

theorem rendering_letters (n : Nat) (args : VaList) : rendering args (letters n) = List.replicate n (chr 'a') := by
  rw [rendering, Scanner.rendering, Scanner.events_literals rfl, flatMap_text_literals]
  · rfl
  · intro c hc
    rw [(List.mem_replicate.mp hc).2]
    decide

/-- With 1016 letters after `[INFO] `, the NUL is written behind the buffer. -/
theorem logMsg_overflows : ¬LogSafe true 0 (letters 1016) fun _ => {} := by
  intro hsafe
  obtain ⟨b, hb, heq⟩ := logMsg_eq 0 (letters 1016) fun _ => {}
  have hlen : (logText 0 (letters 1016) fun _ => {}).length = 1023 := by
    rw [logText, rendering_letters, List.length_append, List.length_replicate]
    rfl
  have hfault := (logMsg_fault hb).mpr (by rw [List.length_append, List.length_take, hlen]; decide)
  exact absurd (hsafe _ heq).1 (by rw [hfault]; decide)

end Minitalk.Log
