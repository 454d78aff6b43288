import Minitalk.Log.Rendering
import Minitalk.Log.Temp

/-! # What a step of the automaton leaves alone

Every action appends to the buffer at its position, which does not pass 1023, and takes at most one argument. The array
of `format_number` holds the text that is appended for a number. -/

namespace Minitalk.Log
open CArray CText Program

/-- The bytes below the old position are unchanged, and the position is not below it and not above 1023. -/
structure AppendOnly (b b' : TBuffer) : Prop where
  before : b'.cells.take b.pos = b.cells.take b.pos
  size : b'.cells.length = b.cells.length
  fault : b'.fault = b.fault
  mono : b.pos ≤ b'.pos
  limit : b'.pos ≤ 1023

/-- What an action of a state does with the buffer and the arguments. -/
structure Bounded (state : FormatState) (ctx ctx' : ParserCtx) : Prop where
  buffer : AppendOnly ctx.buffer ctx'.buffer
  mono : ctx.argIndex ≤ ctx'.argIndex
  once : ctx'.argIndex ≤ ctx.argIndex + 1
  only : state ≠ .specifier → ctx'.argIndex = ctx.argIndex

section Step
variable {args : VaList} {ctx : ParserCtx} {b b' b'' : TBuffer} {c : UInt8}

theorem AppendOnly.refl (hpos : b.pos ≤ 1023) : AppendOnly b b := ⟨rfl, rfl, rfl, Nat.le_refl _, hpos⟩

theorem AppendOnly.trans (h : AppendOnly b b') (h' : AppendOnly b' b'') : AppendOnly b b'' where
  before := by
    have htake := congrArg (List.take b.pos) h'.before
    rw [List.take_take, List.take_take, Nat.min_eq_left h.mono] at htake
    exact htake.trans h.before
  size := h'.size.trans h.size
  fault := h'.fault.trans h.fault
  mono := Nat.le_trans h.mono h'.mono
  limit := h'.limit

theorem appendOnly_append (hcells : b.cells.length = bufferSize) (hpos : b.pos ≤ 1023) (vs : List UInt8) :
    AppendOnly b (b.append 1023 vs) := by
  have happ := Buffer.appends_append (by rw [hcells]; decide) hpos vs
  have hlen := List.length_take_le (1023 - b.pos) vs
  have hmoved := happ.pos
  exact ⟨happ.before, Buffer.length_append _ _ _, happ.fault, by omega, by omega⟩

theorem SpecAction.run_eq (action : SpecAction) (arg : Arg) (spec : FormatSpec) (b : TBuffer) :
    action.run arg spec b = b.append 1023 (action.text arg spec) := by
  cases action with
  | string => exact bufferAppendStrFormatted_eq b _ spec
  | number signed c => exact bufferAppendStr_eq b _
  | char => rfl
  | float => exact bufferAppendStr_eq b _
  | pointer =>
    rw [SpecAction.run, SpecAction.text, bufferAppendIntFormatted, bufferAppendStr_eq, bufferAppendStr_eq,
      Buffer.append_append]
    rfl

theorem actionPercent_argIndex : (actionPercent ctx c).2.argIndex = ctx.argIndex := by
  simp only [actionPercent, handlePercentChar, handleFlagChar, handleOtherChars]
  repeat' split
  all_goals rfl

theorem stateTransitionTable_argIndex {state : FormatState} (hstate : state ≠ .specifier) :
    (stateTransitionTable args state ctx c).2.argIndex = ctx.argIndex := by
  cases state with
  | normal =>
    simp only [stateTransitionTable, actionNormal]
    split <;> rfl
  | percent | length => exact actionPercent_argIndex
  | flags =>
    simp only [stateTransitionTable, actionFlags]
    split
    · rfl
    · exact actionPercent_argIndex
  | width =>
    simp only [stateTransitionTable, actionWidth]
    split
    · rfl
    · split
      · rfl
      · exact actionPercent_argIndex
  | precision =>
    simp only [stateTransitionTable, actionPrecision]
    split
    · rfl
    · exact actionPercent_argIndex
  | specifier => exact absurd rfl hstate
  | error => rfl

theorem bufferAppendChar_twice (b : TBuffer) (c d : UInt8) :
    bufferAppendChar (bufferAppendChar b c) d = b.append 1023 [c, d] := Buffer.append_append 1023 b [c] [d]

/-- An action appends a text to the buffer. -/
theorem stateTransitionTable_buffer (args : VaList) (state : FormatState) (ctx : ParserCtx) (c : UInt8) :
    ∃ text, (stateTransitionTable args state ctx c).2.buffer = ctx.buffer.append 1023 text := by
  have hpercent : ∀ b : TBuffer, b = (if c = chr '%' then bufferAppendChar ctx.buffer (chr '%') else ctx.buffer) →
      ∃ text, b = ctx.buffer.append 1023 text := by
    rintro b rfl
    split
    · exact ⟨[chr '%'], rfl⟩
    · exact ⟨[], rfl⟩
  cases state with
  | normal =>
    simp only [stateTransitionTable, actionNormal]
    split
    · exact ⟨[], rfl⟩
    · exact ⟨[c], rfl⟩
  | percent | length => exact hpercent _ actionPercent_buffer
  | flags => exact hpercent _ actionFlags_buffer
  | width => exact hpercent _ actionWidth_buffer
  | precision => exact hpercent _ actionPrecision_buffer
  | specifier =>
    simp only [stateTransitionTable, actionSpecifier]
    split
    · rename_i action _
      exact ⟨_, action.run_eq _ _ _⟩
    · exact ⟨_, bufferAppendChar_twice _ _ _⟩
  | error => exact ⟨_, bufferAppendChar_twice _ _ _⟩

theorem bounded_step (hcells : ctx.buffer.cells.length = bufferSize) (hpos : ctx.buffer.pos ≤ 1023)
    (state : FormatState) (c : UInt8) : Bounded state ctx (stateTransitionTable args state ctx c).2 := by
  have hbuffer : AppendOnly ctx.buffer (stateTransitionTable args state ctx c).2.buffer := by
    obtain ⟨text, htext⟩ := stateTransitionTable_buffer args state ctx c
    rw [htext]
    exact appendOnly_append hcells hpos text
  by_cases hstate : state = .specifier
  · subst hstate
    refine ⟨hbuffer, ?_, ?_, absurd rfl⟩
    · simp only [stateTransitionTable, actionSpecifier]
      split
      · exact Nat.le_succ _
      · exact Nat.le_refl _
    · simp only [stateTransitionTable, actionSpecifier]
      split
      · exact Nat.le_refl _
      · exact Nat.le_succ _
  · have hsame : (stateTransitionTable args state ctx c).2.argIndex = ctx.argIndex :=
      stateTransitionTable_argIndex hstate
    exact ⟨hbuffer, Nat.le_of_eq hsame.symm, by omega, fun _ => hsame⟩

theorem appendOnly_ctxParsing (hcells : ctx.buffer.cells.length = bufferSize) (hpos : ctx.buffer.pos ≤ 1023)
    (fmt : List UInt8) : AppendOnly ctx.buffer (ctxParsing args ctx fmt).buffer := by
  induction fmt generalizing ctx with
  | nil => exact .refl hpos
  | cons c cs ih =>
    rw [ctxParsing]
    split
    · have hstep : AppendOnly ctx.buffer (ctxStep args ctx c).buffer := (bounded_step hcells hpos ctx.state c).buffer
      exact hstep.trans (ih (hstep.size.trans hcells) hstep.limit)
    · exact .refl hpos

theorem appendOnly_vlogMsgAutomata (hcells : b.cells.length = bufferSize) (hpos : b.pos ≤ 1023) (args : VaList)
    (fmt : CString) : AppendOnly b (vlogMsgAutomata fmt args b) :=
  have hstart : ({ buffer := b } : ParserCtx).buffer.cells.length = bufferSize := hcells
  appendOnly_ctxParsing hstart hpos fmt.1

theorem length_levelString_le (level : Int) : (levelString level).length ≤ 1023 := by
  unfold levelString
  repeat' split
  all_goals decide

theorem holds_level (level : Int) :
    (putLevelBuffered (Buffer.empty bufferSize) level).Holds bufferSize (levelString level) := by
  have hempty : Shows (Buffer.empty bufferSize) [] := Buffer.holds_empty bufferSize
  have hlevel := hempty.appendStr (levelString level)
  unfold Shows at hlevel
  rwa [List.nil_append, List.take_of_length_le (length_levelString_le level)] at hlevel

/-- The prefix of the level is still there behind the format. -/
theorem level_kept (fmt : CString) (args : VaList) (level : Int) :
    (vlogMsgAutomata fmt args (putLevelBuffered (Buffer.empty bufferSize) level)).cells.take
      (levelString level).length = (levelString level).map some := by
  have hlevel := holds_level level
  have hpos := hlevel.pos
  have hshort := length_levelString_le level
  have hkept := (appendOnly_vlogMsgAutomata hlevel.length_cells (by omega) args fmt).before
  rw [hpos] at hkept
  rw [hkept, hlevel.cells, List.take_append_of_le_length (by rw [List.length_map]),
    List.take_of_length_le (by rw [List.length_map])]

end Step

theorem automaton_append_only (args : VaList) (ctx : ParserCtx) (hcells : ctx.buffer.cells.length = bufferSize)
    (hpos : ctx.buffer.pos ≤ 1023) :
    (∀ state c, Bounded state ctx (stateTransitionTable args state ctx c).2) ∧
    (∀ num spec, Halts (fun turns => formatNumberAt turns num spec (intBase spec))
      (Filled 64 (formatNumber num spec (intBase spec) ++ [0]))) ∧
    (∀ fmt, AppendOnly ctx.buffer (vlogMsgAutomata fmt args ctx.buffer)) ∧
    ∀ fmt level, (vlogMsgAutomata fmt args (putLevelBuffered (Buffer.empty bufferSize) level)).cells.take
      (levelString level).length = (levelString level).map some := by
  exact ⟨bounded_step hcells hpos, formatNumberAt_fits, appendOnly_vlogMsgAutomata hcells hpos args,
    fun fmt level => level_kept fmt args level⟩

/-- The number of a `%d` goes behind `[INFO] `, whose bytes stay. -/
theorem automaton_append_only_decimal :
    let ctx : ParserCtx := { spec.specifier := chr 'd', buffer := putLevelBuffered (Buffer.empty bufferSize) 0 }
    ctx.buffer.pos = 7 ∧
      Bounded .specifier ctx (stateTransitionTable (fun _ => { int := 42 }) .specifier ctx (chr '.')).2 := by
  intro ctx
  have hlevel := holds_level 0
  have hpos : ctx.buffer.pos = 7 := hlevel.pos
  have hroom : ctx.buffer.pos ≤ 1023 := by omega
  exact ⟨hpos, (automaton_append_only _ ctx hlevel.length_cells hroom).1 .specifier (chr '.')⟩

end Minitalk.Log
