import Minitalk.Log.Rendering

/-! # Formats as they are written

A format is a list of literal characters, `%%` and conversions. The automaton renders it faithfully exactly when
it has no conversion: `action_specifier` runs on the character behind the conversion and drops it, and a
conversion at the end of the format is never run. -/

namespace Minitalk.Log
open CText

/-- `%`, flags, an optional width, an optional precision, length letters and the letter of the conversion. -/
structure Conversion where
  flags : List UInt8
  width : List UInt8
  precision : Option (List UInt8)
  length : List UInt8
  conv : UInt8
  flags_ok : ∀ c ∈ flags, c ∈ cstr "-+ #0"
  width_ok : ∀ c ∈ width, isDigit c = true
  /-- A zero in front would be a flag. -/
  width_head : width.head? ≠ some (chr '0')
  precision_ok : ∀ ds, precision = some ds → ∀ c ∈ ds, isDigit c = true
  length_ok : ∀ c ∈ length, c ∈ cstr "lhL"
  conv_ok : conv ∈ cstr "sdiuxXocpfgG"

namespace Conversion

def precisionText : Option (List UInt8) → List UInt8
  | none => []
  | some ds => chr '.' :: ds

def modifiers (cv : Conversion) : List UInt8 := cv.flags ++ cv.width ++ precisionText cv.precision ++ cv.length

def text (cv : Conversion) : List UInt8 := chr '%' :: (cv.modifiers ++ [cv.conv])

/-- The `t_format_spec` that the conversion denotes. -/
def spec (cv : Conversion) : FormatSpec where
  width := BitVec.ofNat 32 (decimal cv.width)
  precision := BitVec.ofNat 32 (decimal (cv.precision.getD []))
  leftAlign := cv.flags.contains (chr '-')
  showSign := cv.flags.contains (chr '+')
  spacePrefix := cv.flags.contains (chr ' ')
  altForm := cv.flags.contains (chr '#')
  zeroPad := cv.flags.contains (chr '0')
  hasPrecision := cv.precision.isSome
  lengthMod := (cv.length.getLast?).getD 0
  specifier := cv.conv

end Conversion

inductive Piece where
  | literal (c : UInt8) (hc : c ≠ chr '%') (h0 : c ≠ 0)
  | percent
  | conversion (cv : Conversion)

namespace Piece

def text : Piece → List UInt8
  | literal c _ _ => [c]
  | percent => [chr '%', chr '%']
  | conversion cv => cv.text

def isConversion : Piece → Bool
  | conversion _ => true
  | _ => false

/-- What a piece stands for, with the n-th argument for a conversion. -/
def event (n : Nat) : Piece → Event
  | literal c _ _ => .literal c
  | percent => .percent
  | conversion cv => .conversion cv.spec n

end Piece

/-- The format that the pieces spell. -/
def spell (pieces : List Piece) : List UInt8 := pieces.flatMap Piece.text

/-- The events that the pieces stand for, the conversions from the n-th argument on. -/
def pieceEvents (n : Nat) : List Piece → List Event
  | [] => []
  | p :: ps => p.event n :: pieceEvents (if p.isConversion then n + 1 else n) ps

/-- The bytes that the pieces stand for: each literal character, one `%` for `%%`, the text of each conversion. -/
def pieceBytes (args : VaList) (pieces : List Piece) : List UInt8 := (pieceEvents 0 pieces).flatMap (Event.text args)

/-- What the automaton does while it reads a format, until its buffer is full. -/
def ctxEvents (args : VaList) (ctx : ParserCtx) : List UInt8 → List Event
  | [] => []
  | c :: cs => if ctx.buffer.pos < 1023 then ctx.observe c ++ ctxEvents args (ctxStep args ctx c) cs else []

/-! ### The characters of a conversion -/

theorem class_ne_nul {c : UInt8} {k : CharClass} (h : charClassTable c k = true) : c ≠ 0 := by
  rintro rfl
  cases k <;> exact absurd h (by decide)

/-- A character between `%` and the letter of the conversion. -/
def IsModifier (c : UInt8) : Prop :=
  charClassTable c .flag = true ∨ charClassTable c .digit = true ∨ charClassTable c .dot = true ∨
    charClassTable c .length = true

theorem isModifier_flag {c : UInt8} (h : c ∈ cstr "-+ #0") : IsModifier c :=
  Or.inl (by simpa [charClassTable] using h)

theorem isModifier_digit {c : UInt8} (h : isDigit c = true) : IsModifier c := Or.inr (Or.inl h)

theorem isModifier_dot : IsModifier (chr '.') := Or.inr (Or.inr (Or.inl (by decide)))

theorem isModifier_length {c : UInt8} (h : c ∈ cstr "lhL") : IsModifier c :=
  Or.inr (Or.inr (Or.inr (by simpa [charClassTable] using h)))

theorem class_spec {c : UInt8} (h : c ∈ cstr "sdiuxXocpfgG") : charClassTable c .spec = true := by
  simpa [charClassTable] using h

theorem Conversion.isModifier (cv : Conversion) {c : UInt8} (h : c ∈ cv.modifiers) : IsModifier c := by
  simp only [modifiers, List.mem_append] at h
  rcases h with ((hf | hw) | hp) | hl
  · exact isModifier_flag (cv.flags_ok c hf)
  · exact isModifier_digit (cv.width_ok c hw)
  · cases hprec : cv.precision with
    | none => simp [hprec, precisionText] at hp
    | some ds =>
      simp only [hprec, precisionText, List.mem_cons] at hp
      rcases hp with rfl | hd
      · exact isModifier_dot
      · exact isModifier_digit (cv.precision_ok ds hprec c hd)
  · exact isModifier_length (cv.length_ok c hl)

theorem Conversion.conv_spec (cv : Conversion) : charClassTable cv.conv .spec = true := class_spec cv.conv_ok

theorem IsModifier.ne_percent {c : UInt8} (h : IsModifier c) : c ≠ chr '%' := by
  rcases h with h | h | h | h <;> exact class_ne_percent (by decide) h

theorem IsModifier.ne_nul {c : UInt8} (h : IsModifier c) : c ≠ 0 := by
  rcases h with h | h | h | h <;> exact class_ne_nul h

theorem Piece.text_ne_nul (p : Piece) : ∀ c ∈ p.text, c ≠ 0 := by
  intro c hc
  cases p with
  | literal d _ h0 =>
    rw [List.mem_singleton.mp hc]
    exact h0
  | percent =>
    simp only [text, List.mem_cons, List.not_mem_nil, or_false, or_self] at hc
    rw [hc]
    decide
  | conversion cv =>
    simp only [text, Conversion.text, List.mem_cons, List.mem_append, List.not_mem_nil, or_false] at hc
    rcases hc with rfl | hm | rfl
    · decide
    · exact (cv.isModifier hm).ne_nul
    · exact class_ne_nul cv.conv_spec

def formatOf (pieces : List Piece) : CString :=
  ⟨spell pieces, fun c hc => by
    obtain ⟨p, -, hp⟩ := List.mem_flatMap.mp hc
    exact p.text_ne_nul c hp⟩

/-! ### What a conversion does to the text behind it -/

section Loss
variable {args : VaList} {ctx : ParserCtx} {c : UInt8}

/-- The states between `%` and the letter of the conversion. -/
def FormatState.inConversion : FormatState → Bool
  | .percent | .flags | .width | .precision | .length => true
  | .normal | .specifier | .error => false

theorem ctxStep_state_ne_error : (ctxStep args ctx c).state ≠ .error := by
  simp only [ctxStep]
  split <;> simp_all

theorem actionPercent_of_modifier (h : IsModifier c) : (actionPercent ctx c).1.inConversion = true := by
  have hp : charClassTable c .percent = false := by simpa [charClassTable] using h.ne_percent
  simp only [actionPercent, handleFlagChar, handleOtherChars, hp, Bool.false_eq_true, if_false]
  split
  · rfl
  · split
    · rfl
    · split
      · rfl
      · split
        · rfl
        · rcases h with h | h | h | h <;> contradiction

theorem spec_only (h : charClassTable c .spec = true) {k : CharClass} (hk : k ≠ .spec) :
    charClassTable c k = false := by
  have hmem : c ∈ cstr "sdiuxXocpfgG" := by simpa [charClassTable] using h
  have hall : (cstr "sdiuxXocpfgG").all (fun c => !charClassTable c k) = true := by
    cases k <;> first | exact absurd rfl hk | decide
  simpa using List.all_eq_true.mp hall c hmem

theorem actionPercent_of_spec (h : charClassTable c .spec = true) : (actionPercent ctx c).1 = .specifier := by
  simp [actionPercent, handleOtherChars, spec_only h, h]

theorem actionPercent_of_percent (hc : c = chr '%') : (actionPercent ctx c).1 = .normal := by
  simp [actionPercent, charClassTable, hc, handlePercentChar]

/-- The step of a state inside a conversion, with a property that its own branches and `action_percent` have. -/
theorem next_of_inConversion (args : VaList) (ctx : ParserCtx) {P : FormatState → Prop} {st : FormatState}
    (hst : st.inConversion = true) (hflag : charClassTable c .flag = true → P .flags)
    (hdigit : charClassTable c .digit = true → P .width ∧ P .precision)
    (hdot : charClassTable c .dot = true → P .precision) (hpercent : ∀ ctx, P (actionPercent ctx c).1) :
    P (stateTransitionTable args st ctx c).1 := by
  cases st with
  | normal => cases hst
  | specifier => cases hst
  | error => cases hst
  | percent => exact hpercent ctx
  | length => exact hpercent ctx
  | flags =>
    simp only [stateTransitionTable, actionFlags]
    split
    · exact hflag ‹_›
    · exact hpercent ctx
  | width =>
    simp only [stateTransitionTable, actionWidth]
    split
    · exact (hdigit ‹_›).1
    · split
      · exact hdot ‹_›
      · exact hpercent _
  | precision =>
    simp only [stateTransitionTable, actionPrecision]
    split
    · exact (hdigit ‹_›).2
    · exact hpercent _

theorem ctxStep_of_modifier (hst : ctx.state.inConversion = true) (h : IsModifier c) :
    (ctxStep args ctx c).state.inConversion = true := by
  have hnext := next_of_inConversion args ctx (c := c) (P := (·.inConversion = true)) hst
    (fun _ => rfl) (fun _ => ⟨rfl, rfl⟩) (fun _ => rfl) fun _ => actionPercent_of_modifier h
  simp only [ctxStep]
  split
  · rename_i herr
    rw [herr] at hnext
    cases hnext
  · exact hnext

theorem ctxStep_of_spec (hst : ctx.state.inConversion = true) (h : charClassTable c .spec = true) :
    (ctxStep args ctx c).state = .specifier := by
  have hnext := next_of_inConversion args ctx (c := c) (P := (· = .specifier)) hst
    (by simp [spec_only h]) (by simp [spec_only h]) (by simp [spec_only h]) fun _ => actionPercent_of_spec h
  simp [ctxStep, hnext]

theorem ctxStep_of_percent (hst : ctx.state.inConversion = true) (hc : c = chr '%') :
    (ctxStep args ctx c).state = .normal := by
  have hnext := next_of_inConversion args ctx (c := c) (P := (· = .normal)) hst
    (fun h => absurd hc (class_ne_percent (by decide) h)) (fun h => absurd hc (class_ne_percent (by decide) h))
    (fun h => absurd hc (class_ne_percent (by decide) h)) fun _ => actionPercent_of_percent hc
  simp [ctxStep, hnext]

theorem observe_of_inConversion (hst : ctx.state.inConversion = true) :
    ctx.observe c = if c = chr '%' then [.percent] else [] := by
  unfold Scanner.observe
  cases hs : ctx.state <;> rw [hs] at hst <;> first | rfl | cases hst

theorem observe_percent (hst : ctx.state = .normal) : ctx.observe (chr '%') = [] := by
  simp [Scanner.observe, hst]

theorem ctxStep_percent (hst : ctx.state = .normal) : (ctxStep args ctx (chr '%')).state = .percent := by
  simp [ctxStep, hst, stateTransitionTable, actionNormal]

theorem observe_literal (hst : ctx.state = .normal) (hc : c ≠ chr '%') : ctx.observe c = [.literal c] := by
  simp [Scanner.observe, hst, hc]

theorem ctxStep_literal (hst : ctx.state = .normal) (hc : c ≠ chr '%') : (ctxStep args ctx c).state = .normal := by
  simp [ctxStep, hst, stateTransitionTable, actionNormal, hc]

/-- Each character is at most one event, and the automaton is back in its normal state after it. -/
theorem observe_cases (args : VaList) (c : UInt8) (hst : ctx.state ≠ .error) :
    ctx.observe c = [] ∨ ∃ e, ctx.observe c = [e] ∧ (ctxStep args ctx c).state = .normal := by
  cases hin : ctx.state.inConversion with
  | true =>
    rw [observe_of_inConversion hin]
    split
    · exact Or.inr ⟨_, rfl, ctxStep_of_percent hin ‹_›⟩
    · exact Or.inl rfl
  | false =>
    unfold Scanner.observe
    cases hs : ctx.state with
    | normal =>
      by_cases hc : c = chr '%'
      · exact Or.inl (if_pos hc)
      · exact Or.inr ⟨_, if_neg hc, ctxStep_literal hs hc⟩
    | specifier =>
      refine Or.inr ⟨_, rfl, ?_⟩
      simp only [ctxStep, hs, stateTransitionTable, actionSpecifier]
      split <;> rfl
    | error => exact absurd hs hst
    | percent | flags | width | precision | length => rw [hs] at hin; cases hin

/-- After its first event the automaton goes on, in its normal state, with a shorter text. -/
theorem exists_rest {u : List UInt8} {e : Event} {es : List Event} (hst : ctx.state ≠ .error)
    (h : ctxEvents args ctx u = e :: es) :
    ∃ ctx' u', ctx'.state = .normal ∧ u' <:+ u ∧ u'.length < u.length ∧ ctxEvents args ctx' u' = es := by
  induction u generalizing ctx with
  | nil => cases h
  | cons c cs ih =>
    rw [ctxEvents] at h
    split at h
    · rcases observe_cases args c hst with hnone | ⟨e', hone, hnormal⟩
      · rw [hnone, List.nil_append] at h
        obtain ⟨ctx', u', hs, hsuf, hlen, hes⟩ := ih ctxStep_state_ne_error h
        exact ⟨ctx', u', hs, hsuf.trans (List.suffix_cons c cs), by simp; omega, hes⟩
      · rw [hone, List.singleton_append, List.cons.injEq] at h
        exact ⟨_, cs, hnormal, List.suffix_cons c cs, by simp, h.2⟩
    · cases h

theorem events_tail {u : List UInt8} {e : Event} {es : List Event} (hc : ctx.observe c = [])
    (h : ctxEvents args ctx (c :: u) = e :: es) : ctxEvents args (ctxStep args ctx c) u = e :: es := by
  rw [ctxEvents] at h
  split at h
  · rwa [hc] at h
  · cases h

/-- A literal character is an event of its own. -/
theorem events_literal {u : List UInt8} {e : Event} {es : List Event} (hst : ctx.state = .normal) (hc : c ≠ chr '%')
    (h : ctxEvents args ctx (c :: u) = e :: es) : e = .literal c ∧ ctxEvents args (ctxStep args ctx c) u = es := by
  rw [ctxEvents] at h
  split at h
  · rw [observe_literal hst hc, List.singleton_append, List.cons.injEq] at h
    exact ⟨h.1.symm, h.2⟩
  · cases h

theorem events_modifiers {ms w : List UInt8} {e : Event} {es : List Event} (hms : ∀ c ∈ ms, IsModifier c)
    (hst : ctx.state.inConversion = true) (h : ctxEvents args ctx (ms ++ w) = e :: es) :
    ∃ ctx', ctx'.state.inConversion = true ∧ ctxEvents args ctx' w = e :: es := by
  induction ms generalizing ctx with
  | nil => exact ⟨ctx, hst, h⟩
  | cons m ms ih =>
    have hm : IsModifier m := hms m List.mem_cons_self
    have hobs : ctx.observe m = [] := by rw [observe_of_inConversion hst, if_neg hm.ne_percent]
    exact ih (fun c hc => hms c (List.mem_cons_of_mem m hc)) (ctxStep_of_modifier hst hm) (events_tail hobs h)

/-- The character behind a conversion is dropped: the events go on with what follows it. -/
theorem after_conversion {cv : Conversion} {w : List UInt8} {e : Event} {es : List Event}
    (hst : ctx.state = .normal) (h : ctxEvents args ctx (cv.text ++ w) = e :: es) :
    ∃ ctx' c t, w = c :: t ∧ ctx'.state = .normal ∧ ctxEvents args ctx' t = es := by
  have hpercent : (ctxStep args ctx (chr '%')).state = .percent := ctxStep_percent hst
  rw [Conversion.text, List.cons_append, List.append_assoc, List.singleton_append] at h
  obtain ⟨ctx₁, hin, h₁⟩ :=
    events_modifiers (fun c hc => cv.isModifier hc) (by rw [hpercent]; rfl) (events_tail (observe_percent hst) h)
  have hconv : ctx₁.observe cv.conv = [] := by
    rw [observe_of_inConversion hin, if_neg (class_ne_percent (by decide) cv.conv_spec)]
  have h₂ := events_tail hconv h₁
  have hspec : (ctxStep args ctx₁ cv.conv).state = .specifier := ctxStep_of_spec hin cv.conv_spec
  have hne : (ctxStep args ctx₁ cv.conv).state ≠ .error := ctxStep_state_ne_error
  cases w with
  | nil => cases h₂
  | cons c t =>
    rw [ctxEvents] at h₂
    split at h₂
    · rcases observe_cases args c hne with hnone | ⟨e', hone, hnormal⟩
      · simp [Scanner.observe, hspec] at hnone
      · rw [hone, List.singleton_append, List.cons.injEq] at h₂
        exact ⟨_, c, t, rfl, hnormal, h₂.2⟩
    · cases h₂

/-- From inside a piece the text is not read as the pieces that it spells. -/
theorem events_ne_of_suffix {pieces : List Piece} {u : List UInt8} (n : Nat) (hst : ctx.state = .normal)
    (hsuf : u <:+ spell pieces) (hlt : u.length < (spell pieces).length) :
    ctxEvents args ctx u ≠ pieceEvents n pieces := by
  induction pieces generalizing ctx u n with
  | nil => exact absurd hlt (by simp [spell])
  | cons p ps ih =>
    intro h
    rw [pieceEvents] at h
    have hne : ctx.state ≠ .error := by rw [hst]; decide
    have hspell : spell (p :: ps) = p.text ++ spell ps := List.flatMap_cons
    rw [hspell] at hsuf hlt
    rw [List.length_append] at hlt
    -- It is enough that the first event leaves less than the text of the other pieces.
    have hrest : ∀ {ctx' : ParserCtx} {u' : List UInt8} {m : Nat}, ctx'.state = .normal → u' <:+ u →
        u'.length < (spell ps).length → ctxEvents args ctx' u' = pieceEvents m ps → False := fun hs hu' hlen hes =>
      ih _ hs (List.suffix_of_suffix_length_le (hu'.trans hsuf) (List.suffix_append _ _)
        (Nat.le_of_lt hlen)) hlen hes
    by_cases hshort : u.length ≤ (spell ps).length
    · obtain ⟨ctx', u', hs, hu', hlen, hes⟩ := exists_rest hne h
      exact hrest hs hu' (by omega) hes
    · -- Otherwise the text starts inside the first piece.
      obtain ⟨v, hv, rfl⟩ : ∃ v, v <:+ p.text ∧ u = v ++ spell ps := by
        obtain ⟨w, hw⟩ := hsuf
        obtain ⟨v, rfl⟩ : spell ps <:+ u :=
          List.suffix_of_suffix_length_le (List.suffix_append _ _) ⟨w, hw⟩ (by omega)
        exact ⟨v, ⟨w, List.append_cancel_right (by rw [← hw, List.append_assoc])⟩, rfl⟩
      rw [List.length_append] at hlt hshort
      cases p with
      | literal c hc h0 =>
        have hlen : (Piece.literal c hc h0).text.length = 1 := rfl
        omega
      | percent =>
        have hlen : Piece.percent.text.length = 2 := rfl
        have hvlen : v.length = 1 := by omega
        obtain rfl : v = [chr '%'] := by
          rw [List.suffix_iff_eq_drop.mp hv, hlen, hvlen]
          rfl
        obtain ⟨ctx', u', hs, hu', hlen', hes⟩ :=
          exists_rest ctxStep_state_ne_error (events_tail (observe_percent hst) h)
        exact hrest hs (hu'.trans (List.suffix_append _ _)) hlen' hes
      | conversion cv =>
        have hv' : v <:+ cv.modifiers ++ [cv.conv] :=
          (List.suffix_cons_iff.mp hv).resolve_left fun heq => by
            rw [heq] at hlt
            exact absurd hlt (by simp [Piece.text, Conversion.text])
        cases v with
        | nil => exact hshort (by simp)
        | cons d v =>
          have hd : d ≠ chr '%' := by
            have hmem : d ∈ cv.modifiers ++ [cv.conv] := hv'.subset List.mem_cons_self
            rcases List.mem_append.mp hmem with hm | hc
            · exact (cv.isModifier hm).ne_percent
            · rw [List.mem_singleton.mp hc]
              exact class_ne_percent (by decide) cv.conv_spec
          exact absurd (events_literal hst hd h).1 Event.noConfusion

theorem events_ne_of_conversion {pieces : List Piece} (n : Nat) (hst : ctx.state = .normal)
    (hconv : ∃ p ∈ pieces, p.isConversion = true) : ctxEvents args ctx (spell pieces) ≠ pieceEvents n pieces := by
  induction pieces generalizing ctx n with
  | nil => exact absurd hconv (by simp)
  | cons p ps ih =>
    intro h
    have hspell : spell (p :: ps) = p.text ++ spell ps := List.flatMap_cons
    rw [hspell, pieceEvents] at h
    cases p with
    | literal c hc h0 =>
      have hps : ∃ q ∈ ps, q.isConversion = true := by simpa [Piece.isConversion] using hconv
      exact ih _ (ctxStep_literal hst hc) hps (events_literal hst hc h).2
    | percent =>
      have hps : ∃ q ∈ ps, q.isConversion = true := by simpa [Piece.isConversion] using hconv
      have hnext : (ctxStep args ctx (chr '%')).state = .percent := ctxStep_percent hst
      rw [Piece.text, List.cons_append, List.singleton_append] at h
      have htail := events_tail (observe_percent hst) h
      rw [ctxEvents, observe_of_inConversion (by rw [hnext]; rfl), if_pos rfl] at htail
      split at htail
      · exact ih _ (ctxStep_of_percent (by rw [hnext]; rfl) rfl) hps (List.cons.inj htail).2
      · cases htail
    | conversion cv =>
      obtain ⟨ctx', c, t, hw, hs, hes⟩ := after_conversion hst h
      exact events_ne_of_suffix _ hs (hw ▸ List.suffix_cons c t) (by rw [hw]; simp) hes

end Loss

/-! ### Faithful rendering -/

section Faithful
variable {args : VaList} {ctx : ParserCtx} {b : TBuffer} {vs : List UInt8} {pieces : List Piece}

/-- A text that fits is read to its end, if nothing in it is empty. -/
theorem ctxEvents_eq {fmt : List UInt8} (h : Shows ctx.buffer vs)
    (hfit : vs.length + (ctx.toScanner.rendering args fmt).length ≤ 1023)
    (hne : ∀ e ∈ ctx.toScanner.events fmt, e.text args ≠ []) :
    ctxEvents args ctx fmt = ctx.toScanner.events fmt := by
  induction fmt generalizing ctx vs with
  | nil => rfl
  | cons c cs ih =>
    rw [ctxEvents]
    split
    · rw [Scanner.rendering, Scanner.events, List.flatMap_append, List.length_append] at hfit
      rw [Scanner.events, ih (shows_ctxStep args c h), ctxStep_toScanner]
      · rw [List.length_append, ctxStep_toScanner, Scanner.rendering]
        omega
      · rw [ctxStep_toScanner]
        exact fun e he => hne e (List.mem_append_right _ he)
    · rename_i hfull
      rw [h.pos] at hfull
      have hnil : ctx.toScanner.rendering args (c :: cs) = [] := List.length_eq_zero_iff.mp (by omega)
      rw [Scanner.rendering, List.flatMap_eq_nil_iff] at hnil
      exact (List.eq_nil_iff_forall_not_mem.mpr fun e he => hne e he (hnil e he)).symm

theorem events_of_plain {sc : Scanner} (n : Nat) (hst : sc.state = .normal)
    (hplain : ∀ p ∈ pieces, p.isConversion = false) : sc.events (spell pieces) = pieceEvents n pieces := by
  induction pieces generalizing sc n with
  | nil => rfl
  | cons p ps ih =>
    have hps := fun q hq => hplain q (List.mem_cons_of_mem p hq)
    have hspell : spell (p :: ps) = p.text ++ spell ps := List.flatMap_cons
    rw [hspell, pieceEvents]
    cases p with
    | literal c hc h0 =>
      have hnext : (sc.step c).state = .normal := by
        simp [Scanner.step, ctxStep, stateTransitionTable, hst, actionNormal, hc]
      rw [Piece.text, List.singleton_append, Scanner.events, ih n hnext hps]
      simp [Scanner.observe, hst, hc, Piece.event, Piece.isConversion]
    | percent =>
      have hpercent : (sc.step (chr '%')).state = .percent := by
        simp [Scanner.step, ctxStep, stateTransitionTable, hst, actionNormal]
      have hnext : ((sc.step (chr '%')).step (chr '%')).state = .normal := by
        exact ctxStep_of_percent (by simp [hpercent]; rfl) rfl
      rw [Piece.text, List.cons_append, List.singleton_append, Scanner.events, Scanner.events, ih n hnext hps]
      simp [Scanner.observe, hst, hpercent, Piece.event, Piece.isConversion]
    | conversion cv => exact absurd (hplain _ List.mem_cons_self) (by simp [Piece.isConversion])

theorem text_ne_nil_of_plain (n : Nat) (hplain : ∀ p ∈ pieces, p.isConversion = false) :
    ∀ e ∈ pieceEvents n pieces, e.text args ≠ [] := by
  induction pieces generalizing n with
  | nil => simp [pieceEvents]
  | cons p ps ih =>
    intro e he
    rw [pieceEvents, List.mem_cons] at he
    rcases he with rfl | he
    · have hp := hplain p List.mem_cons_self
      cases p with
      | literal c hc h0 => exact List.cons_ne_nil _ _
      | percent => exact List.cons_ne_nil _ _
      | conversion cv => cases hp
    · exact ih _ (fun q hq => hplain q (List.mem_cons_of_mem p hq)) e he

/-- The format is rendered as it is written: its bytes are appended, no literal is dropped or doubled and every
    conversion is run, on its own argument. -/
def Faithful (args : VaList) (b : TBuffer) (vs : List UInt8) (pieces : List Piece) : Prop :=
  (vlogMsgAutomata (formatOf pieces) args b).Holds bufferSize (vs ++ pieceBytes args pieces) ∧
    ctxEvents args { buffer := b } (spell pieces) = pieceEvents 0 pieces

/-- A format whose rendering fits the buffer is rendered as it is written exactly when it has no conversion. -/
theorem faithful_iff (hb : b.Holds bufferSize vs) (hfit : vs.length + (pieceBytes args pieces).length ≤ 1023) :
    Faithful args b vs pieces ↔ ∀ p ∈ pieces, p.isConversion = false := by
  constructor
  · intro h p hp
    cases hconv : p.isConversion with
    | false => rfl
    | true => exact absurd h.2 (events_ne_of_conversion 0 rfl ⟨p, hp, hconv⟩)
  · intro hplain
    have hevents : ({} : Scanner).events (spell pieces) = pieceEvents 0 pieces := events_of_plain 0 rfl hplain
    have hrender : rendering args (formatOf pieces) = pieceBytes args pieces := by
      rw [rendering, Scanner.rendering, formatOf, hevents, pieceBytes]
    have hshows : Shows b vs := by
      unfold Shows
      rwa [List.take_of_length_le (by omega)]
    have hrun := shows_vlogMsgAutomata args hshows (formatOf pieces)
    unfold Shows at hrun
    rw [hrender, List.take_of_length_le (by rwa [List.length_append])] at hrun
    refine ⟨hrun, ?_⟩
    rw [← hevents]
    have hctx : Shows ({ buffer := b } : ParserCtx).buffer vs := hshows
    refine ctxEvents_eq hctx (by rw [← hrender] at hfit; exact hfit) ?_
    exact hevents ▸ text_ne_nil_of_plain 0 hplain

end Faithful

/-- `100%%` -/
theorem faithful_percent :
    let pieces : List Piece :=
      [.literal (chr '1') (by decide) (by decide), .literal (chr '0') (by decide) (by decide),
        .literal (chr '0') (by decide) (by decide), .percent]
    Faithful (fun _ => {}) (Buffer.empty bufferSize) [] pieces ∧ pieceBytes (fun _ => {}) pieces = cstr "100%" := by
  intro pieces
  exact ⟨(faithful_iff (Buffer.holds_empty bufferSize) (by decide)).mpr (by decide), by decide⟩

def decimalConversion : Conversion where
  flags := []
  width := []
  precision := none
  length := []
  conv := chr 'd'
  flags_ok := by simp
  width_ok := by simp
  width_head := by simp
  precision_ok := by simp
  length_ok := by simp
  conv_ok := by decide

/-- `%d` at the end of the format: nothing is appended for the argument 5. -/
theorem lost_conversion :
    let args : VaList := fun _ => { int := 5 }
    let pieces : List Piece := [.conversion decimalConversion]
    pieceBytes args pieces = cstr "5" ∧
      vlogMsgAutomata (formatOf pieces) args (Buffer.empty bufferSize) = Buffer.empty bufferSize ∧
      ¬Faithful args (Buffer.empty bufferSize) [] pieces := by
  intro args pieces
  refine ⟨by decide, by decide +kernel, fun h => ?_⟩
  exact absurd h.2 (by decide +kernel)

end Minitalk.Log
