import Minitalk.Libft.Atoi
import Minitalk.Printf.Numbers
import Minitalk.Printf.Parser

/-! # What `ft_parse_flags` reads of a conversion

The flags that it leaves mean what C says, except that a number is kept in an `int`, and that a dot erases `0` also
when the precision behind it turns out to be negative. -/

namespace Minitalk.Printf
open CText CPrintf
open Libft (ftIsdigit_eq)

/-- A width or a precision: digits, which may be none, or an argument. -/
inductive Amount where
  | digits (ds : List UInt8)
  | star
deriving DecidableEq

namespace Amount

def text : Amount → List UInt8
  | digits ds => ds
  | star => [chr '*']

/-- How many arguments it takes. -/
def stars : Amount → Nat
  | digits _ => 0
  | star => 1

def value (args : VaList) (n : Nat) : Amount → Int
  | digits ds => decimal ds
  | star => (args n).int.toInt

end Amount

/-- A conversion: flags, an optional width, an optional precision behind a dot, and the letter. -/
structure Directive where
  flags : List UInt8
  width : Amount
  precision : Option Amount
  conv : UInt8
  flags_ok : ∀ c ∈ flags, c ∈ cstr "-0# +"
  width_ok : ∀ ds, width = .digits ds → (∀ c ∈ ds, isDigit c = true) ∧ ds.head? ≠ some (chr '0')
  precision_ok : ∀ ds, precision = some (.digits ds) → ∀ c ∈ ds, isDigit c = true
  conv_ok : conv ∈ cstr "cspdiuxX"

namespace Directive
variable (d : Directive) (args : VaList) (n : Nat)

def precisionText : Option Amount → List UInt8
  | none => []
  | some p => chr '.' :: p.text

/-- The text behind the `%`. -/
def text : List UInt8 := d.flags ++ (d.width.text ++ (precisionText d.precision ++ [d.conv]))

def stars : Nat := d.width.stars + (d.precision.map Amount.stars).getD 0

/-- The value of the precision, when it is there and not negative. -/
def precisionValue : Option Nat :=
  d.precision.bind fun p =>
    let value := p.value args (n + d.width.stars)
    if value < 0 then none else some value.toNat

/-- What C takes the conversion to ask for, when its arguments begin with the n-th. -/
def layout : Layout where
  left := d.flags.contains (chr '-') || decide (d.width.value args n < 0)
  plus := d.flags.contains (chr '+')
  space := d.flags.contains (chr ' ')
  alt := d.flags.contains (chr '#')
  zero := d.flags.contains (chr '0')
  width := (d.width.value args n).natAbs
  precision := d.precisionValue args n

def numeric : Prop := d.conv ∈ cstr "diuxX"

/-- Every number is an `int`, and `0` is not in force in spite of a negative precision. -/
def Fits : Prop :=
  (d.width.value args n).natAbs < 2 ^ 31 ∧
    (∀ p ∈ d.precision, p.value args (n + d.width.stars) < 2 ^ 31) ∧
    ¬(d.numeric ∧ (d.layout args n).zero = true ∧ (d.layout args n).left = false ∧ d.precision = some .star ∧
      (args (n + d.width.stars)).int.toInt < 0)

end Directive

/-- The flags ask for the layout: a space counts without `+` only, and `0` for numbers without `-` or a precision. -/
structure Means (flags : Flags) (l : Layout) (numeric : Prop) : Prop where
  left : flags.left = l.left
  plus : flags.plus = l.plus
  space : l.plus = false → flags.space = l.space
  alt : flags.hash = l.alt
  width : flags.width.toInt = l.width
  precision : (if flags.dot then some flags.precision.toInt else none) = l.precision.map Nat.cast
  absent : flags.dot = false → flags.precision.toInt < 0
  zero : numeric → (flags.zero && !flags.left && !flags.dot) = (l.zero && !l.left && l.precision.isNone)

/-- The parser stops at the letter, has read one argument for each star, and leaves flags that mean what C says. -/
def Parsed (d : Directive) (args : VaList) (n : Nat) (rest : List UInt8) : Prop :=
  ∃ flags, ftParseFlags args ftFlagsInit n (d.text ++ rest) = (flags, n + d.stars, d.conv :: rest) ∧
    Means flags (d.layout args n) d.numeric

/-! ### One round -/

section Rounds
variable (args : VaList) (flags : Flags) (n : Nat) {c : UInt8} (cs : List UInt8)

theorem parse_cons (hc : ftIstype c = false) :
    ftParseFlags args flags n (c :: cs) =
      ftParseFlags args (parseRound args c cs flags n).1 (parseRound args c cs flags n).2.1
        (parseRound args c cs flags n).2.2 := by
  rw [ftParseFlags, hc, if_neg Bool.false_ne_true]

/-- A flag is handled in the same way whatever comes behind it. -/
theorem parse_flag (hc : c ∈ cstr "-0# +") :
    ∃ flags', ftParseFlags args flags n (c :: cs) = ftParseFlags args flags' n cs ∧
      flags'.left = (flags.left || chr '-' == c) ∧ flags'.plus = (flags.plus || chr '+' == c) ∧
      (flags'.plus = false → flags'.space = (flags.space || chr ' ' == c)) ∧
      flags'.hash = (flags.hash || chr '#' == c) ∧
      (flags'.left = false → flags'.zero = (flags.zero || chr '0' == c)) ∧
      flags'.dot = flags.dot ∧ flags'.width = flags.width ∧ flags'.precision = flags.precision := by
  have hstar : ∀ b : Bool, (b && c == chr '*') = true → False := by
    intro b hb
    have hall : (cstr "-0# +").all (· != chr '*') = true := by decide
    have := List.all_eq_true.mp hall c hc
    simp_all
  have htype : ftIstype c = false := by
    have hall : (cstr "-0# +").all (!ftIstype ·) = true := by decide
    simpa using List.all_eq_true.mp hall c hc
  rw [parse_cons args flags n cs htype, parseRound, if_neg (hstar _)]
  rcases (show c = chr '-' ∨ c = chr '0' ∨ c = chr '#' ∨ c = chr ' ' ∨ c = chr '+' by simpa [cstr] using hc) with
    rfl | rfl | rfl | rfl | rfl
  · refine ⟨handleMinus flags, rfl, ?_⟩
    simp +decide [handleMinus]
  · refine ⟨handleZero flags, rfl, ?_⟩
    simp +decide [handleZero]
  · refine ⟨handleHash flags, rfl, ?_⟩
    simp +decide [handleHash]
  · refine ⟨handleSpace flags, rfl, ?_⟩
    simp +decide [handleSpace]
  · refine ⟨handlePlus flags, rfl, ?_⟩
    simp +decide [handlePlus]

theorem flags_run {fs : List UInt8} (hfs : ∀ c ∈ fs, c ∈ cstr "-0# +") :
    ∃ flags', ftParseFlags args flags n (fs ++ cs) = ftParseFlags args flags' n cs ∧
      flags'.left = (flags.left || fs.contains (chr '-')) ∧ flags'.plus = (flags.plus || fs.contains (chr '+')) ∧
      (flags'.plus = false → flags'.space = (flags.space || fs.contains (chr ' '))) ∧
      flags'.hash = (flags.hash || fs.contains (chr '#')) ∧
      (flags'.left = false → flags'.zero = (flags.zero || fs.contains (chr '0'))) ∧
      flags'.dot = flags.dot ∧ flags'.width = flags.width ∧ flags'.precision = flags.precision := by
  induction fs generalizing flags with
  | nil => exact ⟨flags, rfl, by simp⟩
  | cons c fs ih =>
    obtain ⟨f₁, hrun₁, hleft₁, hplus₁, hspace₁, hhash₁, hzero₁, hdot₁, hwidth₁, hprec₁⟩ :=
      parse_flag args flags n (fs ++ cs) (hfs c List.mem_cons_self)
    obtain ⟨f₂, hrun₂, hleft₂, hplus₂, hspace₂, hhash₂, hzero₂, hdot₂, hwidth₂, hprec₂⟩ :=
      ih f₁ fun d hd => hfs d (List.mem_cons_of_mem c hd)
    refine ⟨f₂, hrun₁.trans hrun₂, ?_, ?_, ?_, ?_, ?_, hdot₂.trans hdot₁, hwidth₂.trans hwidth₁, hprec₂.trans hprec₁⟩
    · rw [hleft₂, hleft₁, List.contains_cons, Bool.or_assoc]
    · rw [hplus₂, hplus₁, List.contains_cons, Bool.or_assoc]
    · intro hplus
      have hplus' : f₁.plus = false := by
        rw [hplus, eq_comm, Bool.or_eq_false_iff] at hplus₂
        exact hplus₂.1
      rw [hspace₂ hplus, hspace₁ hplus', List.contains_cons, Bool.or_assoc]
    · rw [hhash₂, hhash₁, List.contains_cons, Bool.or_assoc]
    · intro hleft
      have hleft' : f₁.left = false := by
        rw [hleft, eq_comm, Bool.or_eq_false_iff] at hleft₂
        exact hleft₂.1
      rw [hzero₂ hleft, hzero₁ hleft', List.contains_cons, Bool.or_assoc]

/-! ### Numbers -/

/-- What comes behind a number is not a digit. -/
theorem readDigits_digits {ds : List UInt8} (hds : ∀ c ∈ ds, isDigit c = true) (hc : isDigit c = false)
    (target : BitVec 32) :
    readDigits target (ds ++ c :: cs) = (ds.foldl (fun n c => n * 10 + digitValue c) target, c :: cs) := by
  induction ds generalizing target with
  | nil =>
    rw [List.nil_append, readDigits, ftIsdigit_eq, hc]
    rfl
  | cons d ds ih =>
    rw [List.cons_append, readDigits, ftIsdigit_eq, hds d List.mem_cons_self, if_pos rfl,
      ih (fun e he => hds e (List.mem_cons_of_mem d he)), List.foldl_cons]

theorem digit_not_type {d : UInt8} (hd : isDigit d = true) : ftIstype d = false := by
  have hall := forall_uint8 (p := fun d => !isDigit d || !ftIstype d) (by decide +kernel) d
  simpa [hd] using hall

theorem digit_not_star {d : UInt8} (hd : isDigit d = true) : (d == chr '*') = false := by
  have hall := forall_uint8 (p := fun d => !isDigit d || !(d == chr '*')) (by decide +kernel) d
  simpa [hd] using hall

/-- No digit but `0` is a flag. -/
theorem flagTable_digit {d : UInt8} (hd : isDigit d = true) (h0 : d ≠ chr '0') : flagTable d = none := by
  have hne : ∀ {e : UInt8}, isDigit e = false → d ≠ e := fun he h => by
    rw [h, he] at hd
    cases hd
  simp only [flagTable, h0, if_false, hne (e := chr '-') (by decide), hne (e := chr '.') (by decide),
    hne (e := chr '#') (by decide), hne (e := chr ' ') (by decide), hne (e := chr '+') (by decide),
    hne (e := chr '*') (by decide)]

/-- A number goes to the width, or behind a dot to the precision. -/
theorem number_run {ds : List UInt8} (hds : ∀ c ∈ ds, isDigit c = true) (hhead : ds.head? ≠ some (chr '0'))
    (hne : ds ≠ []) (hc : isDigit c = false) :
    ftParseFlags args flags n (ds ++ c :: cs) =
      ftParseFlags args
        (if flags.dot then { flags with precision := BitVec.ofNat 32 (decimal ds) }
        else { flags with width := BitVec.ofNat 32 (decimal ds) })
        n (c :: cs) := by
  obtain ⟨d, ds, rfl⟩ := List.exists_cons_of_ne_nil hne
  have hd := hds d List.mem_cons_self
  have h0 : d ≠ chr '0' := fun h0 => hhead (by rw [h0]; rfl)
  have hstar : ¬(flags.dot && d == chr '*') = true := by rw [digit_not_star hd, Bool.and_false]; decide
  have hnumber := readDigits_digits cs hds hc 0
  rw [foldl_digitValue_zero, List.cons_append] at hnumber
  rw [List.cons_append, parse_cons args flags n _ (digit_not_type hd), parseRound, if_neg hstar, flagTable_digit hd h0,
    ftIsdigit_eq, hd, if_pos rfl, ftProcessNumber, hnumber]

/-- The width of the conversion. -/
theorem width_run (w : Amount) (hw : ∀ ds, w = .digits ds → (∀ c ∈ ds, isDigit c = true) ∧ ds.head? ≠ some (chr '0'))
    (hdot : flags.dot = false) (hwidth : flags.width = 0) (hc : isDigit c = false) :
    ∃ left star width, ftParseFlags args flags n (w.text ++ c :: cs) =
        ftParseFlags args { flags with left, star, width } (n + w.stars) (c :: cs) ∧
      left = (flags.left || decide (w.value args n < 0)) ∧
      ((w.value args n).natAbs < 2 ^ 31 → width.toInt = (w.value args n).natAbs) := by
  cases w with
  | digits ds =>
    obtain ⟨hds, hhead⟩ := hw ds rfl
    have hleft : flags.left = (flags.left || decide ((decimal ds : Int) < 0)) := by
      rw [decide_eq_false (by omega), Bool.or_false]
    refine ⟨flags.left, flags.star, BitVec.ofNat 32 (decimal ds), ?_, hleft, fun hlt => CInt.toInt_ofNat hlt⟩
    by_cases hne : ds = []
    · subst hne
      have hzero : BitVec.ofNat 32 (decimal []) = flags.width := hwidth.symm
      rw [hzero]
      rfl
    · rw [Amount.text, number_run args flags n cs hds hhead hne hc, hdot, if_neg Bool.false_ne_true]
      rfl
  | star =>
    have hround : ftParseFlags args flags n (Amount.star.text ++ c :: cs) =
        ftParseFlags args (handleStar flags (args n)) (n + 1) (c :: cs) := by
      have hstar : ¬(flags.dot && chr '*' == chr '*') = true := by rw [hdot]; decide
      rw [Amount.text, List.singleton_append, parse_cons args flags n _ (by decide), parseRound, if_neg hstar]
      rfl
    rw [hround]
    unfold handleStar ftHandleWidth
    split
    · rename_i hneg
      refine ⟨true, true, -(args n).int, rfl, ?_, fun hlt => ?_⟩
      · rw [Amount.value, decide_eq_true hneg, Bool.or_true]
      · rw [Amount.value] at hlt ⊢
        rw [CInt.toInt_neg ⟨by omega, by omega⟩]
        omega
    · rename_i hneg
      refine ⟨flags.left, true, (args n).int, rfl, ?_, fun _ => ?_⟩
      · rw [Amount.value, decide_eq_false hneg, Bool.or_false]
      · rw [Amount.value]
        omega

/-- Zeros in front of the digits are taken for flags, which do not matter behind a dot. -/
theorem precisionDigits_run {ds : List UInt8} (hds : ∀ c ∈ ds, isDigit c = true) (hc : isDigit c = false)
    (hdot : flags.dot = true) (hprec : flags.precision = 0) :
    ∃ zero, ftParseFlags args flags n (ds ++ c :: cs) =
      ftParseFlags args { flags with zero, precision := BitVec.ofNat 32 (decimal ds) } n (c :: cs) := by
  induction ds generalizing flags with
  | nil =>
    have hzero : BitVec.ofNat 32 (decimal []) = flags.precision := hprec.symm
    rw [hzero]
    exact ⟨flags.zero, rfl⟩
  | cons d ds ih =>
    by_cases h0 : d = chr '0'
    · subst h0
      obtain ⟨zero, hrun⟩ := ih (handleZero flags) (fun e he => hds e (List.mem_cons_of_mem _ he)) hdot hprec
      have hdecimal : decimal (chr '0' :: ds) = decimal ds := rfl
      have hstar : ¬(flags.dot && chr '0' == chr '*') = true := by rw [hdot]; decide
      refine ⟨zero, ?_⟩
      rw [List.cons_append, parse_cons args flags n _ (by decide), parseRound, if_neg hstar, hdecimal]
      exact hrun
    · refine ⟨flags.zero, ?_⟩
      rw [number_run args flags n cs hds (by simpa using h0) (List.cons_ne_nil d ds) hc, hdot, if_pos rfl]

/-- The precision of the conversion, with its dot. -/
theorem precision_run (p : Amount) (hp : ∀ ds, p = .digits ds → ∀ c ∈ ds, isDigit c = true) (hc : isDigit c = false) :
    ∃ dot zero precision, ftParseFlags args flags n (chr '.' :: (p.text ++ c :: cs)) =
        ftParseFlags args { flags with dot, zero, precision } (n + p.stars) (c :: cs) ∧
      dot = decide (0 ≤ p.value args n) ∧ (p = .star → zero = false) ∧
      (p.value args n < 2 ^ 31 → precision.toInt = p.value args n) := by
  have hround : ftParseFlags args flags n (chr '.' :: (p.text ++ c :: cs)) =
      ftParseFlags args (handleDot flags) n (p.text ++ c :: cs) := by
    have hstar : ¬(flags.dot && chr '.' == chr '*') = true := by
      rw [Bool.and_eq_true]
      exact fun h => absurd h.2 (by decide)
    rw [parse_cons args flags n _ (by decide), parseRound, if_neg hstar]
    rfl
  rw [hround]
  cases p with
  | digits ds =>
    obtain ⟨zero, hrun⟩ := precisionDigits_run args (handleDot flags) n cs (hp ds rfl) hc rfl rfl
    have hpos : decide (0 ≤ (decimal ds : Int)) = true := decide_eq_true (Int.natCast_nonneg _)
    refine ⟨true, zero, BitVec.ofNat 32 (decimal ds), hrun, hpos.symm, nofun, fun hlt => ?_⟩
    rw [Amount.value] at hlt ⊢
    exact CInt.toInt_ofNat (by omega)
  | star =>
    have hstar : ((handleDot flags).dot && chr '*' == chr '*') = true := by
      rw [handleDot, Bool.true_and]
      decide
    refine ⟨decide (0 ≤ (args n).int.toInt), false, (args n).int, ?_, rfl, fun _ => rfl, fun _ => rfl⟩
    rw [Amount.text, List.singleton_append, parse_cons args (handleDot flags) n _ (by decide), parseRound, if_pos hstar]
    by_cases hneg : (args n).int.toInt < 0
    · simp only [hneg, if_true, decide_eq_false (Int.not_le.mpr hneg)]
      rfl
    · simp only [hneg, if_false, decide_eq_true (Int.not_lt.mp hneg)]
      rfl

end Rounds

/-! ### The whole conversion -/

section Whole
variable {d : Directive} {args : VaList} {n : Nat} {rest : List UInt8}

theorem Directive.conv_type (d : Directive) : ftIstype d.conv = true ∧ isDigit d.conv = false := by
  have hall : (cstr "cspdiuxX").all (fun c => ftIstype c && !isDigit c) = true := by decide
  simpa using List.all_eq_true.mp hall d.conv d.conv_ok

/-- The precision that the flags carry behind the dot, or that of `ft_flags_init`. -/
structure ReadsPrecision (d : Directive) (args : VaList) (n : Nat) (flags : Flags) : Prop where
  none : d.precision = none → flags.dot = false ∧ flags.precision = -1
  some : ∀ p, d.precision = some p → flags.dot = decide (0 ≤ p.value args (n + d.width.stars)) ∧
    (p.value args (n + d.width.stars) < 2 ^ 31 → flags.precision.toInt = p.value args (n + d.width.stars))

/-- What the parser makes of every conversion. -/
structure Reads (d : Directive) (args : VaList) (n : Nat) (flags : Flags) : Prop where
  left : flags.left = (d.layout args n).left
  plus : flags.plus = (d.layout args n).plus
  space : flags.plus = false → flags.space = (d.layout args n).space
  alt : flags.hash = (d.layout args n).alt
  width : (d.width.value args n).natAbs < 2 ^ 31 → flags.width.toInt = (d.layout args n).width
  precision : ReadsPrecision d args n flags
  zero : d.precision = none → flags.left = false → flags.zero = (d.layout args n).zero
  star : d.precision = some .star → flags.zero = false

theorem exists_reads (d : Directive) (args : VaList) (n : Nat) (rest : List UInt8) :
    ∃ flags, ftParseFlags args ftFlagsInit n (d.text ++ rest) = (flags, n + d.stars, d.conv :: rest) ∧
      Reads d args n flags := by
  obtain ⟨htype, hdigit⟩ := d.conv_type
  have hend : ∀ flags m, ftParseFlags args flags m (d.conv :: rest) = (flags, m, d.conv :: rest) := by
    intro flags m
    rw [ftParseFlags, htype, if_pos rfl]
  obtain ⟨f₁, hrun₁, hleft₁, hplus₁, hspace₁, hhash₁, hzero₁, hdot₁, hwidth₁, hprec₁⟩ :=
    flags_run args ftFlagsInit n (d.width.text ++ (Directive.precisionText d.precision ++ ([d.conv] ++ rest)))
      d.flags_ok
  have htext : d.text ++ rest =
      d.flags ++ (d.width.text ++ (Directive.precisionText d.precision ++ ([d.conv] ++ rest))) := by
    simp only [Directive.text, List.append_assoc]
  rw [htext, hrun₁]
  cases hp : d.precision with
  | none =>
    obtain ⟨left, star, width, hrun₂, hleft₂, hwidth₂⟩ :=
      width_run args f₁ n rest d.width d.width_ok hdot₁ hwidth₁ hdigit
    refine ⟨{ f₁ with left, star, width }, ?_, ?_⟩
    · rw [Directive.stars, hp]
      exact hrun₂.trans (hend _ _)
    · refine ⟨?_, hplus₁, hspace₁, hhash₁, hwidth₂, ⟨fun _ => ⟨hdot₁, hprec₁⟩, fun p hsome => ?_⟩, fun _ hleft => ?_,
        fun hsome => ?_⟩
      · rw [hleft₂, hleft₁]
        rfl
      · rw [hp] at hsome
        cases hsome
      · have hleft' : left = false := hleft
        rw [hleft', eq_comm, Bool.or_eq_false_iff] at hleft₂
        exact hzero₁ hleft₂.1
      · rw [hp] at hsome
        cases hsome
  | some p =>
    obtain ⟨left, star, width, hrun₂, hleft₂, hwidth₂⟩ :=
      width_run args f₁ n (c := chr '.') (p.text ++ d.conv :: rest) d.width d.width_ok hdot₁ hwidth₁ (by decide)
    obtain ⟨dot, zero, precision, hrun₃, hdot₃, hzero₃, hprec₃⟩ :=
      precision_run args { f₁ with left, star, width } (n + d.width.stars) rest p
        (fun ds hds => d.precision_ok ds (hds ▸ hp)) hdigit
    refine ⟨{ f₁ with left, star, width, dot, zero, precision }, ?_, ?_⟩
    · rw [Directive.stars, hp, ← Nat.add_assoc]
      exact (hrun₂.trans hrun₃).trans (hend _ _)
    · refine ⟨?_, hplus₁, hspace₁, hhash₁, hwidth₂, ⟨fun hnone => ?_, fun q hsome => ?_⟩, fun hnone => ?_,
        fun hsome => hzero₃ (Option.some.inj (hp.symm.trans hsome))⟩
      · rw [hleft₂, hleft₁]
        rfl
      · rw [hp] at hnone
        cases hnone
      · rw [hp, Option.some.injEq] at hsome
        exact hsome ▸ ⟨hdot₃, hprec₃⟩
      · rw [hp] at hnone
        cases hnone

theorem Directive.precisionValue_none (h : d.precision = none) : d.precisionValue args n = none := by
  rw [Directive.precisionValue, h, Option.bind_none]

theorem Directive.precisionValue_some {p : Amount} (h : d.precision = some p) :
    d.precisionValue args n = if p.value args (n + d.width.stars) < 0 then none
      else some (p.value args (n + d.width.stars)).toNat := by
  rw [Directive.precisionValue, h, Option.bind_some]

/-- The precision comes out right when it is an `int`. -/
theorem Reads.precision_eq {flags : Flags} (h : Reads d args n flags)
    (hfits : ∀ p ∈ d.precision, p.value args (n + d.width.stars) < 2 ^ 31) :
    (if flags.dot then some flags.precision.toInt else none) = (d.precisionValue args n).map Nat.cast := by
  cases hp : d.precision with
  | none =>
    rw [(h.precision.none hp).1, Directive.precisionValue_none hp]
    rfl
  | some p =>
    obtain ⟨hdot, hprec⟩ := h.precision.some p hp
    rw [hdot, hprec (hfits p hp), Directive.precisionValue_some hp]
    by_cases hneg : p.value args (n + d.width.stars) < 0
    · rw [if_pos hneg, decide_eq_false (Int.not_le.mpr hneg)]
      rfl
    · have hpos := Int.not_lt.mp hneg
      rw [if_neg hneg, decide_eq_true hpos, if_pos rfl, Option.map_some, Int.toNat_of_nonneg hpos]

theorem Reads.dot_eq {flags : Flags} (h : Reads d args n flags) : flags.dot = (d.precisionValue args n).isSome := by
  cases hp : d.precision with
  | none =>
    rw [(h.precision.none hp).1, Directive.precisionValue_none hp]
    rfl
  | some p =>
    rw [(h.precision.some p hp).1, Directive.precisionValue_some hp]
    by_cases hneg : p.value args (n + d.width.stars) < 0
    · rw [if_pos hneg, decide_eq_false (Int.not_le.mpr hneg)]
      rfl
    · rw [if_neg hneg, decide_eq_true (Int.not_lt.mp hneg)]
      rfl

/-- A negative precision is that of a star, and is none. -/
theorem Directive.precisionValue_star (h : d.precision = some .star) :
    d.precisionValue args n = none ↔ (args (n + d.width.stars)).int.toInt < 0 := by
  rw [Directive.precisionValue_some h, Amount.value]
  split
  · rename_i hneg
    exact iff_of_true rfl hneg
  · rename_i hpos
    exact iff_of_false nofun hpos

theorem Directive.precisionValue_digits {ds : List UInt8} (h : d.precision = some (.digits ds)) :
    d.precisionValue args n = some (decimal ds) := by
  rw [Directive.precisionValue_some h, Amount.value, if_neg (Int.not_lt.mpr (Int.natCast_nonneg _)), Int.toNat_natCast]

/-- Without `-`, a `0` is lost to a star behind the dot only. -/
theorem Reads.zero_eq {flags : Flags} (h : Reads d args n flags) (hleft : (d.layout args n).left = false)
    (hvalue : d.precisionValue args n = none) :
    flags.zero = if d.precision = some .star then false else (d.layout args n).zero := by
  cases hp : d.precision with
  | none => exact h.zero hp (h.left.trans hleft)
  | some p =>
    cases p with
    | star => exact h.star hp
    | digits ds =>
      rw [Directive.precisionValue_digits hp] at hvalue
      cases hvalue

/-- The numbers that the flags carry are `int`s, and the `0` is not lost. -/
theorem Reads.fits_of_means {flags : Flags} (h : Reads d args n flags)
    (hm : Means flags (d.layout args n) d.numeric) : d.Fits args n := by
  refine ⟨?_, fun p hp => ?_, ?_⟩
  · have hlt := (CInt.fits_toInt flags.width).2
    have hwidth : flags.width.toInt = (d.width.value args n).natAbs := hm.width
    omega
  · cases p with
    | star => exact (CInt.fits_toInt _).2
    | digits ds =>
      have hprec : (if flags.dot then some flags.precision.toInt else none) =
        (d.precisionValue args n).map Nat.cast := hm.precision
      rw [h.dot_eq, Directive.precisionValue_digits hp, Option.isSome_some, if_pos rfl, Option.map_some,
        Option.some.injEq] at hprec
      have hlt := (CInt.fits_toInt flags.precision).2
      rwa [hprec] at hlt
  · rintro ⟨hnum, hzero, hleft, hstar, hneg⟩
    have hvalue : d.precisionValue args n = none := (Directive.precisionValue_star hstar).mpr hneg
    have hforce := hm.zero hnum
    rw [h.star hstar, hzero, hleft, show (d.layout args n).precision = none from hvalue] at hforce
    cases hforce

/-- The flags mean what C says exactly for the conversions that fit. -/
theorem Reads.means_iff {flags : Flags} (h : Reads d args n flags) :
    Means flags (d.layout args n) d.numeric ↔ d.Fits args n := by
  refine ⟨h.fits_of_means, ?_⟩
  rintro ⟨hwidth, hprec, hzero⟩
  refine ⟨h.left, h.plus, fun hplus => h.space (h.plus.trans hplus), h.alt, h.width hwidth, h.precision_eq hprec,
    fun hdot => ?_, fun hnum => ?_⟩
  · cases hp : d.precision with
    | none =>
      rw [(h.precision.none hp).2]
      decide
    | some p =>
      obtain ⟨hdot', hvalue⟩ := h.precision.some p hp
      rw [hvalue (hprec p hp)]
      rw [hdot, eq_comm, decide_eq_false_iff_not] at hdot'
      exact Int.not_le.mp hdot'
  · rw [h.left, h.dot_eq, Option.not_isSome]
    cases hleft : (d.layout args n).left with
    | true => rw [Bool.not_true, Bool.and_false, Bool.and_false, Bool.false_and, Bool.false_and]
    | false =>
      change (flags.zero && _ && (d.precisionValue args n).isNone) = (_ && _ && (d.precisionValue args n).isNone)
      cases hvalue : d.precisionValue args n with
      | some v => rw [Option.isNone_some, Bool.and_false, Bool.and_false]
      | none =>
        rw [h.zero_eq hleft hvalue]
        split
        · rename_i hstar
          have hlost : (d.layout args n).zero = false := by
            by_contra hset
            exact hzero ⟨hnum, Bool.eq_true_of_not_eq_false hset, hleft, hstar,
              (Directive.precisionValue_star hstar).mp hvalue⟩
          rw [hlost]
        · rfl

end Whole

end Minitalk.Printf
