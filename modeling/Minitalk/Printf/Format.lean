import Minitalk.Printf.Directive

/-! # What `ft_printf` shows of a whole format

A format is made of characters, of `%%` and of conversions, which take their arguments one after the other. As long
as every number is an `int`, `ft_process_format` writes what C writes and returns how much it has written. -/

namespace Minitalk.Printf
open CText CPrintf

/-- What `%s` shows of its argument; of a null pointer `(null)`, or nothing when the precision has no room for it. -/
def shownString (l : Layout) : Option CString → List UInt8
  | some s => s.1
  | none => if l.precision.getD 6 < 6 then [] else cstr "(null)"

/-- What `%p` shows: the digits behind `0x`. -/
def shownPointer (n : Nat) : List UInt8 := if n = 0 then cstr "(nil)" else cstr "0x" ++ numeral 16 false n

def numConv (conv : UInt8) : Option NumConv :=
  if conv = chr 'd' ∨ conv = chr 'i' then some .int
  else if conv = chr 'u' then some .unsigned
  else if conv = chr 'x' then some (.hex false)
  else if conv = chr 'X' then some (.hex true)
  else none

section Directive
variable (d : Directive) (args : VaList) (n : Nat)

/-- What C shows of a conversion, whose arguments begin with the n-th. -/
def Directive.shown : List UInt8 :=
  let l := d.layout args n
  let arg := args (n + d.stars)
  match numConv d.conv with
  | some k => intText l k.style (k.value arg.int)
  | none =>
    if d.conv = chr 'c' then pad l [UInt8.ofNat arg.int.toNat]
    else if d.conv = chr 's' then strText l (shownString l arg.string)
    else pad l (shownPointer arg.pointer.toNat)

/-- C defines the conversion, and everything that it counts is an `int`: a `%p` has no flag but `-` and no
    precision, and a sign and the precision together are an `int`. -/
structure Directive.Printable : Prop where
  fits : d.Fits args n
  sign : numConv d.conv = some .int → ∀ p, d.precisionValue args n = some p →
    (mark (d.layout args n) .signed (args (n + d.stars)).int.toInt).length + p < 2 ^ 31
  string : d.conv = chr 's' → ∀ s, (args (n + d.stars)).string = some s → s.1.length < 2 ^ 31
  pointer : d.conv = chr 'p' → (∀ c ∈ d.flags, c = chr '-') ∧ d.precision = none

end Directive

/-! ### `c`, `s` and `p` -/

section Texts
variable {flags : Flags}

theorem ftPrintChar_eq (h : flags.Regular) (c : UInt8) : ftPrintChar c flags = .write (pad flags.layout [c]) := by
  have hwidth : (flags.width - 1).toInt = flags.width.toInt - 1 := width_sub h (m := 1) (by decide) (by decide)
  have hm : ((flags.width - 1).toInt - (0 : BitVec 32).toInt).toNat = flags.layout.width - [c].length := by
    rw [hwidth, layout_width, toInt_zero, List.length_singleton]
    omega
  rw [ftPrintChar, ftPrintWidth_eq hm, ftPrintC, pad, layout_left]
  split <;> exact Out.write_append _ _

theorem ftPrintStrprec_eq (s : List UInt8) {len : BitVec 32} {m : Nat} (hlen : len.toInt = m) :
    ftPrintStrprec s len = .write (s.take m) := by
  rw [ftPrintStrprec, if_neg (by omega)]
  congr 2
  omega

/-- A text of which the precision shows `len` bytes. -/
theorem printAlignedStr_eq (h : flags.Regular) (s : List UInt8) {len : BitVec 32} {m : Nat} (hlen : len.toInt = m)
    (hm : m ≤ s.length) : printAlignedStr s len flags = .write (pad flags.layout (s.take m)) := by
  have hwidth : (flags.width.toInt - len.toInt).toNat = flags.layout.width - (s.take m).length := by
    have := h.width
    rw [hlen, layout_width, List.length_take, Nat.min_eq_left hm]
    omega
  rw [printAlignedStr, ftPrintStrprec_eq s hlen, ftPrintWidth_eq hwidth, pad, layout_left]
  split <;> exact Out.write_append _ _

theorem pad_nil (flags : Flags) : ftPrintWidth flags.width 0 false = .write (pad flags.layout []) := by
  have hwidth : (flags.width.toInt - (0 : BitVec 32).toInt).toNat = flags.layout.width := by
    rw [layout_width, toInt_zero, Int.sub_zero]
  rw [ftPrintWidth_eq hwidth, if_neg Bool.false_ne_true, pad]
  split <;> simp

/-- The bytes of a text that the precision lets through. -/
theorem printed_prefix (h : flags.Regular) {s : List UInt8} (hlen : s.length < 2 ^ 31) :
    printAlignedStr s (if flags.dot && decide (flags.precision.toInt < (BitVec.ofNat 32 s.length).toInt)
      then flags.precision else BitVec.ofNat 32 s.length) flags = .write (strText flags.layout s) := by
  have hs : (BitVec.ofNat 32 s.length).toInt = s.length := CInt.toInt_ofNat hlen
  have hprec := h.precision
  rw [strText, layout_precision, hs]
  cases hdot : flags.dot with
  | false =>
    simp only [Bool.false_and, Bool.false_eq_true, if_false]
    rw [printAlignedStr_eq h s hs (Nat.le_refl _), List.take_length]
  | true =>
    have hpos := hprec.mp hdot
    have hp : flags.precision.toInt = flags.precision.toInt.toNat := by omega
    simp only [Bool.true_and, decide_eq_true_eq, if_true]
    split
    · rw [printAlignedStr_eq h s hp (by omega)]
    · rw [printAlignedStr_eq h s hs (Nat.le_refl _), List.take_length, List.take_of_length_le (by omega)]

theorem ftPrintStr_eq (h : flags.Regular) {arg : Option CString} (hlen : ∀ s, arg = some s → s.1.length < 2 ^ 31) :
    ftPrintStr arg flags = .write (strText flags.layout (shownString flags.layout arg)) := by
  have hprec := h.precision
  unfold ftPrintStr
  by_cases hnone : (flags.dot && (flags.precision == 0 || flags.precision == -1)) = true
  · -- A precision of 0 hides everything; -1 is none.
    rw [if_pos hnone, pad_nil]
    simp only [Bool.and_eq_true, Bool.or_eq_true, beq_iff_eq] at hnone
    obtain ⟨hdot, hzero | hneg⟩ := hnone
    · rw [strText, layout_precision, if_pos hdot, hzero]
      rfl
    · rw [hneg] at hprec
      exact absurd (hprec.mp hdot) (by decide)
  · rw [if_neg hnone]
    cases arg with
    | none =>
      have hroom : (flags.dot && decide (flags.precision.toInt < 6)) = true ↔
          flags.layout.precision.getD 6 < 6 := by
        rw [layout_precision]
        cases hdot : flags.dot with
        | false => simp
        | true => simp
      by_cases hcut : (flags.dot && decide (flags.precision.toInt < 6)) = true
      · rw [shownString, if_pos (hroom.mp hcut), if_pos (by simpa using hcut), pad_nil, strText]
        cases flags.layout.precision <;> simp
      · rw [shownString, if_neg (fun hlt => hcut (hroom.mpr hlt)), if_neg (by simpa using hcut)]
        exact printed_prefix h (by decide)
    | some s =>
      rw [if_neg (by simp)]
      exact printed_prefix h (hlen s rfl)

theorem nullPtrPadding_eq (h : flags.Regular) : nullPtrPadding flags = .write (spaces (flags.layout.width - 5)) := by
  have hwidth : (flags.width.toInt - (5 : BitVec 32).toInt).toNat = flags.layout.width - 5 := by
    have := h.width
    rw [layout_width, show (5 : BitVec 32).toInt = 5 from rfl]
    omega
  unfold nullPtrPadding
  split
  · exact ftPrintWidth_eq hwidth false
  · rename_i hle
    rw [layout_width, Nat.sub_eq_zero_of_le (by omega)]
    rfl

/-- The digits of a pointer. -/
theorem pointer_digits (n : BitVec 64) :
    ftPrintHexValue n false = .write (numeral 16 false n.toNat) ∧
      (ftNbrLen n.toNat 16).toInt = (numeral 16 false n.toNat).length ∧ (numeral 16 false n.toNat).length ≤ 16 := by
  have hpow : n.toNat < 16 ^ 16 := Nat.lt_of_lt_of_le n.isLt (by decide)
  have hlt : n.toNat < 16 ^ (63 + 1) := Nat.lt_of_lt_of_le n.isLt (by decide)
  have hlen : (if n.toNat = 0 then 1 else nbrLenLoop 16 64 n.toNat) = (numeral 16 false n.toNat).length := by
    rw [nbrLenLoop_eq (by decide) (Nat.lt_of_lt_of_le n.isLt (by decide))]
    unfold numeral
    split <;> simp
  have hle : (numeral 16 false n.toNat).length ≤ 16 := by
    unfold numeral
    split
    · decide
    · rw [List.length_reverse, List.length_map]
      exact (Nat.digits_length_le_iff (by decide) _).mpr hpow
  refine ⟨?_, ?_, hle⟩
  · rw [ftPrintHexValue, printDigits_eq _ (by decide) hlt, numeral_eq_digits]
    rfl
  · rw [ftNbrLen, hlen, CInt.toInt_ofNat (by omega)]

theorem ftPrintPtr_eq (h : flags.Regular) (hdot : flags.dot = false) (hzero : flags.left = false → flags.zero = false)
    (n : BitVec 64) : ftPrintPtr n flags = .write (pad flags.layout (shownPointer n.toNat)) := by
  have hneg : ¬0 ≤ flags.precision.toInt := fun hpos => absurd (h.precision.mpr hpos) (by rw [hdot]; decide)
  unfold ftPrintPtr shownPointer
  by_cases hn : n = 0
  · subst hn
    rw [if_pos (by decide), if_pos (show (0 : BitVec 64).toNat = 0 from rfl), ftPrintNullPtr, hdot, if_neg (by simp),
      ftPrintNullPtrLeft, ftPrintNullPtrRight, nullPtrPadding_eq h, pad, layout_left]
    split <;> exact Out.write_append _ _
  · have hn0 : n.toNat ≠ 0 := fun h0 => hn (BitVec.eq_of_toNat_eq h0)
    obtain ⟨hdigits, hlen, hle⟩ := pointer_digits n
    have htwo : (2 : BitVec 32).toInt = 2 := rfl
    have hsum : (2 + ftNbrLen n.toNat 16).toInt = 2 + (numeral 16 false n.toNat).length := by
      rw [CInt.toInt_add ⟨by rw [hlen, htwo]; omega, by rw [hlen, htwo]; omega⟩, hlen, htwo]
    have hprecise : ftPrintPtrHexPrecision n flags.precision = .write (numeral 16 false n.toNat) := by
      rw [ftPrintPtrHexPrecision, if_neg (by omega), hdigits]
      exact Out.write_append _ _
    have hwidth : (flags.width.toInt - (2 + ftNbrLen n.toNat 16).toInt).toNat =
        flags.layout.width - (cstr "0x" ++ numeral 16 false n.toNat).length := by
      have := h.width
      rw [hsum, layout_width, List.length_append, show (cstr "0x").length = 2 from rfl]
      omega
    rw [if_neg (by simpa using hn), if_neg hn0]
    simp only [hdot, Bool.false_and, Bool.false_eq_true, if_false]
    rw [pad, layout_left]
    cases hleft : flags.left with
    | true =>
      simp only [if_true, ftPrintPtrLeft, hprecise, ftPrintWidth_eq hwidth, ftPrintHexPrefix]
      simp
    | false =>
      simp only [Bool.false_eq_true, if_false, ftPrintPtrRight, hzero hleft, Bool.false_and, ftPrintPtrRightStd,
        hprecise, ftPrintWidth_eq hwidth, ftPrintHexPrefix]
      simp

end Texts

/-! ### A conversion -/

section Conversion
variable {d : Directive} {args : VaList} {n : Nat} {flags : Flags} {l : Layout} {num : Prop}

theorem Means.regular (h : Means flags l num) : flags.Regular where
  width := by
    rw [h.width]
    exact Int.natCast_nonneg _
  precision := by
    have hprec := h.precision
    have habsent := h.absent
    cases hdot : flags.dot with
    | false => simpa using habsent hdot
    | true =>
      rw [hdot, if_pos rfl] at hprec
      obtain ⟨p, -, hp⟩ := Option.map_eq_some_iff.mp hprec.symm
      rw [← hp]
      simp

theorem Means.precision_eq (h : Means flags l num) : flags.layout.precision = l.precision := by
  have hprec := h.precision
  rw [layout_precision]
  cases hdot : flags.dot with
  | false =>
    rw [hdot, if_neg Bool.false_ne_true] at hprec
    rw [if_neg Bool.false_ne_true, Option.map_eq_none_iff.mp hprec.symm]
  | true =>
    rw [hdot, if_pos rfl] at hprec
    obtain ⟨p, hl, hp⟩ := Option.map_eq_some_iff.mp hprec.symm
    rw [if_pos rfl, hl, ← hp]
    simp

theorem Means.width_eq (h : Means flags l num) : flags.layout.width = l.width := by
  rw [layout_width, h.width, Int.toNat_natCast]

theorem Means.shownString_eq (h : Means flags l num) (s : Option CString) :
    shownString flags.layout s = shownString l s := by
  cases s with
  | none => rw [shownString, shownString, h.precision_eq]
  | some s => rfl

/-- The text that the flags ask for is the one that C's layout does. -/
theorem Means.pad_eq (h : Means flags l num) (text : List UInt8) : pad flags.layout text = pad l text := by
  rw [pad, pad, layout_left, h.left, h.width_eq]

theorem Means.strText_eq (h : Means flags l num) (s : List UInt8) : strText flags.layout s = strText l s := by
  rw [strText, strText, h.precision_eq, h.pad_eq]

theorem Means.mark_eq (h : Means flags l num) (k : Style) (v : Int) : mark flags.layout k v = mark l k v := by
  have hplus : flags.layout.plus = l.plus := h.plus
  have hspace : l.plus = false → flags.layout.space = l.space := h.space
  have halt : flags.layout.alt = l.alt := h.alt
  unfold mark
  rw [hplus, halt]
  cases hp : l.plus with
  | true => rfl
  | false => rw [hspace hp]

theorem Means.intText_eq (h : Means flags l num) (hnum : num) (k : Style) (v : Int) :
    intText flags.layout k v = intText l k v := by
  have hfigures : figures flags.layout k v.natAbs = figures l k v.natAbs := by
    rw [figures, figures, precise, precise, h.precision_eq, show flags.layout.alt = l.alt from h.alt]
  have hzero : (flags.layout.zero = true ∧ flags.layout.left = false ∧ flags.layout.precision = none) ↔
      (l.zero = true ∧ l.left = false ∧ l.precision = none) := by
    have hbool : ∀ (zero left : Bool) (p : Option Nat),
        (zero && !left && p.isNone) = true ↔ (zero = true ∧ left = false ∧ p = none) := fun zero left p => by
      cases zero <;> cases left <;> cases p <;> simp
    have hdot : flags.layout.precision.isNone = !flags.dot := by
      rw [layout_precision]
      cases flags.dot <;> rfl
    rw [← hbool, ← hbool, hdot, layout_zero, layout_left, h.zero hnum]
  simp only [intText, h.mark_eq, hfigures, h.pad_eq, h.width_eq, hzero]

theorem conv_cases (d : Directive) : (d.conv = chr 'c' ∨ d.conv = chr 's' ∨ d.conv = chr 'p') ∨
    ∃ k, numConv d.conv = some k ∧ d.numeric ∧
      convertTable d.conv = some fun flags arg => (k.run arg.int flags, 1) := by
  have hall : (cstr "cspdiuxX").all (fun c => decide ((c = chr 'c' ∨ c = chr 's' ∨ c = chr 'p') ∨
      (c = chr 'd' ∨ c = chr 'i' ∨ c = chr 'u' ∨ c = chr 'x' ∨ c = chr 'X'))) = true := by decide
  unfold Directive.numeric
  rcases of_decide_eq_true (List.all_eq_true.mp hall d.conv d.conv_ok) with h | h
  · exact Or.inl h
  · right
    rcases h with h | h | h | h | h <;> rw [h]
    · exact ⟨.int, by decide, by decide, rfl⟩
    · exact ⟨.int, by decide, by decide, rfl⟩
    · exact ⟨.unsigned, by decide, by decide, rfl⟩
    · exact ⟨.hex false, by decide, by decide, rfl⟩
    · exact ⟨.hex true, by decide, by decide, rfl⟩

/-- A conversion takes one argument, and writes what C shows. -/
theorem ftProcessConversion_eq (h : d.Printable args n) (hreads : Reads d args n flags) :
    ftProcessConversion d.conv flags (args (n + d.stars)) = (.write (d.shown args n), 1) := by
  have hmeans := hreads.means_iff.mpr h.fits
  have hregular := hmeans.regular
  rcases conv_cases d with (hc | hs | hp) | ⟨k, hk, hnum, htable⟩
  · have hshown : d.shown args n = pad (d.layout args n) [UInt8.ofNat (args (n + d.stars)).int.toNat] := by
      rw [Directive.shown, hc]
      rfl
    rw [hshown, ← hmeans.pad_eq, ← ftPrintChar_eq hregular, hc]
    rfl
  · have hshown : d.shown args n = strText (d.layout args n)
        (shownString (d.layout args n) (args (n + d.stars)).string) := by
      rw [Directive.shown, hs]
      rfl
    rw [hshown, ← hmeans.strText_eq, ← hmeans.shownString_eq, ← ftPrintStr_eq hregular (h.string hs), hs]
    rfl
  · obtain ⟨hminus, hprec⟩ := h.pointer hp
    have hshown : d.shown args n = pad (d.layout args n) (shownPointer (args (n + d.stars)).pointer.toNat) := by
      rw [Directive.shown, hp]
      rfl
    have hdot : flags.dot = false := (hreads.precision.none hprec).1
    have hzero : flags.left = false → flags.zero = false := fun hleft => by
      rw [hreads.zero hprec hleft]
      exact Bool.eq_false_iff.mpr fun hz => absurd (hminus _ (List.contains_iff_mem.mp hz)) (by decide)
    rw [hshown, ← hmeans.pad_eq, ← ftPrintPtr_eq hregular hdot hzero, hp]
    show (ftConvertPtr flags _) = _
    simp [ftConvertPtr, hdot]
  · have hshown : d.shown args n = intText (d.layout args n) k.style (k.value (args (n + d.stars)).int) := by
      rw [Directive.shown, hk]
    have hcounted : k = .int → Counted k (args (n + d.stars)).int flags := by
      rintro rfl hdot
      have hprec := hmeans.precision
      rw [hdot, if_pos rfl] at hprec
      obtain ⟨p, hvalue, hp⟩ := Option.map_eq_some_iff.mp hprec.symm
      have hfits := h.sign hk p hvalue
      rw [hmeans.mark_eq, ← hp]
      exact_mod_cast hfits
    rw [hshown, ← hmeans.intText_eq hnum, ← run_eq hregular hcounted, ftProcessConversion, htable]

end Conversion

/-! ### A whole format -/

/-- A part of a format. -/
inductive Piece where
  | literal (c : UInt8) (hc : c ≠ chr '%')
  | percent
  | directive (d : Directive)

namespace Piece
variable (args : VaList) (n : Nat)

def text : Piece → List UInt8
  | literal c _ => [c]
  | percent => cstr "%%"
  | directive d => chr '%' :: d.text

/-- How many arguments it takes. -/
def arity : Piece → Nat
  | directive d => d.stars + 1
  | _ => 0

def shown : Piece → List UInt8
  | literal c _ => [c]
  | percent => cstr "%"
  | directive d => d.shown args n

def Printable : Piece → Prop
  | directive d => d.Printable args n
  | _ => True

end Piece

/-- What C shows of a format whose arguments begin with the n-th. -/
def shownFrom (args : VaList) (n : Nat) : List Piece → List UInt8
  | [] => []
  | p :: ps => p.shown args n ++ shownFrom args (n + p.arity) ps

def PrintableFrom (args : VaList) (n : Nat) : List Piece → Prop
  | [] => True
  | p :: ps => p.Printable args n ∧ PrintableFrom args (n + p.arity) ps

section Whole
variable {args : VaList} {n : Nat}

/-- A part is written on its own, and the parts behind it with the arguments that it has left. -/
theorem processFrom_piece {p : Piece} (h : p.Printable args n) (rest : List UInt8) :
    processFrom args n (p.text ++ rest) =
      (processFrom args (n + p.arity) rest).map (.write (p.shown args n) ++ ·) := by
  cases p with
  | literal c hc =>
    rw [Piece.text, List.singleton_append, processFrom, if_neg fun h => hc h.1]
    rfl
  | percent =>
    have hparse : ftParseFlags args ftFlagsInit n (chr '%' :: rest) = (ftFlagsInit, n, chr '%' :: rest) := by
      rw [ftParseFlags, if_pos (by decide)]
    show processFrom args n (chr '%' :: chr '%' :: rest) = _
    rw [processFrom, if_pos ⟨rfl, List.cons_ne_nil _ _⟩]
    split
    · rename_i hrest
      rw [hparse] at hrest
      cases hrest
    · rename_i hrest
      rw [hparse] at hrest
      cases hrest
      rfl
  | directive d =>
    obtain ⟨flags, hparse, hreads⟩ := exists_reads d args n rest
    have hconv := ftProcessConversion_eq h hreads
    have hne : d.text ++ rest ≠ [] := by simp [Directive.text]
    rw [Piece.text, List.cons_append, processFrom, if_pos ⟨rfl, hne⟩]
    split
    · rename_i hrest
      rw [hparse] at hrest
      cases hrest
    · rename_i hrest
      rw [hparse] at hrest
      cases hrest
      rw [hconv]
      rfl

theorem processFrom_pieces {ps : List Piece} (h : PrintableFrom args n ps) :
    processFrom args n (ps.flatMap Piece.text) = some (.write (shownFrom args n ps)) := by
  induction ps generalizing n with
  | nil =>
    rw [List.flatMap_nil, processFrom]
    rfl
  | cons p ps ih =>
    rw [List.flatMap_cons, processFrom_piece h.1, ih h.2, Option.map_some, Out.write_append, shownFrom]

end Whole

end Minitalk.Printf
