import Mathlib.Data.Nat.Digits.Lemmas
import Minitalk.Lib.CText

/-! # What C's `printf` shows

The text of a conversion with its flags, width and precision: of a string, and of an integer. -/

namespace CPrintf
open CText

/-- The flags `-`, `+`, space, `#` and `0`, the width and the precision. -/
structure Layout where
  left : Bool := false
  plus : Bool := false
  space : Bool := false
  alt : Bool := false
  zero : Bool := false
  width : Nat := 0
  precision : Option Nat := none
deriving DecidableEq

/-- How an integer is written: `d` and `i`, `u`, `o`, `x` and `X`. -/
inductive Style where
  | signed
  | unsigned
  | octal
  | hex (upper : Bool)
deriving DecidableEq

def Style.base : Style → Nat
  | signed | unsigned => 10
  | octal => 8
  | hex _ => 16

def Style.upper : Style → Bool
  | hex upper => upper
  | _ => false

def spaces (n : Nat) : List UInt8 := List.replicate n (chr ' ')

def zeros (n : Nat) : List UInt8 := List.replicate n (chr '0')

/-- Spaces up to the width, in front or behind. -/
def pad (l : Layout) (text : List UInt8) : List UInt8 :=
  if l.left then text ++ spaces (l.width - text.length) else spaces (l.width - text.length) ++ text

/-- `%s` -/
def strText (l : Layout) (s : List UInt8) : List UInt8 :=
  pad l (match l.precision with | none => s | some p => s.take p)

def digitChar (upper : Bool) (d : Nat) : UInt8 :=
  ((if upper then cstr "0123456789ABCDEF" else cstr "0123456789abcdef")[d]?).getD 0

/-- The canonical digits, the highest first. -/
def numeral (base : Nat) (upper : Bool) (n : Nat) : List UInt8 :=
  if n = 0 then [chr '0'] else ((Nat.digits base n).map (digitChar upper)).reverse

/-- With the zeros that the precision asks for; nothing for 0 with precision 0. -/
def precise (l : Layout) (k : Style) (n : Nat) : List UInt8 :=
  match l.precision with
  | none => numeral k.base k.upper n
  | some p =>
    if n = 0 ∧ p = 0 then []
    else zeros (p - (numeral k.base k.upper n).length) ++ numeral k.base k.upper n

/-- `#` makes the first digit of an octal number a zero. -/
def figures (l : Layout) (k : Style) (n : Nat) : List UInt8 :=
  if k = .octal ∧ l.alt = true ∧ (precise l k n).head? ≠ some (chr '0') then chr '0' :: precise l k n
  else precise l k n

/-- The sign of a signed number, or the mark of a hexadecimal one. -/
def mark (l : Layout) (k : Style) (v : Int) : List UInt8 :=
  match k with
  | .signed => if v < 0 then cstr "-" else if l.plus then cstr "+" else if l.space then cstr " " else []
  | .hex upper => if l.alt = true ∧ v ≠ 0 then (if upper then cstr "0X" else cstr "0x") else []
  | _ => []

/-- `0` asks for zeros up to the width, unless `-` or a precision is there. -/
def intText (l : Layout) (k : Style) (v : Int) : List UInt8 :=
  let mark := mark l k v
  let figures := figures l k v.natAbs
  if l.zero = true ∧ l.left = false ∧ l.precision = none then
    mark ++ zeros (l.width - (mark.length + figures.length)) ++ figures
  else pad l (mark ++ figures)

section Figures
variable {l : Layout} {k : Style} {n : Nat} {base : Nat} {upper : Bool}

theorem numeral_ne_nil (base : Nat) (upper : Bool) (n : Nat) : numeral base upper n ≠ [] := by
  unfold numeral
  split
  · exact List.cons_ne_nil _ _
  · rw [Ne, List.reverse_eq_nil_iff, List.map_eq_nil_iff]
    exact Nat.digits_ne_nil_iff_ne_zero.mpr ‹_›

/-- The characters of a numeral. -/
theorem numeral_chars (hbase : 1 < base) (hle : base ≤ 16) {c : UInt8} (hc : c ∈ numeral base upper n) :
    c ∈ cstr "0123456789ABCDEFabcdef" := by
  have hdigit : ∀ d < 16, digitChar upper d ∈ cstr "0123456789ABCDEFabcdef" := by
    cases upper <;> decide
  unfold numeral at hc
  split at hc
  · rw [List.mem_singleton.mp hc]
    decide
  · rw [List.mem_reverse, List.mem_map] at hc
    obtain ⟨d, hd, rfl⟩ := hc
    exact hdigit d (Nat.lt_of_lt_of_le (Nat.digits_lt_base hbase hd) hle)

theorem numeral_head (hbase : 1 < base) (hle : base ≤ 16) :
    (numeral base upper n).head? = some (chr '0') ↔ n = 0 := by
  have hdigit : ∀ d < 16, d ≠ 0 → digitChar upper d ≠ chr '0' := by
    cases upper <;> decide
  unfold numeral
  split
  · rename_i hn
    simp [hn]
  · rename_i hn
    have hne := Nat.digits_ne_nil_iff_ne_zero (b := base).mpr hn
    have hlast := Nat.getLast_digit_ne_zero base hn
    have hlt := Nat.lt_of_lt_of_le (Nat.digits_lt_base hbase (List.getLast_mem hne)) hle
    rw [List.head?_reverse, List.getLast?_map, List.getLast?_eq_some_getLast hne, Option.map_some]
    simp only [Option.some.injEq, hn, iff_false]
    exact hdigit _ hlt hlast

theorem Style.base_ok (k : Style) : 1 < k.base ∧ k.base ≤ 16 := by cases k <;> simp [Style.base]

/-- When nothing but the numeral is asked for. -/
def Plain (l : Layout) (k : Style) (n : Nat) : Prop :=
  (k = .octal → l.alt = true → n = 0) ∧
    ∀ p, l.precision = some p →
      p ≤ (numeral k.base k.upper n).length ∧ (n = 0 → p = 0 → k = .octal ∧ l.alt = true)

theorem precise_cases (l : Layout) (k : Style) (n : Nat) :
    (precise l k n = numeral k.base k.upper n ∧
      ∀ p, l.precision = some p → p ≤ (numeral k.base k.upper n).length ∧ ¬(n = 0 ∧ p = 0)) ∨
    (precise l k n = [] ∧ n = 0 ∧ l.precision = some 0) ∨
    ∃ j p, precise l k n = zeros (j + 1) ++ numeral k.base k.upper n ∧ l.precision = some p ∧
      (numeral k.base k.upper n).length < p := by
  unfold precise
  split
  · rename_i hnone
    exact Or.inl ⟨rfl, fun p hp => by rw [hnone] at hp; cases hp⟩
  · rename_i p hp
    split
    · rename_i hzero
      exact Or.inr (Or.inl ⟨rfl, hzero.1, by rw [hp, hzero.2]⟩)
    · rename_i hzero
      by_cases hle : p ≤ (numeral k.base k.upper n).length
      · refine Or.inl ⟨by simp [zeros, Nat.sub_eq_zero_of_le hle], fun q hq => ?_⟩
        rw [hp, Option.some.injEq] at hq
        exact hq ▸ ⟨hle, hzero⟩
      · refine Or.inr (Or.inr ⟨p - (numeral k.base k.upper n).length - 1, p, ?_, hp, by omega⟩)
        rw [Nat.sub_add_cancel (by omega)]

/-- The figures are the numeral, or none, or the numeral with zeros in front. -/
theorem figures_cases (l : Layout) (k : Style) (n : Nat) :
    (Plain l k n ∧ figures l k n = numeral k.base k.upper n) ∨
      (¬Plain l k n ∧ ((n = 0 ∧ l.precision ≠ none ∧ figures l k n = []) ∨
        ∃ j, figures l k n = zeros (j + 1) ++ numeral k.base k.upper n)) := by
  have hhead : (numeral k.base k.upper n).head? = some (chr '0') ↔ n = 0 := numeral_head k.base_ok.1 k.base_ok.2
  by_cases hoct : k = .octal ∧ l.alt = true
  · rcases precise_cases l k n with ⟨heq, hprec⟩ | ⟨heq, rfl, hprec⟩ | ⟨j, p, heq, hprec, hlt⟩
    · by_cases hn : n = 0
      · refine Or.inl ⟨⟨fun _ _ => hn, fun p hp => ⟨(hprec p hp).1, fun _ _ => hoct⟩⟩, ?_⟩
        rw [figures, heq, if_neg (by simp [hhead.mpr hn])]
      · refine Or.inr ⟨fun hplain => hn (hplain.1 hoct.1 hoct.2), Or.inr ⟨0, ?_⟩⟩
        rw [figures, heq, if_pos ⟨hoct.1, hoct.2, mt hhead.mp hn⟩]
        rfl
    · refine Or.inl ⟨⟨fun _ _ => rfl, fun p hp => ?_⟩, ?_⟩
      · rw [hprec, Option.some.injEq] at hp
        exact ⟨hp ▸ Nat.zero_le _, fun _ _ => hoct⟩
      · rw [figures, heq, if_pos ⟨hoct.1, hoct.2, by simp⟩]
        rfl
    · refine Or.inr ⟨fun hplain => absurd (hplain.2 p hprec).1 (by omega), Or.inr ⟨j, ?_⟩⟩
      rw [figures, heq, if_neg (by simp [zeros, List.replicate_succ])]
  · have hfig : figures l k n = precise l k n := if_neg fun h => hoct ⟨h.1, h.2.1⟩
    rw [hfig]
    rcases precise_cases l k n with ⟨heq, hprec⟩ | ⟨heq, hn, hprec⟩ | ⟨j, p, heq, hprec, hlt⟩
    · refine Or.inl ⟨⟨fun hk ha => absurd ⟨hk, ha⟩ hoct, fun p hp => ?_⟩, heq⟩
      exact ⟨(hprec p hp).1, fun hn hp0 => absurd ⟨hn, hp0⟩ (hprec p hp).2⟩
    · exact Or.inr ⟨fun hplain => hoct ((hplain.2 0 hprec).2 hn rfl), Or.inl ⟨hn, by simp [hprec], heq⟩⟩
    · exact Or.inr ⟨fun hplain => absurd (hplain.2 p hprec).1 (by omega), Or.inr ⟨j, heq⟩⟩

theorem figures_of_plain {l : Layout} {k : Style} {n : Nat} (h : Plain l k n) :
    figures l k n = numeral k.base k.upper n :=
  (figures_cases l k n).elim And.right fun hn => absurd h hn.1

theorem mem_figures {c : UInt8} (hc : c ∈ figures l k n) : c ∈ cstr "0123456789ABCDEFabcdef" := by
  rcases figures_cases l k n with ⟨-, h⟩ | ⟨-, ⟨-, -, h⟩ | ⟨j, h⟩⟩ <;> rw [h] at hc
  · exact numeral_chars k.base_ok.1 k.base_ok.2 hc
  · cases hc
  · rcases List.mem_append.mp hc with hz | hd
    · rw [(List.mem_replicate.mp hz).2]
      decide
    · exact numeral_chars k.base_ok.1 k.base_ok.2 hd

end Figures

section IntText
variable {l : Layout} {k : Style} {v : Int}

theorem length_pad (l : Layout) (text : List UInt8) : (pad l text).length = max l.width text.length := by
  unfold pad spaces
  split <;> simp <;> omega

theorem pad_of_le {text : List UInt8} (h : l.width ≤ text.length) : pad l text = text := by
  simp [pad, spaces, Nat.sub_eq_zero_of_le h]

theorem length_intText (l : Layout) (k : Style) (v : Int) :
    (intText l k v).length = max l.width ((mark l k v).length + (figures l k v.natAbs).length) := by
  simp only [intText]
  split
  · simp only [List.length_append, zeros, List.length_replicate]
    omega
  · rw [length_pad, List.length_append]

theorem intText_of_le (h : l.width ≤ (mark l k v).length + (figures l k v.natAbs).length) :
    intText l k v = mark l k v ++ figures l k v.natAbs := by
  simp only [intText]
  split
  · simp [zeros, Nat.sub_eq_zero_of_le h]
  · rw [pad_of_le (by rwa [List.length_append])]

theorem mem_intText {c : UInt8} (hc : c ∈ intText l k v) :
    c = chr ' ' ∨ c = chr '0' ∨ c ∈ mark l k v ∨ c ∈ figures l k v.natAbs := by
  simp only [intText, pad, spaces, zeros] at hc
  split at hc
  · simp only [List.mem_append, List.mem_replicate] at hc
    rcases hc with (hm | ⟨-, h0⟩) | hf
    · exact Or.inr (Or.inr (Or.inl hm))
    · exact Or.inr (Or.inl h0)
    · exact Or.inr (Or.inr (Or.inr hf))
  · split at hc <;> simp only [List.mem_append, List.mem_replicate] at hc
    · rcases hc with hmf | ⟨-, hs⟩
      · exact Or.inr (Or.inr hmf)
      · exact Or.inl hs
    · rcases hc with ⟨-, hs⟩ | hmf
      · exact Or.inl hs
      · exact Or.inr (Or.inr hmf)

/-- Without figures only spaces surround the mark. -/
theorem mem_intText_of_nil {c : UInt8} (hprec : l.precision ≠ none) (hnil : figures l k v.natAbs = [])
    (hc : c ∈ intText l k v) : c = chr ' ' ∨ c ∈ mark l k v := by
  simp only [intText, hnil, hprec, and_false, if_false, List.append_nil, pad, spaces] at hc
  split at hc <;> rcases List.mem_append.mp hc with h | h
  · exact Or.inr h
  · exact Or.inl (List.mem_replicate.mp h).2
  · exact Or.inl (List.mem_replicate.mp h).2
  · exact Or.inr h

/-- A text that shows the digit of `0`, where C shows no digit, has it from the mark. -/
theorem zero_mem_mark {front : List UInt8} (h : front ++ numeral k.base k.upper v.natAbs = intText l k v)
    (hzero : v.natAbs = 0) (hprec : l.precision ≠ none) (hnil : figures l k v.natAbs = []) : chr '0' ∈ mark l k v := by
  have hmem : chr '0' ∈ intText l k v := by
    rw [← h, hzero]
    exact List.mem_append_right _ List.mem_cons_self
  rcases mem_intText_of_nil hprec hnil hmem with hspace | hmark
  · exact absurd hspace (by decide)
  · exact hmark

end IntText

end CPrintf
