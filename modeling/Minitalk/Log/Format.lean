import Minitalk.Lib.Buffer
import Minitalk.Lib.CPrintf

/-! # The formatters of the log (`bufferization.c`, `format_helper.c`, `spec.c`, `spec2.c`)

They append to a `t_buffer` at a position that never passes 1023. An `int` whose arithmetic overflows wraps
around. -/

namespace Minitalk.Log
open CText
open CPrintf (digitChar)

/-! ### `bufferization.c` -/

abbrev TBuffer := Buffer UInt8

def bufferSize : Nat := 1024

def bufferAppendChar (b : TBuffer) (c : UInt8) : TBuffer := if b.pos < 1023 then b.push c else b

def bufferAppendStr (b : TBuffer) : List UInt8 → TBuffer
  | [] => b
  | c :: cs => if b.pos < 1023 then bufferAppendStr (b.push c) cs else b

def appendPadding (b : TBuffer) : Nat → TBuffer
  | 0 => b
  | padding + 1 => if b.pos < 1023 then appendPadding (b.push (chr ' ')) padding else b

def appendChars (b : TBuffer) : List UInt8 → Nat → TBuffer
  | c :: cs, max + 1 => if b.pos < 1023 then appendChars (b.push c) cs max else b
  | _, _ => b

structure FormatSpec where
  width : BitVec 32 := 0
  precision : BitVec 32 := 0
  leftAlign : Bool := false
  showSign : Bool := false
  spacePrefix : Bool := false
  altForm : Bool := false
  zeroPad : Bool := false
  hasPrecision : Bool := false
  lengthMod : UInt8 := 0
  specifier : UInt8 := 0
deriving DecidableEq

/-- How many characters of a string of this length are shown. -/
def maxChars (len : BitVec 32) (spec : FormatSpec) : BitVec 32 :=
  if spec.hasPrecision && decide (spec.precision.toInt < len.toInt) then spec.precision else len

def strPadding (max : BitVec 32) (spec : FormatSpec) : BitVec 32 :=
  if max.toInt < spec.width.toInt then spec.width - max else 0

def bufferAppendStrFormatted (b : TBuffer) (s : List UInt8) (spec : FormatSpec) : TBuffer :=
  let max := maxChars (BitVec.ofNat 32 s.length) spec
  let padding := strPadding max spec
  let b := if !spec.leftAlign && decide (0 < padding.toInt) then appendPadding b padding.toInt.toNat else b
  let b := appendChars b s max.toInt.toNat
  if spec.leftAlign && decide (0 < padding.toInt) then appendPadding b padding.toInt.toNat else b

/-! ### `format_helper.c` -/

/-- The loop of `convert_to_string`, the lowest digit first. A 64-bit number has at most 64 digits. -/
def digitLoop (base : Nat) (uppercase : Bool) : Nat → Nat → List UInt8
  | 0, _ => []
  | fuel + 1, num =>
    if 0 < num then digitChar uppercase (num % base) :: digitLoop base uppercase fuel (num / base) else []

/-- Nothing for a negative number. -/
def convertToString (num : Int) (base : Nat) (uppercase : Bool) : List UInt8 :=
  if num = 0 then [chr '0'] else digitLoop base uppercase 64 num.toNat

def signPrefix (spec : FormatSpec) (isNegative : Bool) : List UInt8 :=
  if isNegative then [chr '-'] else if spec.showSign then [chr '+'] else if spec.spacePrefix then [chr ' '] else []

/-- What `format_number` leaves in `temp`. The negation is that of a `long long`. -/
def formatNumber (num : BitVec 64) (spec : FormatSpec) (base : Nat) : List UInt8 :=
  let isNegative := decide (num.toInt < 0) && (spec.specifier == chr 'd' || spec.specifier == chr 'i')
  let num := if isNegative then -num else num
  (convertToString num.toInt base (spec.specifier == chr 'X') ++ signPrefix spec isNegative).reverse

def intBase (spec : FormatSpec) : Nat :=
  if spec.specifier == chr 'x' || spec.specifier == chr 'X' || spec.specifier == chr 'p' then 16
  else if spec.specifier == chr 'o' then 8
  else 10

def bufferAppendIntFormatted (b : TBuffer) (num : BitVec 64) (spec : FormatSpec) : TBuffer :=
  bufferAppendStr b (formatNumber num spec (intBase spec))

/-! ### `spec.c`, `spec2.c` -/

inductive SpecAction where
  | string
  /-- A number that `va_arg` reads as an `int` or an `unsigned int`, shown under this specifier. -/
  | number (signed : Bool) (specifier : UInt8)
  | char
  | float
  | pointer
deriving DecidableEq

def specString : SpecAction := .string
def specDecimal : SpecAction := .number true (chr 'd')
def specInteger : SpecAction := .number true (chr 'i')
def specUnsigned : SpecAction := .number false (chr 'u')
def specHexLower : SpecAction := .number false (chr 'x')
def specHexUpper : SpecAction := .number false (chr 'X')
def specOctal : SpecAction := .number false (chr 'o')
def specChar : SpecAction := .char
def specFloat : SpecAction := .float
def specPointer : SpecAction := .pointer

def specTable (c : UInt8) : Option SpecAction :=
  if c = chr 's' then some specString
  else if c = chr 'd' then some specDecimal
  else if c = chr 'i' then some specInteger
  else if c = chr 'u' then some specUnsigned
  else if c = chr 'x' then some specHexLower
  else if c = chr 'X' then some specHexUpper
  else if c = chr 'o' then some specOctal
  else if c = chr 'c' then some specChar
  else if c = chr 'p' then some specPointer
  else if c = chr 'f' ∨ c = chr 'g' ∨ c = chr 'G' then some specFloat
  else none

namespace SpecAction

/-- The specifier that the action sets before it formats. -/
def specifier (old : UInt8) : SpecAction → UInt8
  | .number _ c => c
  | .float => chr 'f'
  | .pointer => chr 'p'
  | _ => old

def run (arg : Arg) (spec : FormatSpec) (b : TBuffer) : SpecAction → TBuffer
  | .string => bufferAppendStrFormatted b ((arg.string.map Subtype.val).getD (cstr "(null)")) spec
  | .number signed c =>
    bufferAppendIntFormatted b (if signed then arg.int.signExtend 64 else arg.int.setWidth 64)
      { spec with specifier := c }
  | .char => bufferAppendChar b (arg.int.setWidth 8).toNat.toUInt8
  | .float => bufferAppendIntFormatted b (arg.double.signExtend 64) { spec with specifier := chr 'f' }
  | .pointer =>
    bufferAppendIntFormatted (bufferAppendStr b (cstr "0x")) arg.pointer { spec with specifier := chr 'p' }

end SpecAction

/-! ### Without the limit -/

/-- What `buffer_append_str_formatted` appends when there is room. -/
def strText (s : List UInt8) (spec : FormatSpec) : List UInt8 :=
  let max := maxChars (BitVec.ofNat 32 s.length) spec
  let pad := List.replicate (strPadding max spec).toInt.toNat (chr ' ')
  if spec.leftAlign then s.take max.toInt.toNat ++ pad else pad ++ s.take max.toInt.toNat

def intText (num : BitVec 64) (spec : FormatSpec) : List UInt8 := formatNumber num spec (intBase spec)

def SpecAction.text (arg : Arg) (spec : FormatSpec) : SpecAction → List UInt8
  | .string => strText ((arg.string.map Subtype.val).getD (cstr "(null)")) spec
  | .number signed c =>
    intText (if signed then arg.int.signExtend 64 else arg.int.setWidth 64) { spec with specifier := c }
  | .char => [(arg.int.setWidth 8).toNat.toUInt8]
  | .float => intText (arg.double.signExtend 64) { spec with specifier := chr 'f' }
  | .pointer => cstr "0x" ++ intText arg.pointer { spec with specifier := chr 'p' }

theorem bufferAppendStr_eq (b : TBuffer) (s : List UInt8) : bufferAppendStr b s = b.append 1023 s := by
  induction s generalizing b with
  | nil => rfl
  | cons c cs ih => rw [bufferAppendStr, Buffer.append, ih]

theorem appendPadding_eq (b : TBuffer) (n : Nat) :
    appendPadding b n = b.append 1023 (List.replicate n (chr ' ')) := by
  induction n generalizing b with
  | zero => rfl
  | succ n ih => rw [appendPadding, List.replicate_succ, Buffer.append, ih]

theorem appendChars_eq (b : TBuffer) (s : List UInt8) (n : Nat) : appendChars b s n = b.append 1023 (s.take n) := by
  induction s generalizing b n with
  | nil => cases n <;> rfl
  | cons c cs ih =>
    cases n with
    | zero => rfl
    | succ n => rw [appendChars, List.take_succ_cons, Buffer.append, ih]

theorem bufferAppendStrFormatted_eq (b : TBuffer) (s : List UInt8) (spec : FormatSpec) :
    bufferAppendStrFormatted b s spec = b.append 1023 (strText s spec) := by
  simp only [bufferAppendStrFormatted, strText]
  generalize strPadding _ spec = padding
  by_cases hpad : 0 < padding.toInt
  · cases spec.leftAlign <;> simp [hpad, appendPadding_eq, appendChars_eq, Buffer.append_append]
  · have hzero : padding.toInt.toNat = 0 := by omega
    cases spec.leftAlign <;> simp [hpad, hzero, appendChars_eq]

section Text
variable {b : TBuffer} {vs : List UInt8}

/-- The buffer holds what was appended to it so far, cut at the limit. -/
def Shows (b : TBuffer) (vs : List UInt8) : Prop := b.Holds bufferSize (vs.take 1023)

theorem Shows.append (h : Shows b vs) (ws : List UInt8) : Shows (b.append 1023 ws) (vs ++ ws) := by
  have happ : (b.append 1023 ws).Holds bufferSize ((vs.take 1023 ++ ws).take 1023) :=
    Buffer.Holds.append h (by decide) (List.length_take_le _ _) ws
  rwa [Buffer.take_take_append] at happ

theorem Shows.appendChar (h : Shows b vs) (c : UInt8) : Shows (bufferAppendChar b c) (vs ++ [c]) := h.append [c]

theorem Shows.appendStr (h : Shows b vs) (s : List UInt8) : Shows (bufferAppendStr b s) (vs ++ s) := by
  rw [bufferAppendStr_eq]
  exact h.append s

theorem Shows.appendStrFormatted (h : Shows b vs) (s : List UInt8) (spec : FormatSpec) :
    Shows (bufferAppendStrFormatted b s spec) (vs ++ strText s spec) := by
  rw [bufferAppendStrFormatted_eq]
  exact h.append _

theorem Shows.action (h : Shows b vs) (arg : Arg) (spec : FormatSpec) (action : SpecAction) :
    Shows (action.run arg spec b) (vs ++ action.text arg spec) := by
  cases action with
  | string => exact h.appendStrFormatted _ spec
  | number signed c => exact h.appendStr _
  | char => exact h.appendChar _
  | float => exact h.appendStr _
  | pointer =>
    have := (h.appendStr (cstr "0x")).appendStr (intText arg.pointer { spec with specifier := chr 'p' })
    rwa [List.append_assoc] at this

end Text

end Minitalk.Log
