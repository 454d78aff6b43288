import Minitalk.Libft.Atoi
import Minitalk.Printf.Convert

/-! # `ft_process_format` (`ft_parser_bonus.c`, `ft_jump_flags_bonus.c`, `ft_flag_wrappers_bonus.c`)

An index into the format is the text from there to the terminating NUL, which is not part of the text. Behind
the NUL there is nothing that may be read: a loop that goes there gives `none`. -/

namespace Minitalk.Printf
open CText
open Libft (ftIsdigit)

/-! ### The flag table -/

def ftFlagsInit : Flags := { precision := -1 }

def handleMinus (flags : Flags) : Flags := { flags with left := true, zero := false }

def handleZero (flags : Flags) : Flags := { flags with zero := true }

def handleDot (flags : Flags) : Flags := { flags with dot := true, zero := false, precision := 0 }

def handleHash (flags : Flags) : Flags := { flags with hash := true }

def handleSpace (flags : Flags) : Flags := { flags with space := true }

def handlePlus (flags : Flags) : Flags := { flags with plus := true, space := false }

def ftHandleWidth (width : BitVec 32) (flags : Flags) : Flags :=
  if width.toInt < 0 then { flags with left := true, width := -width } else { flags with width }

def handleStar (flags : Flags) (arg : Arg) : Flags := ftHandleWidth arg.int { flags with star := true }

/-- `flag_table`: the handler of a flag, which reads an argument for `*` only. -/
def flagTable (c : UInt8) : Option (Flags → Arg → Flags × Nat) :=
  if c = chr '-' then some fun flags _ => (handleMinus flags, 0)
  else if c = chr '0' then some fun flags _ => (handleZero flags, 0)
  else if c = chr '.' then some fun flags _ => (handleDot flags, 0)
  else if c = chr '#' then some fun flags _ => (handleHash flags, 0)
  else if c = chr ' ' then some fun flags _ => (handleSpace flags, 0)
  else if c = chr '+' then some fun flags _ => (handlePlus flags, 0)
  else if c = chr '*' then some fun flags arg => (handleStar flags arg, 1)
  else none

/-! ### The parser -/

def ftIstype (c : UInt8) : Bool :=
  c == chr 'c' || c == chr 's' || c == chr 'p' || c == chr 'd' || c == chr 'i' || c == chr 'u' || c == chr 'x' ||
    c == chr 'X' || c == chr '%' || c == chr 'o'

/-- The loop of `ft_process_number`: the number that its digits denote, from `target` on, and where it stops. -/
def readDigits (target : BitVec 32) : List UInt8 → BitVec 32 × List UInt8
  | [] => (target, [])
  | c :: cs => if ftIsdigit c then readDigits (target * 10 + digitValue c) cs else (target, c :: cs)

def ftProcessNumber (format : List UInt8) (flags : Flags) : Flags × List UInt8 :=
  let (target, rest) := readDigits 0 format
  (if flags.dot then { flags with precision := target } else { flags with width := target }, rest)

/-- What one round of the loop of `ft_parse_flags` does at the character `c`: the flags, the arguments that it
    has read, and where it goes on. -/
def parseRound (args : VaList) (c : UInt8) (cs : List UInt8) (flags : Flags) (n : Nat) :
    Flags × Nat × List UInt8 :=
  if flags.dot && c == chr '*' then
    let flags := { flags with precision := (args n).int }
    (if flags.precision.toInt < 0 then { flags with dot := false } else flags, n + 1, cs)
  else match flagTable c with
    | some handler =>
      let (flags, read) := handler flags (args n)
      (flags, n + read, cs)
    | none =>
      if ftIsdigit c then
        let (flags, rest) := ftProcessNumber (c :: cs) flags
        (flags, n, rest)
      else (flags, n, cs)

theorem length_readDigits (target : BitVec 32) (s : List UInt8) : (readDigits target s).2.length ≤ s.length := by
  induction s generalizing target with
  | nil => exact Nat.le_refl _
  | cons c cs ih =>
    rw [readDigits]
    split
    · exact Nat.le_succ_of_le (ih _)
    · exact Nat.le_refl _

theorem length_parseRound (args : VaList) (c : UInt8) (cs : List UInt8) (flags : Flags) (n : Nat) :
    (parseRound args c cs flags n).2.2.length ≤ cs.length := by
  unfold parseRound
  split
  · exact Nat.le_refl _
  · split
    · exact Nat.le_refl _
    · split
      · rename_i hdigit
        simp only [ftProcessNumber, readDigits, hdigit, if_true]
        exact length_readDigits _ cs
      · exact Nat.le_refl _

def ftParseFlags (args : VaList) (flags : Flags) (n : Nat) (format : List UInt8) : Flags × Nat × List UInt8 :=
  match format with
  | [] => (flags, n, [])
  | c :: cs =>
    if ftIstype c then (flags, n, c :: cs)
    else ftParseFlags args (parseRound args c cs flags n).1 (parseRound args c cs flags n).2.1
      (parseRound args c cs flags n).2.2
termination_by format.length
decreasing_by exact Nat.lt_succ_of_le (length_parseRound args c cs flags n)

def ftProcessConversion (type : UInt8) (flags : Flags) (arg : Arg) : Out × Nat :=
  match convertTable type with
  | some converter => converter flags arg
  | none => (ftHandleInvalidFormat type flags, 0)

theorem length_ftParseFlags (args : VaList) (flags : Flags) (n : Nat) (format : List UInt8) :
    (ftParseFlags args flags n format).2.2.length ≤ format.length := by
  induction format using (measure List.length).wf.induction generalizing flags n with
  | _ format ih =>
    unfold ftParseFlags
    split
    · exact Nat.le_refl _
    · rename_i c cs
      split
      · exact Nat.le_refl _
      · have hround := length_parseRound args c cs flags n
        exact Nat.le_trans (ih _ (Nat.lt_succ_of_le hround) _ _) (Nat.le_succ_of_le hround)

/-- The loop of `ft_process_format`, from the n-th argument on. -/
def processFrom (args : VaList) (n : Nat) (format : List UInt8) : Option Out :=
  match format with
  | [] => some {}
  | c :: cs =>
    if c = chr '%' ∧ cs ≠ [] then
      match _h : ftParseFlags args ftFlagsInit n cs with
      -- `format[i]` is the NUL, and `i++` goes behind it.
      | (_, _, []) => none
      | (flags, m, type :: rest) =>
        let (out, read) := ftProcessConversion type flags (args m)
        (processFrom args (m + read) rest).map (out ++ ·)
    else (processFrom args n cs).map (ftPrintC c ++ ·)
termination_by format.length
decreasing_by
  · have hlen := length_ftParseFlags args ftFlagsInit n cs
    rw [_h] at hlen
    exact Nat.lt_succ_of_lt hlen
  · exact Nat.lt_succ_self _

def ftProcessFormat (format : CString) (args : VaList) : Option Out := processFrom args 0 format.1

end Minitalk.Printf
