import Minitalk.Lib.CText

/-! # The conversions of `ft_printf` (`format_specifier`, `precision`, `width`, `helpers`)

Every function gives the bytes that it writes and the count that it returns; an `int` whose arithmetic overflows
wraps around. -/

namespace Minitalk.Printf
open CText

/-- `t_flags`, with a field for every bit of `flags_bits`. -/
structure Flags where
  left : Bool := false
  zero : Bool := false
  star : Bool := false
  dot : Bool := false
  hash : Bool := false
  space : Bool := false
  plus : Bool := false
  spec : UInt8 := 0
  width : BitVec 32 := 0
  precision : BitVec 32 := 0
deriving DecidableEq

/-- What a function writes, and the `int` that it returns. -/
structure Out where
  bytes : List UInt8 := []
  count : BitVec 32 := 0
deriving DecidableEq

namespace Out

/-- One function after the other, with the sum of their counts. -/
def andThen (a b : Out) : Out := { bytes := a.bytes ++ b.bytes, count := a.count + b.count }

instance : Append Out := ⟨andThen⟩

def write (bytes : List UInt8) : Out := { bytes, count := BitVec.ofNat 32 bytes.length }

end Out

/-! ### Helpers -/

def ftPrintC (c : UInt8) : Out := .write [c]

/-- The loop runs `width - contentLen` times. -/
def ftPrintWidth (width contentLen : BitVec 32) (zero : Bool) : Out :=
  .write (List.replicate (width.toInt - contentLen.toInt).toNat (if zero then chr '0' else chr ' '))

/-- A 64-bit number has at most 64 digits. -/
def nbrLenLoop (base : Nat) : Nat → Nat → Nat
  | 0, _ => 0
  | fuel + 1, n => if 0 < n then nbrLenLoop base fuel (n / base) + 1 else 0

def ftNbrLen (n : Nat) (base : Nat) : BitVec 32 := BitVec.ofNat 32 (if n = 0 then 1 else nbrLenLoop base 64 n)

/-- The recursion of `ft_print_unsigned_nbr` and `ft_print_hex_value`. -/
def printDigits (digit : Nat → UInt8) (base : Nat) : Nat → Nat → Out
  | 0, _ => {}
  | fuel + 1, n => (if base ≤ n then printDigits digit base fuel (n / base) else {}) ++ ftPrintC (digit (n % base))

def ftPrintUnsignedNbr (n : BitVec 32) : Out := printDigits (fun d => chr '0' + UInt8.ofNat d) 10 32 n.toNat

def hexDigit (uppercase : Bool) (d : Nat) : UInt8 :=
  ((if uppercase then cstr "0123456789ABCDEF" else cstr "0123456789abcdef")[d]?).getD 0

def ftPrintHexValue (n : BitVec 64) (uppercase : Bool) : Out := printDigits (hexDigit uppercase) 16 64 n.toNat

def ftPrintHexPrefix (uppercase : Bool) : Out := .write (if uppercase then cstr "0X" else cstr "0x")

def ftPrintSign (n : BitVec 32) (flags : Flags) : Out :=
  if n.toInt < 0 then ftPrintC (chr '-')
  else if flags.plus then ftPrintC (chr '+')
  else if flags.space then ftPrintC (chr ' ')
  else {}

def ftCalcSignLen (n : BitVec 32) (flags : Flags) : BitVec 32 :=
  if n.toInt < 0 then 1 else if flags.plus then 1 else if flags.space then 1 else 0

def ftHandleInvalidFormat (type : UInt8) (flags : Flags) : Out :=
  (if flags.left then ftPrintC type else {}) ++ ftPrintWidth (flags.width - 1) 1 false ++
    (if !flags.left then ftPrintC type else {})

/-! ### `%`, `c` and `s` -/

def ftPrintPercent (flags : Flags) : Out :=
  if flags.left then ftPrintC (chr '%') ++ ftPrintWidth (flags.width - 1) 0 false
  else ftPrintWidth (flags.width - 1) 0 flags.zero ++ ftPrintC (chr '%')

def ftPrintChar (c : UInt8) (flags : Flags) : Out :=
  if flags.left then ftPrintC c ++ ftPrintWidth (flags.width - 1) 0 false
  else ftPrintWidth (flags.width - 1) 0 false ++ ftPrintC c

def ftPrintStrprec (s : List UInt8) (precision : BitVec 32) : Out :=
  let precision := if precision.toInt < 0 then BitVec.ofNat 32 s.length else precision
  .write (s.take precision.toInt.toNat)

def printAlignedStr (s : List UInt8) (len : BitVec 32) (flags : Flags) : Out :=
  if flags.left then ftPrintStrprec s len ++ ftPrintWidth flags.width len false
  else ftPrintWidth flags.width len false ++ ftPrintStrprec s len

/-- What is shown of the string, and how much of it. -/
def getPrintInfo (s : Option CString) (flags : Flags) : List UInt8 × BitVec 32 :=
  let printStr := (s.map Subtype.val).getD (cstr "(null)")
  let len := BitVec.ofNat 32 printStr.length
  (printStr, if flags.dot && decide (flags.precision.toInt < len.toInt) then flags.precision else len)

def ftPrintStr (s : Option CString) (flags : Flags) : Out :=
  if flags.dot && (flags.precision == 0 || flags.precision == -1) then ftPrintWidth flags.width 0 false
  else if s.isNone && flags.dot && decide (flags.precision.toInt < 6) then ftPrintWidth flags.width 0 false
  else
    let (printStr, len) := getPrintInfo s flags
    printAlignedStr printStr len flags

/-! ### `d` and `i` -/

def ftHandleZeroPrecision (n : BitVec 32) (flags : Flags) : Out :=
  let signLen := ftCalcSignLen n flags
  if flags.plus || flags.space || decide (n.toInt < 0) then
    if flags.left then ftPrintSign n flags ++ ftPrintWidth (flags.width - signLen) 0 false
    else ftPrintWidth (flags.width - signLen) 0 false ++ ftPrintSign n flags
  else ftPrintWidth flags.width 0 false

/-- The zeros that the precision asks for, and the digits. -/
def intDigits (n un : BitVec 32) (flags : Flags) : Out :=
  ftPrintWidth flags.precision (ftNbrLen un.toNat 10) true ++
    (if !(flags.dot && flags.precision == 0 && n == 0) then ftPrintUnsignedNbr un else {})

def ftPrintIntRalignStd (n : BitVec 32) (flags : Flags) (un len : BitVec 32) : Out :=
  ftPrintWidth flags.width (len + ftCalcSignLen n flags) false ++ ftPrintSign n flags ++ intDigits n un flags

def ftPrintIntRalignZero (n : BitVec 32) (flags : Flags) (un len : BitVec 32) : Out :=
  ftPrintSign n flags ++ ftPrintWidth flags.width (len + ftCalcSignLen n flags) true ++ intDigits n un flags

def ftPrintIntLalign (n : BitVec 32) (flags : Flags) (un len : BitVec 32) : Out :=
  ftPrintSign n flags ++ intDigits n un flags ++ ftPrintWidth flags.width (len + ftCalcSignLen n flags) false

def ftPrintIntRalign (n : BitVec 32) (flags : Flags) (un len : BitVec 32) : Out :=
  if flags.zero && !flags.dot then ftPrintIntRalignZero n flags un len else ftPrintIntRalignStd n flags un len

def ftPrintInt (n : BitVec 32) (flags : Flags) : Out :=
  let un := if n.toInt < 0 then -n else n
  let numLen := ftNbrLen un.toNat 10
  if flags.dot && (flags.precision == 0 || flags.precision == -1) && n == 0 then ftHandleZeroPrecision n flags
  else
    let numLen := if flags.dot && decide (numLen.toInt < flags.precision.toInt) then flags.precision else numLen
    if flags.left then ftPrintIntLalign n flags un numLen else ftPrintIntRalign n flags un numLen

/-! ### `u` -/

def ftGetUnsignedLen (n : BitVec 32) (flags : Flags) : BitVec 32 :=
  let len := ftNbrLen n.toNat 10
  if flags.dot && flags.precision == 0 && n == 0 then 0
  else if flags.dot && decide (len.toInt < flags.precision.toInt) then flags.precision
  else len

def ftPrintUnsignedPrecision (n precision : BitVec 32) : Out :=
  if n == 0 && precision == 0 then {}
  else ftPrintWidth precision (ftNbrLen n.toNat 10) true ++ ftPrintUnsignedNbr n

def ftPrintUnsigned (n : BitVec 32) (flags : Flags) : Out :=
  if flags.dot && (flags.precision == 0 || flags.precision == -1) && n == 0 then ftPrintWidth flags.width 0 false
  else
    let len := ftGetUnsignedLen n flags
    if flags.left then ftPrintUnsignedPrecision n flags.precision ++ ftPrintWidth flags.width len false
    else ftPrintWidth flags.width len (flags.zero && !flags.dot) ++ ftPrintUnsignedPrecision n flags.precision

/-! ### `x`, `X` and `p` -/

def ftPrintHexPrecision (num precision : BitVec 32) (uppercase : Bool) : Out :=
  if num == 0 && precision == -1 then {}
  else if num == 0 && decide (0 < precision.toInt) then ftPrintWidth precision 0 true
  else
    (if 0 < precision.toInt then ftPrintWidth precision (ftNbrLen num.toNat 16) true else {}) ++
      ftPrintHexValue (num.setWidth 64) uppercase

def ftPrintHexZeroRegular (flags : Flags) : Out :=
  if flags.left then ftPrintC (chr '0') ++ ftPrintWidth (flags.width - 1) 0 false
  else ftPrintWidth (flags.width - 1) 0 flags.zero ++ ftPrintC (chr '0')

def ftPrintHexZeroWithDot (flags : Flags) (upper : Bool) : Out :=
  if flags.precision == 0 || flags.precision == -1 then ftPrintWidth flags.width 0 false
  else if flags.left then
    ftPrintHexPrecision 0 flags.precision upper ++ ftPrintWidth flags.width flags.precision false
  else ftPrintWidth flags.width flags.precision false ++ ftPrintHexPrecision 0 flags.precision upper

def ftPrintHexZero (flags : Flags) (uppercase : Bool) : Out :=
  if flags.dot then ftPrintHexZeroWithDot flags uppercase else ftPrintHexZeroRegular flags

def hexPrefixOf (num : BitVec 32) (flags : Flags) (uppercase : Bool) : Out :=
  if flags.hash && num != 0 then ftPrintHexPrefix uppercase else {}

def ftPrintHexLeft (num hexLen prefixLen : BitVec 32) (flags : Flags) : Out :=
  let uppercase := flags.spec == chr 'X'
  hexPrefixOf num flags uppercase ++ ftPrintHexPrecision num flags.precision uppercase ++
    ftPrintWidth (flags.width - prefixLen) hexLen false

def ftPrintHexRight (num hexLen prefixLen : BitVec 32) (flags : Flags) : Out :=
  let uppercase := flags.spec == chr 'X'
  (if flags.zero && !flags.dot then
    hexPrefixOf num flags uppercase ++ ftPrintWidth (flags.width - prefixLen) hexLen true
  else ftPrintWidth (flags.width - prefixLen) hexLen false ++ hexPrefixOf num flags uppercase) ++
    ftPrintHexPrecision num flags.precision uppercase

def ftPrintHexFormat (num : BitVec 32) (uppercase : Bool) (flags : Flags) : Out :=
  let flags := { flags with spec := if uppercase then chr 'X' else chr 'x' }
  let prefixLen : BitVec 32 := if flags.hash && num != 0 then 2 else 0
  let hexLen := ftNbrLen num.toNat 16
  if num == 0 then ftPrintHexZero flags uppercase
  else
    let hexLen := if flags.dot && decide (hexLen.toInt < flags.precision.toInt) then flags.precision else hexLen
    if flags.left then ftPrintHexLeft num hexLen prefixLen flags else ftPrintHexRight num hexLen prefixLen flags

def ftPrintPtrHexPrecision (n : BitVec 64) (precision : BitVec 32) : Out :=
  let hexLen := ftNbrLen n.toNat 16
  (if hexLen.toInt < precision.toInt then ftPrintWidth precision hexLen true else {}) ++ ftPrintHexValue n false

/-- `(nil)`, padded when the width asks for more than its five characters. -/
def nullPtrPadding (flags : Flags) : Out := if 5 < flags.width.toInt then ftPrintWidth flags.width 5 false else {}

def ftPrintNullPtrLeft (flags : Flags) : Out := .write (cstr "(nil)") ++ nullPtrPadding flags

def ftPrintNullPtrRight (flags : Flags) : Out := nullPtrPadding flags ++ .write (cstr "(nil)")

def ftPrintNullPtr (flags : Flags) : Out :=
  if flags.dot && flags.precision == 0 then ftPrintWidth flags.width 0 false
  else if flags.left then ftPrintNullPtrLeft flags
  else ftPrintNullPtrRight flags

def ftPrintPtrLeft (n : BitVec 64) (flags : Flags) (ptrLen : BitVec 32) : Out :=
  ftPrintHexPrefix false ++ ftPrintPtrHexPrecision n flags.precision ++ ftPrintWidth flags.width ptrLen false

def ftPrintPtrRightZero (n : BitVec 64) (flags : Flags) (hexLen : BitVec 32) : Out :=
  ftPrintHexPrefix false ++ ftPrintWidth (flags.width - 2) hexLen true ++ ftPrintHexValue n false

def ftPrintPtrRightStd (n : BitVec 64) (flags : Flags) (ptrLen : BitVec 32) : Out :=
  ftPrintWidth flags.width ptrLen false ++ ftPrintHexPrefix false ++ ftPrintPtrHexPrecision n flags.precision

def ftPrintPtrRight (n : BitVec 64) (flags : Flags) (ptrLen hexLen : BitVec 32) : Out :=
  if flags.zero && !flags.dot then ftPrintPtrRightZero n flags hexLen else ftPrintPtrRightStd n flags ptrLen

def ftPrintPtr (n : BitVec 64) (flags : Flags) : Out :=
  if n == 0 then ftPrintNullPtr flags
  else
    let hexLen := ftNbrLen n.toNat 16
    let hexLen := if flags.dot && decide (hexLen.toInt < flags.precision.toInt) then flags.precision else hexLen
    let ptrLen := 2 + hexLen
    if flags.left then ftPrintPtrLeft n flags ptrLen else ftPrintPtrRight n flags ptrLen hexLen

/-! ### The conversion table -/

/-- A conversion, with the argument that it reads next; the number of arguments that it has read. -/
abbrev Converter := Flags → Arg → Out × Nat

def ftConvertPercent : Converter := fun flags _ => (ftPrintPercent flags, 0)
def ftConvertChar : Converter := fun flags arg => (ftPrintChar (UInt8.ofNat arg.int.toNat) flags, 1)
def ftConvertStr : Converter := fun flags arg => (ftPrintStr arg.string flags, 1)
def ftConvertInt : Converter := fun flags arg => (ftPrintInt arg.int flags, 1)
def ftConvertUnsigned : Converter := fun flags arg => (ftPrintUnsigned arg.int flags, 1)
def ftConvertHexLower : Converter := fun flags arg => (ftPrintHexFormat arg.int false flags, 1)
def ftConvertHexUpper : Converter := fun flags arg => (ftPrintHexFormat arg.int true flags, 1)

/-- A precision of 0 does not hide a null pointer. -/
def ftConvertPtr : Converter := fun flags arg =>
  let flags := if arg.pointer == 0 && flags.dot && flags.precision == 0 then { flags with dot := false } else flags
  (ftPrintPtr arg.pointer flags, 1)

def convertTable (type : UInt8) : Option Converter :=
  if type = chr '%' then some ftConvertPercent
  else if type = chr 'c' then some ftConvertChar
  else if type = chr 's' then some ftConvertStr
  else if type = chr 'd' ∨ type = chr 'i' then some ftConvertInt
  else if type = chr 'x' then some ftConvertHexLower
  else if type = chr 'X' then some ftConvertHexUpper
  else if type = chr 'p' then some ftConvertPtr
  else if type = chr 'u' then some ftConvertUnsigned
  else none

end Minitalk.Printf
