/-! # C strings and variable arguments

Characters are bytes. A `va_list` is what its successive `va_arg` calls read, each at the type that it is called
with. -/

namespace CText

/-- A C string: the bytes before its NUL. -/
abbrev CString := { bytes : List UInt8 // ∀ b ∈ bytes, b ≠ 0 }

def chr (c : Char) : UInt8 := c.toUInt8

/-- A constant of the source. -/
def cstr (s : String) : List UInt8 := s.toList.map chr

def isDigit (c : UInt8) : Bool := decide (chr '0' ≤ c) && decide (c ≤ chr '9')

/-- `c - '0'`, for a digit. -/
def digitValue (c : UInt8) : BitVec 32 := BitVec.ofNat 32 (c - chr '0').toNat

/-- The number that decimal digits denote. -/
def decimal (digits : List UInt8) : Nat := digits.foldl (fun n c => n * 10 + (c - chr '0').toNat) 0

theorem forall_uint8 {p : UInt8 → Bool} (h : ∀ n : Fin 256, p (UInt8.ofFin n) = true) (c : UInt8) : p c = true :=
  h c.toFin

/-- An `int` in which the digits are accumulated holds the number modulo 2^32. -/
theorem foldl_digitValue (ds : List UInt8) (n : Nat) :
    ds.foldl (fun n c => n * 10 + digitValue c) (BitVec.ofNat 32 n) =
      BitVec.ofNat 32 (ds.foldl (fun n c => n * 10 + (c - chr '0').toNat) n) := by
  induction ds generalizing n with
  | nil => rfl
  | cons c cs ih =>
    have hstep : BitVec.ofNat 32 n * 10 + digitValue c = BitVec.ofNat 32 (n * 10 + (c - chr '0').toNat) := by
      rw [BitVec.ofNat_add, BitVec.ofNat_mul]
      rfl
    rw [List.foldl_cons, List.foldl_cons, hstep, ih]

theorem foldl_digitValue_zero (ds : List UInt8) :
    ds.foldl (fun n c => n * 10 + digitValue c) 0 = BitVec.ofNat 32 (decimal ds) := foldl_digitValue ds 0

/-- What one `va_arg` reads, at each of the types it is called with; a `double` as it is converted to `int`. -/
structure Arg where
  int : BitVec 32 := 0
  string : Option CString := none
  pointer : BitVec 64 := 0
  double : BitVec 32 := 0

/-- The n-th `va_arg`. -/
abbrev VaList := Nat → Arg

end CText
