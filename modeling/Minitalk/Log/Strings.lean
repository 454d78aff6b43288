import Minitalk.Log.Numbers
import Minitalk.Log.Rendering

/-! # The string conversion of the log

`buffer_append_str_formatted` keeps the length of the string in an `int`. With a string below 2^31 bytes it appends
C's text, cut at the end of the buffer; with a longer one only where the wrong length cannot be seen. -/

namespace Minitalk.Log
open CText CPrintf

/-- What `len = strlen(str)` leaves in an `int`. -/
def intLength (n : Nat) : Int := (BitVec.ofNat 32 n).toInt

/-- The length of the string is right, or what fits in the buffer does not depend on it. -/
def LengthHidden (pos n : Nat) (spec : FormatSpec) : Prop :=
  let room : Int := 1023 - pos
  let width := spec.width.toInt
  let precision := spec.precision.toInt
  n < 2 ^ 31 ∨ room = 0 ∨
    -- the precision cuts before the wrong length does
    (spec.hasPrecision = true ∧ precision ≤ intLength n) ∨
    -- the buffer ends before the wrong length is reached
    (room ≤ intLength n ∧ (spec.leftAlign = true ∨ width ≤ intLength n)) ∨
    -- the buffer ends in the padding
    (spec.hasPrecision = true ∧ (spec.leftAlign = false ∨ precision = 0) ∧ room + precision ≤ width ∧
      width - intLength n < 2 ^ 31) ∨
    -- nothing is to be shown, and the padding overflows
    (spec.hasPrecision = true ∧ precision = 0 ∧ width = 0 ∧ intLength n = -2 ^ 31)

/-! ### Texts as characters and padding -/

def laid (left : Bool) (padding : Nat) (text : List UInt8) : List UInt8 :=
  if left then text ++ spaces padding else spaces padding ++ text

section Laid
variable {left : Bool} {q m q' m' n i room : Nat} {s : List UInt8}

theorem length_laid (left : Bool) (q : Nat) (s : List UInt8) : (laid left q s).length = q + s.length := by
  unfold laid spaces
  split <;> simp [Nat.add_comm]

/-- Only the characters are seen. -/
theorem laid_take_chars (hleft : left = true ∨ q = 0) (hm : room ≤ m) (hs : room ≤ s.length) :
    (laid left q (s.take m)).take room = s.take room := by
  have hlen : room ≤ (s.take m).length := by rw [List.length_take]; omega
  have htake : (s.take m).take room = s.take room := by rw [List.take_take, Nat.min_eq_left hm]
  rcases hleft with rfl | rfl
  · rw [laid, if_pos rfl, List.take_append_of_le_length hlen, htake]
  · cases left <;> simp [laid, spaces, htake]

/-- Only the padding is seen. -/
theorem laid_take_padding (hleft : left = false ∨ m = 0) (hq : room ≤ q) :
    (laid left q (s.take m)).take room = spaces room := by
  have htake : (spaces q).take room = spaces room := by
    rw [spaces, List.take_replicate, Nat.min_eq_left hq, spaces]
  have hlen : room ≤ (spaces q).length := by rwa [spaces, List.length_replicate]
  rcases hleft with rfl | rfl
  · rw [laid, if_neg (by decide), List.take_append_of_le_length hlen, htake]
  · cases left <;> simp [laid, htake]

/-- A string of `n` letters. -/
theorem laid_letters_getElem? (hm : m ≤ n) :
    (laid left q ((List.replicate n (chr 'a')).take m))[i]? =
      if left = true then
        if i < m then some (chr 'a') else if i < m + q then some (chr ' ') else none
      else if i < q then some (chr ' ') else if i < q + m then some (chr 'a') else none := by
  have htake : (List.replicate n (chr 'a')).take m = List.replicate m (chr 'a') := by
    rw [List.take_replicate, Nat.min_eq_left hm]
  rw [htake]
  cases left with
  | true =>
    simp only [laid, spaces, if_true, List.getElem?_append, List.length_replicate, List.getElem?_replicate]
    repeat' split
    all_goals first | rfl | omega
  | false =>
    simp only [laid, spaces, Bool.false_eq_true, if_false, List.getElem?_append, List.length_replicate,
      List.getElem?_replicate]
    repeat' split
    all_goals first | rfl | omega

/-- Behind the fewer letters the texts differ, unless the room ends before. -/
theorem letters_take_left (hlt : m < m') (hm' : m' ≤ n)
    (h : (laid true q ((List.replicate n (chr 'a')).take m)).take room =
      (laid true q' ((List.replicate n (chr 'a')).take m')).take room) : room ≤ m := by
  by_contra hroom
  have hat := congrArg (·[m]?) h
  simp only [List.getElem?_take_of_lt (Nat.not_le.mp hroom)] at hat
  rw [laid_letters_getElem? (by omega), laid_letters_getElem? hm', if_pos rfl, if_pos rfl, if_neg (Nat.lt_irrefl m),
    if_pos hlt] at hat
  split at hat <;> exact absurd hat (by decide)

/-- Behind the shorter padding the texts differ, unless the room ends before. -/
theorem letters_take_right (hlt : q' < q) (hpos : 0 < m') (hm : m ≤ n) (hm' : m' ≤ n)
    (h : (laid false q ((List.replicate n (chr 'a')).take m)).take room =
      (laid false q' ((List.replicate n (chr 'a')).take m')).take room) : room ≤ q' := by
  by_contra hroom
  have hat := congrArg (·[q']?) h
  simp only [List.getElem?_take_of_lt (Nat.not_le.mp hroom)] at hat
  rw [laid_letters_getElem? hm, laid_letters_getElem? hm', if_neg Bool.false_ne_true, if_neg Bool.false_ne_true,
    if_pos hlt, if_neg (Nat.lt_irrefl q'), if_pos (by omega)] at hat
  exact absurd hat (by decide)

end Laid

/-! ### Both texts -/

section Texts
variable {spec : FormatSpec} {s : List UInt8} {len : BitVec 32}

theorem maxChars_toInt (len : BitVec 32) (spec : FormatSpec) :
    (maxChars len spec).toInt =
      if spec.hasPrecision = true ∧ spec.precision.toInt < len.toInt then spec.precision.toInt else len.toInt := by
  simp only [maxChars, Bool.and_eq_true, decide_eq_true_eq]
  split <;> rfl

/-- An overflowing padding is negative. -/
theorem strPadding_toNat (max : BitVec 32) (hwidth : 0 ≤ spec.width.toInt) :
    ((strPadding max spec).toInt.toNat : Int) =
      if max.toInt < spec.width.toInt ∧ spec.width.toInt - max.toInt < 2 ^ 31 then spec.width.toInt - max.toInt
      else 0 := by
  have hw := BitVec.toInt_lt (x := spec.width)
  have hm := BitVec.le_toInt (x := max)
  unfold strPadding
  by_cases hlt : max.toInt < spec.width.toInt
  · rw [if_pos hlt, BitVec.toInt_sub]
    simp only [Int.bmod]
    split <;> split <;> omega
  · rw [if_neg hlt, if_neg fun h => hlt h.1]
    rfl

/-- How many characters the code shows; none when that is negative. -/
def codeChars (n : Nat) (spec : FormatSpec) : Int :=
  if spec.hasPrecision = true ∧ spec.precision.toInt < intLength n then spec.precision.toInt else intLength n

def codePadding (n : Nat) (spec : FormatSpec) : Int :=
  if codeChars n spec < spec.width.toInt ∧ spec.width.toInt - codeChars n spec < 2 ^ 31 then
    spec.width.toInt - codeChars n spec
  else 0

theorem strText_eq_laid (s : List UInt8) (spec : FormatSpec) (hwidth : 0 ≤ spec.width.toInt) :
    Log.strText s spec =
      laid spec.leftAlign (codePadding s.length spec).toNat (s.take (codeChars s.length spec).toNat) := by
  have hchars : (maxChars (BitVec.ofNat 32 s.length) spec).toInt = codeChars s.length spec := maxChars_toInt _ _
  have hpad := strPadding_toNat (maxChars (BitVec.ofNat 32 s.length) spec) hwidth
  rw [hchars] at hpad
  have hpad' : (strPadding (maxChars (BitVec.ofNat 32 s.length) spec) spec).toInt.toNat =
      (codePadding s.length spec).toNat := by
    unfold codePadding
    omega
  simp only [Log.strText, laid, spaces, hchars, hpad']

/-- How many characters C shows. -/
def shownChars (n : Nat) (spec : FormatSpec) : Nat :=
  if spec.hasPrecision then min spec.precision.toInt.toNat n else n

theorem cText_eq_laid (s : List UInt8) (spec : FormatSpec) :
    CPrintf.strText spec.layout s =
      laid spec.leftAlign (spec.width.toInt.toNat - shownChars s.length spec)
        (s.take (shownChars s.length spec)) := by
  have hchars : CPrintf.strText spec.layout s = pad spec.layout (s.take (shownChars s.length spec)) := by
    cases hp : spec.hasPrecision with
    | false => simp [CPrintf.strText, FormatSpec.layout, shownChars, hp]
    | true =>
      have htake : s.take spec.precision.toInt.toNat = s.take (min spec.precision.toInt.toNat s.length) := by
        rw [List.take_eq_take_iff]
        omega
      simp [CPrintf.strText, FormatSpec.layout, shownChars, hp, ← htake]
  have hlen : (s.take (shownChars s.length spec)).length = shownChars s.length spec := by
    rw [List.length_take]
    unfold shownChars
    split <;> omega
  rw [hchars, pad, hlen]
  rfl

theorem intLength_of_lt {n : Nat} (h : n < 2 ^ 31) : intLength n = n := by
  rw [intLength, BitVec.toInt_ofNat', Int.bmod_eq_of_le] <;> omega

theorem intLength_le (n : Nat) : intLength n ≤ n ∧ -2 ^ 31 ≤ intLength n ∧ intLength n < 2 ^ 31 := by
  refine ⟨?_, BitVec.le_toInt _, BitVec.toInt_lt⟩
  rw [intLength, BitVec.toInt_eq_toNat_cond]
  have := Nat.mod_le n (2 ^ 32)
  simp only [BitVec.toNat_ofNat]
  split <;> omega

theorem codePadding_eq {n m : Nat} (h : codeChars n spec = m) :
    (codePadding n spec).toNat = spec.width.toInt.toNat - m := by
  have hw := BitVec.toInt_lt (x := spec.width)
  unfold codePadding
  rw [h]
  split <;> omega

/-- Where the precision cuts, or the length is right, both show as many characters. -/
theorem codeChars_eq_shownChars {n : Nat} (hprec : 0 ≤ spec.precision.toInt)
    (h : n < 2 ^ 31 ∨ (spec.hasPrecision = true ∧ spec.precision.toInt ≤ intLength n)) :
    codeChars n spec = shownChars n spec := by
  have hle := (intLength_le n).1
  have hlen : n < 2 ^ 31 → intLength n = n := intLength_of_lt
  unfold codeChars shownChars
  cases hp : spec.hasPrecision with
  | false =>
    rcases h with hn | ⟨hp', -⟩
    · simpa using hlen hn
    · rw [hp] at hp'
      cases hp'
  | true =>
    simp only [hp, true_and, if_true] at h ⊢
    split <;> rcases h with hn | hcut <;> omega

/-- Otherwise the code shows fewer. -/
theorem codeChars_of_wrong {n : Nat} (hn : ¬n < 2 ^ 31)
    (hcut : ¬(spec.hasPrecision = true ∧ spec.precision.toInt ≤ intLength n)) :
    codeChars n spec = intLength n ∧ intLength n < shownChars n spec ∧
      (spec.hasPrecision = true → (shownChars n spec : Int) = max 0 spec.precision.toInt) ∧
      (spec.hasPrecision = false → shownChars n spec = n) := by
  have hlt := (intLength_le n).2.2
  have hp := BitVec.toInt_lt (x := spec.precision)
  unfold codeChars shownChars
  cases hprec : spec.hasPrecision with
  | false =>
    simp only [Bool.false_eq_true, false_and, if_false, forall_const, false_implies, true_and, and_true]
    omega
  | true =>
    simp only [hprec, true_and] at hcut
    have hnot : ¬spec.precision.toInt < intLength n := by omega
    simp only [true_and, if_neg hnot, if_true, Bool.true_eq_false, false_implies, and_true, forall_const]
    omega

theorem codePadding_of_wrong {n : Nat} (h : codeChars n spec = intLength n) :
    codePadding n spec = if intLength n < spec.width.toInt ∧ spec.width.toInt - intLength n < 2 ^ 31 then
      spec.width.toInt - intLength n else 0 := by
  rw [codePadding, h]

/-- The same text, as far as the buffer has room. -/
theorem strText_take {n pos : Nat} (hpos : pos ≤ 1023) (hwidth : 0 ≤ spec.width.toInt)
    (hprec : 0 ≤ spec.precision.toInt) (h : LengthHidden pos n spec) (hs : s.length = n) :
    (Log.strText s spec).take (1023 - pos) = (CPrintf.strText spec.layout s).take (1023 - pos) := by
  rw [strText_eq_laid s spec hwidth, cText_eq_laid, hs]
  by_cases hright : n < 2 ^ 31 ∨ (spec.hasPrecision = true ∧ spec.precision.toInt ≤ intLength n)
  · have hchars := codeChars_eq_shownChars hprec hright
    rw [codePadding_eq hchars, hchars, Int.toNat_natCast]
  · have hn : ¬n < 2 ^ 31 := fun hn => hright (Or.inl hn)
    have hcut := fun hc => hright (Or.inr hc)
    obtain ⟨hcode, hmore, hshown, hall⟩ := codeChars_of_wrong hn hcut
    have hpad := codePadding_of_wrong hcode
    rw [hcode]
    rcases h with h | hroom | hc | ⟨hroom, hleft⟩ | ⟨hp, hleft, hroom, hover⟩ | ⟨hp, hzero, hwzero, hlen⟩
    · exact absurd h hn
    · have : 1023 - pos = 0 := by omega
      rw [this, List.take_zero, List.take_zero]
    · exact absurd hc hcut
    · rw [laid_take_chars, laid_take_chars]
      · refine hleft.imp_right fun hw => ?_
        omega
      · omega
      · omega
      · refine hleft.imp_right fun hw => ?_
        rw [hpad, if_neg (by omega)]
        rfl
      · omega
      · omega
    · have := hshown hp
      rw [laid_take_padding, laid_take_padding]
      · refine hleft.imp_right fun hzero => ?_
        omega
      · omega
      · refine hleft.imp_right fun hzero => ?_
        omega
      · rw [hpad]
        split <;> omega
    · have := hshown hp
      have hpad0 : (codePadding n spec).toNat = 0 := by
        rw [hpad, if_neg (by omega)]
        rfl
      have hcode0 : (intLength n).toNat = 0 := by omega
      have hshown0 : shownChars n spec = 0 := by omega
      have hw0 : spec.width.toInt.toNat = 0 := by omega
      rw [hpad0, hcode0, hshown0, hw0]

/-- With a string of letters a wrong length is seen. -/
theorem lengthHidden_of_letters {n pos : Nat} (hpos : pos ≤ 1023) (hwidth : 0 ≤ spec.width.toInt)
    (hprec : 0 ≤ spec.precision.toInt)
    (h : (Log.strText (List.replicate n (chr 'a')) spec).take (1023 - pos) =
      (CPrintf.strText spec.layout (List.replicate n (chr 'a'))).take (1023 - pos)) : LengthHidden pos n spec := by
  by_contra hnot
  simp only [LengthHidden, not_or] at hnot
  obtain ⟨hn, hroom, hcut, hchars, hpadding, hnothing⟩ := hnot
  obtain ⟨hcode, hmore, hshown, hall⟩ := codeChars_of_wrong hn hcut
  obtain ⟨-, hmin, hlt⟩ := intLength_le n
  have hw := BitVec.toInt_lt (x := spec.width)
  have hshown_le : shownChars n spec ≤ n := by
    unfold shownChars
    split <;> omega
  have hpad := codePadding_of_wrong hcode
  rw [strText_eq_laid _ spec hwidth, cText_eq_laid, List.length_replicate, hcode] at h
  have hlen := congrArg List.length h
  have hcodeLen : min (intLength n).toNat n = (intLength n).toNat := by omega
  simp only [List.length_take, length_laid, List.length_replicate, hcodeLen, Nat.min_eq_left hshown_le] at hlen
  have hp_of_lt : (shownChars n spec : Int) < 2 ^ 31 → spec.hasPrecision = true := by
    intro hlt
    cases hp : spec.hasPrecision with
    | true => rfl
    | false =>
      have := hall hp
      omega
  by_cases hzero : shownChars n spec = 0
  · -- Only padding is to be shown, and the length is negative.
    have hp := hp_of_lt (by omega)
    have hp0 : spec.precision.toInt = 0 := by
      have := hshown hp
      omega
    have hnopad : ¬(1023 - (pos : Int) ≤ spec.width.toInt ∧ spec.width.toInt - intLength n < 2 ^ 31) :=
      fun ⟨hle, hover⟩ => hpadding ⟨hp, Or.inr hp0, by omega, hover⟩
    have hfull : ¬(spec.width.toInt = 0 ∧ intLength n = -2 ^ 31) := fun ⟨hw0, hl⟩ => hnothing ⟨hp, hp0, hw0, hl⟩
    split at hpad <;> omega
  cases hleft : spec.leftAlign with
  | true =>
    rw [hleft] at h
    have hroom' := letters_take_left (by omega) hshown_le h
    exact hchars ⟨by omega, Or.inl hleft⟩
  | false =>
    by_cases hwide : spec.width.toInt ≤ intLength n
    · have hlt : ¬1023 - (pos : Int) ≤ intLength n := fun hle => hchars ⟨hle, Or.inr hwide⟩
      rw [if_neg (by omega)] at hpad
      omega
    by_cases hover : spec.width.toInt - intLength n < 2 ^ 31
    · -- The code shows padding where C shows the first character.
      rw [if_pos ⟨by omega, hover⟩] at hpad
      rw [hleft] at h
      have hroom' := letters_take_right (by omega) (by omega) (by omega) hshown_le h
      have hp := hp_of_lt (by omega)
      have := hshown hp
      exact hpadding ⟨hp, Or.inl hleft, by omega, hover⟩
    · rw [if_neg fun hc => hover hc.2] at hpad
      omega

end Texts

section Strings
variable {b : TBuffer}

theorem appends_strText (s : List UInt8) (spec : FormatSpec) (hcells : b.cells.length = bufferSize)
    (hpos : b.pos ≤ 1023) :
    b.Appends (bufferAppendStrFormatted b s spec) ((Log.strText s spec).take (1023 - b.pos)) := by
  rw [bufferAppendStrFormatted_eq]
  exact Buffer.appends_append (by rw [hcells]; decide) hpos _

/-- The conversion appends C's text, as far as the buffer has room, of every string of this length exactly when an
    `int` holds the length or the wrong one cannot be seen. -/
theorem strFormatted_iff (b : TBuffer) (n : Nat) (spec : FormatSpec) (hcells : b.cells.length = bufferSize)
    (hpos : b.pos ≤ 1023) (hwidth : 0 ≤ spec.width.toInt) (hprec : 0 ≤ spec.precision.toInt) :
    (∀ s : CString, s.1.length = n →
      b.Appends (bufferAppendStrFormatted b s.1 spec) ((CPrintf.strText spec.layout s.1).take (1023 - b.pos))) ↔
      LengthHidden b.pos n spec := by
  constructor
  · intro h
    have htext := (appends_strText (letters n).1 spec hcells hpos).unique (h (letters n) List.length_replicate)
    exact lengthHidden_of_letters hpos hwidth hprec htext
  · intro h s hs
    rw [← strText_take hpos hwidth hprec h hs]
    exact appends_strText s.1 spec hcells hpos

end Strings

/-- `%5s` of `ok`, in an empty buffer -/
theorem strFormatted_ok :
    let b : TBuffer := Buffer.empty bufferSize
    b.Appends (bufferAppendStrFormatted b (cstr "ok") { width := 5 }) (cstr "   ok") := by
  intro b
  have hcells : b.cells.length = bufferSize := List.length_replicate
  have hall : (cstr "ok").all (· != 0) = true := by decide
  have hok : ∀ c ∈ cstr "ok", c ≠ 0 := fun c hc => by simpa using List.all_eq_true.mp hall c hc
  exact (strFormatted_iff b 2 { width := 5 } hcells (by decide) (by decide) (by decide)).mpr
    (Or.inl (by decide)) ⟨cstr "ok", hok⟩ rfl

/-- Of a string of 2^32 letters, whose length is 0 as an `int`, nothing is shown. -/
theorem strFormatted_wraps :
    let b : TBuffer := Buffer.empty bufferSize
    b.Appends (bufferAppendStrFormatted b (letters (2 ^ 32)).1 {}) [] ∧
      ¬b.Appends (bufferAppendStrFormatted b (letters (2 ^ 32)).1 {})
        ((CPrintf.strText ({} : FormatSpec).layout (letters (2 ^ 32)).1).take 1023) := by
  intro b
  have hcells : b.cells.length = bufferSize := List.length_replicate
  have hlen : (letters (2 ^ 32)).1.length = 2 ^ 32 := List.length_replicate
  have hempty : Log.strText (letters (2 ^ 32)).1 {} = [] := by
    have hchars : (codeChars (2 ^ 32) {}).toNat = 0 := by decide
    have hpad : (codePadding (2 ^ 32) {}).toNat = 0 := by decide
    rw [strText_eq_laid _ _ (by decide), hlen, hchars, hpad, List.take_zero]
    rfl
  have happ : b.Appends (bufferAppendStrFormatted b (letters (2 ^ 32)).1 {}) [] := by
    have := appends_strText (b := b) (letters (2 ^ 32)).1 {} hcells (Nat.zero_le _)
    rwa [hempty, List.take_nil] at this
  refine ⟨happ, fun h => ?_⟩
  have hC := congrArg List.length (happ.unique h)
  have hshown : shownChars (2 ^ 32) {} = 2 ^ 32 := rfl
  rw [cText_eq_laid, hlen, hshown, List.length_take, length_laid, List.length_take, hlen] at hC
  exact absurd hC (by decide)

end Minitalk.Log
