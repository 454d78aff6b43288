import Minitalk.Lib.Bits

/-! # Length-prefixed bit frames

A frame is a header of fixed width, holding the number of units that follow, and then the units, each of fixed
width, all most significant bit first. A receiver that has collected a bit string waits for more, rejects the
header, or has the complete frame. -/

namespace Frame
open Bits

structure Format where
  headerWidth : Nat
  unitWidth : Nat
  /-- The announced lengths a receiver goes on with. -/
  accepts : Nat → Bool
  header_pos : 0 < headerWidth
  unit_pos : 0 < unitWidth
  accepts_pos : ∀ n, accepts n = true → 0 < n

inductive Status where
  | more
  | rejected
  | complete (units : List Nat)
deriving DecidableEq

namespace Format
variable (f : Format)

def announced (bs : List Bool) : Nat := value (bs.take f.headerWidth)

def body (bs : List Bool) : List Bool := bs.drop f.headerWidth

def status (bs : List Bool) : Status :=
  if bs.length < f.headerWidth then .more
  else if f.accepts (f.announced bs) then
    if (f.body bs).length < f.unitWidth * f.announced bs then .more
    else .complete (units f.unitWidth (f.body bs))
  else .rejected

def encode (us : List Nat) : List Bool := ofNat f.headerWidth us.length ++ us.flatMap (ofNat f.unitWidth)

/-- Units that fit their width, in a number that the header can hold and the receiver accepts. -/
structure Sendable (us : List Nat) : Prop where
  fits : ∀ u ∈ us, u < 2 ^ f.unitWidth
  length_lt : us.length < 2 ^ f.headerWidth
  accepted : f.accepts us.length = true

variable {f}

theorem length_flatMap_ofNat (w : Nat) (us : List Nat) : (us.flatMap (ofNat w)).length = w * us.length := by
  induction us with
  | nil => simp
  | cons u us ih => simp [ih, Nat.mul_succ, Nat.add_comm]

@[simp] theorem length_encode (us : List Nat) :
    (f.encode us).length = f.headerWidth + f.unitWidth * us.length := by
  rw [encode, List.length_append, length_ofNat, length_flatMap_ofNat]

theorem length_body (bs : List Bool) : (f.body bs).length = bs.length - f.headerWidth :=
  List.length_drop

theorem announced_append {bs : List Bool} (h : f.headerWidth ≤ bs.length) (cs : List Bool) :
    f.announced (bs ++ cs) = f.announced bs := by
  rw [announced, List.take_append_of_le_length h, announced]

theorem body_append {bs : List Bool} (h : f.headerWidth ≤ bs.length) (cs : List Bool) :
    f.body (bs ++ cs) = f.body bs ++ cs := by
  rw [body, List.drop_append_of_le_length h, body]

theorem status_of_lt {bs : List Bool} (h : bs.length < f.headerWidth) : f.status bs = .more := if_pos h

theorem status_of_rejected {bs : List Bool} (h : f.headerWidth ≤ bs.length)
    (hr : f.accepts (f.announced bs) = false) : f.status bs = .rejected := by
  rw [status, if_neg (Nat.not_lt.mpr h), hr]
  rfl

theorem status_of_short {bs : List Bool} (h : f.headerWidth ≤ bs.length)
    (ha : f.accepts (f.announced bs) = true) (hb : (f.body bs).length < f.unitWidth * f.announced bs) :
    f.status bs = .more := by
  rw [status, if_neg (Nat.not_lt.mpr h), if_pos ha, if_pos hb]

theorem status_of_full {bs : List Bool} (h : f.headerWidth ≤ bs.length)
    (ha : f.accepts (f.announced bs) = true) (hb : f.unitWidth * f.announced bs ≤ (f.body bs).length) :
    f.status bs = .complete (units f.unitWidth (f.body bs)) := by
  rw [status, if_neg (Nat.not_lt.mpr h), if_pos ha, if_neg (Nat.not_lt.mpr hb)]

theorem status_header {bs : List Bool} (h : bs.length = f.headerWidth) :
    f.status bs = if f.accepts (value bs) then .more else .rejected := by
  have hann : f.announced bs = value bs := by rw [announced, List.take_of_length_le h.le]
  have hbody : f.body bs = [] := List.drop_of_length_le h.le
  cases hacc : f.accepts (value bs) with
  | false => exact status_of_rejected h.ge (hann ▸ hacc)
  | true =>
    refine status_of_short h.ge (hann ▸ hacc) ?_
    rw [hann, hbody]
    exact Nat.mul_pos f.unit_pos (f.accepts_pos _ hacc)

theorem announced_encode {us : List Nat} (h : us.length < 2 ^ f.headerWidth) :
    f.announced (f.encode us) = us.length := by
  rw [announced, encode, List.take_left' (length_ofNat _ _), value_ofNat_of_lt h]

/-- A complete frame is read back. -/
theorem status_encode {us : List Nat} (h : f.Sendable us) : f.status (f.encode us) = .complete us := by
  have hann := announced_encode h.length_lt
  have hbody : f.body (f.encode us) = us.flatMap (ofNat f.unitWidth) := List.drop_left' (length_ofNat _ _)
  rw [status_of_full (by simp) (by rw [hann]; exact h.accepted)
    (by rw [hann, hbody, length_flatMap_ofNat]), hbody, units_flatMap f.unit_pos h.fits]

theorem status_take_encode {us : List Nat} (h : f.Sendable us) {k : Nat} (hk : k < (f.encode us).length) :
    f.status ((f.encode us).take k) = .more := by
  have hlen : ((f.encode us).take k).length = k := by rw [List.length_take, Nat.min_eq_left hk.le]
  by_cases hshort : k < f.headerWidth
  · exact status_of_lt (hlen.trans_lt hshort)
  · have hge : f.headerWidth ≤ k := Nat.le_of_not_lt hshort
    have hann : f.announced ((f.encode us).take k) = us.length := by
      rw [announced, List.take_take, Nat.min_eq_left hge]
      exact announced_encode h.length_lt
    rw [length_encode] at hk
    refine status_of_short (hge.trans_eq hlen.symm) (by rw [hann]; exact h.accepted) ?_
    rw [hann, length_body, hlen]
    omega

/-- A frame that one more bit completes has exactly the announced length. -/
theorem length_of_complete {bs : List Bool} {b : Bool} {us : List Nat} (hmore : f.status bs = .more)
    (h : f.status (bs ++ [b]) = .complete us) :
    bs.length + 1 = f.headerWidth + f.unitWidth * us.length ∧ f.accepts us.length = true := by
  have hlong : f.headerWidth ≤ (bs ++ [b]).length := Nat.le_of_not_lt fun hlt => by
    rw [status_of_lt hlt] at h
    cases h
  have hacc : f.accepts (f.announced (bs ++ [b])) = true := by
    by_contra hrej
    rw [status_of_rejected hlong (Bool.eq_false_iff.mpr hrej)] at h
    cases h
  have hfull : f.unitWidth * f.announced (bs ++ [b]) ≤ (f.body (bs ++ [b])).length := Nat.le_of_not_lt fun hlt => by
    rw [status_of_short hlong hacc hlt] at h
    cases h
  rw [status_of_full hlong hacc hfull] at h
  have hus : (f.body (bs ++ [b])).length / f.unitWidth = us.length := by
    rw [← length_units, Status.complete.inj h]
  have hpos := Nat.mul_pos f.unit_pos (f.accepts_pos _ hacc)
  rw [length_body, List.length_append, List.length_singleton] at hfull hus
  rw [List.length_append, List.length_singleton] at hlong
  have hheader : f.headerWidth ≤ bs.length := by omega
  rw [announced_append hheader] at hacc hfull
  have hshort : (f.body bs).length < f.unitWidth * f.announced bs := Nat.lt_of_not_le fun hle => by
    rw [status_of_full hheader hacc hle] at hmore
    cases hmore
  rw [length_body] at hshort
  have hexact : bs.length + 1 - f.headerWidth = f.unitWidth * f.announced bs := by omega
  rw [hexact, Nat.mul_div_cancel_left _ f.unit_pos] at hus
  rw [← hus]
  exact ⟨by omega, hacc⟩

theorem status_ofNat_rejected {v : Nat} (hv : v < 2 ^ f.headerWidth) (hr : f.accepts v = false) :
    f.status (ofNat f.headerWidth v) = .rejected := by
  refine status_of_rejected (length_ofNat _ _).ge ?_
  rw [announced, List.take_of_length_le (length_ofNat _ _).le, value_ofNat_of_lt hv, hr]

end Format
end Frame
