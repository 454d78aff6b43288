import Minitalk.Lib.CArray
import Minitalk.Lib.CText
import Minitalk.Lib.SignedRotation

/-! # The checksum of a message (`client/checksum.c`, `server/crook.c`)

Client and server have the same function. It rotates its accumulator with `(checksum << 1) | (checksum >> 31)`, which
on an `int` is a rotation until the top bit is set. -/

namespace Minitalk
open CArray Program SignedRotation

/-- A `char`, as it is converted to `int`. -/
def signedChar (c : UInt8) : BitVec 32 := c.toBitVec.signExtend 32

def checksumTurn (data : List UInt8) (i : Int) (checksum : BitVec 32) : Option (BitVec 32) := do
  let checksum := checksum ^^^ signedChar (← load data i)
  some (checksum <<< 1 ||| checksum.sshiftRight 31)

def checksumLoop (data : List UInt8) (length : Int) : Option (BitVec 32) := forUp 0 length (checksumTurn data) 0

def Client.calculateChecksum (data : List UInt8) (length : Int) : Option (BitVec 32) := checksumLoop data length

def Server.calculateChecksum (data : List UInt8) (length : Int) : Option (BitVec 32) := checksumLoop data length

-- The trace in `checksum.c`.
example : Client.calculateChecksum (CText.cstr "ABC") 3 = some 0x386 := by decide

/-- The strings differ in one bit, which is in the byte at `k`. -/
def OneBitApart (k : Nat) (x y : List UInt8) : Prop :=
  ∃ (pre post : List UInt8) (b : UInt8) (i : Nat), i < 8 ∧ pre.length = k ∧ x = pre ++ b :: post ∧
    y = pre ++ (b ^^^ UInt8.ofNat (1 <<< i)) :: post

/-- The byte at `j` brings a set bit to the top of the accumulator. Of the byte `m` places before it, bit
    `min (31 - m) 7` comes to the top with it (`m ≤ 31`); an odd number of these bits is set. Bytes up to the last one
    that did so do not count; instead there is one set bit more for the next 32 bytes. -/
def overflowsAt (x : List UInt8) (j : Nat) : Bool := carries (x.map signedChar) j

section Checksums
variable {x y : List UInt8} {k : Nat}

theorem checksumLoop_eq (x : List UInt8) : checksumLoop x x.length = some (fold 0 (x.map signedChar)) := by
  rw [fold, List.foldl_map]
  refine forUp_foldl (fun i checksum hi => ?_) 0
  rw [checksumTurn, load_eq hi]
  rfl

theorem signedChar_inj {b c : UInt8} : signedChar b = signedChar c ↔ b = c := by
  refine ⟨fun h => UInt8.toBitVec_inj.mp (BitVec.eq_of_toInt_eq ?_), congrArg signedChar⟩
  have htoInt := congrArg BitVec.toInt h
  rwa [signedChar, signedChar, BitVec.toInt_signExtend_of_le (by decide), BitVec.toInt_signExtend_of_le (by decide)]
    at htoInt

theorem flip_ne (b : UInt8) {i : Nat} (hi : i < 8) : b ≠ b ^^^ UInt8.ofNat (1 <<< i) := by
  have hbit : ∀ i < 8, UInt8.ofNat (1 <<< i) ≠ 0 := by decide
  intro h
  rw [← UInt8.xor_zero (a := b), UInt8.xor_assoc, UInt8.zero_xor] at h
  exact hbit i hi ((UInt8.xor_right_inj b).mp h).symm

/-- Strings that differ in one byte only have different checksums, unless later on both bring a set bit to the top. -/
theorem checksumLoop_ne_iff (pre post : List UInt8) {b c : UInt8} (hne : b ≠ c) :
    checksumLoop (pre ++ b :: post) (pre ++ b :: post).length ≠
        checksumLoop (pre ++ c :: post) (pre ++ c :: post).length ↔
      ∀ j, pre.length ≤ j →
        ¬(overflowsAt (pre ++ b :: post) j = true ∧ overflowsAt (pre ++ c :: post) j = true) := by
  have hwords := fold_eq_iff (by decide) 0 (fun h => hne (signedChar_inj.mp h)) (pre.map signedChar)
    (post.map signedChar)
  simp only [topAt_eq_carries, List.length_map] at hwords
  rw [checksumLoop_eq, checksumLoop_eq, Ne, Option.some.injEq]
  simp only [overflowsAt, List.map_append, List.map_cons]
  rw [hwords]
  simp

theorem checksumTurn_eq {i : Int} (hi : Inside x i) (acc : BitVec 32) :
    checksumTurn x i acc = some (rotate (acc ^^^ signedChar (get x i))) := by
  rw [checksumTurn, load_eq hi]
  rfl

/-- A bit of the `int` from the sign bit of the `char` on is that sign bit. -/
theorem getLsbD_signedChar (c : UInt8) (i : Nat) :
    (signedChar c).getLsbD i = (decide (i < 32) && c.toBitVec.getLsbD (min i 7)) := by
  rw [signedChar, BitVec.getLsbD_signExtend, BitVec.msb_eq_getLsbD_last]
  by_cases hi : i < 8
  · rw [if_pos hi, Nat.min_eq_left (by omega)]
  · rw [if_neg hi, Nat.min_eq_right (by omega)]

theorem low_of_ascii {c : UInt8} (hc : c < 128) : Low 7 (signedChar c) := by
  intro i hi
  have hsign : c.toBitVec.getLsbD 7 = false := by
    have hlt : c.toNat < 128 := hc
    have hmsb := BitVec.msb_eq_false_iff_two_mul_lt.mpr (show 2 * c.toBitVec.toNat < 2 ^ 8 by
      rw [UInt8.toNat_toBitVec]
      omega)
    rwa [BitVec.msb_eq_getLsbD_last] at hmsb
  rw [getLsbD_signedChar, Nat.min_eq_right hi, hsign, Bool.and_false]

end Checksums

/-- The checksums of two strings that are one bit apart differ if and only if no byte from that bit on brings a set
    bit to the top in both. A turn of the loop is a rotation if and only if the top bit is not set, or all of them
    are. -/
theorem checksum_detects_iff {x y : List UInt8} {k : Nat} (h : OneBitApart k x y) :
    (∃ c d, Client.calculateChecksum x x.length = some c ∧ Client.calculateChecksum y y.length = some d ∧
      Server.calculateChecksum x x.length = some c ∧ Server.calculateChecksum y y.length = some d ∧
        (c ≠ d ↔ ∀ j, k ≤ j → ¬(overflowsAt x j = true ∧ overflowsAt y j = true))) ∧
      ∀ i acc, Inside x i →
        (checksumTurn x i acc = some ((acc ^^^ signedChar (get x i)).rotateLeft 1) ↔
          (acc ^^^ signedChar (get x i)).msb = false ∨ acc ^^^ signedChar (get x i) = BitVec.allOnes 32) := by
  obtain ⟨pre, post, b, i, hi, rfl, rfl, rfl⟩ := h
  have hne := checksumLoop_ne_iff pre post (flip_ne b hi)
  rw [checksumLoop_eq, checksumLoop_eq, Ne, Option.some.injEq] at hne
  refine ⟨⟨_, _, checksumLoop_eq _, checksumLoop_eq _, checksumLoop_eq _, checksumLoop_eq _, hne⟩, ?_⟩
  intro i acc hin
  rw [checksumTurn_eq hin, Option.some.injEq, rotate_eq_rotateLeft (by decide)]

theorem checksum_detects_iff_letter :
    ∃ c d, Client.calculateChecksum (CText.cstr "A") 1 = some c ∧ Client.calculateChecksum (CText.cstr "C") 1 = some d ∧
      Server.calculateChecksum (CText.cstr "A") 1 = some c ∧ Server.calculateChecksum (CText.cstr "C") 1 = some d ∧
        (c ≠ d ↔ ∀ j, 0 ≤ j →
          ¬(overflowsAt (CText.cstr "A") j = true ∧ overflowsAt (CText.cstr "C") j = true)) :=
  (checksum_detects_iff (x := CText.cstr "A") (y := CText.cstr "C") (k := 0)
    ⟨[], [], 0x41, 1, by decide, rfl, by decide, by decide⟩).1

/-- Two letters of UTF-8, é and ©: their first bytes fill both accumulators with ones. -/
theorem checksum_misses_one_bit :
    OneBitApart 0 [0xC3, 0xA9] [0xC2, 0xA9] ∧
      Client.calculateChecksum [0xC3, 0xA9] 2 = some 0xAC ∧ Client.calculateChecksum [0xC2, 0xA9] 2 = some 0xAC ∧
        Server.calculateChecksum [0xC3, 0xA9] 2 = some 0xAC ∧ Server.calculateChecksum [0xC2, 0xA9] 2 = some 0xAC ∧
          checksumTurn [0xC3, 0xA9] 0 0 ≠ some ((0 ^^^ signedChar 0xC3).rotateLeft 1) :=
  ⟨⟨[], [0xA9], 0xC3, 0, by decide, rfl, rfl, by decide⟩, by decide, by decide, by decide, by decide, by decide⟩

/-- Of a text of at most 25 ASCII characters every one-bit error is detected. -/
theorem checksum_detects_short {x y : List UInt8} {k : Nat} (h : OneBitApart k x y) (hascii : ∀ c ∈ x, c < 128)
    (hlen : x.length ≤ 25) : checksumLoop x x.length ≠ checksumLoop y y.length := by
  obtain ⟨pre, post, b, i, hi, rfl, rfl, rfl⟩ := h
  refine (checksumLoop_ne_iff pre post (flip_ne b hi)).mpr fun j _ hboth => ?_
  have hlow : ∀ a ∈ (pre ++ b :: post).map signedChar, Low 7 a := by
    intro a ha
    obtain ⟨c, hc, rfl⟩ := List.mem_map.mp ha
    exact low_of_ascii (hascii c hc)
  have hquiet := carries_of_low hlow (by rw [List.length_map]; omega) j
  rw [overflowsAt, hquiet] at hboth
  exact Bool.false_ne_true hboth.1

end Minitalk
