import Minitalk.Lib.Frame
import Minitalk.Server.Session

/-! # What the client sends (`srcs/client/bits.c`, `ping_utils.c`, `hook.c`)

The signals of one transmission, in the order of the client's loops: the message length and then every byte of
the message, each from its highest bit down. They spell the frame of the message. -/

namespace Minitalk.Client
open Bits

abbrev CHAR_0 := Signum.SIGUSR1
abbrev CHAR_1 := Signum.SIGUSR2

/-- `argv[2]`: a C string that is not empty and whose length `msg_len = ft_strlen(argv[2])` is an `int`. -/
structure Text where
  bytes : List UInt8
  len : Nat
  len_eq : len = bytes.length
  len_pos : 0 < len
  len_le : len ≤ 2147483647
  noNul : ∀ b ∈ bytes, b ≠ 0

def Text.msgLen (t : Text) : BitVec 32 := BitVec.ofNat 32 t.len

def sendDataBit (bitValue : Bool) : Signum := if bitValue then CHAR_1 else CHAR_0

def sendBit (value : BitVec 64) (i : Nat) : Signum := sendDataBit (value &&& 1#64 <<< i != 0)

/-- The loop of `send_signals`, over the bit positions below `n`, downwards. -/
def sendBits (value : BitVec 64) : Nat → List Signum
  | 0 => []
  | i + 1 => sendBit value i :: sendBits value i

/-- `send_signals`, for the value that it reads through its cast for this `bit_length`. -/
def sendSignals (value : BitVec 64) (bitLength : Nat) : List Signum := sendBits value bitLength

def sendMessage (bytes : List UInt8) : List Signum :=
  bytes.flatMap fun c => sendSignals (c.toBitVec.setWidth 64) 8

def startTransmission (t : Text) : List Signum :=
  sendSignals (t.msgLen.setWidth 64) 32 ++ sendMessage t.bytes

/-! ### The signals spell the frame -/

theorem getBitValue_sendDataBit (b : Bool) : Server.getBitValue (sendDataBit b) = b := by
  cases b <;> rfl

theorem sendBit_eq (value : BitVec 64) {i : Nat} (hi : i < 64) :
    sendBit value i = sendDataBit (value.toNat.testBit i) := by
  have hmask : (value &&& 1#64 <<< i != 0) = value.toNat.testBit i := by
    rw [BitVec.testBit_toNat]
    cases hb : value.getLsbD i with
    | false =>
      have : value &&& 1#64 <<< i = 0 := by
        ext j hj
        by_cases hij : j = i
        · subst hij
          simpa [hj] using hb
        · have : ¬(i ≤ j ∧ j - i = 0) := by omega
          simp only [BitVec.getElem_and, BitVec.getElem_shiftLeft]
          simp
          omega
      simp [this]
    | true =>
      have : (value &&& 1#64 <<< i).getLsbD i = true := by simp [hb, hi]
      rw [bne_iff_ne]
      rintro h0
      rw [h0] at this
      simp at this
  rw [sendBit, hmask]

theorem sendSignals_eq (value : BitVec 64) {n : Nat} (hn : n ≤ 64) :
    sendSignals value n = (ofNat n value.toNat).map sendDataBit := by
  unfold sendSignals
  induction n with
  | zero => rfl
  | succ n ih => rw [sendBits, ofNat, List.map_cons, ih (by omega), sendBit_eq value (by omega)]

/-- The units of a message: its bytes. -/
def Text.units (t : Text) : List Nat := t.bytes.map UInt8.toNat

@[simp] theorem Text.length_units (t : Text) : t.units.length = t.len := by
  rw [Text.units, List.length_map, t.len_eq]

theorem startTransmission_eq (t : Text) :
    startTransmission t = (Server.wire.encode t.units).map sendDataBit := by
  have hlen : (t.msgLen.setWidth 64).toNat = t.len := by
    have := t.len_le
    rw [BitVec.toNat_setWidth, Text.msgLen, BitVec.toNat_ofNat]
    omega
  have hbyte : ∀ c : UInt8, (c.toBitVec.setWidth 64).toNat = c.toNat := fun c => by
    have := c.toNat_lt
    rw [BitVec.toNat_setWidth, UInt8.toNat_toBitVec]
    omega
  have hbytes : sendMessage t.bytes = (t.units.flatMap (ofNat 8)).map sendDataBit := by
    rw [sendMessage, Text.units, List.flatMap_map, List.map_flatMap]
    exact congrArg t.bytes.flatMap (funext fun c => by rw [sendSignals_eq _ (by decide), hbyte])
  rw [startTransmission, sendSignals_eq _ (by decide), hlen, hbytes, Frame.Format.encode, List.map_append,
    t.length_units]
  rfl

/-- 32 bits of the length, then 8 bits for every byte. -/
def Text.signalCount (t : Text) : Nat := 32 + 8 * t.len

theorem Text.signalCount_pos (t : Text) : 0 < t.signalCount := by
  rw [Text.signalCount]
  omega

theorem length_startTransmission (t : Text) : (startTransmission t).length = t.signalCount := by
  rw [startTransmission_eq, List.length_map, Frame.Format.length_encode, Text.length_units]
  rfl

theorem sendable (t : Text) (h : t.len ≤ 10000000) : Server.wire.Sendable t.units where
  fits u hu := by
    obtain ⟨b, -, rfl⟩ := List.mem_map.mp hu
    exact b.toNat_lt
  length_lt := by
    rw [t.length_units]
    exact h.trans_lt (by decide)
  accepted := by
    rw [t.length_units]
    exact decide_eq_true ⟨t.len_pos, h⟩

theorem map_ofNat_units (t : Text) : t.units.map UInt8.ofNat = t.bytes := by
  rw [Text.units, List.map_map]
  exact (List.map_congr_left fun b _ => UInt8.ofNat_toNat).trans (List.map_id _)

end Minitalk.Client
