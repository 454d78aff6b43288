import Minitalk.Lib.CText
import Minitalk.Server.Session

/-! # The two bit assemblers of the server (`server_message.c`)

`handle_msg` clears `char_value` when a character starts, `process_character` when one is complete. Between two
characters the states differ in `char_value`, and nowhere else. -/

namespace Minitalk.Server

/-- The log line is left out, as in `handleMsg`. -/
def processCharacter (bitValue : BitVec 32) (bitPos : Nat) (s : State) : State × List Effect :=
  let c : ClientState :=
    { s.client with
      charValue := s.client.charValue ||| bitValue <<< (7 - bitPos), sigCount := s.client.sigCount + 1 }
  if c.sigCount % 8 = 0 then
    let heap := s.heap.store c.msg.message c.msgPos (charOf c.charValue)
    let c : ClientState := { c with msgPos := c.msgPos + 1, charValue := 0 }
    if c.msg.sizeMessage.toInt ≤ (c.msgPos : Int) then handleCompleteMessage { s with client := c, heap }
    else ({ s with client := c, heap }, [])
  else ({ s with client := c }, [])

/-- The bits go to `handle_msg`. -/
def msgMachine : Machine State Signum Effect where
  step s signum := handleMsg signum s

/-- The bits go to `process_character`, each with the position that `handle_msg` computes. -/
def characterMachine : Machine State Signum Effect where
  step s signum := processCharacter (if getBitValue signum then 1 else 0) (s.client.sigCount % 8) s

/-- The same state, but for `char_value` between two characters, where the second machine has cleared it. -/
structure SameSoFar (s t : State) : Prop where
  rest : { s with client.charValue := 0 } = { t with client.charValue := 0 }
  inside : s.client.sigCount % 8 ≠ 0 → s = t
  cleared : t.client.sigCount % 8 = 0 → t.client.charValue = 0

section Steps
variable {s t : State}

/-- Where both have cleared the character, the states are the same. -/
theorem SameSoFar.eq_of_cleared (h : SameSoFar s t) (hcount : s.client.sigCount % 8 = 0)
    (hchar : s.client.charValue = 0) : s = t := by
  have hcount' : s.client.sigCount = t.client.sigCount := (congrArg (fun u : State => u.client.sigCount) h.rest :)
  calc s = { s with client.charValue := 0 } := by rw [← hchar]
    _ = { t with client.charValue := 0 } := h.rest
    _ = t := by rw [← h.cleared (hcount' ▸ hcount)]

/-- The character is not looked at when the message is complete. -/
theorem handleCompleteMessage_charValue (s : State) (v : BitVec 32) :
    handleCompleteMessage { s with client.charValue := v } = handleCompleteMessage s := by
  cases hmessage : s.client.msg.message.isSome <;>
    simp only [handleCompleteMessage, printMessage, resetClientState, hmessage, if_true, Bool.false_eq_true, if_false,
      Option.isSome_none]

theorem handleCompleteMessage_congr
    (h : { s with client.charValue := 0 } = { t with client.charValue := 0 }) :
    handleCompleteMessage s = handleCompleteMessage t := by
  rw [← handleCompleteMessage_charValue s 0, h, handleCompleteMessage_charValue]

theorem sameSoFar_of_eq {r r' : State × List Effect} (h : r = r')
    (hcleared : r'.1.client.sigCount % 8 = 0 → r'.1.client.charValue = 0) : SameSoFar r.1 r'.1 ∧ r.2 = r'.2 := by
  subst h
  exact ⟨⟨rfl, fun _ => rfl, hcleared⟩, rfl⟩

theorem or_bit (signum : Signum) (v : BitVec 32) (k : Nat) :
    (if getBitValue signum then v ||| 1#32 <<< k else v) =
      v ||| (if getBitValue signum then 1#32 else 0#32) <<< k := by
  cases getBitValue signum with
  | false => rw [if_neg Bool.false_ne_true, if_neg Bool.false_ne_true, BitVec.zero_shiftLeft, BitVec.or_zero]
  | true => rfl

/-- The bit is set in the same character; a complete one is stored in both, and a complete message resets both. -/
theorem sameSoFar_step (h : SameSoFar s t) (signum : Signum) :
    SameSoFar (msgMachine.step s signum).1 (characterMachine.step t signum).1 ∧
      (msgMachine.step s signum).2 = (characterMachine.step t signum).2 := by
  obtain ⟨x, rfl⟩ : ∃ x, s = { t with client.charValue := x } :=
    ⟨s.client.charValue, congrArg (fun u : State => { u with client.charValue := s.client.charValue }) h.rest⟩
  have hchar : (if t.client.sigCount % 8 = 0 then 0 else x) = t.client.charValue := by
    split
    · rename_i h0
      rw [h.cleared h0]
    · rename_i hne
      exact congrArg (fun u : State => u.client.charValue) (h.inside hne)
  simp only [msgMachine, characterMachine, handleMsg_eq, processCharacter, hchar, or_bit]
  generalize t.client.charValue ||| (if getBitValue signum then 1#32 else 0#32) <<< (7 - t.client.sigCount % 8) = v
  by_cases hfull : (t.client.sigCount + 1) % 8 = 0
  · rw [if_pos hfull, if_pos hfull]
    split
    · exact sameSoFar_of_eq (handleCompleteMessage_congr rfl) fun _ => rfl
    · exact ⟨⟨rfl, fun hne => absurd hfull hne, fun _ => rfl⟩, rfl⟩
  · rw [if_neg hfull, if_neg hfull]
    exact sameSoFar_of_eq rfl fun h0 => absurd h0 hfull

end Steps

/-- `n` bits of a message of `size` bytes, in the two machines: the states are the same after the last of them. -/
structure AfterBits (size n : Nat) (s t : State) : Prop where
  same : SameSoFar s t
  counted : n < 8 * size → s.client.sigCount = n ∧ s.client.msgPos = n / 8
  complete : n = 8 * size → s = t ∧ s.client = getClientInstance

section Runs
variable {s : State}

theorem toInt_of_valid {size : BitVec 32} (h : validateMessageSize size = true) : size.toInt = size.toNat := by
  rw [validateMessageSize_eq] at h
  have hrange : 0 < size.toNat ∧ size.toNat ≤ 10000000 := of_decide_eq_true h
  rw [BitVec.toInt_eq_toNat_cond, if_pos (by omega)]

/-- A bit that completes no message. -/
theorem handleMsg_counts (signum : Signum)
    (hmore : (s.client.sigCount + 1) % 8 = 0 → ((s.client.msgPos + 1 : Nat) : Int) < s.client.msg.sizeMessage.toInt) :
    (handleMsg signum s).1.client.sigCount = s.client.sigCount + 1 ∧
      (handleMsg signum s).1.client.msgPos = s.client.msgPos + (if (s.client.sigCount + 1) % 8 = 0 then 1 else 0) ∧
        (handleMsg signum s).1.client.msg = s.client.msg := by
  simp only [handleMsg_eq]
  by_cases hfull : (s.client.sigCount + 1) % 8 = 0
  · rw [if_pos hfull, if_pos hfull, if_neg (Int.not_le.mpr (hmore hfull))]
    exact ⟨rfl, rfl, rfl⟩
  · rw [if_neg hfull, if_neg hfull]
    exact ⟨rfl, rfl, rfl⟩

theorem msgMachine_counts (hcount : s.client.sigCount = 0) (hpos : s.client.msgPos = 0) (signals : List Signum)
    (hlen : (signals.length : Int) < 8 * s.client.msg.sizeMessage.toInt) :
    (msgMachine.run s signals).client.sigCount = signals.length ∧
      (msgMachine.run s signals).client.msgPos = signals.length / 8 ∧
        (msgMachine.run s signals).client.msg = s.client.msg := by
  induction signals using List.reverseRecOn with
  | nil => exact ⟨hcount, hpos, rfl⟩
  | append_singleton signals signum ih =>
    rw [List.length_append, List.length_singleton] at hlen ⊢
    obtain ⟨hcount', hpos', hmsg⟩ := ih (by omega)
    rw [Machine.run_concat]
    obtain ⟨hcount'', hpos'', hmsg'⟩ := handleMsg_counts (s := msgMachine.run s signals) signum fun hfull => by
      rw [hpos', hmsg]
      rw [hcount'] at hfull
      omega
    rw [hcount'] at hcount'' hpos''
    refine ⟨hcount'', hpos''.trans ?_, hmsg'.trans hmsg⟩
    rw [hpos']
    split <;> omega

/-- The last bit completes the message. -/
theorem msgMachine_completes (hcount : s.client.sigCount = 0) (hpos : s.client.msgPos = 0)
    (hsize : 0 < s.client.msg.sizeMessage.toInt) (signals : List Signum)
    (hlen : (signals.length : Int) = 8 * s.client.msg.sizeMessage.toInt) :
    (msgMachine.run s signals).client = getClientInstance := by
  rcases List.eq_nil_or_concat signals with rfl | ⟨signals, signum, hlast⟩
  · rw [List.length_nil] at hlen
    omega
  · rw [List.concat_eq_append] at hlast
    subst hlast
    rw [List.length_append, List.length_singleton] at hlen
    obtain ⟨hcount', hpos', hmsg⟩ := msgMachine_counts hcount hpos signals (by omega)
    rw [Machine.run_concat]
    generalize msgMachine.run s signals = t at hcount' hpos' hmsg
    have hfull : (signals.length + 1) % 8 = 0 := by omega
    have hend : s.client.msg.sizeMessage.toInt ≤ ((signals.length / 8 + 1 : Nat) : Int) := by omega
    simp only [msgMachine, handleMsg_eq, hcount', hpos', hmsg, hfull, if_true, if_pos hend]
    rfl

end Runs

/-- From the start of a message on, bit for bit: the same bytes are stored, printed and signalled, and the state is
    the same when the message is complete. Signals beyond the message are taken alike, too. -/
theorem assemblers_agree {s : State} (hsize : validateMessageSize s.client.msg.sizeMessage = true)
    (hcount : s.client.sigCount = 0) (hpos : s.client.msgPos = 0) (hchar : s.client.charValue = 0)
    (signals : List Signum) :
    msgMachine.outputs s signals = characterMachine.outputs s signals ∧
      ∀ n ≤ signals.length, AfterBits s.client.msg.sizeMessage.toNat n (msgMachine.run s (signals.take n))
        (characterMachine.run s (signals.take n)) := by
  have hint := toInt_of_valid hsize
  have hpositive : 0 < s.client.msg.sizeMessage.toNat := by
    rw [validateMessageSize_eq] at hsize
    exact (of_decide_eq_true hsize : 0 < _ ∧ _).1
  have hstart : SameSoFar s s := ⟨rfl, fun _ => rfl, fun _ => hchar⟩
  have hrun := fun signals => Machine.run_simulates (fun s t i (h : SameSoFar s t) => sameSoFar_step h i) hstart signals
  refine ⟨(hrun signals).2, fun n hn => ⟨(hrun _).1, fun hlt => ?_, fun hend => ?_⟩⟩
  · have hcounts := msgMachine_counts hcount hpos (signals.take n) (by rw [List.length_take_of_le hn]; omega)
    rw [List.length_take_of_le hn] at hcounts
    exact ⟨hcounts.1, hcounts.2.1⟩
  · have hclient := msgMachine_completes hcount hpos (by omega) (signals.take n)
      (by rw [List.length_take_of_le hn]; omega)
    exact ⟨(hrun (signals.take n)).1.eq_of_cleared (by rw [hclient]; rfl) (by rw [hclient]; rfl), hclient⟩

/-- A message of one byte, after its header. -/
def oneByte : State where
  client := { actualPid := 7, clientPid := 7, gettingMsg := true, msg := { message := some 0, sizeMessage := 1 } }
  heap := (({} : Heap UInt8).malloc 2).1

theorem assemblers_agree_letter :
    msgMachine.outputs oneByte [.SIGUSR1, .SIGUSR2, .SIGUSR1, .SIGUSR1, .SIGUSR1, .SIGUSR1, .SIGUSR1, .SIGUSR2] =
        characterMachine.outputs oneByte
          [.SIGUSR1, .SIGUSR2, .SIGUSR1, .SIGUSR1, .SIGUSR1, .SIGUSR1, .SIGUSR1, .SIGUSR2] ∧
      characterMachine.outputs oneByte
          [.SIGUSR1, .SIGUSR2, .SIGUSR1, .SIGUSR1, .SIGUSR1, .SIGUSR1, .SIGUSR1, .SIGUSR2] =
        [[], [], [], [], [], [], [], [.print (CText.cstr "A"), .kill 7 .SIGUSR1]] :=
  ⟨(assemblers_agree (s := oneByte) (by decide) rfl rfl rfl _).1, by decide⟩

end Minitalk.Server
