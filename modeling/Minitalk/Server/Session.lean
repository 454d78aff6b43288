import Minitalk.Lib.Frame
import Minitalk.Server.Handler

/-! # What the server is for: one session at a time

The server serves one client at a time and collects its data bits until they make a complete frame, which it
prints, or a header it does not accept, which it drops. `Phase` says this without counters, shifts and buffers.
The handler of `srcs/server` simulates it step by step (`simulates`): `Represents` ties every field of the
`t_client_state`, and the buffer, to the bits of the open session. -/

namespace Minitalk.Server
open Bits Frame

/-- A 32-bit length from 1 to 10,000,000, then that many bytes. -/
def wire : Format where
  headerWidth := 32
  unitWidth := 8
  accepts n := decide (0 < n ∧ n ≤ 10000000)
  header_pos := by decide
  unit_pos := by decide
  accepts_pos n h := (of_decide_eq_true h).1

inductive Phase where
  /-- Free; `phantom` after a signal without a sender, which the code takes for a client with pid 0. -/
  | idle (phantom : Bool)
  | serving (pid : Pid) (bits : List Bool)
  | exited
deriving DecidableEq

namespace Phase

/-- A data bit of the client `pid`, after `bits`; `mallocOk` tells whether an allocation would succeed. -/
def receive (mallocOk : Bool) (pid : Pid) (bits : List Bool) (b : Bool) : Phase × List Effect :=
  match wire.status (bits ++ [b]) with
  | .more =>
    if bits.length + 1 = 32 ∧ mallocOk = false then (.exited, [])
    else (.serving pid (bits ++ [b]), [.kill pid .SIGUSR2])
  | .rejected => (.idle false, [.kill 0 .SIGUSR2])
  | .complete us =>
    (.idle false, [.print (us.map UInt8.ofNat), .kill pid .SIGUSR1, .kill 0 .SIGUSR2])

/-- Whom a signal of `siPid` counts for: one without a sender counts for the active client. -/
def sender (siPid : Pid) : Phase → Pid
  | serving pid _ => if siPid = 0 then pid else siPid
  | _ => siPid

@[simp] theorem sender_serving (siPid pid : Pid) (bits : List Bool) :
    sender siPid (serving pid bits) = if siPid = 0 then pid else siPid := rfl

def step (serverPid : Pid) (mallocOk : Bool) : Phase → Event → Phase × List Effect
  | exited, _ => (exited, [])
  | _, .cleanGlobal => (idle false, [])
  | idle phantom, .signal _ siPid =>
    if siPid = serverPid then (idle phantom, [])
    else if siPid = 0 then (idle true, [.kill 0 SERVER_READY])
    else (serving siPid [], [.kill siPid SERVER_READY])
  | serving pid bits, .signal signum siPid =>
    let from_ := sender siPid (serving pid bits)
    if from_ = serverPid then (serving pid bits, [])
    else if from_ ≠ pid then (serving pid bits, [.kill from_ SERVER_BUSY])
    else receive mallocOk pid bits (getBitValue signum)

/-- The phases as a machine whose allocations all succeed. -/
def machine (serverPid : Pid) : Machine Phase Event Effect where
  step := step serverPid true

end Phase

/-! ### The fields of the state that stand for a phase -/

def connected (pid : Pid) : ClientState :=
  { actualPid := pid, clientPid := pid, gettingHeader := true, clientActivity := true, transmissionActive := true }

def idleRecord (phantom : Bool) : ClientState := if phantom then connected 0 else getClientInstance

/-- Fewer than 32 bits have arrived: they are the upper bits of the length. -/
structure InHeader (c : ClientState) (bits : List Bool) : Prop where
  header : c.gettingHeader = true
  msg : c.gettingMsg = false
  short : bits.length < 32
  count : c.sigCount = bits.length
  size : c.msg.sizeMessage.toNat = value bits * 2 ^ (32 - bits.length)
  pos : c.msgPos = 0
  message : c.msg.message = none

/-- The cells of a message buffer that holds the bytes of `body`, of `n` announced ones. -/
def bufferCells (body : List Bool) (n : Nat) : List (Option UInt8) :=
  (units 8 body).map (some ∘ UInt8.ofNat) ++ List.replicate (n + 1 - body.length / 8) none

/-- The length is known and accepted: the complete bytes are in the buffer, the bits of the next one are the
    upper bits of `char_value`. -/
structure InBody (c : ClientState) (heap : Heap UInt8) (bits : List Bool) : Prop where
  header : c.gettingHeader = false
  msg : c.gettingMsg = true
  long : 32 ≤ bits.length
  accepted : wire.accepts (wire.announced bits) = true
  short : (wire.body bits).length < 8 * wire.announced bits
  size : c.msg.sizeMessage.toNat = wire.announced bits
  count : c.sigCount = (wire.body bits).length
  pos : c.msgPos = (wire.body bits).length / 8
  char : rest 8 (wire.body bits) ≠ [] →
    c.charValue.toNat = value (rest 8 (wire.body bits)) * 2 ^ (8 - (wire.body bits).length % 8)
  buffer : ∃ b, heap.live? c.msg.message = some b ∧
    b.cells = bufferCells (wire.body bits) (wire.announced bits)

def Represents (env : Env) (s : State) : Phase → Prop
  | .idle phantom => s.exited = false ∧ s.heap.Owns s.client.msg.message ∧ s.client = idleRecord phantom
  | .serving pid bits => s.exited = false ∧ s.heap.Owns s.client.msg.message ∧
      0 < pid ∧ pid ≠ env.serverPid ∧ s.client.actualPid = pid ∧
      (InHeader s.client bits ∨ InBody s.client s.heap bits)
  | .exited => s.exited = true

@[simp] theorem actualPid_idleRecord (phantom : Bool) : (idleRecord phantom).actualPid = 0 := by
  cases phantom <;> rfl

@[simp] theorem message_idleRecord (phantom : Bool) : (idleRecord phantom).msg.message = none := by
  cases phantom <;> rfl

/-! ### The header -/

theorem validateMessageSize_eq (size : BitVec 32) : validateMessageSize size = wire.accepts size.toNat := by
  have hlt := size.isLt
  simp only [validateMessageSize, wire, BitVec.toInt_eq_toNat_cond]
  split <;> split <;> symm <;> simp <;> omega

theorem toNat_or_one_shiftLeft (x : BitVec 32) {k : Nat} (hk : k < 32) :
    (x ||| 1#32 <<< k).toNat = x.toNat ||| 2 ^ k := by
  have hlt : 2 ^ k < 2 ^ 32 := Nat.pow_lt_pow_right (by decide) hk
  rw [BitVec.toNat_or, BitVec.toNat_shiftLeft]
  simp only [BitVec.toNat_ofNat, Nat.one_mod_two_pow (by decide : 0 < 32), Nat.shiftLeft_eq, Nat.one_mul,
    Nat.mod_eq_of_lt hlt]

theorem toNat_set_next {x : BitVec 32} {bs : List Bool} (b : Bool) {r : Nat} (hr : r < 32)
    (hx : x.toNat = value bs * 2 ^ (r + 1)) :
    (if b then x ||| 1#32 <<< r else x).toNat = value (bs ++ [b]) * 2 ^ r := by
  rw [← or_next bs b r, ← hx]
  cases b with
  | false => simp
  | true => simp [toNat_or_one_shiftLeft x hr]

theorem sizeMessage_processHeaderBit (b : Bool) {c : ClientState} {bits : List Bool} (h : InHeader c bits) :
    (processHeaderBit b c).msg.sizeMessage.toNat = value (bits ++ [b]) * 2 ^ (31 - bits.length) := by
  have hpos : (headerBitPosition c).toNat = 31 - bits.length := by
    rw [headerBitPosition, h.count, HEADER_SIZE]
    omega
  have hsucc : 32 - bits.length = 31 - bits.length + 1 := by have := h.short; omega
  rw [← toNat_set_next b (r := 31 - bits.length) (by omega) (by rw [h.size, hsucc])]
  cases b <;> simp [processHeaderBit, hpos]

theorem processHeaderBit_inHeader (b : Bool) {c : ClientState} {bits : List Bool} (h : InHeader c bits)
    (hlen : bits.length + 1 < 32) : InHeader (processHeaderBit b c) (bits ++ [b]) where
  header := by cases b <;> simp [processHeaderBit, h.header]
  msg := by cases b <;> simp [processHeaderBit, h.msg]
  short := by simpa using hlen
  count := by cases b <;> simp [processHeaderBit, h.count]
  size := by
    rw [sizeMessage_processHeaderBit b h, List.length_append, List.length_singleton]
    congr 2
    omega
  pos := by cases b <;> simp [processHeaderBit, h.pos]
  message := by cases b <;> simp [processHeaderBit, h.message]

theorem sizeMessage_eq_zero {c : ClientState} {bits : List Bool} (h : InHeader c bits) (hc : c.sigCount = 0) :
    c.msg.sizeMessage = 0 := by
  have hnil : bits = [] := List.length_eq_zero_iff.mp (h.count.symm.trans hc)
  have hsize := h.size
  subst hnil
  exact BitVec.eq_of_toNat_eq (by simpa using hsize)

section Header
variable {env : Env} {s : State} {signum : Signum} {bits : List Bool}

theorem handleHeader_eq (env : Env) (signum : Signum) (h : InHeader s.client bits) :
    handleHeader env signum s =
      let c := processHeaderBit (getBitValue signum) s.client
      if bits.length + 1 = 32 then
        if wire.accepts (wire.announced (bits ++ [getBitValue signum])) then
          memoryReserveToStoreSignals env { s with client := c }
        else resetClientState { s with client := c }
      else { s with client := c } := by
  have hzero : (if s.client.sigCount = 0 then { s.client with msg.sizeMessage := 0 } else s.client) = s.client := by
    split
    · rw [← sizeMessage_eq_zero h ‹_›]
    · rfl
  have hshort : s.client.sigCount < 32 := h.count.trans_lt h.short
  have hcount : (processHeaderBit (getBitValue signum) s.client).sigCount = bits.length + 1 := by
    rw [← h.count]; rfl
  simp only [handleHeader, HEADER_SIZE, hzero, if_pos hshort, hcount, validateMessageSize_eq]
  split
  · have hlen : bits.length + 1 = 32 := ‹_›
    have hann : wire.announced (bits ++ [getBitValue signum]) = value (bits ++ [getBitValue signum]) := by
      rw [Format.announced, List.take_of_length_le (by simp [wire, hlen])]
    rw [sizeMessage_processHeaderBit _ h, hann, show 31 - bits.length = 0 by omega, Nat.pow_zero, Nat.mul_one]
  · rfl

theorem memoryReserve_inBody (b : Bool) (h : InHeader s.client bits) (hlen : bits.length + 1 = 32)
    (ho : s.heap.Owns s.client.msg.message) (hacc : wire.accepts (wire.announced (bits ++ [b])) = true)
    (hok : env.mallocOk s.heap.blocks.length = true) :
    let t := memoryReserveToStoreSignals env { s with client := processHeaderBit b s.client }
    t.heap.Owns t.client.msg.message ∧ InBody t.client t.heap (bits ++ [b]) ∧ t.exited = s.exited ∧
      t.client.actualPid = s.client.actualPid ∧ t.client.clientPid = s.client.clientPid := by
  have hann : wire.announced (bits ++ [b]) = value (bits ++ [b]) := by
    rw [Format.announced, List.take_of_length_le (by simp [wire, hlen])]
  have hbody : wire.body (bits ++ [b]) = [] := List.drop_of_length_le (by simp [wire, hlen])
  have hsize : (processHeaderBit b s.client).msg.sizeMessage.toNat = wire.announced (bits ++ [b]) := by
    rw [sizeMessage_processHeaderBit b h, hann, show 31 - bits.length = 0 by omega, Nat.pow_zero, Nat.mul_one]
  have hrange : 0 < wire.announced (bits ++ [b]) ∧ wire.announced (bits ++ [b]) ≤ 10000000 :=
    of_decide_eq_true hacc
  have hcells : ((processHeaderBit b s.client).msg.sizeMessage + 1).toNat = wire.announced (bits ++ [b]) + 1 := by
    rw [BitVec.toNat_add, hsize, show (1 : BitVec 32).toNat = 1 from rfl]
    omega
  have hpids : (processHeaderBit b s.client).actualPid = s.client.actualPid ∧
      (processHeaderBit b s.client).clientPid = s.client.clientPid := by
    cases b <;> exact ⟨rfl, rfl⟩
  rw [h.message] at ho
  simp only [memoryReserveToStoreSignals, hok, if_true]
  refine ⟨ho.malloc _, ⟨rfl, rfl, by simp [hlen], hacc, by rw [hbody]; simpa using hrange.1, hsize,
    by rw [hbody]; rfl, ?_, fun hr => absurd (by rw [hbody, rest_nil]) hr,
    ⟨_, Heap.live?_malloc _ _, ?_⟩⟩, trivial, hpids⟩
  · have hpos : (processHeaderBit b s.client).msgPos = s.client.msgPos := by cases b <;> rfl
    rw [hbody]
    exact hpos.trans h.pos
  · rw [hcells, hbody]
    rfl

end Header

/-! ### The message -/

theorem bufferCells_set {body : List Bool} {n : Nat} (b : Bool) (h : body.length % 8 + 1 = 8)
    (hlt : body.length / 8 < n + 1) :
    (bufferCells body n).set (body.length / 8) (some (UInt8.ofNat (value (rest 8 body ++ [b])))) =
      bufferCells (body ++ [b]) n := by
  have hdiv : (body ++ [b]).length / 8 = body.length / 8 + 1 := by
    rw [List.length_append, List.length_singleton]
    omega
  obtain ⟨k, hk⟩ : ∃ k, n + 1 - body.length / 8 = k + 1 := ⟨n - body.length / 8, by omega⟩
  have hk' : n + 1 - (body.length / 8 + 1) = k := by omega
  unfold bufferCells
  rw [(units_concat_of_eq b h).1, hdiv, hk, hk', List.replicate_succ, List.set_append_right _ _ (by simp)]
  simp

section Message
variable {s : State} {signum : Signum} {bits : List Bool}

theorem charValue_next (b : Bool) (h : InBody s.client s.heap bits) :
    let v := if s.client.sigCount % 8 = 0 then 0 else s.client.charValue
    (if b then v ||| 1#32 <<< (7 - s.client.sigCount % 8) else v).toNat =
      value (rest 8 (wire.body bits) ++ [b]) * 2 ^ (7 - (wire.body bits).length % 8) := by
  have hlen := length_rest 8 (wire.body bits)
  rw [h.count]
  refine toNat_set_next b (by omega) ?_
  by_cases h0 : (wire.body bits).length % 8 = 0
  · have hnil : rest 8 (wire.body bits) = [] := List.length_eq_zero_iff.mp (hlen.trans h0)
    simp [h0, hnil]
  · have hne : rest 8 (wire.body bits) ≠ [] := fun hnil => h0 (by rw [← hlen, hnil]; rfl)
    rw [if_neg h0, h.char hne]
    congr 2
    omega

theorem handleMsg_eq (signum : Signum) (s : State) :
    handleMsg signum s =
      let v := if s.client.sigCount % 8 = 0 then 0 else s.client.charValue
      let v := if getBitValue signum then v ||| 1#32 <<< (7 - s.client.sigCount % 8) else v
      let c := { s.client with charValue := v, sigCount := s.client.sigCount + 1 }
      if (s.client.sigCount + 1) % 8 = 0 then
        let t : State := { s with
          client := { c with msgPos := s.client.msgPos + 1 }
          heap := s.heap.store s.client.msg.message s.client.msgPos (charOf v) }
        if s.client.msg.sizeMessage.toInt ≤ (s.client.msgPos + 1 : Nat) then handleCompleteMessage t else (t, [])
      else ({ s with client := c }, []) := by
  by_cases h0 : s.client.sigCount % 8 = 0 <;> cases hb : getBitValue signum <;>
    simp only [handleMsg, h0, hb, if_true, if_false, Bool.false_eq_true]

/-- A full buffer is terminated, printed and freed, and its client told. -/
theorem handleCompleteMessage_eq {b : Block UInt8} {vs : List UInt8} (ho : s.heap.Owns s.client.msg.message)
    (hb : s.heap.live? s.client.msg.message = some b) (hcells : b.cells = vs.map some ++ [none])
    (hpos : s.client.msgPos = vs.length) (hsize : s.client.msg.sizeMessage.toNat = vs.length) :
    ∃ heap : Heap UInt8, heap.Owns none ∧ handleCompleteMessage s =
      ({ s with client := getClientInstance, heap }, .print vs :: sendCompletionSignal s.client.clientPid) := by
  obtain ⟨i, hi, -, -⟩ := Heap.live?_eq_some.mp hb
  rw [hi] at ho hb
  have hlt : vs.length < b.cells.length := by simp [hcells]
  obtain ⟨hown, hlive⟩ := ho.store (v := 0) hb hlt
  have hread := Heap.read_of_live vs hlive (by simp [hcells])
  refine ⟨_, hown.free hlive, ?_⟩
  simp only [handleCompleteMessage, printMessage, hi, hpos, hsize, hread, Option.isSome_some, if_true,
    resetClientState, Option.isSome_none, Bool.false_eq_true, if_false]
  rfl

theorem store_byte {v : BitVec 32} (b : Bool) (h : InBody s.client s.heap bits)
    (ho : s.heap.Owns s.client.msg.message) (hfull : (wire.body bits).length % 8 + 1 = 8)
    (hv : v.toNat = value (rest 8 (wire.body bits) ++ [b]) * 2 ^ (7 - (wire.body bits).length % 8)) :
    let heap := s.heap.store s.client.msg.message s.client.msgPos (charOf v)
    heap.Owns s.client.msg.message ∧ ∃ blk, heap.live? s.client.msg.message = some blk ∧
      blk.cells = bufferCells (wire.body bits ++ [b]) (wire.announced bits) := by
  have hshort := h.short
  obtain ⟨blk, hlive, hcells⟩ := h.buffer
  obtain ⟨i, hi, -, -⟩ := Heap.live?_eq_some.mp hlive
  have hbyte : charOf v = UInt8.ofNat (value (rest 8 (wire.body bits) ++ [b])) := by
    rw [charOf, hv, show 7 - (wire.body bits).length % 8 = 0 by omega, Nat.pow_zero, Nat.mul_one]
  have hidx : (wire.body bits).length / 8 < blk.cells.length := by
    rw [hcells, bufferCells, List.length_append, List.length_map, length_units, List.length_replicate]
    omega
  rw [hi] at ho hlive
  obtain ⟨hown, hlive'⟩ := ho.store (v := charOf v) hlive hidx
  rw [hcells, hbyte, bufferCells_set b hfull (by omega)] at hlive'
  simp only [hi, h.pos, hbyte] at hown ⊢
  exact ⟨hown, _, hlive', rfl⟩

/-- The step, with the value of the character as the bits that were read of it. -/
theorem handleMsg_value (signum : Signum) (h : InBody s.client s.heap bits) :
    ∃ v : BitVec 32,
      v.toNat = value (rest 8 (wire.body bits) ++ [getBitValue signum]) * 2 ^ (7 - (wire.body bits).length % 8) ∧
      handleMsg signum s =
        let c := { s.client with charValue := v, sigCount := s.client.sigCount + 1 }
        if (s.client.sigCount + 1) % 8 = 0 then
          let t : State := { s with
            client := { c with msgPos := s.client.msgPos + 1 }
            heap := s.heap.store s.client.msg.message s.client.msgPos (charOf v) }
          if s.client.msg.sizeMessage.toInt ≤ (s.client.msgPos + 1 : Nat) then handleCompleteMessage t else (t, [])
        else ({ s with client := c }, []) :=
  ⟨_, charValue_next (getBitValue signum) h, handleMsg_eq signum s⟩

theorem handleMsg_next (signum : Signum) (h : InBody s.client s.heap bits) (ho : s.heap.Owns s.client.msg.message)
    (hmore : (wire.body bits).length + 1 < 8 * wire.announced bits) :
    ∃ t, handleMsg signum s = (t, []) ∧ t.exited = s.exited ∧ t.heap.Owns t.client.msg.message ∧
      InBody t.client t.heap (bits ++ [getBitValue signum]) ∧ t.client.actualPid = s.client.actualPid ∧
      t.client.clientPid = s.client.clientPid := by
  have hbody := Format.body_append (f := wire) h.long [getBitValue signum]
  have hann := Format.announced_append (f := wire) h.long [getBitValue signum]
  have hlen : (wire.body bits ++ [getBitValue signum]).length = (wire.body bits).length + 1 := by simp
  have hlong : 32 ≤ (bits ++ [getBitValue signum]).length := by have := h.long; simp; omega
  have hrange : 0 < wire.announced bits ∧ wire.announced bits ≤ 10000000 := of_decide_eq_true h.accepted
  obtain ⟨v, hchar, hstep⟩ := handleMsg_value signum h
  by_cases hfull : (wire.body bits).length % 8 + 1 = 8
  · -- The bit completes a byte, which is stored.
    obtain ⟨hown, hbuf⟩ := store_byte (getBitValue signum) h ho hfull hchar
    have hrest := (units_concat_of_eq (getBitValue signum) hfull).2
    have hnot : ¬s.client.msg.sizeMessage.toInt ≤ (s.client.msgPos + 1 : Nat) := by
      rw [BitVec.toInt_eq_toNat_cond, h.size, h.pos, if_pos (by omega)]
      omega
    rw [if_pos (by rw [h.count]; omega), if_neg hnot] at hstep
    refine ⟨_, hstep, rfl, hown, ⟨h.header, h.msg, hlong, by rw [hann]; exact h.accepted,
      by rw [hbody, hann, hlen]; exact hmore, by rw [hann]; exact h.size, ?_, ?_, ?_, ?_⟩, rfl, rfl⟩
    · rw [hbody, hlen, ← h.count]
    · rw [hbody, hlen]
      exact (congrArg (· + 1) h.pos).trans (by omega)
    · exact fun hr => absurd (by rw [hbody, hrest]) hr
    · rw [hbody, hann]
      exact hbuf
  · -- The bit joins the byte that is being assembled.
    obtain ⟨hunits, hrest⟩ := units_concat_of_lt (w := 8) (wire.body bits) (getBitValue signum) (by omega)
    obtain ⟨blk, hlive, hcells⟩ := h.buffer
    rw [if_neg (by rw [h.count]; omega)] at hstep
    refine ⟨_, hstep, rfl, ho, ⟨h.header, h.msg, hlong, by rw [hann]; exact h.accepted,
      by rw [hbody, hann, hlen]; exact hmore, by rw [hann]; exact h.size, ?_, ?_, fun _ => ?_, blk, hlive, ?_⟩,
      rfl, rfl⟩
    · rw [hbody, hlen, ← h.count]
    · rw [hbody, hlen]
      exact h.pos.trans (by omega)
    · rw [hbody, hrest, hlen]
      exact hchar.trans (by congr 2; omega)
    · rw [hcells, hbody, hann, bufferCells, bufferCells, hunits, hlen]
      congr 2
      omega

theorem handleMsg_last (signum : Signum) (h : InBody s.client s.heap bits) (ho : s.heap.Owns s.client.msg.message)
    (hlast : (wire.body bits).length + 1 = 8 * wire.announced bits) :
    ∃ heap : Heap UInt8, heap.Owns none ∧ handleMsg signum s =
      ({ s with client := getClientInstance, heap },
        .print ((units 8 (wire.body bits ++ [getBitValue signum])).map UInt8.ofNat) ::
          sendCompletionSignal s.client.clientPid) := by
  have hrange : 0 < wire.announced bits ∧ wire.announced bits ≤ 10000000 := of_decide_eq_true h.accepted
  obtain ⟨v, hchar, hstep⟩ := handleMsg_value signum h
  obtain ⟨hown, blk, hlive, hcells⟩ := store_byte (getBitValue signum) h ho (by omega) hchar
  have hdone : s.client.msg.sizeMessage.toInt ≤ (s.client.msgPos + 1 : Nat) := by
    rw [BitVec.toInt_eq_toNat_cond, h.size, h.pos, if_pos (by omega)]
    omega
  have hvs : ((units 8 (wire.body bits ++ [getBitValue signum])).map UInt8.ofNat).length =
      wire.announced bits := by
    rw [List.length_map, length_units, List.length_append, List.length_singleton]
    omega
  have hfilled : blk.cells =
      ((units 8 (wire.body bits ++ [getBitValue signum])).map UInt8.ofNat).map some ++ [none] := by
    rw [hcells, bufferCells, List.map_map, List.length_append, List.length_singleton,
      show wire.announced bits + 1 - ((wire.body bits).length + 1) / 8 = 1 by omega]
    rfl
  rw [if_pos (by rw [h.count]; omega), if_pos hdone] at hstep
  rw [hstep]
  refine handleCompleteMessage_eq hown hlive hfilled ?_ (by rw [hvs]; exact h.size)
  rw [hvs]
  exact (congrArg (· + 1) h.pos).trans (by omega)

end Message

/-! ### One data bit -/

section Receive
variable {env : Env} {s : State} {signum : Signum} {pid : Pid} {bits : List Bool}

theorem processHeaderBit_pids (b : Bool) (c : ClientState) :
    (processHeaderBit b c).actualPid = c.actualPid ∧ (processHeaderBit b c).clientPid = c.clientPid := by
  cases b <;> exact ⟨rfl, rfl⟩

theorem resetClientState_of_none (h : s.client.msg.message = none) :
    resetClientState s = { s with client := getClientInstance } := by
  simp [resetClientState, h, getClientInstance]

theorem processDataSignal_of_header (hm : s.client.gettingMsg = false) (hh : s.client.gettingHeader = true)
    {t : State} (ht : handleHeader env signum s = t) :
    processDataSignal env signum s =
      if t.exited then (t, []) else (t, [.kill t.client.clientPid .SIGUSR2]) := by
  simp only [processDataSignal, hm, hh, ht, if_true, Bool.false_eq_true, if_false]
  rfl

theorem processDataSignal_of_msg (hm : s.client.gettingMsg = true) {t : State} {out : List Effect}
    (ht : handleMsg signum s = (t, out)) (hex : t.exited = false) :
    processDataSignal env signum s = (t, out ++ [.kill t.client.clientPid .SIGUSR2]) := by
  simp only [processDataSignal, hm, ht, if_true, hex, Bool.false_eq_true, if_false]
  rfl

/-- A step of the code ends in a state that stands for the phase that the session model reaches, with the same
    effects. -/
def Matches (env : Env) (r : State × List Effect) (a : Phase × List Effect) : Prop :=
  Represents env r.1 a.1 ∧ r.2 = a.2

theorem header_matches (hex : s.exited = false) (ho : s.heap.Owns s.client.msg.message) (hpid : 0 < pid)
    (hself : pid ≠ env.serverPid) (ha : s.client.actualPid = pid) (hc : s.client.clientPid = pid)
    (h : InHeader s.client bits) :
    Matches env (processDataSignal env signum s)
      (Phase.receive (env.mallocOk s.heap.blocks.length) pid bits (getBitValue signum)) := by
  obtain ⟨hact, hcli⟩ := processHeaderBit_pids (getBitValue signum) s.client
  have hstep := handleHeader_eq env signum h
  by_cases hlen : bits.length + 1 = 32
  · have hlong : wire.headerWidth ≤ (bits ++ [getBitValue signum]).length := by simp [wire, hlen]
    simp only [hlen, if_true] at hstep
    cases hacc : wire.accepts (wire.announced (bits ++ [getBitValue signum])) with
    | false =>
      have hmsg : (processHeaderBit (getBitValue signum) s.client).msg.message = none := by
        cases getBitValue signum <;> simp [processHeaderBit, h.message]
      rw [h.message] at ho
      simp only [hacc, Bool.false_eq_true, if_false] at hstep
      rw [resetClientState_of_none (s := { s with client := processHeaderBit (getBitValue signum) s.client }) hmsg]
        at hstep
      rw [processDataSignal_of_header h.msg h.header hstep, Phase.receive, Format.status_of_rejected hlong hacc,
        if_neg (by simp [hex])]
      exact ⟨⟨hex, ho, rfl⟩, rfl⟩
    | true =>
      have hrange : 0 < wire.announced (bits ++ [getBitValue signum]) ∧ _ := of_decide_eq_true hacc
      have hbody : wire.body (bits ++ [getBitValue signum]) = [] := List.drop_of_length_le (by simp [wire, hlen])
      simp only [hacc, if_true] at hstep
      rw [processDataSignal_of_header h.msg h.header hstep, Phase.receive,
        Format.status_of_short hlong hacc (by rw [hbody]; exact Nat.mul_pos wire.unit_pos hrange.1)]
      cases hok : env.mallocOk s.heap.blocks.length with
      | false =>
        have hexit : (memoryReserveToStoreSignals env
            { s with client := processHeaderBit (getBitValue signum) s.client }).exited = true := by
          simp [memoryReserveToStoreSignals, hok]
        rw [if_pos hexit]
        simp only [hlen, and_self, if_true]
        exact ⟨hexit, rfl⟩
      | true =>
        obtain ⟨hown, hin, hexit, hact', hcli'⟩ := memoryReserve_inBody (getBitValue signum) h hlen ho hacc hok
        have hexit := hexit.trans hex
        rw [if_neg (by simp [hexit]), hcli', hc]
        simp only [Bool.true_eq_false, and_false, if_false]
        exact ⟨⟨hexit, hown, hpid, hself, hact'.trans ha, Or.inr hin⟩, rfl⟩
  · have hlt : bits.length + 1 < 32 := by have := h.short; omega
    have hin := processHeaderBit_inHeader (getBitValue signum) h hlt
    simp only [hlen, if_false] at hstep
    rw [processDataSignal_of_header h.msg h.header hstep, Phase.receive,
      Format.status_of_lt (by simpa [wire] using hlt), if_neg (by simp [hex])]
    simp only [hlen, if_false, false_and, hcli, hc]
    rw [h.message] at ho
    exact ⟨⟨hex, by rw [hin.message]; exact ho, hpid, hself, hact.trans ha, Or.inl hin⟩, rfl⟩

theorem body_matches {mallocOk : Bool} (hex : s.exited = false) (ho : s.heap.Owns s.client.msg.message)
    (hpid : 0 < pid) (hself : pid ≠ env.serverPid) (ha : s.client.actualPid = pid) (hc : s.client.clientPid = pid)
    (h : InBody s.client s.heap bits) :
    Matches env (processDataSignal env signum s) (Phase.receive mallocOk pid bits (getBitValue signum)) := by
  have hbody := Format.body_append (f := wire) h.long [getBitValue signum]
  have hann := Format.announced_append (f := wire) h.long [getBitValue signum]
  have hlen : (wire.body bits ++ [getBitValue signum]).length = (wire.body bits).length + 1 := by simp
  have hshort := h.short
  have hlong : wire.headerWidth ≤ (bits ++ [getBitValue signum]).length :=
    h.long.trans (by simp)
  have hacc : wire.accepts (wire.announced (bits ++ [getBitValue signum])) = true := by rw [hann]; exact h.accepted
  by_cases hlast : (wire.body bits).length + 1 = 8 * wire.announced bits
  · obtain ⟨heap, hown, hstep⟩ := handleMsg_last signum h ho hlast
    rw [processDataSignal_of_msg h.msg hstep hex, Phase.receive, Format.status_of_full hlong hacc
      (by rw [hann, hbody, hlen]; exact hlast.ge), hbody]
    exact ⟨⟨hex, hown, rfl⟩, by simp [sendCompletionSignal, hc, hpid, getClientInstance, wire]⟩
  · have hmore : (wire.body bits).length + 1 < 8 * wire.announced bits := by omega
    obtain ⟨t, hstep, hexit, hown, hin, hact, hcli⟩ := handleMsg_next signum h ho hmore
    have hne : ¬(bits.length + 1 = 32 ∧ mallocOk = false) := fun hh => by have := h.long; omega
    rw [processDataSignal_of_msg h.msg hstep (hexit.trans hex), Phase.receive, Format.status_of_short hlong hacc
      (by rw [hann, hbody, hlen]; exact hmore)]
    simp only [hne, if_false, hcli, hc]
    exact ⟨⟨hexit.trans hex, hown, hpid, hself, hact.trans ha, Or.inr hin⟩, rfl⟩

end Receive

/-! ### Every step -/

section Step
variable {env : Env} {s : State}

theorem inHeader_connected (pid : Pid) : InHeader (connected pid) [] := ⟨rfl, rfl, by decide, rfl, rfl, rfl, rfl⟩

theorem inHeader_idleRecord (phantom : Bool) : InHeader (idleRecord phantom) [] := by
  cases phantom with
  | false => exact ⟨rfl, rfl, by decide, rfl, rfl, rfl, rfl⟩
  | true => exact inHeader_connected 0

/-- A free server, too, waits for a header. -/
theorem Represents.fields {φ : Phase} (h : Represents env s φ) (hex : s.exited = false) :
    s.heap.Owns s.client.msg.message ∧ ∃ bits, InHeader s.client bits ∨ InBody s.client s.heap bits := by
  match φ, h with
  | .idle phantom, ⟨_, ho, hidle⟩ => exact ⟨ho, [], Or.inl (hidle ▸ inHeader_idleRecord phantom)⟩
  | .serving _ bits, ⟨_, ho, _, _, _, hphase⟩ => exact ⟨ho, bits, hphase⟩
  | .exited, (h : s.exited = true) => rw [hex] at h; cases h

/-- Cleaning up frees the buffer, if there is one, and leaves the initial record. -/
theorem Represents.cleanGlobal_eq {φ : Phase} (h : Represents env s φ) (hex : s.exited = false) :
    ∃ heap : Heap UInt8, heap.Owns none ∧ cleanGlobal s = { s with client := getClientInstance, heap } := by
  obtain ⟨ho, bits, hh | hb⟩ := h.fields hex
  · have hm := hh.message
    rw [hm] at ho
    exact ⟨s.heap, ho, by simp [cleanGlobal, hm, resetClientState, getClientInstance]⟩
  · obtain ⟨b, hlive, -⟩ := hb.buffer
    obtain ⟨i, hm, -, -⟩ := Heap.live?_eq_some.mp hlive
    rw [hm] at ho hlive
    exact ⟨_, ho.free hlive, by simp [cleanGlobal, hm, resetClientState, getClientInstance]⟩

theorem handleNewClient_of_idle (hact : s.client.actualPid = 0) (pid : Pid) :
    handleNewClient pid s = some ({ s with client := connected pid }, [.kill pid SERVER_READY]) := by
  simp [handleNewClient, pong, isServerBusy, hact, setServerBusy, connected]

theorem lostSignal_of_idle {c : ClientState} (hact : c.actualPid = 0) (siPid : Pid) (signum : Signum) :
    lostSignal c siPid signum = siPid := by
  unfold lostSignal
  split
  · rename_i h0
    rw [hact, h0.1]
  · rfl

theorem idle_signal_matches {phantom : Bool} (hex : s.exited = false) (ho : s.heap.Owns s.client.msg.message)
    (h : s.client = idleRecord phantom) (signum : Signum) (siPid : Pid) :
    Matches env (signalHandler env signum siPid s)
      ((Phase.idle phantom).step env.serverPid (env.mallocOk s.heap.blocks.length) (.signal signum siPid)) := by
  have hact : s.client.actualPid = 0 := by rw [h, actualPid_idleRecord]
  simp only [signalHandler, lostSignal_of_idle hact, Phase.step]
  by_cases hself : siPid = env.serverPid
  · simp only [hself, if_true]
    exact ⟨⟨hex, ho, h⟩, rfl⟩
  · rw [h, message_idleRecord] at ho
    simp only [hself, if_false, handleNewClient_of_idle hact]
    by_cases h0 : siPid = 0
    · subst h0
      exact ⟨⟨hex, ho, rfl⟩, rfl⟩
    · simp only [h0, if_false]
      exact ⟨⟨hex, ho, Nat.pos_of_ne_zero h0, hself, rfl, Or.inl (inHeader_connected _)⟩, rfl⟩

theorem InHeader.congr {c d : ClientState} {bits : List Bool} (h : InHeader c bits)
    (hd : d = { c with clientPid := d.clientPid, clientActivity := d.clientActivity }) : InHeader d bits := by
  rw [hd]
  exact ⟨h.header, h.msg, h.short, h.count, h.size, h.pos, h.message⟩

theorem InBody.congr {c d : ClientState} {heap : Heap UInt8} {bits : List Bool} (h : InBody c heap bits)
    (hd : d = { c with clientPid := d.clientPid, clientActivity := d.clientActivity }) : InBody d heap bits := by
  rw [hd]
  exact ⟨h.header, h.msg, h.long, h.accepted, h.short, h.size, h.count, h.pos, h.char, h.buffer⟩

theorem signalHandler_of_foreign (env : Env) {signum : Signum} {siPid : Pid} (hact : s.client.actualPid ≠ 0)
    (hne : lostSignal s.client siPid signum ≠ s.client.actualPid) :
    signalHandler env signum siPid s =
      (s, if lostSignal s.client siPid signum = env.serverPid then []
        else [.kill (lostSignal s.client siPid signum) SERVER_BUSY]) := by
  simp only [signalHandler, handleNewClient, hact, if_false, handleBusyServer, ne_eq, Ne.symm hne,
    not_false_eq_true, if_true]
  split <;> rfl

theorem signalHandler_of_own {signum : Signum} {siPid : Pid} (hact : s.client.actualPid ≠ 0)
    (hself : s.client.actualPid ≠ env.serverPid) (heq : lostSignal s.client siPid signum = s.client.actualPid) :
    signalHandler env signum siPid s = processDataSignal env signum
      { s with client := { s.client with clientPid := s.client.actualPid, clientActivity := true } } := by
  simp only [signalHandler, heq, hself, if_false, handleNewClient, hact, handleBusyServer, ne_eq,
    not_true_eq_false]

theorem lostSignal_eq {pid : Pid} (bits : List Bool) (hact : s.client.actualPid = pid) (siPid : Pid)
    (signum : Signum) : lostSignal s.client siPid signum = Phase.sender siPid (.serving pid bits) := by
  have : signum = .SIGUSR1 ∨ signum = .SIGUSR2 := by cases signum <;> simp
  simp [lostSignal, Phase.sender, hact, this]

/-- Every step of the code is a step of the session model, with the same effects. -/
theorem step_matches {φ : Phase} (h : Represents env s φ) (e : Event) :
    Matches env ((machine env).step s e) (φ.step env.serverPid (env.mallocOk s.heap.blocks.length) e) := by
  have hclean : s.exited = false → Matches env (cleanGlobal s, []) (.idle false, []) := fun hex => by
    obtain ⟨heap, hown, hclean⟩ := h.cleanGlobal_eq hex
    rw [hclean]
    exact ⟨⟨hex, hown, rfl⟩, rfl⟩
  cases φ with
  | exited =>
    have hex : s.exited = true := h
    cases e <;> simp only [machine, hex, if_true, Phase.step] <;> exact ⟨hex, rfl⟩
  | idle phantom =>
    obtain ⟨hex, ho, hidle⟩ := h
    cases e with
    | signal signum siPid =>
      simp only [machine, hex, Bool.false_eq_true, if_false]
      exact idle_signal_matches hex ho hidle signum siPid
    | cleanGlobal =>
      simp only [machine, hex, Bool.false_eq_true, if_false]
      exact hclean hex
  | serving pid bits =>
    obtain ⟨hex, ho, hpid, hself, hact, hphase⟩ := h
    cases e with
    | signal signum siPid =>
      have hne0 : s.client.actualPid ≠ 0 := fun h0 => hpid.ne (h0.symm.trans hact)
      simp only [machine, hex, Bool.false_eq_true, if_false, Phase.step]
      rw [← lostSignal_eq bits hact siPid signum]
      by_cases hown : lostSignal s.client siPid signum = pid
      · rw [signalHandler_of_own hne0 (hact ▸ hself) (hown.trans hact.symm), hact]
        simp only [hown, hself, if_false, ne_eq, not_true_eq_false]
        rcases hphase with hh | hb
        · exact header_matches (s := { s with client :=
            { s.client with clientPid := pid, clientActivity := true } }) hex ho hpid hself hact rfl (hh.congr rfl)
        · exact body_matches (s := { s with client :=
            { s.client with clientPid := pid, clientActivity := true } }) hex ho hpid hself hact rfl (hb.congr rfl)
      · rw [signalHandler_of_foreign env hne0 (hact ▸ hown)]
        by_cases hsrv : lostSignal s.client siPid signum = env.serverPid
        · simp only [hsrv, if_true]
          exact ⟨⟨hex, ho, hpid, hself, hact, hphase⟩, rfl⟩
        · simp only [hsrv, hown, if_false, ne_eq, not_false_eq_true, if_true]
          exact ⟨⟨hex, ho, hpid, hself, hact, hphase⟩, rfl⟩
    | cleanGlobal =>
      simp only [machine, hex, Bool.false_eq_true, if_false]
      exact hclean hex

theorem represents_initial : Represents env initial (.idle false) := ⟨rfl, Heap.owns_empty, rfl⟩

theorem represents_run (env : Env) (events : List Event) :
    ∃ φ, Represents env ((machine env).run initial events) φ :=
  Machine.run_invariant (P := fun s => ∃ φ, Represents env s φ)
    (fun _ e ⟨_, h⟩ => ⟨_, (step_matches h e).1⟩) ⟨.idle false, represents_initial⟩ events

/-- While allocations succeed, the code simulates the session model over whole runs. -/
theorem simulates (hok : ∀ n, env.mallocOk n = true) {φ : Phase} (h : Represents env s φ) (events : List Event) :
    Represents env ((machine env).run s events) ((Phase.machine env.serverPid).run φ events) ∧
      (machine env).outputs s events = (Phase.machine env.serverPid).outputs φ events :=
  Machine.run_simulates (R := Represents env) (fun _ _ e h => by
    have := step_matches h e
    rwa [hok] at this) h events

end Step

end Minitalk.Server
