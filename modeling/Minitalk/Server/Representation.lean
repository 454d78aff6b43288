import Minitalk.Server.Session

/-! # The representation invariant of `t_client_state`

What couples the fields of the record, its buffer and the heap in every reachable state, read off the phase that
the state stands for. -/

namespace Minitalk.Server
open Bits Frame

/-- While a message is received, its buffer is live, has a cell for every announced byte and one for the final
    NUL, and holds the bytes before `msg_pos`. -/
structure Receiving (c : ClientState) (heap : Heap UInt8) : Prop where
  size : 1 ≤ c.msg.sizeMessage.toInt ∧ c.msg.sizeMessage.toInt ≤ 10000000
  pos : c.msgPos = c.sigCount / 8
  pos_lt : (c.msgPos : Int) < c.msg.sizeMessage.toInt
  buffer : ∃ b, heap.live? c.msg.message = some b ∧ (b.cells.length : Int) = c.msg.sizeMessage.toInt + 1 ∧
    ∀ i, i < c.msgPos → ∃ v, b.cells[i]? = some (some v)

/-- While a header is received, there is no buffer and the shift amount of the next bit is within the word. -/
structure AwaitingHeader (c : ClientState) : Prop where
  message : c.msg.message = none
  count : c.sigCount < 32
  shift : 0 ≤ headerBitPosition c ∧ headerBitPosition c ≤ 31

structure Representation (s : State) : Prop where
  flags : s.client.gettingHeader = !s.client.gettingMsg
  receiving : s.client.gettingMsg = true → Receiving s.client s.heap
  header : s.client.gettingHeader = true → AwaitingHeader s.client
  /-- Every access so far was to a cell of a live block, every read cell had been written. -/
  sound : s.heap.fault = false
  frees : ∀ i b, s.heap.blocks[i]? = some b → b.frees = if s.client.msg.message = some i then 0 else 1

theorem InHeader.awaiting {c : ClientState} {bits : List Bool} (h : InHeader c bits) : AwaitingHeader c where
  message := h.message
  count := h.count ▸ h.short
  shift := by
    have := h.count ▸ h.short
    rw [headerBitPosition, HEADER_SIZE]
    omega

theorem length_bufferCells {body : List Bool} {n : Nat} (h : body.length / 8 ≤ n + 1) :
    (bufferCells body n).length = n + 1 := by
  rw [bufferCells, List.length_append, List.length_map, length_units, List.length_replicate]
  omega

theorem getElem?_bufferCells {body : List Bool} {n i : Nat} (h : i < body.length / 8) :
    ∃ v, (bufferCells body n)[i]? = some (some v) := by
  have hlt : i < (units 8 body).length := by rwa [length_units]
  refine ⟨UInt8.ofNat (units 8 body)[i], ?_⟩
  rw [bufferCells, List.getElem?_append_left (by rwa [List.length_map]), List.getElem?_map,
    List.getElem?_eq_getElem hlt]
  rfl

theorem InBody.receiving {c : ClientState} {heap : Heap UInt8} {bits : List Bool} (h : InBody c heap bits) :
    Receiving c heap := by
  have hrange : 0 < wire.announced bits ∧ wire.announced bits ≤ 10000000 := of_decide_eq_true h.accepted
  have hshort := h.short
  have hsize : c.msg.sizeMessage.toInt = wire.announced bits := by
    rw [BitVec.toInt_eq_toNat_cond, h.size, if_pos (by omega)]
  obtain ⟨b, hlive, hcells⟩ := h.buffer
  refine ⟨by omega, by rw [h.pos, h.count], by rw [hsize, h.pos]; omega, b, hlive, ?_, fun i hi => ?_⟩
  · rw [hcells, length_bufferCells (by omega), hsize]
    rfl
  · rw [hcells]
    exact getElem?_bufferCells (h.pos ▸ hi)

section Reachable
variable {env : Env} {s : State}

theorem Represents.representation {φ : Phase} (h : Represents env s φ) (hex : s.exited = false) :
    Representation s := by
  obtain ⟨ho, bits, hh | hb⟩ := h.fields hex
  · exact ⟨by rw [hh.header, hh.msg]; rfl, fun hm => absurd (hh.msg.symm.trans hm) (by decide),
      fun _ => hh.awaiting, ho.sound, ho.frees⟩
  · exact ⟨by rw [hb.header, hb.msg]; rfl, fun _ => hb.receiving,
      fun hm => absurd (hb.header.symm.trans hm) (by decide), ho.sound, ho.frees⟩

theorem Phase.step_ne_exited {serverPid : Pid} {φ : Phase} (h : φ ≠ .exited) (e : Event) :
    ((Phase.machine serverPid).step φ e).1 ≠ .exited := by
  cases φ with
  | exited => exact absurd rfl h
  | idle phantom =>
    cases e with
    | cleanGlobal => exact Phase.noConfusion
    | signal signum siPid =>
      simp only [Phase.machine, Phase.step]
      split
      · exact Phase.noConfusion
      · split <;> exact Phase.noConfusion
  | serving pid bits =>
    cases e with
    | cleanGlobal => exact Phase.noConfusion
    | signal signum siPid =>
      simp only [Phase.machine, Phase.step]
      split
      · exact Phase.noConfusion
      · split
        · exact Phase.noConfusion
        · unfold Phase.receive
          split <;> simp

theorem exited_eq_false (hok : ∀ n, env.mallocOk n = true) (h : Reachable env s) : s.exited = false := by
  obtain ⟨events, rfl⟩ := h
  have hrep := (simulates hok represents_initial events).1
  have hne := Machine.run_invariant (m := Phase.machine env.serverPid) (P := (· ≠ .exited))
    (fun _ e h => Phase.step_ne_exited h e) (s := .idle false) Phase.noConfusion events
  match (Phase.machine env.serverPid).run (.idle false) events, hrep, hne with
  | .idle _, hrep, _ => exact hrep.1
  | .serving _ _, hrep, _ => exact hrep.1
  | .exited, _, hne => exact absurd rfl hne

/-- Whatever signals and timeouts reach the server, its record, its buffer and its heap fit together. -/
theorem representation_of_reachable (hok : ∀ n, env.mallocOk n = true) (h : Reachable env s) :
    Representation s := by
  have hex := exited_eq_false hok h
  obtain ⟨events, rfl⟩ := h
  obtain ⟨φ, hrep⟩ := represents_run env events
  exact hrep.representation hex

end Reachable

/-- After a ping and the header of a message of one byte. -/
theorem representation_of_header :
    let env : Env := { serverPid := 1, serverPid_pos := by decide, mallocOk := fun _ => true }
    let header := List.replicate 31 Signum.SIGUSR1 ++ [.SIGUSR2]
    let s := (machine env).run initial ((.SIGUSR1 :: header).map (.signal · 2))
    s.client.gettingMsg = true ∧ Representation s := by
  intro env header s
  have hreach : Reachable env s := ⟨_, rfl⟩
  exact ⟨by decide +kernel, representation_of_reachable (fun _ => rfl) hreach⟩

end Minitalk.Server
