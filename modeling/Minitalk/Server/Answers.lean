import Minitalk.Server.Representation

/-! # Whom the server answers

A handler that ends its session acknowledges the last bit after `reset_client_state` has cleared `client_pid`: the
acknowledgment goes to pid 0, the whole process group. `handle_complete_message` saves the pid before the reset,
the acknowledgment of `process_data_signal` and the rejection of a header do not. A signal without a sender is
answered at pid 0, too, while nobody is served. -/

namespace Minitalk.Server
open Bits Frame

/-- The signal is the last bit of the open session: of its message, or of a header that is refused. -/
def endsSession (c : ClientState) (signum : Signum) : Prop :=
  (c.gettingMsg = true ∧ c.sigCount + 1 = 8 * c.msg.sizeMessage.toNat) ∨
    (c.gettingHeader = true ∧ c.sigCount = 31 ∧
      validateMessageSize (if getBitValue signum then c.msg.sizeMessage ||| 1 else c.msg.sizeMessage) = false)

instance (c : ClientState) (signum : Signum) : Decidable (endsSession c signum) := by
  unfold endsSession
  infer_instance

/-- Every `kill` of the handler goes to the sender of the signal, a process. -/
def AnswersSender (env : Env) (s : State) (signum : Signum) (siPid : Pid) : Prop :=
  ∀ pid sig, .kill pid sig ∈ ((machine env).step s (.signal signum siPid)).2 →
    0 < pid ∧ pid = lostSignal s.client siPid signum

/-- A sender is known, and the signal is not the last one of its session. -/
structure Answerable (s : State) (signum : Signum) (siPid : Pid) : Prop where
  sender : siPid = 0 → s.client.actualPid ≠ 0
  stays : siPid = 0 ∨ siPid = s.client.actualPid → ¬endsSession s.client signum

section Fields
variable {c : ClientState} {heap : Heap UInt8} {bits : List Bool} {signum : Signum}

theorem InHeader.last_size (h : InHeader c bits) (b : Bool) (hlen : bits.length = 31) :
    (if b then c.msg.sizeMessage ||| 1 else c.msg.sizeMessage).toNat = value (bits ++ [b]) := by
  have hpos : headerBitPosition c = 0 := by rw [headerBitPosition, h.count, hlen]; rfl
  have hsize := sizeMessage_processHeaderBit b h
  rw [hlen, Nat.sub_self, Nat.pow_zero, Nat.mul_one] at hsize
  rw [← hsize]
  cases b <;> simp [processHeaderBit, hpos]

theorem InHeader.status_eq_more_iff (h : InHeader c bits) :
    wire.status (bits ++ [getBitValue signum]) = .more ↔ ¬endsSession c signum := by
  have hends : endsSession c signum ↔ bits.length = 31 ∧ validateMessageSize
      (if getBitValue signum then c.msg.sizeMessage ||| 1 else c.msg.sizeMessage) = false := by
    simp [endsSession, h.msg, h.header, h.count]
  by_cases hlen : bits.length = 31
  · have hlong : (bits ++ [getBitValue signum]).length = wire.headerWidth := by simp [wire, hlen]
    rw [hends, validateMessageSize_eq, h.last_size _ hlen, wire.status_header hlong]
    cases wire.accepts (value (bits ++ [getBitValue signum])) <;> simp [hlen]
  · have hlt : (bits ++ [getBitValue signum]).length < wire.headerWidth := by
      have := h.short
      simp [wire]
      omega
    simp [hends, Format.status_of_lt hlt, hlen]

theorem InBody.status_eq_more_iff (h : InBody c heap bits) :
    wire.status (bits ++ [getBitValue signum]) = .more ↔ ¬endsSession c signum := by
  have hends : endsSession c signum ↔ (wire.body bits).length + 1 = 8 * wire.announced bits := by
    simp [endsSession, h.msg, h.header, h.count, h.size]
  have hshort := h.short
  have hbody := Format.body_append (f := wire) h.long [getBitValue signum]
  have hann := Format.announced_append (f := wire) h.long [getBitValue signum]
  have hlen : (wire.body bits ++ [getBitValue signum]).length = (wire.body bits).length + 1 := by simp
  have hlong : wire.headerWidth ≤ (bits ++ [getBitValue signum]).length := h.long.trans (by simp)
  have hacc : wire.accepts (wire.announced (bits ++ [getBitValue signum])) = true := by rw [hann]; exact h.accepted
  rw [hends]
  by_cases hlast : (wire.body bits).length + 1 = 8 * wire.announced bits
  · simp [hlast, Format.status_of_full hlong hacc (by rw [hann, hbody, hlen]; exact hlast.ge)]
  · have hmore : (wire.body bits).length + 1 < wire.unitWidth * wire.announced bits := by
      rw [show wire.unitWidth = 8 from rfl]
      omega
    simp [hlast, Format.status_of_short hlong hacc (by rw [hann, hbody, hlen]; exact hmore)]

end Fields

theorem receive_answers_iff {mallocOk : Bool} {pid : Pid} (hpid : 0 < pid) (bits : List Bool) (b : Bool) :
    (∀ q sig, .kill q sig ∈ (Phase.receive mallocOk pid bits b).2 → 0 < q ∧ q = pid) ↔
      wire.status (bits ++ [b]) = .more := by
  unfold Phase.receive
  cases hst : wire.status (bits ++ [b]) with
  | more =>
    simp only [iff_true]
    split
    · simp
    · rintro q sig hmem
      simp only [List.mem_singleton, Effect.kill.injEq] at hmem
      exact ⟨hmem.1 ▸ hpid, hmem.1⟩
  | rejected => simp
  | complete us =>
    simp only [reduceCtorEq, iff_false, not_forall]
    exact ⟨0, .SIGUSR2, by simp, by simp⟩

section Step
variable {env : Env} {s : State} {signum : Signum} {siPid : Pid}

theorem answers_iff_of_represents {φ : Phase} (h : Represents env s φ) :
    AnswersSender env s signum siPid ↔ s.exited = true ∨ Answerable s signum siPid := by
  have hout := (step_matches h (.signal signum siPid)).2
  unfold AnswersSender
  rw [hout]
  cases φ with
  | exited =>
    have hex : s.exited = true := h
    simp [Phase.step, hex]
  | idle phantom =>
    obtain ⟨hex, -, hidle⟩ := h
    have hact : s.client.actualPid = 0 := by rw [hidle, actualPid_idleRecord]
    have hends : ¬endsSession s.client signum := by
      rw [hidle]
      cases phantom <;> simp [endsSession, idleRecord, connected, getClientInstance]
    have hanswer : Answerable s signum siPid ↔ siPid ≠ 0 :=
      ⟨fun ha h0 => ha.sender h0 hact, fun h0 => ⟨fun h => absurd h h0, fun _ => hends⟩⟩
    rw [hanswer, lostSignal_of_idle hact]
    simp only [Phase.step, hex, Bool.false_eq_true, false_or]
    by_cases hself : siPid = env.serverPid
    · simp [hself, env.serverPid_pos.ne']
    · by_cases h0 : siPid = 0
      · simp [h0, env.serverPid_pos.ne]
      · simp [hself, h0, Nat.pos_of_ne_zero h0]
  | serving pid bits =>
    obtain ⟨hex, -, hpid, hself, hact, hphase⟩ := h
    have hmore : wire.status (bits ++ [getBitValue signum]) = .more ↔ ¬endsSession s.client signum := by
      rcases hphase with hh | hb
      · exact hh.status_eq_more_iff
      · exact hb.status_eq_more_iff
    have hanswer : Answerable s signum siPid ↔ (siPid = 0 ∨ siPid = pid → ¬endsSession s.client signum) :=
      ⟨fun ha => hact ▸ ha.stays, fun hs => ⟨fun _ => hact ▸ hpid.ne', hact ▸ hs⟩⟩
    rw [hanswer, ← hmore, lostSignal_eq bits hact]
    simp only [Phase.step, hex, Bool.false_eq_true, false_or]
    by_cases hown : siPid = 0 ∨ siPid = pid
    · have hsender : Phase.sender siPid (.serving pid bits) = pid := by
        rcases hown with h0 | hp
        · simp [h0]
        · simp [hp]
      rw [hsender, if_neg hself, if_neg (not_not_intro rfl), receive_answers_iff hpid]
      exact ⟨fun h _ => h, fun h => h hown⟩
    · have h0 : siPid ≠ 0 := fun h => hown (Or.inl h)
      have hp : siPid ≠ pid := fun h => hown (Or.inr h)
      have hsender : Phase.sender siPid (.serving pid bits) = siPid := if_neg h0
      rw [hsender, if_pos hp]
      simp only [hown, false_imp_iff, iff_true]
      split
      · simp
      · rintro q sig hmem
        simp only [List.mem_singleton, Effect.kill.injEq] at hmem
        exact ⟨hmem.1 ▸ Nat.pos_of_ne_zero h0, hmem.1⟩

/-- In every reachable state, the next signal is answered at its sender, and only there, exactly when it is
    answerable, or the process has exited. -/
theorem answers_sender_iff (h : Reachable env s) :
    AnswersSender env s signum siPid ↔ s.exited = true ∨ Answerable s signum siPid := by
  obtain ⟨events, rfl⟩ := h
  obtain ⟨φ, hrep⟩ := represents_run env events
  exact answers_iff_of_represents hrep

end Step

/-- A bit in the middle of a message is answered at its client, also where `si_pid` is lost. -/
theorem answers_within_message :
    let env : Env := { serverPid := 1, serverPid_pos := by decide, mallocOk := fun _ => true }
    let header := List.replicate 31 Signum.SIGUSR1 ++ [.SIGUSR2]
    let bits := [Signum.SIGUSR1, .SIGUSR2, .SIGUSR1]
    let s := (machine env).run initial ((.SIGUSR1 :: header ++ bits).map (.signal · 2))
    s.client.actualPid = 2 ∧ AnswersSender env s .SIGUSR2 0 := by
  intro env header bits s
  have hreach : Reachable env s := ⟨_, rfl⟩
  have hpid : s.client.actualPid = 2 := by decide +kernel
  have hstays : ¬endsSession s.client .SIGUSR2 := by decide +kernel
  exact ⟨hpid, (answers_sender_iff hreach).mpr (Or.inr ⟨fun _ h0 => absurd (hpid.symm.trans h0) (by decide),
    fun _ => hstays⟩)⟩

/-- The last bit of a message of one byte is acknowledged at pid 0. -/
theorem last_bit_answers_group :
    let env : Env := { serverPid := 1, serverPid_pos := by decide, mallocOk := fun _ => true }
    let header := List.replicate 31 Signum.SIGUSR1 ++ [.SIGUSR2]
    let bits := [Signum.SIGUSR1, .SIGUSR2, .SIGUSR1, .SIGUSR1, .SIGUSR1, .SIGUSR1, .SIGUSR1]
    let s := (machine env).run initial ((.SIGUSR1 :: header ++ bits).map (.signal · 2))
    Reachable env s ∧ .kill 0 .SIGUSR2 ∈ ((machine env).step s (.signal .SIGUSR2 2)).2 ∧
      ¬AnswersSender env s .SIGUSR2 2 := by
  intro env header bits s
  have hmem : .kill 0 .SIGUSR2 ∈ ((machine env).step s (.signal .SIGUSR2 2)).2 := by decide +kernel
  exact ⟨⟨_, rfl⟩, hmem, fun h => absurd (h _ _ hmem).1 (by decide)⟩

end Minitalk.Server
