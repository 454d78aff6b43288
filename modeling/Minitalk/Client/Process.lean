import Minitalk.Client.Transmission

/-! # The client process (`srcs/client`)

The stages that the process goes through, with the `t_server_state` that its signal handlers write and its loops
read. A sleep or a timer may end at any moment; log lines and messages to the user are left out. -/

namespace Minitalk.Client

def RETRY_TIMES : Nat := 20

/-- `t_server_state`, without the fields that no function reads (`transmission_id`, `last_sequence` and
    `ack_count`). -/
structure ServerState where
  pid : Pid := 0
  isReady : Bool := false
  readyToProceed : Bool := false
  transmissionActive : Bool := false
  currentClientPid : Pid := 0
deriving DecidableEq

inductive Stage where
  | absent
  /-- Before `ping` installs a handler. -/
  | start
  /-- In `attempt_ping`, before the signal of this attempt. -/
  | pinging (attempt : Nat)
  /-- In `check_server_and_sleep`. -/
  | polling (attempt : Nat)
  /-- In `handle_retry_delay`. -/
  | retryDelay (attempt : Nat)
  /-- `ping` has returned 1. -/
  | connected
  /-- In `wait_for_transmission_slot`, with the handlers of the transmission installed. -/
  | slot
  /-- In `send_bit`, before the signal of the k-th bit, counted from 0. -/
  | sending (k : Nat)
  /-- In the loop of `wait_for_server_ack`, after the k-th bit. -/
  | waiting (k : Nat)
  /-- Behind that loop, before `ready_to_proceed` is reset. -/
  | acked (k : Nat)
  /-- In the `pause` loop of `main`. -/
  | paused
  /-- `delivered` when it was `handle_completion` that left the process. -/
  | exited (delivered : Bool)
deriving DecidableEq

structure Process where
  stage : Stage := .absent
  server : ServerState := {}
deriving DecidableEq

def Stage.alive : Stage → Bool
  | absent | exited _ => false
  | _ => true

def Stage.inPing : Stage → Bool
  | pinging _ | polling _ | retryDelay _ => true
  | _ => false

def Process.exit (c : Process) (delivered : Bool) : Process := { c with stage := .exited delivered }

/-! ### The signal handlers -/

def handlePong (signum : Signum) (server : ServerState) : ServerState :=
  match signum with
  | .SIGUSR1 => { server with isReady := true }
  | .SIGUSR2 => { server with isReady := false }

def pingHandler (myPid : Pid) (signum : Signum) (siPid : Pid) (c : Process) : Process :=
  if siPid = myPid then c.exit false
  else if c.server.pid ≠ 0 ∧ siPid ≠ c.server.pid then c
  else if c.server.transmissionActive then c
  else { c with server := handlePong signum c.server }

def validateSignalSource (server : ServerState) (siPid : Pid) : Bool :=
  !(decide (server.pid ≠ 0) && decide (siPid ≠ server.pid))

def handleAcknowledgment (server : ServerState) : ServerState := { server with readyToProceed := true }

/-- `handle_completion` leaves the process with `EXIT_SUCCESS`. -/
def handleCompletion (c : Process) : Process := c.exit true

def signalHandler (signum : Signum) (siPid : Pid) (c : Process) : Process :=
  if !validateSignalSource c.server siPid then c
  else match signum with
    | .SIGUSR2 => { c with server := handleAcknowledgment c.server }
    | .SIGUSR1 => handleCompletion c

/-- A signal is delivered: to the handler that is installed, or with the default action of ending the process. -/
def deliver (myPid : Pid) (signum : Signum) (siPid : Pid) (c : Process) : Process :=
  match c.stage with
  | .absent | .exited _ => c
  | .start => c.exit false
  | .pinging _ | .polling _ | .retryDelay _ | .connected => pingHandler myPid signum siPid c
  | .slot | .sending _ | .waiting _ | .acked _ | .paused => signalHandler signum siPid c

/-! ### The main program -/

inductive Move where
  /-- `ping` up to its first attempt. -/
  | setup
  | sendPing
  /-- A poll of `check_server_and_sleep` that finds the server ready. -/
  | ready
  /-- `check_server_and_sleep` gives up. -/
  | giveUp
  /-- `handle_retry_delay` is over. -/
  | retry
  | prepare
  | takeSlot
  | sendBit
  | ackSeen
  | ackReset
  /-- `handle_timeout` while waiting for the acknowledgment. -/
  | ackTimeout
deriving DecidableEq

def isTransmissionOwner (myPid : Pid) (server : ServerState) : Bool :=
  server.transmissionActive && decide (server.currentClientPid = myPid)

def setTransmissionActive (myPid : Pid) (server : ServerState) : ServerState :=
  { server with transmissionActive := true, currentClientPid := myPid }

/-- `send_message` checks before every byte that the process owns the transmission. -/
def ownershipChecked (k : Nat) : Bool := decide (32 ≤ k ∧ (k - 32) % 8 = 0)

/-- The next statement of the client `myPid`, with the signal that it sends to the server. -/
def step (serverPid : Pid) (serverAlive : Bool) (myPid : Pid) (text : Text) (c : Process) :
    Move → Option (Process × Option Signum)
  | .setup =>
    if c.stage = .start then some ({ stage := .pinging 1, server := { pid := serverPid } }, none) else none
  | .sendPing =>
    match c.stage with
    | .pinging a =>
      if serverAlive then some ({ c with stage := .polling a }, some .SIGUSR1) else some (c.exit false, none)
    | _ => none
  | .ready =>
    match c.stage with
    | .polling _ => if c.server.isReady then some ({ c with stage := .connected }, none) else none
    | _ => none
  | .giveUp =>
    match c.stage with
    | .polling a => if c.server.isReady then none else some ({ c with stage := .retryDelay a }, none)
    | _ => none
  | .retry =>
    match c.stage with
    | .retryDelay a =>
      if a < RETRY_TIMES then some ({ c with stage := .pinging (a + 1) }, none) else some (c.exit false, none)
    | _ => none
  | .prepare => if c.stage = .connected then some ({ c with stage := .slot }, none) else none
  | .takeSlot =>
    if c.stage = .slot ∧ (c.server.transmissionActive = false ∨ isTransmissionOwner myPid c.server = true) then
      some ({ stage := .sending 0, server := setTransmissionActive myPid c.server }, none)
    else none
  | .sendBit =>
    match c.stage with
    | .sending k =>
      if ownershipChecked k && !isTransmissionOwner myPid c.server then some (c.exit false, none)
      else if serverAlive then
        ((startTransmission text)[k]?).map fun signum => ({ c with stage := .waiting k }, some signum)
      else some (c.exit false, none)
    | _ => none
  | .ackSeen =>
    match c.stage with
    | .waiting k => if c.server.readyToProceed then some ({ c with stage := .acked k }, none) else none
    | _ => none
  | .ackReset =>
    match c.stage with
    | .acked k =>
      let server := { c.server with readyToProceed := false }
      some ({ stage := if k + 1 < text.signalCount then .sending (k + 1) else .paused, server }, none)
    | _ => none
  | .ackTimeout =>
    match c.stage with
    | .waiting _ => some (c.exit false, none)
    | _ => none

/-! ### What a statement can do -/

section Inversion
variable {serverPid myPid : Pid} {alive : Bool} {text : Text} {c : Process} {r : Process × Option Signum}

theorem setup_inv (h : step serverPid alive myPid text c .setup = some r) :
    c.stage = .start ∧ r = ({ stage := .pinging 1, server := { pid := serverPid } }, none) := by
  simp only [step, Option.ite_none_right_eq_some, Option.some.injEq] at h
  exact ⟨h.1, h.2.symm⟩

theorem sendPing_inv (h : step serverPid alive myPid text c .sendPing = some r) :
    ∃ a, c.stage = .pinging a ∧
      ((alive = true ∧ r = ({ c with stage := .polling a }, some .SIGUSR1)) ∨
        (alive = false ∧ r = (c.exit false, none))) := by
  simp only [step] at h
  split at h
  · rename_i a hst
    cases alive with
    | true => exact ⟨a, hst, Or.inl ⟨rfl, (Option.some.inj h).symm⟩⟩
    | false => exact ⟨a, hst, Or.inr ⟨rfl, (Option.some.inj h).symm⟩⟩
  · cases h

theorem ready_inv (h : step serverPid alive myPid text c .ready = some r) :
    ∃ a, c.stage = .polling a ∧ c.server.isReady = true ∧ r = ({ c with stage := .connected }, none) := by
  simp only [step] at h
  split at h
  · rename_i a hst
    simp only [Option.ite_none_right_eq_some, Option.some.injEq] at h
    exact ⟨a, hst, h.1, h.2.symm⟩
  · cases h

theorem giveUp_inv (h : step serverPid alive myPid text c .giveUp = some r) :
    ∃ a, c.stage = .polling a ∧ c.server.isReady = false ∧ r = ({ c with stage := .retryDelay a }, none) := by
  simp only [step] at h
  split at h
  · rename_i a hst
    cases hready : c.server.isReady with
    | true => simp [hready] at h
    | false => exact ⟨a, hst, rfl, by simpa [hready] using h.symm⟩
  · cases h

theorem retry_inv (h : step serverPid alive myPid text c .retry = some r) :
    ∃ a, c.stage = .retryDelay a ∧
      ((a < RETRY_TIMES ∧ r = ({ c with stage := .pinging (a + 1) }, none)) ∨
        (RETRY_TIMES ≤ a ∧ r = (c.exit false, none))) := by
  simp only [step] at h
  split at h
  · rename_i a hst
    split at h
    · exact ⟨a, hst, Or.inl ⟨‹_›, (Option.some.inj h).symm⟩⟩
    · exact ⟨a, hst, Or.inr ⟨Nat.le_of_not_lt ‹_›, (Option.some.inj h).symm⟩⟩
  · cases h

theorem prepare_inv (h : step serverPid alive myPid text c .prepare = some r) :
    c.stage = .connected ∧ r = ({ c with stage := .slot }, none) := by
  simp only [step, Option.ite_none_right_eq_some, Option.some.injEq] at h
  exact ⟨h.1, h.2.symm⟩

theorem takeSlot_inv (h : step serverPid alive myPid text c .takeSlot = some r) :
    c.stage = .slot ∧ (c.server.transmissionActive = false ∨ isTransmissionOwner myPid c.server = true) ∧
      r = ({ stage := .sending 0, server := setTransmissionActive myPid c.server }, none) := by
  simp only [step, Option.ite_none_right_eq_some, Option.some.injEq] at h
  exact ⟨h.1.1, h.1.2, h.2.symm⟩

theorem sendBit_inv (h : step serverPid alive myPid text c .sendBit = some r) :
    ∃ k, c.stage = .sending k ∧
      (r = (c.exit false, none) ∨
        ∃ signum, (startTransmission text)[k]? = some signum ∧
          r = ({ c with stage := .waiting k }, some signum)) := by
  simp only [step] at h
  split at h
  · rename_i k hst
    split at h
    · exact ⟨k, hst, Or.inl (Option.some.inj h).symm⟩
    · split at h
      · obtain ⟨signum, hsig, heq⟩ := Option.map_eq_some_iff.mp h
        exact ⟨k, hst, Or.inr ⟨signum, hsig, heq.symm⟩⟩
      · exact ⟨k, hst, Or.inl (Option.some.inj h).symm⟩
  · cases h

theorem ackSeen_inv (h : step serverPid alive myPid text c .ackSeen = some r) :
    ∃ k, c.stage = .waiting k ∧ c.server.readyToProceed = true ∧ r = ({ c with stage := .acked k }, none) := by
  simp only [step] at h
  split at h
  · rename_i k hst
    simp only [Option.ite_none_right_eq_some, Option.some.injEq] at h
    exact ⟨k, hst, h.1, h.2.symm⟩
  · cases h

theorem ackReset_inv (h : step serverPid alive myPid text c .ackReset = some r) :
    ∃ k, c.stage = .acked k ∧
      r = ({ stage := if k + 1 < text.signalCount then .sending (k + 1) else .paused,
             server := { c.server with readyToProceed := false } }, none) := by
  simp only [step] at h
  split at h
  · rename_i k hst
    exact ⟨k, hst, (Option.some.inj h).symm⟩
  · cases h

theorem ackTimeout_inv (h : step serverPid alive myPid text c .ackTimeout = some r) :
    ∃ k, c.stage = .waiting k ∧ r = (c.exit false, none) := by
  simp only [step] at h
  split at h
  · rename_i k hst
    exact ⟨k, hst, (Option.some.inj h).symm⟩
  · cases h

/-- Only `send_ping_signal` and `send_bit` signal the server. -/
theorem step_sends {move : Move} {c' : Process} {signum : Signum}
    (h : step serverPid alive myPid text c move = some (c', some signum)) :
    (∃ a, c.stage = .pinging a ∧ c' = { c with stage := .polling a } ∧ move = .sendPing ∧ signum = .SIGUSR1) ∨
      (∃ k, c.stage = .sending k ∧ c' = { c with stage := .waiting k } ∧
        (startTransmission text)[k]? = some signum) := by
  cases move with
  | sendPing =>
    obtain ⟨a, hst, ⟨-, heq⟩ | ⟨-, heq⟩⟩ := sendPing_inv h
    · cases heq
      exact Or.inl ⟨a, hst, rfl, rfl, rfl⟩
    · cases heq
  | sendBit =>
    obtain ⟨k, hst, heq | ⟨_, hsig, heq⟩⟩ := sendBit_inv h
    · cases heq
    · cases heq
      exact Or.inr ⟨k, hst, rfl, hsig⟩
  | setup =>
    obtain ⟨-, heq⟩ := setup_inv h
    cases heq
  | ready =>
    obtain ⟨_, -, -, heq⟩ := ready_inv h
    cases heq
  | giveUp =>
    obtain ⟨_, -, -, heq⟩ := giveUp_inv h
    cases heq
  | retry =>
    obtain ⟨_, -, ⟨-, heq⟩ | ⟨-, heq⟩⟩ := retry_inv h <;> cases heq
  | prepare =>
    obtain ⟨-, heq⟩ := prepare_inv h
    cases heq
  | takeSlot =>
    obtain ⟨-, -, heq⟩ := takeSlot_inv h
    cases heq
  | ackSeen =>
    obtain ⟨_, -, -, heq⟩ := ackSeen_inv h
    cases heq
  | ackReset =>
    obtain ⟨_, -, heq⟩ := ackReset_inv h
    cases heq
  | ackTimeout =>
    obtain ⟨_, -, heq⟩ := ackTimeout_inv h
    cases heq

end Inversion

end Minitalk.Client
