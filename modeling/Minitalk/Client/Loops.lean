import Minitalk.Lib.Transition
import Minitalk.Client.Process

/-! # The loops of the client (`client/check.c`, `time.c`, `ping.c`, `handshake.c`, `bits.c`)

The statements between the stages of the process, with the counters of its loops: the polls of
`check_server_and_sleep`, the wait for the transmission slot, and the wait for each acknowledgment. A `usleep` asks
for its time; a signal may end it at any moment. -/

namespace Minitalk.Client

def RETRY_TIME : Nat := 1
def RETRY_INTERVALS : Nat := 100

/-- The constants of `check_server_and_sleep`, in microseconds. -/
def totalSleep : Nat := RETRY_TIME * 1000 * 1000
def sleepTime : Nat := totalSleep / RETRY_INTERVALS

/-- The limits of `handle_transmission_wait_loop` and of `wait_for_server_ack`. -/
def MAX_WAIT : Nat := 60000
def MAX_TIMEOUT : Nat := 50000

/-- The statement that the process executes next, with the counters of the loops around it. -/
inductive Pc where
  | absent
  /-- `ping`, before it installs its handlers. -/
  | start
  /-- `attempt_ping`: `validate_process_exists`. -/
  | validate (attempt : Nat)
  | sendPing (attempt : Nat)
  /-- `check_server_and_sleep`: the test of the loop. -/
  | poll (attempt i : Nat)
  | pollSleep (attempt i : Nat)
  | pollLook (attempt i : Nat)
  | pollNext (attempt i : Nat)
  | retryDelay (attempt : Nat)
  /-- `handle_timeouts`: `++i <= RETRY_TIMES`. -/
  | retryTest (attempt : Nat)
  | connected
  /-- `wait_for_transmission_slot`: the fast path. -/
  | slotTest
  /-- `handle_transmission_wait_loop`: the test of the loop. -/
  | slotLoop (waitCount : Nat)
  | slotSleep (waitCount : Nat)
  | slotCheck (waitCount : Nat)
  | slotLimit (waitCount : Nat)
  | takeSlot
  /-- `send_message`, before the byte that starts with the k-th bit. -/
  | ownership (k : Nat)
  /-- `send_signal`: `kill(pid, 0)`. -/
  | checkServer (k : Nat)
  | sendSignal (k : Nat)
  /-- `wait_for_server_ack`: the test of the loop. -/
  | ackLoop (k timeoutCount : Nat)
  | ackSleep (k timeoutCount : Nat)
  | ackOwnership (k timeoutCount : Nat)
  | ackTimeout (k timeoutCount : Nat)
  | ackReset (k : Nat)
  | paused
  | exited (delivered : Bool)
deriving DecidableEq

/-- A client process: the next statement and the `t_server_state`. -/
structure Thread where
  pc : Pc := .absent
  server : ServerState := {}
deriving DecidableEq

/-- The first statement for the k-th bit. -/
def bitAt (k : Nat) : Pc := if ownershipChecked k then .ownership k else .checkServer k

/-- The time that `handle_retry_delay` asks for. -/
def delayTime (attempt : Nat) : Nat :=
  if RETRY_TIMES / 2 < attempt then attempt * 500000 else attempt * 100000

def Thread.goto (t : Thread) (pc : Pc) : Thread := { t with pc }

/-- The next statement of the client `myPid`, with the signal that it sends to the server. -/
def next (serverPid : Pid) (serverAlive : Bool) (myPid : Pid) (text : Text) (t : Thread) :
    Option (Thread × Option Signum) :=
  match t.pc with
  | .absent | .paused | .exited _ => none
  | .start => some ({ pc := .validate 1, server := { pid := serverPid } }, none)
  | .validate a => some (t.goto (if serverAlive then .sendPing a else .exited false), none)
  | .sendPing a =>
    if serverAlive then some (t.goto (.poll a 0), some .SIGUSR1) else some (t.goto (.exited false), none)
  | .poll a i => some (t.goto (if i ≤ totalSleep then .pollSleep a i else .retryDelay a), none)
  | .pollSleep a i => some (t.goto (.pollLook a i), none)
  | .pollLook a i => some (t.goto (if t.server.isReady then .connected else .pollNext a i), none)
  | .pollNext a i => some (t.goto (.poll a (i + sleepTime)), none)
  | .retryDelay a => some (t.goto (.retryTest a), none)
  | .retryTest a => some (t.goto (if a < RETRY_TIMES then .validate (a + 1) else .exited false), none)
  | .connected => some (t.goto .slotTest, none)
  | .slotTest =>
    some (t.goto (if !t.server.transmissionActive || isTransmissionOwner myPid t.server then .takeSlot
      else .slotLoop 0), none)
  | .slotLoop n =>
    some (t.goto (if t.server.transmissionActive && !isTransmissionOwner myPid t.server then .slotSleep n
      else .takeSlot), none)
  | .slotSleep n => some (t.goto (.slotCheck (n + 1)), none)
  | .slotCheck n =>
    some (t.goto (if n % 3000 = 0 ∧ serverAlive = false then .exited false else .slotLimit n), none)
  | .slotLimit n => some (t.goto (if MAX_WAIT < n then .exited false else .slotLoop n), none)
  | .takeSlot => some ({ pc := bitAt 0, server := setTransmissionActive myPid t.server }, none)
  | .ownership k =>
    some (t.goto (if isTransmissionOwner myPid t.server then .checkServer k else .exited false), none)
  | .checkServer k => some (t.goto (if serverAlive then .sendSignal k else .exited false), none)
  | .sendSignal k =>
    if serverAlive then
      ((startTransmission text)[k]?).map fun signum => (t.goto (.ackLoop k 0), some signum)
    else some (t.goto (.exited false), none)
  | .ackLoop k n => some (t.goto (if t.server.readyToProceed then .ackReset k else .ackSleep k n), none)
  | .ackSleep k n => some (t.goto (.ackOwnership k (n + 1)), none)
  | .ackOwnership k n =>
    some (t.goto (if n % 50000 = 0 ∧ isTransmissionOwner myPid t.server = false then .exited false
      else .ackTimeout k n), none)
  | .ackTimeout k n => some (t.goto (if MAX_TIMEOUT < n then .exited false else .ackLoop k n), none)
  | .ackReset k =>
    let server := { t.server with readyToProceed := false }
    some ({ pc := if k + 1 < text.signalCount then bitAt (k + 1) else .paused, server }, none)

/-- The time that the statement asks `usleep` for, in microseconds. -/
def Pc.sleeps : Pc → Nat
  | pollSleep _ _ => sleepTime
  | retryDelay a => delayTime a
  | slotSleep _ => 10000
  | ackSleep _ _ => 100
  | _ => 0

/-! ### The stages of the statements -/

/-- The stage of the process at a statement. A poll that ends the loop counts as the delay that follows it. -/
def Pc.stage : Pc → Stage
  | absent => .absent
  | start => .start
  | validate a | sendPing a => .pinging a
  | poll a i => if i ≤ totalSleep then .polling a else .retryDelay a
  | pollSleep a _ | pollLook a _ => .polling a
  | pollNext a i => if i + sleepTime ≤ totalSleep then .polling a else .retryDelay a
  | retryDelay a | retryTest a => .retryDelay a
  | connected => .connected
  | slotTest | slotLoop _ | slotSleep _ | slotCheck _ | slotLimit _ | takeSlot => .slot
  | ownership k | checkServer k | sendSignal k => .sending k
  | ackLoop k _ | ackSleep k _ | ackOwnership k _ | ackTimeout k _ => .waiting k
  | ackReset k => .acked k
  | paused => .paused
  | exited delivered => .exited delivered

def Thread.process (t : Thread) : Process := ⟨t.pc.stage, t.server⟩

/-- A signal is delivered: the handler of the stage runs, and the process goes on with its statement or leaves. -/
def Thread.deliver (myPid : Pid) (signum : Signum) (siPid : Pid) (t : Thread) : Thread :=
  let c := Client.deliver myPid signum siPid t.process
  match c.stage with
  | .exited delivered => { pc := .exited delivered, server := c.server }
  | _ => { t with server := c.server }

/-! ### The transmission slot

`transmission_active` is a variable of the client itself, which only `set_transmission_active` sets: before it the
slot is free, after it the slot is the client's own, and nobody else can take it. -/

/-- `set_transmission_active` has run. -/
def Pc.holdsSlot : Pc → Bool
  | ownership _ | checkServer _ | sendSignal _ | ackLoop _ _ | ackSleep _ _ | ackOwnership _ _ | ackTimeout _ _
  | ackReset _ | paused => true
  | _ => false

def Pc.beforeSlot : Pc → Bool
  | exited _ => false
  | pc => !pc.holdsSlot

/-- In `handle_transmission_wait_loop`. -/
def Pc.waitsForSlot : Pc → Bool
  | slotLoop _ | slotSleep _ | slotCheck _ | slotLimit _ => true
  | _ => false

/-- The bit that `send_bit` is about to send. -/
def Pc.bit : Pc → Option Nat
  | ownership k | checkServer k | sendSignal k => some k
  | _ => none

structure Kept (myPid : Pid) (text : Text) (t : Thread) : Prop where
  free : t.pc.beforeSlot = true → t.server.transmissionActive = false
  owned : t.pc.holdsSlot = true → isTransmissionOwner myPid t.server = true
  fast : t.pc.waitsForSlot = false
  inside : ∀ k, t.pc.bit = some k → k < text.signalCount

section Slot
variable {serverPid myPid : Pid} {alive : Bool} {text : Text} {t t' : Thread} {sent : Option Signum}

theorem kept_exited (delivered : Bool) (server : ServerState) :
    Kept myPid text { pc := .exited delivered, server } :=
  ⟨nofun, nofun, rfl, nofun⟩

theorem Kept.goto (h : Kept myPid text t) {pc : Pc} (hbefore : pc.beforeSlot = true → t.pc.beforeSlot = true)
    (hholds : pc.holdsSlot = true → t.pc.holdsSlot = true) (hfast : pc.waitsForSlot = false)
    (hbit : ∀ k, pc.bit = some k → t.pc.bit = some k) : Kept myPid text (t.goto pc) :=
  ⟨fun hb => h.free (hbefore hb), fun hh => h.owned (hholds hh), hfast, fun k hk => h.inside k (hbit k hk)⟩

/-- A handler touches neither variable of the slot. -/
theorem deliver_slot (signum : Signum) (siPid : Pid) (c : Process) :
    (deliver myPid signum siPid c).server.transmissionActive = c.server.transmissionActive ∧
      (deliver myPid signum siPid c).server.currentClientPid = c.server.currentClientPid := by
  unfold deliver pingHandler signalHandler handlePong handleAcknowledgment handleCompletion
  cases signum <;> split <;> (try split) <;> (try split) <;> (try split) <;> exact ⟨rfl, rfl⟩

theorem bitAt_beforeSlot (k : Nat) : (bitAt k).beforeSlot = false := by
  unfold bitAt
  split <;> rfl

theorem bitAt_waitsForSlot (k : Nat) : (bitAt k).waitsForSlot = false := by
  unfold bitAt
  split <;> rfl

theorem bitAt_bit {k j : Nat} (h : (bitAt k).bit = some j) : k = j := by
  unfold bitAt at h
  split at h <;> exact Option.some.inj h

@[simp] theorem bitAt_stage (k : Nat) : (bitAt k).stage = .sending k := by
  unfold bitAt
  split <;> rfl

theorem deliver_inv (myPid : Pid) (signum : Signum) (siPid : Pid) (t : Thread) :
    ∃ server, (t.deliver myPid signum siPid = { t with server } ∨
        ∃ delivered, t.deliver myPid signum siPid = { pc := .exited delivered, server }) ∧
      server.transmissionActive = t.server.transmissionActive ∧
      server.currentClientPid = t.server.currentClientPid := by
  refine ⟨(Client.deliver myPid signum siPid t.process).server, ?_, deliver_slot signum siPid t.process⟩
  unfold Thread.deliver
  simp only
  split
  · exact Or.inr ⟨_, rfl⟩
  · exact Or.inl rfl

theorem Kept.deliver (h : Kept myPid text t) (signum : Signum) (siPid : Pid) :
    Kept myPid text (t.deliver myPid signum siPid) := by
  obtain ⟨server, heq | ⟨delivered, heq⟩, hactive, hclient⟩ := deliver_inv myPid signum siPid t
  · rw [heq]
    refine ⟨fun hb => hactive.trans (h.free hb), fun hh => ?_, h.fast, h.inside⟩
    rw [← h.owned hh, isTransmissionOwner, isTransmissionOwner, hactive, hclient]
  · rw [heq]
    exact kept_exited delivered server

/-- In the slot loops the client never is, and its ownership is never lost. -/
theorem Kept.statement (h : Kept myPid text t) (hs : next serverPid alive myPid text t = some (t', sent)) :
    Kept myPid text t' := by
  obtain ⟨pc, server⟩ := t
  have hexit : Kept myPid text (Thread.goto ⟨pc, server⟩ (.exited false)) := kept_exited false server
  cases pc with
  | absent | paused | exited delivered => cases hs
  | slotLoop n | slotSleep n | slotCheck n | slotLimit n => exact nomatch h.fast
  | start =>
    cases hs
    exact ⟨fun _ => rfl, nofun, rfl, nofun⟩
  | validate a =>
    cases hs
    cases alive
    · exact hexit
    · exact h.goto id id rfl fun _ => id
  | sendPing a =>
    cases alive <;> cases hs
    · exact hexit
    · exact h.goto id id rfl fun _ => id
  | poll a i =>
    cases hs
    split <;> exact h.goto id id rfl fun _ => id
  | pollLook a i =>
    cases hs
    split <;> exact h.goto id id rfl fun _ => id
  | retryTest a =>
    cases hs
    split
    · exact h.goto id id rfl fun _ => id
    · exact hexit
  | slotTest =>
    cases hs
    rw [h.free rfl]
    exact h.goto id id rfl fun _ => id
  | takeSlot =>
    cases hs
    refine ⟨fun hb => ?_, fun _ => ?_, bitAt_waitsForSlot 0, fun k hk => ?_⟩
    · exact absurd ((bitAt_beforeSlot 0).symm.trans hb) (by decide)
    · simp [isTransmissionOwner, setTransmissionActive]
    · exact bitAt_bit (k := 0) hk ▸ text.signalCount_pos
  | ownership k =>
    cases hs
    rw [h.owned rfl]
    exact h.goto id id rfl fun _ => id
  | checkServer k =>
    cases hs
    cases alive
    · exact hexit
    · exact h.goto id id rfl fun _ => id
  | sendSignal k =>
    cases alive
    · cases hs
      exact hexit
    · obtain ⟨_, -, heq⟩ := Option.map_eq_some_iff.mp hs
      cases heq
      exact h.goto id id rfl nofun
  | ackLoop k n =>
    cases hs
    split <;> exact h.goto id id rfl fun _ => id
  | ackOwnership k n =>
    cases hs
    rw [if_neg (fun hlost => absurd (hlost.2.symm.trans (h.owned rfl)) (by decide))]
    exact h.goto id id rfl fun _ => id
  | ackTimeout k n =>
    cases hs
    split
    · exact hexit
    · exact h.goto id id rfl fun _ => id
  | ackReset k =>
    cases hs
    split
    · rename_i hlt
      exact ⟨fun hb => absurd ((bitAt_beforeSlot (k + 1)).symm.trans hb) (by decide), fun _ => h.owned rfl,
        bitAt_waitsForSlot (k + 1), fun j hj => bitAt_bit hj ▸ hlt⟩
    · exact ⟨nofun, fun _ => h.owned rfl, rfl, nofun⟩
  | pollSleep a i | pollNext a i | retryDelay a | connected | ackSleep k n =>
    cases hs
    exact h.goto id id rfl fun _ => id

end Slot

/-! ### Whole runs of a client -/

/-- What happens to a client: it executes a statement, while the server is there or not, or a signal is delivered. -/
inductive Thread.Event where
  | statement (serverAlive : Bool)
  | signal (signum : Signum) (siPid : Pid)

def thread (serverPid myPid : Pid) (text : Text) : Transition Thread Thread.Event where
  step t
    | .statement serverAlive => (next serverPid serverAlive myPid text t).map Prod.fst
    | .signal signum siPid => some (t.deliver myPid signum siPid)

/-- The process as `main` has it when it calls `ping`. -/
def Thread.fresh : Thread := { pc := .start }

section Runs
variable {serverPid myPid : Pid} {alive : Bool} {text : Text} {t t' : Thread} {sent : Option Signum}
  {events : List Thread.Event}

theorem bitAt_ne_absent (k : Nat) : bitAt k ≠ .absent := by
  unfold bitAt
  split <;> exact Pc.noConfusion

theorem next_started (hs : next serverPid alive myPid text t = some (t', sent)) : t'.pc ≠ .absent := by
  obtain ⟨pc, server⟩ := t
  cases pc with
  | absent | paused | exited delivered => cases hs
  | takeSlot =>
    cases hs
    exact bitAt_ne_absent 0
  | sendSignal k =>
    cases alive
    · cases hs
      exact Pc.noConfusion
    · obtain ⟨_, -, heq⟩ := Option.map_eq_some_iff.mp hs
      cases heq
      exact Pc.noConfusion
  | sendPing a => cases alive <;> cases hs <;> exact Pc.noConfusion
  | ackReset k =>
    cases hs
    split
    · exact bitAt_ne_absent (k + 1)
    · exact Pc.noConfusion
  | start | pollSleep a i | pollNext a i | retryDelay a | connected | slotSleep n | ackSleep k n =>
    cases hs
    exact Pc.noConfusion
  | _ =>
    cases hs
    split <;> exact Pc.noConfusion

theorem kept_fresh : Kept myPid text .fresh := ⟨fun _ => rfl, nofun, rfl, nofun⟩

theorem Kept.step {e : Thread.Event} (h : Kept myPid text t) (hs : (thread serverPid myPid text).step t e = some t') :
    Kept myPid text t' := by
  cases e with
  | statement alive =>
    obtain ⟨⟨_, sent⟩, hnext, rfl⟩ := Option.map_eq_some_iff.mp hs
    exact h.statement hnext
  | signal signum siPid =>
    cases hs
    exact h.deliver signum siPid

theorem kept_run (hrun : (thread serverPid myPid text).run .fresh events = some t) : Kept myPid text t :=
  Transition.run_invariant (I := Kept myPid text) (fun _ _ _ h _ hs => h.step hs)
    kept_fresh (Transition.meets_true _ _) hrun

theorem started_step {e : Thread.Event} (h : t.pc ≠ .absent) (hs : (thread serverPid myPid text).step t e = some t') :
    t'.pc ≠ .absent := by
  cases e with
  | statement alive =>
    obtain ⟨⟨_, sent⟩, hnext, rfl⟩ := Option.map_eq_some_iff.mp hs
    exact next_started hnext
  | signal signum siPid =>
    cases hs
    obtain ⟨server, heq | ⟨delivered, heq⟩, -⟩ := deliver_inv myPid signum siPid t <;> rw [heq]
    · exact h
    · exact Pc.noConfusion

/-- Only `pause` and the end of the process stop its statements. -/
theorem stops (hrun : (thread serverPid myPid text).run .fresh events = some t)
    (hlast : next serverPid true myPid text t = none) :
    t.pc = .paused ∨ ∃ delivered, t.pc = .exited delivered := by
  have h := kept_run hrun
  have hstarted : t.pc ≠ .absent := Transition.run_invariant (I := fun t : Thread => t.pc ≠ .absent)
    (fun _ _ _ h _ hs => started_step h hs) Pc.noConfusion (Transition.meets_true _ _) hrun
  obtain ⟨pc, server⟩ := t
  cases pc with
  | absent => exact absurd rfl hstarted
  | paused => exact Or.inl rfl
  | exited delivered => exact Or.inr ⟨delivered, rfl⟩
  | sendSignal k =>
    have hk : k < (startTransmission text).length := length_startTransmission text ▸ h.inside k rfl
    simp [next, hk] at hlast
  | _ => cases hlast

/-- The loop that waits for the transmission slot is never entered, and the slot is never lost. -/
theorem slot_uncontended (hrun : (thread serverPid myPid text).run .fresh events = some t) :
    t.pc.waitsForSlot = false ∧ (t.pc.beforeSlot = true → t.server.transmissionActive = false) ∧
      (t.pc.holdsSlot = true → isTransmissionOwner myPid t.server = true) :=
  ⟨(kept_run hrun).fast, (kept_run hrun).free, (kept_run hrun).owned⟩

def textABC : Text := ⟨[0x41, 0x42, 0x43], 3, rfl, by decide, by decide, by simp⟩

/-- The client 2 is told `READY` by the server 1 at once, and takes its slot. -/
def takesSlot : List Thread.Event :=
  List.replicate 3 (.statement true) ++ .signal .SIGUSR1 1 :: List.replicate 6 (.statement true)

theorem slot_uncontended_two : ∃ t, (thread 1 2 textABC).run .fresh takesSlot = some t ∧
    t.pc = .checkServer 0 ∧ isTransmissionOwner 2 t.server = true := by
  have hpc : ((thread 1 2 textABC).run .fresh takesSlot).map Thread.pc = some (.checkServer 0) := by
    decide +kernel
  obtain ⟨t, hrun, hpc⟩ := Option.map_eq_some_iff.mp hpc
  exact ⟨t, hrun, hpc, (slot_uncontended hrun).2.2 (by rw [hpc]; rfl)⟩

end Runs

end Minitalk.Client
