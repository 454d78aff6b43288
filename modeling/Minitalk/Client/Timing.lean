import Minitalk.Client.Loops

/-! # How long a client can take (`client/check.c`, `time.c`, `handshake.c`)

Every loop of the client counts its turns, so a client neither hangs nor spins: whatever signals arrive and whether
or not the server answers, it reaches `pause` or leaves within a bounded number of statements and a bounded sleep. -/

namespace Minitalk.Client

/-! ### What is left to do

Of each loop the turns that its counter leaves; of the attempts and of the bits those that are still to come. -/

/-- The polls of one attempt and its delay. -/
def attemptTime (attempt : Nat) : Nat := totalSleep + sleepTime + delayTime attempt

/-- The last `n` attempts. -/
def retriesTime : Nat → Nat
  | 0 => 0
  | n + 1 => attemptTime (RETRY_TIMES - n) + retriesTime n

/-- The wait for one acknowledgment. -/
def ackTime : Nat := 100 * (MAX_TIMEOUT + 1)

/-- What the process may still ask `usleep` for, in microseconds. -/
def Pc.timeLeft (text : Text) : Pc → Nat
  | start => retriesTime RETRY_TIMES + text.signalCount * ackTime
  | validate a | sendPing a => attemptTime a + retriesTime (RETRY_TIMES - a) + text.signalCount * ackTime
  | poll a i =>
    totalSleep + sleepTime - i + (delayTime a + retriesTime (RETRY_TIMES - a)) + text.signalCount * ackTime
  | pollSleep a i =>
    totalSleep - i + sleepTime + (delayTime a + retriesTime (RETRY_TIMES - a)) + text.signalCount * ackTime
  | pollLook a i | pollNext a i =>
    totalSleep - i + (delayTime a + retriesTime (RETRY_TIMES - a)) + text.signalCount * ackTime
  | retryDelay a => delayTime a + retriesTime (RETRY_TIMES - a) + text.signalCount * ackTime
  | retryTest a => retriesTime (RETRY_TIMES - a) + text.signalCount * ackTime
  | connected | slotTest | takeSlot => text.signalCount * ackTime
  | ownership k | checkServer k | sendSignal k => (text.signalCount - k) * ackTime
  | ackLoop k n | ackSleep k n => 100 * (MAX_TIMEOUT - n) + 100 + (text.signalCount - (k + 1)) * ackTime
  | ackOwnership k n | ackTimeout k n => 100 * (MAX_TIMEOUT + 1 - n) + (text.signalCount - (k + 1)) * ackTime
  | ackReset k => (text.signalCount - (k + 1)) * ackTime
  | _ => 0

/-- Four statements for each of the 101 polls of an attempt, and five around them. -/
def attemptStatements : Nat := 4 * (RETRY_INTERVALS + 1) + 5

/-- Four statements for each turn of `wait_for_server_ack`, and four around them. -/
def bitStatements : Nat := 4 * (MAX_TIMEOUT + 1) + 4

/-- How many statements the process has left, at most. -/
def Pc.statementsLeft (text : Text) : Pc → Nat
  | start => 7 + attemptStatements * RETRY_TIMES + bitStatements * text.signalCount
  | validate a => attemptStatements + 6 + attemptStatements * (RETRY_TIMES - a) + bitStatements * text.signalCount
  | sendPing a => attemptStatements + 5 + attemptStatements * (RETRY_TIMES - a) + bitStatements * text.signalCount
  | poll a i =>
    4 * ((totalSleep + sleepTime - i) / sleepTime) + 9 + attemptStatements * (RETRY_TIMES - a) +
      bitStatements * text.signalCount
  | pollSleep a i =>
    4 * ((totalSleep - i) / sleepTime) + 12 + attemptStatements * (RETRY_TIMES - a) + bitStatements * text.signalCount
  | pollLook a i =>
    4 * ((totalSleep - i) / sleepTime) + 11 + attemptStatements * (RETRY_TIMES - a) + bitStatements * text.signalCount
  | pollNext a i =>
    4 * ((totalSleep - i) / sleepTime) + 10 + attemptStatements * (RETRY_TIMES - a) + bitStatements * text.signalCount
  | retryDelay a => 8 + attemptStatements * (RETRY_TIMES - a) + bitStatements * text.signalCount
  | retryTest a => 7 + attemptStatements * (RETRY_TIMES - a) + bitStatements * text.signalCount
  | connected => 6 + bitStatements * text.signalCount
  | slotTest => 5 + bitStatements * text.signalCount
  | takeSlot => 4 + bitStatements * text.signalCount
  | ownership k => 3 + bitStatements * (text.signalCount - k)
  | checkServer k => 2 + bitStatements * (text.signalCount - k)
  | sendSignal k => 1 + bitStatements * (text.signalCount - k)
  | ackLoop k n => 4 * (MAX_TIMEOUT - n) + 8 + bitStatements * (text.signalCount - (k + 1))
  | ackSleep k n => 4 * (MAX_TIMEOUT - n) + 7 + bitStatements * (text.signalCount - (k + 1))
  | ackOwnership k n => 4 * (MAX_TIMEOUT + 1 - n) + 6 + bitStatements * (text.signalCount - (k + 1))
  | ackTimeout k n => 4 * (MAX_TIMEOUT + 1 - n) + 5 + bitStatements * (text.signalCount - (k + 1))
  | ackReset k => 4 + bitStatements * (text.signalCount - (k + 1))
  | _ => 0

/-- A statement pays for the time that it asks for, and for itself. -/
structure Pays (text : Text) (pc pc' : Pc) : Prop where
  time : pc.sleeps + pc'.timeLeft text ≤ pc.timeLeft text
  statement : pc'.statementsLeft text < pc.statementsLeft text

section Left
variable {serverPid myPid : Pid} {alive : Bool} {text : Text} {t t' : Thread} {sent : Option Signum} {pc : Pc}
  {server : ServerState}

theorem pays_exited (pc : Pc) (delivered : Bool) (htime : pc.sleeps = 0)
    (hpos : 0 < pc.statementsLeft text) : Pays text pc (.exited delivered) :=
  ⟨by rw [htime]; exact Nat.zero_le _, hpos⟩

/-- The attempt after `a`. -/
theorem retriesTime_succ {a : Nat} (h : a < RETRY_TIMES) :
    retriesTime (RETRY_TIMES - a) = attemptTime (a + 1) + retriesTime (RETRY_TIMES - (a + 1)) := by
  have hsucc : RETRY_TIMES - a = RETRY_TIMES - (a + 1) + 1 := by omega
  rw [hsucc, retriesTime]
  congr 2
  omega

theorem pollsLeft {i : Nat} (h : i ≤ totalSleep) :
    (totalSleep + sleepTime - i) / sleepTime = (totalSleep - i) / sleepTime + 1 := by
  rw [Nat.sub_add_comm h, Nat.add_div_right _ (by decide)]

/-- What `n` for each is, of those from the k-th of `m` on. -/
theorem mul_left_succ {k m : Nat} (h : k < m) (n : Nat) : n * (m - k) = n + n * (m - (k + 1)) := by
  have hsucc : m - k = m - (k + 1) + 1 := by omega
  rw [hsucc, Nat.mul_succ, Nat.add_comm]

theorem pays_bitAt {pc : Pc} {k : Nat} (hown : Pays text pc (.ownership k)) : Pays text pc (bitAt k) := by
  unfold bitAt
  split
  · exact hown
  · exact ⟨hown.time, Nat.lt_of_le_of_lt (by simp only [Pc.statementsLeft]; omega) hown.statement⟩

/-! The phases of a client, in the order in which it goes through them. -/

theorem start_pays : Pays text .start (.validate 1) := by
  have hattempt : attemptStatements = 4 * (RETRY_INTERVALS + 1) + 5 := rfl
  constructor
  · have hfirst : retriesTime RETRY_TIMES = attemptTime 1 + retriesTime (RETRY_TIMES - 1) :=
      retriesTime_succ (a := 0) (by decide)
    simp only [Pc.sleeps, Pc.timeLeft, hfirst]
    omega
  · have hfirst : attemptStatements * RETRY_TIMES = attemptStatements + attemptStatements * (RETRY_TIMES - 1) :=
      mul_left_succ (k := 0) (by decide) attemptStatements
    simp only [Pc.statementsLeft]
    omega

theorem attempt_pays {a : Nat} (hpc : pc = .validate a ∨ pc = .sendPing a)
    (hs : next serverPid alive myPid text ⟨pc, server⟩ = some (t', sent)) : Pays text pc t'.pc := by
  have hattempt : attemptStatements = 4 * (RETRY_INTERVALS + 1) + 5 := rfl
  rcases hpc with rfl | rfl
  · cases hs
    cases alive
    · exact pays_exited _ false rfl (by simp [Pc.statementsLeft])
    · exact ⟨by simp [Pc.sleeps, Pc.timeLeft, Thread.goto], by simp [Pc.statementsLeft, Thread.goto]⟩
  · cases alive <;> cases hs
    · exact pays_exited _ false rfl (by simp [Pc.statementsLeft])
    · constructor
      · simp only [Pc.sleeps, Pc.timeLeft, Thread.goto, attemptTime]
        omega
      · have hpolls : (totalSleep + sleepTime - 0) / sleepTime = RETRY_INTERVALS + 1 := by decide
        simp only [Pc.statementsLeft, Thread.goto, hpolls]
        omega

theorem poll_pays {a i : Nat}
    (hpc : pc = .poll a i ∨ pc = .pollSleep a i ∨ pc = .pollLook a i ∨ pc = .pollNext a i)
    (hs : next serverPid alive myPid text ⟨pc, server⟩ = some (t', sent)) : Pays text pc t'.pc := by
  rcases hpc with rfl | rfl | rfl | rfl
  · cases hs
    split
    · rename_i hle
      constructor
      · simp only [Pc.sleeps, Pc.timeLeft, Thread.goto]
        omega
      · simp only [Pc.statementsLeft, Thread.goto, pollsLeft hle]
        omega
    · constructor
      · simp only [Pc.sleeps, Pc.timeLeft, Thread.goto]
        omega
      · simp only [Pc.statementsLeft, Thread.goto]
        omega
  · cases hs
    constructor
    · simp only [Pc.sleeps, Pc.timeLeft, Thread.goto]
      omega
    · simp only [Pc.statementsLeft, Thread.goto]
      omega
  · cases hs
    split
    · constructor
      · simp only [Pc.sleeps, Pc.timeLeft, Thread.goto]
        omega
      · simp only [Pc.statementsLeft, Thread.goto]
        omega
    · exact ⟨by simp [Pc.sleeps, Pc.timeLeft, Thread.goto], by simp [Pc.statementsLeft, Thread.goto]⟩
  · cases hs
    have hi : totalSleep + sleepTime - (i + sleepTime) = totalSleep - i := Nat.add_sub_add_right _ _ _
    exact ⟨by simp [Pc.sleeps, Pc.timeLeft, Thread.goto, hi], by simp [Pc.statementsLeft, Thread.goto, hi]⟩

theorem retry_pays {a : Nat} (hpc : pc = .retryDelay a ∨ pc = .retryTest a)
    (hs : next serverPid alive myPid text ⟨pc, server⟩ = some (t', sent)) : Pays text pc t'.pc := by
  rcases hpc with rfl | rfl
  · cases hs
    constructor
    · simp only [Pc.sleeps, Pc.timeLeft, Thread.goto]
      omega
    · simp only [Pc.statementsLeft, Thread.goto]
      omega
  · cases hs
    split
    · rename_i hlt
      constructor
      · simp only [Pc.sleeps, Pc.timeLeft, Thread.goto, retriesTime_succ hlt]
        omega
      · simp only [Pc.statementsLeft, Thread.goto, mul_left_succ hlt]
        omega
    · exact pays_exited _ false rfl (by simp [Pc.statementsLeft])

/-- The slot is free, so the client does not wait for it. -/
theorem slot_pays (h : Kept myPid text ⟨pc, server⟩) (hpc : pc = .connected ∨ pc = .slotTest ∨ pc = .takeSlot)
    (hs : next serverPid alive myPid text ⟨pc, server⟩ = some (t', sent)) : Pays text pc t'.pc := by
  rcases hpc with rfl | rfl | rfl
  · cases hs
    exact ⟨by simp [Pc.sleeps, Pc.timeLeft, Thread.goto], by simp [Pc.statementsLeft, Thread.goto]⟩
  · cases hs
    rw [h.free rfl]
    exact ⟨by simp [Pc.sleeps, Pc.timeLeft, Thread.goto], by simp [Pc.statementsLeft, Thread.goto]⟩
  · cases hs
    show Pays text .takeSlot (bitAt 0)
    exact pays_bitAt ⟨by simp [Pc.sleeps, Pc.timeLeft], by simp [Pc.statementsLeft]⟩

theorem sendBit_pays {k : Nat} (h : Kept myPid text ⟨pc, server⟩)
    (hpc : pc = .ownership k ∨ pc = .checkServer k ∨ pc = .sendSignal k)
    (hs : next serverPid alive myPid text ⟨pc, server⟩ = some (t', sent)) : Pays text pc t'.pc := by
  have hack : ackTime = 100 * (MAX_TIMEOUT + 1) := rfl
  have hbit : bitStatements = 4 * (MAX_TIMEOUT + 1) + 4 := rfl
  rcases hpc with rfl | rfl | rfl
  · cases hs
    rw [h.owned rfl]
    exact ⟨by simp [Pc.sleeps, Pc.timeLeft, Thread.goto], by simp [Pc.statementsLeft, Thread.goto]⟩
  · cases hs
    cases alive
    · exact pays_exited _ false rfl (by simp [Pc.statementsLeft])
    · exact ⟨by simp [Pc.sleeps, Pc.timeLeft, Thread.goto], by simp [Pc.statementsLeft, Thread.goto]⟩
  · cases alive
    · cases hs
      exact pays_exited _ false rfl (by simp [Pc.statementsLeft])
    · obtain ⟨_, hsig, heq⟩ := Option.map_eq_some_iff.mp hs
      cases heq
      have hk : k < text.signalCount := length_startTransmission text ▸ (List.getElem?_eq_some_iff.mp hsig).1
      constructor
      · simp only [Pc.sleeps, Pc.timeLeft, Thread.goto, Nat.mul_comm _ ackTime, mul_left_succ hk]
        omega
      · simp only [Pc.statementsLeft, Thread.goto, mul_left_succ hk]
        omega

theorem ack_pays {k n : Nat} (h : Kept myPid text ⟨pc, server⟩)
    (hpc : pc = .ackLoop k n ∨ pc = .ackSleep k n ∨ pc = .ackOwnership k n ∨ pc = .ackTimeout k n)
    (hs : next serverPid alive myPid text ⟨pc, server⟩ = some (t', sent)) : Pays text pc t'.pc := by
  rcases hpc with rfl | rfl | rfl | rfl
  · cases hs
    split
    · constructor
      · simp only [Pc.sleeps, Pc.timeLeft, Thread.goto]
        omega
      · simp only [Pc.statementsLeft, Thread.goto]
        omega
    · exact ⟨by simp [Pc.sleeps, Pc.timeLeft, Thread.goto], by simp [Pc.statementsLeft, Thread.goto]⟩
  · cases hs
    constructor
    · simp only [Pc.sleeps, Pc.timeLeft, Thread.goto]
      omega
    · simp only [Pc.statementsLeft, Thread.goto]
      omega
  · cases hs
    rw [if_neg (fun hlost => absurd (hlost.2.symm.trans (h.owned rfl)) (by decide))]
    exact ⟨by simp [Pc.sleeps, Pc.timeLeft, Thread.goto], by simp [Pc.statementsLeft, Thread.goto]⟩
  · cases hs
    split
    · exact pays_exited _ false rfl (by simp [Pc.statementsLeft])
    · constructor
      · simp only [Pc.sleeps, Pc.timeLeft, Thread.goto]
        omega
      · simp only [Pc.statementsLeft, Thread.goto]
        omega

theorem ackReset_pays {k : Nat} (hs : next serverPid alive myPid text ⟨.ackReset k, server⟩ = some (t', sent)) :
    Pays text (.ackReset k) t'.pc := by
  cases hs
  split
  · show Pays text (.ackReset k) (bitAt (k + 1))
    exact pays_bitAt ⟨by simp [Pc.sleeps, Pc.timeLeft], by simp [Pc.statementsLeft]⟩
  · exact ⟨by simp [Pc.sleeps, Pc.timeLeft], by simp [Pc.statementsLeft]⟩

theorem next_pays (h : Kept myPid text t) (hs : next serverPid alive myPid text t = some (t', sent)) :
    Pays text t.pc t'.pc := by
  obtain ⟨pc, server⟩ := t
  cases pc with
  | absent | paused | exited delivered => cases hs
  | slotLoop n | slotSleep n | slotCheck n | slotLimit n => exact nomatch h.fast
  | start =>
    cases hs
    exact start_pays
  | validate a => exact attempt_pays (Or.inl rfl) hs
  | sendPing a => exact attempt_pays (Or.inr rfl) hs
  | poll a i => exact poll_pays (Or.inl rfl) hs
  | pollSleep a i => exact poll_pays (Or.inr (Or.inl rfl)) hs
  | pollLook a i => exact poll_pays (Or.inr (Or.inr (Or.inl rfl))) hs
  | pollNext a i => exact poll_pays (Or.inr (Or.inr (Or.inr rfl))) hs
  | retryDelay a => exact retry_pays (Or.inl rfl) hs
  | retryTest a => exact retry_pays (Or.inr rfl) hs
  | connected => exact slot_pays h (Or.inl rfl) hs
  | slotTest => exact slot_pays h (Or.inr (Or.inl rfl)) hs
  | takeSlot => exact slot_pays h (Or.inr (Or.inr rfl)) hs
  | ownership k => exact sendBit_pays h (Or.inl rfl) hs
  | checkServer k => exact sendBit_pays h (Or.inr (Or.inl rfl)) hs
  | sendSignal k => exact sendBit_pays h (Or.inr (Or.inr rfl)) hs
  | ackLoop k n => exact ack_pays h (Or.inl rfl) hs
  | ackSleep k n => exact ack_pays h (Or.inr (Or.inl rfl)) hs
  | ackOwnership k n => exact ack_pays h (Or.inr (Or.inr (Or.inl rfl))) hs
  | ackTimeout k n => exact ack_pays h (Or.inr (Or.inr (Or.inr rfl))) hs
  | ackReset k => exact ackReset_pays hs

end Left

/-! ### Whole runs -/

def statements (_ : Thread) : Thread.Event → Nat
  | .statement _ => 1
  | .signal _ _ => 0

def slept (t : Thread) : Thread.Event → Nat
  | .statement _ => t.pc.sleeps
  | .signal _ _ => 0

section Runs
variable {serverPid myPid : Pid} {text : Text} {t t' : Thread} {events : List Thread.Event}

/-- A signal leaves the process where it is, or it leaves. -/
theorem deliver_left (text : Text) (myPid : Pid) (signum : Signum) (siPid : Pid) (t : Thread) :
    (t.deliver myPid signum siPid).pc.timeLeft text ≤ t.pc.timeLeft text ∧
      (t.deliver myPid signum siPid).pc.statementsLeft text ≤ t.pc.statementsLeft text := by
  obtain ⟨server, heq | ⟨delivered, heq⟩, -⟩ := deliver_inv myPid signum siPid t <;> rw [heq]
  · exact ⟨Nat.le_refl _, Nat.le_refl _⟩
  · exact ⟨Nat.zero_le _, Nat.zero_le _⟩

theorem step_pays {e : Thread.Event} (h : Kept myPid text t) (hs : (thread serverPid myPid text).step t e = some t') :
    slept t e + t'.pc.timeLeft text ≤ t.pc.timeLeft text ∧
      statements t e + t'.pc.statementsLeft text ≤ t.pc.statementsLeft text := by
  cases e with
  | statement alive =>
    obtain ⟨⟨_, sent⟩, hnext, rfl⟩ := Option.map_eq_some_iff.mp hs
    have hpays := next_pays h hnext
    have hlt := hpays.statement
    refine ⟨hpays.time, ?_⟩
    simp only [statements]
    omega
  | signal signum siPid =>
    cases hs
    obtain ⟨htime, hstatements⟩ := deliver_left text myPid signum siPid t
    exact ⟨by simpa [slept] using htime, by simpa [statements] using hstatements⟩

/-- What the run of a fresh client costs, and where its statements end. -/
theorem client_bounded (hrun : (thread serverPid myPid text).run .fresh events = some t) :
    (thread serverPid myPid text).cost slept .fresh events ≤ 103200000 + 5000100 * text.signalCount ∧
      (thread serverPid myPid text).cost statements .fresh events ≤ 8187 + 200008 * text.signalCount ∧
      (next serverPid true myPid text t = none → t.pc = .paused ∨ ∃ delivered, t.pc = .exited delivered) := by
  have hok := Transition.meets_true (t := thread serverPid myPid text) .fresh events
  have htime := Transition.cost_le (I := Kept myPid text) (c := slept) (m := fun t => t.pc.timeLeft text)
    (fun _ _ _ h _ hs => ⟨h.step hs, (step_pays h hs).1⟩) kept_fresh hok hrun
  have hstatements := Transition.cost_le (I := Kept myPid text) (c := statements)
    (m := fun t => t.pc.statementsLeft text) (fun _ _ _ h _ hs => ⟨h.step hs, (step_pays h hs).2⟩) kept_fresh hok hrun
  have htotal : Thread.fresh.pc.timeLeft text = 103200000 + 5000100 * text.signalCount := by
    rw [Nat.mul_comm]
    rfl
  have hcount : Thread.fresh.pc.statementsLeft text = 8187 + 200008 * text.signalCount := rfl
  exact ⟨by omega, by omega, stops hrun⟩

/-- The server is gone after the first ping. -/
def losesServer : List Thread.Event :=
  List.replicate 3 (.statement true) ++ List.replicate 408 (.statement false)

theorem client_bounded_lost : ∃ t, (thread 1 2 textABC).run .fresh losesServer = some t ∧
    t.pc = .exited false ∧ (thread 1 2 textABC).cost slept .fresh losesServer ≤ 383205600 := by
  have hpc : ((thread 1 2 textABC).run .fresh losesServer).map Thread.pc = some (.exited false) := by
    decide +kernel
  obtain ⟨t, hrun, hpc⟩ := Option.map_eq_some_iff.mp hpc
  exact ⟨t, hrun, hpc, (client_bounded hrun).1⟩

end Runs

end Minitalk.Client
