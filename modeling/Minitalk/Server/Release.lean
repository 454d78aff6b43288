import Minitalk.Server.Monitor

/-! # The timeout frees the server (`keep_server_up`, `monitor_client_timeout`)

A client that has died leaves its session open. The main loop ends it: as long as no signal of the session's client
arrives, and whatever signals of others do, `clean_global` zeroes the record within a bounded number of statements
and of sleeps. -/

namespace Minitalk.Server

/-! ### What is left to do -/

/-- The statements of `clean_global` up to the one that zeroes the record. -/
def CleanPc.left : CleanPc → Nat
  | .activity => 8
  | .test => 7
  | .free => 6
  | .clear => 5
  | .resetTest => 4
  | .resetFree => 3
  | .resetClear => 2
  | .bzero => 1
  | _ => 0

/-- The statements behind it. -/
def CleanPc.behind : CleanPc → Nat
  | .header => 4
  | .size => 3
  | .active => 2
  | .done => 1
  | _ => 0

/-- The loop of `monitor_client_timeout` from `i` on without activity, `handle_timeout` and `clean_global`. -/
def quietLeft (i : Nat) : Nat := 5 * (TIMEOUT - i) + 10

/-- The whole loop; what has happened before it costs one more turn. -/
def loopLeft (active : Bool) (i : Nat) : Nat := if active then quietLeft 0 + 6 else quietLeft i

/-- How many statements the main loop has left before it zeroes the record, at most. -/
def MainLoop.left (c : MainLoop) : Nat :=
  let active := c.server.client.clientActivity
  match c.pc with
  | .idle => loopLeft active 0 + 5
  | .status => loopLeft active 0 + 4
  | .greet => loopLeft active 0 + 3
  | .remember => loopLeft active 0 + 2
  | .start => loopLeft active 0 + 1
  | .loop => loopLeft active c.i
  | .sleep => if active then quietLeft 0 + 5 else quietLeft (c.i + 1) + 4
  | .disconnection => if active then quietLeft 0 + 4 else quietLeft (c.i + 1) + 3
  | .activity => if active then quietLeft 0 + 3 else quietLeft (c.i + 1) + 2
  | .reset => quietLeft 0 + 2
  | .restart => loopLeft active 0 + 1
  | .count => loopLeft active (c.i + 1) + 1
  | .timeout => if TIMEOUT ≤ c.i then 9 else loopLeft active 0 + 5
  | .clean pc => if pc.left = 0 then pc.behind + loopLeft active 0 + 4 else pc.left

/-- The sleeps of a whole loop; what has happened before it costs one more. -/
def loopSleeps (active : Bool) : Nat := if active then TIMEOUT + 1 else TIMEOUT

/-- How many times it sleeps until then, at most. -/
def MainLoop.sleepsLeft (c : MainLoop) : Nat :=
  let active := c.server.client.clientActivity
  match c.pc with
  | .loop => if active then TIMEOUT + 1 else TIMEOUT - c.i
  | .sleep => if active then TIMEOUT + 1 else TIMEOUT - (c.i + 1) + 1
  | .disconnection | .activity => if active then TIMEOUT else TIMEOUT - (c.i + 1)
  | .reset => TIMEOUT
  | .count => if active then TIMEOUT + 1 else TIMEOUT - (c.i + 1)
  | .timeout => if TIMEOUT ≤ c.i then 0 else loopSleeps active
  | .clean pc => if pc.left = 0 then loopSleeps active else 0
  | _ => loopSleeps active

theorem left_pos (c : MainLoop) : 0 < c.left := by
  obtain ⟨server, pc, i, lastPid⟩ := c
  have hquiet : ∀ i, 0 < quietLeft i := fun i => Nat.succ_pos _
  have hloop : ∀ active i, 0 < loopLeft active i := fun active i => by
    unfold loopLeft
    split
    · exact Nat.succ_pos _
    · exact hquiet i
  cases pc with
  | loop => exact hloop _ _
  | clean pc =>
    simp only [MainLoop.left]
    split
    · omega
    · exact Nat.pos_of_ne_zero ‹_›
  | _ =>
    simp only [MainLoop.left]
    first | exact Nat.succ_pos _ | (split <;> exact Nat.succ_pos _)

/-- The bounds of both, wherever the main loop is. -/
theorem left_le (c : MainLoop) : c.left ≤ 250024 ∧ c.sleepsLeft ≤ 50001 := by
  obtain ⟨server, pc, i, lastPid⟩ := c
  have hT : TIMEOUT = 50000 := rfl
  have hquiet : ∀ i, quietLeft i ≤ 250010 := fun i => by
    unfold quietLeft
    omega
  have hloop : ∀ active i, loopLeft active i ≤ 250016 := fun active i => by
    unfold loopLeft
    split
    · exact Nat.add_le_add_right (hquiet 0) 6
    · exact (hquiet i).trans (by decide)
  have h0 := hloop server.client.clientActivity 0
  have hi := hloop server.client.clientActivity i
  have hnext := hloop server.client.clientActivity (i + 1)
  have hsleeps : loopSleeps server.client.clientActivity ≤ 50001 := by
    unfold loopSleeps
    split <;> omega
  have hq0 := hquiet 0
  have hqnext := hquiet (i + 1)
  cases pc with
  | clean pc =>
    have hleft : pc.left ≤ 8 ∧ pc.behind ≤ 4 := by cases pc <;> decide
    simp only [MainLoop.left, MainLoop.sleepsLeft]
    constructor <;> (repeat' split) <;> omega
  | _ =>
    simp only [MainLoop.left, MainLoop.sleepsLeft]
    constructor <;> (repeat' split) <;> omega

/-! ### A statement of the main loop -/

/-- A statement of the main loop, with a session open: it zeroes the record, or lowers what is left. -/
theorem mainStep_left {c : MainLoop} (hact : c.server.client.actualPid ≠ 0) :
    ((mainStep c).server.client.actualPid = 0 ∧ (if c.pc = .sleep then 1 else 0) ≤ c.sleepsLeft) ∨
      ((mainStep c).left + 1 ≤ c.left ∧
        (mainStep c).sleepsLeft + (if c.pc = .sleep then 1 else 0) ≤ c.sleepsLeft) := by
  obtain ⟨server, pc, i, lastPid⟩ := c
  have hpos : 0 < server.client.actualPid := Nat.pos_of_ne_zero hact
  have hT : TIMEOUT = 50000 := rfl
  cases pc with
  | status =>
    right
    simp [mainStep, hact, MainLoop.left, MainLoop.sleepsLeft]
  | idle =>
    right
    simp [mainStep, MainLoop.left, MainLoop.sleepsLeft]
  | greet =>
    right
    simp only [mainStep]
    split <;> simp [MainLoop.left, MainLoop.sleepsLeft]
  | remember =>
    right
    simp [mainStep, MainLoop.left, MainLoop.sleepsLeft]
  | start =>
    right
    cases hflag : server.client.clientActivity <;>
      simp [mainStep, MainLoop.left, MainLoop.sleepsLeft, loopSleeps, hflag]
  | loop =>
    right
    simp only [mainStep]
    by_cases hi : i < TIMEOUT
    · rw [if_pos hi]
      cases hflag : server.client.clientActivity <;>
        simp [MainLoop.left, MainLoop.sleepsLeft, loopLeft, quietLeft, hflag]
      omega
    · rw [if_neg hi]
      have hi : TIMEOUT ≤ i := by omega
      cases hflag : server.client.clientActivity <;>
        simp [MainLoop.left, MainLoop.sleepsLeft, loopLeft, quietLeft, hflag, hi]
  | sleep =>
    right
    cases hflag : server.client.clientActivity <;> simp [mainStep, MainLoop.left, MainLoop.sleepsLeft, hflag]
  | disconnection =>
    right
    cases hflag : server.client.clientActivity <;>
      simp [mainStep, MainLoop.left, MainLoop.sleepsLeft, hact, hflag]
  | activity =>
    right
    cases hflag : server.client.clientActivity <;>
      simp [mainStep, MainLoop.left, MainLoop.sleepsLeft, loopLeft, hflag]
  | reset =>
    right
    simp [mainStep, MainLoop.left, MainLoop.sleepsLeft, loopLeft, loopSleeps]
  | restart =>
    right
    cases hflag : server.client.clientActivity <;>
      simp [mainStep, MainLoop.left, MainLoop.sleepsLeft, loopSleeps, hflag]
  | count =>
    right
    cases hflag : server.client.clientActivity <;>
      simp [mainStep, MainLoop.left, MainLoop.sleepsLeft, hflag]
  | timeout =>
    right
    simp only [mainStep]
    by_cases hi : TIMEOUT ≤ i
    · simp [MainLoop.left, MainLoop.sleepsLeft, hi, hpos, CleanPc.left]
    · simp [MainLoop.left, MainLoop.sleepsLeft, hi]
  | clean pc =>
    cases pc with
    | bzero => exact Or.inl ⟨rfl, Nat.zero_le _⟩
    | test | resetTest =>
      right
      simp only [mainStep, cleanStep]
      split <;> simp [MainLoop.left, MainLoop.sleepsLeft, CleanPc.left]
    | header | size | active | done =>
      right
      simp only [mainStep, cleanStep, MainLoop.left, MainLoop.sleepsLeft, CleanPc.left, CleanPc.behind, if_true,
        reduceCtorEq, if_false]
      omega
    | _ =>
      right
      simp [mainStep, cleanStep, MainLoop.left, MainLoop.sleepsLeft, CleanPc.left, freeMessage]

theorem mainStep_exited (c : MainLoop) : (mainStep c).server.exited = c.server.exited := by
  obtain ⟨server, pc, i, lastPid⟩ := c
  cases pc with
  | clean pc => cases pc <;> rfl
  | _ => rfl

/-! ### Every continuation -/

def executes (_ : MainLoop) (a : Action) : Bool := decide (a = .main)

/-- The main loop executes `usleep(SLEEP_TIME)`. -/
def sleeps (c : MainLoop) (a : Action) : Bool := decide (a = .main ∧ c.pc = .sleep)

section Release
variable {env : Env} {c : MainLoop}

/-- A signal that is not the client's, or a statement of the main loop: it ends the session, or leaves less to do. -/
theorem step_left (hex : c.server.exited = false) (hact : c.server.client.actualPid ≠ 0) {a : Action}
    (hquiet : ¬Touches c a) :
    let c' := ((system env).step c a).1
    (c'.server.client.actualPid = 0 ∧ (if sleeps c a then 1 else 0) ≤ c.sleepsLeft) ∨
      ((c'.server.exited = false ∧ c'.server.client.actualPid ≠ 0) ∧
        c'.left + (if executes c a then 1 else 0) ≤ c.left ∧
        c'.sleepsLeft + (if sleeps c a then 1 else 0) ≤ c.sleepsLeft) := by
  cases a with
  | signal signum siPid =>
    have hsame : ((system env).step c (.signal signum siPid)).1 = c := by
      rw [step_signal env hex, signalHandler_of_foreign env hact hquiet]
    simp only [hsame]
    exact Or.inr ⟨⟨hex, hact⟩, Nat.le_refl _, Nat.le_refl _⟩
  | main =>
    have hexecutes : executes c .main = true := rfl
    have hsleeps : (if sleeps c .main then 1 else 0) = if c.pc = .sleep then 1 else 0 := by simp [sleeps]
    simp only [step_main env hex, hexecutes, hsleeps, if_true]
    rcases mainStep_left hact with hzero | hleft
    · exact Or.inl hzero
    · by_cases hzero : (mainStep c).server.client.actualPid = 0
      · exact Or.inl ⟨hzero, (Nat.le_add_left _ _).trans hleft.2⟩
      · exact Or.inr ⟨⟨(mainStep_exited c).trans hex, hzero⟩, hleft⟩

/-- From any state: a session that receives no more signals of its client is over after 250024 statements of the main
    loop at the latest, and after 50001 of its sleeps; signals of others do not prolong it. -/
theorem server_released (hex : c.server.exited = false) {acts : List Action}
    (hquiet : (system env).Meets (fun c a => ¬Touches c a) c acts)
    (henough : 250024 ≤ (system env).ticks executes c acts) :
    ∃ before rest, acts = before ++ rest ∧ ((system env).run c before).server.client.actualPid = 0 ∧
      (system env).ticks sleeps c before ≤ 50001 := by
  by_cases hact : c.server.client.actualPid = 0
  · exact ⟨[], acts, rfl, hact, Nat.zero_le _⟩
  · obtain ⟨before, rest, hacts, hzero, hsleeps⟩ := Machine.reaches (c := sleeps)
      (I := fun c => c.server.exited = false ∧ c.server.client.actualPid ≠ 0)
      (G := fun c => c.server.client.actualPid = 0) (fun c _ => left_pos c)
      (fun c a h hquiet => step_left h.1 h.2 hquiet) ⟨hex, hact⟩ hquiet ((left_le c).1.trans henough)
    exact ⟨before, rest, hacts, hzero, hsleeps.trans (left_le c).2⟩

/-- The client 2 has died after its first ping. -/
def abandoned : MainLoop := { server := { initial with client := connected 2 } }

theorem server_released_abandoned :
    let env : Env := { serverPid := 1, serverPid_pos := by decide, mallocOk := fun _ => true }
    ∃ before rest, List.replicate 250024 Action.main = before ++ rest ∧
      ((system env).run abandoned before).server.client.actualPid = 0 ∧
        (system env).ticks sleeps abandoned before ≤ 50001 := by
  intro env
  refine server_released rfl (Machine.meets_of_forall (fun c a ha => ?_) _) ?_
  · rw [List.eq_of_mem_replicate ha]
    exact id
  · have hall : ∀ c, ∀ a ∈ List.replicate 250024 Action.main, executes c a = true := fun c a ha =>
      decide_eq_true (List.eq_of_mem_replicate ha)
    rw [Machine.ticks_of_forall hall, List.length_replicate]

end Release

end Minitalk.Server
