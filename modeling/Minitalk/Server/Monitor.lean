import Minitalk.Server.Cleanup

/-! # The main loop and its timeout (`keep_server_up`, `monitor_client_timeout`)

The main loop executes one statement at a time, and the handler may run between any two. A session is discarded for
inactivity by `clean_global`, which the loop enters on the count of its polls and on `actual_pid` alone. -/

namespace Minitalk.Server

def TIMEOUT : Nat := 50000

/-- The statement that the main loop executes next. -/
inductive MainPc where
  /-- `check_clean_status`: is there a client? -/
  | status
  | idle
  | greet
  | remember
  /-- `monitor_client_timeout`. -/
  | start
  | loop
  | sleep
  /-- `check_client_disconnection`. -/
  | disconnection
  /-- `check_client_activity`. -/
  | activity
  | reset
  | restart
  | count
  /-- `handle_timeout`. -/
  | timeout
  | clean (pc : CleanPc)
deriving DecidableEq

/-- The server with its main loop: the next statement, the local `i` and the static `last_pid`. -/
structure MainLoop where
  server : State := initial
  pc : MainPc := .status
  i : Nat := 0
  lastPid : Pid := 0
deriving DecidableEq

def mainStep (c : MainLoop) : MainLoop :=
  match c.pc with
  | .status => { c with pc := if c.server.client.actualPid = 0 then .idle else .greet }
  | .idle => { c with lastPid := 0, pc := .status }
  | .greet => { c with pc := if c.lastPid ≠ c.server.client.actualPid then .remember else .start }
  | .remember => { c with lastPid := c.server.client.actualPid, pc := .start }
  | .start => { c with i := 0, pc := .loop }
  | .loop => { c with pc := if c.i < TIMEOUT then .sleep else .timeout }
  | .sleep => { c with pc := .disconnection }
  | .disconnection => { c with pc := if c.server.client.actualPid = 0 then .status else .activity }
  | .activity => { c with pc := if c.server.client.clientActivity then .reset else .count }
  | .reset => { c with server.client.clientActivity := false, pc := .restart }
  | .restart => { c with i := 0, pc := .loop }
  | .count => { c with i := c.i + 1, pc := .loop }
  | .timeout => { c with pc := if TIMEOUT ≤ c.i ∧ 0 < c.server.client.actualPid then .clean .activity else .status }
  | .clean .done => { c with pc := .status }
  | .clean pc => { c with server := (cleanStep pc c.server).2, pc := .clean (cleanStep pc c.server).1 }

inductive Action where
  | signal (signum : Signum) (siPid : Pid)
  | main
deriving DecidableEq

def system (env : Env) : Machine MainLoop Action Effect where
  step c a :=
    if c.server.exited then (c, [])
    else match a with
      | .signal signum siPid =>
        ({ c with server := (signalHandler env signum siPid c.server).1 }, (signalHandler env signum siPid c.server).2)
      | .main => (mainStep c, [])

/-- The process after the actions. -/
abbrev after (env : Env) (acts : List Action) : MainLoop := (system env).run {} acts

/-! ### Inactivity -/

/-- The signal counts as one of the client that the server has. -/
def Touches (c : MainLoop) : Action → Prop
  | .signal signum siPid => lostSignal c.server.client siPid signum = c.server.client.actualPid
  | .main => False

/-- A poll: the loop looks at `client_activity`. -/
def polls (c : MainLoop) (a : Action) : Bool := decide (a = .main ∧ c.pc = .activity)

/-- The session of `pid` has been open, and has received no signal, for the last `n` polls and since. -/
def Inactive (env : Env) (n : Nat) (pid : Pid) (acts : List Action) : Prop :=
  (system env).Lasting (·.server.client.actualPid = pid) (fun c a => ¬Touches c a) polls n {} acts

/-- The main loop is about to enter `clean_global`, or to zero the record, while a session is open. -/
def Cleans (c : MainLoop) : Prop :=
  c.server.exited = false ∧ c.server.client.actualPid ≠ 0 ∧ (c.pc = .clean .activity ∨ c.pc = .clean .bzero)

/-- `clean_global` is entered after `TIMEOUT` inactive polls only, and no session is discarded that was opened or
    received a signal after the last poll. -/
def Justified (env : Env) (acts : List Action) : Prop :=
  let c := after env acts
  (c.pc = .clean .activity → Inactive env TIMEOUT c.server.client.actualPid acts) ∧
    (c.pc = .clean .bzero → Inactive env 1 c.server.client.actualPid acts)

/-! ### What a handler does to the session -/

section Handler
variable {env : Env} {s : State} {signum : Signum} {siPid : Pid}

/-- The session is over, or it is the same and `client_activity` as before. -/
def Keeps (s t : State) : Prop :=
  t.client.actualPid = 0 ∨
    t.client.actualPid = s.client.actualPid ∧ t.client.clientActivity = s.client.clientActivity

theorem keeps_handleHeader (env : Env) (signum : Signum) (s : State) : Keeps s (handleHeader env signum s) := by
  obtain ⟨c, hpid, hflag, hc⟩ := handleHeader_shape env signum s
  rw [hc]
  split
  · split
    · unfold memoryReserveToStoreSignals
      split <;> exact Or.inr ⟨hpid, hflag⟩
    · exact Or.inl rfl
  · exact Or.inr ⟨hpid, hflag⟩

theorem keeps_handleMsg (signum : Signum) (s : State) : Keeps s (handleMsg signum s).1 := by
  rw [handleMsg_eq]
  dsimp only
  split
  · split
    · rw [handleCompleteMessage_fst]
      exact Or.inl rfl
    · exact Or.inr ⟨rfl, rfl⟩
  · exact Or.inr ⟨rfl, rfl⟩

theorem keeps_processDataSignal (env : Env) (signum : Signum) (s : State) :
    Keeps s (processDataSignal env signum s).1 := by
  rw [processDataSignal_fst]
  split
  · exact keeps_handleMsg signum s
  · split
    · exact keeps_handleHeader env signum s
    · exact Or.inr ⟨rfl, rfl⟩

/-- A signal that the server does not take changes nothing; one that it takes ends the session or leaves
    `client_activity` set. -/
theorem signalHandler_session (signum : Signum) (siPid : Pid) (hother : s.client.actualPid ≠ env.serverPid) :
    let t := (signalHandler env signum siPid s).1
    t.client.actualPid ≠ env.serverPid ∧
      ((t = s ∧ lostSignal s.client siPid signum ≠ s.client.actualPid) ∨
        t.client.actualPid = 0 ∨ t.client.clientActivity = true) := by
  by_cases hself : lostSignal s.client siPid signum = env.serverPid
  · have hfst : (signalHandler env signum siPid s).1 = s := by simp only [signalHandler, hself, if_true]
    rw [hfst]
    exact ⟨hother, Or.inl ⟨rfl, fun h => hother (h.symm.trans hself)⟩⟩
  · by_cases hact : s.client.actualPid = 0
    · have hfst : (signalHandler env signum siPid s).1 =
          { s with client := connected (lostSignal s.client siPid signum) } := by
        simp only [signalHandler, hself, if_false, handleNewClient_of_idle hact]
      rw [hfst]
      exact ⟨hself, Or.inr (Or.inr rfl)⟩
    · by_cases hown : lostSignal s.client siPid signum = s.client.actualPid
      · rw [signalHandler_own env s signum siPid hact hother hown]
        rcases keeps_processDataSignal env signum (receiving s) with hzero | ⟨hpid, hflag⟩
        · exact ⟨by rw [hzero]; exact env.serverPid_pos.ne, Or.inr (Or.inl hzero)⟩
        · exact ⟨by rw [hpid]; exact hother, Or.inr (Or.inr hflag)⟩
      · rw [signalHandler_of_foreign env hact hown]
        exact ⟨hother, Or.inl ⟨rfl, hown⟩⟩

end Handler

/-! ### What a statement of the main loop does to the session -/

section Main

theorem mainStep_actualPid {c : MainLoop} (h : c.pc ≠ .clean .bzero) :
    (mainStep c).server.client.actualPid = c.server.client.actualPid := by
  obtain ⟨server, pc, i, lastPid⟩ := c
  cases pc with
  | clean pc => cases pc <;> first | rfl | exact absurd rfl h
  | _ => rfl

theorem mainStep_clientActivity {c : MainLoop} (hr : c.pc ≠ .reset) (ha : c.pc ≠ .clean .activity)
    (hb : c.pc ≠ .clean .bzero) :
    (mainStep c).server.client.clientActivity = c.server.client.clientActivity := by
  obtain ⟨server, pc, i, lastPid⟩ := c
  cases pc with
  | clean pc => cases pc <;> first | rfl | exact absurd rfl ha | exact absurd rfl hb
  | reset => exact absurd rfl hr
  | _ => rfl

/-- The main loop never sets `client_activity`. -/
theorem clientActivity_of_mainStep {c : MainLoop} (h : (mainStep c).server.client.clientActivity = true) :
    c.server.client.clientActivity = true ∧ c.pc ≠ .reset := by
  by_cases hr : c.pc = .reset
  · rw [mainStep, hr] at h
    cases h
  · by_cases ha : c.pc = .clean .activity
    · rw [mainStep, ha] at h
      cases h
    · by_cases hb : c.pc = .clean .bzero
      · rw [mainStep, hb] at h
        cases h
      · exact ⟨by rwa [mainStep_clientActivity hr ha hb] at h, hr⟩

/-- How many polls in a row have found no activity, at least, when `client_activity` is 0. -/
def quietPolls : MainPc → Nat → Nat
  | .loop, i | .sleep, i | .disconnection, i | .activity, i | .timeout, i => i
  | .count, i => i + 1
  | .clean .done, _ => 0
  | .clean _, _ => TIMEOUT
  | _, _ => 0

theorem quietPolls_mainStep (c : MainLoop) :
    quietPolls (mainStep c).pc (mainStep c).i ≤ quietPolls c.pc c.i + if polls c .main then 1 else 0 := by
  obtain ⟨server, pc, i, lastPid⟩ := c
  cases pc with
  | status | greet | loop | disconnection | activity =>
    simp only [mainStep]
    split <;> simp [quietPolls, polls]
  | timeout =>
    simp only [mainStep]
    split
    · rename_i h
      exact h.1.trans (Nat.le_add_right _ _)
    · exact Nat.zero_le _
  | clean pc =>
    cases pc with
    | test | resetTest =>
      simp only [mainStep, cleanStep]
      split <;> exact Nat.le_refl _
    | _ => simp [mainStep, cleanStep, quietPolls, polls]
  | _ => simp [mainStep, quietPolls, polls]

end Main

/-! ### Runs -/

section Runs
variable {env : Env} {acts : List Action}

theorem after_append (env : Env) (acts more : List Action) :
    after env (acts ++ more) = (system env).run (after env acts) more := Machine.run_append ..

theorem after_concat (env : Env) (acts : List Action) (a : Action) :
    after env (acts ++ [a]) = ((system env).step (after env acts) a).1 := Machine.run_concat ..

theorem step_exited (env : Env) {c : MainLoop} (h : c.server.exited = true) (a : Action) :
    ((system env).step c a).1 = c := by simp only [system, h, if_true]

theorem step_signal (env : Env) {c : MainLoop} (h : c.server.exited = false) (signum : Signum) (siPid : Pid) :
    ((system env).step c (.signal signum siPid)).1 =
      { c with server := (signalHandler env signum siPid c.server).1 } := by
  simp only [system, h, Bool.false_eq_true, if_false]

theorem step_main (env : Env) {c : MainLoop} (h : c.server.exited = false) :
    ((system env).step c .main).1 = mainStep c := by simp only [system, h, Bool.false_eq_true, if_false]

/-- The main loop finds `client_activity` at 0 wherever it discards a session. -/
def Unflagged (c : MainLoop) : Prop := Cleans c → c.server.client.clientActivity = false

/-- The server is not its own client, and while `client_activity` is 0 the session has been inactive. -/
structure Watched (env : Env) (acts : List Action) : Prop where
  other : (after env acts).server.client.actualPid ≠ env.serverPid
  quiet : (after env acts).server.exited = false → (after env acts).server.client.actualPid ≠ 0 →
    (after env acts).server.client.clientActivity = false →
    Inactive env (quietPolls (after env acts).pc (after env acts).i) (after env acts).server.client.actualPid acts

theorem watched_start (env : Env) : Watched env [] :=
  ⟨env.serverPid_pos.ne, fun _ hact _ => absurd rfl hact⟩

theorem Watched.signal (h : Watched env acts) (signum : Signum) (siPid : Pid) :
    Watched env (acts ++ [.signal signum siPid]) := by
  cases hex : (after env acts).server.exited with
  | true =>
    have hnext := (after_concat env acts (.signal signum siPid)).trans (step_exited env hex _)
    exact ⟨by rw [hnext]; exact h.other, fun hex' => absurd (hnext ▸ hex') (by rw [hex]; decide)⟩
  | false =>
    have hnext := (after_concat env acts (.signal signum siPid)).trans (step_signal env hex signum siPid)
    obtain ⟨hother, hcases⟩ := signalHandler_session signum siPid h.other
    refine ⟨by rw [hnext]; exact hother, fun hex' hact hflag => ?_⟩
    rcases hcases with ⟨hsame, hforeign⟩ | hzero | hset
    · have hnext : after env (acts ++ [.signal signum siPid]) = after env acts := by rw [hnext, hsame]
      rw [hnext] at hact hflag ⊢
      exact (h.quiet hex hact hflag).concat hforeign (congrArg (·.server.client.actualPid) hnext)
    · rw [hnext] at hact
      exact absurd hzero hact
    · rw [hnext] at hflag
      exact absurd (hset.symm.trans hflag) (by decide)

theorem Watched.main (h : Watched env acts) (hun : Unflagged (after env acts)) : Watched env (acts ++ [.main]) := by
  cases hex : (after env acts).server.exited with
  | true =>
    have hnext := (after_concat env acts .main).trans (step_exited env hex _)
    exact ⟨by rw [hnext]; exact h.other, fun hex' => absurd (hnext ▸ hex') (by rw [hex]; decide)⟩
  | false =>
    have hnext := (after_concat env acts .main).trans (step_main env hex)
    by_cases hzeroed : (after env acts).pc = .clean .bzero
    · have hzero : (after env (acts ++ [.main])).server.client.actualPid = 0 := by
        rw [hnext, mainStep, hzeroed]
        rfl
      exact ⟨by rw [hzero]; exact env.serverPid_pos.ne, fun _ hact => absurd hzero hact⟩
    · have hpid : (after env (acts ++ [.main])).server.client.actualPid = (after env acts).server.client.actualPid := by
        rw [hnext]
        exact mainStep_actualPid hzeroed
      refine ⟨by rw [hpid]; exact h.other, fun _ hact hflag => ?_⟩
      rw [hpid] at hact ⊢
      by_cases hreset : (after env acts).pc = .reset
      · have hbound : quietPolls (after env (acts ++ [.main])).pc (after env (acts ++ [.main])).i = 0 := by
          rw [hnext, mainStep, hreset]
          rfl
        rw [hbound]
        exact Machine.Lasting.zero hpid
      · have hflag' : (after env acts).server.client.clientActivity = false := by
          by_cases hclean : (after env acts).pc = .clean .activity
          · exact hun ⟨hex, hact, Or.inl hclean⟩
          · rw [hnext, mainStep_clientActivity hreset hclean hzeroed] at hflag
            exact hflag
        have hlast := (h.quiet hex hact hflag').concat (i := .main) id hpid
        refine hlast.mono ?_
        rw [hnext]
        exact quietPolls_mainStep _

theorem watched (hun : ∀ before rest, acts = before ++ .main :: rest → Unflagged (after env before)) :
    Watched env acts := by
  induction acts using List.reverseRecOn with
  | nil => exact watched_start env
  | append_singleton acts a ih =>
    have hacts := ih fun before rest h => hun before (rest ++ [a]) (by rw [h, List.append_assoc]; rfl)
    cases a with
    | signal signum siPid => exact hacts.signal signum siPid
    | main => exact hacts.main (hun acts [] rfl)

/-- While `client_activity` is set, the last poll was before the last signal of the session. -/
theorem not_inactive_of_flag (hex : (after env acts).server.exited = false)
    (hact : (after env acts).server.client.actualPid ≠ 0)
    (hflag : (after env acts).server.client.clientActivity = true) (hpc : (after env acts).pc ≠ .reset) :
    ¬Inactive env 1 (after env acts).server.client.actualPid acts := by
  induction acts using List.reverseRecOn with
  | nil => exact absurd rfl hact
  | append_singleton acts a ih =>
    intro h
    obtain ⟨hlast, hforeign, hsame⟩ := Machine.Lasting.of_concat Nat.one_pos h
    cases hex' : (after env acts).server.exited with
    | true =>
      rw [after_concat, step_exited env hex', hex'] at hex
      cases hex
    | false =>
      change (after env acts).server.client.actualPid = _ at hsame
      rw [← hsame] at hlast hact
      cases a with
      | signal signum siPid =>
        have hnext : after env (acts ++ [.signal signum siPid]) = after env acts := by
          rw [after_concat, step_signal env hex', signalHandler_of_foreign env hact hforeign]
        rw [hnext] at hflag hpc
        exact ih hex' hact hflag hpc hlast
      | main =>
        have hnext := (after_concat env acts .main).trans (step_main env hex')
        rw [hnext] at hflag hpc
        obtain ⟨hset, hreset⟩ := clientActivity_of_mainStep hflag
        -- A poll that finds the flag goes on to reset it.
        have hpoll : (after env acts).pc ≠ .activity := fun h => hpc (by rw [mainStep, h, hset]; rfl)
        have htick : polls (after env acts) .main = false := decide_eq_false fun h => hpoll h.2
        rw [show (system env).run {} acts = after env acts from rfl, htick] at hlast
        exact ih hex' hact hset hreset hlast

end Runs

/-- In a run of the handler and the main loop in any order, every session that the loop discards has been inactive for
    the full time exactly if the loop finds `client_activity` at 0 wherever it discards one. -/
theorem timeout_justified_iff (env : Env) (acts : List Action) :
    (∀ before rest, acts = before ++ .main :: rest → Cleans (after env before) → Justified env before) ↔
      ∀ before rest, acts = before ++ .main :: rest → Cleans (after env before) →
        (after env before).server.client.clientActivity = false := by
  constructor
  · intro hjust before rest hacts hclean
    obtain ⟨hex, hact, hpc⟩ := hclean
    obtain ⟨hentry, hzero⟩ := hjust before rest hacts ⟨hex, hact, hpc⟩
    by_contra hflag
    have hreset : (after env before).pc ≠ .reset := by
      rcases hpc with hpc | hpc <;> rw [hpc] <;> decide
    refine not_inactive_of_flag hex hact (Bool.eq_true_of_not_eq_false hflag) hreset ?_
    rcases hpc with hpc | hpc
    · exact (hentry hpc).mono (by decide)
    · exact hzero hpc
  · intro hun before rest hacts hclean
    have hwatched : Watched env before := watched fun earlier later hbefore =>
      hun earlier (later ++ .main :: rest) (by rw [hacts, hbefore, List.append_assoc]; rfl)
    have hquiet := hwatched.quiet hclean.1 hclean.2.1 (hun before rest hacts hclean)
    refine ⟨fun hpc => ?_, fun hpc => ?_⟩
    · rw [hpc] at hquiet
      exact hquiet
    · rw [hpc] at hquiet
      exact hquiet.mono (show 1 ≤ TIMEOUT by decide)

/-! ### A signal between the last poll and the decision -/

section Idle
variable {env : Env} {c : MainLoop}

/-- One round of the loop that finds nothing. -/
theorem run_round (hex : c.server.exited = false) (hact : c.server.client.actualPid ≠ 0)
    (hflag : c.server.client.clientActivity = false) (hpc : c.pc = .loop) (hi : c.i < TIMEOUT) :
    (system env).run c (List.replicate 5 .main) = { c with i := c.i + 1 } := by
  obtain ⟨server, pc, i, lastPid⟩ := c
  obtain rfl : pc = .loop := hpc
  simp only at hex hact hflag hi
  simp [List.replicate, system, mainStep, hex, hact, hflag, hi]

theorem run_rounds (k : Nat) (hex : c.server.exited = false) (hact : c.server.client.actualPid ≠ 0)
    (hflag : c.server.client.clientActivity = false) (hpc : c.pc = .loop) (hi : c.i + k ≤ TIMEOUT) :
    (system env).run c (List.replicate (5 * k) .main) = { c with i := c.i + k } := by
  induction k generalizing c with
  | zero => rfl
  | succ k ih =>
    rw [Nat.mul_succ, Nat.add_comm, ← List.replicate_append_replicate, Machine.run_append,
      run_round hex hact hflag hpc (by omega)]
    refine (ih (c := { c with i := c.i + 1 }) hex hact hflag hpc (by change c.i + 1 + k ≤ TIMEOUT; omega)).trans ?_
    rw [Nat.add_assoc, Nat.add_comm 1 k]

end Idle

/-- The client's bit arrives after the last of 50000 polls and before `handle_timeout`: its session is discarded. -/
theorem timeout_discards_active :
    let env : Env := { serverPid := 1, serverPid_pos := by decide, mallocOk := fun _ => true }
    let idle := .signal .SIGUSR1 2 :: List.replicate 10 .main ++ List.replicate (5 * TIMEOUT) .main ++ [.main]
    let before := idle ++ [.signal .SIGUSR1 2, .main]
    Cleans (after env before) ∧ ¬Justified env before := by
  intro env idle before
  have hidle : after env idle =
      { server := { initial with client := { connected 2 with clientActivity := false } }, pc := .timeout,
        i := TIMEOUT, lastPid := 2 } := by
    simp only [after, idle, Machine.run_append]
    rw [run_rounds TIMEOUT (by decide) (by decide) (by decide) (by decide) (by decide)]
    decide +kernel
  have hbefore : after env before =
      { server := { initial with
          client := { connected 2 with msg.sizeMessage := 0, sigCount := 1 } }, pc := .clean .activity,
        i := TIMEOUT, lastPid := 2 } := by
    rw [after_append, hidle]
    decide +kernel
  have hclean : Cleans (after env before) := by
    rw [hbefore]
    exact ⟨rfl, by decide, Or.inl rfl⟩
  refine ⟨hclean, fun hjust => ?_⟩
  have hinactive := (hjust.1 (by rw [hbefore])).mono (show 1 ≤ TIMEOUT by decide)
  refine not_inactive_of_flag hclean.1 hclean.2.1 ?_ ?_ hinactive <;> rw [hbefore]
  · rfl
  · decide

end Minitalk.Server
