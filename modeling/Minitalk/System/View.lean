import Minitalk.System.Model

/-! # What a run shows of one client

Its process, what is pending between it and the server, and what the server has read and printed of it. The
lemmas say what each update of the system does to the view of a client; the views of the others stay as they
are. -/

namespace Minitalk
open Server Client

/-! ### What the log says of a client -/

/-- The signals that the server has read as bits since it took the client for the last time. -/
def sessionBits (pid : Pid) (log : List Entry) : List Origin :=
  log.foldl (fun bits e => match e with
    | .opened q => if q = pid then [] else bits
    | .bit q origin => if q = pid then bits ++ [origin] else bits
    | .printed _ _ => bits) []

/-- The signals of the client that the server has ever read as bits. -/
def readBits (pid : Pid) (log : List Entry) : List Origin :=
  log.filterMap fun
    | .bit q origin => if q = pid then some origin else none
    | _ => none

/-- What the server has printed while it served the client. -/
def printedFor (pid : Pid) (log : List Entry) : List (List UInt8) :=
  log.filterMap fun
    | .printed q message => if q = pid then some message else none
    | _ => none

section Log
variable {p q : Pid} {log : List Entry} {origin : Origin} {message : List UInt8}

theorem mem_readBits : origin ∈ readBits p log ↔ .bit p origin ∈ log := by
  rw [readBits, List.mem_filterMap]
  constructor
  · rintro ⟨e, he, h⟩
    cases e with
    | opened q => cases h
    | printed q m => cases h
    | bit q o =>
      simp only [Option.ite_none_right_eq_some, Option.some.injEq] at h
      obtain ⟨rfl, rfl⟩ := h
      exact he
  · exact fun h => ⟨_, h, by simp⟩

theorem mem_printedFor : message ∈ printedFor p log ↔ .printed p message ∈ log := by
  rw [printedFor, List.mem_filterMap]
  constructor
  · rintro ⟨e, he, h⟩
    cases e with
    | opened q => cases h
    | bit q o => cases h
    | printed q m =>
      simp only [Option.ite_none_right_eq_some, Option.some.injEq] at h
      obtain ⟨rfl, rfl⟩ := h
      exact he
  · exact fun h => ⟨_, h, by simp⟩

end Log

/-! ### The view -/

structure View where
  process : Process
  /-- What is pending at the client. -/
  replies : Signum → Option Pid
  /-- What is pending of it at the server. -/
  sent : Signum → Option Origin
  bits : List Origin
  read : List Origin
  printed : List (List UInt8)

def System.view (setup : Setup) (s : System) (p : Pid) : View where
  process := s.client p
  replies := s.clientPending p
  sent signum := (s.serverPending signum).bind fun x =>
    if x.siPid = p ∧ p ≠ setup.env.serverPid then some x.origin else none
  bits := sessionBits p s.log
  read := readBits p s.log
  printed := printedFor p s.log

namespace View

def post (serverPid : Pid) (signum : Signum) (v : View) : View :=
  { v with replies := System.posted serverPid signum v.process v.replies }

/-- A signal is delivered to the client, which is `process` after it. -/
def delivered (signum : Signum) (process : Process) (v : View) : View :=
  { v with process, replies := Function.update v.replies signum none }

/-- The signal of the client at the server is delivered. -/
def taken (signum : Signum) (v : View) : View := { v with sent := Function.update v.sent signum none }

/-- A new log entry, seen from the client `p`. -/
def record (p : Pid) (v : View) : Entry → View
  | .opened q => if q = p then { v with bits := [] } else v
  | .bit q origin => if q = p then { v with bits := v.bits ++ [origin], read := v.read ++ [origin] } else v
  | .printed q message => if q = p then { v with printed := v.printed ++ [message] } else v

theorem record_of_ne {p : Pid} {e : Entry} (v : View) (h : e.pid ≠ p) : v.record p e = v := by
  cases e <;> exact if_neg h

end View

/-! ### `kill` -/

section Kill
variable {setup : Setup} {s : System} {p q : Pid}

@[simp] theorem posted_usr1 (serverPid : Pid) (c : Process) (pending : Signum → Option Pid) :
    System.posted serverPid .SIGUSR2 c pending .SIGUSR1 = pending .SIGUSR1 := by
  unfold System.posted
  split <;> simp

@[simp] theorem kill_server (pid : Pid) (signum : Signum) : (s.kill setup pid signum).server = s.server := by
  unfold System.kill
  split <;> rfl

/-- A signal to the server is pending in front of what others send, and stands behind what is pending. -/
theorem view_killServer (signum : Signum) (x : Pending) :
    (s.killServer signum x).view setup q =
      if s.serverPending signum = none ∧ x.siPid = q ∧ q ≠ setup.env.serverPid then
        { s.view setup q with sent := Function.update (s.view setup q).sent signum (some x.origin) }
      else s.view setup q := by
  have hsent : ((s.killServer signum x).view setup q).sent =
      if s.serverPending signum = none ∧ x.siPid = q ∧ q ≠ setup.env.serverPid then
        Function.update (s.view setup q).sent signum (some x.origin)
      else (s.view setup q).sent := by
    funext other
    by_cases ho : other = signum
    · subst ho
      cases hp : s.serverPending other with
      | none =>
        by_cases hq : x.siPid = q ∧ q ≠ setup.env.serverPid
        · simp [System.view, System.killServer, hp, hq]
        · simp [System.view, System.killServer, hp, hq]
      | some y => simp [System.view, System.killServer, hp]
    · split <;> simp [System.view, System.killServer, ho]
  split
  · rename_i h
    rw [if_pos h] at hsent
    exact congrArg (fun sent => { s.view setup q with sent }) hsent
  · rename_i h
    rw [if_neg h] at hsent
    exact congrArg (fun sent => { s.view setup q with sent }) hsent

theorem view_kill (signum : Signum) (hp : p ≠ 0) :
    (s.kill setup p signum).view setup q =
      if q = p then (s.view setup q).post setup.env.serverPid signum else s.view setup q := by
  by_cases hq : q = p
  · subst hq
    simp [System.kill, hp, System.view, View.post]
  · simp [System.kill, hp, System.view, hq]

theorem view_kill_zero (signum : Signum) :
    (s.kill setup 0 signum).view setup q =
      if setup.inGroup q then (s.view setup q).post setup.env.serverPid signum else s.view setup q := by
  rw [System.kill, if_pos rfl, view_killServer, if_neg (fun h => h.2.2 h.2.1.symm)]
  by_cases hg : setup.inGroup q = true
  · simp [System.view, View.post, hg]
  · simp [System.view, hg]

end Kill

/-! ### The other updates -/

section Updates
variable {setup : Setup} {s : System} {p q : Pid}

theorem view_record (e : Entry) : ({ s with log := s.log ++ [e] } : System).view setup q =
    (s.view setup q).record q e := by
  cases e with
  | opened r =>
    by_cases hr : r = q <;> simp [System.view, View.record, sessionBits, readBits, printedFor, hr]
  | bit r origin =>
    by_cases hr : r = q <;> simp [System.view, View.record, sessionBits, readBits, printedFor, hr]
  | printed r message =>
    by_cases hr : r = q <;> simp [System.view, View.record, sessionBits, readBits, printedFor, hr]

theorem view_taken (signum : Signum) :
    ({ s with serverPending := Function.update s.serverPending signum none } : System).view setup q =
      (s.view setup q).taken signum := by
  refine congrArg (fun sent => { s.view setup q with sent }) (funext fun other => ?_)
  by_cases ho : other = signum
  · subst ho
    simp
  · simp [System.view, ho]

/-- Only the sender sees that its signal is delivered. -/
theorem taken_of_other {signum : Signum} {x : Pending} (hx : s.serverPending signum = some x)
    (hq : x.siPid = q → q = setup.env.serverPid) : (s.view setup q).taken signum = s.view setup q := by
  have hnone : (s.view setup q).sent signum = none := by
    have : ¬(x.siPid = q ∧ q ≠ setup.env.serverPid) := fun h => h.2 (hq h.1)
    simp [System.view, hx, this]
  rw [View.taken, ← hnone, Function.update_eq_self]

theorem sent_of_pending {signum : Signum} {x : Pending} (hx : s.serverPending signum = some x)
    (hne : x.siPid ≠ setup.env.serverPid) : (s.view setup x.siPid).sent signum = some x.origin := by
  simp [System.view, hx, hne]

theorem view_client (c : Process) : ({ s with client := Function.update s.client p c } : System).view setup q =
    if q = p then { s.view setup q with process := c } else s.view setup q := by
  by_cases hq : q = p
  · subst hq
    simp [System.view]
  · simp [System.view, hq]

end Updates

end Minitalk
