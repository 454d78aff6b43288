import Minitalk.System.Exclusion

/-! # The server's record of its sessions, in any run

Nothing is assumed of the interleaving here: the timers may expire at any time, clients may ping while they are
served, and an allocation may fail. The log still falls into sessions, each of one client. -/

namespace Minitalk
open Server Client Frame

/-- The client that the server has taken last. -/
def lastOpened (log : List Entry) : Option Pid :=
  log.foldl (fun last e => match e with
    | .opened q => some q
    | .bit _ _ | .printed _ _ => last) none

/-- A bit is read of the client that was taken last; a message is printed of it, from 1 to 10,000,000 bytes long,
    when since then exactly the bits of a frame with so many bytes were read of it. -/
def Follows (before : List Entry) : Entry → Prop
  | .opened _ => True
  | .bit p _ => lastOpened before = some p
  | .printed p message => lastOpened before = some p ∧
      (sessionBits p before).length = 32 + 8 * message.length ∧ 0 < message.length ∧ message.length ≤ 10000000

def WellRecorded (log : List Entry) : Prop := ∀ before e after, log = before ++ e :: after → Follows before e

/-- While the server serves a client, the log ends with its session: so many bits were read of it. -/
def SessionRecorded (log : List Entry) : Phase → Prop
  | .serving p bits => lastOpened log = some p ∧ (sessionBits p log).length = bits.length
  | _ => True

section Log
variable {log : List Entry} {p q : Pid}

theorem lastOpened_concat (e : Entry) :
    lastOpened (log ++ [e]) = match e with
      | .opened q => some q
      | .bit _ _ | .printed _ _ => lastOpened log := by
  rw [lastOpened, List.foldl_append]
  rfl

theorem sessionBits_concat (e : Entry) :
    sessionBits p (log ++ [e]) = match e with
      | .opened q => if q = p then [] else sessionBits p log
      | .bit q origin => if q = p then sessionBits p log ++ [origin] else sessionBits p log
      | .printed _ _ => sessionBits p log := by
  rw [sessionBits, List.foldl_append]
  rfl

theorem wellRecorded_nil : WellRecorded [] := fun before e after h =>
  absurd h.symm (List.append_ne_nil_of_right_ne_nil before (List.cons_ne_nil e after))

theorem WellRecorded.concat (h : WellRecorded log) {e : Entry} (he : Follows log e) : WellRecorded (log ++ [e]) := by
  intro before f after heq
  rcases List.eq_nil_or_concat after with rfl | ⟨rest, g, rfl⟩
  · obtain ⟨rfl, hlast⟩ := List.append_inj' heq rfl
    cases hlast
    exact he
  · rw [List.concat_eq_append, ← List.cons_append, ← List.append_assoc] at heq
    exact h before f rest (List.append_inj' heq rfl).1

end Log

section Run
variable {setup : Setup} {s s' : System} {actions : List System.Action}

/-- A session is open as long as its frame is not complete. -/
theorem status_of_represents {pid : Pid} {bits : List Bool} (h : Represents setup.env s.server (.serving pid bits)) :
    wire.status bits = .more := by
  obtain ⟨-, -, -, -, -, hheader | hbody⟩ := h
  · exact Format.status_of_lt hheader.short
  · exact Format.status_of_short hbody.long hbody.accepted hbody.short

/-- The log and the phase of the server agree. -/
structure Recorded (setup : Setup) (s : System) : Prop where
  sound : Sound setup s
  log : WellRecorded s.log
  session : ∃ φ, Represents setup.env s.server φ ∧ SessionRecorded s.log φ

/-- A bit of the client that the server serves, with what is printed of it. -/
theorem Recorded.bit (h : Recorded setup s) {pid : Pid} {bits : List Bool} {mallocOk b : Bool} (origin : Origin)
    (hrep : Represents setup.env s.server (.serving pid bits))
    (hsession : SessionRecorded s.log (.serving pid bits)) :
    let r := Phase.receive mallocOk pid bits b
    let log := s.log ++ .bit pid origin :: printedEntries pid r.2
    WellRecorded log ∧ SessionRecorded log r.1 := by
  intro r log
  obtain ⟨hlast, hbits⟩ := hsession
  have hread : WellRecorded (s.log ++ [.bit pid origin]) := h.log.concat hlast
  have hlast' : lastOpened (s.log ++ [.bit pid origin]) = some pid := (lastOpened_concat _).trans hlast
  have hbits' : (sessionBits pid (s.log ++ [.bit pid origin])).length = bits.length + 1 := by
    simp [sessionBits_concat, hbits]
  rcases receive_cases mallocOk pid bits b with hr | hr | hr | ⟨us, hst, hr⟩ <;> simp only [log, r, hr]
  · exact ⟨hread, trivial⟩
  · exact ⟨hread, hlast', hbits'.trans (by rw [List.length_append, List.length_singleton])⟩
  · exact ⟨hread, trivial⟩
  · obtain ⟨hlen, hacc⟩ := Format.length_of_complete (status_of_represents hrep) hst
    have hrange := of_decide_eq_true hacc
    refine ⟨?_, trivial⟩
    have hprint : WellRecorded (s.log ++ [.bit pid origin] ++ [.printed pid (us.map UInt8.ofNat)]) :=
      hread.concat ⟨hlast', by rw [hbits', hlen, List.length_map]; rfl, by simpa using hrange⟩
    rwa [List.append_assoc] at hprint

theorem Recorded.step {a : System.Action} (h : Recorded setup s) (hs : System.step setup s a = some s') :
    Recorded setup s' := by
  have hsound := sound_step h.sound hs
  obtain ⟨φ, hrep, hsession⟩ := h.session
  cases a with
  | handle signum =>
    obtain ⟨x, server, φ', hx, hex, hrep', hhandled⟩ := handle_inv hrep h.sound.sender hs
    rw [← hhandled.server_eq] at hrep'
    cases hhandled with
    | ignored =>
      refine ⟨hsound, ?_, φ, hrep', ?_⟩ <;> rw [received_log, List.append_nil]
      · exact h.log
      · exact hsession
    | opened phantom hself =>
      refine ⟨hsound, ?_, _, hrep', ?_⟩ <;> rw [kill_log, received_log]
      · exact h.log.concat trivial
      · exact ⟨lastOpened_concat _, by rw [sessionBits_concat]; simp⟩
    | busy pid bits hself hne =>
      refine ⟨hsound, ?_, _, hrep', ?_⟩ <;> rw [kill_log, received_log, List.append_nil]
      · exact h.log
      · exact hsession
    | bit bits mallocOk hself =>
      obtain ⟨hlog, hsession'⟩ := h.bit x.origin hrep hsession
      refine ⟨hsound, ?_, _, hrep', ?_⟩ <;> rw [effects_log, received_log, List.append_assoc]
      · exact hlog
      · exact hsession'
  | cleanGlobal =>
    obtain ⟨hex, -, rfl⟩ := cleanGlobal_inv hs
    exact ⟨hsound, h.log, .idle false, represents_cleanGlobal hrep hex, trivial⟩
  | deliver q signum =>
    obtain ⟨_, -, -, rfl⟩ := deliver_inv hs
    exact ⟨hsound, h.log, φ, hrep, hsession⟩
  | spawn q =>
    obtain ⟨-, rfl⟩ := spawn_inv hs
    exact ⟨hsound, h.log, φ, hrep, hsession⟩
  | client q move =>
    obtain ⟨c, sent, -, rfl⟩ := clientMove_inv hs
    cases sent <;> exact ⟨hsound, h.log, φ, hrep, hsession⟩

end Run

end Minitalk
