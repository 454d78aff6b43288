import Minitalk.System.ServerSteps

/-! # What holds in every run

No step is left out here: timers may expire at any time, clients may ping while they are served, and a clean-up may
come under a live client. The record of the server still stands for a phase, and a signal that is delivered to it
does one of four things (`Handled`). -/

namespace Minitalk
open Server Client

/-- The server's record stands for a phase; who is pending at the server, and every client, has a pid of its own. -/
structure Sound (setup : Setup) (s : System) : Prop where
  represents : ∃ φ, Represents setup.env s.server φ
  sender : ∀ signum x, s.serverPending signum = some x → 0 < x.siPid
  client : ∀ p, (s.client p).stage ≠ .absent → 0 < p ∧ p ≠ setup.env.serverPid

/-- The signal `x` is delivered to the server, whose record is `server` after it: the phase and the system. -/
inductive Handled (setup : Setup) (s : System) (signum : Signum) (x : Pending) (server : State) :
    Phase → Phase → System → Prop where
  /-- The server's own `kill(0, _)`. -/
  | ignored (φ : Phase) (hself : x.siPid = setup.env.serverPid) :
    Handled setup s signum x server φ φ (s.received signum server [])
  | opened (phantom : Bool) (hself : x.siPid ≠ setup.env.serverPid) :
    Handled setup s signum x server (.idle phantom) (.serving x.siPid [])
      ((s.received signum server [.opened x.siPid]).kill setup x.siPid SERVER_READY)
  | busy (pid : Pid) (bits : List Bool) (hself : x.siPid ≠ setup.env.serverPid) (hne : pid ≠ x.siPid) :
    Handled setup s signum x server (.serving pid bits) (.serving pid bits)
      ((s.received signum server []).kill setup x.siPid SERVER_BUSY)
  | bit (bits : List Bool) (mallocOk : Bool) (hself : x.siPid ≠ setup.env.serverPid)
    (hok : mallocOk = setup.env.mallocOk s.server.heap.blocks.length) :
    Handled setup s signum x server (.serving x.siPid bits)
      (Phase.receive mallocOk x.siPid bits (getBitValue signum)).1
      ((Phase.receive mallocOk x.siPid bits (getBitValue signum)).2.foldl (System.applyEffect setup x.siPid)
        (s.received signum server [.bit x.siPid x.origin]))

section Handle
variable {setup : Setup} {s s' : System} {φ φ' : Phase} {signum : Signum} {x : Pending} {server : State}

theorem handle_inv (hrep : Represents setup.env s.server φ)
    (hpos : ∀ signum x, s.serverPending signum = some x → 0 < x.siPid) (hs : s.handle setup signum = some s') :
    ∃ x server φ', s.serverPending signum = some x ∧ s.server.exited = false ∧
      Represents setup.env server φ' ∧ Handled setup s signum x server φ φ' s' := by
  unfold System.handle at hs
  cases hx : s.serverPending signum with
  | none => simp [hx] at hs
  | some x =>
    simp only [hx] at hs
    split at hs
    · cases hs
    rename_i hex
    have h0 : x.siPid ≠ 0 := (hpos signum x hx).ne'
    obtain ⟨hrep', hout⟩ := step_matches hrep (.signal signum x.siPid)
    simp only [machine, if_neg hex] at hrep' hout
    have hs' := (Option.some.inj hs).symm
    rw [hout] at hs'
    refine ⟨x, _, _, rfl, Bool.eq_false_iff.mpr hex, hrep', ?_⟩
    rw [hs']
    cases φ with
    | exited => exact absurd hrep hex
    | idle phantom =>
      have hact : s.server.client.actualPid = 0 := by rw [hrep.2.2, actualPid_idleRecord]
      by_cases hself : x.siPid = setup.env.serverPid
      · simp only [Phase.step, if_pos hself, System.sessionEntry]
        exact .ignored _ hself
      · simp only [Phase.step, if_neg hself, if_neg h0, System.sessionEntry, hact, if_true]
        exact .opened phantom hself
    | serving pid bits =>
      obtain ⟨-, -, hpid, -, hact, -⟩ := hrep
      simp only [Phase.step, Phase.sender_serving, if_neg h0, System.sessionEntry, hact, if_neg hpid.ne']
      by_cases hself : x.siPid = setup.env.serverPid
      · simp only [if_pos hself]
        exact .ignored _ hself
      · simp only [if_neg hself]
        by_cases hown : x.siPid = pid
        · subst hown
          simp only [ne_eq, not_true_eq_false, if_false, if_true]
          exact .bit bits _ hself rfl
        · simp only [ne_eq, hown, not_false_eq_true, if_true, if_neg (Ne.symm hown)]
          exact .busy pid bits hself (Ne.symm hown)

/-! ### The effects of the handler -/

@[simp] theorem kill_client (pid : Pid) : (s.kill setup pid signum).client = s.client := by
  unfold System.kill
  split <;> rfl

@[simp] theorem kill_log (pid : Pid) : (s.kill setup pid signum).log = s.log := by
  unfold System.kill
  split <;> rfl

/-- What is pending at the server after its own `kill` was so before, or is the server's. -/
theorem kill_serverPending {pid : Pid} {other : Signum} (h : (s.kill setup pid signum).serverPending other = some x) :
    s.serverPending other = some x ∨ x.siPid = setup.env.serverPid := by
  unfold System.kill at h
  split at h
  · simp only [System.killServer] at h
    by_cases ho : other = signum
    · subst ho
      rw [Function.update_self, Option.some.injEq] at h
      cases hp : s.serverPending other with
      | none => exact Or.inr (by rw [← h, hp]; rfl)
      | some y => exact Or.inl (by rw [← h, hp]; rfl)
    · rw [Function.update_of_ne ho] at h
      exact Or.inl h
  · exact Or.inl h

theorem applyEffect_serverPending {actualPid : Pid} {e : Effect} {other : Signum}
    (h : (s.applyEffect setup actualPid e).serverPending other = some x) :
    s.serverPending other = some x ∨ x.siPid = setup.env.serverPid := by
  cases e with
  | kill pid signum => exact kill_serverPending h
  | print message => exact Or.inl h

theorem effects_serverPending {actualPid : Pid} {out : List Effect} {other : Signum}
    (h : (out.foldl (System.applyEffect setup actualPid) s).serverPending other = some x) :
    s.serverPending other = some x ∨ x.siPid = setup.env.serverPid := by
  induction out generalizing s with
  | nil => exact Or.inl h
  | cons e out ih => exact (ih h).elim applyEffect_serverPending Or.inr

theorem effects_client {actualPid : Pid} (out : List Effect) :
    (out.foldl (System.applyEffect setup actualPid) s).client = s.client := by
  induction out generalizing s with
  | nil => rfl
  | cons e out ih =>
    refine ih.trans ?_
    cases e with
    | kill pid signum => exact kill_client pid
    | print message => rfl

theorem effects_server {actualPid : Pid} (out : List Effect) :
    (out.foldl (System.applyEffect setup actualPid) s).server = s.server := by
  induction out generalizing s with
  | nil => rfl
  | cons e out ih =>
    refine ih.trans ?_
    cases e with
    | kill pid signum => exact kill_server pid signum
    | print message => rfl

@[simp] theorem received_log (entries : List Entry) : (s.received signum server entries).log = s.log ++ entries := rfl

theorem received_serverPending {entries : List Entry} {other : Signum} {y : Pending}
    (h : (s.received signum server entries).serverPending other = some y) :
    other ≠ signum ∧ s.serverPending other = some y := by
  by_cases ho : other = signum
  · subst ho
    simp [System.received] at h
  · exact ⟨ho, by simpa [System.received, Function.update_of_ne ho] using h⟩

/-- The entries of what a handler prints while `actual_pid` is `pid`. -/
def printedEntries (pid : Pid) (out : List Effect) : List Entry :=
  out.filterMap fun
    | .print message => some (.printed pid message)
    | .kill _ _ => none

theorem effects_log {actualPid : Pid} (out : List Effect) :
    (out.foldl (System.applyEffect setup actualPid) s).log = s.log ++ printedEntries actualPid out := by
  induction out generalizing s with
  | nil => simp [printedEntries]
  | cons e out ih =>
    refine ih.trans ?_
    cases e with
    | kill pid signum => simp [System.applyEffect, printedEntries]
    | print message => simp [System.applyEffect, printedEntries]

/-- What a bit does to the session: the server has no memory for the message, it acknowledges the bit, drops the
    session, or prints. -/
theorem receive_cases (mallocOk : Bool) (pid : Pid) (bits : List Bool) (b : Bool) :
    let r := Phase.receive mallocOk pid bits b
    r = (.exited, []) ∨ r = (.serving pid (bits ++ [b]), [.kill pid .SIGUSR2]) ∨
      r = (.idle false, [.kill 0 .SIGUSR2]) ∨
      ∃ us, wire.status (bits ++ [b]) = .complete us ∧
        r = (.idle false, [.print (us.map UInt8.ofNat), .kill pid .SIGUSR1, .kill 0 .SIGUSR2]) := by
  intro r
  simp only [r, Phase.receive]
  split
  · split
    · exact Or.inl rfl
    · exact Or.inr (Or.inl rfl)
  · exact Or.inr (Or.inr (Or.inl rfl))
  · exact Or.inr (Or.inr (Or.inr ⟨_, ‹_›, rfl⟩))

/-- The handler leaves the processes of the clients alone. -/
theorem Handled.client_eq (h : Handled setup s signum x server φ φ' s') : s'.client = s.client := by
  cases h with
  | ignored => rfl
  | opened => exact kill_client _
  | busy => exact kill_client _
  | bit => exact effects_client _

theorem Handled.server_eq (h : Handled setup s signum x server φ φ' s') : s'.server = server := by
  cases h with
  | ignored => rfl
  | opened => exact kill_server _ _
  | busy => exact kill_server _ _
  | bit => exact effects_server _

theorem Handled.serverPending (h : Handled setup s signum x server φ φ' s') {other : Signum} {y : Pending}
    (hy : s'.serverPending other = some y) :
    (other ≠ signum ∧ s.serverPending other = some y) ∨ y.siPid = setup.env.serverPid := by
  cases h with
  | ignored => exact Or.inl (received_serverPending hy)
  | opened => exact (kill_serverPending hy).imp_left received_serverPending
  | busy => exact (kill_serverPending hy).imp_left received_serverPending
  | bit => exact (effects_serverPending hy).imp_left received_serverPending

end Handle

/-! ### The steps of clients -/

section Client
variable {setup : Setup} {s s' : System} {p : Pid} {move : Move}

theorem deliver_inv {signum : Signum} (hs : s.deliver p signum = some s') :
    ∃ siPid, s.clientPending p signum = some siPid ∧ (s.client p).stage.alive = true ∧
      s' = { s with
        client := Function.update s.client p (Client.deliver p signum siPid (s.client p))
        clientPending :=
          Function.update s.clientPending p (Function.update (s.clientPending p) signum none) } := by
  unfold System.deliver at hs
  cases hpend : s.clientPending p signum with
  | none => simp [hpend] at hs
  | some siPid =>
    simp only [hpend] at hs
    split at hs
    · exact ⟨siPid, rfl, ‹_›, (Option.some.inj hs).symm⟩
    · cases hs

theorem spawn_inv (hs : s.spawn setup p = some s') :
    (0 < p ∧ p ≠ setup.env.serverPid ∧ (s.client p).stage = .absent) ∧
      s' = { s with
        client := Function.update s.client p { stage := .start }
        clientPending := Function.update s.clientPending p fun _ => none } := by
  simp only [System.spawn, Option.ite_none_right_eq_some, Option.some.injEq] at hs
  exact ⟨hs.1, hs.2.symm⟩

/-- What the client sends is pending at the server, unless the signal is pending there already. -/
theorem clientMove_inv (hs : s.clientMove setup p move = some s') :
    ∃ c sent, Client.step setup.env.serverPid (!s.server.exited) p (setup.text p) (s.client p) move =
        some (c, sent) ∧
      s' = match sent with
        | some signum => System.killServer signum ⟨p, System.originOf (s.client p).stage⟩
            { s with client := Function.update s.client p c }
        | none => { s with client := Function.update s.client p c } := by
  unfold System.clientMove at hs
  cases hstep : Client.step setup.env.serverPid (!s.server.exited) p (setup.text p) (s.client p) move with
  | none => simp [hstep] at hs
  | some r =>
    obtain ⟨c, sent⟩ := r
    refine ⟨c, sent, rfl, ?_⟩
    simp only [hstep] at hs
    cases sent <;> exact (Option.some.inj hs).symm

theorem killServer_serverPending {signum other : Signum} {x y : Pending}
    (h : (s.killServer signum x).serverPending other = some y) : s.serverPending other = some y ∨ y = x := by
  simp only [System.killServer] at h
  by_cases ho : other = signum
  · subst ho
    rw [Function.update_self, Option.some.injEq] at h
    cases hp : s.serverPending other with
    | none => exact Or.inr (by rw [← h, hp]; rfl)
    | some z => exact Or.inl (by rw [← h, hp]; rfl)
  · rw [Function.update_of_ne ho] at h
    exact Or.inl h

/-- A signal leaves the process in its stage, or ends it. -/
theorem deliver_stage (myPid : Pid) (signum : Signum) (siPid : Pid) (c : Process) :
    (Client.deliver myPid signum siPid c).stage = c.stage ∨
      ∃ b, (Client.deliver myPid signum siPid c).stage = .exited b := by
  have hping : (pingHandler myPid signum siPid c).stage = c.stage ∨
      ∃ b, (pingHandler myPid signum siPid c).stage = .exited b := by
    rcases pingHandler_cases myPid signum siPid c with he | ⟨server, he, -⟩ <;> rw [he]
    · exact Or.inr ⟨false, rfl⟩
    · exact Or.inl rfl
  have hsignal : (Client.signalHandler signum siPid c).stage = c.stage ∨
      ∃ b, (Client.signalHandler signum siPid c).stage = .exited b := by
    rcases signalHandler_cases signum siPid c with ⟨-, he⟩ | ⟨server, he⟩ <;> rw [he]
    · exact Or.inr ⟨true, rfl⟩
    · exact Or.inl rfl
  unfold Client.deliver
  split
  · exact Or.inl rfl
  · exact Or.inl rfl
  · exact Or.inr ⟨false, rfl⟩
  all_goals first | exact hping | exact hsignal

theorem step_not_absent {alive : Bool} {text : Text} {c c' : Process} {serverPid : Pid} {sent : Option Signum}
    (h : Client.step serverPid alive p text c move = some (c', sent)) : c.stage ≠ .absent := by
  intro ha
  cases move <;> simp [Client.step, ha] at h

end Client

/-! ### Runs -/

section Run
variable {setup : Setup} {s s' : System} {actions : List System.Action}

theorem sound_initial (setup : Setup) : Sound setup {} :=
  ⟨⟨.idle false, represents_initial⟩, fun _ _ h => absurd h (by simp), fun _ h => absurd rfl h⟩

theorem cleanGlobal_inv (hs : System.step setup s .cleanGlobal = some s') :
    s.server.exited = false ∧ 0 < s.server.client.actualPid ∧ s' = { s with server := cleanGlobal s.server } := by
  simp only [System.step, Option.ite_none_right_eq_some, Option.some.injEq] at hs
  exact ⟨hs.1.1, hs.1.2, hs.2.symm⟩

/-- The clean-up leaves the server free. -/
theorem represents_cleanGlobal {φ : Phase} (h : Represents setup.env s.server φ) (hex : s.server.exited = false) :
    Represents setup.env (cleanGlobal s.server) (.idle false) := by
  have hrep := (step_matches h .cleanGlobal).1
  simp only [machine, if_neg (Bool.eq_false_iff.mp hex)] at hrep
  cases φ with
  | exited => exact absurd (hex.symm.trans h) (by decide)
  | idle phantom => exact hrep
  | serving pid bits => exact hrep

theorem Sound.client_update (h : Sound setup s) {p : Pid} (hp : 0 < p ∧ p ≠ setup.env.serverPid) (c : Process)
    {q : Pid} (hq : (Function.update s.client p c q).stage ≠ .absent) : 0 < q ∧ q ≠ setup.env.serverPid := by
  by_cases he : q = p
  · exact he ▸ hp
  · rw [Function.update_of_ne he] at hq
    exact h.client q hq

theorem sound_step {a : System.Action} (h : Sound setup s) (hs : System.step setup s a = some s') :
    Sound setup s' := by
  cases a with
  | handle signum =>
    obtain ⟨φ, hrep⟩ := h.represents
    obtain ⟨x, server, φ', -, -, hrep', hhandled⟩ := handle_inv hrep h.sender hs
    refine ⟨⟨φ', hhandled.server_eq ▸ hrep'⟩, fun other y hy => ?_, fun p hp => ?_⟩
    · rcases hhandled.serverPending hy with ⟨-, hy⟩ | hy
      · exact h.sender other y hy
      · exact hy ▸ setup.env.serverPid_pos
    · rw [hhandled.client_eq] at hp
      exact h.client p hp
  | cleanGlobal =>
    obtain ⟨φ, hrep⟩ := h.represents
    obtain ⟨hex, -, rfl⟩ := cleanGlobal_inv hs
    exact ⟨⟨_, represents_cleanGlobal hrep hex⟩, h.sender, h.client⟩
  | deliver p signum =>
    obtain ⟨siPid, -, halive, rfl⟩ := deliver_inv hs
    have hp : (s.client p).stage ≠ .absent := fun ha => by rw [ha] at halive; cases halive
    exact ⟨h.represents, h.sender, fun _ hq => h.client_update (h.client p hp) _ hq⟩
  | spawn p =>
    obtain ⟨⟨hpos, hself, -⟩, rfl⟩ := spawn_inv hs
    exact ⟨h.represents, h.sender, fun _ hq => h.client_update ⟨hpos, hself⟩ _ hq⟩
  | client p move =>
    obtain ⟨c, sent, hstep, rfl⟩ := clientMove_inv hs
    have hp := h.client p (step_not_absent hstep)
    cases sent with
    | none => exact ⟨h.represents, h.sender, fun _ hq => h.client_update hp _ hq⟩
    | some signum =>
      refine ⟨h.represents, fun other y hy => ?_, fun _ hq => h.client_update hp _ hq⟩
      rcases killServer_serverPending hy with hy | rfl
      · exact h.sender other y hy
      · exact hp.1

end Run

end Minitalk
