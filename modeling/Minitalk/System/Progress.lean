import Minitalk.System.Termination

/-! # A client on its own is delivered

A client that no other one disturbs, and whose timers do not expire, does not get stuck: in every state that it can
reach, a signal is in flight or the client has a statement to execute, until it was told of its delivery. Since every
run ends (`run_bounded`), every run that goes as far as it can ends with the delivery. -/

namespace Minitalk
open Server Client

/-- The steps of a run of the client `p` alone in which no timer expires. -/
def System.Action.undisturbed (p : Pid) : Action → Bool
  | .handle _ => true
  | .cleanGlobal => false
  | .deliver _ _ => true
  | .spawn q => decide (q = p)
  | .client _ move => decide (move ≠ .giveUp ∧ move ≠ .ackTimeout)

namespace Alone

/-! ### The record of the client, on its way -/

def opening (setup : Setup) : ServerState := { pid := setup.env.serverPid }

def greeted (setup : Setup) : ServerState := { opening setup with isReady := true }

def transmitting (setup : Setup) (p : Pid) (readyToProceed : Bool) : ServerState :=
  { pid := setup.env.serverPid, isReady := true, readyToProceed, transmissionActive := true, currentClientPid := p }

/-- Nothing is pending at the server but what it has sent to itself. -/
def OwnOnly (setup : Setup) (pending : Signum → Option Pending) : Prop :=
  ∀ signum x, pending signum = some x → x.siPid = setup.env.serverPid

/-- Before the last bit is acknowledged with the delivery, or behind it. -/
def ends (text : Text) : Stage → Prop
  | .waiting k | .acked k => k + 1 = text.signalCount
  | .paused => True
  | _ => False

/-- Where the run may be: the process, what is pending at the server and at the client, the server's phase, and
    what was printed. -/
inductive Config (setup : Setup) (p : Pid) : Process → (Signum → Option Pending) → (Signum → Option Pid) → Phase →
    List (List UInt8) → Prop where
  | absent {c inbox replies} (hst : c.stage = .absent) (hserver : ∀ signum, inbox signum = none) :
    Config setup p c inbox replies (.idle false) []
  | start {inbox replies} (hserver : ∀ signum, inbox signum = none) (hclient : ∀ signum, replies signum = none) :
    Config setup p ⟨.start, {}⟩ inbox replies (.idle false) []
  | pinging {inbox replies} (hserver : ∀ signum, inbox signum = none) (hclient : ∀ signum, replies signum = none) :
    Config setup p ⟨.pinging 1, opening setup⟩ inbox replies (.idle false) []
  | pinged {inbox replies} (husr1 : inbox .SIGUSR1 = some ⟨p, .ping⟩) (husr2 : inbox .SIGUSR2 = none)
    (hclient : ∀ signum, replies signum = none) :
    Config setup p ⟨.polling 1, opening setup⟩ inbox replies (.idle false) []
  | answered {inbox replies} (hserver : ∀ signum, inbox signum = none)
    (husr1 : replies .SIGUSR1 = some setup.env.serverPid) (husr2 : replies .SIGUSR2 = none) :
    Config setup p ⟨.polling 1, opening setup⟩ inbox replies (.serving p []) []
  | ready {inbox replies} (stage : Stage) (hst : stage = .polling 1 ∨ stage = .connected ∨ stage = .slot)
    (hserver : ∀ signum, inbox signum = none) (hclient : ∀ signum, replies signum = none) :
    Config setup p ⟨stage, greeted setup⟩ inbox replies (.serving p []) []
  | sending {inbox replies} (k : Nat) (hk : k < (setup.text p).signalCount)
    (hserver : ∀ signum, inbox signum = none) (hclient : ∀ signum, replies signum = none) :
    Config setup p ⟨.sending k, transmitting setup p false⟩ inbox replies
      (.serving p ((setup.code p).take k)) []
  | sent {inbox replies} (k : Nat) (signum : Signum) (hk : k < (setup.text p).signalCount)
    (hsig : setup.signal? p k = some signum) (hserver : inbox signum = some ⟨p, .data k⟩)
    (hothers : ∀ other, other ≠ signum → inbox other = none) (hclient : ∀ signum, replies signum = none) :
    Config setup p ⟨.waiting k, transmitting setup p false⟩ inbox replies
      (.serving p ((setup.code p).take k)) []
  | acknowledged {inbox replies} (k : Nat) (hk : k + 1 < (setup.text p).signalCount)
    (hserver : ∀ signum, inbox signum = none) (husr1 : replies .SIGUSR1 = none)
    (husr2 : replies .SIGUSR2 = some setup.env.serverPid) :
    Config setup p ⟨.waiting k, transmitting setup p false⟩ inbox replies
      (.serving p ((setup.code p).take (k + 1))) []
  | heard {inbox replies} (k : Nat) (stage : Stage) (hst : stage = .waiting k ∨ stage = .acked k)
    (hk : k + 1 < (setup.text p).signalCount) (hserver : ∀ signum, inbox signum = none)
    (hclient : ∀ signum, replies signum = none) :
    Config setup p ⟨stage, transmitting setup p true⟩ inbox replies
      (.serving p ((setup.code p).take (k + 1))) []
  | completed {c inbox replies} (hst : ends (setup.text p) c.stage) (hpid : c.server.pid = setup.env.serverPid)
    (hserver : OwnOnly setup inbox) (husr1 : replies .SIGUSR1 = some setup.env.serverPid) :
    Config setup p c inbox replies (.idle false) [(setup.text p).bytes]
  | delivered {c inbox replies} (hst : c.stage = .exited true) (hserver : OwnOnly setup inbox) :
    Config setup p c inbox replies (.idle false) [(setup.text p).bytes]

section Steps
variable {setup : Setup} {p : Pid} {c c' : Process} {pending : Signum → Option Pending}
  {replies : Signum → Option Pid} {φ : Phase} {printed : List (List UInt8)}

/-- What is pending at the server after the client has executed a statement. -/
def sends (p : Pid) (c : Process) (sent : Option Signum) (pending : Signum → Option Pending) :
    Signum → Option Pending :=
  match sent with
  | none => pending
  | some signum => Function.update pending signum (some ((pending signum).getD ⟨p, System.originOf c.stage⟩))

theorem Config.move (h : Config setup p c pending replies φ printed) {move : Move} {sent : Option Signum}
    (htimer : move ≠ .giveUp ∧ move ≠ .ackTimeout)
    (hstep : Client.step setup.env.serverPid true p (setup.text p) c move = some (c', sent)) :
    Config setup p c' (sends p c sent pending) replies φ printed := by
  obtain ⟨hgive, htimeout⟩ := htimer
  cases h with
  | absent hst hserver => exact absurd hst (step_not_absent hstep)
  | start hserver hclient =>
    cases move <;> simp [Client.step] at hstep
    obtain ⟨rfl, rfl⟩ := hstep
    exact .pinging hserver hclient
  | pinging hserver hclient =>
    cases move <;> simp [Client.step] at hstep
    obtain ⟨rfl, rfl⟩ := hstep
    exact .pinged (by simp [sends, hserver, System.originOf]) (by simp [sends, hserver]) hclient
  | pinged husr1 husr2 hclient =>
    cases move <;> simp [Client.step, opening] at hstep hgive
  | answered hserver husr1 husr2 =>
    cases move <;> simp [Client.step, opening] at hstep hgive
  | ready stage hst hserver hclient =>
    rcases hst with rfl | rfl | rfl
    · cases move <;> simp [Client.step, greeted] at hstep hgive
      obtain ⟨rfl, rfl⟩ := hstep
      exact .ready _ (Or.inr (Or.inl rfl)) hserver hclient
    · cases move <;> simp [Client.step] at hstep
      obtain ⟨rfl, rfl⟩ := hstep
      exact .ready _ (Or.inr (Or.inr rfl)) hserver hclient
    · cases move <;> simp [Client.step] at hstep
      obtain ⟨-, rfl, rfl⟩ := hstep
      exact .sending 0 (setup.text p).signalCount_pos hserver hclient
  | sending k hk hserver hclient =>
    cases move <;> simp [Client.step, transmitting, isTransmissionOwner] at hstep
    obtain ⟨signum, hsig, rfl, rfl⟩ := hstep
    exact .sent k signum hk hsig (by simp [sends, hserver, System.originOf])
      (fun other ho => by simp [sends, ho, hserver]) hclient
  | sent k signum hk hsig hserver hothers hclient =>
    cases move <;> simp [Client.step, transmitting] at hstep htimeout
  | acknowledged k hk hserver husr1 husr2 =>
    cases move <;> simp [Client.step, transmitting] at hstep htimeout
  | heard k stage hst hk hserver hclient =>
    rcases hst with rfl | rfl
    · cases move <;> simp [Client.step, transmitting] at hstep htimeout
      obtain ⟨rfl, rfl⟩ := hstep
      exact .heard k _ (Or.inr rfl) hk hserver hclient
    · cases move <;> simp [Client.step, hk] at hstep
      obtain ⟨rfl, rfl⟩ := hstep
      exact .sending (k + 1) hk hserver hclient
  | completed hst hpid hserver husr1 =>
    obtain ⟨stage, server⟩ := c
    cases stage with
    | waiting k =>
      have hlast : k + 1 = (setup.text p).signalCount := hst
      cases move <;> simp [Client.step] at hstep htimeout
      obtain ⟨-, rfl, rfl⟩ := hstep
      exact .completed hlast hpid hserver husr1
    | acked k =>
      have hlast : k + 1 = (setup.text p).signalCount := hst
      cases move <;> simp [Client.step, hlast] at hstep
      obtain ⟨rfl, rfl⟩ := hstep
      exact .completed trivial hpid hserver husr1
    | paused => cases move <;> simp [Client.step] at hstep
    | _ => exact absurd hst id
  | delivered hst hserver => cases move <;> simp [Client.step, hst] at hstep

/-- A signal is delivered to the client. -/
theorem Config.deliver (h : Config setup p c pending replies φ printed) (hself : p ≠ setup.env.serverPid)
    {signum : Signum} {siPid : Pid} (halive : c.stage.alive = true) (hs : replies signum = some siPid) :
    Config setup p (Client.deliver p signum siPid c) pending (Function.update replies signum none) φ printed := by
  cases h with
  | absent hst hserver => simp [hst, Stage.alive] at halive
  | start hserver hclient => simp [hclient] at hs
  | pinging hserver hclient => simp [hclient] at hs
  | pinged husr1 husr2 hclient => simp [hclient] at hs
  | answered hserver husr1 husr2 =>
    cases signum with
    | SIGUSR1 =>
      cases husr1.symm.trans hs
      have hready : Client.deliver p .SIGUSR1 setup.env.serverPid ⟨.polling 1, opening setup⟩ =
          ⟨.polling 1, greeted setup⟩ := by
        simp [Client.deliver, pingHandler, hself.symm, opening, handlePong, greeted]
      rw [hready]
      exact .ready _ (Or.inl rfl) hserver fun other => by cases other <;> simp [husr2]
    | SIGUSR2 => simp [husr2] at hs
  | ready stage hst hserver hclient => simp [hclient] at hs
  | sending k hk hserver hclient => simp [hclient] at hs
  | sent k signum hk hsig hserver hothers hclient => simp [hclient] at hs
  | acknowledged k hk hserver husr1 husr2 =>
    cases signum with
    | SIGUSR1 => simp [husr1] at hs
    | SIGUSR2 =>
      cases husr2.symm.trans hs
      have hack : Client.deliver p .SIGUSR2 setup.env.serverPid ⟨.waiting k, transmitting setup p false⟩ =
          ⟨.waiting k, transmitting setup p true⟩ := by
        simp [Client.deliver, Client.signalHandler, validateSignalSource, transmitting, handleAcknowledgment]
      rw [hack]
      exact .heard k _ (Or.inl rfl) hk hserver fun other => by cases other <;> simp [husr1]
  | heard k stage hst hk hserver hclient => simp [hclient] at hs
  | completed hst hpid hserver husr1 =>
    have hhandler : Client.deliver p signum siPid c = Client.signalHandler signum siPid c := by
      unfold Client.deliver
      cases hstage : c.stage <;> simp [hstage, ends] at hst ⊢
    rw [hhandler]
    cases signum with
    | SIGUSR1 =>
      cases husr1.symm.trans hs
      have hexit : Client.signalHandler .SIGUSR1 setup.env.serverPid c = c.exit true := by
        simp [Client.signalHandler, validateSignalSource, hpid, handleCompletion]
      rw [hexit]
      exact .delivered rfl hserver
    | SIGUSR2 =>
      unfold Client.signalHandler
      split
      · exact .completed hst hpid hserver (by simpa using husr1)
      · exact .completed hst hpid hserver (by simpa using husr1)
  | delivered hst hserver => simp [hst, Stage.alive] at halive

end Steps
end Alone

/-! ### Runs -/

section Run
variable {setup : Setup} {p : Pid} {others : Pid → Process} {s s' : System} {actions : List System.Action}
open Alone

/-- The client `p` runs, and the others are as they were, not alive. -/
structure Running (setup : Setup) (p : Pid) (others : Pid → Process) (s : System) : Prop where
  sound : Sound setup s
  alone : ∀ q, q ≠ p → s.client q = others q
  dead : ∀ q, q ≠ p → (others q).stage.alive = false
  config : ∃ φ, Represents setup.env s.server φ ∧
    Config setup p (s.client p) s.serverPending (s.clientPending p) φ (printedFor p s.log)

theorem posted_of_alive (siPid : Pid) (signum : Signum) {c : Process} (pending : Signum → Option Pid)
    (h : c.stage.alive = true) :
    System.posted siPid signum c pending = Function.update pending signum (some ((pending signum).getD siPid)) :=
  if_pos h

theorem receive_ne_exited (pid : Pid) (bits : List Bool) (b : Bool) : (Phase.receive true pid bits b).1 ≠ .exited := by
  unfold Phase.receive
  split
  · simp
  · exact Phase.noConfusion
  · exact Phase.noConfusion

theorem taken_pending {pending : Signum → Option Pending} {signum : Signum}
    (h : ∀ other, other ≠ signum → pending other = none) (other : Signum) :
    Function.update pending signum none other = none := by
  by_cases ho : other = signum
  · subst ho
    exact Function.update_self ..
  · rw [Function.update_of_ne ho]
    exact h other ho

theorem kill_client_pending {pid : Pid} (hpid : pid ≠ 0) (signum : Signum) :
    (s.kill setup pid signum).serverPending = s.serverPending ∧
      (s.kill setup pid signum).clientPending pid =
        System.posted setup.env.serverPid signum (s.client pid) (s.clientPending pid) := by
  simp [System.kill, hpid]

/-- `kill(0, SIGUSR2)` leaves a pending `SIGUSR1` of a client alone. -/
theorem kill_group_usr1 : (s.kill setup 0 .SIGUSR2).clientPending p .SIGUSR1 = s.clientPending p .SIGUSR1 := by
  simp only [System.kill, System.killServer, if_true]
  split
  · exact posted_usr1 ..
  · rfl

/-- A signal is delivered to the server, and it answers its client. -/
theorem answered_pending (setup : Setup) (server : State) (answer : Signum) (hp : 0 < p) {signum : Signum}
    (entries : List Entry) (halive : (s.client p).stage.alive = true)
    (hclient : ∀ signum, s.clientPending p signum = none)
    (hothers : ∀ other, other ≠ signum → s.serverPending other = none) :
    let t := (s.received signum server entries).kill setup p answer
    (∀ other, t.serverPending other = none) ∧ t.clientPending p answer = some setup.env.serverPid ∧
      ∀ other, other ≠ answer → t.clientPending p other = none := by
  intro t
  obtain ⟨hserver, hposted⟩ := kill_client_pending (s := s.received signum server entries) hp.ne' answer
  have hposted : t.clientPending p = Function.update (s.clientPending p) answer
      (some ((s.clientPending p answer).getD setup.env.serverPid)) := hposted.trans (posted_of_alive _ _ _ halive)
  refine ⟨fun other => (congrFun hserver other).trans (taken_pending hothers other), ?_, fun other ho => ?_⟩
  · rw [hposted, Function.update_self, hclient]
    rfl
  · rw [hposted, Function.update_of_ne ho, hclient]

/-- The bit that the client has sent is delivered. -/
theorem config_bit (hp : 0 < p) {k : Nat} {signum : Signum} {server : State} (hk : k < (setup.text p).signalCount)
    (hfits : (setup.text p).len ≤ 10000000) (hsig : setup.signal? p k = some signum)
    (hst : s.client p = ⟨.waiting k, transmitting setup p false⟩)
    (hothers : ∀ other, other ≠ signum → s.serverPending other = none)
    (hclient : ∀ signum, s.clientPending p signum = none) (hprinted : printedFor p s.log = []) (origin : Origin) :
    let r := Phase.receive true p ((setup.code p).take k) (getBitValue signum)
    let t := r.2.foldl (System.applyEffect setup p) (s.received signum server [.bit p origin])
    Config setup p (t.client p) t.serverPending (t.clientPending p) r.1 (printedFor p t.log) := by
  intro r t
  have halive : (s.client p).stage.alive = true := by rw [hst]; rfl
  have hprocess : t.client p = ⟨.waiting k, transmitting setup p false⟩ := (congrFun (effects_client r.2) p).trans hst
  rw [hprocess]
  rcases receive_code hk hsig true with ⟨hlt, hr | hr⟩ | ⟨hlast, hr⟩ | ⟨⟨-, hlarge⟩, -⟩
  · exact absurd (congrArg Prod.fst hr) (receive_ne_exited _ _ _)
  · have ht : t = (s.received signum server [.bit p origin]).kill setup p .SIGUSR2 := by
      simp only [t, r, hr]
      rfl
    obtain ⟨hserver, husr2, hother⟩ := answered_pending setup server .SIGUSR2 hp [.bit p origin]
      halive hclient hothers
    have hlog : printedFor p t.log = [] := by
      rw [ht, kill_log, received_log, printedFor_append, hprinted]
      rfl
    rw [hlog, ht, show r.1 = .serving p ((setup.code p).take (k + 1)) from congrArg Prod.fst hr]
    exact .acknowledged k hlt hserver (hother _ (by decide)) husr2
  · have hlog : printedFor p t.log = [(setup.text p).bytes] := by
      rw [effects_log, received_log, printedFor_append, printedFor_append, hprinted,
        show r.2 = _ from congrArg Prod.snd hr]
      simp [printedEntries, printedFor]
    have husr1 : t.clientPending p .SIGUSR1 = some setup.env.serverPid := by
      have ht : t = ((s.received signum server [.bit p origin, .printed p (setup.text p).bytes]).kill setup p
          .SIGUSR1).kill setup 0 .SIGUSR2 := by
        simp [t, r, hr, System.applyEffect, System.received]
      rw [ht, kill_group_usr1]
      exact (answered_pending setup server .SIGUSR1 hp _ halive hclient hothers).2.1
    rw [hlog, show r.1 = .idle false from congrArg Prod.fst hr]
    refine .completed hlast rfl (fun other x hx => ?_) husr1
    rcases effects_serverPending hx with hx | hx
    · obtain ⟨ho, hx⟩ := received_serverPending hx
      rw [hothers other ho] at hx
      cases hx
    · exact hx
  · exact absurd hfits (Nat.not_le.mpr hlarge)

theorem running_handle (hmalloc : ∀ n, setup.env.mallocOk n = true) (hfits : (setup.text p).len ≤ 10000000)
    (hp : 0 < p) (hself : p ≠ setup.env.serverPid) (h : Running setup p others s) {signum : Signum}
    (hs : s.handle setup signum = some s') : Running setup p others s' := by
  obtain ⟨φ, hrep, hconfig⟩ := h.config
  obtain ⟨x, server, φ', hx, hex, hrep', hhandled⟩ := handle_inv hrep h.sound.sender hs
  have hclients := hhandled.client_eq
  refine ⟨sound_step (a := .handle signum) h.sound hs, by rw [hclients]; exact h.alone, h.dead, φ',
    by rw [hhandled.server_eq]; exact hrep', ?_⟩
  generalize hc : s.client p = c at hconfig
  generalize hpr : printedFor p s.log = printed at hconfig
  cases hconfig with
  | absent hst hserver => simp [hserver] at hx
  | start hserver hclient => simp [hserver] at hx
  | pinging hserver hclient => simp [hserver] at hx
  | pinged husr1 husr2 hclient =>
    have hothers : ∀ other, other ≠ .SIGUSR1 → s.serverPending other = none := fun other ho => by
      cases other
      · exact absurd rfl ho
      · exact husr2
    have hsig : signum = .SIGUSR1 := by
      by_contra hne
      simp [hothers signum hne] at hx
    subst hsig
    cases husr1.symm.trans hx
    cases hhandled with
    | ignored _ hignored => exact absurd hignored hself
    | opened phantom =>
      have halive : (s.client p).stage.alive = true := by rw [hc]; rfl
      obtain ⟨hserver, hready, hother⟩ := answered_pending setup server SERVER_READY hp [.opened p] halive
        hclient hothers
      rw [kill_client, kill_log, received_log, printedFor_append, hpr]
      show Config setup p (s.client p) _ _ _ _
      rw [hc]
      exact .answered hserver hready (hother _ (by decide))
  | answered hserver husr1 husr2 => simp [hserver] at hx
  | ready stage hst hserver hclient => simp [hserver] at hx
  | sending k hk hserver hclient => simp [hserver] at hx
  | sent k signum' hk hsig hserver hothers hclient =>
    have hsame : signum = signum' := by
      by_contra hne
      simp [hothers signum hne] at hx
    subst hsame
    cases hserver.symm.trans hx
    cases hhandled with
    | ignored _ hignored => exact absurd hignored hself
    | busy pid bits _ hne => exact absurd rfl hne
    | bit bits mallocOk _ hok =>
      rw [hmalloc] at hok
      subst hok
      exact config_bit hp hk hfits hsig hc hothers hclient hpr _
  | acknowledged k hk hserver husr1 husr2 => simp [hserver] at hx
  | heard k stage hst hk hserver hclient => simp [hserver] at hx
  | completed hst hpid hserver husr1 =>
    cases hhandled with
    | ignored _ hignored =>
      rw [received_log, List.append_nil, hpr]
      show Config setup p (s.client p) _ _ _ _
      rw [hc]
      exact .completed hst hpid (fun other y hy => hserver other y (received_serverPending hy).2) husr1
    | opened phantom hne => exact absurd (hserver signum x hx) hne
  | delivered hst hserver =>
    cases hhandled with
    | ignored _ hignored =>
      rw [received_log, List.append_nil, hpr]
      show Config setup p (s.client p) _ _ _ _
      rw [hc]
      exact .delivered hst fun other y hy => hserver other y (received_serverPending hy).2
    | opened phantom hne => exact absurd (hserver signum x hx) hne

theorem Alone.Config.serves {c : Process} {pending : Signum → Option Pending} {replies : Signum → Option Pid}
    {φ : Phase} {printed : List (List UInt8)} (h : Config setup p c pending replies φ printed)
    (hrep : Represents setup.env s.server φ) : s.server.exited = false := by
  cases h <;> exact hrep.1

theorem step_alive {serverAlive : Bool} {text : Text} {c c' : Process} {serverPid : Pid} {move : Move}
    {sent : Option Signum} (h : Client.step serverPid serverAlive p text c move = some (c', sent)) :
    c.stage.alive = true := by
  obtain ⟨stage, server⟩ := c
  cases stage <;> cases move <;> first | rfl | cases h

theorem Running.eq_of_alive (h : Running setup p others s) {q : Pid} (hq : (s.client q).stage.alive = true) :
    q = p := by
  by_contra hne
  rw [h.alone q hne, h.dead q hne] at hq
  cases hq

theorem Running.alone_update (h : Running setup p others s) (c : Process) (q : Pid) (hq : q ≠ p) :
    Function.update s.client p c q = others q := by
  rw [Function.update_of_ne hq]
  exact h.alone q hq

theorem running_step (hmalloc : ∀ n, setup.env.mallocOk n = true) (hfits : (setup.text p).len ≤ 10000000)
    (hp : 0 < p) (hself : p ≠ setup.env.serverPid) (h : Running setup p others s) {a : System.Action}
    (ha : a.undisturbed p = true) (hs : System.step setup s a = some s') : Running setup p others s' := by
  obtain ⟨φ, hrep, hconfig⟩ := h.config
  have hsound := sound_step h.sound hs
  cases a with
  | handle signum => exact running_handle hmalloc hfits hp hself h hs
  | cleanGlobal => cases ha
  | deliver q signum =>
    obtain ⟨siPid, hpend, halive, rfl⟩ := deliver_inv hs
    obtain rfl := h.eq_of_alive halive
    refine ⟨hsound, h.alone_update _, h.dead, φ, hrep, ?_⟩
    simp only [Function.update_self]
    exact hconfig.deliver hself halive hpend
  | spawn q =>
    obtain rfl : q = p := of_decide_eq_true ha
    obtain ⟨⟨-, -, habsent⟩, rfl⟩ := spawn_inv hs
    refine ⟨hsound, h.alone_update _, h.dead, φ, hrep, ?_⟩
    simp only [Function.update_self]
    generalize s.client q = c at hconfig habsent
    generalize printedFor q s.log = printed at hconfig ⊢
    cases hconfig with
    | absent hst hserver => exact .start hserver fun _ => rfl
    | completed hst => simp [habsent, ends] at hst
    | delivered hst => simp [habsent] at hst
    | ready stage hst => rcases hst with rfl | rfl | rfl <;> cases habsent
    | heard k stage hst => rcases hst with rfl | rfl <;> cases habsent
    | _ => cases habsent
  | client q move =>
    obtain ⟨c, sent, hstep, rfl⟩ := clientMove_inv hs
    obtain rfl := h.eq_of_alive (step_alive hstep)
    rw [hconfig.serves hrep] at hstep
    have hnext := hconfig.move (of_decide_eq_true ha) hstep
    cases sent with
    | none =>
      refine ⟨hsound, h.alone_update _, h.dead, φ, hrep, ?_⟩
      simp only [Function.update_self]
      exact hnext
    | some signum =>
      refine ⟨hsound, h.alone_update _, h.dead, φ, hrep, ?_⟩
      simp only [System.killServer, Function.update_self]
      exact hnext

/-- Until the client was told of its delivery, a step is possible in which no timer expires. -/
theorem Running.progress (h : Running setup p others s) (hp : 0 < p) (hself : p ≠ setup.env.serverPid) :
    ((s.client p).stage = .exited true ∧ printedFor p s.log = [(setup.text p).bytes]) ∨
      ∃ a, a.undisturbed p = true ∧ System.step setup s a ≠ none := by
  obtain ⟨φ, hrep, hconfig⟩ := h.config
  have hex := hconfig.serves hrep
  have hhandle : ∀ signum x, s.serverPending signum = some x → System.step setup s (.handle signum) ≠ none :=
    fun signum x hx => by simp [System.step, System.handle, hx, hex]
  have hdeliver : ∀ signum siPid, (s.client p).stage.alive = true → s.clientPending p signum = some siPid →
      System.step setup s (.deliver p signum) ≠ none := fun signum siPid halive hpend => by
    simp [System.step, System.deliver, hpend, halive]
  have hmove : ∀ move r, Client.step setup.env.serverPid true p (setup.text p) (s.client p) move = some r →
      System.step setup s (.client p move) ≠ none := fun move r hr => by
    have halive : (!s.server.exited) = true := by rw [hex]; rfl
    obtain ⟨c, sent⟩ := r
    simp only [System.step, System.clientMove, halive, hr]
    cases sent <;> exact Option.some_ne_none _
  generalize hc : s.client p = c at hconfig hdeliver hmove
  generalize printedFor p s.log = printed at hconfig ⊢
  cases hconfig with
  | absent hst hserver => exact Or.inr ⟨.spawn p, by simp [System.Action.undisturbed], by
      simp [System.step, System.spawn, hp, hself, hc, hst]⟩
  | start hserver hclient => exact Or.inr ⟨.client p .setup, rfl, hmove .setup _ rfl⟩
  | pinging hserver hclient => exact Or.inr ⟨.client p .sendPing, rfl, hmove .sendPing _ rfl⟩
  | pinged husr1 => exact Or.inr ⟨.handle .SIGUSR1, rfl, hhandle _ _ husr1⟩
  | answered hserver husr1 => exact Or.inr ⟨.deliver p .SIGUSR1, rfl, hdeliver _ _ rfl husr1⟩
  | ready stage hst =>
    rcases hst with rfl | rfl | rfl
    · exact Or.inr ⟨.client p .ready, rfl, hmove .ready _ rfl⟩
    · exact Or.inr ⟨.client p .prepare, rfl, hmove .prepare _ rfl⟩
    · exact Or.inr ⟨.client p .takeSlot, rfl, hmove .takeSlot _ rfl⟩
  | sending k hk =>
    have hlen : k < (startTransmission (setup.text p)).length := by
      rw [length_startTransmission]
      exact hk
    refine Or.inr ⟨.client p .sendBit, rfl, hmove .sendBit
      (⟨.waiting k, transmitting setup p false⟩, some (startTransmission (setup.text p))[k]) ?_⟩
    simp [Client.step, transmitting, isTransmissionOwner, hlen]
  | sent k signum hk hsig hserver => exact Or.inr ⟨.handle signum, rfl, hhandle _ _ hserver⟩
  | acknowledged k hk hserver husr1 husr2 => exact Or.inr ⟨.deliver p .SIGUSR2, rfl, hdeliver _ _ rfl husr2⟩
  | heard k stage hst =>
    rcases hst with rfl | rfl
    · exact Or.inr ⟨.client p .ackSeen, rfl, hmove .ackSeen _ rfl⟩
    · exact Or.inr ⟨.client p .ackReset, rfl, hmove .ackReset _ rfl⟩
  | completed hst hpid hserver husr1 =>
    refine Or.inr ⟨.deliver p .SIGUSR1, rfl, hdeliver _ _ ?_ husr1⟩
    cases hstage : c.stage <;> simp [hstage, ends, Stage.alive] at hst ⊢
  | delivered hst => exact Or.inl ⟨hst, rfl⟩

theorem running_run (hmalloc : ∀ n, setup.env.mallocOk n = true) (hp : 0 < p) (hself : p ≠ setup.env.serverPid)
    (hfits : (setup.text p).len ≤ 10000000) (hrun : (system setup).run {} actions = some s)
    (halone : ∀ a ∈ actions, a.undisturbed p = true) : Running setup p (fun _ => {}) s := by
  have hok : (system setup).Meets (fun _ a => a.undisturbed p = true) {} actions :=
    Transition.meets_of_forall _ halone
  exact Transition.run_invariant (I := Running setup p fun _ => {})
    (fun _ _ _ h ha hs => running_step hmalloc hfits hp hself h ha hs)
    ⟨sound_initial setup, fun _ _ => rfl, fun _ _ => rfl, .idle false, represents_initial, .absent rfl fun _ => rfl⟩
    hok hrun

/-- Behind the delivery nothing is left to do. -/
theorem Running.ended (h : Running setup p others s) (hst : (s.client p).stage = .exited true)
    (hpending : ∀ signum, s.serverPending signum = none) {a : System.Action} (ha : a.undisturbed p = true) :
    System.step setup s a = none := by
  have hdead : ∀ q, (s.client q).stage.alive = false := fun q => by
    by_cases hq : q = p
    · rw [hq, hst]
      rfl
    · rw [h.alone q hq]
      exact h.dead q hq
  cases a with
  | handle signum => simp [System.step, System.handle, hpending signum]
  | cleanGlobal => cases ha
  | deliver q signum =>
    simp only [System.step, System.deliver, hdead]
    split <;> rfl
  | spawn q =>
    obtain rfl : q = p := of_decide_eq_true ha
    simp [System.step, System.spawn, hst]
  | client q move =>
    by_contra hsome
    obtain ⟨t, ht⟩ := Option.ne_none_iff_exists'.mp hsome
    obtain ⟨c, sent, hstep, -⟩ := clientMove_inv ht
    exact absurd (step_alive hstep) (by rw [hdead]; exact Bool.false_ne_true)

/-- Every run of a client on its own that goes as far as it can without a timer ends with the delivery. -/
theorem lone_client_delivered (hmalloc : ∀ n, setup.env.mallocOk n = true) (hp : 0 < p)
    (hself : p ≠ setup.env.serverPid) (hfits : (setup.text p).len ≤ 10000000)
    (hrun : (system setup).run {} actions = some s) (halone : ∀ a ∈ actions, a.undisturbed p = true)
    (hlast : ∀ a, a.undisturbed p = true → System.step setup s a = none) :
    (s.client p).stage = .exited true ∧ printedFor p s.log = [(setup.text p).bytes] := by
  rcases (running_run hmalloc hp hself hfits hrun halone).progress hp hself with hdone | ⟨a, ha, hstep⟩
  · exact hdone
  · exact absurd (hlast a ha) hstep

/-- The session of the message `A`, up to the signal that the server sends to its own group. -/
theorem lone_client_delivered_A : ∃ s, (system (uniform false textA)).run {} (delivers ++ [.handle .SIGUSR2]) =
    some s ∧ (s.client 2).stage = .exited true ∧ printedFor 2 s.log = [[0x41]] := by
  have hend : ((system (uniform false textA)).run {} (delivers ++ [.handle .SIGUSR2])).map (fun s =>
      (s.serverPending .SIGUSR1, s.serverPending .SIGUSR2, (s.client 2).stage)) =
      some (none, none, .exited true) := by decide +kernel
  obtain ⟨s, hrun, hend⟩ := Option.map_eq_some_iff.mp hend
  obtain ⟨h1, hend⟩ := Prod.mk.inj hend
  obtain ⟨h2, hst⟩ := Prod.mk.inj hend
  have halone : ∀ a ∈ delivers ++ [System.Action.handle .SIGUSR2], a.undisturbed 2 = true :=
    List.all_eq_true.mp (by decide +kernel)
  have hrunning := running_run (fun _ => rfl) (by decide) (by decide) (by decide) hrun halone
  exact ⟨s, hrun, lone_client_delivered (fun _ => rfl) (by decide) (by decide) (by decide) hrun halone
    fun a ha => hrunning.ended hst (fun signum => by cases signum <;> assumption) ha⟩

end Run

end Minitalk
