import Minitalk.System.View

/-! # The link between a client and the server

`Link` says, for every stage of a client, where the server is with its session and what may still be on its way
between them. The steps of other processes do not change it. -/

namespace Minitalk
open Server Client

def Setup.code (setup : Setup) (p : Pid) : List Bool := wire.encode (setup.text p).units

def Setup.signal? (setup : Setup) (p : Pid) (k : Nat) : Option Signum := (startTransmission (setup.text p))[k]?

/-! ### What is on its way -/

section Pending
variable (sent : Signum → Option Origin)

/-- Nothing of the client is pending at the server. -/
def Quiet : Prop := ∀ signum, sent signum = none

/-- This, and nothing else, is pending of the client at the server. -/
def Only (signum : Signum) (origin : Origin) : Prop :=
  sent signum = some origin ∧ ∀ other, other ≠ signum → sent other = none

/-- Nothing is on its way to the client, and it has no acknowledgment. -/
structure NoReply (replies : Signum → Option Pid) (server : ServerState) : Prop where
  usr1 : replies .SIGUSR1 = none
  usr2 : replies .SIGUSR2 = none
  ready : server.readyToProceed = false

end Pending

/-! ### The session -/

section Link
variable (setup : Setup) (p : Pid) (φ : Phase)

/-- The server has read the first `k` bits of the client's transmission, and nothing else, in its session. -/
structure OpenAt (bits : List Origin) (k : Nat) : Prop where
  phase : φ = .serving p ((setup.code p).take k)
  bits : bits = (List.range k).map .data

def Closed : Prop := ∀ bits, φ ≠ .serving p bits

/-- The server has read the whole transmission and has printed the message. -/
structure Completed (v : View) : Prop where
  closed : Closed p φ
  quiet : Quiet v.sent
  printed : (setup.text p).bytes ∈ v.printed
  bits : v.bits = (List.range (setup.text p).signalCount).map .data

/-! ### The stages -/

/-- Between the first ping and the `READY` that ends it. -/
structure Pinging (v : View) : Prop where
  ready : v.process.server.readyToProceed = false
  session : (Closed p φ ∧ v.replies .SIGUSR1 = none ∧ v.process.server.isReady = false ∧
      (Quiet v.sent ∨ Only v.sent .SIGUSR1 .ping)) ∨
    (OpenAt setup p φ v.bits 0 ∧ Quiet v.sent ∧ (v.replies .SIGUSR1 = none ∨ v.process.server.isReady = false))

/-- After the k-th bit was sent. -/
inductive Waiting (v : View) (k : Nat) : Prop where
  | pending (signum : Signum) (hsig : setup.signal? p k = some signum) (hopen : OpenAt setup p φ v.bits k)
      (honly : Only v.sent signum (.data k)) (hno : NoReply v.replies v.process.server)
  /-- Another process had the signal pending at the server. -/
  | lost (hopen : OpenAt setup p φ v.bits k) (hquiet : Quiet v.sent) (hno : NoReply v.replies v.process.server)
  | answered (hlt : k + 1 < (setup.text p).signalCount) (hopen : OpenAt setup p φ v.bits (k + 1))
      (hquiet : Quiet v.sent) (husr1 : v.replies .SIGUSR1 = none)
      (hone : v.replies .SIGUSR2 = none ∨ v.process.server.readyToProceed = false)
  | completed (hlast : k + 1 = (setup.text p).signalCount) (hdone : Completed setup p φ v)
  /-- The header was refused, or the server has left. -/
  | refused (hclosed : Closed p φ) (hquiet : Quiet v.sent) (hno : NoReply v.replies v.process.server)
      (hgone : φ = .exited ∨ (setup.inGroup p = false ∧ 32 ≤ k + 1 ∧ 10000000 < (setup.text p).len))

/-- A client that has left may have one signal pending at the server, the next one of its session. -/
inductive Left (sent : Signum → Option Origin) (bits : List Origin) : Prop where
  | closed (hclosed : Closed p φ) (hsent : Quiet sent ∨ ∃ signum origin, Only sent signum origin)
  | serving (k : Nat) (hk : k < (setup.text p).signalCount) (hopen : OpenAt setup p φ bits k)
      (hsent : Quiet sent ∨ ∃ signum, setup.signal? p k = some signum ∧ Only sent signum (.data k))

def StageLink (v : View) : Stage → Prop
  | .absent => Closed p φ ∧ Quiet v.sent
  | .start => Closed p φ ∧ Quiet v.sent ∧ v.replies .SIGUSR1 = none
  | .pinging _ | .polling _ | .retryDelay _ => Pinging setup p φ v
  | .connected => OpenAt setup p φ v.bits 0 ∧ Quiet v.sent ∧ v.replies .SIGUSR1 = none ∧
      v.process.server.readyToProceed = false
  | .slot => OpenAt setup p φ v.bits 0 ∧ Quiet v.sent ∧ NoReply v.replies v.process.server
  | .sending k => k < (setup.text p).signalCount ∧ OpenAt setup p φ v.bits k ∧ Quiet v.sent ∧
      NoReply v.replies v.process.server
  | .waiting k => k < (setup.text p).signalCount ∧ Waiting setup p φ v k
  | .acked k =>
    (k + 1 < (setup.text p).signalCount ∧ OpenAt setup p φ v.bits (k + 1) ∧ Quiet v.sent ∧
        v.replies .SIGUSR1 = none ∧ v.replies .SIGUSR2 = none) ∨
      (k + 1 = (setup.text p).signalCount ∧ Completed setup p φ v)
  | .paused => Completed setup p φ v
  | .exited delivered => (delivered = true → (setup.text p).bytes ∈ v.printed) ∧ Left setup p φ v.sent v.bits

/-- The process was spawned as a client; one in the server's process group announces a length that the server
    takes. -/
structure Spawned : Prop where
  pos : 0 < p
  self : p ≠ setup.env.serverPid
  fits : setup.inGroup p = true → (setup.text p).len ≤ 10000000

structure Link (v : View) : Prop where
  stage : StageLink setup p φ v v.process.stage
  spawned : v.process.stage = .absent ∨ Spawned setup p
  printed : ∀ message ∈ v.printed, message = (setup.text p).bytes
  read : .ping ∉ v.read

end Link

def Linked (setup : Setup) (s : System) : Prop :=
  ∃ φ, Represents setup.env s.server φ ∧ ∀ p, Link setup p φ (s.view setup p)

/-! ### Facts about the parts -/

section Parts
variable {setup : Setup} {p : Pid} {φ φ' : Phase} {v v' : View} {k : Nat} {sent : Signum → Option Origin}
  {bits : List Origin} {signum : Signum} {origin : Origin}

theorem Only.taken (h : Only sent signum origin) : Quiet (Function.update sent signum none) := by
  intro other
  by_cases ho : other = signum
  · subst ho
    simp
  · simpa [ho] using h.2 other ho

theorem Only.eq {other : Signum} {o : Origin} (h : Only sent signum origin) (ho : sent other = some o) :
    other = signum ∧ o = origin := by
  by_cases hs : other = signum
  · subst hs
    exact ⟨rfl, Option.some.inj (ho.symm.trans h.1)⟩
  · rw [h.2 other hs] at ho
    cases ho

theorem Quiet.posted (h : Quiet sent) : Only (Function.update sent signum (some origin)) signum origin :=
  ⟨Function.update_self .., fun other ho => (Function.update_of_ne ho ..).trans (h other)⟩

theorem Quiet.not_some (h : Quiet sent) (hs : sent signum = some origin) : False := by
  rw [h signum] at hs
  cases hs

theorem OpenAt.not_closed (h : OpenAt setup p φ bits k) : ¬Closed p φ := fun hc => hc _ h.phase

theorem OpenAt.zero : OpenAt setup p (.serving p []) [] 0 := ⟨rfl, rfl⟩

theorem closed_idle (p : Pid) (phantom : Bool) : Closed p (.idle phantom) := fun _ => Phase.noConfusion

theorem closed_exited (p : Pid) : Closed p .exited := fun _ => Phase.noConfusion

theorem closed_serving {q : Pid} (hq : q ≠ p) (bits : List Bool) : Closed p (.serving q bits) :=
  fun _ h => hq (Phase.serving.inj h).1

theorem Link.at (h : Link setup p φ v) {stage : Stage} (hst : v.process.stage = stage) :
    StageLink setup p φ v stage := hst ▸ h.stage

theorem stageLink_of_inPing {stage : Stage} (h : stage.inPing = true) :
    StageLink setup p φ v stage ↔ Pinging setup p φ v := by
  cases stage with
  | pinging a | polling a | retryDelay a => exact Iff.rfl
  | _ => cases h

theorem Link.spawned_of (h : Link setup p φ v) (hst : v.process.stage ≠ .absent) : Spawned setup p :=
  h.spawned.resolve_left hst

theorem Link.spawned_of_sent (h : Link setup p φ v) (hs : v.sent signum = some origin) : Spawned setup p := by
  rcases h.spawned with ha | hsp
  · exact ((h.at ha).2.not_some hs).elim
  · exact hsp

end Parts

/-! ### A client that leaves -/

section Leaving
variable {setup : Setup} {p : Pid} {φ φ' : Phase} {v v' : View}

/-- A step after which the stage is linked again, and nothing new was read or printed. -/
theorem Link.next (h : Link setup p φ v) (hne : v.process.stage ≠ .absent)
    (hstage : StageLink setup p φ' v' v'.process.stage) (hprinted : v'.printed = v.printed)
    (hread : v'.read = v.read) : Link setup p φ' v' :=
  ⟨hstage, Or.inr (h.spawned_of hne), hprinted ▸ h.printed, hread ▸ h.read⟩

theorem Pinging.left (h : Pinging setup p φ v) : Left setup p φ v.sent v.bits := by
  rcases h.session with ⟨hclosed, -, -, hquiet | honly⟩ | ⟨hopen, hquiet, -⟩
  · exact .closed hclosed (Or.inl hquiet)
  · exact .closed hclosed (Or.inr ⟨_, _, honly⟩)
  · exact .serving 0 (setup.text p).signalCount_pos hopen (Or.inl hquiet)

theorem Waiting.left {k : Nat} (hk : k < (setup.text p).signalCount) (h : Waiting setup p φ v k) :
    Left setup p φ v.sent v.bits := by
  cases h with
  | pending signum hsig hopen honly => exact .serving k hk hopen (Or.inr ⟨signum, hsig, honly⟩)
  | lost hopen hquiet => exact .serving k hk hopen (Or.inl hquiet)
  | answered hlt hopen hquiet => exact .serving (k + 1) hlt hopen (Or.inl hquiet)
  | completed _ hdone => exact .closed hdone.closed (Or.inl hdone.quiet)
  | refused hclosed hquiet => exact .closed hclosed (Or.inl hquiet)

/-- In every stage, at most one signal of the client is pending, and it is the next one of its session. -/
theorem Link.left (h : Link setup p φ v) : Left setup p φ v.sent v.bits := by
  have hpos := (setup.text p).signalCount_pos
  cases hst : v.process.stage with
  | absent => exact .closed (h.at hst).1 (Or.inl (h.at hst).2)
  | start => exact .closed (h.at hst).1 (Or.inl (h.at hst).2.1)
  | pinging a => exact Pinging.left (h.at hst)
  | polling a => exact Pinging.left (h.at hst)
  | retryDelay a => exact Pinging.left (h.at hst)
  | connected => exact .serving 0 hpos (h.at hst).1 (Or.inl (h.at hst).2.1)
  | slot => exact .serving 0 hpos (h.at hst).1 (Or.inl (h.at hst).2.1)
  | sending k => exact .serving k (h.at hst).1 (h.at hst).2.1 (Or.inl (h.at hst).2.2.1)
  | waiting k => exact Waiting.left (h.at hst).1 (h.at hst).2
  | acked k =>
    rcases h.at hst with ⟨hlt, hopen, hquiet, -⟩ | ⟨-, hdone⟩
    · exact .serving (k + 1) hlt hopen (Or.inl hquiet)
    · exact .closed hdone.closed (Or.inl hdone.quiet)
  | paused =>
    have hdone : Completed setup p φ v := h.at hst
    exact .closed hdone.closed (Or.inl hdone.quiet)
  | exited delivered => exact (h.at hst).2

theorem Link.exit (h : Link setup p φ v) (hne : v.process.stage ≠ .absent) {delivered : Bool}
    (hprinted : delivered = true → (setup.text p).bytes ∈ v.printed) :
    Link setup p φ { v with process := v.process.exit delivered } :=
  h.next hne ⟨hprinted, h.left⟩ rfl rfl

end Leaving

/-! ### Steps of other processes -/

section Others
variable {setup : Setup} {p : Pid} {φ φ' : Phase} {v : View}

/-- What happens to the sessions of others, a `SIGUSR2` to the process group included, does not matter to a client
    that is not served. -/
theorem Link.other (h : Link setup p φ v) (hc : Closed p φ) (hc' : Closed p φ') (hex : φ ≠ .exited)
    {replies : Signum → Option Pid} (h1 : replies .SIGUSR1 = v.replies .SIGUSR1)
    (h2 : replies .SIGUSR2 = v.replies .SIGUSR2 ∨ setup.inGroup p = true) :
    Link setup p φ' { v with replies } := by
  refine ⟨?_, h.spawned, h.printed, h.read⟩
  have hcompleted : Completed setup p φ v → Completed setup p φ' { v with replies } := fun hd =>
    ⟨hc', hd.quiet, hd.printed, hd.bits⟩
  have hpinging : Pinging setup p φ v → Pinging setup p φ' { v with replies } := fun hp =>
    ⟨hp.ready, hp.session.imp (fun hs => ⟨hc', h1.trans hs.2.1, hs.2.2⟩) fun hs => absurd hc hs.1.not_closed⟩
  show StageLink setup p φ' { v with replies } v.process.stage
  cases hst : v.process.stage with
  | absent => exact ⟨hc', (h.at hst).2⟩
  | start => exact ⟨hc', (h.at hst).2.1, h1.trans (h.at hst).2.2⟩
  | pinging a => exact hpinging (h.at hst)
  | polling a => exact hpinging (h.at hst)
  | retryDelay a => exact hpinging (h.at hst)
  | connected => exact absurd hc (h.at hst).1.not_closed
  | slot => exact absurd hc (h.at hst).1.not_closed
  | sending k => exact absurd hc (h.at hst).2.1.not_closed
  | waiting k =>
    have hstage := h.at hst
    refine ⟨hstage.1, ?_⟩
    cases hstage.2 with
    | pending _ _ hopen => exact absurd hc hopen.not_closed
    | lost hopen => exact absurd hc hopen.not_closed
    | answered _ hopen => exact absurd hc hopen.not_closed
    | completed hlast hdone => exact .completed hlast (hcompleted hdone)
    | refused _ hquiet hno hgone =>
      have hlarge := hgone.resolve_left hex
      have husr2 := h2.resolve_right (by rw [hlarge.1]; decide)
      exact .refused hc' hquiet ⟨h1.trans hno.usr1, husr2.trans hno.usr2, hno.ready⟩ (Or.inr hlarge)
  | acked k =>
    have hstage := h.at hst
    exact hstage.imp (fun hs => absurd hc hs.2.1.not_closed) fun hs => ⟨hs.1, hcompleted hs.2⟩
  | paused => exact hcompleted (h.at hst)
  | exited b =>
    have hstage := h.at hst
    refine ⟨hstage.1, ?_⟩
    cases hstage.2 with
    | closed _ hsent => exact .closed hc' hsent
    | serving k _ hopen => exact absurd hc hopen.not_closed

end Others

end Minitalk
