import Minitalk.System.Exclusion
import Mathlib.Algebra.BigOperators.Group.Finset.Piecewise
import Mathlib.Algebra.Order.BigOperators.Group.Finset

/-! # Every run ends

The clients of a run send finitely many pings and bits, and each signal is answered a bounded number of times; so no
interleaving of finitely many clients goes on for ever. `potential` weighs what is left to do, and every step lowers
it: timeouts, clean-ups and lost signals included. -/

namespace Minitalk
open Server Client

/-- How many statements a client has left, at most. -/
def Client.Stage.movesLeft (text : Text) : Stage → Nat
  | absent => 3 * text.signalCount + 67
  | start => 3 * text.signalCount + 66
  | pinging a => 3 * text.signalCount + 3 * (RETRY_TIMES - a) + 8
  | polling a => 3 * text.signalCount + 3 * (RETRY_TIMES - a) + 7
  | retryDelay a => 3 * text.signalCount + 3 * (RETRY_TIMES - a) + 6
  | connected => 3 * text.signalCount + 5
  | slot => 3 * text.signalCount + 4
  | sending k => 3 * (text.signalCount - k) + 3
  | waiting k => 3 * (text.signalCount - k) + 2
  | acked k => 3 * (text.signalCount - k) + 1
  | paused | exited _ => 0

theorem movesLeft_step {serverPid myPid : Pid} {alive : Bool} {text : Text} {c c' : Process} {move : Move}
    {sent : Option Signum} (h : Client.step serverPid alive myPid text c move = some (c', sent)) :
    c'.stage.movesLeft text < c.stage.movesLeft text := by
  cases move with
  | setup =>
    obtain ⟨hst, heq⟩ := setup_inv h
    cases heq
    simp only [hst, Stage.movesLeft, RETRY_TIMES]
    omega
  | sendPing =>
    obtain ⟨a, hst, ⟨-, heq⟩ | ⟨-, heq⟩⟩ := sendPing_inv h <;> cases heq <;>
      simp only [hst, Stage.movesLeft, Process.exit] <;> omega
  | ready =>
    obtain ⟨a, hst, -, heq⟩ := ready_inv h
    cases heq
    simp only [hst, Stage.movesLeft]
    omega
  | giveUp =>
    obtain ⟨a, hst, -, heq⟩ := giveUp_inv h
    cases heq
    simp only [hst, Stage.movesLeft]
    omega
  | retry =>
    obtain ⟨a, hst, ⟨hlt, heq⟩ | ⟨-, heq⟩⟩ := retry_inv h <;> cases heq <;>
      simp only [hst, Stage.movesLeft, Process.exit] <;> omega
  | prepare =>
    obtain ⟨hst, heq⟩ := prepare_inv h
    cases heq
    simp only [hst, Stage.movesLeft]
    omega
  | takeSlot =>
    obtain ⟨hst, -, heq⟩ := takeSlot_inv h
    cases heq
    simp only [hst, Stage.movesLeft]
    omega
  | sendBit =>
    obtain ⟨k, hst, heq | ⟨_, -, heq⟩⟩ := sendBit_inv h <;> cases heq <;>
      simp only [hst, Stage.movesLeft, Process.exit] <;> omega
  | ackSeen =>
    obtain ⟨k, hst, -, heq⟩ := ackSeen_inv h
    cases heq
    simp only [hst, Stage.movesLeft]
    omega
  | ackReset =>
    obtain ⟨k, hst, heq⟩ := ackReset_inv h
    cases heq
    simp only [hst]
    split <;> simp only [Stage.movesLeft] <;> omega
  | ackTimeout =>
    obtain ⟨k, hst, heq⟩ := ackTimeout_inv h
    cases heq
    simp only [hst, Stage.movesLeft, Process.exit]
    omega

/-- A signal leaves the process no more to do than before. -/
theorem movesLeft_deliver (text : Text) (myPid : Pid) (signum : Signum) (siPid : Pid) (c : Process) :
    (Client.deliver myPid signum siPid c).stage.movesLeft text ≤ c.stage.movesLeft text := by
  rcases deliver_stage myPid signum siPid c with hst | ⟨b, hst⟩ <;> rw [hst]
  exact Nat.zero_le _

/-! ### What is left to do -/

/-- How many signals are pending at a client. -/
def pendingCount (pending : Signum → Option Pid) : Nat :=
  (if (pending .SIGUSR1).isSome then 1 else 0) + if (pending .SIGUSR2).isSome then 1 else 0

/-- A signal of a client may be answered to each of `n` clients and to the server itself, and may open a session. -/
def weight (setup : Setup) (n : Nat) : Option Pending → Nat
  | none => 0
  | some x => if x.siPid = setup.env.serverPid then 1 else n + 4

def sessionOpen (server : State) : Nat := if server.client.actualPid = 0 then 0 else 1

section Potential
variable (setup : Setup) (P : Finset Pid)

/-- What the signals in flight may still cause. -/
def traffic (s : System) : Nat :=
  weight setup P.card (s.serverPending .SIGUSR1) + weight setup P.card (s.serverPending .SIGUSR2) +
    ∑ p ∈ P, pendingCount (s.clientPending p)

def potential (s : System) : Nat :=
  (P.card + 5) * ∑ p ∈ P, (s.client p).stage.movesLeft (setup.text p) + traffic setup P s + sessionOpen s.server

end Potential

section Traffic
variable {setup : Setup} {P : Finset Pid} {s : System}

theorem pendingCount_update (pending : Signum → Option Pid) (signum : Signum) (siPid : Pid) :
    pendingCount (Function.update pending signum (some siPid)) ≤ pendingCount pending + 1 := by
  cases signum with
  | SIGUSR1 =>
    simp [pendingCount]
    omega
  | SIGUSR2 => simp [pendingCount]

theorem pendingCount_taken {pending : Signum → Option Pid} {signum : Signum} {siPid : Pid}
    (h : pending signum = some siPid) :
    pendingCount (Function.update pending signum none) + 1 = pendingCount pending := by
  cases signum <;> simp [pendingCount, h, Nat.add_comm]

theorem pendingCount_posted (siPid : Pid) (signum : Signum) (c : Process) (pending : Signum → Option Pid) :
    pendingCount (System.posted siPid signum c pending) ≤ pendingCount pending + 1 := by
  unfold System.posted
  split
  · exact pendingCount_update _ _ _
  · exact Nat.le_succ _

/-- A signal to the server that is pending already adds nothing. -/
theorem traffic_killServer (signum : Signum) (x : Pending) :
    traffic setup P (s.killServer signum x) ≤ traffic setup P s + weight setup P.card (some x) := by
  have hslot : ∀ o : Option Pending,
      weight setup P.card (some (o.getD x)) ≤ weight setup P.card o + weight setup P.card (some x) := by
    intro o
    cases o with
    | none => exact Nat.le_add_left _ _
    | some y => exact Nat.le_add_right _ _
  have h1 := hslot (s.serverPending .SIGUSR1)
  have h2 := hslot (s.serverPending .SIGUSR2)
  cases signum <;> simp only [traffic, System.killServer, Function.update_self, ne_eq, reduceCtorEq,
    not_false_eq_true, Function.update_of_ne] <;> omega

/-- What a `kill` of the server may cause. -/
def effectCost (n : Nat) : Effect → Nat
  | .kill pid _ => if pid = 0 then n + 1 else 1
  | .print _ => 0

theorem traffic_kill (pid : Pid) (signum : Signum) :
    traffic setup P (s.kill setup pid signum) ≤ traffic setup P s + if pid = 0 then P.card + 1 else 1 := by
  unfold System.kill
  by_cases h0 : pid = 0
  · rw [if_pos h0, if_pos h0]
    refine Nat.le_trans (traffic_killServer _ _) ?_
    have hposted : ∑ p ∈ P, pendingCount (if setup.inGroup p then
        System.posted setup.env.serverPid signum (s.client p) (s.clientPending p) else s.clientPending p) ≤
        ∑ p ∈ P, (pendingCount (s.clientPending p) + 1) := by
      refine Finset.sum_le_sum fun p _ => ?_
      split
      · exact pendingCount_posted ..
      · exact Nat.le_succ _
    rw [Finset.sum_add_distrib, ← Finset.card_eq_sum_ones] at hposted
    simp only [traffic, weight, if_true]
    omega
  · rw [if_neg h0, if_neg h0]
    have hposted : ∑ p ∈ P, pendingCount (Function.update s.clientPending pid
        (System.posted setup.env.serverPid signum (s.client pid) (s.clientPending pid)) p) ≤
        ∑ p ∈ P, (pendingCount (s.clientPending p) + if p = pid then 1 else 0) := by
      refine Finset.sum_le_sum fun p _ => ?_
      by_cases hp : p = pid
      · subst hp
        rw [Function.update_self, if_pos rfl]
        exact pendingCount_posted ..
      · rw [Function.update_of_ne hp, if_neg hp]
        exact Nat.le_refl _
    have hone : ∑ p ∈ P, (if p = pid then 1 else 0) ≤ 1 := by
      rw [Finset.sum_ite_eq']
      split <;> decide
    rw [Finset.sum_add_distrib] at hposted
    simp only [traffic]
    omega

theorem traffic_effects {actualPid : Pid} (out : List Effect) :
    traffic setup P (out.foldl (System.applyEffect setup actualPid) s) ≤
      traffic setup P s + (out.map (effectCost P.card)).sum := by
  induction out generalizing s with
  | nil => exact Nat.le_refl _
  | cons e out ih =>
    have hone : traffic setup P (s.applyEffect setup actualPid e) ≤ traffic setup P s + effectCost P.card e := by
      cases e with
      | kill pid signum => exact traffic_kill pid signum
      | print message => exact Nat.le_refl _
    have hrest := ih (s := s.applyEffect setup actualPid e)
    rw [List.map_cons, List.sum_cons]
    exact Nat.le_trans hrest (by omega)

/-- The signal that is delivered to the server is no longer in flight. -/
theorem traffic_received {signum : Signum} {x : Pending} (hx : s.serverPending signum = some x) (server : State)
    (entries : List Entry) :
    traffic setup P (s.received signum server entries) + weight setup P.card (some x) = traffic setup P s := by
  cases signum <;> simp only [traffic, System.received, Function.update_self, ne_eq, reduceCtorEq,
    not_false_eq_true, Function.update_of_ne, hx, weight] <;> omega

theorem receive_cost (n : Nat) (mallocOk : Bool) {pid : Pid} (hpid : pid ≠ 0) (bits : List Bool) (b : Bool) :
    ((Phase.receive mallocOk pid bits b).2.map (effectCost n)).sum ≤ n + 2 := by
  rcases receive_cases mallocOk pid bits b with hr | hr | hr | ⟨us, -, hr⟩ <;> rw [hr] <;>
    simp [effectCost, hpid]
  omega

end Traffic

/-! ### Every step lowers it -/

section Steps
variable {setup : Setup} {P : Finset Pid} {s s' : System}

/-- Besides what holds in every run, the clients of the run are all in `P`. -/
structure Among (setup : Setup) (P : Finset Pid) (s : System) : Prop where
  sound : Sound setup s
  mem : ∀ p, (s.client p).stage ≠ .absent → p ∈ P

theorem sessionOpen_le (server : State) : sessionOpen server ≤ 1 := by
  unfold sessionOpen
  split <;> decide

/-- A phase in which a session is open. -/
def Server.Phase.load : Phase → Nat
  | serving _ _ => 1
  | _ => 0

theorem sessionOpen_eq {server : State} {φ : Phase} (h : Represents setup.env server φ)
    (hex : server.exited = false) : sessionOpen server = φ.load := by
  cases φ with
  | exited => exact absurd (hex.symm.trans h) (by decide)
  | idle phantom => rw [sessionOpen, h.2.2, actualPid_idleRecord, if_pos rfl]; rfl
  | serving pid bits => rw [sessionOpen, if_neg (by rw [h.2.2.2.2.1]; exact h.2.2.1.ne')]; rfl

theorem exited_eq_false {server server' : State} {φ : Phase} (h : Represents setup.env server φ)
    (hex : server.exited = false) (h' : Represents setup.env server' φ) : server'.exited = false := by
  cases φ with
  | exited => exact absurd (hex.symm.trans h) (by decide)
  | idle phantom => exact h'.1
  | serving pid bits => exact h'.1

/-- What is in flight after a signal was delivered to the server, with the session that it may have opened. -/
theorem traffic_handled {φ φ' : Phase} {signum : Signum} {x : Pending} {server : State}
    (hx : s.serverPending signum = some x) (hpos : 0 < x.siPid) (hex : s.server.exited = false)
    (hrep : Represents setup.env s.server φ) (hrep' : Represents setup.env server φ')
    (h : Handled setup s signum x server φ φ' s') :
    traffic setup P s' + sessionOpen server < traffic setup P s + sessionOpen s.server := by
  have hopen := sessionOpen_eq hrep hex
  have hopen' := sessionOpen_le server
  have htaken : ∀ entries, traffic setup P (s.received signum server entries) + weight setup P.card (some x) =
      traffic setup P s := traffic_received hx server
  have hkill : ∀ entries answer, traffic setup P ((s.received signum server entries).kill setup x.siPid answer) ≤
      traffic setup P (s.received signum server entries) + 1 := fun entries answer => by
    have hle : traffic setup P ((s.received signum server entries).kill setup x.siPid answer) ≤
        traffic setup P (s.received signum server entries) + if x.siPid = 0 then P.card + 1 else 1 :=
      traffic_kill x.siPid answer
    rwa [if_neg hpos.ne'] at hle
  cases h with
  | ignored _ hself =>
    have hsame : sessionOpen server = sessionOpen s.server :=
      (sessionOpen_eq hrep' (exited_eq_false hrep hex hrep')).trans hopen.symm
    have ht := htaken []
    rw [weight, if_pos hself] at ht
    omega
  | opened phantom hself =>
    have ht := htaken [.opened x.siPid]
    have hready := hkill [.opened x.siPid] SERVER_READY
    rw [weight, if_neg hself] at ht
    omega
  | busy pid bits hself =>
    have hsame : sessionOpen server = sessionOpen s.server :=
      (sessionOpen_eq hrep' (exited_eq_false hrep hex hrep')).trans hopen.symm
    have ht := htaken []
    have hbusy := hkill [] SERVER_BUSY
    rw [weight, if_neg hself] at ht
    omega
  | bit bits mallocOk hself =>
    have hone : sessionOpen s.server = 1 := hopen
    have ht := htaken [.bit x.siPid x.origin]
    have hcost := receive_cost P.card mallocOk hpos.ne' bits (getBitValue signum)
    have hout : traffic setup P ((Phase.receive mallocOk x.siPid bits (getBitValue signum)).2.foldl
        (System.applyEffect setup x.siPid) (s.received signum server [.bit x.siPid x.origin])) ≤
        traffic setup P (s.received signum server [.bit x.siPid x.origin]) +
          ((Phase.receive mallocOk x.siPid bits (getBitValue signum)).2.map (effectCost P.card)).sum :=
      traffic_effects _
    rw [weight, if_neg hself] at ht
    omega

/-- A client of `P` that has less to do: the others are as before. -/
theorem movesLeft_update {p : Pid} (hp : p ∈ P) (c : Process) {k : Nat}
    (hle : c.stage.movesLeft (setup.text p) + k ≤ (s.client p).stage.movesLeft (setup.text p)) :
    ∑ q ∈ P, (Function.update s.client p c q).stage.movesLeft (setup.text q) + k ≤
      ∑ q ∈ P, (s.client q).stage.movesLeft (setup.text q) := by
  rw [← Finset.add_sum_erase P _ hp, ← Finset.add_sum_erase P (fun q => (s.client q).stage.movesLeft _) hp]
  have hrest : ∑ q ∈ P.erase p, (Function.update s.client p c q).stage.movesLeft (setup.text q) =
      ∑ q ∈ P.erase p, (s.client q).stage.movesLeft (setup.text q) :=
    Finset.sum_congr rfl fun q hq => by rw [Function.update_of_ne (Finset.ne_of_mem_erase hq)]
  rw [hrest, Function.update_self]
  omega

theorem pendingCount_client {p : Pid} (hp : p ∈ P) (pending : Signum → Option Pid) {k : Nat}
    (hle : pendingCount pending + k ≤ pendingCount (s.clientPending p)) :
    ∑ q ∈ P, pendingCount (Function.update s.clientPending p pending q) + k ≤
      ∑ q ∈ P, pendingCount (s.clientPending q) := by
  rw [← Finset.add_sum_erase P _ hp, ← Finset.add_sum_erase P (fun q => pendingCount (s.clientPending q)) hp]
  have hrest : ∑ q ∈ P.erase p, pendingCount (Function.update s.clientPending p pending q) =
      ∑ q ∈ P.erase p, pendingCount (s.clientPending q) :=
    Finset.sum_congr rfl fun q hq => by rw [Function.update_of_ne (Finset.ne_of_mem_erase hq)]
  rw [hrest, Function.update_self]
  omega

theorem Among.client_update (h : Among setup P s) {p : Pid} (hp : p ∈ P) (c : Process) :
    ∀ q, (Function.update s.client p c q).stage ≠ .absent → q ∈ P := by
  intro q hq
  by_cases he : q = p
  · exact he ▸ hp
  · rw [Function.update_of_ne he] at hq
    exact h.mem q hq

theorem potential_step {a : System.Action} (h : Among setup P s) (hspawn : ∀ p, a = .spawn p → p ∈ P)
    (hs : System.step setup s a = some s') : Among setup P s' ∧ potential setup P s' < potential setup P s := by
  have hsound := sound_step h.sound hs
  obtain ⟨φ, hrep⟩ := h.sound.represents
  cases a with
  | handle signum =>
    obtain ⟨x, server, φ', hx, hex, hrep', hhandled⟩ := handle_inv hrep h.sound.sender hs
    have hless : traffic setup P s' + sessionOpen server < traffic setup P s + sessionOpen s.server :=
      traffic_handled hx (h.sound.sender signum x hx) hex hrep hrep' hhandled
    refine ⟨⟨hsound, fun p hp => h.mem p (hhandled.client_eq ▸ hp)⟩, ?_⟩
    unfold potential
    rw [hhandled.client_eq, hhandled.server_eq]
    omega
  | cleanGlobal =>
    obtain ⟨hex, hpos, rfl⟩ := cleanGlobal_inv hs
    have hclosed : sessionOpen (cleanGlobal s.server) = 0 :=
      sessionOpen_eq (represents_cleanGlobal hrep hex) (represents_cleanGlobal hrep hex).1
    have hopen : sessionOpen s.server = 1 := if_neg hpos.ne'
    refine ⟨⟨hsound, h.mem⟩, ?_⟩
    simp only [potential, traffic, hclosed, hopen]
    omega
  | deliver p signum =>
    obtain ⟨siPid, hpend, halive, rfl⟩ := deliver_inv hs
    have hp : p ∈ P := h.mem p fun ha => by rw [ha] at halive; cases halive
    refine ⟨⟨hsound, h.client_update hp _⟩, ?_⟩
    have hmoves := movesLeft_update (k := 0) hp (Client.deliver p signum siPid (s.client p))
      (movesLeft_deliver (setup.text p) p signum siPid (s.client p))
    have hpending := pendingCount_client hp _ (pendingCount_taken hpend).le
    have hmul := Nat.mul_le_mul_left (P.card + 5) (Nat.le_of_add_right_le hmoves)
    simp only [potential, traffic]
    omega
  | spawn p =>
    obtain ⟨⟨-, -, habsent⟩, rfl⟩ := spawn_inv hs
    have hp : p ∈ P := hspawn p rfl
    refine ⟨⟨hsound, h.client_update hp _⟩, ?_⟩
    have hless : ({ stage := .start } : Process).stage.movesLeft (setup.text p) + 1 ≤
        (s.client p).stage.movesLeft (setup.text p) := by
      rw [habsent]
      exact Nat.le_refl _
    have hmoves := movesLeft_update hp _ hless
    have hpending := pendingCount_client (k := 0) (s := s) hp (fun _ => none) (Nat.zero_le _)
    have hmul := Nat.mul_le_mul_left (P.card + 5) hmoves
    rw [Nat.mul_add, Nat.mul_one] at hmul
    simp only [potential, traffic]
    omega
  | client p move =>
    obtain ⟨c, sent, hstep, rfl⟩ := clientMove_inv hs
    have hp : p ∈ P := h.mem p (step_not_absent hstep)
    have hmoves := movesLeft_update (k := 1) hp c (movesLeft_step hstep)
    have hmul := Nat.mul_le_mul_left (P.card + 5) hmoves
    rw [Nat.mul_add, Nat.mul_one] at hmul
    cases sent with
    | none =>
      refine ⟨⟨hsound, h.client_update hp c⟩, ?_⟩
      simp only [potential, traffic]
      omega
    | some signum =>
      refine ⟨⟨hsound, h.client_update hp c⟩, ?_⟩
      have hsent : traffic setup P (System.killServer signum ⟨p, System.originOf (s.client p).stage⟩
          { s with client := Function.update s.client p c }) ≤
          traffic setup P { s with client := Function.update s.client p c } +
            weight setup P.card (some ⟨p, System.originOf (s.client p).stage⟩) := traffic_killServer signum _
      have hweight : weight setup P.card (some ⟨p, System.originOf (s.client p).stage⟩) = P.card + 4 :=
        if_neg (h.sound.client p (step_not_absent hstep)).2
      rw [hweight] at hsent
      simp only [potential, System.killServer] at hsent ⊢
      simp only [traffic] at hsent ⊢
      omega

end Steps

end Minitalk
