import Minitalk.Server.Cleanup
import Minitalk.System.Delivery
import Minitalk.System.Handling

/-! # One transmission at a time, and each message once

What the handshake of `READY` and `BUSY` is for. As long as the steps of `Disciplined` are left out, no two clients
are in their transmissions, and the server prints for each client at most once. -/

namespace Minitalk
open Server Client

/-- How many bits of a transmission the server reads; it drops a message that is too long for it after the header. -/
def Client.Text.bitsRead (text : Text) : Nat := if text.len ≤ 10000000 then text.signalCount else 32

theorem Client.Text.bitsRead_le (text : Text) : text.bitsRead ≤ text.signalCount := by
  unfold Text.bitsRead
  split
  · exact Nat.le_refl _
  · exact Nat.le_add_right 32 _

/-- From `READY` on, until the last bit that the server reads is sent. -/
def Client.Stage.transmits (text : Text) : Stage → Bool
  | connected | slot | sending _ => true
  | waiting k | acked k => decide (k + 1 < text.bitsRead)
  | _ => false

/-- The client has sent its last bit, or has left. -/
def Client.Stage.spent (text : Text) : Stage → Bool
  | waiting k | acked k => decide (k + 1 = text.signalCount)
  | paused | exited _ => true
  | _ => false

section Exclusion
variable {setup : Setup} {s s' : System} {actions : List System.Action}

theorem StageLink.open_of_transmits {p : Pid} {φ : Phase} {v : View} {stage : Stage}
    (h : StageLink setup p φ v stage) (ht : stage.transmits (setup.text p) = true) (hex : φ ≠ .exited) :
    ∃ k, OpenAt setup p φ v.bits k := by
  have hle := (setup.text p).bitsRead_le
  cases stage with
  | connected => exact ⟨0, h.1⟩
  | slot => exact ⟨0, h.1⟩
  | sending k => exact ⟨k, h.2.1⟩
  | waiting k =>
    have hlt : k + 1 < (setup.text p).bitsRead := of_decide_eq_true ht
    cases h.2 with
    | pending _ _ hopen => exact ⟨k, hopen⟩
    | lost hopen => exact ⟨k, hopen⟩
    | answered _ hopen => exact ⟨k + 1, hopen⟩
    | completed hlast => omega
    | refused _ _ _ hgone =>
      -- a header that is refused is the last of what the server reads
      obtain ⟨-, hheader, hlarge⟩ := hgone.resolve_left hex
      rw [Text.bitsRead, if_neg (Nat.not_le.mpr hlarge)] at hlt
      omega
  | acked k =>
    have hlt : k + 1 < (setup.text p).bitsRead := of_decide_eq_true ht
    rcases h with ⟨-, hopen, -⟩ | ⟨hlast, -⟩
    · exact ⟨k + 1, hopen⟩
    · omega
  | _ => cases ht

/-- When the server has left, a client in its transmission waits for an acknowledgment. -/
theorem StageLink.waiting_of_exited {p : Pid} {v : View} {stage : Stage} (h : StageLink setup p .exited v stage)
    (ht : stage.transmits (setup.text p) = true) : ∃ k, stage = .waiting k := by
  have hclosed := closed_exited p
  cases stage with
  | connected => exact absurd hclosed h.1.not_closed
  | slot => exact absurd hclosed h.1.not_closed
  | sending k => exact absurd hclosed h.2.1.not_closed
  | waiting k => exact ⟨k, rfl⟩
  | acked k =>
    have hlt : k + 1 < (setup.text p).bitsRead := of_decide_eq_true ht
    have hle := (setup.text p).bitsRead_le
    rcases h with ⟨-, hopen, -⟩ | ⟨hlast, -⟩
    · exact absurd hclosed hopen.not_closed
    · omega
  | _ => cases ht

/-- Each client in its transmission is the one in the server's record. -/
def Served (setup : Setup) (s : System) : Prop :=
  ∀ p, (s.client p).stage.transmits (setup.text p) = true → s.server.client.actualPid = p

theorem Linked.served (h : Linked setup s) (hex : s.server.exited = false) : Served setup s := by
  obtain ⟨φ, hrep, hlink⟩ := h
  intro p hp
  have hφ : φ ≠ .exited := by
    rintro rfl
    exact absurd (hex.symm.trans hrep) (by decide)
  obtain ⟨k, hopen⟩ := (hlink p).stage.open_of_transmits hp hφ
  rw [hopen.phase] at hrep
  exact hrep.2.2.2.2.1

theorem Linked.exited (h : Linked setup s) (hex : s.server.exited = true) (p : Pid) :
    Link setup p .exited (s.view setup p) := by
  obtain ⟨φ, hrep, hlink⟩ := h
  cases φ with
  | exited => exact hlink p
  | idle phantom => exact absurd (hex.symm.trans hrep.1) (by decide)
  | serving pid bits => exact absurd (hex.symm.trans hrep.1) (by decide)

/-- Only the statement that sends a bit leads to the loop that waits for its acknowledgment. -/
theorem step_waiting {serverPid : Pid} {alive : Bool} {text : Text} {p : Pid} {c c' : Process} {move : Move}
    {sent : Option Signum} {k : Nat} (h : Client.step serverPid alive p text c move = some (c', sent))
    (hst : c'.stage = .waiting k) : c.stage = .sending k := by
  cases move with
  | sendBit =>
    obtain ⟨j, hj, heq | ⟨_, -, heq⟩⟩ := sendBit_inv h
    · cases heq
      cases hst
    · cases heq
      cases hst
      exact hj
  | setup =>
    cases (setup_inv h).2
    cases hst
  | sendPing =>
    obtain ⟨_, -, ⟨-, heq⟩ | ⟨-, heq⟩⟩ := sendPing_inv h <;> cases heq <;> cases hst
  | ready =>
    obtain ⟨_, -, -, heq⟩ := ready_inv h
    cases heq
    cases hst
  | giveUp =>
    obtain ⟨_, -, -, heq⟩ := giveUp_inv h
    cases heq
    cases hst
  | retry =>
    obtain ⟨_, -, ⟨-, heq⟩ | ⟨-, heq⟩⟩ := retry_inv h <;> cases heq <;> cases hst
  | prepare =>
    cases (prepare_inv h).2
    cases hst
  | takeSlot =>
    cases (takeSlot_inv h).2.2
    cases hst
  | ackSeen =>
    obtain ⟨_, -, -, heq⟩ := ackSeen_inv h
    cases heq
    cases hst
  | ackReset =>
    obtain ⟨_, -, heq⟩ := ackReset_inv h
    cases heq
    dsimp only at hst
    split at hst <;> cases hst
  | ackTimeout =>
    obtain ⟨_, -, heq⟩ := ackTimeout_inv h
    cases heq
    cases hst

theorem handle_server {signum : Signum} (h : s.handle setup signum = some s') :
    s.server.exited = false ∧ s'.client = s.client ∧
      ∃ siPid, s'.server = (Server.signalHandler setup.env signum siPid s.server).1 := by
  unfold System.handle at h
  split at h
  · rename_i x hx
    split at h
    · cases h
    · rename_i hex
      cases h
      exact ⟨Bool.eq_false_iff.mpr hex, effects_client _, x.siPid, effects_server _⟩
  · cases h

/-- After the server has left, no client starts its transmission. -/
theorem served_exited {a : System.Action} (h : Served setup s) (hlinked : Linked setup s) (hlinked' : Linked setup s')
    (hex : s.server.exited = true) (hs : System.step setup s a = some s') : Served setup s' := by
  cases a with
  | handle signum => exact absurd (hex.symm.trans (handle_server hs).1) (by decide)
  | cleanGlobal => exact absurd (hex.symm.trans (cleanGlobal_inv hs).1) (by decide)
  | deliver q signum =>
    obtain ⟨siPid, -, -, rfl⟩ := deliver_inv hs
    intro p hp
    by_cases hq : p = q
    · subst hq
      simp only [Function.update_self] at hp
      rcases deliver_stage p signum siPid (s.client p) with hst | ⟨b, hst⟩ <;> rw [hst] at hp
      · exact h p hp
      · cases hp
    · simp only [Function.update_of_ne hq] at hp
      exact h p hp
  | spawn q =>
    obtain ⟨-, rfl⟩ := spawn_inv hs
    intro p hp
    by_cases hq : p = q
    · subst hq
      simp only [Function.update_self] at hp
      cases hp
    · simp only [Function.update_of_ne hq] at hp
      exact h p hp
  | client q move =>
    obtain ⟨c, sent, hstep, hs'⟩ := clientMove_inv hs
    have hserver : s'.server = s.server := by
      rw [hs']
      cases sent <;> rfl
    have hclient : s'.client = Function.update s.client q c := by
      rw [hs']
      cases sent <;> rfl
    intro p hp
    rw [hserver]
    by_cases hq : p = q
    · -- it could only have sent a bit, but it is not served
      subst hq
      obtain ⟨k, hwait⟩ := (hlinked'.exited (hserver ▸ hex) p).stage.waiting_of_exited hp
      have hwait : c.stage = .waiting k := by
        rw [← hwait]
        show c.stage = (s'.client p).stage
        rw [hclient, Function.update_self]
      have hopen := ((hlinked.exited hex p).at (step_waiting hstep hwait)).2.1
      exact absurd (closed_exited p) hopen.not_closed
    · rw [hclient, Function.update_of_ne hq] at hp
      exact h p hp

theorem served_step {a : System.Action} (h : Served setup s) (hlinked : Linked setup s) (hlinked' : Linked setup s')
    (hs : System.step setup s a = some s') : Served setup s' := by
  cases hex' : s'.server.exited with
  | false => exact hlinked'.served hex'
  | true =>
    cases hex : s.server.exited with
    | true => exact served_exited h hlinked hlinked' hex hs
    | false =>
      cases a with
      | handle signum =>
        obtain ⟨-, hclient, siPid, hserver⟩ := handle_server hs
        intro p hp
        rw [hclient] at hp
        rw [hserver] at hex' ⊢
        exact (exit_actualPid hex hex').trans (h p hp)
      | cleanGlobal =>
        obtain ⟨-, -, rfl⟩ := cleanGlobal_inv hs
        obtain ⟨φ, hrep, -⟩ := hlinked
        exact absurd ((represents_cleanGlobal hrep hex).1.symm.trans hex') (by decide)
      | deliver q signum =>
        obtain ⟨_, -, -, rfl⟩ := deliver_inv hs
        exact absurd (hex.symm.trans hex') (by decide)
      | spawn q =>
        obtain ⟨-, rfl⟩ := spawn_inv hs
        exact absurd (hex.symm.trans hex') (by decide)
      | client q move =>
        obtain ⟨c, sent, -, rfl⟩ := clientMove_inv hs
        cases sent <;> exact absurd (hex.symm.trans hex') (by decide)

theorem served_run (hok : (system setup).Meets (System.Disciplined setup) {} actions)
    (hrun : (system setup).run {} actions = some s) : Served setup s :=
  (Transition.run_invariant (I := fun s => Linked setup s ∧ Served setup s)
    (fun _ _ _ h hok hstep =>
      have hlinked := linked_step h.1 hok hstep
      ⟨hlinked, served_step h.2 h.1 hlinked hstep⟩)
    ⟨linked_initial setup, fun _ hp => absurd hp Bool.false_ne_true⟩ hok hrun).2

/-- The client 3 pings while the client 2 is in its transmission, and is told `BUSY`. -/
def interferes : List System.Action :=
  connects ++ [.spawn 3, .client 3 .setup, .client 3 .sendPing, .handle .SIGUSR1, .deliver 3 .SIGUSR2]

end Exclusion

/-! ### A client that is over -/

/-- The client has sent its last bit or has left, nothing of it is pending, and the server does not serve it. -/
structure Finished (setup : Setup) (p : Pid) (s : System) : Prop where
  spent : (s.client p).stage.spent (setup.text p) = true
  quiet : ∀ signum x, s.serverPending signum = some x → x.siPid ≠ p
  served : s.server.exited = false → s.server.client.actualPid ≠ p

/-- Nothing is printed for the client, or one message and the client is over. -/
def Once (setup : Setup) (p : Pid) (s : System) : Prop :=
  printedFor p s.log = [] ∨ ((printedFor p s.log).length = 1 ∧ Finished setup p s)

section Server
variable {setup : Setup} {s s' : System} {p : Pid} {signum : Signum} {x : Pending} {server : State} {φ φ' : Phase}

theorem served_of_closed (hrep : Represents setup.env server φ) (hc : Closed p φ) (hp : 0 < p)
    (hex : server.exited = false) : server.client.actualPid ≠ p := by
  cases φ with
  | exited => exact absurd (hex.symm.trans hrep) (by decide)
  | idle phantom =>
    rw [hrep.2.2, actualPid_idleRecord]
    exact hp.ne
  | serving pid bits =>
    rintro rfl
    exact hc bits (by rw [hrep.2.2.2.2.1])

/-- Only the sender of the signal may be served after it and not before. -/
theorem Handled.closed (h : Handled setup s signum x server φ φ' s') (hc : Closed p φ) (hne : x.siPid ≠ p) :
    Closed p φ' := by
  cases h with
  | ignored => exact hc
  | opened => exact closed_serving hne _
  | busy => exact hc
  | bit bits mallocOk =>
    rcases receive_cases mallocOk x.siPid bits (getBitValue signum) with hr | hr | hr | ⟨us, -, hr⟩ <;> rw [hr]
    · exact closed_exited p
    · exact closed_serving hne _
    · exact closed_idle p _
    · exact closed_idle p _

@[simp] theorem printedFor_append (p : Pid) (log entries : List Entry) :
    printedFor p (log ++ entries) = printedFor p log ++ printedFor p entries := List.filterMap_append

/-- Something is printed for the sender of the signal only, with the bit that completes its frame. -/
theorem Handled.printed (h : Handled setup s signum x server φ φ' s') :
    (∀ p, printedFor p s'.log = printedFor p s.log) ∨
      ∃ bits us, φ = .serving x.siPid bits ∧ φ' = .idle false ∧ x.siPid ≠ setup.env.serverPid ∧
        wire.status (bits ++ [getBitValue signum]) = .complete us ∧
        s'.log = s.log ++ [.bit x.siPid x.origin, .printed x.siPid (us.map UInt8.ofNat)] := by
  have hquiet : ∀ entries : List Entry, (∀ e ∈ entries, ∀ pid message, e ≠ .printed pid message) →
      s'.log = s.log ++ entries → ∀ p, printedFor p s'.log = printedFor p s.log := by
    intro entries hnone hlog p
    rw [hlog, printedFor_append]
    suffices hempty : printedFor p entries = [] by rw [hempty, List.append_nil]
    refine List.filterMap_eq_nil_iff.mpr fun e he => ?_
    cases e with
    | printed pid message => exact absurd rfl (hnone _ he pid message)
    | opened pid => rfl
    | bit pid origin => rfl
  cases h with
  | ignored => exact Or.inl (hquiet [] (by simp) rfl)
  | opened => exact Or.inl (hquiet [.opened x.siPid] (by simp) (kill_log _))
  | busy => exact Or.inl (hquiet [] (by simp) (kill_log _))
  | bit bits mallocOk hself =>
    generalize hr : Phase.receive mallocOk x.siPid bits (getBitValue signum) = r at hquiet ⊢
    have hlog : (r.2.foldl (System.applyEffect setup x.siPid) (s.received signum server [.bit x.siPid x.origin])).log =
        s.log ++ (.bit x.siPid x.origin :: printedEntries x.siPid r.2) :=
      (effects_log r.2).trans (List.append_assoc ..)
    have hsilent : printedEntries x.siPid r.2 = [] → ∀ p, printedFor p _ = printedFor p s.log := fun hnone =>
      hquiet [.bit x.siPid x.origin] (by simp) (by rw [hlog, hnone])
    rcases hr ▸ receive_cases mallocOk x.siPid bits (getBitValue signum) with rfl | rfl | rfl | ⟨us, hst, rfl⟩
    · exact Or.inl (hsilent rfl)
    · exact Or.inl (hsilent rfl)
    · exact Or.inl (hsilent rfl)
    · exact Or.inr ⟨bits, us, rfl, rfl, hself, hst, hlog⟩

end Server

/-! ### The steps of a client that is over -/

section Finished
variable {setup : Setup} {s s' : System} {p : Pid}

theorem Finished.not_absent (h : Finished setup p s) : (s.client p).stage ≠ .absent := fun ha => by
  have hspent := h.spent
  rw [ha] at hspent
  cases hspent

/-- It sends nothing, and stays over. -/
theorem step_spent {serverPid : Pid} {alive : Bool} {text : Text} {c c' : Process} {move : Move} {sent : Option Signum}
    (hspent : c.stage.spent text = true) (h : Client.step serverPid alive p text c move = some (c', sent)) :
    c'.stage.spent text = true ∧ sent = none := by
  have hst : ∀ {stage : Stage}, c.stage = stage → stage.spent text = true := fun h => h ▸ hspent
  cases move with
  | setup => exact absurd (hst (setup_inv h).1) Bool.false_ne_true
  | sendPing =>
    obtain ⟨a, ha, -⟩ := sendPing_inv h
    exact absurd (hst ha) Bool.false_ne_true
  | ready =>
    obtain ⟨a, ha, -⟩ := ready_inv h
    exact absurd (hst ha) Bool.false_ne_true
  | giveUp =>
    obtain ⟨a, ha, -⟩ := giveUp_inv h
    exact absurd (hst ha) Bool.false_ne_true
  | retry =>
    obtain ⟨a, ha, -⟩ := retry_inv h
    exact absurd (hst ha) Bool.false_ne_true
  | prepare => exact absurd (hst (prepare_inv h).1) Bool.false_ne_true
  | takeSlot => exact absurd (hst (takeSlot_inv h).1) Bool.false_ne_true
  | sendBit =>
    obtain ⟨k, hk, -⟩ := sendBit_inv h
    exact absurd (hst hk) Bool.false_ne_true
  | ackSeen =>
    obtain ⟨k, hk, -, heq⟩ := ackSeen_inv h
    cases heq
    have hlast : k + 1 = text.signalCount := of_decide_eq_true (hst hk)
    exact ⟨decide_eq_true hlast, rfl⟩
  | ackReset =>
    obtain ⟨k, hk, heq⟩ := ackReset_inv h
    cases heq
    have hlast : k + 1 = text.signalCount := of_decide_eq_true (hst hk)
    simp [hlast, Stage.spent]
  | ackTimeout =>
    obtain ⟨k, -, heq⟩ := ackTimeout_inv h
    cases heq
    exact ⟨rfl, rfl⟩

/-- Only the server's handler writes the log. -/
theorem step_log {a : System.Action} (hs : System.step setup s a = some s') :
    (∃ signum, a = .handle signum) ∨ s'.log = s.log := by
  cases a with
  | handle signum => exact Or.inl ⟨signum, rfl⟩
  | cleanGlobal =>
    obtain ⟨-, -, rfl⟩ := cleanGlobal_inv hs
    exact Or.inr rfl
  | deliver q signum =>
    obtain ⟨_, -, -, rfl⟩ := deliver_inv hs
    exact Or.inr rfl
  | spawn q =>
    obtain ⟨-, rfl⟩ := spawn_inv hs
    exact Or.inr rfl
  | client q move =>
    obtain ⟨c, sent, -, rfl⟩ := clientMove_inv hs
    cases sent <;> exact Or.inr rfl

theorem Finished.step {a : System.Action} (hsound : Sound setup s) (h : Finished setup p s)
    (hs : System.step setup s a = some s') :
    Finished setup p s' ∧ printedFor p s'.log = printedFor p s.log := by
  obtain ⟨φ, hrep⟩ := hsound.represents
  obtain ⟨hpos, hself⟩ := hsound.client p h.not_absent
  cases a with
  | handle signum =>
    obtain ⟨x, server, φ', hx, hex, hrep', hhandled⟩ := handle_inv hrep hsound.sender hs
    have hne := h.quiet signum x hx
    have hclosed := hhandled.closed (closed_of_represents hrep (h.served hex)) hne
    refine ⟨⟨hhandled.client_eq ▸ h.spent, fun other y hy => ?_, fun hex' => ?_⟩, ?_⟩
    · rcases hhandled.serverPending hy with ⟨-, hy⟩ | hy
      · exact h.quiet other y hy
      · exact hy ▸ hself.symm
    · rw [hhandled.server_eq] at hex' ⊢
      exact served_of_closed hrep' hclosed hpos hex'
    · rcases hhandled.printed with hnone | ⟨_, us, -, -, -, -, hlog⟩
      · exact hnone p
      · rw [hlog, printedFor_append]
        simp [printedFor, hne]
  | cleanGlobal =>
    obtain ⟨hex, -, rfl⟩ := cleanGlobal_inv hs
    exact ⟨⟨h.spent, h.quiet, served_of_closed (represents_cleanGlobal hrep hex) (closed_idle p _) hpos⟩, rfl⟩
  | deliver q signum =>
    obtain ⟨siPid, -, -, rfl⟩ := deliver_inv hs
    refine ⟨⟨?_, h.quiet, h.served⟩, rfl⟩
    by_cases hq : p = q
    · subst hq
      simp only [Function.update_self]
      rcases deliver_stage p signum siPid (s.client p) with hst | ⟨b, hst⟩ <;> rw [hst]
      · exact h.spent
      · rfl
    · simpa only [Function.update_of_ne hq] using h.spent
  | spawn q =>
    obtain ⟨⟨-, -, habsent⟩, rfl⟩ := spawn_inv hs
    have hq : p ≠ q := by
      rintro rfl
      exact h.not_absent habsent
    exact ⟨⟨by simpa only [Function.update_of_ne hq] using h.spent, h.quiet, h.served⟩, rfl⟩
  | client q move =>
    obtain ⟨c, sent, hstep, rfl⟩ := clientMove_inv hs
    by_cases hq : p = q
    · subst hq
      obtain ⟨hspent, rfl⟩ := step_spent h.spent hstep
      exact ⟨⟨by simpa only [Function.update_self] using hspent, h.quiet, h.served⟩, rfl⟩
    · cases sent with
      | none => exact ⟨⟨by simpa only [Function.update_of_ne hq] using h.spent, h.quiet, h.served⟩, rfl⟩
      | some signum =>
        refine ⟨⟨by simpa only [System.killServer, Function.update_of_ne hq] using h.spent, fun other y hy => ?_,
          h.served⟩, rfl⟩
        rcases killServer_serverPending hy with hy | rfl
        · exact h.quiet other y hy
        · exact Ne.symm hq

end Finished

/-! ### Each message once -/

section Once
variable {setup : Setup} {s s' : System} {p : Pid} {actions : List System.Action}

/-- The client whose message is printed has sent its last bit. -/
theorem finished_of_printed (hlinked : Linked setup s) (hsound : Sound setup s) {signum : Signum}
    (hs : s.handle setup signum = some s') (hprinted : printedFor p s'.log ≠ printedFor p s.log) :
    Finished setup p s' ∧ ∃ message, printedFor p s'.log = printedFor p s.log ++ [message] := by
  obtain ⟨φ, hrep, hlink⟩ := hlinked
  obtain ⟨x, server, φ', hx, hex, hrep', hhandled⟩ := handle_inv hrep hsound.sender hs
  rcases hhandled.printed with hnone | ⟨bits, us, rfl, rfl, hself, hst, hlog⟩
  · exact absurd (hnone p) hprinted
  have hp : x.siPid = p := by
    by_contra hne
    rw [hlog, printedFor_append] at hprinted
    simp [printedFor, hne] at hprinted
  subst hp
  have hserved : ¬Closed x.siPid (.serving x.siPid bits) := fun hc => hc bits rfl
  obtain ⟨k, -, hn⟩ := (hlink x.siPid).nextBit hserved (sent_of_pending hx hself)
  obtain ⟨-, rfl⟩ := Phase.serving.inj hn.opened.phase
  have hlast : k + 1 = (setup.text x.siPid).signalCount := by
    rw [take_code hn.signal] at hst
    rcases status_code (setup.text x.siPid) hn.lt with ⟨-, h⟩ | ⟨hlast, -⟩ | ⟨-, h⟩
    · exact absurd (hst.symm.trans h) (by simp)
    · exact hlast
    · exact absurd (hst.symm.trans h) (by simp)
  refine ⟨⟨?_, fun other y hy => ?_, fun hex' => ?_⟩, us.map UInt8.ofNat, ?_⟩
  · rw [hhandled.client_eq]
    rcases hn.stage with ⟨hst, -⟩ | ⟨b, hst⟩
    · have hst : (s.client x.siPid).stage = .waiting k := hst
      rw [hst]
      exact decide_eq_true hlast
    · have hst : (s.client x.siPid).stage = .exited b := hst
      rw [hst]
      rfl
  · rcases hhandled.serverPending hy with ⟨hother, hy⟩ | hy
    · intro hpid
      have hquiet := hn.quiet other
      rw [Function.update_of_ne hother, ← hpid, sent_of_pending hy (hpid ▸ hself)] at hquiet
      cases hquiet
    · exact hy ▸ Ne.symm hself
  · rw [hhandled.server_eq] at hex' ⊢
    exact served_of_closed hrep' (closed_idle _ _) (hsound.sender signum x hx) hex'
  · rw [hlog, printedFor_append]
    simp [printedFor]

theorem once_step {a : System.Action} (hlinked : Linked setup s) (hsound : Sound setup s) (h : Once setup p s)
    (hs : System.step setup s a = some s') : Once setup p s' := by
  rcases h with hnone | ⟨hone, hfinished⟩
  · by_cases hsame : printedFor p s'.log = printedFor p s.log
    · exact Or.inl (hsame.trans hnone)
    · rcases step_log hs with ⟨signum, rfl⟩ | hlog
      · obtain ⟨hfinished, message, heq⟩ := finished_of_printed hlinked hsound hs hsame
        exact Or.inr ⟨by rw [heq, hnone]; rfl, hfinished⟩
      · exact absurd (by rw [hlog]) hsame
  · obtain ⟨hfinished, heq⟩ := hfinished.step hsound hs
    exact Or.inr ⟨by rw [heq, hone], hfinished⟩

theorem once_run (hok : (system setup).Meets (System.Disciplined setup) {} actions)
    (hrun : (system setup).run {} actions = some s) (p : Pid) : Once setup p s :=
  (Transition.run_invariant (I := fun s => Linked setup s ∧ Sound setup s ∧ Once setup p s)
    (fun _ _ _ h hok hstep => ⟨linked_step h.1 hok hstep, sound_step h.2.1 hstep, once_step h.1 h.2.1 h.2.2 hstep⟩)
    ⟨linked_initial setup, sound_initial setup, Or.inl rfl⟩ hok hrun).2.2

theorem Once.length_le (h : Once setup p s) : (printedFor p s.log).length ≤ 1 :=
  h.elim (fun hnone => by rw [hnone]; exact Nat.zero_le 1) fun hone => hone.1.le

theorem Once.delivered (h : Once setup p s) (hlinked : Linked setup s) (hst : (s.client p).stage = .exited true) :
    printedFor p s.log = [(setup.text p).bytes] := by
  obtain ⟨φ, -, hlink⟩ := hlinked
  have hmem : (setup.text p).bytes ∈ printedFor p s.log := ((hlink p).at hst).1 rfl
  rcases h with hnone | ⟨hone, -⟩
  · rw [hnone] at hmem
    cases hmem
  · obtain ⟨message, hmessage⟩ := List.length_eq_one_iff.mp hone
    rw [hmessage] at hmem ⊢
    rw [List.mem_singleton.mp hmem]

end Once

end Minitalk
