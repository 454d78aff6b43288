import Minitalk.System.Link

/-! # The steps of a client keep its link

A signal that is delivered to the client, and the statements of its program. Of the statements, a ping keeps the
link while the server does not serve the client, and the change to the handlers of the transmission while no
`SIGUSR2` is pending. -/

namespace Minitalk
open Server Client

/-! ### Statements -/

section Moves
variable {setup : Setup} {p : Pid} {φ : Phase} {v : View}

theorem Pinging.stage (h : Pinging setup p φ v) (stage : Stage) :
    Pinging setup p φ { v with process := { v.process with stage } } := ⟨h.ready, h.session⟩

/-- The signal of a bit may be lost: it is, when another process has the same signal pending. -/
theorem Link.move (h : Link setup p φ v) {alive : Bool} {move : Move} {c : Process} {out : Option Signum}
    (hprepare : move = .prepare → v.replies .SIGUSR2 = none)
    (hstep : Client.step setup.env.serverPid alive p (setup.text p) v.process move = some (c, out)) :
    Link setup p φ { v with process := c } := by
  have hne : v.process.stage ≠ .absent := fun ha => by
    cases move <;> simp [Client.step, ha] at hstep
  have hexit : Link setup p φ { v with process := v.process.exit false } := h.exit hne (by simp)
  cases move with
  | setup =>
    obtain ⟨hst, heq⟩ := setup_inv hstep
    cases heq
    obtain ⟨hclosed, hquiet, husr1⟩ := h.at hst
    exact h.next hne ⟨rfl, Or.inl ⟨hclosed, husr1, rfl, Or.inl hquiet⟩⟩ rfl rfl
  | sendPing =>
    obtain ⟨a, hst, ⟨-, heq⟩ | ⟨-, heq⟩⟩ := sendPing_inv hstep
    · cases heq
      exact h.next hne (Pinging.stage (h.at hst) _) rfl rfl
    · cases heq
      exact hexit
  | ready =>
    obtain ⟨a, hst, hready, heq⟩ := ready_inv hstep
    cases heq
    have hping : Pinging setup p φ v := h.at hst
    rcases hping.session with ⟨-, -, hnot, -⟩ | ⟨hopen, hquiet, husr1⟩
    · exact absurd (hready.symm.trans hnot) (by decide)
    · have husr1 := husr1.resolve_right (by rw [hready]; decide)
      exact h.next hne ⟨hopen, hquiet, husr1, hping.ready⟩ rfl rfl
  | giveUp =>
    obtain ⟨a, hst, -, heq⟩ := giveUp_inv hstep
    cases heq
    exact h.next hne (Pinging.stage (h.at hst) _) rfl rfl
  | retry =>
    obtain ⟨a, hst, ⟨-, heq⟩ | ⟨-, heq⟩⟩ := retry_inv hstep
    · cases heq
      exact h.next hne (Pinging.stage (h.at hst) _) rfl rfl
    · cases heq
      exact hexit
  | prepare =>
    obtain ⟨hst, heq⟩ := prepare_inv hstep
    cases heq
    obtain ⟨hopen, hquiet, husr1, hready⟩ := h.at hst
    exact h.next hne ⟨hopen, hquiet, husr1, hprepare rfl, hready⟩ rfl rfl
  | takeSlot =>
    obtain ⟨hst, -, heq⟩ := takeSlot_inv hstep
    cases heq
    obtain ⟨hopen, hquiet, hno⟩ := h.at hst
    exact h.next hne ⟨(setup.text p).signalCount_pos, hopen, hquiet, hno.usr1, hno.usr2, hno.ready⟩ rfl rfl
  | sendBit =>
    obtain ⟨k, hst, heq | ⟨_, -, heq⟩⟩ := sendBit_inv hstep
    · cases heq
      exact hexit
    · cases heq
      obtain ⟨hk, hopen, hquiet, hno⟩ := h.at hst
      exact h.next hne ⟨hk, .lost hopen hquiet hno⟩ rfl rfl
  | ackSeen =>
    obtain ⟨k, hst, hready, heq⟩ := ackSeen_inv hstep
    cases heq
    have hacked : ¬NoReply v.replies v.process.server := fun hno =>
      absurd (hready.symm.trans hno.ready) (by decide)
    refine h.next hne ?_ rfl rfl
    cases (h.at hst).2 with
    | pending _ _ _ _ hno => exact absurd hno hacked
    | lost _ _ hno => exact absurd hno hacked
    | answered hlt hopen hquiet husr1 hone =>
      exact Or.inl ⟨hlt, hopen, hquiet, husr1, hone.resolve_right (by rw [hready]; decide)⟩
    | completed hlast hdone => exact Or.inr ⟨hlast, hdone.closed, hdone.quiet, hdone.printed, hdone.bits⟩
    | refused _ _ hno => exact absurd hno hacked
  | ackReset =>
    obtain ⟨k, hst, heq⟩ := ackReset_inv hstep
    cases heq
    refine h.next hne ?_ rfl rfl
    rcases h.at hst with ⟨hlt, hopen, hquiet, husr1, husr2⟩ | ⟨hlast, hdone⟩
    · simp only [hlt, if_true]
      exact ⟨hlt, hopen, hquiet, husr1, husr2, rfl⟩
    · simp only [hlast, Nat.lt_irrefl, if_false]
      exact ⟨hdone.closed, hdone.quiet, hdone.printed, hdone.bits⟩
  | ackTimeout =>
    obtain ⟨k, hst, heq⟩ := ackTimeout_inv hstep
    cases heq
    exact hexit

theorem Link.send (h : Link setup p φ v) {alive : Bool} {move : Move} {c : Process} {signum : Signum}
    (hping : move = .sendPing → Closed p φ)
    (hstep : Client.step setup.env.serverPid alive p (setup.text p) v.process move = some (c, some signum)) :
    Link setup p φ { v with
      process := c, sent := Function.update v.sent signum (some (System.originOf v.process.stage)) } := by
  rcases step_sends hstep with ⟨a, hst, rfl, hmove, rfl⟩ | ⟨k, hst, rfl, hsig⟩
  · have hne : v.process.stage ≠ .absent := by rw [hst]; exact Stage.noConfusion
    have hclosed := hping hmove
    have hlink : Pinging setup p φ v := h.at hst
    refine h.next hne ⟨hlink.ready, ?_⟩ rfl rfl
    rcases hlink.session with ⟨-, husr1, hready, hsent⟩ | ⟨hopen, -⟩
    · have hothers : ∀ other, other ≠ .SIGUSR1 → v.sent other = none := fun other ho =>
        hsent.elim (fun hquiet => hquiet other) fun honly => honly.2 other ho
      have honly : Only (Function.update v.sent .SIGUSR1 (some .ping)) .SIGUSR1 .ping :=
        ⟨Function.update_self .., fun other ho => (Function.update_of_ne ho ..).trans (hothers other ho)⟩
      rw [hst]
      exact Or.inl ⟨hclosed, husr1, hready, Or.inr honly⟩
    · exact absurd hclosed hopen.not_closed
  · have hne : v.process.stage ≠ .absent := by rw [hst]; exact Stage.noConfusion
    obtain ⟨hk, hopen, hquiet, hno⟩ := h.at hst
    rw [hst]
    exact h.next hne ⟨hk, .pending signum hsig hopen hquiet.posted hno⟩ rfl rfl

end Moves

/-! ### Handlers -/

theorem pingHandler_cases (myPid : Pid) (signum : Signum) (siPid : Pid) (c : Process) :
    pingHandler myPid signum siPid c = c.exit false ∨
      ∃ server, pingHandler myPid signum siPid c = { c with server } ∧
        (server = c.server ∨ server = handlePong signum c.server) := by
  unfold pingHandler
  split
  · exact Or.inl rfl
  · refine Or.inr ?_
    split
    · exact ⟨_, rfl, Or.inl rfl⟩
    · split
      · exact ⟨_, rfl, Or.inl rfl⟩
      · exact ⟨_, rfl, Or.inr rfl⟩

theorem signalHandler_cases (signum : Signum) (siPid : Pid) (c : Process) :
    (signum = .SIGUSR1 ∧ Client.signalHandler signum siPid c = c.exit true) ∨
      ∃ server, Client.signalHandler signum siPid c = { c with server } := by
  unfold Client.signalHandler
  split
  · exact Or.inr ⟨_, rfl⟩
  · cases signum with
    | SIGUSR1 => exact Or.inl ⟨rfl, rfl⟩
    | SIGUSR2 => exact Or.inr ⟨_, rfl⟩

theorem update_none {replies : Signum → Option Pid} {signum other : Signum} (h : replies other = none) :
    Function.update replies signum none other = none := by
  by_cases ho : other = signum
  · subst ho
    simp
  · rwa [Function.update_of_ne ho]

section Handlers
variable {setup : Setup} {p : Pid} {φ : Phase} {v : View} {signum : Signum} {siPid : Pid} {server : ServerState}

theorem NoReply.not_some {replies : Signum → Option Pid} (h : NoReply replies server)
    (hs : replies signum = some siPid) : False := by
  cases signum with
  | SIGUSR1 => exact Option.some_ne_none _ (hs.symm.trans h.usr1)
  | SIGUSR2 => exact Option.some_ne_none _ (hs.symm.trans h.usr2)

theorem Pinging.deliver (h : Pinging setup p φ v) (hs : v.replies signum = some siPid)
    (hserver : server = v.process.server ∨ server = handlePong signum v.process.server) :
    Pinging setup p φ (v.delivered signum { v.process with server }) := by
  have hready : server.readyToProceed = false := by
    rcases hserver with rfl | rfl
    · exact h.ready
    · cases signum <;> exact h.ready
  have hkept : ∀ other, v.replies other = none → Function.update v.replies signum none other = none :=
    fun _ => update_none
  refine ⟨hready, ?_⟩
  cases signum with
  | SIGUSR1 =>
    rcases h.session with ⟨-, husr1, -⟩ | ⟨hopen, hquiet, -⟩
    · exact absurd (hs.symm.trans husr1) (Option.some_ne_none _)
    · have husr1 : Function.update v.replies .SIGUSR1 none .SIGUSR1 = none := Function.update_self ..
      exact Or.inr ⟨hopen, hquiet, Or.inl husr1⟩
  | SIGUSR2 =>
    have hnot : v.process.server.isReady = false → server.isReady = false := fun hn => by
      rcases hserver with rfl | rfl
      · exact hn
      · rfl
    rcases h.session with ⟨hclosed, husr1, hn, hsent⟩ | ⟨hopen, hquiet, hn⟩
    · exact Or.inl ⟨hclosed, hkept _ husr1, hnot hn, hsent⟩
    · exact Or.inr ⟨hopen, hquiet, hn.imp (hkept _) hnot⟩

/-- A signal that reaches the handlers of the transmission while a bit is waiting for its acknowledgment. -/
theorem Waiting.deliver (server : ServerState) {k : Nat} (h : Waiting setup p φ v k)
    (hs : v.replies signum = some siPid) :
    ((setup.text p).bytes ∈ v.printed ∨ signum = .SIGUSR2) ∧
      Waiting setup p φ (v.delivered signum { v.process with server }) k := by
  cases h with
  | pending _ _ _ _ hno => exact (hno.not_some hs).elim
  | lost _ _ hno => exact (hno.not_some hs).elim
  | refused _ _ hno => exact (hno.not_some hs).elim
  | answered hlt hopen hquiet husr1 hone =>
    cases signum with
    | SIGUSR1 => exact absurd (hs.symm.trans husr1) (Option.some_ne_none _)
    | SIGUSR2 =>
      have husr2 : Function.update v.replies .SIGUSR2 none .SIGUSR2 = none := Function.update_self ..
      have husr1 : Function.update v.replies .SIGUSR2 none .SIGUSR1 = none := update_none husr1
      exact ⟨Or.inr rfl, .answered hlt hopen hquiet husr1 (Or.inl husr2)⟩
  | completed hlast hdone =>
    exact ⟨Or.inl hdone.printed, .completed hlast ⟨hdone.closed, hdone.quiet, hdone.printed, hdone.bits⟩⟩

theorem Completed.deliver (h : Completed setup p φ v) (c : Process) :
    Completed setup p φ (v.delivered signum c) := ⟨h.closed, h.quiet, h.printed, h.bits⟩

theorem Link.deliver_exit (h : Link setup p φ v) (hne : v.process.stage ≠ .absent) {b : Bool}
    (hb : b = true → (setup.text p).bytes ∈ v.printed) :
    Link setup p φ (v.delivered signum (v.process.exit b)) := h.next hne ⟨hb, h.left⟩ rfl rfl

/-- What `ping_handler` may write keeps the stage linked. -/
theorem Link.deliver_ping (h : Link setup p φ v) (hne : v.process.stage ≠ .absent) (siPid : Pid)
    (hstage : ∀ server, (server = v.process.server ∨ server = handlePong signum v.process.server) →
      StageLink setup p φ (v.delivered signum { v.process with server }) v.process.stage) :
    Link setup p φ (v.delivered signum (pingHandler p signum siPid v.process)) := by
  rcases pingHandler_cases p signum siPid v.process with he | ⟨server, he, hserver⟩
  · rw [he]
    exact h.deliver_exit hne (by simp)
  · rw [he]
    exact h.next hne (hstage server hserver) rfl rfl

/-- A `SIGUSR1` completes, and what else `signal_handler` may write keeps the stage linked. -/
theorem Link.deliver_signal (h : Link setup p φ v) (hne : v.process.stage ≠ .absent) (siPid : Pid)
    (hdone : signum = .SIGUSR1 → (setup.text p).bytes ∈ v.printed)
    (hstage : ∀ server, StageLink setup p φ (v.delivered signum { v.process with server }) v.process.stage) :
    Link setup p φ (v.delivered signum (Client.signalHandler signum siPid v.process)) := by
  rcases signalHandler_cases signum siPid v.process with ⟨hsig, he⟩ | ⟨server, he⟩
  · rw [he]
    exact h.deliver_exit hne fun _ => hdone hsig
  · rw [he]
    exact h.next hne (hstage server) rfl rfl

theorem Link.deliver (h : Link setup p φ v) (hs : v.replies signum = some siPid)
    (halive : v.process.stage.alive = true) :
    Link setup p φ (v.delivered signum (Client.deliver p signum siPid v.process)) := by
  have hne : v.process.stage ≠ .absent := fun ha => by rw [ha] at halive; cases halive
  unfold Client.deliver
  cases hst : v.process.stage with
  | absent => exact absurd hst hne
  | start => exact h.deliver_exit hne (by simp)
  | pinging a =>
    have hping : Pinging setup p φ v := h.at hst
    refine h.deliver_ping hne siPid fun server hserver => ?_
    rw [hst]
    exact hping.deliver hs hserver
  | polling a =>
    have hping : Pinging setup p φ v := h.at hst
    refine h.deliver_ping hne siPid fun server hserver => ?_
    rw [hst]
    exact hping.deliver hs hserver
  | retryDelay a =>
    have hping : Pinging setup p φ v := h.at hst
    refine h.deliver_ping hne siPid fun server hserver => ?_
    rw [hst]
    exact hping.deliver hs hserver
  | connected =>
    obtain ⟨hopen, hquiet, husr1, hready⟩ := h.at hst
    refine h.deliver_ping hne siPid fun server hserver => ?_
    have hready : server.readyToProceed = false := by
      rcases hserver with rfl | rfl
      · exact hready
      · cases signum <;> exact hready
    have husr1 : Function.update v.replies signum none .SIGUSR1 = none := update_none husr1
    rw [hst]
    exact ⟨hopen, hquiet, husr1, hready⟩
  | slot => exact ((h.at hst).2.2.not_some hs).elim
  | sending k => exact ((h.at hst).2.2.2.not_some hs).elim
  | waiting k =>
    obtain ⟨hk, hwait⟩ := h.at hst
    refine h.deliver_signal hne siPid (fun hsig => ?_) fun server => ?_
    · exact (hwait.deliver v.process.server hs).1.resolve_right (by rw [hsig]; decide)
    · rw [hst]
      exact ⟨hk, (hwait.deliver server hs).2⟩
  | acked k =>
    rcases h.at hst with ⟨-, -, -, husr1, husr2⟩ | ⟨hlast, hdone⟩
    · cases signum with
      | SIGUSR1 => exact absurd (hs.symm.trans husr1) (Option.some_ne_none _)
      | SIGUSR2 => exact absurd (hs.symm.trans husr2) (Option.some_ne_none _)
    · refine h.deliver_signal hne siPid (fun _ => hdone.printed) fun server => ?_
      rw [hst]
      exact Or.inr ⟨hlast, hdone.deliver _⟩
  | paused =>
    have hdone : Completed setup p φ v := h.at hst
    refine h.deliver_signal hne siPid (fun _ => hdone.printed) fun server => ?_
    rw [hst]
    exact hdone.deliver _
  | exited b => rw [hst] at halive; cases halive

end Handlers

/-! ### The actions of clients -/

section Actions
variable {setup : Setup} {s s' : System} {p : Pid}

theorem closed_of_represents {φ : Phase} (h : Represents setup.env s.server φ)
    (hne : s.server.client.actualPid ≠ p) : Closed p φ := by
  rintro bits rfl
  exact hne h.2.2.2.2.1

theorem Link.spawn {φ : Phase} {v : View} (h : Link setup p φ v) (hst : v.process.stage = .absent)
    (hsp : Spawned setup p) :
    Link setup p φ { v with process := { stage := .start }, replies := fun _ => none } :=
  ⟨⟨(h.at hst).1, (h.at hst).2, rfl⟩, Or.inr hsp, h.printed, h.read⟩

theorem linked_deliver (h : Linked setup s) {signum : Signum} (hs : s.deliver p signum = some s') :
    Linked setup s' := by
  obtain ⟨φ, hrep, hlink⟩ := h
  unfold System.deliver at hs
  cases hpend : s.clientPending p signum with
  | none => simp [hpend] at hs
  | some siPid =>
    simp only [hpend] at hs
    split at hs
    · rename_i halive
      cases hs
      refine ⟨φ, hrep, fun q => ?_⟩
      by_cases hq : q = p
      · subst hq
        have := (hlink q).deliver hpend halive
        simpa [System.view, View.delivered] using this
      · simpa [System.view, hq] using hlink q
    · cases hs

theorem linked_spawn (h : Linked setup s) (hfits : setup.inGroup p = true → (setup.text p).len ≤ 10000000)
    (hs : s.spawn setup p = some s') : Linked setup s' := by
  obtain ⟨φ, hrep, hlink⟩ := h
  unfold System.spawn at hs
  split at hs
  · rename_i hcond
    cases hs
    refine ⟨φ, hrep, fun q => ?_⟩
    by_cases hq : q = p
    · subst hq
      have := (hlink q).spawn hcond.2.2 ⟨hcond.1, hcond.2.1, hfits⟩
      simpa [System.view] using this
    · simpa [System.view, hq] using hlink q
  · cases hs

theorem linked_clientMove (h : Linked setup s) {move : Move}
    (hping : move = .sendPing → s.server.client.actualPid ≠ p)
    (hprepare : move = .prepare → s.clientPending p .SIGUSR2 = none)
    (hs : s.clientMove setup p move = some s') : Linked setup s' := by
  obtain ⟨φ, hrep, hlink⟩ := h
  unfold System.clientMove at hs
  cases hstep : Client.step setup.env.serverPid (!s.server.exited) p (setup.text p) (s.client p) move with
  | none => simp [hstep] at hs
  | some r =>
    obtain ⟨c, out⟩ := r
    simp only [hstep] at hs
    have hmove := (hlink p).move hprepare hstep
    cases out with
    | none =>
      cases hs
      refine ⟨φ, hrep, fun q => ?_⟩
      rw [view_client]
      split
      · rename_i hq
        exact hq ▸ hmove
      · exact hlink q
    | some signum =>
      cases hs
      refine ⟨φ, hrep, fun q => ?_⟩
      have hsend := (hlink p).send (fun hm => closed_of_represents hrep (hping hm)) hstep
      rw [view_killServer, view_client]
      by_cases hq : q = p
      · subst hq
        rw [if_pos rfl]
        split
        · exact hsend
        · exact hmove
      · rw [if_neg (fun hc => hq hc.2.1.symm), if_neg hq]
        exact hlink q

end Actions

end Minitalk
