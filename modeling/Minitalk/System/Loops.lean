import Minitalk.System.Exclusion
import Minitalk.Client.Loops

/-! # The system, statement by statement

Here the clients execute the statements of their loops, one at a time, with the counters that end them. Seen through
the stages of its clients, every run is one of `system` (`loops_follow`); so what is proved of the stages holds of
the loops. -/

namespace Minitalk
open Server Client

structure LoopSystem where
  server : State := initial
  serverPending : Signum → Option Pending := fun _ => none
  thread : Pid → Thread := fun _ => {}
  clientPending : Pid → Signum → Option Pid := fun _ _ => none
  log : List Entry := []

/-- In `attempt_ping`, up to its signal. -/
def Client.Pc.pings : Pc → Bool
  | validate _ | sendPing _ => true
  | _ => false

namespace LoopSystem

/-- The stages of the clients in place of their statements. -/
def stages (s : LoopSystem) : System where
  server := s.server
  serverPending := s.serverPending
  client p := (s.thread p).process
  clientPending := s.clientPending
  log := s.log

/-- After a step of the server, which its clients do not see. -/
def served (s : LoopSystem) (s' : System) : LoopSystem where
  server := s'.server
  serverPending := s'.serverPending
  thread := s.thread
  clientPending := s'.clientPending
  log := s'.log

inductive Action where
  | handle (signum : Signum)
  | cleanGlobal
  | deliver (pid : Pid) (signum : Signum)
  | spawn (pid : Pid)
  /-- The client executes its next statement. -/
  | statement (pid : Pid)
deriving DecidableEq

def deliver (pid : Pid) (signum : Signum) (s : LoopSystem) : Option LoopSystem :=
  match s.clientPending pid signum with
  | some siPid =>
    if (s.thread pid).pc.stage.alive then
      some { s with
        thread := Function.update s.thread pid ((s.thread pid).deliver pid signum siPid)
        clientPending := Function.update s.clientPending pid (Function.update (s.clientPending pid) signum none) }
    else none
  | none => none

def spawn (setup : Setup) (pid : Pid) (s : LoopSystem) : Option LoopSystem :=
  if 0 < pid ∧ pid ≠ setup.env.serverPid ∧ (s.thread pid).pc = .absent then
    some { s with
      thread := Function.update s.thread pid .fresh
      clientPending := Function.update s.clientPending pid fun _ => none }
  else none

def statement (setup : Setup) (pid : Pid) (s : LoopSystem) : Option LoopSystem :=
  match next setup.env.serverPid (!s.server.exited) pid (setup.text pid) (s.thread pid) with
  | some (t, sent) =>
    let serverPending := match sent with
      | some signum => (s.stages.killServer signum ⟨pid, System.originOf (s.thread pid).pc.stage⟩).serverPending
      | none => s.serverPending
    some { s with thread := Function.update s.thread pid t, serverPending }
  | none => none

def step (setup : Setup) (s : LoopSystem) : Action → Option LoopSystem
  | .handle signum => (s.stages.handle setup signum).map s.served
  | .cleanGlobal => (System.step setup s.stages .cleanGlobal).map s.served
  | .deliver pid signum => s.deliver pid signum
  | .spawn pid => s.spawn setup pid
  | .statement pid => s.statement setup pid

/-- The conditions of `System.Disciplined`, on the statements; `attempt_ping` is one with its look at the server. -/
def Disciplined (setup : Setup) (s : LoopSystem) : Action → Prop
  | .statement p => ((s.thread p).pc.pings = true → s.server.client.actualPid ≠ p) ∧
      ((s.thread p).pc = .connected → s.clientPending p .SIGUSR2 = none)
  | .cleanGlobal => (s.thread s.server.client.actualPid).pc.stage.alive = false
  | .spawn p => setup.inGroup p = true → (setup.text p).len ≤ 10000000
  | .handle _ | .deliver _ _ => True

end LoopSystem

instance (setup : Setup) (s : LoopSystem) : ∀ a, Decidable (s.Disciplined setup a)
  | .statement p => inferInstanceAs (Decidable (((s.thread p).pc.pings = true → s.server.client.actualPid ≠ p) ∧
      ((s.thread p).pc = .connected → s.clientPending p .SIGUSR2 = none)))
  | .cleanGlobal => inferInstanceAs (Decidable ((s.thread s.server.client.actualPid).pc.stage.alive = false))
  | .spawn p => inferInstanceAs (Decidable (setup.inGroup p = true → (setup.text p).len ≤ 10000000))
  | .handle _ | .deliver _ _ => .isTrue trivial

def loopSystem (setup : Setup) : Transition LoopSystem LoopSystem.Action where
  step := LoopSystem.step setup

/-! ### A statement is a move of the stages or none -/

namespace Client
section Statement
variable {serverPid myPid : Pid} {alive : Bool} {text : Text} {t t' : Thread} {sent : Option Signum}

/-- The statement is a move of the stages, or they do not see it. -/
def Follows (serverPid myPid : Pid) (alive : Bool) (text : Text) (t t' : Thread) (sent : Option Signum) : Prop :=
  (t'.process = t.process ∧ sent = none) ∨
    ∃ move, Client.step serverPid alive myPid text t.process move = some (t'.process, sent)

theorem attempt_follows {a : Nat} {server : ServerState} (pc : Pc) (hpc : pc = .validate a ∨ pc = .sendPing a)
    (hs : next serverPid alive myPid text ⟨pc, server⟩ = some (t', sent)) :
    Follows serverPid myPid alive text ⟨pc, server⟩ t' sent := by
  rcases hpc with rfl | rfl
  · cases hs
    cases alive
    · exact Or.inr ⟨.sendPing, rfl⟩
    · exact Or.inl ⟨rfl, rfl⟩
  · cases alive <;> cases hs
    · exact Or.inr ⟨.sendPing, rfl⟩
    · exact Or.inr ⟨.sendPing, rfl⟩

theorem retryTest_follows {a : Nat} {server : ServerState}
    (hs : next serverPid alive myPid text ⟨.retryTest a, server⟩ = some (t', sent)) :
    Follows serverPid myPid alive text ⟨.retryTest a, server⟩ t' sent := by
  cases hs
  by_cases hlt : a < RETRY_TIMES
  · exact Or.inr ⟨.retry, by simp [Client.step, Thread.process, Thread.goto, Pc.stage, hlt]⟩
  · exact Or.inr ⟨.retry, by simp [Client.step, Thread.process, Thread.goto, Pc.stage, hlt, Process.exit]⟩

theorem poll_follows {a i : Nat} {server : ServerState}
    (hs : next serverPid alive myPid text ⟨.poll a i, server⟩ = some (t', sent)) :
    Follows serverPid myPid alive text ⟨.poll a i, server⟩ t' sent := by
  cases hs
  refine Or.inl ⟨?_, rfl⟩
  by_cases hle : i ≤ totalSleep <;> simp [Thread.process, Thread.goto, Pc.stage, hle]

theorem pollLook_follows {a i : Nat} {server : ServerState}
    (hs : next serverPid alive myPid text ⟨.pollLook a i, server⟩ = some (t', sent)) :
    Follows serverPid myPid alive text ⟨.pollLook a i, server⟩ t' sent := by
  cases hs
  cases hready : server.isReady with
  | true => exact Or.inr ⟨.ready, by simp [Client.step, Thread.process, Thread.goto, Pc.stage, hready]⟩
  | false =>
    by_cases hle : i + sleepTime ≤ totalSleep
    · exact Or.inl ⟨by simp [Thread.process, Thread.goto, Pc.stage, hle], rfl⟩
    · exact Or.inr ⟨.giveUp, by simp [Client.step, Thread.process, Thread.goto, Pc.stage, hready, hle]⟩

theorem sendBit_follows {k : Nat} {server : ServerState} (pc : Pc) (hpc : pc = .checkServer k ∨ pc = .sendSignal k)
    (howned : isTransmissionOwner myPid server = true)
    (hs : next serverPid alive myPid text ⟨pc, server⟩ = some (t', sent)) :
    Follows serverPid myPid alive text ⟨pc, server⟩ t' sent := by
  rcases hpc with rfl | rfl
  · cases hs
    cases alive
    · exact Or.inr ⟨.sendBit, by simp [Client.step, Thread.process, Thread.goto, Pc.stage, howned, Process.exit]⟩
    · exact Or.inl ⟨rfl, rfl⟩
  · cases alive
    · cases hs
      exact Or.inr ⟨.sendBit, by simp [Client.step, Thread.process, Thread.goto, Pc.stage, howned, Process.exit]⟩
    · obtain ⟨signum, hsig, heq⟩ := Option.map_eq_some_iff.mp hs
      cases heq
      exact Or.inr ⟨.sendBit, by simp [Client.step, Thread.process, Thread.goto, Pc.stage, howned, hsig]⟩

theorem ackLoop_follows {k n : Nat} {server : ServerState}
    (hs : next serverPid alive myPid text ⟨.ackLoop k n, server⟩ = some (t', sent)) :
    Follows serverPid myPid alive text ⟨.ackLoop k n, server⟩ t' sent := by
  cases hs
  cases hready : server.readyToProceed with
  | true => exact Or.inr ⟨.ackSeen, by simp [Client.step, Thread.process, Thread.goto, Pc.stage, hready]⟩
  | false => exact Or.inl ⟨by simp [Thread.process, Thread.goto, Pc.stage], rfl⟩

theorem ackReset_follows {k : Nat} {server : ServerState}
    (hs : next serverPid alive myPid text ⟨.ackReset k, server⟩ = some (t', sent)) :
    Follows serverPid myPid alive text ⟨.ackReset k, server⟩ t' sent := by
  cases hs
  refine Or.inr ⟨.ackReset, ?_⟩
  have hst : (Pc.ackReset k).stage = .acked k := rfl
  by_cases hlt : k + 1 < text.signalCount
  · simp [Client.step, Thread.process, hst, hlt]
  · simp [Client.step, Thread.process, hlt, Pc.stage]

theorem statement_follows (h : Kept myPid text t) (hs : next serverPid alive myPid text t = some (t', sent)) :
    Follows serverPid myPid alive text t t' sent := by
  obtain ⟨pc, server⟩ := t
  cases pc with
  | absent | paused | exited delivered => cases hs
  | slotLoop n | slotSleep n | slotCheck n | slotLimit n => exact nomatch h.fast
  | start =>
    cases hs
    exact Or.inr ⟨.setup, rfl⟩
  | validate a => exact attempt_follows _ (Or.inl rfl) hs
  | sendPing a => exact attempt_follows _ (Or.inr rfl) hs
  | poll a i => exact poll_follows hs
  | pollLook a i => exact pollLook_follows hs
  | retryTest a => exact retryTest_follows hs
  | connected =>
    cases hs
    exact Or.inr ⟨.prepare, rfl⟩
  | slotTest =>
    cases hs
    rw [h.free rfl]
    exact Or.inl ⟨rfl, rfl⟩
  | takeSlot =>
    cases hs
    have hfree : server.transmissionActive = false := h.free rfl
    have hst : Pc.takeSlot.stage = .slot := rfl
    exact Or.inr ⟨.takeSlot, by simp [Client.step, Thread.process, hst, hfree]⟩
  | ownership k =>
    cases hs
    rw [h.owned rfl]
    exact Or.inl ⟨rfl, rfl⟩
  | checkServer k => exact sendBit_follows _ (Or.inl rfl) (h.owned rfl) hs
  | sendSignal k => exact sendBit_follows _ (Or.inr rfl) (h.owned rfl) hs
  | ackLoop k n => exact ackLoop_follows hs
  | ackOwnership k n =>
    cases hs
    rw [if_neg (fun hlost => absurd (hlost.2.symm.trans (h.owned rfl)) (by decide))]
    exact Or.inl ⟨rfl, rfl⟩
  | ackTimeout k n =>
    cases hs
    split
    · exact Or.inr ⟨.ackTimeout, rfl⟩
    · exact Or.inl ⟨rfl, rfl⟩
  | ackReset k => exact ackReset_follows hs
  | pollSleep a i | pollNext a i | retryDelay a | ackSleep k n =>
    cases hs
    exact Or.inl ⟨rfl, rfl⟩

/-- A signal does to the statements what it does to the stages. -/
theorem process_deliver (signum : Signum) (siPid : Pid) (t : Thread) :
    (t.deliver myPid signum siPid).process = Client.deliver myPid signum siPid t.process := by
  unfold Thread.deliver
  simp only
  split
  · rename_i delivered hst
    rw [Thread.process, Pc.stage, ← hst]
  · rename_i hst
    rcases deliver_stage myPid signum siPid t.process with hkeep | ⟨delivered, hexit⟩
    · exact congrArg (Process.mk · _) hkeep.symm
    · exact absurd hexit (hst delivered)

end Statement
end Client

/-! ### Whole runs -/

section Run
variable {setup : Setup} {s s' : LoopSystem} {actions : List LoopSystem.Action}

def LoopSystem.Kept (setup : Setup) (s : LoopSystem) : Prop := ∀ p, Client.Kept p (setup.text p) (s.thread p)

/-- The step of the stages that this one is, if it is any. -/
def LoopSystem.FollowedBy (setup : Setup) (s s' : LoopSystem) (a : LoopSystem.Action) : Prop :=
  s'.stages = s.stages ∨
    ∃ b, System.step setup s.stages b = some s'.stages ∧ (s.Disciplined setup a → s.stages.Disciplined setup b)

theorem stages_client (p : Pid) (t : Thread) :
    (fun q => (Function.update s.thread p t q).process) =
      Function.update (fun q => (s.thread q).process) p t.process := by
  funext q
  by_cases hq : q = p
  · subst hq
    rw [Function.update_self, Function.update_self]
  · rw [Function.update_of_ne hq, Function.update_of_ne hq]

theorem LoopSystem.Kept.update (h : s.Kept setup) {p : Pid} {t : Thread} (ht : Client.Kept p (setup.text p) t) :
    ∀ q, Client.Kept q (setup.text q) (Function.update s.thread p t q) := by
  intro q
  by_cases hq : q = p
  · subst hq
    rwa [Function.update_self]
  · rw [Function.update_of_ne hq]
    exact h q

theorem handle_client {signum : Signum} {x x' : System} (h : x.handle setup signum = some x') :
    x'.client = x.client := by
  unfold System.handle at h
  split at h
  · split at h
    · cases h
    · cases h
      exact effects_client _
  · cases h

theorem stages_served {x' : System} (h : x'.client = s.stages.client) : (s.served x').stages = x' := by
  cases x'
  cases h
  rfl

theorem stage_pinging {pc : Pc} {a : Nat} (h : pc.stage = .pinging a) : pc.pings = true := by
  cases pc with
  | validate b | sendPing b => rfl
  | poll b i | pollNext b i =>
    simp only [Pc.stage] at h
    split at h <;> cases h
  | _ => cases h

theorem stage_connected {pc : Pc} (h : pc.stage = .connected) : pc = .connected := by
  cases pc with
  | connected => rfl
  | poll b i | pollNext b i =>
    simp only [Pc.stage] at h
    split at h <;> cases h
  | _ => cases h

theorem stage_absent {pc : Pc} : pc.stage = .absent ↔ pc = .absent := by
  refine ⟨fun h => ?_, fun h => h ▸ rfl⟩
  cases pc with
  | absent => rfl
  | poll b i | pollNext b i =>
    simp only [Pc.stage] at h
    split at h <;> cases h
  | _ => cases h

theorem deliver_follows {p : Pid} {signum : Signum} (h : s.Kept setup) (hs : s.deliver p signum = some s') :
    s'.Kept setup ∧ System.step setup s.stages (.deliver p signum) = some s'.stages := by
  unfold LoopSystem.deliver at hs
  split at hs
  · rename_i siPid hpending
    split at hs
    · rename_i halive
      cases hs
      refine ⟨h.update ((h p).deliver signum siPid), ?_⟩
      have hpending : s.stages.clientPending p signum = some siPid := hpending
      have halive : (s.stages.client p).stage.alive = true := halive
      simp only [System.step, System.deliver, hpending, halive, if_true, Option.some.injEq]
      simp only [LoopSystem.stages, stages_client, process_deliver]
    · cases hs
  · cases hs

theorem spawn_follows {p : Pid} (h : s.Kept setup) (hs : s.spawn setup p = some s') :
    s'.Kept setup ∧ System.step setup s.stages (.spawn p) = some s'.stages := by
  simp only [LoopSystem.spawn, Option.ite_none_right_eq_some, Option.some.injEq] at hs
  obtain ⟨⟨hpos, hself, habsent⟩, rfl⟩ := hs
  refine ⟨h.update kept_fresh, ?_⟩
  have habsent : (s.stages.client p).stage = .absent := stage_absent.mpr habsent
  simp only [System.step, System.spawn, hpos, hself, habsent, ne_eq, not_false_eq_true, and_self, if_true,
    Option.some.injEq]
  simp only [LoopSystem.stages, stages_client]
  rfl

theorem statement_step {p : Pid} (h : s.Kept setup) (hs : s.statement setup p = some s') :
    s'.Kept setup ∧ s.FollowedBy setup s' (.statement p) := by
  unfold LoopSystem.statement at hs
  split at hs
  · rename_i t sent hnext
    cases hs
    refine ⟨h.update ((h p).statement hnext), ?_⟩
    rcases statement_follows (h p) hnext with ⟨hsame, rfl⟩ | ⟨move, hmove⟩
    · left
      simp only [LoopSystem.stages, stages_client, hsame]
      rw [Function.update_eq_self]
    · refine Or.inr ⟨.client p move, ?_, fun hok => ?_⟩
      · have hmove' : Client.step setup.env.serverPid (!s.stages.server.exited) p (setup.text p) (s.stages.client p)
            move = some (t.process, sent) := hmove
        simp only [System.step, System.clientMove, hmove']
        cases sent with
        | none => simp only [LoopSystem.stages, stages_client]
        | some signum =>
          simp only [LoopSystem.stages, stages_client, System.killServer]
          rfl
      · cases move with
        | sendPing =>
          obtain ⟨a, hst, -⟩ := sendPing_inv hmove
          exact hok.1 (stage_pinging hst)
        | prepare => exact hok.2 (stage_connected (prepare_inv hmove).1)
        | _ => trivial
  · cases hs

theorem step_follows {a : LoopSystem.Action} (h : s.Kept setup) (hs : LoopSystem.step setup s a = some s') :
    s'.Kept setup ∧ s.FollowedBy setup s' a := by
  cases a with
  | handle signum =>
    obtain ⟨x, hx, rfl⟩ := Option.map_eq_some_iff.mp hs
    refine ⟨h, Or.inr ⟨.handle signum, ?_, fun _ => trivial⟩⟩
    rw [stages_served (handle_client hx)]
    exact hx
  | cleanGlobal =>
    obtain ⟨x, hx, rfl⟩ := Option.map_eq_some_iff.mp hs
    refine ⟨h, Or.inr ⟨.cleanGlobal, ?_, id⟩⟩
    obtain ⟨-, -, rfl⟩ := cleanGlobal_inv hx
    exact hx
  | deliver p signum =>
    obtain ⟨hkept, hstep⟩ := deliver_follows h hs
    exact ⟨hkept, Or.inr ⟨.deliver p signum, hstep, fun _ => trivial⟩⟩
  | spawn p =>
    obtain ⟨hkept, hstep⟩ := spawn_follows h hs
    exact ⟨hkept, Or.inr ⟨.spawn p, hstep, id⟩⟩
  | statement p => exact statement_step h hs

theorem kept_initial (setup : Setup) : LoopSystem.Kept setup {} := fun _ => ⟨fun _ => rfl, nofun, rfl, nofun⟩

theorem follows_run {ok : LoopSystem → LoopSystem.Action → Prop} {P : System → System.Action → Prop}
    (hok : ∀ x a b, (LoopSystem.Disciplined setup x a → System.Disciplined setup x.stages b) → ok x a →
      P x.stages b) (hmeets : (loopSystem setup).Meets ok {} actions)
    (hrun : (loopSystem setup).run {} actions = some s) :
    Transition.Follows (system setup) P {} s.stages :=
  (Transition.run_follows (f := LoopSystem.stages) (I := LoopSystem.Kept setup) (fun x a x' hx ha hs => by
    obtain ⟨hkept, hsame | ⟨b, hstep, hdisciplined⟩⟩ := step_follows hx hs
    · exact ⟨hkept, hsame ▸ .refl _⟩
    · exact ⟨hkept, .step (hok x a b hdisciplined ha) hstep⟩) (kept_initial setup) hmeets hrun).2

/-- The runs of the statements are runs of the stages, and disciplined ones are disciplined. -/
theorem loops_follow (hrun : (loopSystem setup).run {} actions = some s) :
    ∃ moves, (system setup).run {} moves = some s.stages ∧
      ((loopSystem setup).Meets (LoopSystem.Disciplined setup) {} actions →
        (system setup).Meets (System.Disciplined setup) {} moves) := by
  by_cases hmeets : (loopSystem setup).Meets (LoopSystem.Disciplined setup) {} actions
  · obtain ⟨moves, hok, hmoves⟩ := follows_run (fun _ _ _ hd ha => hd ha) hmeets hrun
    exact ⟨moves, hmoves, fun _ => hok⟩
  · obtain ⟨moves, -, hmoves⟩ := follows_run (P := fun _ _ => True) (fun _ _ _ _ _ => trivial)
      (Transition.meets_true _ _) hrun
    exact ⟨moves, hmoves, fun h => absurd h hmeets⟩

end Run

/-! ### What the loops deliver -/

section Delivery
variable {setup : Setup} {s : LoopSystem} {actions : List LoopSystem.Action}

theorem stages_run (hok : (loopSystem setup).Meets (LoopSystem.Disciplined setup) {} actions)
    (hrun : (loopSystem setup).run {} actions = some s) :
    Linked setup s.stages ∧ Served setup s.stages ∧ ∀ p, Once setup p s.stages := by
  have hfollows : Transition.Follows (system setup) (System.Disciplined setup) {} s.stages :=
    (follows_run (fun _ _ _ h => h) hok hrun)
  obtain ⟨moves, hmeets, hmoves⟩ := hfollows
  exact ⟨linked_run hmeets hmoves, served_run hmeets hmoves, once_run hmeets hmoves⟩

/-- A client that the server answers at its first poll, up to its first bit. -/
def loopConnects : List LoopSystem.Action :=
  .spawn 2 :: List.replicate 3 (.statement 2) ++ [.handle .SIGUSR1, .deliver 2 .SIGUSR1] ++
    List.replicate 6 (.statement 2)

theorem loops_follow_two : ∃ s, (loopSystem (uniform false textA)).run {} loopConnects = some s ∧
    (s.thread 2).pc = .checkServer 0 ∧ ∃ moves, (system (uniform false textA)).run {} moves = some s.stages := by
  have hpc : ((loopSystem (uniform false textA)).run {} loopConnects).map (fun s => (s.thread 2).pc) =
      some (.checkServer 0) := by decide +kernel
  obtain ⟨s, hrun, hpc⟩ := Option.map_eq_some_iff.mp hpc
  obtain ⟨moves, hmoves, -⟩ := loops_follow hrun
  exact ⟨s, hrun, hpc, moves, hmoves⟩

/-- A bit that is acknowledged before the client looks; one that starts a byte waits for the look at the ownership. -/
def loopExchanges (k : Nat) (signum : Signum) : List LoopSystem.Action :=
  (if ownershipChecked k then [.statement 2] else []) ++
    [.statement 2, .statement 2, .handle signum, .deliver 2 .SIGUSR2, .statement 2, .statement 2]

def loopDelivers : List LoopSystem.Action :=
  loopConnects ++ ((startTransmission textA).take 39).zipIdx.flatMap (fun x => loopExchanges x.2 x.1) ++
    [.statement 2, .statement 2, .handle .SIGUSR2, .deliver 2 .SIGUSR1]

end Delivery

end Minitalk
