import Minitalk.System.ServerSteps

/-! # What a run of server and clients delivers

As long as four kinds of steps are left out (`Disciplined`), every client is linked to the server: it hears of
its delivery only when its message was printed, only its message is printed for it, and it sends a bit only when
the server has read the bits before it. -/

namespace Minitalk
open Server Client

/-- A ping is sent only while the server does not serve the client, a client takes up its transmission with no
    `SIGUSR2` pending, the server's timeout cleans up after a client that has left, and a client in the server's
    process group has a message whose length the server takes. -/
def System.Disciplined (setup : Setup) (s : System) : System.Action → Prop
  | .client p .sendPing => s.server.client.actualPid ≠ p
  | .client p .prepare => s.clientPending p .SIGUSR2 = none
  | .cleanGlobal => (s.client s.server.client.actualPid).stage.alive = false
  | .spawn p => setup.inGroup p = true → (setup.text p).len ≤ 10000000
  | _ => True

instance (setup : Setup) (s : System) : ∀ a, Decidable (s.Disciplined setup a)
  | .client p .sendPing => inferInstanceAs (Decidable (s.server.client.actualPid ≠ p))
  | .client p .prepare => inferInstanceAs (Decidable (s.clientPending p .SIGUSR2 = none))
  | .cleanGlobal => inferInstanceAs (Decidable ((s.client s.server.client.actualPid).stage.alive = false))
  | .spawn p => inferInstanceAs (Decidable (setup.inGroup p = true → (setup.text p).len ≤ 10000000))
  | .handle _ | .deliver _ _ | .client _ .setup | .client _ .ready | .client _ .giveUp | .client _ .retry
  | .client _ .takeSlot | .client _ .sendBit | .client _ .ackSeen | .client _ .ackReset | .client _ .ackTimeout =>
    .isTrue trivial

section Run
variable {setup : Setup} {s s' : System} {actions : List System.Action}

theorem linked_initial (setup : Setup) : Linked setup {} :=
  ⟨.idle false, represents_initial, fun _ =>
    ⟨⟨closed_idle _ _, fun _ => rfl⟩, Or.inl rfl, fun _ h => absurd h List.not_mem_nil, List.not_mem_nil⟩⟩

theorem linked_step {a : System.Action} (h : Linked setup s) (hok : s.Disciplined setup a)
    (hstep : (system setup).step s a = some s') : Linked setup s' := by
  cases a with
  | handle signum => exact linked_handle h hstep
  | cleanGlobal =>
    simp only [system, System.step] at hstep
    split at hstep
    · rename_i hcond
      cases hstep
      exact linked_cleanGlobal h hcond.1 hok
    · cases hstep
  | deliver p signum => exact linked_deliver h hstep
  | spawn p => exact linked_spawn h hok hstep
  | client p move =>
    exact linked_clientMove h (fun hm => by subst hm; exact hok) (fun hm => by subst hm; exact hok) hstep

theorem linked_run (hok : (system setup).Meets (System.Disciplined setup) {} actions)
    (hrun : (system setup).run {} actions = some s) : Linked setup s :=
  Transition.run_invariant (fun _ _ _ h hok hstep => linked_step h hok hstep) (linked_initial setup) hok hrun

/-- A client that was told of its delivery has had its message printed, while the server served it. -/
theorem no_false_delivery (hok : (system setup).Meets (System.Disciplined setup) {} actions)
    (hrun : (system setup).run {} actions = some s) {p : Pid} (hst : (s.client p).stage = .exited true) :
    .printed p (setup.text p).bytes ∈ s.log := by
  obtain ⟨φ, -, hlink⟩ := linked_run hok hrun
  exact mem_printedFor.mp (((hlink p).at hst).1 rfl)

/-- Every message that is printed is that of the client that the server serves, and no ping is read as a bit. -/
theorem print_integrity (hok : (system setup).Meets (System.Disciplined setup) {} actions)
    (hrun : (system setup).run {} actions = some s) :
    (∀ p message, .printed p message ∈ s.log → message = (setup.text p).bytes) ∧ ∀ p, .bit p .ping ∉ s.log := by
  obtain ⟨φ, -, hlink⟩ := linked_run hok hrun
  exact ⟨fun p message h => (hlink p).printed message (mem_printedFor.mpr h),
    fun p h => (hlink p).read (mem_readBits.mpr h)⟩

/-- At most one signal of a client is pending at the server. -/
theorem Left.unique {p : Pid} {φ : Phase} {sent : Signum → Option Origin} {bits : List Origin}
    (h : Left setup p φ sent bits) {signum signum' : Signum} {o o' : Origin} (hs : sent signum = some o)
    (hs' : sent signum' = some o') : signum = signum' := by
  have hone : Quiet sent ∨ ∃ other origin, Only sent other origin := by
    cases h with
    | closed _ hsent => exact hsent
    | serving k _ _ hsent => exact hsent.imp_right fun ⟨other, _, honly⟩ => ⟨other, _, honly⟩
  rcases hone with hquiet | ⟨other, origin, honly⟩
  · exact (hquiet.not_some hs).elim
  · exact (honly.eq hs).1.trans (honly.eq hs').1.symm

/-- A client that leaves `wait_for_server_ack` has had exactly its bits so far read, in order; no two signals of a
    client are pending, and none when it sends its next bit. -/
theorem stop_and_wait (hok : (system setup).Meets (System.Disciplined setup) {} actions)
    (hrun : (system setup).run {} actions = some s) :
    (∀ p k, (s.client p).stage = .acked k → sessionBits p s.log = (List.range (k + 1)).map .data) ∧
      (∀ signum signum' x y, s.serverPending signum = some x → s.serverPending signum' = some y →
        x.siPid = y.siPid → x.siPid ≠ setup.env.serverPid → signum = signum') ∧
      ∀ p k signum x, (s.client p).stage = .sending k → s.serverPending signum = some x → x.siPid ≠ p := by
  obtain ⟨φ, -, hlink⟩ := linked_run hok hrun
  refine ⟨fun p k hst => ?_, fun signum signum' x y hx hy hpid hself => ?_, fun p k signum x hst hx => ?_⟩
  · rcases (hlink p).at hst with ⟨-, hopen, -⟩ | ⟨hlast, hdone⟩
    · exact hopen.bits
    · exact hdone.bits.trans (by rw [hlast])
  · have hsent := sent_of_pending hy (hpid ▸ hself)
    exact (hlink x.siPid).left.unique (sent_of_pending hx hself) (hpid ▸ hsent)
  · rintro rfl
    obtain ⟨-, -, hquiet, -⟩ := (hlink x.siPid).at hst
    have hne : (s.client x.siPid).stage ≠ .absent := by rw [hst]; exact Stage.noConfusion
    exact hquiet.not_some (sent_of_pending hx ((hlink x.siPid).spawned_of hne).self)

end Run

/-! ### Runs of one client -/

/-- The server has pid 1; every client sends the one text. -/
def uniform (inGroup : Bool) (text : Text) : Setup where
  env := { serverPid := 1, serverPid_pos := by decide, mallocOk := fun _ => true }
  inGroup _ := inGroup
  text _ := text

def textA : Text := ⟨[0x41], 1, rfl, by decide, by decide, by simp⟩

def textAB : Text := ⟨[0x41, 0x42], 2, rfl, by decide, by decide, by simp⟩

def connects : List System.Action :=
  [.spawn 2, .client 2 .setup, .client 2 .sendPing, .handle .SIGUSR1, .deliver 2 .SIGUSR1, .client 2 .ready,
    .client 2 .prepare, .client 2 .takeSlot]

def exchanges (signum : Signum) : List System.Action :=
  [.client 2 .sendBit, .handle signum, .deliver 2 .SIGUSR2, .client 2 .ackSeen, .client 2 .ackReset]

/-- The whole session of the message `A`. -/
def delivers : List System.Action :=
  connects ++ ((startTransmission textA).take 39).flatMap exchanges ++
    [.client 2 .sendBit, .handle .SIGUSR2, .deliver 2 .SIGUSR1]

theorem no_false_delivery_A : ∃ s, (system (uniform false textA)).run {} delivers = some s ∧
    (s.client 2).stage = .exited true ∧ .printed 2 [0x41] ∈ s.log := by
  have hst : ((system (uniform false textA)).run {} delivers).map (fun s => (s.client 2).stage) =
      some (.exited true) := by decide +kernel
  obtain ⟨s, hrun, hst⟩ := Option.map_eq_some_iff.mp hst
  exact ⟨s, hrun, hst, no_false_delivery (by decide +kernel) hrun hst⟩

theorem print_integrity_A : ∃ s, (system (uniform false textA)).run {} delivers = some s ∧
    .printed 2 [0x41] ∈ s.log ∧ .bit 2 .ping ∉ s.log := by
  have hmem : ((system (uniform false textA)).run {} delivers).map
      (fun s => decide (.printed 2 [0x41] ∈ s.log)) = some true := by decide +kernel
  obtain ⟨s, hrun, hmem⟩ := Option.map_eq_some_iff.mp hmem
  exact ⟨s, hrun, of_decide_eq_true hmem, (print_integrity (by decide +kernel) hrun).2 2⟩

theorem stop_and_wait_A : ∃ s, (system (uniform false textA)).run {}
      (connects ++ exchanges .SIGUSR1 ++ (exchanges .SIGUSR1).take 4) = some s ∧
    (s.client 2).stage = .acked 1 ∧ sessionBits 2 s.log = [.data 0, .data 1] := by
  have hst : ((system (uniform false textA)).run {}
      (connects ++ exchanges .SIGUSR1 ++ (exchanges .SIGUSR1).take 4)).map (fun s => (s.client 2).stage) =
      some (.acked 1) := by decide +kernel
  obtain ⟨s, hrun, hst⟩ := Option.map_eq_some_iff.mp hst
  exact ⟨s, hrun, hst, (stop_and_wait (by decide +kernel) hrun).1 2 1 hst⟩

/-! ### A retry that crosses the answer

The first ping is delivered while the client waits for its retry; the client sends the second ping without a look
at `is_ready`, then takes the `READY` of the first one. The server reads the second ping as a bit. -/

def crosses : List System.Action :=
  [.spawn 2, .client 2 .setup, .client 2 .sendPing, .client 2 .giveUp, .client 2 .retry, .handle .SIGUSR1,
    .client 2 .sendPing, .deliver 2 .SIGUSR1, .client 2 .ready, .client 2 .prepare, .client 2 .takeSlot,
    .handle .SIGUSR1, .deliver 2 .SIGUSR2]

/-- The client goes on with the acknowledgment of the bit before. -/
def lags (signum : Signum) : List System.Action :=
  [.client 2 .sendBit, .handle signum, .client 2 .ackSeen, .client 2 .ackReset, .deliver 2 .SIGUSR2]

/-- The 39th bit of `AB` completes a frame of one byte, 0x20. -/
def misreads : List System.Action :=
  crosses ++ (((startTransmission textAB).take 39).flatMap lags).dropLast

theorem false_delivery : ∃ s, (system (uniform false textAB)).run {} (misreads ++ [.deliver 2 .SIGUSR1]) = some s ∧
    (s.client 2).stage = .exited true ∧ .printed 2 [0x41, 0x42] ∉ s.log := by
  have h : ((system (uniform false textAB)).run {} (misreads ++ [.deliver 2 .SIGUSR1])).map
      (fun s => decide ((s.client 2).stage = .exited true ∧ .printed 2 [0x41, 0x42] ∉ s.log)) = some true := by
    decide +kernel
  obtain ⟨s, hrun, h⟩ := Option.map_eq_some_iff.mp h
  exact ⟨s, hrun, of_decide_eq_true h⟩

theorem prints_another : ∃ s, (system (uniform false textAB)).run {} misreads = some s ∧
    .printed 2 [0x20] ∈ s.log ∧ .bit 2 .ping ∈ s.log := by
  have h : ((system (uniform false textAB)).run {} misreads).map
      (fun s => decide (.printed 2 [0x20] ∈ s.log ∧ .bit 2 .ping ∈ s.log)) = some true := by
    decide +kernel
  obtain ⟨s, hrun, h⟩ := Option.map_eq_some_iff.mp h
  exact ⟨s, hrun, of_decide_eq_true h⟩

theorem goes_ahead : ∃ s, (system (uniform false textAB)).run {}
      (crosses ++ [.client 2 .sendBit, .client 2 .ackSeen]) = some s ∧
    (s.client 2).stage = .acked 0 ∧ .bit 2 (.data 0) ∉ s.log := by
  have h : ((system (uniform false textAB)).run {} (crosses ++ [.client 2 .sendBit, .client 2 .ackSeen])).map
      (fun s => decide ((s.client 2).stage = .acked 0 ∧ .bit 2 (.data 0) ∉ s.log)) = some true := by
    decide +kernel
  obtain ⟨s, hrun, h⟩ := Option.map_eq_some_iff.mp h
  exact ⟨s, hrun, of_decide_eq_true h⟩

/-! ### The other conditions

Each of the runs below breaks one other condition of `Disciplined`, in one step. -/

def textLarge : Text where
  bytes := List.replicate 10000001 0x41
  len := 10000001
  len_eq := List.length_replicate.symm
  len_pos := by decide
  len_le := by decide
  noNul b hb := by rw [List.eq_of_mem_replicate hb]; decide

-- The timeout cleans up after a live client, whose next bit is taken for a ping: `READY` reads as completion.
example : ((system (uniform false textA)).run {}
    (connects ++ [.cleanGlobal, .client 2 .sendBit, .handle .SIGUSR1, .deliver 2 .SIGUSR1])).map
      (fun s => ((s.client 2).stage, printedFor 2 s.log)) = some (.exited true, []) := by
  decide +kernel

-- The refusal of the header reaches the client as an acknowledgment, through `kill(0, SIGUSR2)`.
example : ((system (uniform true textLarge)).run {}
    (connects ++ (sendSignals (textLarge.msgLen.setWidth 64) 32).flatMap exchanges ++
      [.client 2 .sendBit, .handle .SIGUSR1, .deliver 2 .SIGUSR1])).map
      (fun s => ((s.client 2).stage, printedFor 2 s.log)) = some (.exited true, []) := by
  decide +kernel

-- The client 3 leaves; the `BUSY` that the client 2 got meanwhile acknowledges the first bit of its transmission.
example : ((system (uniform false textA)).run {}
    [.spawn 3, .client 3 .setup, .client 3 .sendPing, .handle .SIGUSR1, .spawn 2, .client 2 .setup,
      .client 2 .sendPing, .handle .SIGUSR1, .deliver 3 .SIGUSR1, .client 3 .ready, .client 3 .prepare,
      .client 3 .takeSlot, .client 3 .sendBit, .client 3 .ackTimeout, .handle .SIGUSR1, .cleanGlobal,
      .client 2 .giveUp, .client 2 .retry, .client 2 .sendPing, .handle .SIGUSR1, .deliver 2 .SIGUSR1,
      .client 2 .ready, .client 2 .prepare, .client 2 .takeSlot, .deliver 2 .SIGUSR2, .client 2 .sendBit,
      .client 2 .ackSeen]).map (fun s => ((s.client 2).stage, sessionBits 2 s.log)) = some (.acked 0, []) := by
  decide +kernel

end Minitalk
