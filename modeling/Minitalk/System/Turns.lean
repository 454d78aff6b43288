import Minitalk.System.Progress

/-! # Clients in turn

One client after the other connects to the server, which is never restarted. When a client can do nothing any more,
the server is as it was before it came: it serves nobody, and no signal is pending. -/

namespace Minitalk
open Server Client Alone

/-- Everything that the server has printed, with the client that it served. -/
def messages (log : List Entry) : List (Pid × List UInt8) :=
  log.filterMap fun
    | .printed pid message => some (pid, message)
    | _ => none

/-- No client is alive, the server serves nobody, and nothing is pending at it. -/
structure Idle (setup : Setup) (s : System) : Prop where
  sound : Sound setup s
  dead : ∀ q, (s.client q).stage.alive = false
  represents : Represents setup.env s.server (.idle false)
  pending : ∀ signum, s.serverPending signum = none

/-- The clients run one after the other, each until only the server's timer could do anything. -/
inductive InTurn (setup : Setup) : List Pid → System → System → Prop where
  | done (s : System) : InTurn setup [] s s
  | turn {p : Pid} {ps : List Pid} {s t u : System} {actions : List System.Action}
    (hrun : (system setup).run s actions = some t) (halone : ∀ a ∈ actions, a.undisturbed p = true)
    (hlast : ∀ a, a.undisturbed p = true → System.step setup t a = none) (hrest : InTurn setup ps t u) :
    InTurn setup (p :: ps) s u

/-! ### What is printed during a turn -/

section Log
variable {p : Pid} {log entries : List Entry}

@[simp] theorem messages_append (log entries : List Entry) :
    messages (log ++ entries) = messages log ++ messages entries := List.filterMap_append

theorem mem_messages {message : List UInt8} : (p, message) ∈ messages log ↔ message ∈ printedFor p log := by
  rw [mem_printedFor, messages, List.mem_filterMap]
  constructor
  · rintro ⟨e, he, h⟩
    cases e with
    | opened q => cases h
    | bit q o => cases h
    | printed q m =>
      cases h
      exact he
  · exact fun h => ⟨_, h, rfl⟩

/-- What is printed for one client only. -/
theorem messages_of_one (h : ∀ q message, .printed q message ∈ entries → q = p) :
    messages entries = (printedFor p entries).map (Prod.mk p) := by
  rw [messages, printedFor, List.map_filterMap]
  refine List.filterMap_congr fun e he => ?_
  cases e with
  | opened q => rfl
  | bit q o => rfl
  | printed q m =>
    obtain rfl := h q m he
    simp

end Log

section Turn
variable {setup : Setup} {p : Pid} {others : Pid → Process} {s s' t : System} {actions : List System.Action}

/-- A client is served on its own: what is printed is its messages, behind those from before. -/
structure Turn (setup : Setup) (p : Pid) (others : Pid → Process) (earlier : List (Pid × List UInt8)) (s : System) :
    Prop extends Running setup p others s where
  printed : messages s.log = earlier ++ (printedFor p s.log).map (Prod.mk p)

theorem Alone.Config.serving_eq {c : Process} {pending : Signum → Option Pending} {replies : Signum → Option Pid}
    {q : Pid} {bits : List Bool} {printed : List (List UInt8)}
    (h : Config setup p c pending replies (.serving q bits) printed) : q = p := by
  cases h <;> rfl

/-- A step leaves the log alone, or what it prints is for the client. -/
theorem Running.printed_step (h : Running setup p others s) {a : System.Action}
    (hs : System.step setup s a = some s') :
    ∃ entries, s'.log = s.log ++ entries ∧ ∀ q message, .printed q message ∈ entries → q = p := by
  obtain ⟨φ, hrep, hconfig⟩ := h.config
  have hquiet : s'.log = s.log → ∃ entries, s'.log = s.log ++ entries ∧ ∀ q message, .printed q message ∈ entries →
      q = p := fun hlog => ⟨[], by rw [hlog, List.append_nil], nofun⟩
  cases a with
  | handle signum =>
    obtain ⟨x, server, φ', -, -, -, hhandled⟩ := handle_inv hrep h.sound.sender hs
    cases hhandled with
    | ignored => exact hquiet (by rw [received_log, List.append_nil])
    | opened => exact ⟨[.opened x.siPid], by rw [kill_log, received_log], by simp⟩
    | busy => exact hquiet (by rw [kill_log, received_log, List.append_nil])
    | bit bits mallocOk =>
      obtain rfl := hconfig.serving_eq
      refine ⟨_, (effects_log _).trans (by rw [received_log, List.append_assoc]), fun q message hmem => ?_⟩
      rcases List.mem_append.mp hmem with hmem | hmem
      · simp at hmem
      · obtain ⟨e, -, he⟩ := List.mem_filterMap.mp hmem
        cases e <;> simp_all
  | cleanGlobal =>
    obtain ⟨-, -, rfl⟩ := cleanGlobal_inv hs
    exact hquiet rfl
  | deliver q signum =>
    obtain ⟨siPid, -, -, rfl⟩ := deliver_inv hs
    exact hquiet rfl
  | spawn q =>
    obtain ⟨-, rfl⟩ := spawn_inv hs
    exact hquiet rfl
  | client q move =>
    obtain ⟨c, sent, -, rfl⟩ := clientMove_inv hs
    cases sent <;> exact hquiet rfl

theorem turn_step (hmalloc : ∀ n, setup.env.mallocOk n = true) (hfits : (setup.text p).len ≤ 10000000) (hp : 0 < p)
    (hself : p ≠ setup.env.serverPid) {earlier : List (Pid × List UInt8)} (h : Turn setup p others earlier s)
    {a : System.Action} (ha : a.undisturbed p = true) (hs : System.step setup s a = some s') :
    Turn setup p others earlier s' := by
  obtain ⟨entries, hlog, hone⟩ := h.toRunning.printed_step hs
  refine ⟨running_step hmalloc hfits hp hself h.toRunning ha hs, ?_⟩
  rw [hlog, messages_append, printedFor_append, h.printed, messages_of_one hone, List.map_append, List.append_assoc]

/-- A client that was not there before comes to a server that serves nobody. -/
theorem Idle.turn (h : Idle setup s) (habsent : (s.client p).stage = .absent)
    (hnew : ∀ message, (p, message) ∉ messages s.log) : Turn setup p s.client (messages s.log) s := by
  have hnone : printedFor p s.log = [] :=
    List.eq_nil_iff_forall_not_mem.mpr fun message hmem => hnew message (mem_messages.mpr hmem)
  refine ⟨⟨h.sound, fun _ _ => rfl, fun q _ => h.dead q, .idle false, h.represents, ?_⟩, ?_⟩
  · rw [hnone]
    exact .absent habsent h.pending
  · rw [hnone, List.map_nil, List.append_nil]

theorem Idle.turn_run (h : Idle setup s) (hmalloc : ∀ n, setup.env.mallocOk n = true)
    (hfits : (setup.text p).len ≤ 10000000) (hp : 0 < p) (hself : p ≠ setup.env.serverPid)
    (habsent : (s.client p).stage = .absent) (hnew : ∀ message, (p, message) ∉ messages s.log)
    (hrun : (system setup).run s actions = some t) (halone : ∀ a ∈ actions, a.undisturbed p = true) :
    Turn setup p s.client (messages s.log) t := by
  have hok : (system setup).Meets (fun _ a => a.undisturbed p = true) s actions :=
    Transition.meets_of_forall _ halone
  exact Transition.run_invariant (I := Turn setup p s.client (messages s.log))
    (fun _ _ _ h ha hs => turn_step hmalloc hfits hp hself h ha hs) (h.turn habsent hnew) hok hrun

/-- When the client can do nothing any more, it was told of its delivery and the server serves nobody. -/
theorem Running.idle (h : Running setup p others s) (hp : 0 < p) (hself : p ≠ setup.env.serverPid)
    (hlast : ∀ a, a.undisturbed p = true → System.step setup s a = none) :
    (s.client p).stage = .exited true ∧ printedFor p s.log = [(setup.text p).bytes] ∧ Idle setup s := by
  obtain ⟨hst, hprinted⟩ := (h.progress hp hself).resolve_right fun ⟨a, ha, hstep⟩ => hstep (hlast a ha)
  obtain ⟨φ, hrep, hconfig⟩ := h.config
  have hphase : φ = .idle false := by
    rw [hprinted] at hconfig
    generalize s.client p = c at hconfig
    cases hconfig <;> rfl
  have hpending : ∀ signum, s.serverPending signum = none := fun signum => by
    by_contra hsome
    obtain ⟨x, hx⟩ := Option.ne_none_iff_exists'.mp hsome
    have hnone := hlast (.handle signum) rfl
    simp [System.step, System.handle, hx, hconfig.serves hrep] at hnone
  refine ⟨hst, hprinted, h.sound, fun q => ?_, hphase ▸ hrep, hpending⟩
  by_cases hq : q = p
  · rw [hq, hst]
    rfl
  · rw [h.alone q hq]
    exact h.dead q hq

end Turn

section Turns
variable {setup : Setup} {s t : System} {ps : List Pid}

theorem idle_initial (setup : Setup) : Idle setup {} :=
  ⟨sound_initial setup, fun _ => rfl, represents_initial, fun _ => rfl⟩

theorem turns_delivered (hmalloc : ∀ n, setup.env.mallocOk n = true) (hturn : InTurn setup ps s t)
    (hps : ∀ p ∈ ps, 0 < p ∧ p ≠ setup.env.serverPid ∧ (setup.text p).len ≤ 10000000) (hnodup : ps.Nodup)
    (hidle : Idle setup s) (hnew : ∀ p ∈ ps, (s.client p).stage = .absent ∧ ∀ message, (p, message) ∉ messages s.log) :
    messages t.log = messages s.log ++ ps.map (fun p => (p, (setup.text p).bytes)) ∧
      (∀ p ∈ ps, (t.client p).stage = .exited true) ∧ (∀ q, q ∉ ps → t.client q = s.client q) ∧ Idle setup t := by
  induction hturn with
  | done s => exact ⟨(List.append_nil _).symm, nofun, fun _ _ => rfl, hidle⟩
  | @turn p ps s t u actions hrun halone hlast _ ih =>
    obtain ⟨hp, hself, hfits⟩ := hps p List.mem_cons_self
    obtain ⟨hnotin, hnodup⟩ := List.nodup_cons.mp hnodup
    obtain ⟨habsent, hfresh⟩ := hnew p List.mem_cons_self
    have hturn := hidle.turn_run hmalloc hfits hp hself habsent hfresh hrun halone
    obtain ⟨hst, hprinted, hidle'⟩ := hturn.toRunning.idle hp hself hlast
    have hlog : messages t.log = messages s.log ++ [(p, (setup.text p).bytes)] := by
      rw [hturn.printed, hprinted, List.map_singleton]
    have hne : ∀ q ∈ ps, q ≠ p := fun q hq he => hnotin (he ▸ hq)
    obtain ⟨hmessages, hexited, hothers, hend⟩ := ih (fun q hq => hps q (List.mem_cons_of_mem p hq)) hnodup hidle'
      fun q hq => ⟨by rw [hturn.alone q (hne q hq)]; exact (hnew q (List.mem_cons_of_mem p hq)).1,
        fun message hmem => by
        rw [hlog, List.mem_append] at hmem
        rcases hmem with hmem | hmem
        · exact (hnew q (List.mem_cons_of_mem p hq)).2 message hmem
        · exact hne q hq (congrArg Prod.fst (List.mem_singleton.mp hmem))⟩
    refine ⟨?_, fun q hq => ?_, fun q hq => ?_, hend⟩
    · rw [hmessages, hlog, List.append_assoc]
      rfl
    · rcases List.mem_cons.mp hq with rfl | hq
      · rw [hothers q hnotin]
        exact hst
      · exact hexited q hq
    · rw [List.mem_cons, not_or] at hq
      rw [hothers q hq.2, hturn.alone q hq.1]

/-- A server that is never restarted prints the messages of its clients in the order in which they come, each of them
    is told of its delivery, and in the end it waits for the next. -/
theorem clients_in_turn (setup : Setup) (ps : List Pid) (s : System) (hmalloc : ∀ n, setup.env.mallocOk n = true)
    (hps : ∀ p ∈ ps, 0 < p ∧ p ≠ setup.env.serverPid ∧ (setup.text p).len ≤ 10000000) (hnodup : ps.Nodup)
    (hturn : InTurn setup ps {} s) :
    messages s.log = ps.map (fun p => (p, (setup.text p).bytes)) ∧ (∀ p ∈ ps, (s.client p).stage = .exited true) ∧
      Idle setup s := by
  obtain ⟨hmessages, hexited, -, hidle⟩ :=
    turns_delivered hmalloc hturn hps hnodup (idle_initial setup) fun p _ => ⟨rfl, nofun⟩
  exact ⟨hmessages, hexited, hidle⟩

/-- The same step of another client. -/
def System.Action.toward (p : Pid) : Action → Action
  | .deliver _ signum => .deliver p signum
  | .spawn _ => .spawn p
  | .client _ move => .client p move
  | a => a

/-- The session of the message `A`, up to the signal of the server to its own group. -/
def session (p : Pid) : List System.Action := (delivers ++ [System.Action.handle .SIGUSR2]).map (.toward p)

/-- Two clients in turn. -/
theorem clients_in_turn_two : ∃ s, InTurn (uniform false textA) [2, 3] {} s ∧
    messages s.log = [(2, [0x41]), (3, [0x41])] := by
  have hend : ((system (uniform false textA)).run {} (session 2)).bind (fun t =>
      ((system (uniform false textA)).run t (session 3)).map fun s =>
        ((t.serverPending .SIGUSR1, t.serverPending .SIGUSR2, (t.client 2).stage),
          s.serverPending .SIGUSR1, s.serverPending .SIGUSR2, (s.client 3).stage)) =
      some ((none, none, .exited true), none, none, .exited true) := by decide +kernel
  obtain ⟨t, hrun₂, hend⟩ := Option.bind_eq_some_iff.mp hend
  obtain ⟨s, hrun₃, hend⟩ := Option.map_eq_some_iff.mp hend
  obtain ⟨⟨ht1, ht2, htst⟩, hs1, hs2, hsst⟩ := by simpa only [Prod.mk.injEq] using hend
  have halone₂ : ∀ a ∈ session 2, System.Action.undisturbed 2 a = true := List.all_eq_true.mp (by decide +kernel)
  have halone₃ : ∀ a ∈ session 3, System.Action.undisturbed 3 a = true := List.all_eq_true.mp (by decide +kernel)
  have hturn₂ := (idle_initial _).turn_run (p := 2) (fun _ => rfl) (by decide) (by decide) (by decide) rfl nofun hrun₂
    halone₂
  have hlast₂ : ∀ a, System.Action.undisturbed 2 a = true → System.step (uniform false textA) t a = none :=
    fun a ha => hturn₂.toRunning.ended htst (fun signum => by cases signum <;> assumption) ha
  obtain ⟨-, hprinted, hidle⟩ := hturn₂.toRunning.idle (by decide) (by decide) hlast₂
  have hlog : messages t.log = [(2, [0x41])] := by
    rw [hturn₂.printed, hprinted]
    rfl
  have hturn₃ := hidle.turn_run (p := 3) (fun _ => rfl) (by decide) (by decide) (by decide)
    (congrArg Process.stage (hturn₂.alone 3 (by decide))) (by simp [hlog]) hrun₃ halone₃
  have hturn : InTurn (uniform false textA) [2, 3] {} s :=
    .turn hrun₂ halone₂ hlast₂ (.turn hrun₃ halone₃
      (fun a ha => hturn₃.toRunning.ended hsst (fun signum => by cases signum <;> assumption) ha) (.done s))
  exact ⟨s, hturn, (clients_in_turn _ _ s (fun _ => rfl) (by decide) (by decide) hturn).1⟩

end Turns

end Minitalk
