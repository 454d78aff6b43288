import Minitalk.Server.Codec

/-! # The open session is isolated from other clients

While the session of a client is open, the signals of other processes change nothing and are answered `BUSY`:
the run without them ends in the same state, prints the same bytes and sends the client the same signals. -/

namespace Minitalk.Server

/-- The session of `pid` is open, and the process runs. -/
def SessionOpen (pid : Pid) (s : State) : Prop := s.exited = false ∧ s.client.actualPid = pid

/-- The signals that a list of effects sends to `pid`, in order. -/
def sentTo (pid : Pid) (out : List Effect) : List Signum :=
  out.filterMap fun
    | .kill q signum => if q = pid then some signum else none
    | .print _ => none

/-- The signal comes from `pid`, or without a sender. -/
def ofClient (pid : Pid) : Event → Bool
  | .signal _ siPid => siPid = pid || siPid = 0
  | .cleanGlobal => true

def signals (l : List (Signum × Pid)) : List Event := l.map fun x => .signal x.1 x.2

section
variable {env : Env} {s : State} {pid : Pid}

/-- A signal of another process leaves the state as it is; unless it is the server's own, it is answered. -/
theorem step_of_other (hpid : 0 < pid) (ho : SessionOpen pid s) {signum : Signum} {q : Pid} (hq : q ≠ pid)
    (hq0 : q ≠ 0) :
    (machine env).step s (.signal signum q) = (s, if q = env.serverPid then [] else [.kill q SERVER_BUSY]) := by
  have hact : s.client.actualPid = pid := ho.2
  have hsender : lostSignal s.client q signum = q := if_neg fun h => hq0 h.1
  have hforeign : lostSignal s.client q signum ≠ s.client.actualPid := by rw [hsender, hact]; exact hq
  have hstep := signalHandler_of_foreign env (hact ▸ hpid.ne') hforeign
  rw [hsender] at hstep
  simpa [machine, ho.1] using hstep

theorem signals_filter (l : List (Signum × Pid)) :
    signals (l.filter fun x => x.2 = pid || x.2 = 0) = (signals l).filter (ofClient pid) := by
  rw [signals, signals, List.filter_map]
  rfl

/-- What a deleted signal does in the state that it arrives in. -/
theorem step_deleted (hpid : 0 < pid) {e : Event} (ho : SessionOpen pid s) (he : ofClient pid e = false) :
    ((machine env).step s e).1 = s ∧ printed ((machine env).step s e).2 = [] ∧
      sentTo pid ((machine env).step s e).2 = [] := by
  cases e with
  | cleanGlobal => cases he
  | signal signum q =>
    simp only [ofClient, Bool.or_eq_false_iff, decide_eq_false_iff_not] at he
    rw [step_of_other hpid ho he.1 he.2]
    split <;> simp [sentTo, he.1]

/-- Without the signals of other processes, the run of an open session, up to the signal that ends it, is the
    same to its client, and they are answered `BUSY`. -/
theorem session_isolated (hpid : 0 < pid) {l : List (Signum × Pid)}
    (ho : ∀ k, k < l.length → SessionOpen pid ((machine env).run s (signals (l.take k)))) :
    let all := signals l
    let own := signals (l.filter fun x => x.2 = pid || x.2 = 0)
    (machine env).run s own = (machine env).run s all ∧
      ((machine env).outputs s own).flatMap printed = ((machine env).outputs s all).flatMap printed ∧
      ((machine env).outputs s own).flatMap (sentTo pid) = ((machine env).outputs s all).flatMap (sentTo pid) ∧
      ∀ x ∈ l.zip ((machine env).outputs s all), x.1.2 ≠ pid → x.1.2 ≠ 0 →
        x.2 = if x.1.2 = env.serverPid then [] else [.kill x.1.2 SERVER_BUSY] := by
  intro all own
  have hown : own = all.filter (ofClient pid) := signals_filter l
  have hall : ∀ k, k < all.length → SessionOpen pid ((machine env).run s (all.take k)) := fun k hk => by
    have := ho k (by simpa [all, signals] using hk)
    rwa [signals, List.map_take] at this
  have hdeleted : ∀ x ∈ all.zip ((machine env).outputs s all), ofClient pid x.1 = false →
      printed x.2 = [] ∧ sentTo pid x.2 = [] := fun x hx he => by
    obtain ⟨k, hk, hout⟩ := Machine.mem_zip_outputs hx
    rw [hout]
    exact (step_deleted hpid (hall k hk) he).2
  have hlen := Machine.length_outputs (m := machine env) s all
  obtain ⟨hrun, hout⟩ := Machine.run_filter (fun _ _ ht he => (step_deleted hpid ht he).1) hall
  rw [hown, hrun, hout]
  refine ⟨rfl, Machine.flatMap_keptOutputs _ hlen fun x hx he => (hdeleted x hx he).1,
    Machine.flatMap_keptOutputs _ hlen fun x hx he => (hdeleted x hx he).2, ?_⟩
  rintro ⟨⟨signum, q⟩, out⟩ hx hq hq0
  have hmem : (.signal signum q, out) ∈ all.zip ((machine env).outputs s all) := by
    rw [show all = l.map _ from rfl, List.zip_map_left]
    exact List.mem_map.mpr ⟨_, hx, rfl⟩
  obtain ⟨k, hk, hk'⟩ := Machine.mem_zip_outputs hmem
  exact hk'.trans (congrArg Prod.snd (step_of_other hpid (hall k hk) hq hq0))

end

/-- Two bits of a client, with a ping of another process and a signal of the server itself between them. -/
theorem session_isolated_two :
    let env : Env := { serverPid := 1, serverPid_pos := by decide, mallocOk := fun _ => true }
    let s : State := { client := connected 2 }
    let l : List (Signum × Pid) := [(.SIGUSR1, 2), (.SIGUSR1, 3), (.SIGUSR2, 1), (.SIGUSR2, 0)]
    Reachable env s ∧
      (machine env).run s (signals [(.SIGUSR1, 2), (.SIGUSR2, 0)]) = (machine env).run s (signals l) := by
  intro env s l
  refine ⟨⟨[.signal .SIGUSR1 2], by decide +kernel⟩, (session_isolated (by decide : (0 : Pid) < 2) (l := l) ?_).1⟩
  intro k hk
  have : k = 0 ∨ k = 1 ∨ k = 2 ∨ k = 3 := by simp [l] at hk; omega
  rcases this with rfl | rfl | rfl | rfl <;> exact ⟨by decide +kernel, by decide +kernel⟩

end Minitalk.Server
