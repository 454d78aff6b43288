import Minitalk.Client.Transmission

/-! # Sender and receiver are an exact codec

Sessions run one after the other: complete transmissions, transmissions cut off and cleaned up, and headers
that announce a length outside 1..10,000,000. The server prints the messages of the complete ones, each on its
last bit, and nothing else, and is back in its initial record after every session. -/

namespace Minitalk.Server
open Bits Frame Client

inductive Session where
  /-- A ping, then all signals of a transmission. -/
  | full (pid : Pid) (text : Text)
  /-- A ping, the first `n` signals of a transmission, then `clean_global`. -/
  | cut (pid : Pid) (text : Text) (n : Nat)
  /-- A ping, then the 32 bits of a header. -/
  | badHeader (pid : Pid) (size : BitVec 32)

namespace Session

def events : Session → List Event
  | full pid text => .signal .SIGUSR1 pid :: (startTransmission text).map (.signal · pid)
  | cut pid text n => .signal .SIGUSR1 pid :: ((startTransmission text).take n).map (.signal · pid) ++ [.cleanGlobal]
  | badHeader pid size => .signal .SIGUSR1 pid :: (sendSignals (size.setWidth 64) 32).map (.signal · pid)

/-- A client with a process of its own, a message that the server takes, a proper prefix, a refused length. -/
def Valid (serverPid : Pid) : Session → Prop
  | full pid text => 0 < pid ∧ pid ≠ serverPid ∧ text.len ≤ 10000000
  | cut pid text n => 0 < pid ∧ pid ≠ serverPid ∧ text.len ≤ 10000000 ∧ n < (startTransmission text).length
  | badHeader pid size => 0 < pid ∧ pid ≠ serverPid ∧ ¬(1 ≤ size.toInt ∧ size.toInt ≤ 10000000)

/-- What is printed at each event of the session. -/
def prints : Session → List (List (List UInt8))
  | full _ text => List.replicate (startTransmission text).length [] ++ [[text.bytes]]
  | cut _ _ n => List.replicate (n + 2) []
  | badHeader _ _ => List.replicate 33 []

def message : Session → Option (List UInt8)
  | full _ text => some text.bytes
  | cut _ _ _ => none
  | badHeader _ _ => none

theorem flatten_prints (x : Session) : x.prints.flatten = x.message.toList := by
  cases x <;> simp [prints, message]

end Session

/-- The message bytes that a list of effects prints. -/
def printed (out : List Effect) : List (List UInt8) :=
  out.filterMap fun
    | .print message => some message
    | .kill _ _ => none

@[simp] theorem printed_nil : printed [] = [] := rfl

@[simp] theorem printed_kill (pid : Pid) (signum : Signum) (out : List Effect) :
    printed (.kill pid signum :: out) = printed out := rfl

@[simp] theorem printed_print (message : List UInt8) (out : List Effect) :
    printed (.print message :: out) = message :: printed out := rfl

/-! ### Sessions of the model -/

section Model
variable {serverPid pid : Pid}

def bitEvents (pid : Pid) (bits : List Bool) : List Event := bits.map fun b => .signal (sendDataBit b) pid

theorem step_ping (hpid : 0 < pid) (hself : pid ≠ serverPid) :
    (Phase.machine serverPid).step (.idle false) (.signal .SIGUSR1 pid) =
      (.serving pid [], [.kill pid SERVER_READY]) := by
  simp [Phase.machine, Phase.step, hself, hpid.ne']

theorem step_bit (hpid : 0 < pid) (hself : pid ≠ serverPid) (bits : List Bool) (b : Bool) :
    (Phase.machine serverPid).step (.serving pid bits) (.signal (sendDataBit b) pid) =
      Phase.receive true pid bits b := by
  simp [Phase.machine, Phase.step, Phase.sender, hself, hpid.ne', getBitValue_sendDataBit]

/-- Bits that leave the frame open are collected and acknowledged. -/
theorem run_bits (hpid : 0 < pid) (hself : pid ≠ serverPid) (pre bits : List Bool)
    (hmore : ∀ k, k ≤ bits.length → wire.status (pre ++ bits.take k) = .more) :
    (Phase.machine serverPid).run (.serving pid pre) (bitEvents pid bits) = .serving pid (pre ++ bits) ∧
      (Phase.machine serverPid).outputs (.serving pid pre) (bitEvents pid bits) =
        List.replicate bits.length [.kill pid .SIGUSR2] := by
  induction bits generalizing pre with
  | nil => simp [bitEvents]
  | cons b bits ih =>
    have hfirst : Phase.receive true pid pre b = (.serving pid (pre ++ [b]), [.kill pid .SIGUSR2]) := by
      have := hmore 1 (by simp)
      simp only [List.take_succ_cons, List.take_zero] at this
      simp [Phase.receive, this]
    have hrest := ih (pre ++ [b]) fun k hk => by
      have := hmore (k + 1) (by simpa using hk)
      rwa [List.take_succ_cons, List.append_cons] at this
    have hstep := (step_bit hpid hself pre b).trans hfirst
    have hevents : bitEvents pid (b :: bits) = .signal (sendDataBit b) pid :: bitEvents pid bits := rfl
    rw [hevents, Machine.run_cons, Machine.outputs_cons, hstep, hrest.1, hrest.2]
    exact ⟨by rw [List.append_assoc]; rfl, rfl⟩

theorem run_until_last (hpid : 0 < pid) (hself : pid ≠ serverPid) {bits : List Bool} {b : Bool}
    (hmore : ∀ k, k ≤ bits.length → wire.status (bits.take k) = .more) :
    (Phase.machine serverPid).run (.idle false) (.signal .SIGUSR1 pid :: bitEvents pid (bits ++ [b])) =
        (Phase.receive true pid bits b).1 ∧
      ((Phase.machine serverPid).outputs (.idle false)
        (.signal .SIGUSR1 pid :: bitEvents pid (bits ++ [b]))).map printed =
        List.replicate (bits.length + 1) [] ++ [printed (Phase.receive true pid bits b).2] := by
  obtain ⟨hrun, hout⟩ := run_bits hpid hself [] bits (by simpa using hmore)
  have hsplit : bitEvents pid (bits ++ [b]) = bitEvents pid bits ++ [.signal (sendDataBit b) pid] := by
    simp [bitEvents]
  rw [Machine.run_cons, Machine.outputs_cons, step_ping hpid hself, hsplit, Machine.run_concat,
    Machine.outputs_concat, hrun, hout, List.nil_append, step_bit hpid hself]
  simp [List.replicate_succ]

end Model

theorem accepts_eq_false {size : BitVec 32} (h : ¬(1 ≤ size.toInt ∧ size.toInt ≤ 10000000)) :
    wire.accepts size.toNat = false := by
  rw [← validateMessageSize_eq]
  simp only [validateMessageSize]
  split
  · rfl
  · omega

theorem events_full (pid : Pid) (text : Text) :
    (Session.full pid text).events = .signal .SIGUSR1 pid :: bitEvents pid (wire.encode text.units) := by
  rw [Session.events, startTransmission_eq, List.map_map]
  rfl

theorem events_badHeader (pid : Pid) (size : BitVec 32) :
    (Session.badHeader pid size).events = .signal .SIGUSR1 pid :: bitEvents pid (ofNat 32 size.toNat) := by
  rw [Session.events, sendSignals_eq _ (by decide), List.map_map, BitVec.toNat_setWidth,
    Nat.mod_eq_of_lt (size.isLt.trans (by decide))]
  rfl

theorem receive_rejected {pid : Pid} {bits : List Bool} {b : Bool} (h : wire.status (bits ++ [b]) = .rejected) :
    Phase.receive true pid bits b = (.idle false, [.kill 0 .SIGUSR2]) := by
  rw [Phase.receive, h]

theorem receive_complete {pid : Pid} {bits : List Bool} {b : Bool} {us : List Nat}
    (h : wire.status (bits ++ [b]) = .complete us) :
    Phase.receive true pid bits b =
      (.idle false, [.print (us.map UInt8.ofNat), .kill pid .SIGUSR1, .kill 0 .SIGUSR2]) := by
  rw [Phase.receive, h]

/-- A string of at least one bit, with its last bit apart: the proper prefixes are those of the rest. -/
theorem exists_last (code : List Bool) (h : 0 < code.length) {P : List Bool → Prop}
    (hP : ∀ k, k < code.length → P (code.take k)) :
    ∃ bits b, code = bits ++ [b] ∧ ∀ k, k ≤ bits.length → P (bits.take k) := by
  rcases List.eq_nil_or_concat code with rfl | ⟨bits, b, rfl⟩
  · exact absurd h (by simp)
  · rw [List.concat_eq_append] at hP ⊢
    refine ⟨bits, b, rfl, fun k hk => ?_⟩
    have := hP k (by simp; omega)
    rwa [List.take_append_of_le_length hk] at this

theorem session_model {serverPid : Pid} {x : Session} (h : x.Valid serverPid) :
    (Phase.machine serverPid).run (.idle false) x.events = .idle false ∧
      ((Phase.machine serverPid).outputs (.idle false) x.events).map printed = x.prints := by
  match x, h with
  | .full pid text, ⟨hpid, hself, hlen⟩ =>
    have hsend := sendable text hlen
    obtain ⟨bits, b, hcode, hmore⟩ := exists_last (wire.encode text.units) (by simp [wire])
      (P := fun bs => wire.status bs = .more) fun k hk => Format.status_take_encode hsend hk
    have hlast := Format.status_encode hsend
    rw [hcode] at hlast
    have hcount : (startTransmission text).length = bits.length + 1 := by
      rw [startTransmission_eq, hcode]
      simp
    obtain ⟨hrun, hout⟩ := run_until_last (b := b) hpid hself hmore
    rw [events_full, hcode, hrun, hout, receive_complete hlast, map_ofNat_units]
    exact ⟨rfl, by rw [Session.prints, hcount]; rfl⟩
  | .cut pid text n, ⟨hpid, hself, hlen, hn⟩ =>
    have hsend := sendable text hlen
    rw [startTransmission_eq, List.length_map] at hn
    have htake : ((wire.encode text.units).take n).length = n := by rw [List.length_take, Nat.min_eq_left hn.le]
    obtain ⟨hrun, hout⟩ := run_bits hpid hself [] ((wire.encode text.units).take n) fun k hk => by
      rw [htake] at hk
      rw [List.nil_append, List.take_take, Nat.min_eq_left hk]
      exact Format.status_take_encode hsend (hk.trans_lt hn)
    have hevents : (Session.cut pid text n).events =
        .signal .SIGUSR1 pid :: (bitEvents pid ((wire.encode text.units).take n) ++ [.cleanGlobal]) := by
      rw [Session.events, startTransmission_eq, ← List.map_take, List.map_map]
      rfl
    rw [hevents, Machine.run_cons, Machine.outputs_cons, step_ping hpid hself, Machine.run_concat,
      Machine.outputs_concat, hrun, hout, htake]
    refine ⟨rfl, ?_⟩
    rw [Session.prints, List.replicate_succ, List.replicate_succ']
    simp [Phase.machine, Phase.step]
  | .badHeader pid size, ⟨hpid, hself, hsize⟩ =>
    have hrej := accepts_eq_false hsize
    obtain ⟨bits, b, hcode, hmore⟩ := exists_last (ofNat 32 size.toNat) (by simp)
      (P := fun bs => wire.status bs = .more) fun k hk => Format.status_of_lt (by
        rw [length_ofNat] at hk
        rw [List.length_take, length_ofNat, Nat.min_eq_left hk.le]
        exact hk)
    have hlast := Format.status_ofNat_rejected (f := wire) size.isLt hrej
    have hlen : bits.length = 31 := by
      have := congrArg List.length hcode
      simpa using this.symm
    obtain ⟨hrun, hout⟩ := run_until_last (b := b) hpid hself hmore
    rw [events_badHeader, hcode, hrun, hout, receive_rejected (hcode ▸ hlast), hlen]
    exact ⟨rfl, rfl⟩

theorem sessions_model {serverPid : Pid} {sessions : List Session} (h : ∀ x ∈ sessions, x.Valid serverPid) :
    (Phase.machine serverPid).run (.idle false) (sessions.flatMap Session.events) = .idle false ∧
      ((Phase.machine serverPid).outputs (.idle false) (sessions.flatMap Session.events)).map printed =
        sessions.flatMap Session.prints := by
  induction sessions with
  | nil => exact ⟨rfl, rfl⟩
  | cons x sessions ih =>
    obtain ⟨hrun, hout⟩ := session_model (h x List.mem_cons_self)
    obtain ⟨hruns, houts⟩ := ih fun y hy => h y (List.mem_cons_of_mem x hy)
    rw [List.flatMap_cons, List.flatMap_cons, Machine.run_append, Machine.outputs_append, List.map_append, hrun,
      hout, hruns, houts]
    exact ⟨rfl, rfl⟩

theorem flatten_flatMap_prints (sessions : List Session) :
    (sessions.flatMap Session.prints).flatten = sessions.filterMap Session.message := by
  induction sessions with
  | nil => rfl
  | cons x sessions ih =>
    rw [List.flatMap_cons, List.flatten_append, ih, x.flatten_prints, List.filterMap_cons]
    cases x.message <;> rfl

/-- The server prints the messages of the complete sessions, in order, each on the last bit of its session, and
    is in its initial record after every session. -/
theorem codec_exact {env : Env} (hok : ∀ n, env.mallocOk n = true) {sessions : List Session}
    (h : ∀ x ∈ sessions, x.Valid env.serverPid) :
    let outputs := ((machine env).outputs initial (sessions.flatMap Session.events)).map printed
    outputs.flatten = sessions.filterMap Session.message ∧ outputs = sessions.flatMap Session.prints ∧
      ∀ done, done <+: sessions →
        ((machine env).run initial (done.flatMap Session.events)).client = initial.client := by
  have hout := (sessions_model h).2
  rw [← (simulates hok represents_initial _).2] at hout
  refine ⟨by rw [hout, flatten_flatMap_prints], hout, fun done hdone => ?_⟩
  have hrun := (simulates hok represents_initial (done.flatMap Session.events)).1
  rw [(sessions_model fun x hx => h x (hdone.subset hx)).1] at hrun
  exact hrun.2.2

/-- A byte above 0x7f, a transmission cut after 5 bits and a header of 0. -/
theorem codec_exact_three :
    let env : Env := { serverPid := 1, serverPid_pos := by decide, mallocOk := fun _ => true }
    let text : Text := ⟨[0xC3], 1, rfl, by decide, by decide, by simp⟩
    let sessions : List Session := [.full 2 text, .cut 3 text 5, .badHeader 2 0]
    (((machine env).outputs initial (sessions.flatMap Session.events)).map printed).flatten = [[0xC3]] ∧
      ((machine env).run initial (sessions.flatMap Session.events)).client = initial.client := by
  intro env text sessions
  have hok : ∀ n, env.mallocOk n = true := fun _ => rfl
  have hvalid : ∀ x ∈ sessions, x.Valid env.serverPid := by
    intro x hx
    simp only [sessions, List.mem_cons, List.not_mem_nil, or_false] at hx
    rcases hx with rfl | rfl | rfl
    · exact ⟨by decide, by decide, by decide⟩
    · exact ⟨by decide, by decide, by decide, by rw [startTransmission_eq]; simp [wire]; decide⟩
    · exact ⟨by decide, by decide, by decide⟩
  have h := codec_exact hok hvalid
  exact ⟨h.1, h.2.2 sessions List.prefix_rfl⟩

end Minitalk.Server
