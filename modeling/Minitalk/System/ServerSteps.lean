import Minitalk.System.ClientSteps

/-! # The steps of the server keep every link

A signal that is delivered to the server moves the session of its sender; to the other clients it is the step of
another process. A clean-up keeps the links when the client of the session has left. -/

namespace Minitalk
open Server Client Frame

/-! ### The prefixes of a transmission -/

/-- The server waits for more until the last bit, unless the length is too large for it. -/
theorem status_code (t : Text) {k : Nat} (hk : k < t.signalCount) :
    (k + 1 < t.signalCount ∧ wire.status ((wire.encode t.units).take (k + 1)) = .more) ∨
      (k + 1 = t.signalCount ∧ wire.status ((wire.encode t.units).take (k + 1)) = .complete t.units) ∨
      ((32 ≤ k + 1 ∧ 10000000 < t.len) ∧ wire.status ((wire.encode t.units).take (k + 1)) = .rejected) := by
  have hlen : (wire.encode t.units).length = t.signalCount := by
    rw [Format.length_encode, t.length_units]
    rfl
  by_cases hfits : t.len ≤ 10000000
  · have hsend := sendable t hfits
    by_cases hlast : k + 1 = t.signalCount
    · refine Or.inr (Or.inl ⟨hlast, ?_⟩)
      rw [List.take_of_length_le (hlen.trans hlast.symm).le, Format.status_encode hsend]
    · have hlt : k + 1 < t.signalCount := by omega
      exact Or.inl ⟨hlt, Format.status_take_encode hsend (hlt.trans_eq hlen.symm)⟩
  · have hlarge : 10000000 < t.len := Nat.lt_of_not_le hfits
    have htake : ((wire.encode t.units).take (k + 1)).length = k + 1 := by
      rw [List.length_take, hlen, Nat.min_eq_left hk]
    by_cases hshort : k + 1 < 32
    · have hlt : k + 1 < t.signalCount := by
        rw [Text.signalCount]
        omega
      exact Or.inl ⟨hlt, Format.status_of_lt (htake.trans_lt hshort)⟩
    · have hann : wire.announced ((wire.encode t.units).take (k + 1)) = t.len := by
        have hlong : wire.headerWidth ≤ k + 1 := Nat.le_of_not_lt hshort
        rw [Format.announced, List.take_take, Nat.min_eq_left hlong, ← Format.announced, Format.announced_encode,
          t.length_units]
        rw [t.length_units]
        exact t.len_le.trans_lt (by decide)
      refine Or.inr (Or.inr ⟨⟨Nat.le_of_not_lt hshort, hlarge⟩, Format.status_of_rejected ?_ ?_⟩)
      · rw [htake]
        exact Nat.le_of_not_lt hshort
      · rw [hann]
        exact decide_eq_false fun h => absurd h.2 hfits

theorem take_code {setup : Setup} {p : Pid} {k : Nat} {signum : Signum} (h : setup.signal? p k = some signum) :
    (setup.code p).take k ++ [getBitValue signum] = (setup.code p).take (k + 1) := by
  rw [Setup.signal?, startTransmission_eq, List.getElem?_map] at h
  obtain ⟨b, hb, rfl⟩ := Option.map_eq_some_iff.mp h
  rw [getBitValue_sendDataBit, Setup.code, List.take_add_one, hb]
  rfl

/-- What the k-th signal of a transmission does to the session that has read the signals before it. -/
theorem receive_code {setup : Setup} {p : Pid} {k : Nat} {signum : Signum} (hk : k < (setup.text p).signalCount)
    (h : setup.signal? p k = some signum) (mallocOk : Bool) :
    let r := Phase.receive mallocOk p ((setup.code p).take k) (getBitValue signum)
    (k + 1 < (setup.text p).signalCount ∧
        (r = (.exited, []) ∨ r = (.serving p ((setup.code p).take (k + 1)), [.kill p .SIGUSR2]))) ∨
      (k + 1 = (setup.text p).signalCount ∧
        r = (.idle false, [.print (setup.text p).bytes, .kill p .SIGUSR1, .kill 0 .SIGUSR2])) ∨
      ((32 ≤ k + 1 ∧ 10000000 < (setup.text p).len) ∧ r = (.idle false, [.kill 0 .SIGUSR2])) := by
  intro r
  have hcode := take_code h
  rcases status_code (setup.text p) hk with ⟨hlt, hst⟩ | ⟨hlast, hst⟩ | ⟨hlarge, hst⟩
  · refine Or.inl ⟨hlt, ?_⟩
    rw [← Setup.code, ← hcode] at hst
    simp only [r, Phase.receive, hst]
    split
    · exact Or.inl rfl
    · exact Or.inr (by rw [hcode])
  · rw [← Setup.code, ← hcode] at hst
    refine Or.inr (Or.inl ⟨hlast, ?_⟩)
    simp only [r, Phase.receive, hst, map_ofNat_units]
  · rw [← Setup.code, ← hcode] at hst
    refine Or.inr (Or.inr ⟨hlarge, ?_⟩)
    simp only [r, Phase.receive, hst]

/-! ### The sender of the signal -/

section Sender
variable {setup : Setup} {p : Pid} {φ φ' : Phase} {v v' : View} {signum : Signum} {origin : Origin}

/-- A client in `ping` that the server does not serve: its signal is the only one pending. -/
theorem Pinging.pending_closed (h : Pinging setup p φ v) (hc : Closed p φ) (hs : v.sent signum = some origin) :
    v.replies .SIGUSR1 = none ∧ v.process.server.isReady = false ∧ Only v.sent signum .ping := by
  rcases h.session with ⟨-, husr1, hready, hquiet | honly⟩ | ⟨hopen, -⟩
  · exact (hquiet.not_some hs).elim
  · obtain ⟨rfl, -⟩ := honly.eq hs
    exact ⟨husr1, hready, honly⟩
  · exact absurd hc hopen.not_closed

/-- Who has a signal pending and is not served is in `ping`, or has left. -/
theorem Link.pending_closed (h : Link setup p φ v) (hc : Closed p φ) (hs : v.sent signum = some origin) :
    Quiet (Function.update v.sent signum none) ∧
      (v.process.stage.inPing = true ∨ ∃ b, v.process.stage = .exited b) := by
  have hping : Pinging setup p φ v → Quiet (Function.update v.sent signum none) := fun hp =>
    (hp.pending_closed hc hs).2.2.taken
  cases hst : v.process.stage with
  | absent => exact ((h.at hst).2.not_some hs).elim
  | start => exact ((h.at hst).2.1.not_some hs).elim
  | pinging a => exact ⟨hping (h.at hst), Or.inl rfl⟩
  | polling a => exact ⟨hping (h.at hst), Or.inl rfl⟩
  | retryDelay a => exact ⟨hping (h.at hst), Or.inl rfl⟩
  | connected => exact absurd hc (h.at hst).1.not_closed
  | slot => exact absurd hc (h.at hst).1.not_closed
  | sending k => exact absurd hc (h.at hst).2.1.not_closed
  | waiting k =>
    cases (h.at hst).2 with
    | pending _ _ hopen => exact absurd hc hopen.not_closed
    | lost hopen => exact absurd hc hopen.not_closed
    | answered _ hopen => exact absurd hc hopen.not_closed
    | completed _ hdone => exact (hdone.quiet.not_some hs).elim
    | refused _ hquiet => exact (hquiet.not_some hs).elim
  | acked k =>
    rcases h.at hst with ⟨-, hopen, -⟩ | ⟨-, hdone⟩
    · exact absurd hc hopen.not_closed
    · exact (hdone.quiet.not_some hs).elim
  | paused =>
    have hdone : Completed setup p φ v := h.at hst
    exact (hdone.quiet.not_some hs).elim
  | exited b =>
    refine ⟨?_, Or.inr ⟨b, rfl⟩⟩
    cases (h.at hst).2 with
    | closed _ hsent =>
      rcases hsent with hquiet | ⟨other, o, honly⟩
      · exact (hquiet.not_some hs).elim
      · obtain ⟨rfl, -⟩ := honly.eq hs
        exact honly.taken
    | serving k _ hopen => exact absurd hc hopen.not_closed

theorem Link.opened (h : Link setup p φ v) (hc : Closed p φ) (hs : v.sent signum = some origin)
    (hprocess : v'.process = v.process) (hsent : v'.sent = Function.update v.sent signum none)
    (hbits : v'.bits = []) (hread : v'.read = v.read) (hprinted : v'.printed = v.printed) :
    Link setup p (.serving p []) v' := by
  obtain ⟨hquiet, hst⟩ := h.pending_closed hc hs
  have hopen : OpenAt setup p (.serving p []) v'.bits 0 := hbits ▸ .zero
  have hquiet : Quiet v'.sent := hsent ▸ hquiet
  refine ⟨?_, Or.inr (h.spawned_of_sent hs), hprinted ▸ h.printed, hread ▸ h.read⟩
  rw [hprocess]
  rcases hst with hping | ⟨b, hst⟩
  · have hp := (stageLink_of_inPing hping).mp h.stage
    have hready := hp.ready
    have hnot := (hp.pending_closed hc hs).2.1
    rw [← hprocess] at hready hnot
    exact (stageLink_of_inPing hping).mpr ⟨hready, Or.inr ⟨hopen, hquiet, Or.inr hnot⟩⟩
  · rw [hst]
    exact ⟨fun hb => hprinted ▸ (h.at hst).1 hb,
      .serving 0 (setup.text p).signalCount_pos hopen (Or.inl hquiet)⟩

theorem Link.busy (h : Link setup p φ v) (hc : Closed p φ) (hs : v.sent signum = some origin)
    (hprocess : v'.process = v.process) (hsent : v'.sent = Function.update v.sent signum none)
    (husr1 : v'.replies .SIGUSR1 = v.replies .SIGUSR1) (hread : v'.read = v.read)
    (hprinted : v'.printed = v.printed) : Link setup p φ v' := by
  obtain ⟨hquiet, hst⟩ := h.pending_closed hc hs
  have hquiet : Quiet v'.sent := hsent ▸ hquiet
  refine ⟨?_, Or.inr (h.spawned_of_sent hs), hprinted ▸ h.printed, hread ▸ h.read⟩
  rw [hprocess]
  rcases hst with hping | ⟨b, hst⟩
  · have hp := (stageLink_of_inPing hping).mp h.stage
    obtain ⟨hnone, hnot, -⟩ := hp.pending_closed hc hs
    have hready := hp.ready
    rw [← hprocess] at hready hnot
    exact (stageLink_of_inPing hping).mpr
      ⟨hready, Or.inl ⟨hc, husr1.trans hnone, hnot, Or.inl hquiet⟩⟩
  · rw [hst]
    exact ⟨fun hb => hprinted ▸ (h.at hst).1 hb, .closed hc (Or.inl hquiet)⟩

end Sender

/-! ### The next bit -/

section Bit
variable {setup : Setup} {p : Pid} {φ φ' : Phase} {v v' : View} {signum : Signum} {origin : Origin} {k : Nat}

/-- What is pending of a served client is its k-th bit, which it waits for or has left behind. -/
structure NextBit (setup : Setup) (p : Pid) (φ : Phase) (v : View) (signum : Signum) (k : Nat) : Prop where
  lt : k < (setup.text p).signalCount
  signal : setup.signal? p k = some signum
  opened : OpenAt setup p φ v.bits k
  quiet : Quiet (Function.update v.sent signum none)
  stage : (v.process.stage = .waiting k ∧ NoReply v.replies v.process.server) ∨ ∃ b, v.process.stage = .exited b

theorem Link.nextBit (h : Link setup p φ v) (hc : ¬Closed p φ) (hs : v.sent signum = some origin) :
    ∃ k, origin = .data k ∧ NextBit setup p φ v signum k := by
  cases h.left with
  | closed hclosed => exact absurd hclosed hc
  | serving k hk hopen hsent =>
    rcases hsent with hquiet | ⟨other, hsig, honly⟩
    · exact (hquiet.not_some hs).elim
    · obtain ⟨rfl, rfl⟩ := honly.eq hs
      refine ⟨k, rfl, hk, hsig, hopen, honly.taken, ?_⟩
      cases hst : v.process.stage with
      | absent => exact absurd (h.at hst).1 hc
      | start => exact absurd (h.at hst).1 hc
      | pinging a | polling a | retryDelay a =>
        have hp : Pinging setup p φ v := h.at hst
        rcases hp.session with ⟨hclosed, -⟩ | ⟨-, hquiet, -⟩
        · exact absurd hclosed hc
        · exact (hquiet.not_some hs).elim
      | connected => exact ((h.at hst).2.1.not_some hs).elim
      | slot => exact ((h.at hst).2.1.not_some hs).elim
      | sending j => exact ((h.at hst).2.2.1.not_some hs).elim
      | waiting j =>
        cases (h.at hst).2 with
        | pending _ _ _ honly' hno =>
          obtain ⟨-, heq⟩ := honly'.eq hs
          cases heq
          exact Or.inl ⟨rfl, hno⟩
        | lost _ hquiet => exact (hquiet.not_some hs).elim
        | answered _ _ hquiet => exact (hquiet.not_some hs).elim
        | completed _ hdone => exact absurd hdone.closed hc
        | refused hclosed => exact absurd hclosed hc
      | acked j =>
        rcases h.at hst with ⟨-, -, hquiet, -⟩ | ⟨-, hdone⟩
        · exact (hquiet.not_some hs).elim
        · exact absurd hdone.closed hc
      | paused =>
        have hdone : Completed setup p φ v := h.at hst
        exact absurd hdone.closed hc
      | exited b => exact Or.inr ⟨b, rfl⟩

/-- After the bit was read, the client is linked again when what it waits for, or left behind, is. -/
theorem Link.bit (h : Link setup p φ v) (hn : NextBit setup p φ v signum k) (hprocess : v'.process = v.process)
    (hread : v'.read = v.read ++ [.data k]) (hmono : ∀ message ∈ v.printed, message ∈ v'.printed)
    (hprinted : ∀ message ∈ v'.printed, message = (setup.text p).bytes)
    (hwait : NoReply v.replies v.process.server → Waiting setup p φ' v' k)
    (hleft : Left setup p φ' v'.sent v'.bits) : Link setup p φ' v' := by
  have hne : v.process.stage ≠ .absent := by
    rcases hn.stage with ⟨hst, -⟩ | ⟨b, hst⟩ <;> rw [hst] <;> exact Stage.noConfusion
  refine ⟨?_, Or.inr (h.spawned_of hne), hprinted, ?_⟩
  · rw [hprocess]
    rcases hn.stage with ⟨hst, hno⟩ | ⟨b, hst⟩
    · rw [hst]
      exact ⟨hn.lt, hwait hno⟩
    · rw [hst]
      exact ⟨fun hb => hmono _ ((h.at hst).1 hb), hleft⟩
  · rw [hread]
    simp [h.read]

theorem NextBit.bits_concat (hn : NextBit setup p φ v signum k) :
    v.bits ++ [.data k] = (List.range (k + 1)).map .data := by
  rw [hn.opened.bits, List.range_succ, List.map_append]
  rfl

theorem Link.answered (h : Link setup p φ v) (hn : NextBit setup p φ v signum k)
    (hlt : k + 1 < (setup.text p).signalCount) (hprocess : v'.process = v.process)
    (hsent : v'.sent = Function.update v.sent signum none) (husr1 : v'.replies .SIGUSR1 = v.replies .SIGUSR1)
    (hbits : v'.bits = v.bits ++ [.data k]) (hread : v'.read = v.read ++ [.data k])
    (hprinted : v'.printed = v.printed) : Link setup p (.serving p ((setup.code p).take (k + 1))) v' := by
  have hopen : OpenAt setup p (.serving p ((setup.code p).take (k + 1))) v'.bits (k + 1) :=
    ⟨rfl, hbits.trans hn.bits_concat⟩
  have hquiet : Quiet v'.sent := hsent ▸ hn.quiet
  refine h.bit hn hprocess hread (by rw [hprinted]; exact fun _ => id) (hprinted ▸ h.printed) (fun hno => ?_)
    (.serving (k + 1) hlt hopen (Or.inl hquiet))
  exact .answered hlt hopen hquiet (husr1.trans hno.usr1) (Or.inr (hprocess ▸ hno.ready))

/-- The bit ends the session, and the client hears nothing of it. -/
theorem Link.refused (h : Link setup p φ v) (hn : NextBit setup p φ v signum k) (hclosed : Closed p φ')
    (hgone : φ' = .exited ∨ (setup.inGroup p = false ∧ 32 ≤ k + 1 ∧ 10000000 < (setup.text p).len))
    (hprocess : v'.process = v.process) (hsent : v'.sent = Function.update v.sent signum none)
    (hreplies : v'.replies = v.replies) (hread : v'.read = v.read ++ [.data k])
    (hprinted : v'.printed = v.printed) : Link setup p φ' v' := by
  have hquiet : Quiet v'.sent := hsent ▸ hn.quiet
  refine h.bit hn hprocess hread (by rw [hprinted]; exact fun _ => id) (hprinted ▸ h.printed) (fun hno => ?_)
    (.closed hclosed (Or.inl hquiet))
  exact .refused hclosed hquiet (by rw [hreplies, hprocess]; exact hno) hgone

theorem Link.completed (h : Link setup p φ v) (hn : NextBit setup p φ v signum k) (hclosed : Closed p φ')
    (hlast : k + 1 = (setup.text p).signalCount) (hprocess : v'.process = v.process)
    (hsent : v'.sent = Function.update v.sent signum none) (hbits : v'.bits = v.bits ++ [.data k])
    (hread : v'.read = v.read ++ [.data k]) (hprinted : v'.printed = v.printed ++ [(setup.text p).bytes]) :
    Link setup p φ' v' := by
  have hquiet : Quiet v'.sent := hsent ▸ hn.quiet
  have hmem : (setup.text p).bytes ∈ v'.printed := by simp [hprinted]
  refine h.bit hn hprocess hread (fun m hm => by simp [hprinted, hm]) (fun m hm => ?_) (fun _ => ?_)
    (.closed hclosed (Or.inl hquiet))
  · rw [hprinted] at hm
    rcases List.mem_append.mp hm with hm | hm
    · exact h.printed m hm
    · exact List.mem_singleton.mp hm
  · exact .completed hlast ⟨hclosed, hquiet, hmem, by rw [hbits, hn.bits_concat, hlast]⟩

end Bit

/-! ### The actions of the server -/

/-- The system in which a signal was delivered to the server, before the effects of its handler. -/
def System.received (signum : Signum) (server : State) (entries : List Entry) (s : System) : System :=
  { s with
    server, serverPending := Function.update s.serverPending signum none, log := s.log ++ entries }

section Actions
variable {setup : Setup} {s s' : System} {φ φ' : Phase} {signum : Signum} {x : Pending} {server : State} {q : Pid}

@[simp] theorem received_server (entries : List Entry) : (s.received signum server entries).server = server := rfl

theorem view_received_nil : (s.received signum server []).view setup q = (s.view setup q).taken signum := by
  rw [← view_taken, System.received, List.append_nil]
  rfl

theorem view_received (e : Entry) :
    (s.received signum server [e]).view setup q = ((s.view setup q).taken signum).record q e := by
  rw [← view_taken, ← view_record]
  rfl

theorem view_received_of_ne (hx : s.serverPending signum = some x) {e : Entry} (he : e.pid = x.siPid)
    (hq : q ≠ x.siPid) : (s.received signum server [e]).view setup q = s.view setup q := by
  rw [view_received, View.record_of_ne _ (by rw [he]; exact hq.symm), taken_of_other hx fun h => absurd h hq.symm]

theorem Link.elsewhere {p : Pid} {v : View} (h : Link setup p φ v) (hc : Closed p φ) (hc' : Closed p φ')
    (hex : φ ≠ .exited) : Link setup p φ' v := h.other hc hc' hex rfl (Or.inl rfl)

theorem Link.broadcast {p : Pid} {v : View} (h : Link setup p φ v) (hc : Closed p φ) (hc' : Closed p φ')
    (hex : φ ≠ .exited) :
    Link setup p φ' (if setup.inGroup p then v.post setup.env.serverPid .SIGUSR2 else v) := by
  split
  · rename_i hg
    exact h.other hc hc' hex (posted_usr1 ..) (Or.inr hg)
  · exact h.elsewhere hc hc' hex

theorem linked_ignored (hlink : ∀ q, Link setup q φ (s.view setup q)) (hx : s.serverPending signum = some x)
    (hself : x.siPid = setup.env.serverPid) (hrep : Represents setup.env server φ) :
    Linked setup (s.received signum server []) := by
  refine ⟨φ, hrep, fun q => ?_⟩
  rw [view_received_nil, taken_of_other hx fun h => h ▸ hself]
  exact hlink q

theorem linked_opened {phantom : Bool} (hlink : ∀ q, Link setup q (.idle phantom) (s.view setup q))
    (hx : s.serverPending signum = some x) (h0 : x.siPid ≠ 0) (hself : x.siPid ≠ setup.env.serverPid)
    (hrep : Represents setup.env server (.serving x.siPid [])) :
    Linked setup ((s.received signum server [.opened x.siPid]).kill setup x.siPid SERVER_READY) := by
  refine ⟨.serving x.siPid [], by simpa using hrep, fun q => ?_⟩
  rw [view_kill _ h0]
  by_cases hq : q = x.siPid
  · subst hq
    rw [if_pos rfl, view_received, View.record, if_pos rfl]
    exact (hlink _).opened (closed_idle _ _) (sent_of_pending hx hself) rfl rfl rfl rfl rfl
  · rw [if_neg hq, view_received_of_ne hx rfl hq]
    exact (hlink q).elsewhere (closed_idle _ _) (closed_serving (Ne.symm hq) _) Phase.noConfusion

theorem linked_busy {pid : Pid} {bits : List Bool} (hlink : ∀ q, Link setup q (.serving pid bits) (s.view setup q))
    (hx : s.serverPending signum = some x) (h0 : x.siPid ≠ 0) (hself : x.siPid ≠ setup.env.serverPid)
    (hne : pid ≠ x.siPid) (hrep : Represents setup.env server (.serving pid bits)) :
    Linked setup ((s.received signum server []).kill setup x.siPid SERVER_BUSY) := by
  refine ⟨.serving pid bits, by simpa using hrep, fun q => ?_⟩
  rw [view_kill _ h0, view_received_nil]
  by_cases hq : q = x.siPid
  · subst hq
    rw [if_pos rfl]
    exact (hlink _).busy (closed_serving hne _) (sent_of_pending hx hself) rfl rfl (posted_usr1 ..) rfl rfl
  · rw [if_neg hq, taken_of_other hx fun h => absurd h.symm hq]
    exact hlink q

theorem linked_bit {mallocOk : Bool} {bits : List Bool}
    (hlink : ∀ q, Link setup q (.serving x.siPid bits) (s.view setup q))
    (hx : s.serverPending signum = some x) (h0 : x.siPid ≠ 0) (hself : x.siPid ≠ setup.env.serverPid)
    (hrep : Represents setup.env server (Phase.receive mallocOk x.siPid bits (getBitValue signum)).1) :
    Linked setup ((Phase.receive mallocOk x.siPid bits (getBitValue signum)).2.foldl
      (System.applyEffect setup x.siPid) (s.received signum server [.bit x.siPid x.origin])) := by
  have hserved : ¬Closed x.siPid (.serving x.siPid bits) := fun hc => hc _ rfl
  have hown := hlink x.siPid
  obtain ⟨k, horigin, hn⟩ := hown.nextBit hserved (sent_of_pending hx hself)
  obtain ⟨-, rfl⟩ := Phase.serving.inj hn.opened.phase
  have hview : ∀ q, q ≠ x.siPid →
      (s.received signum server [.bit x.siPid x.origin]).view setup q = s.view setup q := fun q hq =>
    view_received_of_ne hx rfl hq
  have hclosed : ∀ q, q ≠ x.siPid → Closed q (.serving x.siPid ((setup.code x.siPid).take k)) := fun q hq =>
    closed_serving (Ne.symm hq) _
  have hown_view : (s.received signum server [.bit x.siPid x.origin]).view setup x.siPid =
      { (s.view setup x.siPid).taken signum with
        bits := (s.view setup x.siPid).bits ++ [.data k], read := (s.view setup x.siPid).read ++ [.data k] } := by
    rw [view_received, View.record, if_pos rfl, horigin]
    rfl
  rcases receive_code hn.lt hn.signal mallocOk with ⟨hlt, hr | hr⟩ | ⟨hlast, hr⟩ | ⟨hlarge, hr⟩
  · rw [hr] at hrep ⊢
    refine ⟨.exited, hrep, fun q => ?_⟩
    by_cases hq : q = x.siPid
    · subst hq
      rw [List.foldl_nil, hown_view]
      exact hown.refused hn (closed_exited _) (Or.inl rfl) rfl rfl rfl rfl rfl
    · rw [List.foldl_nil, hview q hq]
      exact (hlink q).elsewhere (hclosed q hq) (closed_exited q) Phase.noConfusion
  · rw [hr] at hrep ⊢
    refine ⟨_, by simpa [System.applyEffect] using hrep, fun q => ?_⟩
    rw [List.foldl_cons, List.foldl_nil, System.applyEffect, view_kill _ h0]
    by_cases hq : q = x.siPid
    · subst hq
      rw [if_pos rfl, hown_view]
      exact hown.answered hn hlt rfl rfl (posted_usr1 ..) rfl rfl rfl
    · rw [if_neg hq, hview q hq]
      exact (hlink q).elsewhere (hclosed q hq) (closed_serving (Ne.symm hq) _) Phase.noConfusion
  · rw [hr] at hrep ⊢
    refine ⟨.idle false, by simpa [System.applyEffect] using hrep, fun q => ?_⟩
    simp only [List.foldl_cons, List.foldl_nil, System.applyEffect]
    rw [view_kill_zero, view_kill _ h0, view_record]
    by_cases hq : q = x.siPid
    · subst hq
      rw [if_pos rfl, hown_view, View.record, if_pos rfl]
      split <;> exact hown.completed hn (closed_idle _ _) hlast rfl rfl rfl rfl rfl
    · rw [if_neg hq, View.record_of_ne _ (Ne.symm hq), hview q hq]
      exact (hlink q).broadcast (hclosed q hq) (closed_idle _ _) Phase.noConfusion
  · have hout : setup.inGroup x.siPid = false :=
      Bool.eq_false_iff.mpr fun hg =>
        absurd ((hown.spawned_of_sent (sent_of_pending hx hself)).fits hg) (Nat.not_le.mpr hlarge.2)
    rw [hr] at hrep ⊢
    refine ⟨.idle false, by simpa [System.applyEffect] using hrep, fun q => ?_⟩
    rw [List.foldl_cons, List.foldl_nil, System.applyEffect, view_kill_zero]
    by_cases hq : q = x.siPid
    · subst hq
      rw [if_neg (by rw [hout]; decide), hown_view]
      exact hown.refused hn (closed_idle _ _) (Or.inr ⟨hout, hlarge⟩) rfl rfl rfl rfl rfl
    · rw [hview q hq]
      exact (hlink q).broadcast (hclosed q hq) (closed_idle _ _) Phase.noConfusion

theorem linked_handle (h : Linked setup s) (hs : s.handle setup signum = some s') : Linked setup s' := by
  obtain ⟨φ, hrep, hlink⟩ := h
  unfold System.handle at hs
  cases hx : s.serverPending signum with
  | none => simp [hx] at hs
  | some x =>
    simp only [hx] at hs
    split at hs
    · cases hs
    · rename_i hex
      have hstep := step_matches hrep (.signal signum x.siPid)
      simp only [machine, if_neg hex] at hstep
      obtain ⟨hrep', hout⟩ := hstep
      have hs' := (Option.some.inj hs).symm
      rw [hout] at hs'
      by_cases hself : x.siPid = setup.env.serverPid
      · have hne : x.siPid ≠ 0 := hself ▸ setup.env.serverPid_pos.ne'
        have hignored : φ.step setup.env.serverPid (setup.env.mallocOk s.server.heap.blocks.length)
            (.signal signum x.siPid) = (φ, []) := by
          cases φ with
          | exited => rfl
          | idle phantom => exact if_pos hself
          | serving pid bits => simp [Phase.step, hself, setup.env.serverPid_pos.ne']
        rw [hignored] at hrep' hs'
        rw [hs', System.sessionEntry, if_pos hself]
        exact linked_ignored hlink hx hself hrep'
      · have h0 : x.siPid ≠ 0 := ((hlink x.siPid).spawned_of_sent (sent_of_pending hx hself)).pos.ne'
        cases φ with
        | exited => exact absurd hrep hex
        | idle phantom =>
          have hact : s.server.client.actualPid = 0 := by rw [hrep.2.2, actualPid_idleRecord]
          simp only [Phase.step, if_neg hself, if_neg h0] at hrep' hs'
          rw [hs', System.sessionEntry, if_neg hself, if_pos hact]
          exact linked_opened hlink hx h0 hself hrep'
        | serving pid bits =>
          obtain ⟨-, -, hpid, -, hact, -⟩ := hrep
          simp only [Phase.step, Phase.sender_serving, if_neg h0, if_neg hself] at hrep' hs'
          by_cases hown : x.siPid = pid
          · subst hown
            simp only [ne_eq, not_true_eq_false, if_false] at hrep' hs'
            rw [hs', System.sessionEntry, if_neg hself, if_neg (by rw [hact]; exact h0), if_pos hact, hact]
            exact linked_bit hlink hx h0 hself hrep'
          · simp only [ne_eq, hown, not_false_eq_true, if_true] at hrep' hs'
            rw [hs', System.sessionEntry, if_neg hself, if_neg (by rw [hact]; exact hpid.ne'),
              if_neg (by rw [hact]; exact Ne.symm hown)]
            exact linked_busy hlink hx h0 hself (Ne.symm hown) hrep'

/-- A client that has left does not miss its session. -/
theorem Link.cleaned {p : Pid} {v : View} (h : Link setup p φ v) (hdead : v.process.stage.alive = false)
    (hc : Closed p φ') : Link setup p φ' v := by
  refine ⟨?_, h.spawned, h.printed, h.read⟩
  cases hst : v.process.stage with
  | absent => exact ⟨hc, (h.at hst).2⟩
  | exited b =>
    refine ⟨(h.at hst).1, .closed hc ?_⟩
    cases (h.at hst).2 with
    | closed _ hsent => exact hsent
    | serving k _ _ hsent => exact hsent.imp_right fun ⟨signum, _, honly⟩ => ⟨signum, _, honly⟩
  | _ => rw [hst] at hdead; cases hdead

/-- The timeout of the server's main loop, when its client has left. -/
theorem linked_cleanGlobal (h : Linked setup s) (hex : s.server.exited = false)
    (hdead : (s.client s.server.client.actualPid).stage.alive = false) :
    Linked setup { s with server := cleanGlobal s.server } := by
  obtain ⟨φ, hrep, hlink⟩ := h
  have hrep' := (step_matches hrep .cleanGlobal).1
  simp only [machine, if_neg (Bool.eq_false_iff.mp hex)] at hrep'
  have hne : φ ≠ .exited := by
    rintro rfl
    exact absurd (hex.symm.trans hrep) (by decide)
  have hidle : φ.step setup.env.serverPid (setup.env.mallocOk s.server.heap.blocks.length) .cleanGlobal =
      (.idle false, []) := by
    cases φ with
    | exited => exact absurd rfl hne
    | idle phantom => rfl
    | serving pid bits => rfl
  rw [hidle] at hrep'
  refine ⟨.idle false, hrep', fun q => ?_⟩
  by_cases hq : s.server.client.actualPid = q
  · exact (hlink q).cleaned (hq ▸ hdead) (closed_idle _ _)
  · exact (hlink q).elsewhere (closed_of_represents hrep hq) (closed_idle _ _) hne

end Actions

end Minitalk
