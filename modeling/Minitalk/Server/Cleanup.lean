import Minitalk.Server.Representation

/-! # A signal in the middle of `clean_global` (`inits.c`)

The main loop does not block signals, so the handler may run between any two statements of `clean_global` and
`reset_client_state`. The cleanup is modelled statement by statement; an interrupted one is compared with the two
orders in which cleanup and handler run one after the other. -/

namespace Minitalk.Server
open Bits Frame

/-- The statement that `clean_global` executes next; from `resetTest` on it is in `reset_client_state`. -/
inductive CleanPc where
  | activity
  | test
  | free
  | clear
  | resetTest
  | resetFree
  | resetClear
  | bzero
  | header
  | size
  | active
  | done
deriving DecidableEq

/-- `free`, which ignores a null pointer. -/
def freeMessage (s : State) : State :=
  { s with heap := if s.client.msg.message.isSome then s.heap.free s.client.msg.message else s.heap }

def cleanStep : CleanPc → State → CleanPc × State
  | .activity, s => (.test, { s with client.clientActivity := false })
  | .test, s => (if s.client.msg.message.isSome then .free else .resetTest, s)
  | .free, s => (.clear, freeMessage s)
  | .clear, s => (.resetTest, { s with client.msg.message := none })
  | .resetTest, s => (if s.client.msg.message.isSome then .resetFree else .bzero, s)
  | .resetFree, s => (.resetClear, freeMessage s)
  | .resetClear, s => (.bzero, { s with client.msg.message := none })
  | .bzero, s => (.header, { s with client := {} })
  | .header, s => (.size, { s with client.gettingHeader := true })
  | .size, s => (.active, { s with client.msg.sizeMessage := 0 })
  | .active, s => (.done, { s with client.transmissionActive := false })
  | .done, s => (.done, s)

/-- After `n` statements. -/
def cleanRun : Nat → CleanPc × State → CleanPc × State
  | 0, c => c
  | n + 1, c => cleanRun n (cleanStep c.1 c.2)

/-- The rest of the cleanup, which has at most 11 statements. -/
def finish (pc : CleanPc) (s : State) : State := (cleanRun 11 (pc, s)).2

/-- The handler runs when `n` statements of the cleanup are done, and then their rest. -/
def interrupted (env : Env) (s : State) (n : Nat) (signum : Signum) (siPid : Pid) : State × List Effect :=
  let (pc, s) := cleanRun n (.activity, s)
  let (s, out) := signalHandler env signum siPid s
  (if s.exited then s else finish pc s, out)

def handlerFirst (env : Env) (s : State) (signum : Signum) (siPid : Pid) : State × List Effect :=
  let (s, out) := signalHandler env signum siPid s
  (if s.exited then s else cleanGlobal s, out)

def cleanFirst (env : Env) (s : State) (signum : Signum) (siPid : Pid) : State × List Effect :=
  signalHandler env signum siPid (cleanGlobal s)

/-- The record, the heap and the effects are those of one of the two orders, and no buffer was used after `free`. -/
def Atomic (env : Env) (s : State) (n : Nat) (signum : Signum) (siPid : Pid) : Prop :=
  (interrupted env s n signum siPid = handlerFirst env s signum siPid ∨
    interrupted env s n signum siPid = cleanFirst env s signum siPid) ∧
    (interrupted env s n signum siPid).1.heap.fault = false

/-- The bit of the client completes a byte after its buffer was freed. -/
def CompletesByte (s : State) (pc : CleanPc) (signum : Signum) (siPid : Pid) : Prop :=
  (pc = .clear ∨ pc = .resetTest ∨ pc = .bzero) ∧ s.client.gettingMsg = true ∧
    lostSignal s.client siPid signum = s.client.actualPid ∧ (s.client.sigCount + 1) % 8 = 0

/-- The bit of the client completes a header, and a buffer is allocated, after the last test of the pointer. -/
def Allocates (env : Env) (s : State) (pc : CleanPc) (signum : Signum) (siPid : Pid) : Prop :=
  pc = .bzero ∧ s.client.gettingMsg = false ∧ lostSignal s.client siPid signum = s.client.actualPid ∧
    s.client.sigCount = 31 ∧
    validateMessageSize (processHeaderBit (getBitValue signum) s.client).msg.sizeMessage = true ∧
    env.mallocOk s.heap.blocks.length = true

/-- A client is accepted before the last field is cleared. -/
def Accepts (env : Env) (pc : CleanPc) (siPid : Pid) : Prop :=
  (pc = .header ∨ pc = .size ∨ pc = .active) ∧ siPid ≠ env.serverPid

/-! ### The cleanup without a signal -/

section Quiet
variable {s : State}

theorem finish_resetTest (s : State) :
    finish .resetTest s = { s with client := getClientInstance, heap := (freeMessage s).heap } := by
  cases h : s.client.msg.message <;> simp [finish, cleanRun, cleanStep, freeMessage, h, getClientInstance]

theorem finish_bzero (s : State) : finish .bzero s = { s with client := getClientInstance } := rfl

theorem finish_clear (s : State) : finish .clear s = { s with client := getClientInstance } := rfl

theorem finish_free (s : State) :
    finish .free s = { s with client := getClientInstance, heap := (freeMessage s).heap } := rfl

theorem cleanGlobal_eq (s : State) :
    cleanGlobal s = { s with client := getClientInstance, heap := (freeMessage s).heap } := by
  cases h : s.client.msg.message <;> simp [cleanGlobal, resetClientState, freeMessage, h, getClientInstance]

theorem finish_test (s : State) : finish .test s = cleanGlobal s := by
  rw [cleanGlobal_eq]
  cases h : s.client.msg.message <;> simp [finish, cleanRun, cleanStep, freeMessage, h, getClientInstance]

theorem finish_activity (s : State) : finish .activity s = cleanGlobal s := by
  rw [cleanGlobal_eq]
  cases h : s.client.msg.message <;> simp [finish, cleanRun, cleanStep, freeMessage, h, getClientInstance]

theorem cleanRun_succ (n : Nat) (c : CleanPc × State) :
    cleanRun (n + 1) c = cleanStep (cleanRun n c).1 (cleanRun n c).2 := by
  induction n generalizing c with
  | zero => rfl
  | succ n ih => exact ih (cleanStep c.1 c.2)

/-- The state in front of each statement. -/
def stage (s : State) : CleanPc → State
  | .activity => s
  | .test | .free => { s with client.clientActivity := false }
  | .clear => { s with client.clientActivity := false, heap := (freeMessage s).heap }
  | .resetTest | .resetFree | .resetClear | .bzero =>
    { s with
      client := { s.client with clientActivity := false, msg := { s.client.msg with message := none } }
      heap := (freeMessage s).heap }
  | .header => { s with client := {}, heap := (freeMessage s).heap }
  | .size | .active | .done => { s with client := getClientInstance, heap := (freeMessage s).heap }

/-- What `clean_global` has freed, `reset_client_state` does not find. -/
def Visited (s : State) : CleanPc → Prop
  | .free | .clear => s.client.msg.message.isSome = true
  | .resetFree | .resetClear => False
  | _ => True

theorem cleanRun_stage (s : State) (n : Nat) :
    (cleanRun n (.activity, s)).2 = stage s (cleanRun n (.activity, s)).1 ∧
      Visited s (cleanRun n (.activity, s)).1 := by
  induction n with
  | zero => exact ⟨rfl, trivial⟩
  | succ n ih =>
    rw [cleanRun_succ]
    generalize cleanRun n (.activity, s) = c at ih
    obtain ⟨pc, t⟩ := c
    change t = stage s pc ∧ Visited s pc at ih
    obtain ⟨rfl, hv⟩ := ih
    cases pc with
    | test =>
      cases h : s.client.msg.message with
      | none =>
        have hmsg : s.client.msg = { sizeMessage := s.client.msg.sizeMessage } := by rw [← h]
        simp [cleanStep, stage, Visited, h, freeMessage, ← hmsg]
      | some i => simp [cleanStep, stage, Visited, h]
    | resetTest => simp [cleanStep, stage, Visited]
    | resetFree | resetClear => exact hv.elim
    | activity | free | clear | bzero | header | size | active | done => exact ⟨rfl, by simp_all [cleanStep, Visited]⟩

theorem finish_stage {pc : CleanPc} (hv : Visited s pc) : finish pc (stage s pc) = cleanGlobal s := by
  rw [cleanGlobal_eq]
  cases pc with
  | activity => rw [finish_activity, cleanGlobal_eq]; rfl
  | test => rw [stage, finish_test, cleanGlobal_eq]; rfl
  | resetTest => rw [stage, finish_resetTest]; rfl
  | resetFree | resetClear => exact hv.elim
  | free | clear | bzero | header | size | active | done => rfl

end Quiet

/-! ### The signals that do no harm -/

section Signals
variable {env : Env} {s : State} {pid : Pid} {bits : List Bool} {pc : CleanPc} {signum : Signum} {siPid : Pid}

/-- The rest of the cleanup after a signal at this statement. -/
def resumed (env : Env) (s : State) (pc : CleanPc) (signum : Signum) (siPid : Pid) : State × List Effect :=
  let (s, out) := signalHandler env signum siPid (stage s pc)
  (if s.exited then s else finish pc s, out)

theorem interrupted_eq (env : Env) (s : State) (n : Nat) (signum : Signum) (siPid : Pid) :
    interrupted env s n signum siPid = resumed env s (cleanRun n (.activity, s)).1 signum siPid := by
  simp only [interrupted, resumed, (cleanRun_stage s n).1]

/-- Before `bzero` the session is still there. -/
def CleanPc.early : CleanPc → Bool
  | .header | .size | .active | .done => false
  | _ => true

theorem stage_actualPid (h : pc.early = true) : (stage s pc).client.actualPid = s.client.actualPid := by
  cases pc <;> first | rfl | cases h

theorem lostSignal_congr {c d : ClientState} (h : c.actualPid = d.actualPid) (siPid : Pid) (signum : Signum) :
    lostSignal c siPid signum = lostSignal d siPid signum := by
  unfold lostSignal
  rw [h]

/-- A signal of another process is answered and changes nothing. -/
theorem resumed_of_foreign (hact : s.client.actualPid ≠ 0) (hex : s.exited = false) (hv : Visited s pc)
    (hpc : pc.early = true) (hne : lostSignal s.client siPid signum ≠ s.client.actualPid) :
    resumed env s pc signum siPid = handlerFirst env s signum siPid := by
  have hstage := stage_actualPid (s := s) hpc
  have hlost := lostSignal_congr hstage siPid signum
  have hex' : (stage s pc).exited = false := by rw [← hex]; cases pc <;> rfl
  have hhandler := signalHandler_of_foreign env (s := stage s pc)
    (by rwa [hstage]) (by rwa [hlost, hstage])
  simp only [resumed, handlerFirst, hhandler, signalHandler_of_foreign env hact hne, hex, hex', hlost,
    Bool.false_eq_true, if_false, finish_stage hv]

/-- The state in which the handler receives a bit of the client. -/
def receiving (s : State) : State :=
  { s with client := { s.client with clientPid := s.client.actualPid, clientActivity := true } }

theorem signalHandler_own (env : Env) (s : State) (signum : Signum) (siPid : Pid)
    (hact : s.client.actualPid ≠ 0) (hself : s.client.actualPid ≠ env.serverPid)
    (hown : lostSignal s.client siPid signum = s.client.actualPid) :
    signalHandler env signum siPid s = processDataSignal env signum (receiving s) :=
  signalHandler_of_own hact hself hown

/-- Before `bzero` the handler still has the client. -/
theorem signalHandler_stage (hact : s.client.actualPid ≠ 0) (hself : s.client.actualPid ≠ env.serverPid)
    (hown : lostSignal s.client siPid signum = s.client.actualPid) (hpc : pc.early = true) :
    signalHandler env signum siPid (stage s pc) = processDataSignal env signum (receiving (stage s pc)) := by
  have hpid := stage_actualPid (s := s) hpc
  have hlost := lostSignal_congr hpid siPid signum
  exact signalHandler_own env (stage s pc) signum siPid (by rwa [hpid]) (by rwa [hpid]) (by rwa [hlost, hpid])

/-- While the buffer and its pointer are as before, the handler does not see that the cleanup has started. -/
theorem resumed_of_untouched (hact : s.client.actualPid ≠ 0) (hself : s.client.actualPid ≠ env.serverPid)
    (hown : lostSignal s.client siPid signum = s.client.actualPid) (hpc : pc.early = true)
    (hstage : receiving (stage s pc) = receiving s)
    (hfinish : ∀ t out, processDataSignal env signum (receiving s) = (t, out) → t.exited = false →
      finish pc t = cleanGlobal t) :
    resumed env s pc signum siPid = handlerFirst env s signum siPid := by
  have hhandler := signalHandler_stage hact hself hown hpc
  rw [hstage] at hhandler
  simp only [resumed, handlerFirst, hhandler, signalHandler_own env _ _ _ hact hself hown]
  cases hdata : processDataSignal env signum (receiving s) with
  | mk t out =>
    cases hex : t.exited with
    | true => simp
    | false => simp [hfinish t out hdata hex]

/-- A bit that completes nothing is forgotten with the session. -/
theorem resumed_of_incomplete (hact : s.client.actualPid ≠ 0) (hself : s.client.actualPid ≠ env.serverPid)
    (hown : lostSignal s.client siPid signum = s.client.actualPid) (hmsg : s.client.gettingMsg = true)
    (hex : s.exited = false) (hbit : (s.client.sigCount + 1) % 8 ≠ 0)
    (hpc : pc = .clear ∨ pc = .resetTest ∨ pc = .bzero) :
    resumed env s pc signum siPid = handlerFirst env s signum siPid := by
  have hearly : pc.early = true := by rcases hpc with rfl | rfl | rfl <;> rfl
  have hpid := stage_actualPid (s := s) hearly
  have hhandler := signalHandler_stage hact hself hown hearly
  have hdata : ∀ t : State, t.client.gettingMsg = true → t.exited = false → (t.client.sigCount + 1) % 8 ≠ 0 →
      ∃ v, processDataSignal env signum (receiving t) =
        ({ receiving t with client := { (receiving t).client with
            charValue := v, sigCount := t.client.sigCount + 1 } }, [.kill t.client.actualPid .SIGUSR2]) := by
    intro t ht hext hbit
    have hmsg' := handleMsg_eq signum (receiving t)
    simp only [show (receiving t).client.sigCount = t.client.sigCount from rfl, hbit, if_false] at hmsg'
    exact ⟨_, processDataSignal_of_msg (by exact ht) hmsg' (by exact hext)⟩
  have hfields : (stage s pc).client.gettingMsg = true ∧ (stage s pc).exited = false ∧
      ((stage s pc).client.sigCount + 1) % 8 ≠ 0 := by
    rcases hpc with rfl | rfl | rfl <;> exact ⟨hmsg, hex, hbit⟩
  obtain ⟨v, hv⟩ := hdata (stage s pc) hfields.1 hfields.2.1 hfields.2.2
  obtain ⟨w, hw⟩ := hdata s hmsg hex hbit
  simp only [resumed, handlerFirst, hhandler, signalHandler_own env _ _ _ hact hself hown, hv, hw, hpid]
  rcases hpc with rfl | rfl | rfl
  · simp [receiving, stage, hex, finish_clear, cleanGlobal_eq, freeMessage]
  · simp [receiving, stage, hex, finish_resetTest, cleanGlobal_eq, freeMessage]
  · simp [receiving, stage, hex, finish_bzero, cleanGlobal_eq, freeMessage]

/-! ### The signals that do harm -/

/-- The message is freed, if there is one, and the record reset. -/
def release (s : State) : State :=
  resetClientState (if s.client.msg.message.isSome then
    { s with client.msg.message := none, heap := s.heap.free s.client.msg.message } else s)

theorem handleCompleteMessage_fst (s : State) :
    (handleCompleteMessage s).1 =
      release (printMessage { s with heap := s.heap.store s.client.msg.message s.client.msgPos 0 }).1 := rfl

theorem release_cases (s : State) :
    (release s).exited = s.exited ∧ (s.heap.fault = true → (release s).heap.fault = true) := by
  cases hm : s.client.msg.message with
  | none => simp [release, resetClientState, hm]
  | some i => simpa [release, resetClientState, hm] using fun h => Heap.fault_free h (some i)

theorem fault_handleCompleteMessage {s : State} (h : s.heap.fault = true) :
    (handleCompleteMessage s).1.heap.fault = true := by
  rw [handleCompleteMessage_fst]
  exact (release_cases _).2 (Heap.fault_read (Heap.fault_store h _ _ _) _ _)

theorem exited_handleMsg (signum : Signum) (s : State) : (handleMsg signum s).1.exited = s.exited := by
  rw [handleMsg_eq]
  dsimp only
  split
  · split
    · rw [handleCompleteMessage_fst]
      exact (release_cases _).1
    · rfl
  · rfl

theorem fault_finish {pc : CleanPc} {s : State} (hpc : pc = .clear ∨ pc = .resetTest ∨ pc = .bzero)
    (h : s.heap.fault = true) : (finish pc s).heap.fault = true := by
  rcases hpc with rfl | rfl | rfl
  · exact h
  · rw [finish_resetTest]
    simp only [freeMessage]
    split
    · exact Heap.fault_free h _
    · exact h
  · exact h

/-- The byte goes to a freed buffer, or through a null pointer. -/
theorem resumed_faults (hact : s.client.actualPid ≠ 0) (hself : s.client.actualPid ≠ env.serverPid)
    (hex : s.exited = false) (hdead : (stage s pc).heap.live? (stage s pc).client.msg.message = none)
    (hit : CompletesByte s pc signum siPid) : (resumed env s pc signum siPid).1.heap.fault = true := by
  obtain ⟨hpc, hmsg, hown, hbit⟩ := hit
  have hearly : pc.early = true := by rcases hpc with rfl | rfl | rfl <;> rfl
  have hhandler := signalHandler_stage hact hself hown hearly
  have hfields : (receiving (stage s pc)).client.gettingMsg = true ∧ (receiving (stage s pc)).exited = false ∧
      ((receiving (stage s pc)).client.sigCount + 1) % 8 = 0 := by
    rcases hpc with rfl | rfl | rfl <;> exact ⟨hmsg, hex, hbit⟩
  obtain ⟨hmsg', hex', hbit'⟩ := hfields
  have hfault : (handleMsg signum (receiving (stage s pc))).1.heap.fault = true := by
    have hstore : ∀ i v, ((receiving (stage s pc)).heap.store (receiving (stage s pc)).client.msg.message i v).fault =
        true := Heap.fault_store_of_dead hdead
    rw [handleMsg_eq]
    simp only [hbit', if_true]
    split
    · exact fault_handleCompleteMessage (hstore _ _)
    · exact hstore _ _
  have hnext := (exited_handleMsg signum (receiving (stage s pc))).trans hex'
  obtain ⟨t, out, ht⟩ : ∃ t out, handleMsg signum (receiving (stage s pc)) = (t, out) := ⟨_, _, rfl⟩
  rw [ht] at hfault hnext
  change t.exited = false at hnext
  simp only [resumed, hhandler, processDataSignal_of_msg hmsg' ht hnext, hnext, Bool.false_eq_true,
    if_false]
  exact fault_finish hpc hfault

/-! ### Headers -/

theorem validate_header (b : Bool) {c : ClientState} (h : InHeader c bits) (hlen : bits.length + 1 = 32) :
    validateMessageSize (processHeaderBit b c).msg.sizeMessage = wire.accepts (wire.announced (bits ++ [b])) := by
  have hann : wire.announced (bits ++ [b]) = value (bits ++ [b]) := by
    rw [Format.announced, List.take_of_length_le (by simp [wire, hlen])]
  rw [validateMessageSize_eq, sizeMessage_processHeaderBit b h, hann, show 31 - bits.length = 0 by omega, Nat.pow_zero,
    Nat.mul_one]

theorem message_processHeaderBit (b : Bool) (c : ClientState) : (processHeaderBit b c).msg.message = c.msg.message := by
  cases b <;> rfl

theorem size_processHeaderBit (b : Bool) (c : ClientState) (pid : Pid) (activity : Bool) :
    (processHeaderBit b { c with clientPid := pid, clientActivity := activity }).msg.sizeMessage =
      (processHeaderBit b c).msg.sizeMessage := by
  cases b <;> rfl

/-- Only a header that is complete and accepted leaves a buffer behind. -/
theorem header_data (h : InHeader s.client bits) {t : State} {out : List Effect}
    (hdata : processDataSignal env signum (receiving s) = (t, out)) (ht : t.exited = false) :
    t.client.msg.message = none ∨
      s.client.sigCount = 31 ∧
        validateMessageSize (processHeaderBit (getBitValue signum) s.client).msg.sizeMessage = true ∧
        env.mallocOk s.heap.blocks.length = true := by
  have hin : InHeader (receiving s).client bits := h.congr rfl
  have hstep := handleHeader_eq env signum hin
  have hnone := (message_processHeaderBit (getBitValue signum) (receiving s).client).trans hin.message
  have hfst : (handleHeader env signum (receiving s)) = t := by
    rw [processDataSignal_of_header hin.msg hin.header rfl] at hdata
    split at hdata <;> exact (Prod.mk.inj hdata).1
  by_cases hlen : bits.length + 1 = 32
  · simp only [hlen, if_true] at hstep
    rw [← validate_header _ hin hlen] at hstep
    split at hstep
    · rename_i hacc
      cases hok : env.mallocOk s.heap.blocks.length with
      | true =>
        refine Or.inr ⟨by rw [h.count]; omega, ?_, rfl⟩
        rwa [receiving, size_processHeaderBit] at hacc
      | false =>
        have hexit : (memoryReserveToStoreSignals env
            { receiving s with client := processHeaderBit (getBitValue signum) (receiving s).client }).exited =
            true := by
          have hok' : env.mallocOk (receiving s).heap.blocks.length = false := hok
          simp [memoryReserveToStoreSignals, hok']
        rw [← hstep, hfst, ht] at hexit
        cases hexit
    · rw [← hfst, hstep, resetClientState_of_none hnone]
      exact Or.inl rfl
  · simp only [hlen, if_false] at hstep
    rw [← hfst, hstep]
    exact Or.inl hnone

/-- After an allocation behind the last test the buffer is lost. -/
theorem resumed_leaks (h : InHeader s.client bits) (hex : s.exited = false) (hact : s.client.actualPid ≠ 0)
    (hself : s.client.actualPid ≠ env.serverPid) (hit : Allocates env s pc signum siPid) :
    (resumed env s pc signum siPid).1.client = getClientInstance ∧
      ∃ b, (resumed env s pc signum siPid).1.heap.blocks[s.heap.blocks.length]? = some b ∧ b.frees = 0 := by
  obtain ⟨rfl, -, hown, hcount, hvalid, hok⟩ := hit
  have hhandler := signalHandler_own env (stage s .bzero) signum siPid
    hact hself hown
  have hmsg : s.client.msg = { sizeMessage := s.client.msg.sizeMessage } := by rw [← h.message]
  have hstage : receiving (stage s .bzero) = receiving s := by
    simp [receiving, stage, freeMessage, h.message, ← hmsg]
  have hin : InHeader (receiving s).client bits := h.congr rfl
  have hlen : bits.length + 1 = 32 := by rw [← h.count, hcount]
  have hstep := handleHeader_eq env signum hin
  have hacc :
      validateMessageSize (processHeaderBit (getBitValue signum) (receiving s).client).msg.sizeMessage = true := by
    rwa [receiving, size_processHeaderBit]
  simp only [hlen, if_true] at hstep
  rw [← validate_header _ hin hlen, if_pos hacc] at hstep
  have hok' : env.mallocOk (receiving s).heap.blocks.length = true := hok
  have hexit : (memoryReserveToStoreSignals env
      { receiving s with client := processHeaderBit (getBitValue signum) (receiving s).client }).exited = false := by
    simp only [memoryReserveToStoreSignals, hok', if_true]
    exact hex
  rw [hstage, processDataSignal_of_header hin.msg hin.header hstep, if_neg (by rw [hexit]; decide)] at hhandler
  simp only [resumed, hhandler, hexit, Bool.false_eq_true, if_false, finish_bzero]
  simp only [memoryReserveToStoreSignals, hok', if_true, Heap.malloc, true_and]
  exact ⟨_, List.getElem?_concat_length, rfl⟩

/-! ### After `bzero` -/

/-- A client that is accepted there loses its transmission slot. -/
theorem resumed_accepts (signum : Signum) (hex : s.exited = false) (hit : Accepts env pc siPid) :
    (resumed env s pc signum siPid).1.client = { connected siPid with transmissionActive := false } ∧
      (resumed env s pc signum siPid).1.exited = false := by
  obtain ⟨hpc, hne⟩ := hit
  have hact : (stage s pc).client.actualPid = 0 := by rcases hpc with rfl | rfl | rfl <;> rfl
  have hex' : (stage s pc).exited = false := by rw [← hex]; cases pc <;> rfl
  have hhandler : signalHandler env signum siPid (stage s pc) =
      ({ stage s pc with client := connected siPid }, [.kill siPid SERVER_READY]) := by
    simp only [signalHandler, lostSignal_of_idle hact, hne, if_false, handleNewClient_of_idle hact]
  simp only [resumed, hhandler, hex', Bool.false_eq_true, if_false]
  rcases hpc with rfl | rfl | rfl <;> exact ⟨rfl, rfl⟩

/-- The server's own signals are ignored everywhere. -/
theorem resumed_of_self (hex : s.exited = false) (hpc : pc = .header ∨ pc = .size ∨ pc = .active) :
    resumed env s pc signum env.serverPid = handlerFirst env s signum env.serverPid := by
  have hpos := env.serverPid_pos
  have hlost : ∀ c : ClientState, lostSignal c env.serverPid signum = env.serverPid := by
    intro c
    exact if_neg fun h => hpos.ne' h.1
  have hex' : (stage s pc).exited = false := by rw [← hex]; cases pc <;> rfl
  have hv : Visited s pc := by rcases hpc with rfl | rfl | rfl <;> trivial
  simp only [resumed, handlerFirst, signalHandler, hlost, if_true, hex, hex', Bool.false_eq_true, if_false,
    finish_stage hv]

/-! ### Exactly when the cleanup is atomic -/

/-- A buffer is gone when its pointer is not yet, or is null. -/
theorem stage_dead (hbody : InBody s.client s.heap bits) (hpc : pc = .clear ∨ pc = .resetTest ∨ pc = .bzero) :
    (stage s pc).heap.live? (stage s pc).client.msg.message = none := by
  obtain ⟨b, hlive, -⟩ := hbody.buffer
  obtain ⟨i, hi, hb, hf⟩ := Heap.live?_eq_some.mp hlive
  rcases hpc with rfl | rfl | rfl
  · have hlt := (List.getElem?_eq_some_iff.mp hb).1
    rw [hi] at hlive
    simp [stage, freeMessage, hi, Heap.free_of_live hlive, Heap.live?, hlt]
  · rfl
  · rfl

/-- An open session, between signals. -/
structure Open (env : Env) (s : State) (bits : List Bool) : Prop where
  running : s.exited = false
  owns : s.heap.Owns s.client.msg.message
  active : s.client.actualPid ≠ 0
  other : s.client.actualPid ≠ env.serverPid
  phase : InHeader s.client bits ∨ InBody s.client s.heap bits

theorem open_of_reachable (h : Reachable env s) (hex : s.exited = false) (hact : 0 < s.client.actualPid) :
    ∃ bits, Open env s bits := by
  obtain ⟨events, rfl⟩ := h
  obtain ⟨φ, hrep⟩ := represents_run env events
  cases φ with
  | exited => exact absurd hrep (by rw [Represents, hex]; decide)
  | idle phantom =>
    obtain ⟨-, -, hidle⟩ := hrep
    rw [hidle, actualPid_idleRecord] at hact
    exact absurd hact (Nat.lt_irrefl 0)
  | serving pid bits =>
    obtain ⟨-, ho, hpid, hself, hpid', hphase⟩ := hrep
    exact ⟨bits, hex, ho, hact.ne', hpid' ▸ hself, hphase⟩

theorem Open.represents (h : Open env s bits) : Represents env s (.serving s.client.actualPid bits) :=
  ⟨h.running, h.owns, Nat.pos_of_ne_zero h.active, h.other, rfl, h.phase⟩

/-- A header bit goes into the record of the same session; then the header may be complete. -/
theorem handleHeader_shape (env : Env) (signum : Signum) (s : State) : ∃ c : ClientState,
    c.actualPid = s.client.actualPid ∧ c.clientActivity = s.client.clientActivity ∧ handleHeader env signum s =
      if c.sigCount = HEADER_SIZE then
        if validateMessageSize c.msg.sizeMessage then memoryReserveToStoreSignals env { s with client := c }
        else resetClientState { s with client := c }
      else { s with client := c } := by
  refine ⟨_, ?_, ?_, rfl⟩ <;> (unfold processHeaderBit; split <;> split <;> (try split) <;> rfl)

theorem processDataSignal_fst (env : Env) (signum : Signum) (s : State) :
    (processDataSignal env signum s).1 =
      if s.client.gettingMsg then (handleMsg signum s).1
      else if s.client.gettingHeader then handleHeader env signum s else s := by
  unfold processDataSignal
  cases s.client.gettingMsg <;> cases s.client.gettingHeader <;>
    simp only [Bool.false_eq_true, if_true, if_false] <;> split <;> rfl

theorem exit_handleHeader (hex : s.exited = false) (h : (handleHeader env signum s).exited = true) :
    (handleHeader env signum s).heap = s.heap ∧
      (handleHeader env signum s).client.actualPid = s.client.actualPid := by
  obtain ⟨c, hpid, -, hc⟩ := handleHeader_shape env signum s
  have hrunning : ∀ t : State, t.exited = s.exited → ¬t.exited = true := by
    intro t ht
    rw [ht, hex]
    decide
  rw [hc] at h ⊢
  split at h
  · rename_i hfull
    rw [if_pos hfull]
    split at h
    · rename_i hvalid
      rw [if_pos hvalid]
      unfold memoryReserveToStoreSignals at h ⊢
      split at h
      · exact absurd h (hrunning _ rfl)
      · rw [if_neg ‹_›]
        exact ⟨rfl, hpid⟩
    · exact absurd h (hrunning _ rfl)
  · exact absurd h (hrunning _ rfl)

theorem exit_processDataSignal (hex : s.exited = false)
    (h : (processDataSignal env signum s).1.exited = true) :
    (processDataSignal env signum s).1.heap = s.heap ∧
      (processDataSignal env signum s).1.client.actualPid = s.client.actualPid := by
  rw [processDataSignal_fst] at h ⊢
  split at h
  · rw [exited_handleMsg, hex] at h
    cases h
  · rename_i hmsg
    rw [if_neg hmsg]
    split at h
    · rename_i hheader
      rw [if_pos hheader]
      exact exit_handleHeader hex h
    · rw [hex] at h
      cases h

/-- The process leaves before it has touched the heap. -/
theorem Open.exit_heap (ho : Open env s bits) (h : (signalHandler env signum siPid s).1.exited = true) :
    (signalHandler env signum siPid s).1.heap = s.heap := by
  by_cases hown : lostSignal s.client siPid signum = s.client.actualPid
  · rw [signalHandler_own env _ _ _ ho.active ho.other hown] at h ⊢
    exact (exit_processDataSignal (s := receiving s) ho.running h).1
  · rw [signalHandler_of_foreign env ho.active hown] at h
    exact absurd h (by rw [ho.running]; decide)

/-- The record of the client is still there. -/
theorem exit_actualPid (hex : s.exited = false) (h : (signalHandler env signum siPid s).1.exited = true) :
    (signalHandler env signum siPid s).1.client.actualPid = s.client.actualPid := by
  have hrunning : ∀ t : State, t.exited = s.exited → ¬t.exited = true := by
    intro t ht
    rw [ht, hex]
    decide
  by_cases hself : lostSignal s.client siPid signum = env.serverPid
  · rw [signalHandler, if_pos hself] at h
    exact absurd h (hrunning _ rfl)
  · by_cases hact : s.client.actualPid = 0
    · simp only [signalHandler, if_neg hself, handleNewClient, if_pos hact, pong] at h
      split at h <;> exact absurd h (hrunning _ rfl)
    · by_cases hown : lostSignal s.client siPid signum = s.client.actualPid
      · rw [signalHandler_own env _ _ _ hact (hown ▸ hself) hown] at h ⊢
        exact (exit_processDataSignal (s := receiving s) hex h).2
      · rw [signalHandler_of_foreign env hact hown]

theorem handler_represents (signum : Signum) (siPid : Pid) {φ : Phase} (h : Represents env s φ)
    (hex : s.exited = false) : ∃ ψ, Represents env (signalHandler env signum siPid s).1 ψ := by
  have hstep := (step_matches h (.signal signum siPid)).1
  simp only [machine, hex, Bool.false_eq_true, if_false] at hstep
  exact ⟨_, hstep⟩

/-- The handler first: the session is gone and its buffer freed, or the process has left. -/
theorem Open.handlerFirst_cases (signum : Signum) (siPid : Pid) (h : Open env s bits) :
    let t := (handlerFirst env s signum siPid).1
    (t.exited = false ∧ t.client = getClientInstance ∧ t.heap.Owns none) ∨ (t.exited = true ∧ t.heap = s.heap) := by
  obtain ⟨ψ, hψ⟩ := handler_represents signum siPid h.represents h.running
  unfold handlerFirst
  cases hexit : (signalHandler env signum siPid s).1.exited with
  | true =>
    simp only [hexit, if_true]
    exact Or.inr ⟨trivial, h.exit_heap hexit⟩
  | false =>
    obtain ⟨heap, hown, hclean⟩ := hψ.cleanGlobal_eq hexit
    simp only [hexit, Bool.false_eq_true, if_false, hclean]
    exact Or.inl ⟨trivial, trivial, hown⟩

/-- The cleanup first: the sender is a new client. -/
theorem Open.cleanFirst_eq (h : Open env s bits) (hne : siPid ≠ env.serverPid) :
    cleanFirst env s signum siPid =
      ({ cleanGlobal s with client := connected siPid }, [.kill siPid SERVER_READY]) := by
  obtain ⟨heap, -, hclean⟩ := h.represents.cleanGlobal_eq h.running
  have hact : (cleanGlobal s).client.actualPid = 0 := by rw [hclean]; rfl
  simp only [cleanFirst, signalHandler, lostSignal_of_idle hact, hne, if_false, handleNewClient_of_idle hact]

theorem Open.sound (h : Open env s bits) :
    (handlerFirst env s signum siPid).1.heap.fault = false ∧
      (cleanFirst env s signum siPid).1.heap.fault = false := by
  constructor
  · rcases h.handlerFirst_cases signum siPid with ⟨-, -, hown⟩ | ⟨-, hheap⟩
    · exact hown.sound
    · rw [hheap]
      exact h.owns.sound
  · obtain ⟨heap, hown, hclean⟩ := h.represents.cleanGlobal_eq h.running
    by_cases hself : siPid = env.serverPid
    · have hact : (cleanGlobal s).client.actualPid = 0 := by rw [hclean]; rfl
      have hfirst : cleanFirst env s signum siPid = (cleanGlobal s, []) := by
        simp only [cleanFirst, signalHandler, lostSignal_of_idle hact, hself, if_true]
      rw [hfirst, hclean]
      exact hown.sound
    · rw [h.cleanFirst_eq hself, hclean]
      exact hown.sound

theorem resumed_atomic (h : Open env s bits) (hv : Visited s pc) (hbyte : ¬CompletesByte s pc signum siPid)
    (halloc : ¬Allocates env s pc signum siPid) (hacc : ¬Accepts env pc siPid) :
    resumed env s pc signum siPid = handlerFirst env s signum siPid ∨
      resumed env s pc signum siPid = cleanFirst env s signum siPid := by
  cases hpc : pc.early with
  | false =>
    by_cases hdone : pc = .done
    · -- The cleanup is over.
      subst hdone
      have hstage : stage s .done = cleanGlobal s := (cleanGlobal_eq s).symm
      refine Or.inr ?_
      simp only [resumed, cleanFirst, hstage]
      split <;> rfl
    · have hlate : pc = .header ∨ pc = .size ∨ pc = .active := by
        cases pc <;> first | exact absurd hpc (by decide) | exact absurd rfl hdone | simp
      obtain rfl : siPid = env.serverPid := by
        by_contra hne
        exact hacc ⟨hlate, hne⟩
      exact Or.inl (resumed_of_self h.running hlate)
  | true =>
    refine Or.inl ?_
    by_cases hown : lostSignal s.client siPid signum = s.client.actualPid
    · rcases h.phase with hh | hb
      · have hmsg : s.client.msg = { sizeMessage := s.client.msg.sizeMessage } := by rw [← hh.message]
        have hstage : receiving (stage s pc) = receiving s := by
          cases pc <;> first | exact absurd hpc (by decide) | simp [receiving, stage, freeMessage, hh.message, ← hmsg]
        refine resumed_of_untouched h.active h.other hown hpc hstage fun t out hdata ht => ?_
        cases pc with
        | activity => exact finish_activity t
        | test => exact finish_test t
        | free => rw [finish_free, cleanGlobal_eq]
        | clear => exact absurd hv (by simp [Visited, hh.message])
        | resetTest => rw [finish_resetTest, cleanGlobal_eq]
        | resetFree | resetClear => exact hv.elim
        | bzero =>
          rcases header_data hh hdata ht with hnone | ⟨hcount, hvalid, hok⟩
          · rw [finish_bzero, cleanGlobal_eq, freeMessage, hnone]
            rfl
          · exact absurd ⟨rfl, hh.msg, hown, hcount, hvalid, hok⟩ halloc
        | header | size | active | done => cases hpc
      · have hgone : pc = .clear ∨ pc = .resetTest ∨ pc = .bzero → resumed env s pc signum siPid =
            handlerFirst env s signum siPid := fun hgone =>
          resumed_of_incomplete h.active h.other hown hb.msg h.running
            (fun hbit => hbyte ⟨hgone, hb.msg, hown, hbit⟩) hgone
        cases pc with
        | activity => exact resumed_of_untouched h.active h.other hown rfl rfl fun t _ _ _ => finish_activity t
        | test => exact resumed_of_untouched h.active h.other hown rfl rfl fun t _ _ _ => finish_test t
        | free =>
          exact resumed_of_untouched h.active h.other hown rfl rfl fun t _ _ _ => by rw [finish_free, cleanGlobal_eq]
        | clear => exact hgone (Or.inl rfl)
        | resetTest => exact hgone (Or.inr (Or.inl rfl))
        | bzero => exact hgone (Or.inr (Or.inr rfl))
        | resetFree | resetClear => exact hv.elim
        | header | size | active | done => cases hpc
    · exact resumed_of_foreign h.active h.running hv hpc hown

theorem Open.faults (h : Open env s bits) (hbyte : CompletesByte s pc signum siPid) :
    (resumed env s pc signum siPid).1.heap.fault = true := by
  refine resumed_faults h.active h.other h.running ?_ hbyte
  rcases h.phase with hh | hb
  · exact absurd hbyte.2.1 (by rw [hh.msg]; decide)
  · exact stage_dead hb hbyte.1

/-- The handler first frees the new buffer with the session, the cleanup first makes the sender a new client. -/
theorem Open.allocates_ne (h : Open env s bits) (halloc : Allocates env s pc signum siPid) :
    resumed env s pc signum siPid ≠ handlerFirst env s signum siPid ∧
      resumed env s pc signum siPid ≠ cleanFirst env s signum siPid := by
  have hh : InHeader s.client bits := by
    rcases h.phase with hh | hb
    · exact hh
    · exact absurd (hb.msg.symm.trans halloc.2.1) (by decide)
  obtain ⟨hclient, b, hb, hfrees⟩ := resumed_leaks hh h.running h.active h.other halloc
  constructor
  · intro horder
    rw [horder] at hb
    rcases h.handlerFirst_cases signum siPid with ⟨-, -, hown⟩ | ⟨-, hheap⟩
    · have := hown.frees _ _ hb
      rw [hfrees] at this
      simp at this
    · rw [hheap, List.getElem?_eq_none (Nat.le_refl _)] at hb
      cases hb
  · intro horder
    have hne : siPid ≠ env.serverPid := by
      rintro rfl
      have hown := halloc.2.2.1
      rw [lostSignal, if_neg fun h0 => env.serverPid_pos.ne' h0.1] at hown
      exact h.other hown.symm
    rw [horder, h.cleanFirst_eq hne] at hclient
    have hflag : true = false := congrArg ClientState.clientActivity hclient
    cases hflag

/-- The new client is neither gone, as with the handler first, nor marked as transmitting, as with the cleanup first. -/
theorem Open.accepts_ne (h : Open env s bits) (hacc : Accepts env pc siPid) :
    resumed env s pc signum siPid ≠ handlerFirst env s signum siPid ∧
      resumed env s pc signum siPid ≠ cleanFirst env s signum siPid := by
  obtain ⟨hclient, hrunning⟩ := resumed_accepts signum h.running hacc
  constructor
  · intro horder
    rw [horder] at hclient hrunning
    rcases h.handlerFirst_cases signum siPid with ⟨-, hfirst, -⟩ | ⟨hexit, -⟩
    · rw [hfirst] at hclient
      have hflag : false = true := congrArg ClientState.clientActivity hclient
      cases hflag
    · rw [hrunning] at hexit
      cases hexit
  · intro horder
    rw [horder, h.cleanFirst_eq hacc.2] at hclient
    have hflag : true = false := congrArg ClientState.transmissionActive hclient
    cases hflag

/-- The cleanup of an open session that a signal interrupts is atomic unless the bit completes a byte of the freed
    buffer, a buffer is allocated behind the last test, or a client is accepted before the last field is cleared. -/
theorem cleanup_atomic_iff (env : Env) (s : State) (n : Nat) (signum : Signum) (siPid : Pid) (h : Reachable env s)
    (hex : s.exited = false) (hact : 0 < s.client.actualPid) :
    let pc := (cleanRun n (.activity, s)).1
    Atomic env s n signum siPid ↔
      ¬CompletesByte s pc signum siPid ∧ ¬Allocates env s pc signum siPid ∧ ¬Accepts env pc siPid := by
  intro pc
  obtain ⟨bits, hopen⟩ := open_of_reachable h hex hact
  obtain ⟨-, hv⟩ := cleanRun_stage s n
  rw [Atomic, interrupted_eq]
  constructor
  · rintro ⟨horder, hsound⟩
    refine ⟨fun hbyte => ?_, fun halloc => ?_, fun hacc => ?_⟩
    · rw [hopen.faults hbyte] at hsound
      cases hsound
    · exact horder.elim (hopen.allocates_ne halloc).1 (hopen.allocates_ne halloc).2
    · exact horder.elim (hopen.accepts_ne hacc).1 (hopen.accepts_ne hacc).2
  · rintro ⟨hbyte, halloc, hacc⟩
    rcases resumed_atomic hopen hv hbyte halloc hacc with horder | horder
    · exact ⟨Or.inl horder, by rw [horder]; exact hopen.sound.1⟩
    · exact ⟨Or.inr horder, by rw [horder]; exact hopen.sound.2⟩

end Signals

/-- After a ping of the client, a stray signal of another process between `free` and the assignment of the pointer. -/
theorem cleanup_atomic_stray :
    let env : Env := { serverPid := 1, serverPid_pos := by decide, mallocOk := fun _ => true }
    let header := List.replicate 31 Signum.SIGUSR1 ++ [.SIGUSR2]
    let s := (machine env).run initial ((.SIGUSR1 :: header).map (.signal · 2))
    s.exited = false ∧ 0 < s.client.actualPid ∧ Atomic env s 3 .SIGUSR1 5 := by
  intro env header s
  have hreach : Reachable env s := ⟨_, rfl⟩
  have hex : s.exited = false := by decide +kernel
  have hact : 0 < s.client.actualPid := by decide +kernel
  have hpc : (cleanRun 3 (.activity, s)).1 = .clear := by decide +kernel
  refine ⟨hex, hact, (cleanup_atomic_iff env s 3 .SIGUSR1 5 hreach hex hact).mpr ⟨?_, ?_, ?_⟩⟩
  · exact fun h => absurd h.2.2.1 (by decide +kernel)
  · exact fun h => absurd (hpc.symm.trans h.1) (by decide)
  · rw [hpc]
    exact fun h => absurd h.1 (by decide)

/-- A client whose ping arrives when the record has just been zeroed is told that it may send, and the server does not
    count as busy with it: the final record is neither that of a connected client nor that of a free server. -/
theorem cleanup_loses_client :
    let env : Env := { serverPid := 1, serverPid_pos := by decide, mallocOk := fun _ => true }
    let s := (machine env).run initial [.signal .SIGUSR1 2]
    Reachable env s ∧ s.exited = false ∧ 0 < s.client.actualPid ∧
      (interrupted env s 4 .SIGUSR1 3).2 = [.kill 3 SERVER_READY] ∧
      (interrupted env s 4 .SIGUSR1 3).1.client.transmissionActive = false ∧ ¬Atomic env s 4 .SIGUSR1 3 := by
  intro env s
  refine ⟨⟨_, rfl⟩, by decide +kernel, by decide +kernel, by decide +kernel, by decide +kernel, ?_⟩
  rintro ⟨hfirst | hlast, -⟩
  · exact absurd hfirst (by decide +kernel)
  · exact absurd hlast (by decide +kernel)

end Minitalk.Server
