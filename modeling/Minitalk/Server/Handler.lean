import Minitalk.Server.State
import Minitalk.Lib.Machine

/-! # The server's signal handler (`srcs/server`)

Every function of the handler takes the state and returns the new one with the effects it had, in order. Log
lines are left out. -/

namespace Minitalk.Server

/-! ### `inits.c` -/

def resetClientState (s : State) : State :=
  let heap := if s.client.msg.message.isSome then s.heap.free s.client.msg.message else s.heap
  { s with client := { gettingHeader := true }, heap }

def cleanGlobal (s : State) : State :=
  let s := { s with client.clientActivity := false }
  if s.client.msg.message.isSome then
    resetClientState { s with client.msg.message := none, heap := s.heap.free s.client.msg.message }
  else resetClientState s

/-! ### `check.c`, `debug.c` -/

def isServerBusy (c : ClientState) : Bool := c.transmissionActive && decide (0 < c.actualPid)

def setServerBusy (clientPid : Pid) (c : ClientState) : ClientState :=
  { c with transmissionActive := true, actualPid := clientPid }

/-- `write(1, message, size_message)`, between a constant header and a newline. -/
def printMessage (s : State) : State × List Effect :=
  let (heap, bytes) := s.heap.read s.client.msg.message s.client.msg.sizeMessage.toNat
  ({ s with heap }, [.print bytes])

/-! ### `signals.c` -/

def pong (pid : Pid) (s : State) : State × List Effect :=
  if isServerBusy s.client && s.client.actualPid != pid then (s, [.kill pid SERVER_BUSY])
  else
    let client : ClientState :=
      { actualPid := pid, clientPid := pid, gettingHeader := true, clientActivity := true }
    ({ s with client := setServerBusy pid client }, [.kill pid SERVER_READY])

def sendMultipleAcks (clientPid : Pid) : List Effect := [.kill clientPid .SIGUSR2]

/-- A signal without a sender counts as one of the active client. -/
def lostSignal (c : ClientState) (siPid : Pid) (signum : Signum) : Pid :=
  if siPid = 0 ∧ (signum = .SIGUSR1 ∨ signum = .SIGUSR2) then c.actualPid else siPid

def sendCompletionSignal (clientPid : Pid) : List Effect :=
  if 0 < clientPid then [.kill clientPid .SIGUSR1] else []

/-! ### `crook.c` -/

/-- SIGUSR1 carries a 0 and SIGUSR2 a 1. -/
def getBitValue (signum : Signum) : Bool :=
  if signum = .SIGUSR1 then false else true

/-- A failed allocation ends the process. -/
def memoryReserveToStoreSignals (env : Env) (s : State) : State :=
  if env.mallocOk s.heap.blocks.length then
    let (heap, message) := s.heap.malloc (s.client.msg.sizeMessage + 1).toNat
    { s with
      client := { s.client with
        msg := { s.client.msg with message }, gettingHeader := false, gettingMsg := true, sigCount := 0 }
      heap }
  else { s with client.msg.message := none, exited := true }

/-! ### `server.c` -/

/-- `HEADER_SIZE - 1 - sig_count`, the shift amount of the next header bit. -/
def headerBitPosition (c : ClientState) : Int := HEADER_SIZE - 1 - c.sigCount

def processHeaderBit (bitValue : Bool) (c : ClientState) : ClientState :=
  let c' := if bitValue then
      { c with msg.sizeMessage := c.msg.sizeMessage ||| 1#32 <<< (headerBitPosition c).toNat }
    else c
  { c' with sigCount := c.sigCount + 1 }

def validateMessageSize (size : BitVec 32) : Bool :=
  if size.toInt ≤ 0 ∨ 10000000 < size.toInt then false else true

def handleHeader (env : Env) (signum : Signum) (s : State) : State :=
  let c := if s.client.sigCount = 0 then { s.client with msg.sizeMessage := 0 } else s.client
  let c := if c.sigCount < HEADER_SIZE then processHeaderBit (getBitValue signum) c else c
  let s := { s with client := c }
  if c.sigCount = HEADER_SIZE then
    if validateMessageSize c.msg.sizeMessage then memoryReserveToStoreSignals env s
    else resetClientState s
  else s

/-! ### `server_message.c` -/

def handleCompleteMessage (s : State) : State × List Effect :=
  let s := { s with heap := s.heap.store s.client.msg.message s.client.msgPos 0 }
  let (s, printed) := printMessage s
  let clientPid := s.client.clientPid
  let s := if s.client.msg.message.isSome then
      { s with client.msg.message := none, heap := s.heap.free s.client.msg.message }
    else s
  (resetClientState s, printed ++ sendCompletionSignal clientPid)

/-- The conversion of `char_value` to the `char` that is stored. -/
def charOf (charValue : BitVec 32) : UInt8 := UInt8.ofNat charValue.toNat

def handleMsg (signum : Signum) (s : State) : State × List Effect :=
  let bitPos := s.client.sigCount % 8
  let c : ClientState := if bitPos = 0 then { s.client with charValue := 0 } else s.client
  let c : ClientState :=
    if getBitValue signum then { c with charValue := c.charValue ||| 1#32 <<< (7 - bitPos) } else c
  let c : ClientState := { c with sigCount := c.sigCount + 1 }
  if c.sigCount % 8 = 0 then
    let heap := s.heap.store c.msg.message c.msgPos (charOf c.charValue)
    let c : ClientState := { c with msgPos := c.msgPos + 1 }
    if c.msg.sizeMessage.toInt ≤ (c.msgPos : Int) then handleCompleteMessage { s with client := c, heap }
    else ({ s with client := c, heap }, [])
  else ({ s with client := c }, [])

/-! ### `main.c` -/

/-- `some` when the server was free and took the sender as its client. -/
def handleNewClient (siPid : Pid) (s : State) : Option (State × List Effect) :=
  if s.client.actualPid = 0 then some (pong siPid { s with client.clientPid := siPid }) else none

/-- `some` when the sender is not the active client. -/
def handleBusyServer (siPid : Pid) (s : State) : Option (State × List Effect) :=
  if s.client.actualPid ≠ siPid then some (s, [.kill siPid SERVER_BUSY]) else none

def processDataSignal (env : Env) (signum : Signum) (s : State) : State × List Effect :=
  let (s, out) :=
    if s.client.gettingMsg then handleMsg signum s
    else if s.client.gettingHeader then (handleHeader env signum s, [])
    else (s, [])
  if s.exited then (s, out) else (s, out ++ sendMultipleAcks s.client.clientPid)

def signalHandler (env : Env) (signum : Signum) (siPid : Pid) (s : State) : State × List Effect :=
  let siPid := lostSignal s.client siPid signum
  if siPid = env.serverPid then (s, [])
  else match handleNewClient siPid s with
    | some accepted => accepted
    | none => match handleBusyServer siPid s with
      | some rejected => rejected
      | none => processDataSignal env signum
          { s with client := { s.client with clientPid := siPid, clientActivity := true } }

/-- The server as a machine: a process that has exited takes no more steps. -/
def machine (env : Env) : Machine State Event Effect where
  step s e :=
    if s.exited then (s, [])
    else match e with
      | .signal signum siPid => signalHandler env signum siPid s
      | .cleanGlobal => (cleanGlobal s, [])

/-- The states that a run of the server reaches. -/
def Reachable (env : Env) (s : State) : Prop := ∃ events, (machine env).run initial events = s

end Minitalk.Server
