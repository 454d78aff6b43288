import Minitalk.Lib.Heap

/-! # The server's state (`inc/server.h`)

The one `t_client_state` that `get_client_instance` hands out, the heap its message buffer lives in, and
whether the process has left through `exit`. -/

namespace Minitalk

/-- A process id, as `si_pid` reports it; 0 stands for a signal without a sender process. -/
abbrev Pid := Nat

/-- The two signals that client and server exchange. -/
inductive Signum where
  | SIGUSR1
  | SIGUSR2
deriving DecidableEq, Repr

namespace Server

abbrev SERVER_READY := Signum.SIGUSR1
abbrev SERVER_BUSY := Signum.SIGUSR2

def HEADER_SIZE : Nat := 32

/-- `t_message`: the buffer, null when there is none, and the announced length, a C `int`. -/
structure Message where
  message : Ptr := none
  sizeMessage : BitVec 32 := 0
deriving DecidableEq

/-- `t_client_state`, with its 0/1 flags as booleans and without the fields that no function reads
    (`queue_position`, `sequence_number` and the two checksums). -/
structure ClientState where
  actualPid : Pid := 0
  clientPid : Pid := 0
  gettingHeader : Bool := false
  gettingMsg : Bool := false
  sigCount : Nat := 0
  charValue : BitVec 32 := 0
  msgPos : Nat := 0
  clientActivity : Bool := false
  transmissionActive : Bool := false
  msg : Message := {}
deriving DecidableEq

/-- The process around the server: its own pid, and which of its allocations, counted from 0, succeed. -/
structure Env where
  serverPid : Pid
  serverPid_pos : 0 < serverPid
  mallocOk : Nat → Bool

structure State where
  client : ClientState
  heap : Heap UInt8 := {}
  exited : Bool := false
deriving DecidableEq

/-- What a handler does to the outside: `kill`, or the three writes of `print_message`. -/
inductive Effect where
  | kill (pid : Pid) (signum : Signum)
  | print (message : List UInt8)
deriving DecidableEq

/-- `get_client_instance`: the zeroed record, waiting for a header. -/
def getClientInstance : ClientState := { gettingHeader := true }

def initial : State := { client := getClientInstance }

inductive Event where
  | signal (signum : Signum) (siPid : Pid)
  | cleanGlobal
deriving DecidableEq

end Server
end Minitalk
