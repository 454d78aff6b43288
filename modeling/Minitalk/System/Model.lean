import Minitalk.Lib.Transition
import Minitalk.Client.Process
import Mathlib.Logic.Function.Basic

/-! # One server and any number of clients

A process holds at most one pending instance of each signal: `kill` on a process that already has one pending
changes nothing. Pending signals are delivered at any moment, in any order. `kill(0, _)` of the server reaches
every process of its group, itself included. The pending signals of the server carry a mark of what sent them,
and the log records what the server does with them; the code sees neither. -/

namespace Minitalk
open Server Client

/-- What a signal to the server was sent for. -/
inductive Origin where
  | ping
  /-- The k-th bit of the transmission, counted from 0. -/
  | data (k : Nat)
  /-- The server's own `kill(0, _)`. -/
  | broadcast
deriving DecidableEq

structure Pending where
  siPid : Pid
  origin : Origin
deriving DecidableEq

inductive Entry where
  /-- The server takes the process as its client. -/
  | opened (pid : Pid)
  /-- The server reads a signal of its client as a bit. -/
  | bit (pid : Pid) (origin : Origin)
  /-- `print_message` while `actual_pid` is `pid`. -/
  | printed (pid : Pid) (message : List UInt8)
deriving DecidableEq

def Entry.pid : Entry → Pid
  | opened pid | bit pid _ | printed pid _ => pid

/-- The processes of a run: the server's environment, which clients are in its process group, and the message of
    each client. -/
structure Setup where
  env : Env
  inGroup : Pid → Bool
  text : Pid → Text

structure System where
  server : State := initial
  serverPending : Signum → Option Pending := fun _ => none
  client : Pid → Process := fun _ => {}
  /-- The `si_pid` of what is pending at a client. -/
  clientPending : Pid → Signum → Option Pid := fun _ _ => none
  log : List Entry := []

namespace System

/-! ### `kill` -/

def killServer (signum : Signum) (x : Pending) (s : System) : System :=
  { s with serverPending := Function.update s.serverPending signum (some ((s.serverPending signum).getD x)) }

/-- What is pending at a client after the server `siPid` signals it. -/
def posted (siPid : Pid) (signum : Signum) (c : Process) (pending : Signum → Option Pid) : Signum → Option Pid :=
  if c.stage.alive then Function.update pending signum (some ((pending signum).getD siPid)) else pending

/-- A `kill` of the server: of one client, or of its process group. -/
def kill (setup : Setup) (pid : Pid) (signum : Signum) (s : System) : System :=
  if pid = 0 then
    killServer signum ⟨setup.env.serverPid, .broadcast⟩ { s with
      clientPending := fun p =>
        if setup.inGroup p then posted setup.env.serverPid signum (s.client p) (s.clientPending p)
        else s.clientPending p }
  else
    { s with
      clientPending := Function.update s.clientPending pid
        (posted setup.env.serverPid signum (s.client pid) (s.clientPending pid)) }

/-- An effect of the server's handler, which started while `actual_pid` was `actualPid`. -/
def applyEffect (setup : Setup) (actualPid : Pid) (s : System) : Effect → System
  | .kill pid signum => s.kill setup pid signum
  | .print message => { s with log := s.log ++ [.printed actualPid message] }

/-! ### Actions -/

inductive Action where
  /-- The pending signal is delivered to the server, whose handler runs to its end. -/
  | handle (signum : Signum)
  /-- The timeout of the server's main loop. -/
  | cleanGlobal
  /-- The pending signal is delivered to the client, whose handler runs to its end. -/
  | deliver (pid : Pid) (signum : Signum)
  | spawn (pid : Pid)
  | client (pid : Pid) (move : Move)
deriving DecidableEq

/-- What a signal does to the session, for the log. -/
def sessionEntry (setup : Setup) (c : ClientState) (x : Pending) : List Entry :=
  if x.siPid = setup.env.serverPid then []
  else if c.actualPid = 0 then [.opened x.siPid]
  else if c.actualPid = x.siPid then [.bit x.siPid x.origin]
  else []

def originOf : Stage → Origin
  | .sending k => .data k
  | _ => .ping

def handle (setup : Setup) (signum : Signum) (s : System) : Option System :=
  match s.serverPending signum with
  | some x =>
    if s.server.exited then none
    else
      let (server, out) := Server.signalHandler setup.env signum x.siPid s.server
      some (out.foldl (applyEffect setup s.server.client.actualPid)
        { s with
          server
          serverPending := Function.update s.serverPending signum none
          log := s.log ++ sessionEntry setup s.server.client x })
  | none => none

def deliver (pid : Pid) (signum : Signum) (s : System) : Option System :=
  match s.clientPending pid signum with
  | some siPid =>
    if (s.client pid).stage.alive then
      some { s with
        client := Function.update s.client pid (Client.deliver pid signum siPid (s.client pid))
        clientPending := Function.update s.clientPending pid (Function.update (s.clientPending pid) signum none) }
    else none
  | none => none

def spawn (setup : Setup) (pid : Pid) (s : System) : Option System :=
  if 0 < pid ∧ pid ≠ setup.env.serverPid ∧ (s.client pid).stage = .absent then
    some { s with
      client := Function.update s.client pid { stage := .start }
      clientPending := Function.update s.clientPending pid fun _ => none }
  else none

def clientMove (setup : Setup) (pid : Pid) (move : Move) (s : System) : Option System :=
  match Client.step setup.env.serverPid (!s.server.exited) pid (setup.text pid) (s.client pid) move with
  | some (c, sent) =>
    let s' := { s with client := Function.update s.client pid c }
    match sent with
    | some signum => some (killServer signum ⟨pid, originOf (s.client pid).stage⟩ s')
    | none => some s'
  | none => none

def step (setup : Setup) (s : System) : Action → Option System
  | .handle signum => s.handle setup signum
  | .cleanGlobal =>
    if s.server.exited = false ∧ 0 < s.server.client.actualPid then
      some { s with server := Server.cleanGlobal s.server }
    else none
  | .deliver pid signum => s.deliver pid signum
  | .spawn pid => s.spawn setup pid
  | .client pid move => s.clientMove setup pid move

end System

def system (setup : Setup) : Transition System System.Action where
  step := System.step setup

end Minitalk
