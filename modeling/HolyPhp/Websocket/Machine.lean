import HolyPhp.Lib.Runs
import HolyPhp.Websocket.Server

/-!
# Runs of the server, with closures that call it

The state (`Conf`) is a server and the stack of what is still to be done.  Where the stack is empty
the program runs its own code between two calls of `tick`; where a `Frame.callback` is on top a
closure runs.  In both cases any method may be called, `tick` as well: it is its single steps, a
connection that is accepted and a handle that is ready.  A closure ends by returning or by an
exception, which leaves the frames down to its handler.  Where a `Frame.pumpFrames` is on top the
loop goes on.

Of the sockets it is only assumed that `accept` returns a handle that is not open.
-/

set_option linter.unusedVariables false

namespace HolyPhp
namespace Websocket
open Runs

structure Conf where
  server : Server
  stack : List Frame

/-- code of the program runs -/
def Conf.atUser (c : Conf) : Bool :=
  match c.stack with
  | [] => true
  | f :: _ => decide (f = .callback)

/-- a call of a method, with what `stream_send` answers -/
inductive Call where
  | send (id : Int) (message : Bytes) (sent : Int)
  | sendBinary (id : Int) (bytes : Bytes) (sent : Int)
  | ping (id sent : Int)
  | broadcast (message : Bytes) (except : Int) (sent : Int → Int)
  | close (id code : Int)
  | drop (id code : Int)
  /-- which closures are set from now on -/
  | assign (onOpen onMessage onBinary onClose : Bool)

def Server.call (s : Server) : Call → Server × List Frame
  | .send id message sent => ((s.send id message sent).1, [])
  | .sendBinary id bytes sent => ((s.sendBinary id bytes sent).1, [])
  | .ping id sent => ((s.ping id sent).1, [])
  | .broadcast message except sent => ((s.broadcast message except sent).1, [])
  | .close id code => s.close id code
  | .drop id code => s.drop id code
  | .assign onOpen onMessage onBinary onClose =>
    ({ s with onOpen := onOpen, onMessage := onMessage, onBinary := onBinary,
              onClose := onClose }, [])

inductive Move where
  | accept (h : Int) (peer : Bytes)
  | ready (h : Int) (data : Bytes) (eof : Bool) (sent : Int)
  | call (k : Call)
  /-- the loop of `pumpFrames` -/
  | pump
  /-- a closure returns -/
  | ret
  /-- a closure throws -/
  | raise (frames : Nat)

/-- `h` is not open -/
def Server.free (s : Server) (h : Int) : Bool :=
  decide (0 ≤ h) && (decide (h ≠ s.srv) && s.clients.all fun p => decide (p.2.sock ≠ h))

/-- what is done first of all, then the rest -/
def push (r : Server × List Frame) (stack : List Frame) : Conf :=
  { server := r.1, stack := r.2 ++ stack }

section
variable (acceptKey : Bytes → Bytes)

def Conf.next (c : Conf) : Move → Option Conf
  | .accept h peer =>
    if c.atUser && c.server.free h then some (push (c.server.acceptOne h peer, []) c.stack)
    else none
  | .ready h data eof sent =>
    if c.atUser && decide (data.length ≤ 65536) then
      some (push (c.server.ready acceptKey h data eof sent) c.stack)
    else none
  | .call k => if c.atUser then some (push (c.server.call k) c.stack) else none
  | .pump =>
    match c.stack with
    | .pumpFrames id :: stack => some (push (c.server.pumpFrames id) stack)
    | _ => none
  | .ret =>
    match c.stack with
    | .callback :: stack => some { server := c.server, stack := stack }
    | _ => none
  | .raise frames =>
    let d : Conf := { server := c.server, stack := c.stack.drop (frames + 1) }
    if c.atUser && d.atUser then some d else none

def initial (srv : Int) : Conf where
  server :=
    { onOpen := false, onMessage := false, onBinary := false, onClose := false, srv := srv,
      nextId := 1, clients := [], trace := [] }
  stack := []

def system (srv : Int) : Sys Conf Move where
  init c := c = initial srv
  next := Conf.next acceptKey

end
end Websocket
end HolyPhp
