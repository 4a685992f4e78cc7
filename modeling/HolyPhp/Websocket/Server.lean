import HolyPhp.Lib.Assoc
import HolyPhp.Websocket.Frame
import HolyPhp.Websocket.Handshake

/-!
# The WebSocket server

A `Server` holds one `Client` for every id it has given out; nothing is ever taken out, a closed
client stays with handle -1 and state `closed`.  `trace` is what the server has done to its
sockets and which closures it has called, the newest event last.

A closure is code of the program that uses the library.  Which closures are set is a field; where
the code calls one, the event is written down and a `Frame.callback` is handed to the caller, in
front of what the server does when the closure has returned (`Frame.pumpFrames`).  What the socket
functions answer (`stream_recv`, `stream_eof`, the number of bytes sent) is an argument.

* `isOpen`, `send`, `sendBinary`, `ping`, `broadcast`, `clientCount`, `drop`, `close`
* `acceptOne`, `idOf`, `readClient`, `consume`, `handshake`, `pumpFrames`, `deliver`
-/

set_option linter.unusedVariables false

namespace HolyPhp
namespace Websocket
open HolyPhp.Std Substr Assoc

inductive State where
  | handshake | opened | closed
  deriving DecidableEq

/-- the entries of one id -/
structure Client where
  sock : Int
  buf : Bytes
  state : State
  frag : Bytes
  fragOp : Nat
  peer : Bytes

inductive Event where
  | accepted (id h : Int)
  | received (id h : Int) (data : Bytes)
  | sent (id h : Int) (data : Bytes)
  | shut (id h : Int)
  | onOpen (id : Int)
  | onMessage (id : Int) (message : Bytes)
  | onBinary (id : Int) (bytes : Bytes)
  | onClose (id code : Int)

/-- what is still to be done -/
inductive Frame where
  /-- a closure of the program runs -/
  | callback
  /-- the loop of `pumpFrames` goes on -/
  | pumpFrames (id : Int)
  deriving DecidableEq

structure Server where
  /-- is a closure set? -/
  onOpen : Bool
  onMessage : Bool
  onBinary : Bool
  onClose : Bool
  srv : Int
  nextId : Int
  clients : List (Int × Client)
  trace : List Event

namespace Server

def client (s : Server) (id : Int) : Option Client := find s.clients id

def emit (s : Server) (e : Event) : Server := { s with trace := s.trace ++ [e] }

def modify (s : Server) (id : Int) (f : Client → Client) : Server :=
  { s with clients := update s.clients id f }

/-! ## the tables

A missing entry is null, which is 0 as a handle or a state and empty as a string. -/

def sock (s : Server) (id : Int) : Int := ((s.client id).map Client.sock).getD 0
def buf (s : Server) (id : Int) : Bytes := ((s.client id).map Client.buf).getD []
def state (s : Server) (id : Int) : State := ((s.client id).map Client.state).getD .handshake
def frag (s : Server) (id : Int) : Bytes := ((s.client id).map Client.frag).getD []
def fragOp (s : Server) (id : Int) : Nat := ((s.client id).map Client.fragOp).getD 0

def hasClient (s : Server) (id : Int) : Bool := (s.client id).isSome

def isOpen (s : Server) (id : Int) : Bool := s.hasClient id && decide (s.state id = .opened)

def clientCount (s : Server) : Nat := s.clients.countP fun p => decide (0 ≤ p.2.sock)

def idOf (s : Server) (h : Int) : Int :=
  ((s.clients.find? fun p => decide (p.2.sock = h)).map Prod.fst).getD (-1)

/-! ## sending -/

/-- `sent` bytes get out -/
def writeFrame (s : Server) (id : Int) (payload : Bytes) (opcode : Nat) (sent : Int) :
    Server × Bool :=
  if s.sock id < 0 then (s, false)
  else (s.emit (.sent id (s.sock id) (wsFrame payload opcode)), decide (0 < sent))

def send (s : Server) (id : Int) (message : Bytes) (sent : Int) : Server × Bool :=
  if s.isOpen id then s.writeFrame id message 1 sent else (s, false)

def sendBinary (s : Server) (id : Int) (bytes : Bytes) (sent : Int) : Server × Bool :=
  if s.isOpen id then s.writeFrame id bytes 2 sent else (s, false)

def ping (s : Server) (id : Int) (sent : Int) : Server × Bool :=
  if s.isOpen id then (s.emit (.sent id (s.sock id) (wsFrame [] 9)), decide (0 < sent))
  else (s, false)

/-- one turn of the loop of `broadcast` -/
def broadcastOne (message : Bytes) (except : Int) (sent : Int → Int) (r : Server × Nat)
    (p : Int × Client) : Server × Nat :=
  if p.1 = except ∨ p.2.sock < 0 then r
  else if r.1.state p.1 ≠ .opened then r
  else
    let w := r.1.writeFrame p.1 message 1 (sent p.1)
    (w.1, if w.2 then r.2 + 1 else r.2)

def broadcast (s : Server) (message : Bytes) (except : Int) (sent : Int → Int) : Server × Nat :=
  s.clients.foldl (broadcastOne message except sent) (s, 0)

/-! ## closing -/

/-- what `drop` leaves of a client -/
def dropped (c : Client) : Client := { c with sock := -1, state := .closed, buf := [], frag := [] }

/-- the close frame, which a peer that has gone does not get -/
def sendClose (s : Server) (id code : Int) : Server :=
  if code ≠ 1006 then s.emit (.sent id (s.sock id) (wsFrame (wsClosePayload code) 8)) else s

/-- `$this->onClose` -/
def callClose (s : Server) (id code : Int) : Server × List Frame :=
  if s.onClose then (s.emit (.onClose id code), [.callback]) else (s, [])

def drop (s : Server) (id code : Int) : Server × List Frame :=
  if s.hasClient id then
    (((s.sendClose id code).emit (.shut id (s.sock id))).modify id dropped).callClose id code
  else (s, [])

def close (s : Server) (id code : Int) : Server × List Frame := s.drop id code

/-! ## receiving -/

/-- one turn of the loop of `accept_all` -/
def acceptOne (s : Server) (h : Int) (peer : Bytes) : Server :=
  { s.emit (.accepted s.nextId h) with
    nextId := s.nextId + 1
    clients := assign s.clients s.nextId
      { sock := h, buf := [], state := .handshake, frag := [], fragOp := 0, peer := peer } }

def deliver (s : Server) (id : Int) (op : Nat) (payload : Bytes) : Server × List Frame :=
  if op = 2 then
    if s.onBinary then (s.emit (.onBinary id payload), [.callback]) else (s, [])
  else if s.onMessage then (s.emit (.onMessage id payload), [.callback]) else (s, [])

/-- then the loop goes on -/
def thenPump (r : Server × List Frame) (id : Int) : Server × List Frame :=
  (r.1, r.2 ++ [.pumpFrames id])

/-- one turn of the loop of `pumpFrames`, with the frame that was read -/
def pumpFrame (s : Server) (id : Int) (f : Decoded) : Server × List Frame :=
  if f.opcode = 0 then
    let s := s.modify id fun c => { c with frag := c.frag ++ f.payload }
    if f.fin then
      thenPump ((s.modify id fun c => { c with frag := [] }).deliver id (s.fragOp id)
        (s.frag id)) id
    else thenPump (s, []) id
  else if f.opcode = 1 ∨ f.opcode = 2 then
    if f.fin then thenPump (s.deliver id f.opcode f.payload) id
    else thenPump (s.modify id fun c =>
      { c with frag := f.payload, fragOp := f.opcode }, []) id
  else if f.opcode = 8 then s.drop id 1000
  else if f.opcode = 9 then
    thenPump (s.emit (.sent id (s.sock id) (wsFrame f.payload 10)), []) id
  else thenPump (s, []) id

def pumpFrames (s : Server) (id : Int) : Server × List Frame :=
  if s.isOpen id then
    match wsDecode (s.buf id) with
    | none => (s, [])
    | some f => (s.modify id fun c =>
        { c with buf := hpbiSubstr (s.buf id) f.consumed none }).pumpFrame id f
  else (s, [])

section
variable (acceptKey : Bytes → Bytes)

/-- `false` when the client was dropped -/
def handshake (s : Server) (id : Int) (head : Bytes) (sent : Int) :
    (Server × List Frame) × Bool :=
  let key := wsRequestKey head
  if key = [] then ((s.emit (.sent id (s.sock id) wsRejectResponse)).drop id 1002, false)
  else
    let s := s.emit (.sent id (s.sock id) (wsUpgradeResponse (acceptKey key)))
    if sent ≤ 0 then (s.drop id 1011, false) else ((s, []), true)

/-- the client is upgraded -/
def upgrade (s : Server) (id : Int) (rest : Bytes) : Server × List Frame :=
  let s := s.modify id fun c => { c with state := .opened, buf := rest, frag := [] }
  if s.onOpen then (s.emit (.onOpen id), [.callback, .pumpFrames id]) else (s, [.pumpFrames id])

def consume (s : Server) (id : Int) (sent : Int) : Server × List Frame :=
  if s.state id = .handshake then
    let buf := s.buf id
    match strpos blankLine buf with
    | none => if 16384 < buf.length then s.drop id 1002 else (s, [])
    | some stop =>
      let head := hpbiSubstr buf 0 (some (stop + 4 : Nat))
      let rest := hpbiSubstr buf (stop + 4 : Nat) none
      let h := s.handshake acceptKey id head sent
      if h.2 then h.1.1.upgrade id rest else h.1
  else (s, [.pumpFrames id])

def readClient (s : Server) (id : Int) (data : Bytes) (eof : Bool) (sent : Int) :
    Server × List Frame :=
  if s.sock id < 0 then (s, [])
  else
    let s := s.emit (.received id (s.sock id) data)
    if data = [] then if eof then s.drop id 1006 else (s, [])
    else (s.modify id fun c => { c with buf := c.buf ++ data }).consume acceptKey id sent

/-- what `tick` does with a client handle that is ready -/
def ready (s : Server) (h : Int) (data : Bytes) (eof : Bool) (sent : Int) :
    Server × List Frame :=
  if 0 < s.idOf h then s.readClient acceptKey (s.idOf h) data eof sent else (s, [])

end
end Server
end Websocket
end HolyPhp
