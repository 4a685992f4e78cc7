import HolyPhp.Mysql.Packet
import HolyPhp.Runtime.ArrFill
import HolyPhp.Runtime.Digest

/-!
# `mysql_connect_impl` and `mysql_query_impl`

What the parse pointer can see of a packet is a parameter (`mem`): its bytes (`inside`), or also
the NUL that `hbuf_write` keeps behind them (`buffer`).

* `greetingSalt`, `handshake`, `mysqlConnectImpl`   the packets of the server, and the answer;
* `cell`, `rowCells`, `rowLoop`                 the rows of a result set;
* `mysqlQueryImpl`                              a command and its reply.
-/

set_option autoImplicit false
set_option linter.unusedVariables false

namespace HolyPhp
namespace Mysql
open Arr HolyPhp.Std

/-! ## memory -/

/-- the bytes of a packet -/
def inside (pkt : Bytes) : Bytes := pkt

/-- `pkt.data`: NULL where nothing was written -/
def buffer (pkt : Bytes) : Bytes := if pkt = [] then [] else pkt ++ [0]

/-- `p[i]` -/
def readAt (m : Bytes) (i : Nat) : Except Stop UInt8 :=
  match m[i]? with
  | some b => .ok b
  | none => .error .outside

/-- `memcpy` from `p + i` -/
def readRange (m : Bytes) (i n : Nat) : Except Stop Bytes :=
  if i + n ≤ m.length then .ok ((m.drop i).take n) else .error .outside

/-! ## connecting -/

/-- the scan for the end of the server version -/
def skipVersion (m : Bytes) (len i : Nat) : Except Stop Nat :=
  if i < len then
    (readAt m i).bind fun c => if c = 0 then .ok i else skipVersion m len (i + 1)
  else .ok i
termination_by len - i

def zeros20 : Bytes := List.replicate 20 0

/-- the salt in the greeting -/
def greetingSalt (mem : Bytes → Bytes) (pkt : Bytes) : Except Stop Bytes :=
  let m := mem pkt
  (skipVersion m pkt.length 1).bind fun z =>
  let p := z + 1 + 4
  (if p + 8 ≤ pkt.length then readRange m p 8 else .ok (zeros20.take 8)).bind fun salt1 =>
  let p := p + 8 + 1
  (readAt m p).bind fun c0 =>
  (readAt m (p + 1)).bind fun c1 =>
  let p := p + 2 + 1 + 2
  (readAt m p).bind fun c2 =>
  (readAt m (p + 1)).bind fun c3 =>
  let p := p + 2 + 1 + 10
  let caplo := c0.toUInt32 ||| (c1.toUInt32 <<< 8)
  let caphi := c2.toUInt32 ||| (c3.toUInt32 <<< 8)
  let caps := caplo ||| (caphi <<< 16)
  if caps &&& 0x8000 ≠ 0 then
    -- `size_t`: it wraps where `p` is behind the packet
    let remain := UInt64.ofNat pkt.length - UInt64.ofNat p
    if 13 ≤ remain then (readRange m p 12).map fun salt2 => salt1 ++ salt2
    else .ok (salt1 ++ zeros20.drop 8)
  else .ok (salt1 ++ zeros20.drop 8)

def mysqlNativeScramble (pw salt : Bytes) : Bytes :=
  let h1 := hpSha1Digest pw
  let h2 := hpSha1Digest h1
  let h3 := hpSha1Digest (salt ++ h2)
  List.zipWith (· ^^^ ·) h1 h3

/-- the handshake response -/
def handshake (user pass db salt : Bytes) : Bytes :=
  [0x09, 0x82, 0, 0, 33] ++ List.replicate 23 0 ++ user ++ [0] ++ [20] ++
    mysqlNativeScramble pass salt ++ (if db = [] then [] else db ++ [0])

/-- the numbers of an OK packet, from `q` on -/
def okInts (q : Bytes) : Except Stop (UInt64 × UInt64) :=
  (myLencInt q).bind fun a => (myLencInt a.2).map fun b => (a.1, b.1)

/-- the end of `mysql_connect_impl` -/
def connectOk (mem : Bytes → Bytes) (pkt : Bytes) (c : MyConn) : Except Stop (Option MyConn) :=
  if pkt.length < 4 ∨ pkt.head? = some 0xff then .ok none
  else if pkt.head? = some 0xfe ∧ pkt.length < 9 then .ok none
  else (okInts (mem pkt).tail).map fun r => some { c with insertId := r.2.toUInt32 }

/-- from the new connection on; `none` is `false`, and `some` the handle -/
def mysqlConnectImpl (mem : Bytes → Bytes) (fd : MyConn) (user pass db : Bytes) :
    Except Stop (Option MyConn) :=
  (mysqlReadPacket { fd with seq := 0, insertId := 0 }).bind fun r =>
  if !r.1 then .ok none
  else if r.2.1.length < 30 ∨ r.2.1.head? = some 0xff then .ok none
  else (greetingSalt mem r.2.1).bind fun salt =>
    let resp := handshake user pass db salt
    let s := mysqlSendPacket { r.2.2 with seq := 1 } resp (UInt32.ofNat resp.length)
    if !s.1 then .ok none
    else (mysqlReadPacket s.2).bind fun r =>
      if !r.1 then .ok none else connectOk mem r.2.1 r.2.2

/-! ## rows -/

/-- a cell, from `rp` on -/
def cell (rp : Bytes) : Except Stop (Val × Bytes) :=
  (myLencInt rp).bind fun r =>
    if r.1 = 0 then
      (readAt r.2 0).bind fun b =>
        if b = 0xfb then .ok (.null, r.2.drop 1) else .ok (.str (some []), r.2)
    else (readRange r.2 0 r.1.toNat).map fun val => (.str (some val), r.2.drop r.1.toNat)

/-- `names` is never filled -/
def name : Val := .str (some [])

/-- the loop over `ci` -/
def rowCells : Nat → Harr → Bytes → Except Stop Harr
  | 0, row, _ => .ok row
  | n + 1, row, rp => (cell rp).bind fun r =>
    match hpArrSet row name r.1 with
    | none => .error .waits
    | some row => rowCells n row r.2

/-- the loop over `ri`, where no row is there yet -/
def rowLoop (mem : Bytes → Bytes) (junk : Nat → Val) (ncols : Nat) (c : MyConn)
    (rows : List Harr) : Except Stop (List Harr × MyConn) :=
  match h : mysqlReadPacket c with
  | .error e => .error e
  | .ok (false, _, c') => .ok (rows, c')
  | .ok (true, pkt, c') =>
    if 5 ≤ pkt.length ∧ pkt.head? = some 0xfe then .ok (rows, c')
    else if pkt.head? = some 0 then
      (okInts (mem pkt).tail).map fun r => (rows, { c' with insertId := r.2.toUInt32 })
    else (rowCells ncols (emptyMap junk) (mem pkt)).bind fun row =>
      rowLoop mem junk ncols c' (rows ++ [row])
termination_by c.inbound.flatten.length
decreasing_by exact mysqlReadPacket_shorter h

/-! ## queries -/

/-- `false`, a number of rows, or an array of rows -/
inductive Reply where
  | fail
  | affected (n : UInt64)
  | rows (rows : List Harr)

/-- the loop over the column definitions -/
def skipDefs : Nat → MyConn → Except Stop (Bool × MyConn)
  | 0, c => .ok (true, c)
  | n + 1, c => (mysqlReadPacket c).bind fun r =>
    if r.1 then skipDefs n r.2.2 else .ok (false, r.2.2)

/-- an EOF packet behind the definitions -/
def isEof (pkt : Bytes) : Bool := 5 ≤ pkt.length && pkt.head? == some 0xfe && pkt.length < 0xffffff

/-- the rows, from behind the definitions on; a read that fails leaves what it has in `pkt` -/
def resultSet (mem : Bytes → Bytes) (junk : Nat → Val) (ncols : Nat) (c : MyConn) :
    Except Stop (List Harr × MyConn) :=
  (mysqlReadPacket c).bind fun r =>
  if (r.1 && isEof r.2.1) || r.2.1.isEmpty then rowLoop mem junk ncols r.2.2 []
  else (rowCells ncols (emptyMap junk) (mem r.2.1)).bind fun row =>
    rowLoop mem junk ncols r.2.2 [row]

/-- the reply to a command -/
def reply (mem : Bytes → Bytes) (junk : Nat → Val) (c : MyConn) : Except Stop (Reply × MyConn) :=
  (mysqlReadPacket c).bind fun r =>
  if !r.1 then .ok (.fail, r.2.2)
  else match r.2.1.head? with
    | none => .ok (.fail, r.2.2)
    | some b =>
      if b = 0xff then .ok (.fail, r.2.2)
      else if b = 0 ∨ b = 0xfe then (okInts (mem r.2.1).tail).map fun q =>
        (.affected q.1, { r.2.2 with insertId := q.2.toUInt32 })
      else (myLencInt (mem r.2.1)).bind fun n =>
        (skipDefs n.1.toNat r.2.2).bind fun d =>
          if !d.1 then .ok (.fail, d.2)
          else (resultSet mem junk n.1.toNat d.2).map fun s => (.rows s.1, s.2)

/-- `none` is a value that is no handle -/
def mysqlQueryImpl (mem : Bytes → Bytes) (junk : Nat → Val) (conn : Option MyConn) (sql : Bytes) :
    Except Stop (Reply × Option MyConn) :=
  match conn with
  | none => .ok (.fail, none)
  | some c =>
    if !c.isOpen then .ok (.fail, some c)
    else
      let cmd := 0x03 :: sql
      let s := mysqlSendPacket { c with seq := 0 } cmd (UInt32.ofNat cmd.length)
      if !s.1 then .ok (.fail, some s.2)
      else (reply mem junk s.2).map fun r => (r.1, some r.2)

end Mysql
end HolyPhp
