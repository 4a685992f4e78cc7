import HolyPhp.Websocket.Machine

/-!
# What one client is told

`runFrames` does what a method has left to do, a closure being any change of the server.
`messages id` are the messages that the closures were given for a client, and `reassemble` is the
standard's reading of a sequence of frames: the messages, each with the opcode of its first frame;
`none` where the sequence is not allowed.

* `Sees s id c`      what a client's messages depend on;
* `Spares id w`      a change that leaves that alone; the methods do (`call_spares`);
* `Syncs c future`   the client is open, and what it has in its buffers and what is to come are
                     frames with the messages `ms`;
* `pump_spec`        **the loop calls the closures with messages off the front of `ms`, until all
                     that has come is used up**.
-/

set_option autoImplicit false
set_option linter.unusedVariables false

namespace HolyPhp
namespace Websocket
open Assoc Substr HolyPhp.Std

/-- the frames from the top on -/
def runFrames (callback : Server → Server) : Nat → Server → List Frame → Option Server
  | _, s, [] => some s
  | 0, _, _ :: _ => none
  | n + 1, s, .callback :: k => runFrames callback n (callback s) k
  | n + 1, s, .pumpFrames id :: k =>
    runFrames callback n (s.pumpFrames id).1 ((s.pumpFrames id).2 ++ k)

/-- **`runFrames` is a run of the machine**, where the closure is one call that waits for no other
closure. -/
theorem runFrames_run (acceptKey : Bytes → Bytes) (srv : Int) (k : Server → Call)
    (hk : ∀ s : Server, (s.call (k s)).2 = []) (n : Nat) (s t : Server) (l : List Frame)
    (h : runFrames (fun s => (s.call (k s)).1) n s l = some t) :
    ∃ ms, (system acceptKey srv).run { server := s, stack := l } ms =
      some { server := t, stack := [] } := by
  induction n generalizing s l with
  | zero =>
    cases l with
    | nil =>
      cases h
      exact ⟨[], rfl⟩
    | cons f l => cases h
  | succ n ih =>
    cases l with
    | nil =>
      cases h
      exact ⟨[], rfl⟩
    | cons f l =>
      cases f with
      | callback =>
        obtain ⟨ms, hms⟩ := ih _ _ h
        refine ⟨.call (k s) :: .ret :: ms, ?_⟩
        have hcall : (system acceptKey srv).next { server := s, stack := .callback :: l }
            (.call (k s)) = some { server := (s.call (k s)).1, stack := .callback :: l } := by
          show some (push (s.call (k s)) (.callback :: l)) = _
          rw [push, hk]
          rfl
        show ((system acceptKey srv).next _ _).bind _ = _
        rw [hcall]
        exact hms
      | pumpFrames id =>
        obtain ⟨ms, hms⟩ := ih _ _ h
        exact ⟨.pump :: ms, hms⟩

abbrev Message := Nat × Bytes

def Event.message (id : Int) : Event → Option Message
  | .onMessage i m => if i = id then some (1, m) else none
  | .onBinary i m => if i = id then some (2, m) else none
  | _ => none

def messages (id : Int) (s : Server) : List Message := s.trace.filterMap (Event.message id)

/-- `st` is the message that has begun.  Control frames may come in between; nothing comes after a
close frame. -/
def reassemble : Option Message → List ClientFrame → Option (List Message)
  | _, [] => some []
  | st, f :: fs =>
    if f.opcode = 8 then if f.fin ∧ fs.isEmpty then some [] else none
    else if f.opcode = 9 ∨ f.opcode = 10 then if f.fin then reassemble st fs else none
    else
      match st with
      | none =>
        if f.opcode = 1 ∨ f.opcode = 2 then
          if f.fin then (reassemble none fs).map ((f.opcode, f.payload) :: ·)
          else reassemble (some (f.opcode, f.payload)) fs
        else none
      | some (op, acc) =>
        if f.opcode = 0 then
          if f.fin then (reassemble none fs).map ((op, acc ++ f.payload) :: ·)
          else reassemble (some (op, acc ++ f.payload)) fs
        else none

/-! ## one client -/

/-- the client's entries, and closures for messages -/
structure Sees (s : Server) (id : Int) (c : Client) : Prop where
  client : s.client id = some c
  onMessage : s.onMessage = true
  onBinary : s.onBinary = true

/-- the same entries, closures and messages -/
structure Same (id : Int) (s t : Server) : Prop where
  client : t.client id = s.client id
  onMessage : t.onMessage = s.onMessage
  onBinary : t.onBinary = s.onBinary
  messages : messages id t = messages id s

/-- a change that leaves the client alone -/
def Spares (id : Int) (w : Server → Server) : Prop := ∀ s, Same id s (w s)

section
variable {s : Server} {id : Int} {c : Client}

theorem Same.sees {t : Server} (hs : Same id s t) (h : Sees s id c) : Sees t id c where
  client := hs.client.trans h.client
  onMessage := hs.onMessage.trans h.onMessage
  onBinary := hs.onBinary.trans h.onBinary

theorem Same.refl (s : Server) : Same id s s := ⟨rfl, rfl, rfl, rfl⟩

theorem Same.trans {t u : Server} (h : Same id s t) (h' : Same id t u) : Same id s u :=
  ⟨h'.client.trans h.client, h'.onMessage.trans h.onMessage, h'.onBinary.trans h.onBinary,
    h'.messages.trans h.messages⟩

namespace Sees

theorem emit (h : Sees s id c) (e : Event) : Sees (s.emit e) id c :=
  ⟨h.client, h.onMessage, h.onBinary⟩

theorem modify (h : Sees s id c) (f : Client → Client) : Sees (s.modify id f) id (f c) where
  client := by
    show find (update s.clients id f) id = some (f c)
    rw [find_update, if_pos rfl]
    exact congrArg (Option.map f) h.client
  onMessage := h.onMessage
  onBinary := h.onBinary

theorem sock (h : Sees s id c) : s.sock id = c.sock := by
  rw [Server.sock, h.client]
  rfl

theorem buf (h : Sees s id c) : s.buf id = c.buf := by
  rw [Server.buf, h.client]
  rfl

theorem state (h : Sees s id c) : s.state id = c.state := by
  rw [Server.state, h.client]
  rfl

theorem frag (h : Sees s id c) : s.frag id = c.frag := by
  rw [Server.frag, h.client]
  rfl

theorem fragOp (h : Sees s id c) : s.fragOp id = c.fragOp := by
  rw [Server.fragOp, h.client]
  rfl

theorem hasClient (h : Sees s id c) : s.hasClient id = true := by
  rw [Server.hasClient, h.client]
  rfl

theorem isOpen (h : Sees s id c) : s.isOpen id = decide (c.state = .opened) := by
  rw [Server.isOpen, h.hasClient, h.state]
  rfl

end Sees

theorem messages_emit (s : Server) (id : Int) (e : Event) :
    messages id (s.emit e) = messages id s ++ (e.message id).toList := by
  show (s.trace ++ [e]).filterMap (Event.message id) = _
  rw [List.filterMap_append]
  show _ ++ [e].filterMap (Event.message id) = _
  cases h : e.message id <;> simp [messages, h]

/-! ## what leaves a client alone -/

/-- a call that does not close the client, and does not take a closure away -/
def Call.spares (id : Int) : Call → Bool
  | .close i _ => decide (i ≠ id)
  | .drop i _ => decide (i ≠ id)
  | .assign _ _ _ _ => false
  | _ => true

theorem Same.emit {e : Event} (he : e.message id = none) : Same id s (s.emit e) := by
  refine ⟨rfl, rfl, rfl, ?_⟩
  rw [messages_emit, he]
  exact List.append_nil _

theorem Same.modify {i : Int} (hi : i ≠ id) (f : Client → Client) : Same id s (s.modify i f) := by
  refine ⟨?_, rfl, rfl, rfl⟩
  show find (update s.clients i f) id = find s.clients id
  rw [find_update, if_neg hi]

theorem Same.writeFrame (i : Int) (payload : Bytes) (op : Nat) (sent : Int) :
    Same id s (s.writeFrame i payload op sent).1 := by
  unfold Server.writeFrame
  split
  · exact Same.refl s
  · exact Same.emit rfl

theorem Same.broadcast (message : Bytes) (except : Int) (sent : Int → Int) :
    Same id s (s.broadcast message except sent).1 := by
  have hall : ∀ (l : List (Int × Client)) (r : Server × Nat), Same id s r.1 →
      Same id s (l.foldl (Server.broadcastOne message except sent) r).1 := by
    intro l
    induction l with
    | nil => exact fun r hr => hr
    | cons p l ih =>
      intro r hr
      apply ih
      unfold Server.broadcastOne
      split
      · exact hr
      · split
        · exact hr
        · exact hr.trans (Same.writeFrame _ _ _ _)
  exact hall s.clients (s, 0) (Same.refl s)

theorem Same.drop {i : Int} (hi : i ≠ id) (code : Int) : Same id s (s.drop i code).1 := by
  have hsend : Same id s (s.sendClose i code) := by
    unfold Server.sendClose
    split
    · exact Same.emit rfl
    · exact Same.refl s
  have hshut := hsend.trans ((Same.emit (e := .shut i (s.sock i)) rfl).trans
    (Same.modify hi Server.dropped))
  unfold Server.drop
  split
  · unfold Server.callClose
    split
    · exact hshut.trans (Same.emit rfl)
    · exact hshut
  · exact Same.refl s

/-- **The methods leave a client alone**, if they do not close it. -/
theorem call_spares {k : Call} (hk : k.spares id = true) : Spares id fun s => (s.call k).1 := by
  intro s
  cases k with
  | send i message sent =>
    show Same id s (s.send i message sent).1
    unfold Server.send
    split
    · exact Same.writeFrame _ _ _ _
    · exact Same.refl s
  | sendBinary i bytes sent =>
    show Same id s (s.sendBinary i bytes sent).1
    unfold Server.sendBinary
    split
    · exact Same.writeFrame _ _ _ _
    · exact Same.refl s
  | ping i sent =>
    show Same id s (s.ping i sent).1
    unfold Server.ping
    split
    · exact Same.emit rfl
    · exact Same.refl s
  | broadcast message except sent => exact Same.broadcast message except sent
  | close i code => exact Same.drop (of_decide_eq_true hk) code
  | drop i code => exact Same.drop (of_decide_eq_true hk) code
  | assign a b c d => cases hk

/-! ## closing and delivering -/

/-- what `drop` does, seen from the client -/
theorem drop_spec (h : Sees s id c) (code : Int) :
    Sees (s.drop id code).1 id (Server.dropped c) ∧
      messages id (s.drop id code).1 = messages id s ∧
      ((s.drop id code).2 = [] ∨ (s.drop id code).2 = [.callback]) := by
  have h1 : Sees (s.sendClose id code) id c ∧
      messages id (s.sendClose id code) = messages id s := by
    unfold Server.sendClose
    split
    · exact ⟨h.emit _, (messages_emit _ _ _).trans (List.append_nil _)⟩
    · exact ⟨h, rfl⟩
  have h2 := (h1.1.emit (.shut id (s.sock id))).modify Server.dropped
  have hm2 : messages id (((s.sendClose id code).emit (.shut id (s.sock id))).modify id
      Server.dropped) = messages id s :=
    (messages_emit _ _ _).trans ((List.append_nil _).trans h1.2)
  unfold Server.drop
  rw [if_pos h.hasClient]
  unfold Server.callClose
  split
  · refine ⟨h2.emit _, ?_, .inr rfl⟩
    rw [messages_emit, hm2]
    exact List.append_nil _
  · exact ⟨h2, hm2, .inl rfl⟩

/-- and when the closure has returned -/
theorem drop_run {callback : Server → Server} (hcb : Spares id callback) (h : Sees s id c)
    (code : Int) : ∃ t, (∀ n, 1 ≤ n →
      runFrames callback n (s.drop id code).1 (s.drop id code).2 = some t) ∧
      Sees t id (Server.dropped c) ∧ messages id t = messages id s := by
  obtain ⟨hs, hm, hf | hf⟩ := drop_spec h code
  · refine ⟨_, fun n _ => ?_, hs, hm⟩
    rw [hf]
    cases n <;> rfl
  · refine ⟨callback (s.drop id code).1, fun n hn => ?_, (hcb _).sees hs,
      (hcb _).messages.trans hm⟩
    obtain ⟨k, rfl⟩ := Nat.exists_eq_add_of_le' hn
    rw [hf]
    show runFrames callback k _ [] = _
    cases k <;> rfl

theorem deliver_spec (h : Sees s id c) {op : Nat} (hop : op = 1 ∨ op = 2) (payload : Bytes) :
    ∃ t, s.deliver id op payload = (t, [.callback]) ∧ Sees t id c ∧
      messages id t = messages id s ++ [(op, payload)] := by
  unfold Server.deliver
  rcases hop with rfl | rfl
  · rw [if_neg (by decide), if_pos h.onMessage]
    refine ⟨_, rfl, h.emit _, ?_⟩
    rw [messages_emit]
    simp [Event.message]
  · rw [if_pos rfl, if_pos h.onBinary]
    refine ⟨_, rfl, h.emit _, ?_⟩
    rw [messages_emit]
    simp [Event.message]

/-! ## the loop -/

/-- the message that has begun is what the tables hold -/
def Begun (st : Option Message) (c : Client) : Prop :=
  ∀ op acc, st = some (op, acc) → (op = 1 ∨ op = 2) ∧ c.fragOp = op ∧ c.frag = acc

theorem begun_none (c : Client) : Begun none c := fun _ _ h => nomatch h

structure Syncs (c : Client) (st : Option Message) (fs : List ClientFrame) (future : Bytes)
    (ms : List Message) : Prop where
  opened : c.state = .opened
  sock : 0 ≤ c.sock
  begun : Begun st c
  bytes : c.buf ++ future = frameCodec.encs fs
  reads : reassemble st fs = some ms

/-- the frames that are left when one turn of the loop does not end it -/
def again (id : Int) (called : Bool) : List Frame :=
  if called then [.callback, .pumpFrames id] else [.pumpFrames id]

/-- one turn of the loop, with a frame: it goes on, or it was the close frame -/
theorem pumpFrame_spec {st : Option Message} {f : ClientFrame} {fs : List ClientFrame}
    {future : Bytes} {ms : List Message} (h : Sees s id c) (ho : c.state = .opened)
    (h0 : 0 ≤ c.sock) (hb : Begun st c) (hbytes : c.buf ++ future = frameCodec.encs fs)
    (hr : reassemble st (f :: fs) = some ms) :
    (∃ t called c' st' ds ms', s.pumpFrame id f.decoded = (t, again id called) ∧ Sees t id c' ∧
      Syncs c' st' fs future ms' ∧ messages id t = messages id s ++ ds ∧ ms = ds ++ ms') ∨
      s.pumpFrame id f.decoded = s.drop id 1000 ∧ ms = [] := by
  have hop : f.decoded.opcode = f.opcode := rfl
  have hfin : f.decoded.fin = f.fin := rfl
  have hpay : f.decoded.payload = f.payload := rfl
  unfold reassemble at hr
  unfold Server.pumpFrame
  rw [hop, hfin, hpay]
  split at hr
  · next h8 =>
    right
    rw [h8, if_neg (by decide), if_neg (by decide), if_pos rfl]
    split at hr
    · exact ⟨rfl, (Option.some.inj hr).symm⟩
    · cases hr
  · next h8 =>
    left
    split at hr
    · next h910 =>
      split at hr
      · rcases h910 with h9 | h10
        · rw [h9, if_neg (by decide), if_neg (by decide), if_neg (by decide), if_pos rfl]
          refine ⟨_, false, c, st, [], ms, rfl, h.emit _, ⟨ho, h0, hb, hbytes, hr⟩, ?_, rfl⟩
          exact messages_emit _ _ _
        · rw [h10, if_neg (by decide), if_neg (by decide), if_neg (by decide), if_neg (by decide)]
          exact ⟨_, false, c, st, [], ms, rfl, h, ⟨ho, h0, hb, hbytes, hr⟩,
            (List.append_nil _).symm, rfl⟩
      · cases hr
    · next h910 =>
      cases st with
      | none =>
        simp only at hr
        split at hr
        · next h12 =>
          have h00 : f.opcode ≠ 0 := by omega
          rw [if_neg h00, if_pos h12]
          split at hr
          · next hf =>
            obtain ⟨ms', hms, rfl⟩ := Option.map_eq_some_iff.1 hr
            obtain ⟨t, ht, hst, hmt⟩ := deliver_spec h h12 f.payload
            rw [if_pos hf, ht]
            exact ⟨t, true, c, none, [(f.opcode, f.payload)], ms', rfl, hst,
              ⟨ho, h0, begun_none c, hbytes, hms⟩, hmt, rfl⟩
          · next hf =>
            rw [if_neg hf]
            refine ⟨_, false, _, some (f.opcode, f.payload), [], ms, rfl,
              h.modify fun c => { c with frag := f.payload, fragOp := f.opcode },
              ⟨ho, h0, ?_, hbytes, hr⟩, (List.append_nil _).symm, rfl⟩
            intro op acc he
            cases he
            exact ⟨h12, rfl, rfl⟩
        · cases hr
      | some m =>
        obtain ⟨op, acc⟩ := m
        obtain ⟨hop12, hfop, hfrag⟩ := hb op acc rfl
        simp only at hr
        split at hr
        · next h00 =>
          rw [if_pos h00]
          have h1 := h.modify fun c => { c with frag := c.frag ++ f.payload }
          split at hr
          · next hf =>
            obtain ⟨ms', hms, rfl⟩ := Option.map_eq_some_iff.1 hr
            have h2 := h1.modify fun c => { c with frag := [] }
            obtain ⟨t, ht, hst, hmt⟩ := deliver_spec h2 hop12 (acc ++ f.payload)
            simp only [if_pos hf]
            rw [h1.fragOp, h1.frag, hfop, hfrag, ht]
            exact ⟨t, true, _, none, [(op, acc ++ f.payload)], ms', rfl, hst,
              ⟨ho, h0, begun_none _, hbytes, hms⟩, hmt, rfl⟩
          · next hf =>
            simp only [if_neg hf]
            refine ⟨_, false, _, some (op, acc ++ f.payload), [], ms, rfl, h1,
              ⟨ho, h0, ?_, hbytes, hr⟩, (List.append_nil _).symm, rfl⟩
            intro op' acc' he
            cases he
            exact ⟨hop12, hfop, congrArg (· ++ f.payload) hfrag⟩
        · cases hr

/-- what the loop leaves: a client that waits for more bytes, or one that is closed and has no
message to come -/
def Idle (c : Client) (future : Bytes) (ms : List Message) : Prop :=
  (∃ st fs, Syncs c st fs future ms ∧ wsDecode c.buf = none) ∨ c.sock < 0 ∧ ms = []

/-- the frames `k` come to an end, with messages off the front of `ms` -/
def Ends (callback : Server → Server) (s : Server) (k : List Frame) (id : Int) (future : Bytes)
    (ms : List Message) : Prop :=
  ∃ N t c ds ms', (∀ n, N ≤ n → runFrames callback n s k = some t) ∧ Sees t id c ∧
    messages id t = messages id s ++ ds ∧ ms = ds ++ ms' ∧ Idle c future ms'

theorem wsDecode_code (f : ClientFrame) (t : Bytes) :
    wsDecode (f.code ++ t) = some f.decoded := by
  have hlt : ¬ (f.code ++ t).length < f.code.length := by
    rw [List.length_append]
    omega
  rw [wsDecode_eq (List.prefix_refl _), if_neg hlt]

/-- the loop stops where there is no frame -/
theorem pumpFrames_none (h : Sees s id c) (hd : wsDecode c.buf = none) :
    s.pumpFrames id = (s, []) := by
  unfold Server.pumpFrames
  split
  · rw [h.buf, hd]
  · rfl

/-- and takes one off where there is one -/
theorem pumpFrames_some (h : Sees s id c) (ho : c.state = .opened) {f : ClientFrame} {b : Bytes}
    (hb : c.buf = f.code ++ b) :
    s.pumpFrames id = (s.modify id fun c => { c with buf := b }).pumpFrame id f.decoded := by
  have hrest : hpbiSubstr (f.code ++ b) f.decoded.consumed none = b := by
    have hle : f.code.length ≤ (f.code ++ b).length := by
      rw [List.length_append]
      omega
    show hpbiSubstr (f.code ++ b) f.code.length none = b
    rw [hpbiSubstr_drop hle, List.drop_left]
  have hopen : s.isOpen id = true := by simp [h.isOpen, ho]
  unfold Server.pumpFrames
  rw [if_pos hopen, h.buf, hb, wsDecode_code]
  show (s.modify id fun c => { c with buf := hpbiSubstr _ _ none }).pumpFrame id _ = _
  rw [hrest]

theorem Ends.after {callback : Server → Server} {t : Server} {k l : List Frame} {future : Bytes}
    {ds ms ms' : List Message} {m : Nat} (h : Ends callback t k id future ms')
    (hrun : ∀ n, runFrames callback (n + m) s l = runFrames callback n t k)
    (hm : messages id t = messages id s ++ ds) (hms : ms = ds ++ ms') :
    Ends callback s l id future ms := by
  obtain ⟨N, u, c, es, ms'', hu, hsees, hmu, hms', hidle⟩ := h
  refine ⟨N + m, u, c, ds ++ es, ms'', fun n hn => ?_, hsees, ?_, ?_, hidle⟩
  · obtain ⟨j, rfl⟩ := Nat.exists_eq_add_of_le hn
    rw [show N + m + j = N + j + m by omega, hrun]
    exact hu _ (Nat.le_add_right N j)
  · rw [hmu, hm, List.append_assoc]
  · rw [hms, hms', List.append_assoc]

/-- **The loop.** -/
theorem pump_spec {callback : Server → Server} (hcb : Spares id callback)
    {st : Option Message} {fs : List ClientFrame} {future : Bytes} {ms : List Message}
    (h : Sees s id c) (hs : Syncs c st fs future ms) :
    Ends callback s [.pumpFrames id] id future ms := by
  induction fs generalizing s c st ms with
  | nil =>
    have hbuf : c.buf = [] := (List.append_eq_nil_iff.1 hs.bytes).1
    have hd : wsDecode c.buf = none := by
      rw [hbuf]
      rfl
    refine ⟨1, s, c, [], ms, fun n hn => ?_, h, (List.append_nil _).symm, rfl,
      .inl ⟨st, [], hs, hd⟩⟩
    obtain ⟨j, rfl⟩ := Nat.exists_eq_add_of_le' hn
    show runFrames callback j (s.pumpFrames id).1 ((s.pumpFrames id).2 ++ []) = _
    rw [pumpFrames_none h hd]
    cases j <;> rfl
  | cons f fs ih =>
    rcases frameCodec.front hs.bytes with ⟨hd, -⟩ | ⟨b, hb, -, hbytes⟩
    · have hd' : wsDecode c.buf = none := Option.map_eq_none_iff.1 hd
      refine ⟨1, s, c, [], ms, fun n hn => ?_, h, (List.append_nil _).symm, rfl,
        .inl ⟨st, f :: fs, hs, hd'⟩⟩
      obtain ⟨j, rfl⟩ := Nat.exists_eq_add_of_le' hn
      show runFrames callback j (s.pumpFrames id).1 ((s.pumpFrames id).2 ++ []) = _
      rw [pumpFrames_none h hd']
      cases j <;> rfl
    · have hstep := pumpFrames_some h hs.opened hb
      have h1 := h.modify fun c => { c with buf := b }
      rcases pumpFrame_spec h1 hs.opened hs.sock hs.begun hbytes hs.reads with
        ⟨t, called, c', st', ds, ms', ht, hst, hsync, hmt, hms⟩ | ⟨hdrop, hms⟩
      · replace hmt : messages id t = messages id s ++ ds := hmt
        rw [← hstep] at ht
        cases called with
        | false =>
          apply (ih hst hsync).after (m := 1) (fun n => ?_) hmt hms
          show runFrames callback n (s.pumpFrames id).1 ((s.pumpFrames id).2 ++ []) = _
          rw [ht]
          rfl
        | true =>
          have hmc := (hcb t).messages.trans hmt
          apply (ih ((hcb t).sees hst) hsync).after (m := 2) (fun n => ?_) hmc hms
          show runFrames callback (n + 1) (s.pumpFrames id).1 ((s.pumpFrames id).2 ++ []) = _
          rw [ht]
          rfl
      · obtain ⟨t, hrun, hst, hmt⟩ := drop_run hcb h1 1000
        refine ⟨2, t, _, [], ms, fun n hn => ?_, hst, ?_, rfl,
          .inr ⟨show (-1 : Int) < 0 by decide, hms⟩⟩
        · obtain ⟨j, rfl⟩ := Nat.exists_eq_add_of_le' hn
          show runFrames callback (j + 1) (s.pumpFrames id).1 ((s.pumpFrames id).2 ++ []) = _
          rw [hstep, hdrop, List.append_nil]
          exact hrun _ (Nat.le_add_left 1 j)
        · exact hmt.trans (List.append_nil _).symm

end
end Websocket
end HolyPhp
