import HolyPhp.Websocket.Lifecycle

/-!
# The life of a client, along every run

Every method keeps `Inv` (`Inv.send`, `Inv.broadcast`, `Inv.pumpFrames`, `Inv.readClient`, ...), a
`drop` of a client that has been told apart.  So every step does, and `lifecycle_iff` follows.
-/

set_option autoImplicit false
set_option linter.unusedVariables false

namespace HolyPhp
namespace Websocket
open Assoc Traces Runs Substr HolyPhp.Std

/-! ## the methods -/

namespace Inv
variable {s : Server} {id : Int}

theorem writeFrame (h : Inv s) (hc : s.connected id) (payload : Bytes) (op : Nat) (sent : Int) :
    Inv (s.writeFrame id payload op sent).1 := by
  unfold Server.writeFrame
  split
  · exact h
  · exact h.emit_sent (.inl hc) _

theorem send (h : Inv s) (message : Bytes) (sent : Int) : Inv (s.send id message sent).1 := by
  unfold Server.send
  split
  · next ho => exact h.writeFrame (h.connected_of_isOpen ho) _ _ _
  · exact h

theorem sendBinary (h : Inv s) (bytes : Bytes) (sent : Int) :
    Inv (s.sendBinary id bytes sent).1 := by
  unfold Server.sendBinary
  split
  · next ho => exact h.writeFrame (h.connected_of_isOpen ho) _ _ _
  · exact h

theorem ping (h : Inv s) (sent : Int) : Inv (s.ping id sent).1 := by
  unfold Server.ping
  split
  · next ho => exact h.emit_sent (.inl (h.connected_of_isOpen ho)) _
  · exact h

/-- what the state table says of a client that it knows -/
theorem isOpen_of_state (ho : s.state id = .opened) : s.isOpen id = true := by
  have hhas : s.hasClient id = true := by
    unfold Server.state at ho
    unfold Server.hasClient
    cases hcl : s.client id with
    | none =>
      rw [hcl] at ho
      cases ho
    | some c => rfl
  simp [Server.isOpen, hhas, ho]

theorem broadcast (h : Inv s) (message : Bytes) (except : Int) (sent : Int → Int) :
    Inv (s.broadcast message except sent).1 := by
  have hone : ∀ (r : Server × Nat) p, Inv r.1 →
      Inv (Server.broadcastOne message except sent r p).1 := by
    intro r p hr
    unfold Server.broadcastOne
    split
    · exact hr
    · split
      · exact hr
      · next ho =>
        have hst : r.1.state p.1 = .opened := Decidable.not_not.1 ho
        exact hr.writeFrame (hr.connected_of_isOpen (isOpen_of_state hst)) _ _ _
  have hall : ∀ (l : List (Int × Client)) (r : Server × Nat), Inv r.1 →
      Inv (l.foldl (Server.broadcastOne message except sent) r).1 := by
    intro l
    induction l with
    | nil => exact fun r hr => hr
    | cons p l ih => exact fun r hr => ih _ (hone r p hr)
  exact hall s.clients (s, 0) h

/-- a connected client is told nothing twice -/
theorem drop_connected (h : Inv s) (hc : s.connected id) (code : Int) :
    Inv (s.drop id code).1 :=
  h.drop code fun _ => h.not_told hc

theorem deliver (h : Inv s) (hc : s.connected id) (op : Nat) (payload : Bytes) :
    Inv (s.deliver id op payload).1 := by
  unfold Server.deliver
  split
  · split
    · exact h.emit_call hc (.inr (.inr ⟨payload, rfl⟩))
    · exact h
  · split
    · exact h.emit_call hc (.inr (.inl ⟨payload, rfl⟩))
    · exact h

/-- buffers and fragments -/
theorem modify_text (h : Inv s) {f : Client → Client}
    (hf : ∀ c, (f c).sock = c.sock ∧ (f c).state = c.state) : Inv (s.modify id f) := by
  apply h.modify
  intro c hc
  refine ⟨(hf c).1, fun ho => ?_⟩
  rw [(hf c).2] at ho
  exact h.opened (id, c) hc ho

theorem connected_modify {f : Client → Client} (hf : ∀ c, (f c).sock = c.sock)
    (hc : s.connected id) : (s.modify id f).connected id := by
  obtain ⟨c, hm, h0⟩ := hc
  refine ⟨f c, mem_update.2 (.inr ⟨c, hm, rfl⟩), ?_⟩
  rw [hf]
  exact h0

theorem pumpFrame (h : Inv s) (hc : s.connected id) (f : Decoded) :
    Inv (s.pumpFrame id f).1 := by
  unfold Server.pumpFrame
  split
  · have h1 : Inv (s.modify id fun c => { c with frag := c.frag ++ f.payload }) :=
      h.modify_text fun c => ⟨rfl, rfl⟩
    have hc1 : (s.modify id fun c => { c with frag := c.frag ++ f.payload }).connected id :=
      connected_modify (fun c => rfl) hc
    split
    · apply deliver
      · exact h1.modify_text fun c => ⟨rfl, rfl⟩
      · exact connected_modify (fun c => rfl) hc1
    · exact h1
  · split
    · split
      · exact h.deliver hc _ _
      · exact h.modify_text fun c => ⟨rfl, rfl⟩
    · split
      · exact h.drop_connected hc _
      · split
        · exact h.emit_sent (.inl hc) _
        · exact h

theorem pumpFrames (h : Inv s) : Inv (s.pumpFrames id).1 := by
  unfold Server.pumpFrames
  split
  · next ho =>
    have hc := h.connected_of_isOpen ho
    split
    · exact h
    · apply pumpFrame
      · exact h.modify_text fun c => ⟨rfl, rfl⟩
      · exact connected_modify (fun c => rfl) hc
  · exact h

section
variable (acceptKey : Bytes → Bytes)

theorem handshake (h : Inv s) (hc : s.connected id) (head : Bytes) (sent : Int) :
    Inv (s.handshake acceptKey id head sent).1.1 ∧
      ((s.handshake acceptKey id head sent).2 = true →
        (s.handshake acceptKey id head sent).1.1.connected id) := by
  unfold Server.handshake
  have h1 := fun data => h.emit_sent (.inl hc) data
  simp only
  split
  · exact ⟨(h1 _).drop_connected hc _, fun hf => nomatch hf⟩
  · split
    · exact ⟨(h1 _).drop_connected hc _, fun hf => nomatch hf⟩
    · exact ⟨h1 _, fun _ => hc⟩

theorem upgrade (h : Inv s) (hc : s.connected id) (rest : Bytes) :
    Inv (s.upgrade id rest).1 := by
  have h1 : Inv (s.modify id fun c => { c with state := .opened, buf := rest, frag := [] }) := by
    apply h.modify
    intro c hm
    obtain ⟨d, hd, h0⟩ := hc
    exact ⟨rfl, fun _ => h.unique hd hm ▸ h0⟩
  unfold Server.upgrade
  simp only
  split
  · exact h1.emit_call (connected_modify (fun c => rfl) hc) (.inl rfl)
  · exact h1

theorem consume (h : Inv s) (hc : s.connected id) (sent : Int) :
    Inv (s.consume acceptKey id sent).1 := by
  unfold Server.consume
  split
  · simp only
    split
    · split
      · exact h.drop_connected hc _
      · exact h
    · next stop _ =>
      have hh := h.handshake acceptKey hc (hpbiSubstr (s.buf id) 0 (some (stop + 4 : Nat))) sent
      split
      · next hok => exact hh.1.upgrade (hh.2 hok) _
      · exact hh.1
  · exact h

theorem readClient (h : Inv s) (hhas : s.hasClient id = true) (data : Bytes) (eof : Bool)
    (sent : Int) : Inv (s.readClient acceptKey id data eof sent).1 := by
  unfold Server.readClient
  split
  · exact h
  · next h0 =>
    have hc : s.connected id := h.connected_iff.2 ⟨hhas, Int.not_lt.1 h0⟩
    have h1 := h.emit_received hc data
    simp only
    split
    · split
      · exact h1.drop_connected hc _
      · exact h1
    · apply consume
      · exact h1.modify_text fun c => ⟨rfl, rfl⟩
      · exact connected_modify (fun c => rfl) hc

theorem ready (h : Inv s) (i : Int) (data : Bytes) (eof : Bool) (sent : Int) :
    Inv (s.ready acceptKey i data eof sent).1 := by
  unfold Server.ready
  split
  · next hpos =>
    apply h.readClient
    unfold Server.idOf at hpos ⊢
    cases hf : s.clients.find? fun p => decide (p.2.sock = i) with
    | none =>
      rw [hf] at hpos
      exact absurd hpos (by decide)
    | some p =>
      show (s.client p.1).isSome = true
      rw [h.client_eq (c := p.2) (List.mem_of_find?_eq_some hf)]
      rfl
  · exact h

end
end Inv

/-! ## the steps -/

/-- `drop` or `close` is not called for a client that `onClose` was called for, or `onClose` is
not set -/
def Once (c : Conf) : Move → Prop
  | .call (.drop id _) => c.server.onClose = true → ∀ e ∈ c.server.trace, e.closes id = false
  | .call (.close id _) => c.server.onClose = true → ∀ e ∈ c.server.trace, e.closes id = false
  | _ => True

theorem Inv.next {acceptKey : Bytes → Bytes} {c d : Conf} {m : Move} (h : Inv c.server)
    (hn : c.next acceptKey m = some d) (hm : Once c m) : Inv d.server := by
  cases m with
  | accept i peer =>
    simp only [Conf.next] at hn
    split at hn
    · next hg =>
      cases hn
      exact h.accept (Bool.and_eq_true_iff.1 hg).2 peer
    · cases hn
  | ready i data eof sent =>
    simp only [Conf.next] at hn
    split at hn
    · cases hn
      exact h.ready acceptKey i data eof sent
    · cases hn
  | call k =>
    simp only [Conf.next] at hn
    split at hn
    · cases hn
      cases k with
      | send id message sent => exact h.send message sent
      | sendBinary id bytes sent => exact h.sendBinary bytes sent
      | ping id sent => exact h.ping sent
      | broadcast message except sent => exact h.broadcast message except sent
      | close id code => exact h.drop code hm
      | drop id code => exact h.drop code hm
      | assign a b c' d' =>
        exact ⟨h.ids, h.nodup, h.fresh, h.live, h.opened, h.shut, h.told, h.handles, h.apart,
          h.along⟩
    · cases hn
  | pump =>
    obtain ⟨s, stack⟩ := c
    cases stack with
    | nil => cases hn
    | cons f stack =>
      cases f with
      | callback => cases hn
      | pumpFrames id =>
        cases hn
        exact h.pumpFrames
  | ret =>
    obtain ⟨s, stack⟩ := c
    cases stack with
    | nil => cases hn
    | cons f stack =>
      cases f with
      | callback =>
        cases hn
        exact h
      | pumpFrames id => cases hn
  | raise frames =>
    simp only [Conf.next] at hn
    split at hn
    · cases hn
      exact h
    · cases hn

/-- a second `onClose` -/
theorem twice {s : Server} {id : Int} (code : Int) (hinv : Inv s) (hon : s.onClose = true)
    {e : Event} (he : e ∈ s.trace) (hcl : e.closes id = true) :
    ¬ Lifecycle (s.drop id code).1 := by
  have hhas : s.hasClient id = true := by
    obtain ⟨p, hp, rfl⟩ := List.mem_map.1 (hinv.shut id (hinv.told id e he hcl))
    rw [Server.hasClient, hinv.client_eq (c := p.2) hp]
    rfl
  have hsend := hinv.sendClose hhas code
  have hon' : (((s.sendClose id code).emit (.shut id (s.sock id))).modify id
      Server.dropped).onClose = true := hsend.2.2.1.trans hon
  have htr : (s.drop id code).1.trace =
      (s.sendClose id code).trace ++ [.shut id (s.sock id)] ++ [.onClose id code] := by
    unfold Server.drop
    rw [if_pos hhas, Server.callClose, if_pos hon']
    rfl
  have hmem : e ∈ (s.sendClose id code).trace := by
    unfold Server.sendClose
    split
    · exact List.mem_append_left _ he
    · exact he
  intro hl
  have h1 := hl.once id
  rw [htr, List.countP_append, List.countP_append] at h1
  have hpos : 0 < (s.sendClose id code).trace.countP (Event.closes id) :=
    List.countP_pos_iff.2 ⟨e, hmem, hcl⟩
  have hone : [Event.onClose id code].countP (Event.closes id) = 1 := by
    simp [Event.closes]
  omega

/-- **When the life of every client goes by the rules**: if and only if no `drop` or `close` calls
`onClose` for a client that has been told. -/
theorem lifecycle_iff (acceptKey : Bytes → Bytes) (srv : Int) (ms : List Move) :
    (∀ p d, p <+: ms → (system acceptKey srv).run (initial srv) p = some d →
        Lifecycle d.server) ↔
      ∀ p m c d, p ++ [m] <+: ms → (system acceptKey srv).run (initial srv) p = some c →
        (system acceptKey srv).next c m = some d → Once c m := by
  apply Sys.run_iff (I := fun c : Conf => Inv c.server) (G := fun c : Conf => Lifecycle c.server)
  · exact Inv.initial srv
  · exact fun c h => h.lifecycle
  · exact fun c m d h hn hm => h.next hn hm
  · intro c m d h hn hl
    cases m with
    | call k =>
      have hd : d = push (c.server.call k) c.stack := by
        replace hn : (if c.atUser then some (push (c.server.call k) c.stack) else none) = some d :=
          hn
        split at hn
        · exact (Option.some.inj hn).symm
        · cases hn
      cases k with
      | drop id code =>
        intro hon e he
        by_contra hcl
        rw [hd] at hl
        exact twice code h hon he (Bool.not_eq_false _ ▸ hcl) hl
      | close id code =>
        intro hon e he
        by_contra hcl
        rw [hd] at hl
        exact twice code h hon he (Bool.not_eq_false _ ▸ hcl) hl
      | _ => exact trivial
    | _ => exact trivial

/-- a program that sets all closures, and closes its one client twice -/
def closeTwice : List Move :=
  [.call (.assign true true true true), .accept 4 [], .call (.close 1 1000), .ret,
    .call (.close 1 1000)]

theorem closeTwice_told : ∃ d, (system (fun _ => []) 3).run (initial 3) closeTwice = some d ∧
    d.server.trace.countP (Event.closes 1) = 2 ∧ ¬ Lifecycle d.server := by
  refine ⟨_, rfl, rfl, fun h => ?_⟩
  exact absurd (h.once 1) (by decide)

end Websocket
end HolyPhp
