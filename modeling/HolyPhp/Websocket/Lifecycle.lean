import HolyPhp.Lib.Traces
import HolyPhp.Websocket.Machine
import Mathlib.Data.List.Nodup

/-!
# The life of a client

`Lifecycle s` says of what the server has done so far: at most one `onClose` for an id and no
other closure for it afterwards, no handle used that is not open, and the client count.

* `Inv`            what holds of the server and its trace, `Inv.lifecycle`;
* `Inv.emit_use`, `Inv.emit_call`, `Inv.modify`, `Inv.accept`, `Inv.drop`
                   what the steps are made of;
* `lifecycle_iff`  **the property holds all along a run if and only if `onClose` is not called by a
                   `drop` or `close` of a client that has been told already**.
-/

set_option linter.unusedVariables false

namespace HolyPhp
namespace Websocket
open Assoc Traces Runs

/-! ## what a trace says -/

namespace Event

/-- a closure is called for the id -/
def calls (id : Int) : Event → Bool
  | .onOpen i => decide (i = id)
  | .onMessage i _ => decide (i = id)
  | .onBinary i _ => decide (i = id)
  | .onClose i _ => decide (i = id)
  | _ => false

def closes (id : Int) : Event → Bool
  | .onClose i _ => decide (i = id)
  | _ => false

/-- the handle that is written to or read from -/
def uses : Event → Option Int
  | .sent _ h _ => some h
  | .received _ h _ => some h
  | _ => none

def accepts : Event → Option Int
  | .accepted id _ => some id
  | _ => none

def shuts : Event → Option Int
  | .shut id _ => some id
  | _ => none

end Event

/-- the ids given out -/
def acceptedIds (tr : List Event) : List Int := tr.filterMap Event.accepts

/-- the ids whose socket was closed -/
def shutIds (tr : List Event) : List Int := tr.filterMap Event.shuts

/-- is the handle the socket of a client, accepted and not closed since? -/
def openStep (h : Int) (b : Bool) : Event → Bool
  | .accepted _ i => if i = h then true else b
  | .shut _ i => if i = h then false else b
  | _ => b

def isHandle (tr : List Event) (h : Int) : Bool := tr.foldl (openStep h) false

structure Lifecycle (s : Server) : Prop where
  once : ∀ id, s.trace.countP (Event.closes id) ≤ 1
  /-- nothing is called after `onClose` -/
  last : ∀ id pre e post, s.trace = pre ++ e :: post → e.closes id = true →
    ∀ x ∈ post, x.calls id = false
  /-- a socket is used only between `accept` and `stream_close` -/
  sockets : ∀ pre e post h, s.trace = pre ++ e :: post → e.uses = some h → 0 ≤ h →
    isHandle pre h = true
  count : s.clientCount =
    (acceptedIds s.trace).countP fun id => decide (id ∉ shutIds s.trace)

/-! ## one more event -/

section
variable (tr : List Event) (e : Event)

theorem acceptedIds_concat : acceptedIds (tr ++ [e]) = acceptedIds tr ++ e.accepts.toList := by
  rw [acceptedIds, List.filterMap_append]
  cases e <;> rfl

theorem shutIds_concat : shutIds (tr ++ [e]) = shutIds tr ++ e.shuts.toList := by
  rw [shutIds, List.filterMap_append]
  cases e <;> rfl

theorem isHandle_concat (h : Int) : isHandle (tr ++ [e]) h = openStep h (isHandle tr h) e := by
  simp [isHandle]

end

/-- what may happen next -/
def Allowed (pre : List Event) (e : Event) : Prop :=
  (∀ id, e.calls id = true → ∀ x ∈ pre, x.closes id = false) ∧
    ∀ h, e.uses = some h → 0 ≤ h → isHandle pre h = true

/-! ## the invariant -/

structure Inv (s : Server) : Prop where
  ids : s.clients.map Prod.fst = acceptedIds s.trace
  nodup : (s.clients.map Prod.fst).Nodup
  fresh : ∀ p ∈ s.clients, p.1 < s.nextId
  live : ∀ p ∈ s.clients, 0 ≤ p.2.sock ↔ p.1 ∉ shutIds s.trace
  opened : ∀ p ∈ s.clients, p.2.state = .opened → 0 ≤ p.2.sock
  shut : ∀ id ∈ shutIds s.trace, id ∈ s.clients.map Prod.fst
  told : ∀ id, ∀ e ∈ s.trace, e.closes id = true → id ∈ shutIds s.trace
  handles : ∀ h, 0 ≤ h → (isHandle s.trace h = true ↔ ∃ p ∈ s.clients, p.2.sock = h)
  apart : ∀ p ∈ s.clients, ∀ q ∈ s.clients, 0 ≤ p.2.sock → p.2.sock = q.2.sock → p = q
  along : Along Allowed s.trace

/-- the client is there and its socket is open -/
def Server.connected (s : Server) (id : Int) : Prop := ∃ c, (id, c) ∈ s.clients ∧ 0 ≤ c.sock

namespace Inv
variable {s : Server} {id : Int}

theorem initial (srv : Int) : Inv (initial srv).server where
  ids := rfl
  nodup := List.nodup_nil
  fresh := by simp [Websocket.initial]
  live := by simp [Websocket.initial]
  opened := by simp [Websocket.initial]
  shut := by simp [Websocket.initial, shutIds]
  told := by simp [Websocket.initial]
  handles := by simp [Websocket.initial, isHandle]
  apart := by simp [Websocket.initial]
  along := along_nil

theorem lifecycle (h : Inv s) : Lifecycle s where
  once id := by
    apply h.along.countP_le
    intro pre e hok he
    apply hok.1
    cases e <;> first | exact he | cases he
  last id pre e post htr he x hx := by
    obtain ⟨mid, post, rfl⟩ := List.append_of_mem hx
    by_contra hc
    have hno := (h.along.pair htr).1 id (Bool.not_eq_false _ ▸ hc) e
      (List.mem_append_right pre List.mem_cons_self)
    rw [he] at hno
    cases hno
  sockets pre e post hd htr hu h0 := (h.along pre e post htr).2 hd hu h0
  count := by
    rw [Server.clientCount, ← h.ids, List.countP_map]
    apply List.countP_congr
    intro p hp
    simp [h.live p hp]

/-- a client and its entries -/
theorem client_eq (h : Inv s) {c : Client} (hc : (id, c) ∈ s.clients) : s.client id = some c :=
  find_of_mem h.nodup hc

theorem unique (h : Inv s) {c d : Client} (hc : (id, c) ∈ s.clients) (hd : (id, d) ∈ s.clients) :
    c = d :=
  Option.some.inj ((h.client_eq hc).symm.trans (h.client_eq hd))

theorem connected_iff (h : Inv s) : s.connected id ↔ s.hasClient id = true ∧ 0 ≤ s.sock id := by
  constructor
  · rintro ⟨c, hc, h0⟩
    have hcl := h.client_eq hc
    exact ⟨by rw [Server.hasClient, hcl]; rfl, by rw [Server.sock, hcl]; exact h0⟩
  · rintro ⟨hhas, h0⟩
    obtain ⟨c, hcl⟩ := Option.isSome_iff_exists.1 hhas
    refine ⟨c, mem_of_find hcl, ?_⟩
    rwa [Server.sock, hcl] at h0

theorem connected_of_isOpen (h : Inv s) (ho : s.isOpen id = true) : s.connected id := by
  obtain ⟨hhas, hst⟩ := Bool.and_eq_true_iff.1 ho
  obtain ⟨c, hcl⟩ := Option.isSome_iff_exists.1 hhas
  have hstate : c.state = .opened := by
    rw [Server.state, hcl] at hst
    exact of_decide_eq_true hst
  exact ⟨c, mem_of_find hcl, h.opened _ (mem_of_find hcl) hstate⟩

/-- its socket may be used, -/
theorem isHandle_sock (h : Inv s) (hc : s.connected id) :
    isHandle s.trace (s.sock id) = true := by
  obtain ⟨c, hm, h0⟩ := hc
  have hs : s.sock id = c.sock := by
    rw [Server.sock, h.client_eq hm]
    rfl
  rw [hs]
  exact (h.handles c.sock h0).2 ⟨(id, c), hm, rfl⟩

/-- and its closures may be called -/
theorem not_told (h : Inv s) (hc : s.connected id) : ∀ e ∈ s.trace, e.closes id = false := by
  obtain ⟨c, hm, h0⟩ := hc
  intro e he
  by_contra hcl
  exact (h.live _ hm).1 h0 (h.told id e he (Bool.not_eq_false _ ▸ hcl))

/-! ## what the steps are made of -/

/-- an event that opens and closes no socket -/
theorem emit (h : Inv s) {e : Event} (ha : e.accepts = none) (hs : e.shuts = none)
    (ht : ∀ id, e.closes id = true → id ∈ shutIds s.trace) (hok : Allowed s.trace e) :
    Inv (s.emit e) := by
  have hshut : shutIds (s.emit e).trace = shutIds s.trace := by
    show shutIds (s.trace ++ [e]) = _
    rw [shutIds_concat, hs]
    exact List.append_nil _
  have hacc : acceptedIds (s.emit e).trace = acceptedIds s.trace := by
    show acceptedIds (s.trace ++ [e]) = _
    rw [acceptedIds_concat, ha]
    exact List.append_nil _
  have hhandle : ∀ i, isHandle (s.emit e).trace i = isHandle s.trace i := by
    intro i
    show isHandle (s.trace ++ [e]) i = _
    rw [isHandle_concat]
    cases e with
    | accepted i j => cases ha
    | shut i j => cases hs
    | _ => rfl
  refine ⟨?_, h.nodup, h.fresh, ?_, h.opened, ?_, ?_, ?_, h.apart, h.along.concat hok⟩
  · rw [hacc]
    exact h.ids
  · rw [hshut]
    exact h.live
  · rw [hshut]
    exact h.shut
  · rw [hshut]
    intro i x hx hcl
    rcases List.mem_append.1 hx with hx | hx
    · exact h.told i x hx hcl
    · rw [List.mem_singleton.1 hx] at hcl
      exact ht i hcl
  · intro i hi
    rw [hhandle]
    exact h.handles i hi

/-- the socket of a connected client, or none, is used -/
theorem emit_sent (h : Inv s) (hc : s.connected id ∨ s.sock id < 0) (data : Bytes) :
    Inv (s.emit (.sent id (s.sock id) data)) := by
  refine h.emit rfl rfl (by simp [Event.closes]) ⟨by simp [Event.calls], ?_⟩
  intro i hi h0
  cases hi
  rcases hc with hc | hc
  · exact h.isHandle_sock hc
  · omega

theorem emit_received (h : Inv s) (hc : s.connected id) (data : Bytes) :
    Inv (s.emit (.received id (s.sock id) data)) := by
  refine h.emit rfl rfl (by simp [Event.closes]) ⟨by simp [Event.calls], ?_⟩
  intro i hi h0
  cases hi
  exact h.isHandle_sock hc

/-- a closure is called for a connected client -/
theorem emit_call (h : Inv s) (hc : s.connected id) {e : Event}
    (he : e = .onOpen id ∨ (∃ m, e = .onMessage id m) ∨ ∃ m, e = .onBinary id m) :
    Inv (s.emit e) := by
  rcases he with rfl | ⟨m, rfl⟩ | ⟨m, rfl⟩ <;>
  · refine h.emit rfl rfl (by simp [Event.closes]) ⟨?_, by simp [Event.uses]⟩
    intro i hi
    rw [← of_decide_eq_true hi]
    exact h.not_told hc

/-- the entries of a client change, its socket does not -/
theorem modify (h : Inv s) {f : Client → Client}
    (hf : ∀ c, (id, c) ∈ s.clients → (f c).sock = c.sock ∧
      ((f c).state = .opened → 0 ≤ c.sock)) : Inv (s.modify id f) := by
  have hkeys : (s.modify id f).clients.map Prod.fst = s.clients.map Prod.fst := keys_update
  -- every entry has the id and the socket of an old one
  have hold : ∀ p ∈ (s.modify id f).clients, ∃ q ∈ s.clients, q.1 = p.1 ∧
      q.2.sock = p.2.sock ∧ (p.2.state = .opened → 0 ≤ q.2.sock) := by
    intro p hp
    rcases mem_update.1 hp with ⟨hp, -⟩ | ⟨c, hc, rfl⟩
    · exact ⟨p, hp, rfl, rfl, h.opened p hp⟩
    · exact ⟨(id, c), hc, rfl, (hf c hc).1.symm, (hf c hc).2⟩
  refine ⟨?_, ?_, ?_, ?_, ?_, ?_, h.told, ?_, ?_, h.along⟩
  · rw [hkeys]
    exact h.ids
  · rw [hkeys]
    exact h.nodup
  · intro p hp
    obtain ⟨q, hq, hid, -, -⟩ := hold p hp
    rw [← hid]
    exact h.fresh q hq
  · intro p hp
    obtain ⟨q, hq, hid, hsock, -⟩ := hold p hp
    rw [← hid, ← hsock]
    exact h.live q hq
  · intro p hp hst
    obtain ⟨q, -, -, hsock, hopen⟩ := hold p hp
    rw [← hsock]
    exact hopen hst
  · rw [hkeys]
    exact h.shut
  · intro i hi
    refine (h.handles i hi).trans ⟨?_, ?_⟩
    · rintro ⟨q, hq, rfl⟩
      by_cases hid : q.1 = id
      · have hq' : (id, q.2) ∈ s.clients := by
          rw [← hid]
          exact hq
        exact ⟨(id, f q.2), mem_update.2 (.inr ⟨q.2, hq', rfl⟩), (hf q.2 hq').1⟩
      · exact ⟨q, mem_update.2 (.inl ⟨hq, hid⟩), rfl⟩
    · rintro ⟨p, hp, rfl⟩
      obtain ⟨q, hq, -, hsock, -⟩ := hold p hp
      exact ⟨q, hq, hsock⟩
  · intro p hp p' hp' h0 hsock
    obtain ⟨q, hq, hid, hs, -⟩ := hold p hp
    obtain ⟨q', hq', hid', hs', -⟩ := hold p' hp'
    have hqq : q = q' := h.apart q hq q' hq' (hs ▸ h0) (by rw [hs, hs', hsock])
    have hpp : p.1 = p'.1 := by rw [← hid, ← hid', hqq]
    have hn : ((s.modify id f).clients.map Prod.fst).Nodup := by
      rw [hkeys]
      exact h.nodup
    have hp2 : (p.1, p'.2) ∈ (s.modify id f).clients := by
      rw [hpp]
      exact hp'
    exact Prod.ext hpp (Option.some.inj ((find_of_mem hn hp).symm.trans (find_of_mem hn hp2)))

theorem emit_accepted (tr : List Event) (i h : Int) :
    acceptedIds (tr ++ [.accepted i h]) = acceptedIds tr ++ [i] ∧
      shutIds (tr ++ [.accepted i h]) = shutIds tr := by
  rw [acceptedIds_concat, shutIds_concat]
  exact ⟨rfl, List.append_nil _⟩

/-- a new client -/
theorem accept (h : Inv s) {i : Int} (hi : s.free i = true) (peer : Bytes) :
    Inv (s.acceptOne i peer) := by
  obtain ⟨h0, -, hall⟩ : 0 ≤ i ∧ i ≠ s.srv ∧ ∀ p ∈ s.clients, p.2.sock ≠ i := by
    simpa [Server.free] using hi
  obtain ⟨hacc, hshut⟩ := emit_accepted s.trace s.nextId i
  have hnew : ∀ p ∈ s.clients, p.1 ≠ s.nextId := fun p hp => Int.ne_of_lt (h.fresh p hp)
  have hkey : s.nextId ∉ s.clients.map Prod.fst := by
    intro hm
    obtain ⟨p, hp, he⟩ := List.mem_map.1 hm
    exact hnew p hp he
  obtain ⟨c, hc, hcs, hcl⟩ : ∃ c : Client, c.sock = i ∧ c.state = .handshake ∧
      (s.acceptOne i peer).clients = s.clients ++ [(s.nextId, c)] :=
    ⟨_, rfl, rfl, assign_new hnew⟩
  have htrace : (s.acceptOne i peer).trace = s.trace ++ [.accepted s.nextId i] := rfl
  -- an entry is an old one or the new one
  have hmem : ∀ p, p ∈ (s.acceptOne i peer).clients ↔ p ∈ s.clients ∨ p = (s.nextId, c) := by
    intro p
    rw [hcl, List.mem_append, List.mem_singleton]
  have hkeys : (s.acceptOne i peer).clients.map Prod.fst =
      s.clients.map Prod.fst ++ [s.nextId] := by
    rw [hcl, List.map_append]
    rfl
  refine ⟨?_, ?_, ?_, ?_, ?_, ?_, ?_, ?_, ?_, ?_⟩
  · rw [hkeys, htrace, hacc, h.ids]
  · rw [hkeys, List.nodup_append]
    refine ⟨h.nodup, List.nodup_singleton _, ?_⟩
    intro a ha b hb he
    rw [List.mem_singleton.1 hb] at he
    exact hkey (he ▸ ha)
  · intro p hp
    show p.1 < s.nextId + 1
    rcases (hmem p).1 hp with hp | rfl
    · exact Int.lt_add_one_of_le (Int.le_of_lt (h.fresh p hp))
    · exact Int.lt_succ _
  · intro p hp
    rw [htrace, hshut]
    rcases (hmem p).1 hp with hp | rfl
    · exact h.live p hp
    · exact iff_of_true (hc ▸ h0) fun hm => hkey (h.shut _ hm)
  · intro p hp hst
    rcases (hmem p).1 hp with hp | rfl
    · exact h.opened p hp hst
    · exact hc ▸ h0
  · intro j hj
    rw [htrace, hshut] at hj
    rw [hkeys]
    exact List.mem_append_left _ (h.shut j hj)
  · intro j e he hcl
    rw [htrace, hshut]
    rw [htrace] at he
    rcases List.mem_append.1 he with he | he
    · exact h.told j e he hcl
    · rw [List.mem_singleton.1 he] at hcl
      cases hcl
  · intro j hj
    rw [htrace, isHandle_concat]
    show (if i = j then true else isHandle s.trace j) = true ↔ _
    by_cases hij : i = j
    · rw [if_pos hij]
      exact iff_of_true rfl ⟨(s.nextId, c), (hmem _).2 (.inr rfl), hc.trans hij⟩
    · rw [if_neg hij, h.handles j hj]
      constructor
      · rintro ⟨p, hp, hs⟩
        exact ⟨p, (hmem p).2 (.inl hp), hs⟩
      · rintro ⟨p, hp, hs⟩
        rcases (hmem p).1 hp with hp | rfl
        · exact ⟨p, hp, hs⟩
        · exact absurd (hc.symm.trans hs) hij
  · intro p hp q hq hp0 hs
    rcases (hmem p).1 hp with hp | rfl
    · rcases (hmem q).1 hq with hq | rfl
      · exact h.apart p hp q hq hp0 hs
      · exact absurd (hs.trans hc) (hall p hp)
    · rcases (hmem q).1 hq with hq | rfl
      · exact absurd (hs.symm.trans hc) (hall q hq)
      · rfl
  · rw [htrace]
    exact h.along.concat ⟨by simp [Event.calls], by simp [Event.uses]⟩

/-- the socket is closed and the tables are written -/
theorem shut_dropped (h : Inv s) (hhas : s.hasClient id = true) :
    Inv ((s.emit (.shut id (s.sock id))).modify id Server.dropped) := by
  obtain ⟨c, hcl⟩ := Option.isSome_iff_exists.1 hhas
  have hmc := mem_of_find hcl
  have hsock : s.sock id = c.sock := by
    rw [Server.sock, hcl]
    rfl
  have hshut : shutIds (s.trace ++ [.shut id c.sock]) = shutIds s.trace ++ [id] :=
    shutIds_concat _ _
  have hacc : acceptedIds (s.trace ++ [.shut id c.sock]) = acceptedIds s.trace :=
    (acceptedIds_concat _ _).trans (List.append_nil _)
  have hkeys : (update s.clients id Server.dropped).map Prod.fst = s.clients.map Prod.fst :=
    keys_update
  have hid : id ∈ s.clients.map Prod.fst := List.mem_map.2 ⟨(id, c), hmc, rfl⟩
  -- the others stay as they are, this one has no socket
  have hold : ∀ p ∈ update s.clients id Server.dropped,
      p ∈ s.clients ∧ p.1 ≠ id ∨ p = (id, Server.dropped c) := by
    intro p hp
    rcases mem_update.1 hp with hp | ⟨d, hd, rfl⟩
    · exact .inl hp
    · rw [h.unique hd hmc]
      exact .inr rfl
  have hneg : ¬ 0 ≤ (Server.dropped c).sock := by
    show ¬ (0 : Int) ≤ -1
    decide
  rw [hsock]
  refine ⟨?_, ?_, ?_, ?_, ?_, ?_, ?_, ?_, ?_, ?_⟩
  · show (update s.clients id Server.dropped).map Prod.fst = acceptedIds (s.trace ++ [_])
    rw [hkeys, hacc, h.ids]
  · show ((update s.clients id Server.dropped).map Prod.fst).Nodup
    rw [hkeys]
    exact h.nodup
  · intro p hp
    rcases hold p hp with ⟨hp, -⟩ | rfl
    · exact h.fresh p hp
    · exact h.fresh (id, c) hmc
  · intro p hp
    show _ ↔ p.1 ∉ shutIds (s.trace ++ [_])
    rw [hshut, List.mem_append, List.mem_singleton, not_or]
    rcases hold p hp with ⟨hp, hne⟩ | rfl
    · exact (h.live p hp).trans ⟨fun hm => ⟨hm, hne⟩, fun hm => hm.1⟩
    · exact iff_of_false hneg fun hm => hm.2 rfl
  · intro p hp hst
    rcases hold p hp with ⟨hp, -⟩ | rfl
    · exact h.opened p hp hst
    · exact absurd hst (show State.closed ≠ .opened by decide)
  · intro i hi
    show i ∈ (update s.clients id Server.dropped).map Prod.fst
    replace hi : i ∈ shutIds (s.trace ++ [.shut id c.sock]) := hi
    rw [hshut, List.mem_append, List.mem_singleton] at hi
    rw [hkeys]
    rcases hi with hi | rfl
    · exact h.shut i hi
    · exact hid
  · intro i e he hcl
    show i ∈ shutIds (s.trace ++ [_])
    rw [hshut]
    rcases List.mem_append.1 he with he | he
    · exact List.mem_append_left _ (h.told i e he hcl)
    · rw [List.mem_singleton.1 he] at hcl
      cases hcl
  · intro i hi
    show isHandle (s.trace ++ [_]) i = true ↔ _
    rw [isHandle_concat]
    show (if c.sock = i then false else isHandle s.trace i) = true ↔ _
    by_cases hci : c.sock = i
    · rw [if_pos hci]
      refine iff_of_false Bool.false_ne_true ?_
      rintro ⟨p, hp, hpi⟩
      rcases hold p hp with ⟨hp, hne⟩ | rfl
      · have he := h.apart p hp _ hmc (hpi ▸ hi) (hpi.trans hci.symm)
        exact hne (congrArg Prod.fst he)
      · exact hneg (hpi ▸ hi)
    · rw [if_neg hci, h.handles i hi]
      constructor
      · rintro ⟨p, hp, hpi⟩
        refine ⟨p, mem_update.2 (.inl ⟨hp, ?_⟩), hpi⟩
        rintro rfl
        exact hci (by rw [h.unique hmc hp]; exact hpi)
      · rintro ⟨p, hp, hpi⟩
        rcases hold p hp with ⟨hp, -⟩ | rfl
        · exact ⟨p, hp, hpi⟩
        · exact absurd (hpi ▸ hi) hneg
  · intro p hp q hq hp0 hs
    rcases hold p hp with ⟨hp, -⟩ | rfl
    · rcases hold q hq with ⟨hq, -⟩ | rfl
      · exact h.apart p hp q hq hp0 hs
      · exact absurd (hs ▸ hp0) hneg
    · exact absurd hp0 hneg
  · exact h.along.concat ⟨by simp [Event.calls], by simp [Event.uses]⟩

/-- the id is in the list of closed ones from then on -/
theorem mem_shut (tr : List Event) (i h : Int) :
    i ∈ shutIds (tr ++ [.shut i h]) := by
  rw [shutIds_concat]
  exact List.mem_append_right _ List.mem_cons_self

theorem sendClose (h : Inv s) (hhas : s.hasClient id = true) (code : Int) :
    Inv (s.sendClose id code) ∧ (s.sendClose id code).clients = s.clients ∧
      (s.sendClose id code).onClose = s.onClose ∧
      ∀ e ∈ (s.sendClose id code).trace, ∀ i, e.closes i = true → e ∈ s.trace := by
  unfold Server.sendClose
  split
  · refine ⟨h.emit_sent ?_ _, rfl, rfl, ?_⟩
    · by_cases h0 : s.sock id < 0
      · exact .inr h0
      · exact .inl (h.connected_iff.2 ⟨hhas, Int.not_lt.1 h0⟩)
    · intro e he i hcl
      rcases List.mem_append.1 he with he | he
      · exact he
      · rw [List.mem_singleton.1 he] at hcl
        cases hcl
  · exact ⟨h, rfl, rfl, fun e he _ _ => he⟩

/-- **`drop`**, where `onClose` is not called a second time. -/
theorem drop (h : Inv s) (code : Int)
    (ht : s.onClose = true → ∀ e ∈ s.trace, e.closes id = false) : Inv (s.drop id code).1 := by
  unfold Server.drop
  split
  · next hhas =>
    obtain ⟨hsend, hcl, hon, htr⟩ := h.sendClose hhas code
    have hsock : s.sock id = (s.sendClose id code).sock id := by
      rw [Server.sock, Server.sock, Server.client, Server.client, hcl]
    have hhas' : (s.sendClose id code).hasClient id = true := by
      rw [Server.hasClient, Server.client, hcl]
      exact hhas
    rw [hsock]
    have hinv := hsend.shut_dropped hhas'
    unfold Server.callClose
    split
    · next hc =>
      refine hinv.emit rfl rfl ?_ ⟨?_, by simp [Event.uses]⟩
      · intro i hi
        rw [← of_decide_eq_true hi]
        exact mem_shut _ _ _
      · intro i hi x hx
        rw [← of_decide_eq_true hi]
        by_contra hcx
        have hcx' := Bool.not_eq_false _ ▸ hcx
        rcases List.mem_append.1 hx with hx | hx
        · have hno := ht (hon ▸ hc) x (htr x hx id hcx')
          exact hcx hno
        · rw [List.mem_singleton.1 hx] at hcx'
          cases hcx'
    · exact hinv
  · exact h

end Inv
end Websocket
end HolyPhp
