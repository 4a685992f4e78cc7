import HolyPhp.Websocket.Delivery
import Mathlib.Data.Bool.AllAny

/-!
# Messages, however the stream is cut

A `Turn` is one call of `read_client`: what has happened to the server in the meantime, what
`stream_recv` returned (nothing, or up to 65536 bytes) and what `stream_send` answered.

* `idle_turn`                   a turn of a client that is open, or closed;
* `greet_turn`, `cut_turn`, `hello_turn`
                                a turn while the request is not complete: it stays so, the head is
                                given up, or the client is upgraded;
* `delivered_iff`               **the messages of the stream are delivered if and only if no turn
                                leaves more than 16384 bytes of a request that is not complete**.
-/

set_option autoImplicit false
set_option linter.unusedVariables false

namespace HolyPhp
namespace Websocket
open Substr HolyPhp.Std

structure Turn where
  meanwhile : Server → Server
  data : Bytes
  sent : Int
  data_le : data.length ≤ 65536

section
variable (acceptKey : Bytes → Bytes) (callback : Server → Server) (id : Int)

/-- `n` frames are enough for every turn -/
def feed (n : Nat) : Server → List Turn → Option Server
  | s, [] => some s
  | s, t :: ts =>
    let r := (t.meanwhile s).readClient acceptKey id t.data false t.sent
    (runFrames callback n r.1 r.2).bind fun s => feed n s ts

/-- the turns come to an end, and the closures have been given these messages -/
def Delivers (s : Server) (ts : List Turn) (out : List Message) : Prop :=
  ∃ N, ∀ n, N ≤ n → ∃ t, feed acceptKey callback id n s ts = some t ∧ messages id t = out

end

def received (ts : List Turn) : Bytes := ts.flatMap Turn.data

/-- accepted, and nothing read yet -/
def Fresh (s : Server) (id : Int) : Prop :=
  ∃ c, Sees s id c ∧ c.state = .handshake ∧ 0 ≤ c.sock ∧ c.buf = []

section
variable {acceptKey : Bytes → Bytes} {callback : Server → Server} {id : Int} {s : Server}
  {c : Client}

theorem Delivers.unique {ts : List Turn} {out out' : List Message}
    (h : Delivers acceptKey callback id s ts out) (h' : Delivers acceptKey callback id s ts out') :
    out = out' := by
  obtain ⟨N, hN⟩ := h
  obtain ⟨M, hM⟩ := h'
  obtain ⟨t, ht, rfl⟩ := hN (max N M) (Nat.le_max_left N M)
  obtain ⟨t', ht', rfl⟩ := hM (max N M) (Nat.le_max_right N M)
  rw [ht] at ht'
  rw [Option.some.inj ht']

theorem Delivers.nil : Delivers acceptKey callback id s [] (messages id s) :=
  ⟨0, fun n _ => ⟨s, rfl, rfl⟩⟩

/-- one turn, then the others -/
theorem Delivers.cons {t : Turn} {ts : List Turn} {u : Server} {out : List Message} {N : Nat}
    (hrun : ∀ n, N ≤ n → runFrames callback n
      ((t.meanwhile s).readClient acceptKey id t.data false t.sent).1
      ((t.meanwhile s).readClient acceptKey id t.data false t.sent).2 = some u)
    (h : Delivers acceptKey callback id u ts out) :
    Delivers acceptKey callback id s (t :: ts) out := by
  obtain ⟨M, hM⟩ := h
  refine ⟨max N M, fun n hn => ?_⟩
  obtain ⟨v, hv, hmv⟩ := hM n (Nat.le_trans (Nat.le_max_right N M) hn)
  refine ⟨v, ?_, hmv⟩
  show (runFrames callback n _ _).bind _ = _
  rw [hrun n (Nat.le_trans (Nat.le_max_left N M) hn)]
  exact hv

/-! ## an open client -/

theorem Ends.of_nil {future : Bytes} {ms : List Message} (h : Sees s id c)
    (hi : Idle c future ms) : Ends callback s [] id future ms := by
  refine ⟨0, s, c, [], ms, fun n _ => ?_, h, (List.append_nil _).symm, rfl, hi⟩
  cases n <;> rfl

/-- all has come -/
theorem Idle.done {ms : List Message} (h : Idle c [] ms) : ms = [] := by
  rcases h with ⟨st, fs, hs, hd⟩ | ⟨-, h⟩
  · have hbytes : c.buf = frameCodec.encs fs := by
      rw [← hs.bytes, List.append_nil]
    have hfs : fs = [] := frameCodec.done hbytes (by
      show (wsDecode c.buf).map _ = none
      rw [hd]
      rfl)
    have hr := hs.reads
    rw [hfs] at hr
    cases st <;> exact (Option.some.inj hr).symm
  · exact h

theorem messages_received (s : Server) (id h : Int) (data : Bytes) :
    messages id (s.emit (.received id h data)) = messages id s :=
  (messages_emit _ _ _).trans (List.append_nil _)

theorem idle_turn (acceptKey : Bytes → Bytes) (hcb : Spares id callback) {data todo : Bytes}
    {ms : List Message}
    (h : Sees s id c) (hi : Idle c (data ++ todo) ms) (sent : Int) :
    ∃ t k, s.readClient acceptKey id data false sent = (t, k) ∧ messages id t = messages id s ∧
      Ends callback t k id todo ms := by
  unfold Server.readClient
  rcases hi with ⟨st, fs, hs, hd⟩ | ⟨hneg, hms⟩
  · have h0 : ¬ s.sock id < 0 := by
      rw [h.sock]
      exact Int.not_lt.2 hs.sock
    have h1 := h.emit (.received id (s.sock id) data)
    rw [if_neg h0]
    by_cases hdata : data = []
    · simp only [if_pos hdata, if_neg Bool.false_ne_true]
      rw [hdata] at hs ⊢
      exact ⟨_, _, rfl, messages_received _ _ _ _, Ends.of_nil (h.emit _) (.inl ⟨st, fs, hs, hd⟩)⟩
    · have h2 := h1.modify fun c => { c with buf := c.buf ++ data }
      have hst : ¬ ((s.emit (.received id (s.sock id) data)).modify id fun c =>
          { c with buf := c.buf ++ data }).state id = .handshake := by
        rw [h2.state]
        show c.state ≠ .handshake
        rw [hs.opened]
        decide
      have hs2 : Syncs { c with buf := c.buf ++ data } st fs todo ms := by
        refine ⟨hs.opened, hs.sock, hs.begun, ?_, hs.reads⟩
        show c.buf ++ data ++ todo = _
        rw [List.append_assoc]
        exact hs.bytes
      simp only [if_neg hdata, Server.consume, if_neg hst]
      refine ⟨_, _, rfl, messages_received _ _ _ _, pump_spec hcb h2 hs2⟩
  · have h0 : s.sock id < 0 := by
      rw [h.sock]
      exact hneg
    rw [if_pos h0]
    exact ⟨s, [], rfl, rfl, Ends.of_nil h (.inr ⟨hneg, hms⟩)⟩

/-- **All turns of a client that is open or closed.** -/
theorem feed_idle (acceptKey : Bytes → Bytes) (hcb : Spares id callback) {ts : List Turn}
    (hts : ∀ t ∈ ts, Spares id t.meanwhile) {ms : List Message} (h : Sees s id c)
    (hi : Idle c (received ts) ms) :
    Delivers acceptKey callback id s ts (messages id s ++ ms) := by
  induction ts generalizing s c ms with
  | nil =>
    rw [hi.done, List.append_nil]
    exact Delivers.nil
  | cons t ts ih =>
    have hw := hts t List.mem_cons_self
    obtain ⟨u, k, hread, hmu, N, v, c', ds, ms', hrun, hsees, hmv, rfl, hidle⟩ :=
      idle_turn acceptKey hcb ((hw s).sees h)
        (show Idle c (t.data ++ received ts) ms from hi) t.sent
    have hrest := ih (fun t' ht => hts t' (List.mem_cons_of_mem t ht)) hsees hidle
    rw [hmv, hmu, (hw s).messages, List.append_assoc] at hrest
    apply Delivers.cons (N := N) (u := v) ?_ hrest
    rw [hread]
    exact hrun

/-! ## the request -/

/-- a part of the request has come -/
structure Greets (c : Client) (r : Request) (todo : Bytes) (fs : List ClientFrame) : Prop where
  state : c.state = .handshake
  sock : 0 ≤ c.sock
  part : c.buf.length < r.code.length
  small : c.buf.length ≤ 16384
  bytes : c.buf ++ todo = r.code ++ frameCodec.encs fs

/-- a turn that reads something while the request is not complete -/
theorem greet_read (acceptKey : Bytes → Bytes) {r : Request} {fs : List ClientFrame}
    {data todo : Bytes} (h : Sees s id c)
    (hg : Greets c r (data ++ todo) fs) (hne : data ≠ []) (sent : Int) :
    ∃ t, s.readClient acceptKey id data false sent = t.consume acceptKey id sent ∧
      Sees t id { c with buf := c.buf ++ data } ∧ messages id t = messages id s ∧
      t.state id = .handshake ∧
      strpos blankLine (t.buf id) = if r.code.length ≤ (c.buf ++ data).length then
        some (r.code.length - 4) else none := by
  have h0 : ¬ s.sock id < 0 := by
    rw [h.sock]
    exact Int.not_lt.2 hg.sock
  have h2 := (h.emit (.received id (s.sock id) data)).modify fun c =>
    { c with buf := c.buf ++ data }
  have hall : c.buf ++ data ++ todo = r.code ++ frameCodec.encs fs := by
    rw [List.append_assoc]
    exact hg.bytes
  have hpos := r.strpos_code (frameCodec.encs fs)
  rw [← hall] at hpos
  have h4 := r.four_le
  refine ⟨_, ?_, h2, messages_received _ _ _ _, h2.state.trans hg.state, ?_⟩
  · unfold Server.readClient
    rw [if_neg h0]
    simp only [if_neg hne]
  · rw [h2.buf]
    show strpos blankLine (c.buf ++ data) = _
    rw [strpos_of_append (by decide) hpos]
    have hl : blankLine.length = 4 := rfl
    rw [hl, Nat.sub_add_cancel h4]

/-- the request is still not complete -/
theorem greet_turn (acceptKey : Bytes → Bytes) {r : Request} {fs : List ClientFrame}
    {data todo : Bytes} (h : Sees s id c)
    (hg : Greets c r (data ++ todo) fs) (hpart : (c.buf ++ data).length < r.code.length)
    (hsmall : (c.buf ++ data).length ≤ 16384) (sent : Int) :
    ∃ t, s.readClient acceptKey id data false sent = (t, []) ∧ messages id t = messages id s ∧
      Sees t id { c with buf := c.buf ++ data } ∧
      Greets { c with buf := c.buf ++ data } r todo fs := by
  by_cases hne : data = []
  · have h0 : ¬ s.sock id < 0 := by
      rw [h.sock]
      exact Int.not_lt.2 hg.sock
    refine ⟨s.emit (.received id (s.sock id) data), ?_, messages_received _ _ _ _, ?_, ?_⟩
    · unfold Server.readClient
      rw [if_neg h0]
      simp only [if_pos hne, if_neg Bool.false_ne_true]
    · rw [hne, List.append_nil]
      exact h.emit _
    · rw [hne] at hg ⊢
      rw [List.append_nil]
      exact hg
  · obtain ⟨t, hread, hst, hmt, hstate, hpos⟩ :=
      greet_read acceptKey h hg hne sent
    rw [if_neg (by omega)] at hpos
    refine ⟨t, ?_, hmt, hst, hg.state, hg.sock, hpart, hsmall, ?_⟩
    · rw [hread]
      unfold Server.consume
      rw [if_pos hstate]
      simp only [hpos]
      rw [if_neg]
      rw [hst.buf]
      exact Nat.not_lt.2 hsmall
    · show c.buf ++ data ++ todo = _
      rw [List.append_assoc]
      exact hg.bytes

/-- the request is not complete, and too much of it is there -/
theorem cut_turn (acceptKey : Bytes → Bytes) {r : Request} {fs : List ClientFrame}
    {data todo : Bytes} (h : Sees s id c)
    (hg : Greets c r (data ++ todo) fs) (hpart : (c.buf ++ data).length < r.code.length)
    (hlarge : 16384 < (c.buf ++ data).length) (sent : Int) :
    ∃ t, s.readClient acceptKey id data false sent = t.drop id 1002 ∧
      messages id t = messages id s ∧ Sees t id { c with buf := c.buf ++ data } := by
  have hne : data ≠ [] := by
    rintro rfl
    have hs := hg.small
    rw [List.append_nil] at hlarge
    omega
  obtain ⟨t, hread, hst, hmt, hstate, hpos⟩ := greet_read acceptKey h hg hne sent
  rw [if_neg (by omega)] at hpos
  refine ⟨t, ?_, hmt, hst⟩
  rw [hread]
  unfold Server.consume
  rw [if_pos hstate]
  simp only [hpos]
  rw [if_pos]
  rw [hst.buf]
  exact hlarge

/-- the request is complete -/
theorem hello_turn (acceptKey : Bytes → Bytes) (hcb : Spares id callback) {r : Request}
    {fs : List ClientFrame}
    {data todo : Bytes} {ms : List Message} (h : Sees s id c) (hg : Greets c r (data ++ todo) fs)
    (hall : r.code.length ≤ (c.buf ++ data).length) (hdata : data.length ≤ 65536)
    (hms : reassemble none fs = some ms) {sent : Int} (hsent : 0 < sent) :
    ∃ t k, s.readClient acceptKey id data false sent = (t, k) ∧ messages id t = messages id s ∧
      Ends callback t k id todo ms := by
  have hne : data ≠ [] := by
    rintro rfl
    have hp := hg.part
    rw [List.append_nil] at hall
    omega
  obtain ⟨t, hread, hst, hmt, hstate, hpos⟩ := greet_read acceptKey h hg hne sent
  rw [if_pos hall] at hpos
  have h4 := r.four_le
  have hbuf : t.buf id = c.buf ++ data := hst.buf
  obtain ⟨rest, hrest⟩ : ∃ rest, c.buf ++ data = r.code ++ rest := by
    have hpre : r.code <+: c.buf ++ data := by
      have hp1 : r.code <+: r.code ++ frameCodec.encs fs := List.prefix_append _ _
      have hp2 : c.buf ++ data <+: r.code ++ frameCodec.encs fs := by
        rw [← hg.bytes, ← List.append_assoc]
        exact List.prefix_append _ _
      exact List.prefix_of_prefix_length_le hp1 hp2 hall
    obtain ⟨rest, hrest⟩ := hpre
    exact ⟨rest, hrest.symm⟩
  have hlt : r.code.length < 2 ^ 63 := by
    have hs := hg.small
    rw [List.length_append] at hall
    omega
  have hhead : hpbiSubstr (t.buf id) 0 (some (r.code.length - 4 + 4 : Nat)) = r.code := by
    rw [hbuf, Nat.sub_add_cancel h4, hrest]
    have htake := hpbiSubstr_take (s := r.code ++ rest) (a := 0) (k := r.code.length)
      (by rw [List.length_append]; omega) (by omega)
    rw [List.drop_zero, List.take_left] at htake
    exact htake
  have htail : hpbiSubstr (t.buf id) (r.code.length - 4 + 4 : Nat) none = rest := by
    rw [hbuf, Nat.sub_add_cancel h4, hrest, hpbiSubstr_drop (by rw [List.length_append]; omega),
      List.drop_left]
  have h1 := hst.emit (.sent id (t.sock id) (wsUpgradeResponse (acceptKey (wsRequestKey r.code))))
  have h2 := h1.modify fun c => { c with state := .opened, buf := rest, frag := [] }
  have hsync : Syncs { c with state := .opened, buf := rest, frag := [] } none fs todo ms := by
    refine ⟨rfl, hg.sock, begun_none _, ?_, hms⟩
    have hb := hg.bytes
    rw [← List.append_assoc, hrest, List.append_assoc] at hb
    exact List.append_cancel_left hb
  have hshake : t.handshake acceptKey id r.code sent = ((t.emit (.sent id (t.sock id)
      (wsUpgradeResponse (acceptKey (wsRequestKey r.code)))), []), true) := by
    unfold Server.handshake
    simp only [if_neg r.key_ne, if_neg (Int.not_le.2 hsent)]
  rw [hread]
  unfold Server.consume
  rw [if_pos hstate]
  simp only [hpos, hhead, htail, hshake, if_pos]
  unfold Server.upgrade
  simp only
  have hm2 : messages id ((t.emit (.sent id (t.sock id)
      (wsUpgradeResponse (acceptKey (wsRequestKey r.code))))).modify id fun c =>
        { c with state := .opened, buf := rest, frag := [] }) = messages id s :=
    (messages_emit _ _ _).trans ((List.append_nil _).trans hmt)
  split
  · refine ⟨_, _, rfl, ?_, ?_⟩
    · rw [messages_emit, hm2]
      exact List.append_nil _
    · have h3 := (hcb _).sees (h2.emit (.onOpen id))
      refine (pump_spec hcb h3 hsync).after (m := 1) (fun n => rfl) ?_ (List.nil_append ms).symm
      rw [(hcb _).messages, List.append_nil]
  · exact ⟨_, _, rfl, hm2, pump_spec hcb h2 hsync⟩

/-! ## all turns -/

/-- no turn leaves the client with more than 16384 bytes of a request that is not complete; it has
`b` already -/
def NoCut (b : Bytes) (r : Request) (ts : List Turn) : Prop :=
  ∀ p, p <+: ts → ¬ (16384 < (b ++ received p).length ∧ (b ++ received p).length < r.code.length)

theorem received_cons (b : Bytes) (t : Turn) (ts : List Turn) :
    b ++ received (t :: ts) = b ++ t.data ++ received ts := by
  rw [List.append_assoc]
  rfl

/-- the first turn and the others -/
theorem NoCut.cons {b : Bytes} {r : Request} {t : Turn} {ts : List Turn}
    (h : NoCut b r (t :: ts)) : NoCut (b ++ t.data) r ts := by
  intro p hp
  have h1 := h (t :: p) (List.cons_prefix_cons.2 ⟨rfl, hp⟩)
  rwa [received_cons] at h1

theorem feed_greets (acceptKey : Bytes → Bytes) (hcb : Spares id callback) {r : Request}
    {fs : List ClientFrame}
    {ms : List Message} (hms : reassemble none fs = some ms) {ts : List Turn}
    (hts : ∀ t ∈ ts, Spares id t.meanwhile ∧ 0 < t.sent) (h : Sees s id c)
    (hg : Greets c r (received ts) fs) (hcut : NoCut c.buf r ts) :
    Delivers acceptKey callback id s ts (messages id s ++ ms) := by
  induction ts generalizing s c with
  | nil =>
    have hb := congrArg List.length hg.bytes
    have hp := hg.part
    rw [show received [] = [] from rfl, List.append_nil, List.length_append] at hb
    omega
  | cons t ts ih =>
    obtain ⟨hw, hsent⟩ := hts t List.mem_cons_self
    have hts' := fun t' ht => hts t' (List.mem_cons_of_mem t ht)
    have hg' : Greets c r (t.data ++ received ts) fs := hg
    by_cases hall : r.code.length ≤ (c.buf ++ t.data).length
    · obtain ⟨u, k, hread, hmu, N, v, c', ds, ms', hrun, hsees, hmv, rfl, hidle⟩ :=
        hello_turn acceptKey hcb ((hw s).sees h) hg' hall
          t.data_le hms hsent
      have hrest := feed_idle acceptKey hcb (fun t' ht => (hts' t' ht).1) hsees
        hidle
      rw [hmv, hmu, (hw s).messages, List.append_assoc] at hrest
      apply Delivers.cons (N := N) (u := v) ?_ hrest
      rw [hread]
      exact hrun
    · have hpart := Nat.lt_of_not_le hall
      have hsmall : (c.buf ++ t.data).length ≤ 16384 := by
        have h1 := hcut [t] (List.cons_prefix_cons.2 ⟨rfl, List.nil_prefix⟩)
        have hone : c.buf ++ received [t] = c.buf ++ t.data := by
          rw [received_cons]
          exact List.append_nil _
        rw [hone] at h1
        omega
      obtain ⟨u, hread, hmu, hsees, hgreets⟩ := greet_turn acceptKey
        ((hw s).sees h) hg' hpart hsmall t.sent
      have hrest := ih hts' hsees hgreets hcut.cons
      rw [hmu, (hw s).messages] at hrest
      apply Delivers.cons (N := 0) (u := u) (fun n _ => ?_) hrest
      rw [hread]
      cases n <;> rfl

/-- **The head that is given up**: nothing is delivered. -/
theorem feed_cut (acceptKey : Bytes → Bytes) (hcb : Spares id callback) {r : Request}
    {fs : List ClientFrame}
    {ts : List Turn} (hts : ∀ t ∈ ts, Spares id t.meanwhile) (h : Sees s id c)
    (hg : Greets c r (received ts) fs) (hcut : ¬ NoCut c.buf r ts) :
    Delivers acceptKey callback id s ts (messages id s) := by
  induction ts generalizing s c with
  | nil =>
    exfalso
    apply hcut
    intro p hp hlt
    rw [List.prefix_nil.1 hp, show received [] = [] from rfl, List.append_nil] at hlt
    have hs := hg.small
    omega
  | cons t ts ih =>
    have hw := hts t List.mem_cons_self
    have hts' := fun t' ht => hts t' (List.mem_cons_of_mem t ht)
    have hg' : Greets c r (t.data ++ received ts) fs := hg
    obtain ⟨p, hp, hlarge, hpart⟩ : ∃ p, p <+: t :: ts ∧
        16384 < (c.buf ++ received p).length ∧ (c.buf ++ received p).length < r.code.length := by
      by_contra hno
      exact hcut fun p hp hlt => hno ⟨p, hp, hlt⟩
    cases p with
    | nil =>
      rw [show received [] = [] from rfl, List.append_nil] at hlarge
      have hs := hg.small
      omega
    | cons t' p =>
      obtain ⟨rfl, hp'⟩ := List.cons_prefix_cons.1 hp
      rw [received_cons] at hlarge hpart
      have hpart' : (c.buf ++ t'.data).length < r.code.length := by
        rw [List.length_append] at hpart
        omega
      by_cases hsmall : (c.buf ++ t'.data).length ≤ 16384
      · obtain ⟨u, hread, hmu, hsees, hgreets⟩ := greet_turn acceptKey
          ((hw s).sees h) hg' hpart' hsmall t'.sent
        have hrest := ih hts' hsees hgreets fun hno => hno p hp' ⟨hlarge, hpart⟩
        rw [hmu, (hw s).messages] at hrest
        apply Delivers.cons (N := 0) (u := u) (fun n _ => ?_) hrest
        rw [hread]
        cases n <;> rfl
      · obtain ⟨u, hread, hmu, hsees⟩ := cut_turn acceptKey
          ((hw s).sees h) hg' hpart' (Nat.lt_of_not_le hsmall) t'.sent
        obtain ⟨v, hrun, hv, hmv⟩ := drop_run hcb hsees 1002
        have hclosed : Idle (Server.dropped { c with buf := c.buf ++ t'.data }) (received ts) [] :=
          .inr ⟨show (-1 : Int) < 0 by decide, rfl⟩
        have hrest := feed_idle acceptKey hcb hts' hv hclosed
        rw [hmv, hmu, (hw s).messages, List.append_nil] at hrest
        apply Delivers.cons (N := 1) (u := v) ?_ hrest
        rw [hread]
        exact hrun

theorem Fresh.greets {r : Request} {todo : Bytes} {fs : List ClientFrame} (h : Fresh s id)
    (hb : todo = r.code ++ frameCodec.encs fs) :
    ∃ c, Sees s id c ∧ c.buf = [] ∧ Greets c r todo fs := by
  obtain ⟨c, hc, hst, h0, hbuf⟩ := h
  have h4 := r.four_le
  refine ⟨c, hc, hbuf, hst, h0, ?_, ?_, ?_⟩
  · rw [hbuf]
    exact Nat.lt_of_lt_of_le (by decide) h4
  · rw [hbuf]
    exact Nat.zero_le _
  · rw [hbuf, hb]
    rfl

/-- **Delivery.**  A client sends an upgrade request and frames, in pieces; in between the program
and the other clients do what they like, but leave this client alone.  Then the closures are given
the messages of the frames, if and only if no turn leaves more than 16384 bytes of a request that
is not complete (or there are no messages). -/
theorem delivered_iff (hcb : Spares id callback) (hnew : Fresh s id) {r : Request}
    {fs : List ClientFrame} {ms : List Message} (hms : reassemble none fs = some ms)
    {ts : List Turn} (hts : ∀ t ∈ ts, Spares id t.meanwhile ∧ 0 < t.sent)
    (hbytes : received ts = r.code ++ frameCodec.encs fs) :
    Delivers acceptKey callback id s ts (messages id s ++ ms) ↔ NoCut [] r ts ∨ ms = [] := by
  obtain ⟨c, hc, hbuf, hg⟩ := hnew.greets hbytes
  have hyes := feed_greets acceptKey hcb hms hts hc hg
  have hno := feed_cut acceptKey hcb (fun t ht => (hts t ht).1) hc hg
  rw [hbuf] at hyes hno
  constructor
  · intro h
    by_cases hcut : NoCut [] r ts
    · exact .inl hcut
    · right
      exact List.append_cancel_left ((h.unique (hno hcut)).trans (List.append_nil _).symm)
  · rintro (hcut | rfl)
    · exact hyes hcut
    · by_cases hcut : NoCut [] r ts
      · exact hyes hcut
      · rw [List.append_nil]
        exact hno hcut

end

/-! ## a request in two pieces -/

/-- an upgrade request with one more field -/
def hello (value : Bytes) (h : 13 ∉ value) : Request where
  target := ascii "/chat HTTP/1.1"
  fields := [{ name := ascii "X", value := value },
    { name := ascii "Sec-WebSocket-Key", value := ascii " dGhlIHNhbXBsZSBub25jZQ==" }]
  target_line := by decide
  field_line := by
    intro f hf
    rcases List.mem_cons.1 hf with rfl | hf
    · exact h
    · rw [List.mem_singleton.1 hf]
      decide
  field_name := by
    intro f hf
    rcases List.mem_cons.1 hf with rfl | hf
    · show 58 ∉ ascii "X" ∧ ∀ c ∈ ascii "X", isWs c = false
      exact ⟨by decide, List.all_iff_forall_prop.1 rfl⟩
    · rw [List.mem_singleton.1 hf]
      exact ⟨by decide, List.all_iff_forall_prop.1 rfl⟩
  has_key := ⟨_, List.mem_cons_of_mem _ List.mem_cons_self, rfl⟩
  key_value := by
    intro f hf hk
    rcases List.mem_cons.1 hf with rfl | hf
    · exact absurd hk (show hpStrTolower (ascii "X") ≠ keyName by decide)
    · rw [List.mem_singleton.1 hf]
      exact ⟨100, by decide, rfl⟩

/-- a message in two fragments with a ping between them -/
def fragments : List ClientFrame :=
  [{ fin := false, opcode := 1, mask := some ⟨37, 60, 11, 99⟩, payload := ascii "Hel",
     opcode_lt := by decide, fits := by decide },
   { fin := true, opcode := 9, mask := none, payload := [], opcode_lt := by decide,
     fits := by decide },
   { fin := true, opcode := 0, mask := some ⟨1, 2, 3, 4⟩, payload := ascii "lo",
     opcode_lt := by decide, fits := by decide }]

/-- a server with one new client -/
def oneClient : Server :=
  { (initial 3).server with onMessage := true, onBinary := true }.acceptOne 4 []

theorem oneClient_fresh : Fresh oneClient 1 :=
  ⟨_, ⟨rfl, rfl, rfl⟩, rfl, by decide, rfl⟩

/-- a closure that sends to all clients -/
def chat (s : Server) : Server := (s.call (.broadcast (ascii "hi") 0 fun _ => 1)).1

/-- the stream in two pieces, the first of `n` bytes -/
def pieces (n : Nat) (stream : Bytes) (h1 : n ≤ 65536) (h2 : stream.length ≤ n + 65536) :
    List Turn :=
  [{ meanwhile := fun s => s, data := stream.take n, sent := 100,
     data_le := Nat.le_trans (List.length_take_le n stream) h1 },
   { meanwhile := chat, data := stream.drop n, sent := 100,
     data_le := by rw [List.length_drop]; omega }]

theorem received_pieces (n : Nat) (stream : Bytes) (h1 : n ≤ 65536)
    (h2 : stream.length ≤ n + 65536) : received (pieces n stream h1 h2) = stream := by
  show stream.take n ++ (stream.drop n ++ []) = stream
  rw [List.append_nil, List.take_append_drop]

theorem received_first (n : Nat) (stream : Bytes) (h1 : n ≤ 65536)
    (h2 : stream.length ≤ n + 65536) :
    [] ++ received ((pieces n stream h1 h2).take 1) = stream.take n :=
  List.append_nil (stream.take n)

theorem chat_spares (id : Int) : Spares id chat := call_spares rfl

theorem pieces_spare {id : Int} {n : Nat} {stream : Bytes} (h1 : n ≤ 65536)
    (h2 : stream.length ≤ n + 65536) :
    ∀ t ∈ pieces n stream h1 h2, Spares id t.meanwhile ∧ 0 < t.sent := by
  intro t ht
  rcases List.mem_cons.1 ht with rfl | ht
  · exact ⟨Same.refl, show (0 : Int) < 100 by decide⟩
  · rw [List.mem_singleton.1 ht]
    exact ⟨chat_spares id, show (0 : Int) < 100 by decide⟩

theorem hello_length (value : Bytes) (h : 13 ∉ value) :
    (hello value h).code.length = value.length + 71 := by
  simp only [Request.code, codeLines, Request.lines, hello, Field.line, List.map_cons,
    List.map_nil, List.flatMap_cons, List.flatMap_nil, List.length_append, List.length_cons,
    List.length_nil]
  have h1 : (ascii "GET ").length = 4 := rfl
  have h2 : (ascii "/chat HTTP/1.1").length = 14 := rfl
  have h3 : (ascii "X").length = 1 := rfl
  have h4 : (ascii "Sec-WebSocket-Key").length = 17 := rfl
  have h5 : (ascii " dGhlIHNhbXBsZSBub25jZQ==").length = 25 := rfl
  omega

/-- a short request, cut in the first line -/
def shortStream : Bytes := (hello [] (by decide)).code ++ frameCodec.encs fragments

/-- **The message of `fragments` is delivered.** -/
theorem delivered_short : Delivers (fun _ => []) chat 1 oneClient
    (pieces 10 shortStream (by decide) (by decide)) [(1, ascii "Hello")] := by
  refine (delivered_iff (chat_spares 1) oneClient_fresh rfl (pieces_spare _ _)
    (received_pieces 10 shortStream _ _)).2 (.inl ?_)
  intro p _ h
  have hlen := hello_length [] (by decide)
  rw [List.length_nil] at hlen
  omega

/-- a request that is longer than the part of one may be -/
def long : Request := hello (List.replicate 16384 97) fun h => by
  have he := List.eq_of_mem_replicate h
  cases he

def longStream : Bytes := long.code ++ frameCodec.encs fragments

theorem long_length : long.code.length = 16455 := by
  show (hello (List.replicate 16384 97) _).code.length = 16455
  rw [hello_length, List.length_replicate]

theorem longStream_length : longStream.length ≤ 16400 + 65536 := by
  have hframes : (frameCodec.encs fragments).length = 19 := rfl
  rw [longStream, List.length_append, long_length, hframes]
  decide

/-- **It is not delivered when the request comes in two pieces**, although it is when it comes in
one. -/
theorem not_delivered_long : ¬ Delivers (fun _ => []) chat 1 oneClient
    (pieces 16400 longStream (by decide) longStream_length) [(1, ascii "Hello")] := by
  have hbytes := received_pieces 16400 longStream (by decide) longStream_length
  obtain ⟨c, hc, hbuf, hg⟩ := oneClient_fresh.greets hbytes
  intro h
  have hno := feed_cut (fun _ => []) (chat_spares 1)
    (fun t ht => (pieces_spare _ _ t ht).1) hc hg ?_
  · cases h.unique hno
  · intro hcut
    rw [hbuf] at hcut
    apply hcut ((pieces 16400 longStream (by decide) longStream_length).take 1)
      (List.take_prefix 1 _)
    have hlen : (longStream.take 16400).length = 16400 := by
      rw [List.length_take, longStream, List.length_append, long_length]
      omega
    rw [received_first, hlen, long_length]
    decide

end Websocket
end HolyPhp
