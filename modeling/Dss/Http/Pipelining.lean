import Dss.Http.Bounded
import Dss.Http.Persistence

/-!
# Requests on a persistent connection

A server session whose peer sends one request after the other, without waiting
for the responses (`OrderlyPeer`). The header of a request is read as far as the
socket has bytes, and where these go beyond the request the session reports an
error; the rest of a body is read up to its end. So how the requests are cut into
socket reads matters: of two requests in one read the session handles none, of
the same two requests in two reads it handles both (`segmentation_dependent`).

What it handles in any run are the first requests of the `conversation`, all of
them unless a header read crosses the end of a request; so the cuts do not matter
among those at which no read takes bytes of two requests
(`segmentation_independent`).
-/

namespace Dss.Http

open Dss.Lib WireMessage

/-- The connection is left open after the `k`-th request `req`. -/
def Service.keepsOpen (sv : Service) (k : ℕ) (req : Request) : Bool :=
  (ServerSession.answer req (sv.handler k req)).2

/-- The requests handled of those accepted on a connection, from the `k`-th on:
    all up to the first one after which the connection is closed. -/
def conversation (sv : Service) (k : ℕ) : List Request → List Request
  | [] => []
  | req :: reqs => req :: if sv.keepsOpen k req then conversation sv (k + 1) reqs else []

/-- The steps of a server session whose peer sends the messages `ps`, whose timer
    does not expire and whose operations do not fail on their own. -/
def OrderlyPeer (ps : List WireMessage) (s : ServerSession) (e : IoEvent) : Prop :=
  Orderly ps s.world (.io e)

/-- Such a step, if it is no socket read beyond the end of the message being
    read. -/
def Segmented (ps : List WireMessage) (s : ServerSession) : IoEvent → Prop
  | .recv _ n => s.world.taken.length + n ≤ (upToNext ps s.world).length
  | e => OrderlyPeer ps s e

instance (ps : List WireMessage) (s : ServerSession) : ∀ e, Decidable (OrderlyPeer ps s e)
  | .arrive bytes =>
    inferInstanceAs (Decidable (bytes ≠ [] ∧ s.world.stream ++ bytes <+: stream ps))
  | .fail _ _ | .expire => inferInstanceAs (Decidable False)
  | .recv _ _ | .sent _ | .runOp _ | .runWait _ => inferInstanceAs (Decidable True)

instance (ps : List WireMessage) (s : ServerSession) : ∀ e, Decidable (Segmented ps s e)
  | .recv _ n => inferInstanceAs (Decidable (s.world.taken.length + n ≤ _))
  | .arrive bytes => inferInstanceAs (Decidable (OrderlyPeer ps s (.arrive bytes)))
  | .fail _ _ | .expire => inferInstanceAs (Decidable False)
  | .sent _ | .runOp _ | .runWait _ => inferInstanceAs (Decidable True)

theorem Segmented.orderlyPeer {ps : List WireMessage} (s : ServerSession) (e : IoEvent)
    (h : Segmented ps s e) : OrderlyPeer ps s e := by
  cases e with
  | recv => exact trivial
  | _ => exact h

/-- The connection is left open after each of the requests. -/
def Service.KeepsOpen (sv : Service) (reqs : List Request) : Prop :=
  ∀ k req, reqs[k]? = some req → sv.keepsOpen k req

variable {sv : Service} {cfg : HttpConfiguration} {ps : List WireMessage} {reqs rest : List Request}
  {req : Request} {k : ℕ}

/-- As long as the connection is left open, the conversation goes on. -/
theorem conversation_append (h : ∀ i req, reqs[i]? = some req → sv.keepsOpen (k + i) req) :
    conversation sv k (reqs ++ rest) = reqs ++ conversation sv (k + reqs.length) rest := by
  induction reqs generalizing k with
  | nil => rfl
  | cons req reqs ih =>
    have hfirst : sv.keepsOpen k req := by simpa using h 0 req rfl
    have hrest := ih (k := k + 1) fun i r hr => by
      simpa [Nat.add_assoc, Nat.add_comm 1 i] using h (i + 1) r (by simpa using hr)
    rw [List.cons_append, conversation, if_pos hfirst, hrest, List.length_cons, List.cons_append,
      Nat.add_assoc, Nat.add_comm 1]

theorem Service.KeepsOpen.conversation_append (h : sv.KeepsOpen reqs) (rest : List Request) :
    conversation sv 0 (reqs ++ rest) = reqs ++ conversation sv reqs.length rest := by
  have : conversation sv 0 (reqs ++ rest) = reqs ++ conversation sv (0 + reqs.length) rest :=
    Dss.Http.conversation_append fun i req hr => by simpa using h i req hr
  simpa using this

theorem Service.KeepsOpen.snoc (h : sv.KeepsOpen reqs) (hreq : sv.keepsOpen reqs.length req) :
    sv.KeepsOpen (reqs ++ [req]) := by
  intro k r hr
  rw [List.getElem?_append] at hr
  split at hr
  next => exact h k r hr
  next hge =>
    obtain ⟨hk, hr⟩ := List.getElem?_eq_some_iff.1 hr
    simp only [List.length_singleton] at hk
    obtain rfl : k = reqs.length := by omega
    simp only [List.getElem_singleton] at hr
    rwa [← hr]

/-! ## The phases of a server session -/

/-- What a server session is doing, with the requests handled until then. -/
inductive ServerPhase (sv : Service) (s : ServerSession) : Prop
  | reading (o : Op RequestLine) : s.world.session.isOpen → s.world.session.ops = [o] → o.isRead →
      sv.KeepsOpen s.handled → ServerPhase sv s
  | writing (o : Op RequestLine) (reqs : List Request) (req : Request) : s.world.session.isOpen →
      s.world.session.ops = [o] → o.isRead = false → s.handled = reqs ++ [req] →
      sv.KeepsOpen reqs → s.keepAlive = sv.keepsOpen reqs.length req → ServerPhase sv s
  | closed (reqs : List Request) (req : Request) : s.world.session.isOpen = false →
      s.world.session.ops = [] → s.handled = reqs ++ [req] → sv.KeepsOpen reqs →
      sv.keepsOpen reqs.length req = false → ServerPhase sv s
  | failed : s.world.session.isOpen = false → s.world.session.ops = [] → s.world.errors ≠ [] →
      sv.KeepsOpen s.handled → ServerPhase sv s

/-- The invariant of the runs with an orderly peer. -/
structure ServerState (sv : Service) (cfg : HttpConfiguration) (ps : List WireMessage)
    (s : ServerSession) : Prop where
  orderly : OrderlyState cfg ps s.world
  handled : s.handled = s.world.delivered.map (·.msg)
  phase : ServerPhase sv s

section

variable {L : Type} [StartLine L] {w w' : World L} {e : IoEvent} {hook : Option (HookCall L)}

/-- Only socket reads take bytes. -/
theorem taken_io (hio : World.Io w e w' hook) : w'.taken = w.taken ∨
    ∃ id n, e = .recv id n ∧ w'.taken.length = w.taken.length + n := by
  cases hio with
  | @recvUntil o n _ _ _ _ _ hle | @recvExactly o n _ _ _ _ _ _ _ hle =>
    exact .inr ⟨o.id, n, rfl, by simp [World.setOp, World.take, hle]⟩
  | arrive | fail | sent | expire | aborted | headersRead | headersParsed | bodyRead | written
  | waitOver | failed | timedOut => exact .inl rfl

end

namespace OrderlyState

variable {L : Type} [StartLine L] {w w' : World L} {o : Op L} {e : IoEvent}
  {hook : Option (HookCall L)}

omit [StartLine L] in
theorem ops_setOp (hops : w.session.ops = [o]) (kind : OpKind L) (progress : Progress) :
    (w.setOp o.id kind progress).session.ops = [⟨o.id, kind, progress⟩] := by
  simp [World.setOp, Session.setOp, hops]

omit [StartLine L] in
theorem ops_reading (hops : w.session.ops = []) (remaining : ℕ) (msg : Message L) :
    ∃ o, (w.reading remaining msg).session.ops = [o] ∧ o.isRead :=
  ⟨_, by rw [World.reading, Session.doRemainingRead_ops, hops, List.nil_append], rfl⟩

/-- An event while one operation is under way: the operation goes on, or it is
    over and a hook is called. -/
theorem io_of_single (h : OrderlyState cfg ps w) (hopen : w.session.isOpen)
    (hops : w.session.ops = [o]) (hok : Orderly ps w (.io e)) (hio : World.Io w e w' hook) :
    w'.session.isOpen = w.session.isOpen ∧
    ((hook = none ∧ w'.delivered = w.delivered ∧
      ∃ o', w'.session.ops = [o'] ∧ o'.isRead = o.isRead) ∨
    (w'.session.ops = [] ∧
      ((∃ msg g, hook = some ⟨.messageParsed msg, g⟩ ∧ o.isRead ∧
        w'.delivered.map (·.msg) = w.delivered.map (·.msg) ++ [msg]) ∨
      (∃ g, hook = some ⟨.writeComplete, g⟩ ∧ o.isRead = false ∧ w'.delivered = w.delivered) ∨
      ∃ c g, hook = some ⟨.error c, g⟩ ∧ o.isRead ∧ w'.errors ≠ [] ∧
        w'.delivered = w.delivered))) := by
  have hsound := (h.running hopen).2
  have hone : ∀ {p}, p ∈ w.session.ops → o = p := fun hp => by simpa [hops, eq_comm] using hp
  -- after its handler nothing is under way
  have hover : ∀ {p}, p ∈ w.session.ops → w.session.ops.filter (·.id ≠ p.id) = [] := by
    intro p hp
    rw [← hone hp, hops]
    simp
  cases hio with
  | arrive | waitOver => exact ⟨rfl, .inl ⟨rfl, rfl, o, hops, rfl⟩⟩
  | recvUntil hp hk =>
    obtain rfl := hone hp
    exact ⟨rfl, .inl ⟨rfl, rfl, _, ops_setOp (w := w.take _) hops _ _,
      (Op.isRead_of_readUntil hk).symm⟩⟩
  | recvExactly hp hk =>
    obtain rfl := hone hp
    exact ⟨rfl, .inl ⟨rfl, rfl, _, ops_setOp (w := w.take _) hops _ _,
      (Op.isRead_of_readExactly hk).symm⟩⟩
  | fail | expire => exact hok.elim
  | sent hp =>
    obtain rfl := hone hp
    exact ⟨rfl, .inl ⟨rfl, rfl, _, ops_setOp hops _ _, rfl⟩⟩
  | aborted hp _ habort => simpa [Op.Sound, habort] using hsound _ hp
  | headersRead hp hk =>
    obtain rfl := hone hp
    obtain ⟨o', ho', hread⟩ := ops_reading (w := (w.handling o).withBuffer []) (hover hp) _ _
    exact ⟨rfl, .inl ⟨rfl, rfl, o', ho', hread.trans (Op.isRead_of_readUntil hk).symm⟩⟩
  | headersParsed hp hk =>
    obtain rfl := hone hp
    exact ⟨rfl, .inr ⟨hover hp, .inl ⟨_, _, rfl, Op.isRead_of_readUntil hk,
      by simp [World.record, World.withBuffer, World.handling]⟩⟩⟩
  | bodyRead hp hk =>
    obtain rfl := hone hp
    exact ⟨rfl, .inr ⟨hover hp, .inl ⟨_, _, rfl, Op.isRead_of_readExactly hk,
      by simp [World.record, World.withBuffer, World.handling]⟩⟩⟩
  | written hp hr =>
    obtain rfl := hone hp
    exact ⟨rfl, .inr ⟨hover hp, .inr (.inl ⟨_, rfl, hr, rfl⟩)⟩⟩
  | failed hp hdone _ hwhy =>
    obtain rfl := hone hp
    -- no other operation fails with an orderly peer
    have hk : o.kind = .readUntil := by
      rcases hsound o hp with hpending | hnone | ⟨hk, -⟩
      · rw [hdone] at hpending
        cases hpending
      · rw [hdone, Progress.done.injEq] at hnone
        exact (hwhy hnone).1
      · exact hk
    exact ⟨rfl, .inr ⟨hover hp, .inr (.inr ⟨_, _, rfl, Op.isRead_of_readUntil hk,
      by simp [World.record], rfl⟩)⟩⟩
  | timedOut hv hfired => exact absurd hfired (h.waits _ hv)

/-- An event while no operation is under way changes nothing. -/
theorem io_of_none (h : OrderlyState cfg ps w) (hops : w.session.ops = [])
    (hio : World.Io w e w' hook) : hook = none ∧ w'.session.isOpen = w.session.isOpen ∧
      w'.session.ops = [] ∧ w'.errors = w.errors ∧ w'.delivered = w.delivered := by
  cases hio with
  | arrive | expire | waitOver => exact ⟨rfl, rfl, hops, rfl, rfl⟩
  | timedOut hv hfired => exact absurd hfired (h.waits _ hv)
  | recvUntil hp | recvExactly hp | fail hp | sent hp | aborted hp | headersRead hp
  | headersParsed hp | bodyRead hp | written hp | failed hp =>
    rw [hops] at hp
    cases hp

end OrderlyState

namespace ServerState

variable {s t : ServerSession} {e : IoEvent}

theorem start (sv : Service) (cfg : HttpConfiguration) (ps : List WireMessage) :
    ServerState sv cfg ps (ServerSession.start cfg) where
  orderly := (OrderlyState.fresh cfg ps).doRead rfl (by simp [World.fresh])
  handled := rfl
  phase := .reading _ rfl rfl rfl (by simp [Service.KeepsOpen, ServerSession.start])

/-- The requests handled are the first ones accepted. -/
theorem exists_served (hps : ∀ p ∈ ps, p.WellFormed RequestLine) (h : ServerState sv cfg ps s) :
    ∃ rest, served cfg ps = s.handled ++ rest := by
  rw [h.handled, (h.orderly.delivered hps).1]
  exact ⟨_, (List.take_append_drop _ _).symm⟩

/-- A step with an orderly peer keeps the invariant. -/
theorem step (hps : ∀ p ∈ ps, p.WellFormed RequestLine) (h : ServerState sv cfg ps s)
    (hok : OrderlyPeer ps s e) (hs : ServerSession.step sv s e = some t) :
    ServerState sv cfg ps t := by
  obtain ⟨w, hook, hio, hcase⟩ := ServerSession.step_cases hs
  have hio := World.io_cases hio
  have horderly := h.orderly.io hps hok hio
  cases h.phase with
  | reading o hopen hops hread hkeeps =>
    obtain ⟨hopen', ⟨rfl, hdel, o', hops', hread'⟩ | ⟨hops', ⟨msg, g, rfl, -, hdel⟩ |
      ⟨g, rfl, hwrite, -⟩ | ⟨c, g, rfl, -, herrors, hdel⟩⟩⟩ :=
        h.orderly.io_of_single hopen hops hok hio
    · obtain rfl : t = { s with world := w } := by simpa using hcase
      exact ⟨horderly, by rw [hdel]; exact h.handled,
        .reading o' (hopen'.trans hopen) hops' (hread'.trans hread) hkeeps⟩
    · -- a request is handled, and its response written
      obtain rfl : t = ServerSession.onMessageParsed sv { s with world := w } msg := by
        simpa using hcase
      exact {
        orderly := horderly.doWrite (hopen'.trans hopen) _
        handled := by simp [ServerSession.onMessageParsed, World.call, hdel, h.handled]
        phase := .writing _ s.handled msg (hopen'.trans hopen)
          (by simp [ServerSession.onMessageParsed, World.call, hops']; rfl) rfl rfl hkeeps rfl }
    · rw [hread] at hwrite
      cases hwrite
    · obtain rfl : t = { s with world := w.call .shutdown } := by simpa using hcase
      exact ⟨horderly, by rw [h.handled, ← hdel]; rfl, .failed (by simp [World.call])
        (by simp [World.call, hops']) herrors hkeeps⟩
  | writing o reqs req hopen hops hwrite hreqs hkeeps halive =>
    obtain ⟨hopen', ⟨rfl, hdel, o', hops', hread'⟩ | ⟨hops', ⟨msg, g, rfl, hread, -⟩ |
      ⟨g, rfl, -, hdel⟩ | ⟨c, g, rfl, hread, -⟩⟩⟩ := h.orderly.io_of_single hopen hops hok hio
    · obtain rfl : t = { s with world := w } := by simpa using hcase
      exact ⟨horderly, by rw [hdel]; exact h.handled,
        .writing o' reqs req (hopen'.trans hopen) hops' (hread'.trans hwrite) hreqs hkeeps halive⟩
    · rw [hwrite] at hread
      cases hread
    · -- the response has been written: the next request is read, or the session closed
      obtain rfl : t = ServerSession.onWriteComplete { s with world := w } := by simpa using hcase
      have hhandled : s.handled = w.delivered.map (·.msg) := by rw [hdel, h.handled]
      cases hka : s.keepAlive with
      | true =>
        rw [hka] at halive
        have hkeeps' := hkeeps.snoc halive.symm
        rw [← hreqs] at hkeeps'
        simp only [ServerSession.onWriteComplete, if_true]
        exact {
          orderly := horderly.doRead (hopen'.trans hopen) (by simp [World.settle, hops'])
          handled := hhandled
          phase := .reading _ (hopen'.trans hopen) (by simp [World.call, hops']; rfl) rfl hkeeps' }
      | false =>
        rw [hka] at halive
        simp only [ServerSession.onWriteComplete, Bool.false_eq_true, if_false]
        exact {
          orderly := horderly.shutdown hops'
          handled := hhandled
          phase := .closed reqs req (by simp [World.call]) (by simp [World.call, hops']) hreqs
            hkeeps halive.symm }
    · rw [hwrite] at hread
      cases hread
  | closed reqs req hclosed hops hreqs hkeeps hlast =>
    obtain ⟨rfl, hopen', hops', -, hdel⟩ := h.orderly.io_of_none hops hio
    obtain rfl : t = { s with world := w } := by simpa using hcase
    exact ⟨horderly, by rw [hdel]; exact h.handled,
      .closed reqs req (hopen'.trans hclosed) hops' hreqs hkeeps hlast⟩
  | failed hclosed hops herrors hkeeps =>
    obtain ⟨rfl, hopen', hops', herrors', hdel⟩ := h.orderly.io_of_none hops hio
    obtain rfl : t = { s with world := w } := by simpa using hcase
    exact ⟨horderly, by rw [hdel]; exact h.handled,
      .failed (hopen'.trans hclosed) hops' (herrors' ▸ herrors) hkeeps⟩

/-- When a write is done, the session is open with nothing under way. -/
theorem ops_of_writeComplete (h : ServerState sv cfg ps s) (hok : OrderlyPeer ps s e)
    {w : World RequestLine} {g : Bool} (hio : World.Io s.world e w (some ⟨.writeComplete, g⟩)) :
    w.session.isOpen ∧ w.session.ops = [] := by
  cases h.phase with
  | reading o hopen hops | writing o _ _ hopen hops =>
    obtain ⟨hopen', ⟨hnone, -⟩ | ⟨hops', -⟩⟩ := h.orderly.io_of_single hopen hops hok hio
    · cases hnone
    · exact ⟨hopen'.trans hopen, hops'⟩
  | closed _ _ _ hops | failed _ hops => cases (h.orderly.io_of_none hops hio).1

/-- Every step with an orderly peer lowers the rank. -/
theorem rank_step (hps : ∀ p ∈ ps, p.WellFormed RequestLine) (h : ServerState sv cfg ps s)
    (hok : OrderlyPeer ps s e) (hs : ServerSession.step sv s e = some t) :
    rank ps t.world < rank ps s.world := by
  obtain ⟨w, hook, hio, hcase⟩ := ServerSession.step_cases hs
  have hio := World.io_cases hio
  have hrank := rank_io hps h.orderly hok hio
  have hle := Nat.le_add_right (rank ps (w.settle hook))
    (4 * (w.delivered.length - s.world.delivered.length))
  rcases hcase with ⟨rfl, rfl⟩ | ⟨req, g, rfl, rfl⟩ | ⟨g, rfl, rfl⟩ | ⟨ec, g, rfl, rfl⟩
  · exact hle.trans_lt hrank
  · -- the delivery pays for the write
    have hdel := hio.length_delivered
    have hwrite : rank ps (ServerSession.onMessageParsed sv { s with world := w } req).world ≤
      rank ps w + 3 := rank_doWrite ps w _
    simp only [World.settle] at hrank
    omega
  · -- the write that is over pays for the next read
    obtain ⟨hopen, hops⟩ := h.ops_of_writeComplete hok hio
    have hread := rank_doRead ps hopen (by simp [hops])
    have hshut := rank_shutdown ps w
    simp only [World.settle] at hrank
    simp only [ServerSession.onWriteComplete]
    split <;> omega
  · exact hle.trans_lt hrank

/-- The requests handled are the first ones of the conversation. -/
theorem handled_isPrefix (hps : ∀ p ∈ ps, p.WellFormed RequestLine) (h : ServerState sv cfg ps s) :
    s.handled <+: conversation sv 0 (served cfg ps) := by
  obtain ⟨rest, hrest⟩ := h.exists_served hps
  rw [hrest]
  cases h.phase with
  | reading _ _ _ _ hkeeps | failed _ _ _ hkeeps =>
    rw [hkeeps.conversation_append]
    exact List.prefix_append _ _
  | writing _ reqs req _ _ _ hreqs hkeeps | closed reqs req _ _ hreqs hkeeps =>
    rw [hreqs, List.append_assoc, hkeeps.conversation_append, List.prefix_append_right_inj]
    exact ⟨_, rfl⟩

/-- Where nothing more can happen, all requests of the conversation have been
    handled, or the session has failed behind the end of a request. -/
theorem complete (hps : ∀ p ∈ ps, p.WellFormed RequestLine) (h : ServerState sv cfg ps s)
    (hmax : Maximal (ServerSession.step sv) (Segmented ps) s) :
    s.handled = conversation sv 0 (served cfg ps) ∨
      s.world.errors ≠ [] ∧ (upToNext ps s.world).length < s.world.taken.length := by
  -- with nothing left that is accepted, the conversation is over
  have hall : (∀ p, ps[s.world.delivered.length]? = some p →
      p.accept (L := RequestLine) cfg = none) →
      sv.KeepsOpen s.handled → s.handled = conversation sv 0 (served cfg ps) := by
    intro hend hkeeps
    have hserved : served cfg ps = s.handled := by
      rw [h.handled, h.orderly.delivered_eq_served hps hend]
    have := hkeeps.conversation_append []
    rw [hserved]
    simpa [conversation] using this.symm
  cases h.phase with
  | reading o hopen hops hread hkeeps =>
    -- as long as messages are left, the read goes on
    refine .inl (hall (fun p hp => ?_) hkeeps)
    have hleft := (List.getElem?_eq_some_iff.1 hp).1
    have ho : o ∈ s.world.session.ops := by simp [hops]
    rcases h.orderly.progress hps hopen hleft ho hread with
      ⟨b, hb, hb'⟩ | ⟨henabled, htaken⟩ | henabled
    · have := hmax (.arrive [b]) ⟨by simp, hb.trans hb'⟩
      simp [ServerSession.step, World.io] at this
    · have := hmax (.recv o.id 1) htaken
      simp only [ServerSession.step, Option.map_eq_none_iff] at this
      simp [this] at henabled
    · have := hmax (.runOp o.id) trivial
      simp only [ServerSession.step, Option.map_eq_none_iff] at this
      simp [this] at henabled
  | writing o reqs req hopen hops hwrite =>
    -- the write, or its handler, goes on
    have hfind : s.world.op? o.id = some o := by simp [World.op?, hops]
    rcases (h.orderly.running hopen).2 o (by simp [hops]) with hp | hp | ⟨hk, -⟩
    · have := hmax (.sent o.id) trivial
      simp [ServerSession.step, World.io, hfind, hopen, hp, hwrite] at this
    · have := hmax (.runOp o.id) trivial
      simp [ServerSession.step, World.io, hfind, hp] at this
    · rw [Op.isRead_of_readUntil hk] at hwrite
      cases hwrite
  | closed reqs req _ _ hreqs hkeeps hlast =>
    obtain ⟨rest, hrest⟩ := h.exists_served hps
    rw [hrest, hreqs, List.append_assoc, hkeeps.conversation_append, List.singleton_append,
      conversation, hlast]
    exact .inl rfl
  | failed hclosed _ herrors hkeeps =>
    cases h.orderly.phase with
    | running hnone => exact absurd hnone herrors
    | failed _ _ _ hstuck =>
      by_cases hne : ps = []
      · exact .inl (hall (by simp [hne]) hkeeps)
      · rcases h.orderly.stuck_cases hps hstuck hne with ⟨p, hp, hacc⟩ | ⟨-, hcross⟩
        · refine .inl (hall (fun q hq => ?_) hkeeps)
          rw [hp, Option.some.injEq] at hq
          rwa [← hq]
        · exact .inr ⟨herrors, hcross⟩

/-- Where no read goes beyond the end of the message being read, no byte behind
    it is taken. -/
theorem taken_le_step (hok : Segmented ps s e) (hs : ServerSession.step sv s e = some t)
    (hle : s.world.taken.length ≤ (upToNext ps s.world).length) :
    t.world.taken.length ≤ (upToNext ps t.world).length := by
  obtain ⟨w, hook, hio, hcase⟩ := ServerSession.step_cases hs
  have hio := World.io_cases hio
  -- the hooks neither take bytes nor deliver
  have hcall : t.world.taken = w.taken ∧ t.world.delivered = w.delivered := by
    rcases hcase with ⟨-, rfl⟩ | ⟨req, g, -, rfl⟩ | ⟨g, -, rfl⟩ | ⟨ec, g, -, rfl⟩
    · exact ⟨rfl, rfl⟩
    · exact ⟨rfl, rfl⟩
    · simp only [ServerSession.onWriteComplete]
      split <;> exact ⟨rfl, rfl⟩
    · exact ⟨rfl, rfl⟩
  have hmono : upToNext ps s.world <+: upToNext ps t.world :=
    upToNext_mono (hcall.2 ▸ delivered_io hio)
  rw [hcall.1]
  refine le_trans ?_ hmono.length_le
  rcases taken_io hio with heq | ⟨id, n, rfl, hlen⟩
  · rwa [heq]
  · rw [hlen]
    exact hok

end ServerState

/-- Whatever reads the messages are cut into, a server session handles the first
    requests of their conversation; where nothing more can happen, it has handled
    all of them, or it has reported an error where a read has gone beyond the end
    of a request; and every run is bounded. In two runs without such a read it
    handles the same requests, all of the conversation. -/
theorem segmentation_independent (sv : Service) (cfg : HttpConfiguration) (ps : List WireMessage)
    (hps : ∀ p ∈ ps, p.WellFormed RequestLine) :
    (∀ es s, Run (ServerSession.step sv) (OrderlyPeer ps) (ServerSession.start cfg) es s →
      s.handled <+: conversation sv 0 (served cfg ps) ∧
      es.length ≤ rank ps (ServerSession.start cfg).world ∧
      (Maximal (ServerSession.step sv) (OrderlyPeer ps) s →
        s.handled = conversation sv 0 (served cfg ps) ∨
        s.world.errors ≠ [] ∧ (upToNext ps s.world).length < s.world.taken.length)) ∧
    ∀ es₁ s₁ es₂ s₂,
      Run (ServerSession.step sv) (Segmented ps) (ServerSession.start cfg) es₁ s₁ →
      Maximal (ServerSession.step sv) (Segmented ps) s₁ →
      Run (ServerSession.step sv) (Segmented ps) (ServerSession.start cfg) es₂ s₂ →
      Maximal (ServerSession.step sv) (Segmented ps) s₂ →
      s₁.handled = s₂.handled ∧ s₁.handled = conversation sv 0 (served cfg ps) := by
  have hstart := ServerState.start sv cfg ps
  have hstate : ∀ {es s}, Run (ServerSession.step sv) (OrderlyPeer ps)
      (ServerSession.start cfg) es s → ServerState sv cfg ps s := fun h =>
    h.invariant hstart fun _ _ _ hI hok hs => hI.step hps hok hs
  have hall : ∀ {es s},
      Run (ServerSession.step sv) (Segmented ps) (ServerSession.start cfg) es s →
      Maximal (ServerSession.step sv) (Segmented ps) s →
      s.handled = conversation sv 0 (served cfg ps) := by
    intro es s h hmax
    refine ((hstate (h.mono Segmented.orderlyPeer)).complete hps hmax).resolve_right ?_
    rintro ⟨-, hcross⟩
    have hle : s.world.taken.length ≤ (upToNext ps s.world).length :=
      h.invariant (I := fun s => s.world.taken.length ≤ (upToNext ps s.world).length)
        (Nat.zero_le _) fun _ _ _ hI hok hs => ServerState.taken_le_step hok hs hI
    omega
  refine ⟨fun es s h => ⟨(hstate h).handled_isPrefix hps, ?_, fun hmax => ?_⟩,
    fun es₁ s₁ es₂ s₂ h₁ hmax₁ h₂ hmax₂ =>
      ⟨(hall h₁ hmax₁).trans (hall h₂ hmax₂).symm, hall h₁ hmax₁⟩⟩
  · have := h.length_add_rank_le hstart (fun _ _ _ hI hok hs => hI.step hps hok hs)
      fun _ _ _ hI hok hs => hI.rank_step hps hok hs
    omega
  · exact (hstate h).complete hps (hmax.mono Segmented.orderlyPeer)

/-! ## Two requests in one read -/

/-- All messages have been read, and the session waits for more. -/
def Waiting (ps : List WireMessage) (s : ServerSession) : Prop :=
  s.world.stream = stream ps ∧ s.world.incoming = [] ∧
    (∀ o ∈ s.world.session.ops, o.isRead ∧ o.progress = .pending) ∧
    ∀ v ∈ s.world.session.waits, v.state = .pending

instance (ps : List WireMessage) (s : ServerSession) : Decidable (Waiting ps s) :=
  inferInstanceAs (Decidable (_ ∧ _ ∧ _ ∧ _))

/-- Where the session waits for more than its peer sends, nothing more can
    happen. -/
theorem Waiting.maximal {s : ServerSession} (h : Waiting ps s) :
    Maximal (ServerSession.step sv) (OrderlyPeer ps) s := by
  obtain ⟨hstream, hin, hops, hwaits⟩ := h
  intro e hok
  by_contra hne
  obtain ⟨t, ht⟩ := Option.ne_none_iff_exists'.1 hne
  obtain ⟨w, hook, hio, -⟩ := ServerSession.step_cases ht
  cases World.io_cases hio with
  | arrive bytes =>
    have hlen := hok.2.length_le
    have hpos := List.length_pos_of_ne_nil hok.1
    rw [hstream, List.length_append] at hlen
    omega
  -- there is nothing to read, and no operation or wait is over
  | recvUntil _ _ _ _ hn hle | recvExactly _ _ _ _ hn hle =>
    rw [hin, List.length_nil] at hle
    omega
  | fail | expire => exact hok.elim
  | sent ho hr => simp [(hops _ ho).1] at hr
  | aborted ho _ hp | failed ho hp | headersRead ho _ hp | headersParsed ho _ hp
  | bodyRead ho _ hp | written ho _ hp =>
    rw [(hops _ ho).2] at hp
    cases hp
  | waitOver hv hs | timedOut hv hs =>
    rw [hwaits _ hv] at hs
    cases hs

/-- A run computed up to where the session waits. -/
theorem exists_run_waiting {ok : ServerSession → IoEvent → Prop}
    (hokp : ∀ s e, ok s e → OrderlyPeer ps s e) {s : ServerSession} {es : List IoEvent}
    (hok : Allowed (ServerSession.step sv) ok s es)
    (h : (exec (ServerSession.step sv) s es).map (fun t => (decide (Waiting ps t), t.handled)) =
      some (true, reqs)) :
    ∃ t, Run (ServerSession.step sv) ok s es t ∧ Maximal (ServerSession.step sv) ok t ∧
      t.handled = reqs := by
  obtain ⟨t, ht, hw⟩ := Option.map_eq_some_iff.1 h
  obtain ⟨hwait, hreqs⟩ := Prod.mk.inj hw
  exact ⟨t, .of_exec hok ht, (of_decide_eq_true hwait).maximal.mono hokp, hreqs⟩

/-- Two requests that leave the connection open. -/
def twoRequests : List WireMessage :=
  [⟨ascii "GET / HTTP/1.1\r\n\r\n", []⟩, ⟨ascii "GET / HTTP/1.1\r\n\r\n", []⟩]

/-- What happens if the first of two requests comes in the reads `reads` and the
    second one in one read. -/
def serveTwo (reads : List IoEvent) : List IoEvent :=
  .arrive (stream twoRequests) :: reads ++ [.runOp 0, .sent 1, .runOp 1, .recv 2 18, .runOp 2,
    .sent 3, .runOp 3, .runWait 0, .runWait 1, .runWait 2, .runWait 3]

/-- Two requests in two reads, and in three. -/
theorem segmentation_independent_two :
    let sv : Service := ⟨textHandler, fun _ => default⟩
    let run := Run (ServerSession.step sv) (Segmented twoRequests) (ServerSession.start {})
    ∃ s₁ s₂, run (serveTwo [.recv 0 18]) s₁ ∧ run (serveTwo [.recv 0 16, .recv 0 2]) s₂ ∧
      s₁.handled = s₂.handled ∧ s₁.handled = conversation sv 0 (served {} twoRequests) := by
  intro sv run
  have hrun : ∀ reads ∈ [[IoEvent.recv 0 18], [.recv 0 16, .recv 0 2]], ∃ s,
      run (serveTwo reads) s ∧ Maximal (ServerSession.step sv) (Segmented twoRequests) s ∧
      s.handled = [getRequest ∅, getRequest ∅] := by
    simp only [List.forall_mem_cons]
    exact ⟨exists_run_waiting Segmented.orderlyPeer (by decide +kernel) (by decide +kernel),
      exists_run_waiting Segmented.orderlyPeer (by decide +kernel) (by decide +kernel), by simp⟩
  obtain ⟨s₁, hrun₁, hmax₁, -⟩ := hrun _ List.mem_cons_self
  obtain ⟨s₂, hrun₂, hmax₂, -⟩ := hrun _ (List.mem_cons_of_mem _ List.mem_cons_self)
  exact ⟨s₁, s₂, hrun₁, hrun₂, (segmentation_independent sv {} twoRequests (by decide +kernel)).2
    _ s₁ _ s₂ hrun₁ hmax₁ hrun₂ hmax₂⟩

/-- Two requests are both handled if they come in two reads, and none of them if
    they come in one. -/
theorem segmentation_dependent :
    let sv : Service := ⟨textHandler, fun _ => default⟩
    let start := ServerSession.start {}
    (∀ p ∈ twoRequests, p.WellFormed RequestLine ∧
      p.accept (L := RequestLine) {} = some (getRequest ∅)) ∧
    (getRequest ∅).headers.keepsAlive ∧
    (∃ es s, Run (ServerSession.step sv) (OrderlyPeer twoRequests) start es s ∧
      Maximal (ServerSession.step sv) (OrderlyPeer twoRequests) s ∧
      s.handled = [getRequest ∅, getRequest ∅]) ∧
    ∃ es s, Run (ServerSession.step sv) (OrderlyPeer twoRequests) start es s ∧
      Maximal (ServerSession.step sv) (OrderlyPeer twoRequests) s ∧ s.handled = [] := by
  refine ⟨by decide +kernel, by decide, ⟨serveTwo [.recv 0 18], ?_⟩,
    [.arrive (stream twoRequests), .recv 0 36, .runOp 0, .runWait 0], ?_⟩
  · exact exists_run_waiting (fun _ _ => id) (by decide +kernel) (by decide +kernel)
  · exact exists_run_waiting (fun _ _ => id) (by decide +kernel) (by decide +kernel)

end Dss.Http
