import Dss.Http.WireMessage

/-!
# Reading from an orderly peer

A session whose peer sends well-formed messages, whose timer does not expire and
whose operations do not fail on their own (`Orderly`). From what the read cycle
guarantees for every stream it follows which messages are delivered; here is what
else the session does:

* it reports an error only at a message that it does not accept, or of which a
  read has taken more than its bytes (`Stuck`), and stops there (`Phase`);
* until then it can go on, as long as messages are left (`OrderlyState.progress`).

The limits are enforced in three places, the capacity of the buffer, the size of
the header and the length of the body, which agree in what they accept
(`stuck_of_not_accepted`, `stuck_of_full`).
-/

namespace Dss.Http

open Dss.Lib WireMessage

variable {L : Type} [StartLine L]

/-- The steps of a session with an orderly peer, which sends the messages `ps`.
    A derived class reads and writes while the session is open, and shuts it down
    when nothing is under way. -/
def Orderly (ps : List WireMessage) (w : World L) : SessionEvent → Prop
  | .io (.arrive bytes) => bytes ≠ [] ∧ w.stream ++ bytes <+: stream ps
  | .io (.fail _ _) => False
  | .io .expire => False
  | .io _ => True
  | .call .doRead => w.session.isOpen ∧ ∀ o ∈ w.session.ops, o.isRead = false
  | .call (.doWrite _) => w.session.isOpen
  | .call .shutdown => w.session.ops = []
  | .caught => False

/-- The bytes of the messages up to the one being read. -/
def upToNext (ps : List WireMessage) (w : World L) : Bytes :=
  stream (ps.take (w.delivered.length + 1))

/-- The session cannot deliver the next message: it is not accepted, or bytes
    behind it have been read with its header. The buffer may also have no
    capacity for any message at all. -/
def Stuck (cfg : HttpConfiguration) (ps : List WireMessage) (w : World L) : Prop :=
  (∃ p, ps[w.delivered.length]? = some p ∧
    (p.accept (L := L) cfg = none ∨ (upToNext ps w).length < w.taken.length)) ∨
  cfg.capacity = 0

/-- An operation that has not failed, except for a header that does not fit into
    the buffer. -/
def Op.Sound (o : Op L) : Prop :=
  o.progress = .pending ∨ o.progress = .done none ∨
    o.kind = .readUntil ∧ o.progress = .done (some .notFound)

/-- No error has been reported, or the session is closed where it is stuck. -/
inductive Phase (cfg : HttpConfiguration) (ps : List WireMessage) (w : World L) : Prop
  | running : w.errors = [] → (w.session.isOpen ∨ w.session.ops = []) →
      (∀ o ∈ w.session.ops, o.Sound) → Phase cfg ps w
  | failed : w.errors ≠ [] → w.session.isOpen = false →
      (∀ o ∈ w.session.ops, o.isRead = false) → Stuck cfg ps w → Phase cfg ps w

/-- The invariant of the runs with an orderly peer. -/
structure OrderlyState (cfg : HttpConfiguration) (ps : List WireMessage) (w : World L) : Prop where
  cycle : ∃ bs, ReadCycle cfg bs w
  stream : w.stream <+: stream ps
  waits : ∀ v ∈ w.session.waits, v.state ≠ .fired
  phase : Phase cfg ps w

variable {cfg : HttpConfiguration} {ps : List WireMessage} {w w' : World L} {bs : List Bytes}
  {o : Op L} {e : IoEvent} {hook : Option (HookCall L)}

omit [StartLine L] in
theorem upToNext_isPrefix (ps : List WireMessage) (w : World L) :
    upToNext ps w <+: WireMessage.stream ps :=
  ⟨_, stream_take_append_drop _ ps⟩

omit [StartLine L] in
/-- With more messages delivered, the next one is further on. -/
theorem upToNext_mono (hle : w.delivered.length ≤ w'.delivered.length) :
    upToNext ps w <+: upToNext ps w' := by
  refine ⟨stream ((ps.take (w'.delivered.length + 1)).drop (w.delivered.length + 1)), ?_⟩
  have htake : ps.take (w.delivered.length + 1) =
      (ps.take (w'.delivered.length + 1)).take (w.delivered.length + 1) := by
    rw [List.take_take, min_eq_left (by omega)]
  rw [upToNext, upToNext, htake, stream_take_append_drop]

/-! ## Where the session is stuck -/

section

variable (hps : ∀ p ∈ ps, p.WellFormed L)
include hps

/-- Where the messages with the bytes `bs` have been delivered, what comes next
    is the next message. -/
theorem ReadCycle.exists_next (h : ReadCycle cfg bs w) (hstream : w.stream <+: stream ps)
    {b : Bytes} (htaken : w.taken = bs.flatten ++ b) :
    bs.flatten = WireMessage.stream (ps.take w.delivered.length) ∧
      b <+: WireMessage.stream (ps.drop w.delivered.length) := by
  obtain ⟨hbs, -, -⟩ := served_of_framedBy hps h.framed (h.prefix_stream.trans hstream)
  refine ⟨hbs, ?_⟩
  have hb := (List.prefix_append w.taken w.incoming).trans hstream
  rwa [htaken, hbs, ← stream_take_append_drop w.delivered.length ps,
    List.prefix_append_right_inj] at hb

/-- A header that is found but not accepted is that of a message that is not, or
    the buffer has more than the message. -/
theorem stuck_of_not_accepted (h : ReadCycle cfg bs w) (hstream : w.stream <+: stream ps)
    (htaken : w.taken = bs.flatten ++ w.session.buffer)
    (hdelim : search delimiter w.session.buffer ≠ none)
    (hnot : ∀ (msg : Message L) n, ¬Accepted w.session.cfg w.session.buffer msg n) :
    Stuck cfg ps w := by
  obtain ⟨hbs, hbuffer⟩ := h.exists_next hps hstream htaken
  refine .inl ?_
  cases hdrop : ps.drop w.delivered.length with
  | nil =>
    -- nothing is left, and there is no delimiter in nothing
    rw [hdrop] at hbuffer
    rw [List.prefix_nil.1 hbuffer] at hdelim
    exact absurd rfl hdelim
  | cons p qs =>
    have hp : ps[w.delivered.length]? = some p := by rw [← List.head?_drop, hdrop, List.head?_cons]
    have hwf := hps p (List.mem_of_getElem? hp)
    rw [hdrop] at hbuffer
    obtain ⟨y, hy, hypre⟩ := hwf.exists_append hbuffer hdelim
    refine ⟨p, hp, or_iff_not_imp_left.2 fun hacc => ?_⟩
    obtain ⟨m, hm⟩ := Option.ne_none_iff_exists'.1 hacc
    obtain ⟨hparse, hle, n, hn, hn'⟩ := accept_eq_some.1 hm
    have hlen := hwf.length m n hparse hn
    by_contra hcross
    -- then `y` is within the body, and all checks succeed
    rw [not_lt, upToNext, take_succ_of_drop hdrop, htaken, hbs, hy] at hcross
    simp only [WireMessage.stream, bytes, List.flatMap_append, List.flatMap_singleton,
      List.length_append] at hcross
    have hfour := hwf.block.four_le_length
    refine hnot { m with body := y } n ?_
    rw [h.cfg_eq, hy]
    exact {
      delim := ⟨_, hwf.block.search_append y, by omega⟩
      parse := hwf.block.parse_append hparse y
      length := hn
      length_le := hn'
      body_le := by simp only; omega }

/-- A header that does not fit into the buffer is longer than the limit. -/
theorem stuck_of_full (h : ReadCycle cfg bs w) (hstream : w.stream <+: stream ps)
    (htaken : w.taken = bs.flatten ++ w.session.buffer)
    (hdelim : search delimiter w.session.buffer = none)
    (hfull : w.session.buffer.length = w.session.cfg.capacity) : Stuck cfg ps w := by
  obtain ⟨hbs, hbuffer⟩ := h.exists_next hps hstream htaken
  rw [h.cfg_eq] at hfull
  cases hdrop : ps.drop w.delivered.length with
  | nil =>
    rw [hdrop] at hbuffer
    rw [List.prefix_nil.1 hbuffer] at hfull
    exact .inr hfull.symm
  | cons p qs =>
    have hp : ps[w.delivered.length]? = some p := by rw [← List.head?_drop, hdrop, List.head?_cons]
    have hwf := hps p (List.mem_of_getElem? hp)
    rw [hdrop] at hbuffer
    refine .inl ⟨p, hp, .inl ?_⟩
    by_contra hacc
    obtain ⟨m, hm⟩ := Option.ne_none_iff_exists'.1 hacc
    obtain ⟨-, hle, -⟩ := accept_eq_some.1 hm
    have hlong : p.header.length ≤ w.session.buffer.length := by
      rw [hfull, cfg.capacity_eq]
      omega
    -- then the header is in the buffer as a whole, with its delimiter
    have hheader : p.header <+: w.session.buffer := by
      refine List.prefix_of_prefix_length_le ?_ hbuffer hlong
      simp [WireMessage.stream, bytes]
    obtain ⟨y, hy⟩ := hheader
    rw [← hy, hwf.block.search_append] at hdelim
    cases hdelim

end

/-! ## Steps -/

/-- What the session is stuck at depends on what it has read and delivered. -/
theorem Stuck.congr (h : Stuck cfg ps w) (hdelivered : w'.delivered = w.delivered)
    (htaken : w'.taken = w.taken) : Stuck cfg ps w' := by
  unfold Stuck upToNext at h ⊢
  rwa [hdelivered, htaken]

omit [StartLine L] in
theorem Op.sound_readUntil (id : ℕ) (cfg : HttpConfiguration) (buffer : Bytes) :
    Op.Sound (L := L) ⟨id, .readUntil, Session.readUntilProgress cfg buffer⟩ := by
  rw [Session.readUntilProgress, Sound]
  split
  · simp
  · split <;> simp

omit [StartLine L] in
theorem sound_setOp (h : ∀ o ∈ w.session.ops, o.Sound) {id : ℕ} {kind : OpKind L}
    {progress : Progress} (hnew : Op.Sound ⟨id, kind, progress⟩) :
    ∀ o ∈ (w.setOp id kind progress).session.ops, o.Sound := by
  intro o ho
  obtain ⟨p, hp, rfl⟩ := List.mem_map.1 ho
  split
  · exact hnew
  · exact h p hp

/-- A handler of a read that reports an error closes the session. -/
theorem Phase.of_failed (h : ReadCore cfg bs w) (ho : o ∈ w.session.ops) (hr : o.isRead)
    (hstuck : Stuck cfg ps w) (buffer : Bytes) (c : ErrorCode) (g : Bool) :
    Phase cfg ps ((((w.handling o).withBuffer buffer).record (some ⟨.error c, g⟩)).call
      .shutdown) := by
  have hnone := h.not_isRead_handling ho hr
  refine .failed (by simp [World.call, World.record]) (by simp [World.call]) (fun p hp => ?_)
    (hstuck.congr rfl rfl)
  simp only [World.call, World.record, World.withBuffer, Session.shutdown_ops] at hp
  split at hp
  · obtain ⟨q, hq, rfl⟩ := List.mem_map.1 hp
    rw [Op.abort_isRead]
    exact hnone q hq
  · exact hnone p hp

/-- Where no error has been reported, the first one is reported where the session
    is stuck. -/
theorem Phase.io_of_running (hps : ∀ p ∈ ps, p.WellFormed L) (h : ReadCycle cfg bs w)
    (hstream : w.stream <+: WireMessage.stream ps)
    (hwaits : ∀ v ∈ w.session.waits, v.state ≠ .fired)
    (herrors : w.errors = []) (hopen : w.session.isOpen ∨ w.session.ops = [])
    (hsound : ∀ o ∈ w.session.ops, o.Sound) (hexpire : e ≠ .expire)
    (hfail : ∀ id ec, e ≠ .fail id ec) (hio : World.Io w e w' hook) :
    Phase cfg ps (w'.settle hook) := by
  have hopen' : ∀ o ∈ w.session.ops, w.session.isOpen := fun o ho =>
    hopen.resolve_right (List.ne_nil_of_mem ho)
  cases hio with
  | arrive | waitOver => exact .running herrors hopen hsound
  | expire => exact absurd rfl hexpire
  | fail => exact absurd rfl (hfail _ _)
  | timedOut hv hfired => exact absurd hfired (hwaits _ hv)
  | recvUntil _ _ _ hopen =>
    exact .running herrors (.inl hopen) (sound_setOp hsound (Op.sound_readUntil _ _ _))
  | recvExactly _ _ _ hopen =>
    refine .running herrors (.inl hopen) (sound_setOp hsound ?_)
    rw [Op.Sound]
    split <;> simp
  | sent _ _ _ hopen => exact .running herrors (.inl hopen) (sound_setOp hsound (.inr (.inl rfl)))
  | aborted ho _ hp =>
    have := hsound _ ho
    simp [Op.Sound, hp] at this
  | @failed o ec buffer c g ho hp hbuffer hwhy =>
    -- the session is stuck at the header read: it is not accepted, or does not fit
    have hstate := h.ops o ho
    rcases hsound o ho with hpending | hdone | ⟨hk, hfull⟩
    · rw [hp] at hpending
      cases hpending
    · rw [hp, Progress.done.injEq] at hdone
      obtain ⟨hk, hnot⟩ := hwhy hdone
      simp only [OpState, hk, hp, hdone] at hstate
      exact .of_failed h.toReadCore ho (Op.isRead_of_readUntil hk)
        (stuck_of_not_accepted hps h hstream hstate.1 hstate.2 hnot) _ _ _
    · simp only [OpState, hk, hfull] at hstate
      exact .of_failed h.toReadCore ho (Op.isRead_of_readUntil hk)
        (stuck_of_full hps h hstream hstate.1 hstate.2.1 hstate.2.2) _ _ _
  | headersRead ho =>
    have hopen := hopen' _ ho
    refine .running herrors (.inl hopen) fun p hp => ?_
    rcases List.mem_append.1 hp with hp | hp
    · exact hsound p (List.mem_filter.1 hp).1
    · rw [Session.startProgress_of_open (by exact hopen)] at hp
      rw [List.mem_singleton.1 hp]
      exact .inl rfl
  | headersParsed ho | bodyRead ho | written ho =>
    exact .running herrors (.inl (hopen' _ ho)) fun p hp => hsound p (List.mem_filter.1 hp).1

/-- Where the session is closed and nothing is read, that stays so. -/
theorem Phase.io_of_failed (herrors : w.errors ≠ []) (hclosed : w.session.isOpen = false)
    (hreads : ∀ o ∈ w.session.ops, o.isRead = false) (hstuck : Stuck cfg ps w)
    (hio : World.Io w e w' hook) : Phase cfg ps (w'.settle hook) := by
  cases hio with
  | arrive | expire | waitOver => exact .failed herrors hclosed hreads (hstuck.congr rfl rfl)
  -- the socket is closed
  | recvUntil _ _ _ hopen | recvExactly _ _ _ hopen | fail _ _ hopen | sent _ _ _ hopen =>
    rw [hclosed] at hopen
    cases hopen
  -- and no read is under way
  | aborted ho hk | headersRead ho hk | headersParsed ho hk =>
    have := hreads _ ho
    rw [Op.isRead_of_readUntil hk] at this
    cases this
  | bodyRead ho hk =>
    have := hreads _ ho
    rw [Op.isRead_of_readExactly hk] at this
    cases this
  | written ho =>
    exact .failed herrors hclosed (fun p hp => hreads p (List.mem_filter.1 hp).1)
      (hstuck.congr rfl rfl)
  | failed ho =>
    refine .failed (by simp [World.settle, World.call, World.record])
      (by simp [World.settle, World.call]) (fun p hp => ?_) (hstuck.congr rfl rfl)
    simp only [World.settle, World.call, World.record, World.withBuffer, World.handling,
      Session.shutdown_ops, hclosed] at hp
    exact hreads p (List.mem_filter.1 hp).1
  | @timedOut v =>
    refine .failed (by simp [World.settle, World.call, World.record])
      (by simp [World.settle, World.call]) (fun p hp => ?_) (hstuck.congr rfl rfl)
    simp [World.settle, World.call, World.record, World.dropWait, hclosed] at hp
    exact hreads p hp

omit [StartLine L] in
@[simp] theorem stream_settle (w : World L) (hook : Option (HookCall L)) :
    (w.settle hook).stream = w.stream := by
  unfold World.settle
  split <;> rfl

omit [StartLine L] in
@[simp] theorem delivered_settle (w : World L) (hook : Option (HookCall L)) :
    (w.settle hook).delivered = w.delivered := by
  unfold World.settle
  split <;> rfl

/-- Only the peer adds to the stream. -/
theorem stream_io (hio : World.Io w e w' hook) (he : ∀ bytes, e ≠ .arrive bytes) :
    w'.stream = w.stream := by
  cases hio with
  | arrive => exact absurd rfl (he _)
  | recvUntil | recvExactly => simp [World.stream, World.setOp, World.take]
  | fail | sent | expire | aborted | headersRead | headersParsed | bodyRead | written | waitOver
  | failed | timedOut => rfl

/-- Events only add to what is delivered. -/
theorem delivered_io {e : IoEvent} (hio : World.Io w e w' hook) :
    w.delivered.length ≤ w'.delivered.length := by
  cases hio with
  | headersParsed | bodyRead => simp [World.record, World.withBuffer, World.handling]
  | _ => exact le_rfl

/-- A wait fires only when the timer expires. -/
theorem waits_io (hwaits : ∀ v ∈ w.session.waits, v.state ≠ .fired) (he : e ≠ .expire)
    (hio : World.Io w e w' hook) :
    ∀ v ∈ (w'.settle hook).session.waits, v.state ≠ .fired := by
  have hcancel : ∀ v ∈ w.session.waits.map Wait.cancel, v.state ≠ .fired := by
    simpa using hwaits
  cases hio with
  | arrive | recvUntil | recvExactly | fail | sent => exact hwaits
  | expire => exact absurd rfl he
  | waitOver => exact fun v hv => hwaits v (List.mem_filter.1 hv).1
  | timedOut hv hfired => exact absurd hfired (hwaits _ hv)
  -- a handler cancels the timer first
  | aborted | headersParsed | bodyRead | written => exact hcancel
  | failed =>
    simpa [World.settle, World.call, World.withBuffer, World.handling] using hwaits
  | headersRead =>
    intro v hv
    rcases List.mem_append.1 hv with hv | hv
    · obtain ⟨u, hu, rfl⟩ := List.mem_map.1 hv
      simpa using hcancel u hu
    · rw [List.mem_singleton.1 hv]
      simp

namespace OrderlyState

theorem fresh (cfg : HttpConfiguration) (ps : List WireMessage) :
    OrderlyState cfg ps (World.fresh L cfg) where
  cycle := ⟨[], readCycle_fresh cfg⟩
  stream := List.nil_prefix
  waits := by simp [World.fresh]
  phase := .running rfl (.inl rfl) (by simp [World.fresh])

theorem io (hps : ∀ p ∈ ps, p.WellFormed L) (h : OrderlyState cfg ps w)
    (hok : Orderly ps w (.io e)) (hio : World.Io w e w' hook) :
    OrderlyState cfg ps (w'.settle hook) := by
  obtain ⟨bs, hcycle⟩ := h.cycle
  have hexpire : e ≠ .expire := by
    rintro rfl
    exact hok
  have hfail : ∀ id ec, e ≠ .fail id ec := by
    rintro id ec rfl
    exact hok
  exact {
    cycle := hcycle.io hio
    stream := by
      rw [stream_settle]
      by_cases he : ∃ bytes, e = .arrive bytes
      · -- an orderly peer goes on with its messages
        obtain ⟨bytes, rfl⟩ := he
        cases hio
        simpa [World.stream] using hok.2
      · rw [stream_io hio (by simpa using he)]
        exact h.stream
    waits := waits_io h.waits hexpire hio
    phase := by
      cases h.phase with
      | running herrors hopen hsound =>
        exact .io_of_running hps hcycle h.stream h.waits herrors hopen hsound hexpire hfail hio
      | failed herrors hclosed hreads hstuck =>
        exact .io_of_failed herrors hclosed hreads hstuck hio }

omit [StartLine L] in
theorem waits_startTimer (hwaits : ∀ v ∈ w.session.waits, v.state ≠ .fired) :
    ∀ v ∈ w.session.startTimer.waits, v.state ≠ .fired := by
  intro v hv
  rcases List.mem_append.1 hv with hv | hv
  · obtain ⟨u, hu, rfl⟩ := List.mem_map.1 hv
    simpa using hwaits u hu
  · rw [List.mem_singleton.1 hv]
    simp

/-- A session that is open has reported no error. -/
theorem running (h : OrderlyState cfg ps w) (hopen : w.session.isOpen) :
    w.errors = [] ∧ ∀ o ∈ w.session.ops, o.Sound := by
  cases h.phase with
  | running herrors _ hsound => exact ⟨herrors, hsound⟩
  | failed _ hclosed =>
    rw [hclosed] at hopen
    cases hopen

theorem doRead (h : OrderlyState cfg ps w) (hopen : w.session.isOpen)
    (hw : ∀ o ∈ w.session.ops, o.isRead = false) : OrderlyState cfg ps (w.call .doRead) where
  cycle := h.cycle.imp fun _ hcycle => hcycle.doRead hw
  stream := h.stream
  waits := waits_startTimer h.waits
  phase := by
    refine .running (h.running hopen).1 (.inl hopen) fun o ho => ?_
    rcases List.mem_append.1 ho with ho | ho
    · exact (h.running hopen).2 o ho
    · rw [Session.startProgress_of_open (by exact hopen)] at ho
      rw [List.mem_singleton.1 ho]
      exact Op.sound_readUntil _ _ _

theorem doWrite (h : OrderlyState cfg ps w) (hopen : w.session.isOpen) (payload : Bytes) :
    OrderlyState cfg ps (w.call (.doWrite payload)) where
  cycle := h.cycle.imp fun _ hcycle => hcycle.doWrite payload
  stream := h.stream
  waits := waits_startTimer h.waits
  phase := by
    refine .running (h.running hopen).1 (.inl hopen) fun o ho => ?_
    rcases List.mem_append.1 ho with ho | ho
    · exact (h.running hopen).2 o ho
    · rw [Session.startProgress_of_open (by exact hopen)] at ho
      rw [List.mem_singleton.1 ho]
      exact .inl rfl

theorem shutdown (h : OrderlyState cfg ps w) (hops : w.session.ops = []) :
    OrderlyState cfg ps (w.call .shutdown) where
  cycle := h.cycle.imp fun _ hcycle => hcycle.shutdown
  stream := h.stream
  waits := by simpa [World.call] using h.waits
  phase := by
    have hops' : (w.call .shutdown).session.ops = [] := by simp [World.call, hops]
    cases h.phase with
    | running herrors =>
      exact .running herrors (.inr hops') (by simp [hops'])
    | failed herrors _ _ hstuck =>
      exact .failed herrors (by simp [World.call]) (by simp [hops']) (hstuck.congr rfl rfl)

/-- A step with an orderly peer keeps the invariant. -/
theorem step {e : SessionEvent} (hps : ∀ p ∈ ps, p.WellFormed L) (h : OrderlyState cfg ps w)
    (hok : Orderly ps w e) (hs : w.step e = some w') : OrderlyState cfg ps w' := by
  cases e with
  | io e =>
    obtain ⟨⟨w₁, hook⟩, hio, rfl⟩ := Option.map_eq_some_iff.1 hs
    exact h.io hps hok (World.io_cases hio)
  | call c =>
    obtain rfl := Option.some.inj hs
    cases c with
    | doRead => exact h.doRead hok.1 hok.2
    | doWrite payload => exact h.doWrite hok payload
    | shutdown => exact h.shutdown hok
  | caught => exact hok.elim

/-- The messages delivered are those sent, as long as they are accepted. -/
theorem delivered (hps : ∀ p ∈ ps, p.WellFormed L) (h : OrderlyState cfg ps w) :
    w.delivered.map (·.msg) = (served cfg ps).take w.delivered.length ∧
      w.delivered.length ≤ (served (L := L) cfg ps).length := by
  obtain ⟨bs, hcycle⟩ := h.cycle
  exact (served_of_framedBy hps hcycle.framed (hcycle.prefix_stream.trans h.stream)).2

/-- If the session is stuck with all it has read being of the messages up to the
    next one, it has delivered all that it accepts. -/
theorem delivered_eq_served (hps : ∀ p ∈ ps, p.WellFormed L) (h : OrderlyState cfg ps w)
    (hend : ∀ p, ps[w.delivered.length]? = some p → p.accept (L := L) cfg = none) :
    w.delivered.map (·.msg) = served cfg ps := by
  obtain ⟨hmsgs, hle⟩ := h.delivered hps
  rw [hmsgs, List.take_of_length_le]
  by_contra hlt
  rw [not_le] at hlt
  have hnext := getElem?_served hle
  rw [List.getElem?_eq_getElem hlt] at hnext
  cases hp : ps[w.delivered.length]? with
  | none => simp [hp] at hnext
  | some p => simp [hp, hend p hp] at hnext

/-- Where the session is stuck, the next message is not accepted, or bytes behind
    it have been read. -/
theorem stuck_cases (hps : ∀ p ∈ ps, p.WellFormed L) (h : OrderlyState cfg ps w)
    (hstuck : Stuck cfg ps w) (hne : ps ≠ []) :
    (∃ p, ps[w.delivered.length]? = some p ∧ p.accept (L := L) cfg = none) ∨
      w.delivered.length < ps.length ∧ (upToNext ps w).length < w.taken.length := by
  rcases hstuck with ⟨p, hp, hacc | hcross⟩ | hcap
  · exact .inl ⟨p, hp, hacc⟩
  · exact .inr ⟨(List.getElem?_eq_some_iff.1 hp).1, hcross⟩
  · -- a buffer without capacity takes no header
    rw [cfg.capacity_eq] at hcap
    obtain ⟨p, qs, rfl⟩ := List.exists_cons_of_ne_nil hne
    have hacc : p.accept (L := L) cfg = none := by
      by_contra hacc
      obtain ⟨m, hm⟩ := Option.ne_none_iff_exists'.1 hacc
      have hfour := (hps p List.mem_cons_self).block.four_le_length
      obtain ⟨-, hle, -⟩ := accept_eq_some.1 hm
      omega
    have hle := (h.delivered hps).2
    simp only [served, hacc, List.length_nil, Nat.le_zero] at hle
    exact .inl ⟨p, by rw [hle, List.getElem?_cons_zero], hacc⟩

/-! ### Progress -/

/-- What has been read while a read is pending is less than the messages up to
    the next one. -/
theorem taken_lt (hps : ∀ p ∈ ps, p.WellFormed L) (h : OrderlyState cfg ps w)
    (hleft : w.delivered.length < ps.length) (ho : o ∈ w.session.ops) (hr : o.isRead)
    (hp : o.progress = .pending) : w.taken.length < (upToNext ps w).length := by
  obtain ⟨bs, hcycle⟩ := h.cycle
  have hstate := hcycle.ops o ho
  obtain ⟨p, qs, hdrop⟩ : ∃ p qs, ps.drop w.delivered.length = p :: qs :=
    List.exists_cons_of_ne_nil (by simpa using hleft)
  have hp' : ps[w.delivered.length]? = some p := by rw [← List.head?_drop, hdrop, List.head?_cons]
  have hwf := hps p (List.mem_of_getElem? hp')
  -- what has been read of the next message is less than its bytes
  suffices ∃ b, w.taken = bs.flatten ++ b ∧ b.length < p.bytes.length by
    obtain ⟨b, htaken, hlt⟩ := this
    obtain ⟨hbs, -⟩ := hcycle.exists_next hps h.stream htaken
    rw [upToNext, take_succ_of_drop hdrop, stream_append, ← hbs, htaken]
    simpa using hlt
  cases hk : o.kind with
  | readUntil =>
    simp only [OpState, hk, hp] at hstate
    obtain ⟨-, htaken, hdelim, -⟩ := hstate
    obtain ⟨-, hpre⟩ := hcycle.exists_next hps h.stream htaken
    rw [hdrop, stream_cons, bytes, List.append_assoc] at hpre
    refine ⟨_, htaken, ?_⟩
    -- with all of the header the read would have found the delimiter
    have hlt : w.session.buffer.length < p.header.length := by
      by_contra hge
      rw [not_lt] at hge
      obtain ⟨y, hy⟩ := List.prefix_of_prefix_length_le (List.prefix_append _ _) hpre hge
      rw [← hy, hwf.block.search_append] at hdelim
      cases hdelim
    rw [bytes, List.length_append]
    omega
  | readExactly r msg =>
    -- the `r` bytes to go are part of the body
    simp only [OpState, hk, hp] at hstate
    obtain ⟨-, hpos, x, n, htaken, hacc, hlen⟩ := hstate
    rw [List.append_assoc] at htaken
    obtain ⟨-, hpre⟩ := hcycle.exists_next hps h.stream htaken
    rw [hdrop, stream_cons] at hpre
    obtain ⟨i, hi, -⟩ := hacc.delim
    obtain ⟨y, rfl, -⟩ := hwf.exists_append ((List.prefix_append _ _).trans hpre) (by simp [hi])
    obtain rfl := hwf.block.body_eq hacc.parse
    have hbody := hwf.length _ n (hwf.block.parse_append hacc.parse _) hacc.length
    refine ⟨_, htaken, ?_⟩
    simp only [bytes, List.length_append]
    omega
  | write payload => simp [Op.isRead, hk] at hr

omit [StartLine L] in
theorem op?_of_mem (hinj : ∀ o ∈ w.session.ops, ∀ o' ∈ w.session.ops, o.id = o'.id → o = o')
    (ho : o ∈ w.session.ops) : w.op? o.id = some o := by
  cases hfind : w.op? o.id with
  | none => exact absurd (List.find?_eq_none.1 hfind o ho) (by simp)
  | some p =>
    obtain ⟨hp, hid⟩ := World.op?_eq_some hfind
    rw [hinj p hp o ho hid]

/-- While messages are left and a read is under way, the session can go on: the
    peer sends one more byte of the next message, a read takes one, or the
    handler of the read runs. -/
theorem progress (hps : ∀ p ∈ ps, p.WellFormed L) (h : OrderlyState cfg ps w)
    (hopen : w.session.isOpen) (hleft : w.delivered.length < ps.length)
    (ho : o ∈ w.session.ops) (hr : o.isRead) :
    (∃ b, w.stream ++ [b] <+: upToNext ps w ∧ upToNext ps w <+: WireMessage.stream ps) ∨
    ((w.io (.recv o.id 1)).isSome ∧ w.taken.length < (upToNext ps w).length) ∨
    (w.io (.runOp o.id)).isSome := by
  obtain ⟨bs, hcycle⟩ := h.cycle
  have hfind := op?_of_mem hcycle.id_inj ho
  have hsound := (h.running hopen).2 o ho
  by_cases hp : o.progress = .pending
  · have htaken := h.taken_lt hps hleft ho hr hp
    have hupTo := upToNext_isPrefix ps w
    cases hin : w.incoming with
    | nil =>
      -- the peer has more to send
      have hstream : w.stream = w.taken := by rw [World.stream, hin, List.append_nil]
      obtain ⟨y, hy⟩ := List.prefix_of_prefix_length_le h.stream hupTo (hstream ▸ htaken.le)
      cases y with
      | nil => simp [← hy, hstream] at htaken
      | cons b y => exact .inl ⟨b, ⟨y, by simp [← hy]⟩, hupTo⟩
    | cons b incoming =>
      -- the read has room for one more byte
      refine .inr (.inl ⟨?_, htaken⟩)
      have hstate := hcycle.ops o ho
      cases hk : o.kind with
      | readUntil =>
        simp only [OpState, hk, hp] at hstate
        simp [World.io, hfind, World.recv, hopen, hp, hin, hk, Nat.succ_le_of_lt hstate.2.2.2]
      | readExactly r msg =>
        simp only [OpState, hk, hp] at hstate
        simp [World.io, hfind, World.recv, hopen, hp, hin, hk, Nat.succ_le_of_lt hstate.2.1]
      | write payload => simp [Op.isRead, hk] at hr
  · -- the operation is done, and its handler can run
    refine .inr (.inr ?_)
    rcases hsound with hpending | hdone | ⟨-, hfull⟩
    · exact absurd hpending hp
    · simp [World.io, hfind, hdone]
    · simp [World.io, hfind, hfull]

end OrderlyState

end Dss.Http
