import Dss.Http.ReadCycle

/-!
# What a peer can make a session read

The limits of `http_configuration` bound what a session takes off its socket: since
the last message it has delivered, at most the limits of a header and a body, however
much the peer sends, and no more is ever in its buffer (`input_bounded`). This
holds as long as the read cycles do not overlap, whatever fails or times out.

That a read of the rest of a body keeps within the limits follows from the invariant
of the read cycle, which accounts for the bytes of the message it belongs to.
-/

namespace Dss.Http

open Dss.Lib

variable {L : Type}

/-- The bytes taken off the socket until the last delivery. -/
def World.consumed (w : World L) : ℕ := (w.delivered.getLast?.map (·.taken.length)).getD 0

/-- The limits hold of what has been read since the last delivery, and of the
    buffer. -/
structure InputBound (cfg : HttpConfiguration) (w : World L) : Prop where
  taken_le : w.taken.length ≤ w.consumed + cfg.maxHeaderSize + cfg.maxBodySize
  buffer_le : w.session.buffer.length ≤ cfg.maxHeaderSize + cfg.maxBodySize

variable [StartLine L] {cfg : HttpConfiguration} {w w' : World L} {bs : List Bytes}
  {e : IoEvent} {hook : Option (HookCall L)}

omit [StartLine L] in
theorem consumed_of_deliver (w : World L) (msg : Message L) (g : Bool) :
    (w.record (some ⟨.messageParsed msg, g⟩)).consumed = w.taken.length := by
  simp [World.consumed, World.record]

/-- The bytes of the messages delivered are those taken until the last delivery. -/
theorem FramedBy.length_flatten {ds : List (Delivery L)} (h : FramedBy cfg bs ds) :
    bs.flatten.length = (ds.getLast?.map (·.taken.length)).getD 0 := by
  cases h with
  | nil => rfl
  | snoc _ _ htaken => simp [htaken]

theorem ReadCycle.consumed_eq (h : ReadCycle cfg bs w) : w.consumed = bs.flatten.length :=
  h.framed.length_flatten.symm

/-- The handler of a header that has been read adds nothing to the buffer. -/
theorem Session.length_buffer_onHeadersRead (s : Session L) (ec : Option ErrorCode) :
    (s.onHeadersRead ec).1.buffer.length ≤ s.buffer.length := by
  have hline : (((getline s.buffer).map Prod.snd).getD []).length ≤ s.buffer.length := by
    cases hline : getline s.buffer with
    | none => exact Nat.zero_le _
    | some p => exact (length_of_getline hline).le
  unfold onHeadersRead
  dsimp only [cancelTimer]
  split
  · exact le_rfl
  · exact le_rfl
  · exact le_rfl
  · -- past the checks of the header the buffer is empty
    repeat' split
    all_goals first | exact le_rfl | exact hline | exact Nat.zero_le _

namespace World

/-- Nor does that of any operation. -/
theorem length_buffer_runOp {id : ℕ} (h : w.io (.runOp id) = some (w', hook)) :
    w'.session.buffer.length ≤ w.session.buffer.length := by
  simp only [io, Option.bind_eq_some_iff] at h
  obtain ⟨o, -, h⟩ := h
  split at h
  next => cases h
  next ec hp =>
    obtain ⟨rfl, rfl⟩ := Prod.mk.inj (Option.some.inj h)
    rw [record_session, Session.handle]
    cases o.kind with
    | readUntil => exact Session.length_buffer_onHeadersRead _ ec
    | readExactly r msg => cases ec <;> simp [Session.onBodyRead, Session.cancelTimer]
    | write payload => cases ec <;> exact le_rfl

/-- Only a read takes bytes off the socket, or fills the buffer; and what has been
    taken is consumed by a delivery. -/
theorem io_of_not_recv (h : w.io e = some (w', hook)) (he : ∀ id n, e ≠ .recv id n) :
    w'.taken = w.taken ∧ w'.session.buffer.length ≤ w.session.buffer.length ∧
      (w'.consumed = w.consumed ∨ w'.consumed = w'.taken.length) := by
  cases io_cases h with
  | recvUntil | recvExactly => exact absurd rfl (he _ _)
  | arrive | expire | waitOver | fail | sent => exact ⟨rfl, le_rfl, .inl rfl⟩
  | aborted | failed | headersRead | written =>
    exact ⟨rfl, length_buffer_runOp h, .inl rfl⟩
  | headersParsed | bodyRead =>
    exact ⟨rfl, length_buffer_runOp h, .inr (consumed_of_deliver _ _ _)⟩
  | timedOut => exact ⟨rfl, by simp [call, dropWait], .inl rfl⟩

end World

namespace InputBound

omit [StartLine L] in
theorem fresh (cfg : HttpConfiguration) : InputBound cfg (World.fresh L cfg) where
  taken_le := Nat.zero_le _
  buffer_le := Nat.zero_le _

omit [StartLine L] in
/-- Nothing is read, and nothing but the buffer forgotten. -/
theorem congr (h : InputBound cfg w) (htaken : w'.taken = w.taken)
    (hbuffer : w'.session.buffer.length ≤ w.session.buffer.length)
    (hconsumed : w'.consumed = w.consumed ∨ w'.consumed = w'.taken.length) :
    InputBound cfg w' where
  taken_le := by
    have hle := h.taken_le
    rcases hconsumed with hconsumed | hconsumed
    · rw [htaken, hconsumed]
      exact hle
    · omega
  buffer_le := hbuffer.trans h.buffer_le

omit [StartLine L] in
theorem shutdown (h : InputBound cfg w) : InputBound cfg (w.call .shutdown) :=
  h.congr rfl (by simp [World.call]) (.inl rfl)

/-- An event keeps the limits: a read of the header fills the buffer at most, and one
    of the rest of a body ends with it. -/
theorem io (h : InputBound cfg w) (hcycle : ReadCycle cfg bs w)
    (hio : w.io e = some (w', hook)) : InputBound cfg w' := by
  by_cases he : ∀ id n, e ≠ .recv id n
  · obtain ⟨htaken, hbuffer, hconsumed⟩ := World.io_of_not_recv hio he
    exact h.congr htaken hbuffer hconsumed
  · have hcap := cfg.capacity_eq
    have hconsumed := hcycle.consumed_eq
    cases World.io_cases hio with
    | @recvUntil o n ho hk hp hopen hpos hn hle =>
      have hstate := hcycle.ops o ho
      simp only [OpState, hk, hp] at hstate
      have htaken := congrArg List.length hstate.2.1
      rw [List.length_append] at htaken
      rw [hcycle.cfg_eq] at hle
      constructor
      · show (w.taken ++ w.incoming.take n).length ≤ w.consumed + _ + _
        rw [List.length_append, List.length_take_of_le hn]
        omega
      · show (w.session.buffer ++ w.incoming.take n).length ≤ _
        rw [List.length_append, List.length_take_of_le hn]
        omega
    | @recvExactly o n r msg ho hk hp hopen hpos hn hr =>
      have hstate := hcycle.ops o ho
      simp only [OpState, hk, hp] at hstate
      obtain ⟨-, -, x, m, htaken, hacc, hlen⟩ := hstate
      -- what has been read of the message is its header and a part of its body
      obtain ⟨hdr, hx, hhdr⟩ := hacc.exists_header
      have hbody := hacc.length_le
      rw [hcycle.cfg_eq] at hhdr hbody
      have hxlen := congrArg List.length hx
      have htaken := congrArg List.length htaken
      simp only [List.length_append] at htaken hxlen
      constructor
      · show (w.taken ++ w.incoming.take n).length ≤ w.consumed + _ + _
        rw [List.length_append, List.length_take_of_le hn]
        omega
      · show (w.session.buffer ++ w.incoming.take n).length ≤ _
        rw [List.length_append, List.length_take_of_le hn]
        omega
    | _ => exact absurd (fun _ _ h => by cases h) he

omit [StartLine L] in
theorem settle (h : InputBound cfg w) (hook : Option (HookCall L)) :
    InputBound cfg (w.settle hook) := by
  match hook with
  | some ⟨.error _, _⟩ => exact h.shutdown
  | none | some ⟨.messageParsed _, _⟩ | some ⟨.writeComplete, _⟩ => exact h

/-- So does every step of a session whose read cycles do not overlap. -/
theorem step {e : SessionEvent} (h : InputBound cfg w) (hcycle : ReadCycle cfg bs w)
    (hs : w.step e = some w') : InputBound cfg w' := by
  cases e with
  | io e =>
    obtain ⟨⟨w₁, hook⟩, hio, rfl⟩ := Option.map_eq_some_iff.1 hs
    exact (h.io hcycle hio).settle hook
  | call c =>
    obtain rfl := Option.some.inj hs
    cases c with
    | doRead | doWrite => exact h.congr rfl le_rfl (.inl rfl)
    | shutdown => exact h.shutdown
  | caught =>
    obtain rfl := Option.some.inj hs
    have hrec : InputBound cfg (w.record (some ⟨.error .invalidArgument, false⟩)) :=
      h.congr rfl le_rfl (.inl rfl)
    exact hrec.shutdown

theorem run {P : World L → SessionEvent → Prop} {es : List SessionEvent} (h : InputBound cfg w)
    (hcycle : ReadCycle cfg bs w) (hrun : Run World.step (World.SingleRead P) w es w') :
    InputBound cfg w' := by
  have hboth : InputBound cfg w' ∧ ∃ bs, ReadCycle cfg bs w' :=
    hrun.invariant (I := fun w => InputBound cfg w ∧ ∃ bs, ReadCycle cfg bs w) ⟨h, bs, hcycle⟩
      fun _ _ _ ⟨hI, _, hcycle⟩ hok hs => ⟨hI.step hcycle hs, hcycle.step hok hs⟩
  exact hboth.1

end InputBound

/-! ## Server sessions and client sessions -/

theorem ServerSession.inputBound {sv : Service} {es : List IoEvent} {s : ServerSession}
    (h : Run (step sv) always (start cfg) es s) : InputBound cfg s.world := by
  have hstart : InputBound cfg (start cfg).world :=
    (InputBound.fresh cfg).congr rfl le_rfl (.inl rfl)
  have hcycle : ReadCycle cfg [] (start cfg).world :=
    (readCycle_fresh cfg).doRead (by simp [World.fresh])
  obtain ⟨es', hrun⟩ := exists_run (P := fun _ _ => True) le_rfl h
  exact hstart.run hcycle hrun

theorem ClientSession.inputBound {ep : Endpoint} {es : List ClientEvent} {s : ClientSession}
    (h : Run (step ep) (ReadsSerially ep) (create cfg) es s)
    (hes : es.countP ClientEvent.isConnect ≤ 1) : InputBound cfg s.world := by
  induction h with
  | nil => exact ⟨Nat.zero_le _, Nat.zero_le _⟩
  | @snoc es s t e hrun hok hs ih =>
    have hle : es.countP ClientEvent.isConnect ≤ 1 :=
      (List.sublist_append_left _ _).countP_le.trans hes
    obtain ⟨bs, hcycle⟩ := exists_readCycle hrun hle
    cases he : e.isConnect with
    | false =>
      obtain ⟨es', hrun'⟩ := exists_run_step he (hok t hs) hs
      exact (ih hle).run hcycle hrun'
    | true =>
      obtain rfl : e = .connect := by
        cases e with
        | connect => rfl
        | _ => cases he
      obtain rfl := Option.some.inj hs
      exact (ih hle).congr rfl le_rfl (.inl rfl)

/-- However much its peer sends, and whatever fails or times out: since the last
    message it has delivered, a session has read no more than the limits of a header
    and a body, and it has no more in its buffer. -/
theorem input_bounded (cfg : HttpConfiguration) :
    (∀ (sv : Service) (es : List IoEvent) (s : ServerSession),
      Run (ServerSession.step sv) always (ServerSession.start cfg) es s →
      s.world.taken.length ≤ s.world.consumed + cfg.maxHeaderSize + cfg.maxBodySize ∧
        s.world.session.buffer.length ≤ cfg.maxHeaderSize + cfg.maxBodySize) ∧
    ∀ (ep : Endpoint) (es : List ClientEvent) (s : ClientSession),
      Run (ClientSession.step ep) (ClientSession.ReadsSerially ep) (ClientSession.create cfg) es s →
      es.countP ClientEvent.isConnect ≤ 1 →
        s.world.taken.length ≤ s.world.consumed + cfg.maxHeaderSize + cfg.maxBodySize ∧
          s.world.session.buffer.length ≤ cfg.maxHeaderSize + cfg.maxBodySize := by
  refine ⟨fun sv es s h => ?_, fun ep es s h hes => ?_⟩
  · have hbound := ServerSession.inputBound h
    exact ⟨hbound.taken_le, hbound.buffer_le⟩
  · have hbound := ClientSession.inputBound h hes
    exact ⟨hbound.taken_le, hbound.buffer_le⟩

/-- A first line that does not end, and a response. -/
theorem input_bounded_flood :
    (∃ s, Run (ServerSession.step ⟨fun _ _ => .error [], fun _ => default⟩) always
        (ServerSession.start { maxHeaderSize := 8, maxBodySize := 4 })
        [.arrive (ascii "GET /index.html"), .recv 0 12, .runOp 0] s ∧
      s.world.session.isOpen = false ∧ s.world.consumed = 0 ∧
      s.world.taken.length ≤ s.world.consumed + 8 + 4) ∧
    ∃ s, Run (ClientSession.step ⟨[], 80, fun _ => default⟩)
        (ClientSession.ReadsSerially ⟨[], 80, fun _ => default⟩)
        (ClientSession.create { maxHeaderSize := 12, maxBodySize := 0 })
        [.connect, .request (.get (ascii "/") ∅) true, .io (.sent 0), .io (.runOp 0),
          .io (.arrive (ascii "v 200 OK\r\n\r\n")), .io (.recv 1 12), .io (.runOp 1)] s ∧
      s.world.consumed = 12 ∧ s.world.taken.length ≤ s.world.consumed + 12 + 0 := by
  constructor
  · obtain ⟨s, hs, hstate⟩ := Option.map_eq_some_iff.1 (by decide +kernel :
      (exec (ServerSession.step ⟨fun _ _ => .error [], fun _ => default⟩)
        (ServerSession.start { maxHeaderSize := 8, maxBodySize := 4 })
        [.arrive (ascii "GET /index.html"), .recv 0 12, .runOp 0]).map
        (fun s => (s.world.session.isOpen, s.world.consumed)) = some (false, 0))
    obtain ⟨hclosed, hconsumed⟩ := Prod.mk.inj hstate
    have hrun : Run _ always _ _ s := .of_exec (by decide +kernel) hs
    have hbound := (input_bounded { maxHeaderSize := 8, maxBodySize := 4 }).1 _ _ s hrun
    exact ⟨s, hrun, hclosed, hconsumed, hbound.1⟩
  · obtain ⟨s, hs, hconsumed⟩ := Option.map_eq_some_iff.1 (by decide +kernel :
      (exec (ClientSession.step ⟨[], 80, fun _ => default⟩)
        (ClientSession.create { maxHeaderSize := 12, maxBodySize := 0 })
        [.connect, .request (.get (ascii "/") ∅) true, .io (.sent 0), .io (.runOp 0),
          .io (.arrive (ascii "v 200 OK\r\n\r\n")), .io (.recv 1 12), .io (.runOp 1)]).map
        (·.world.consumed) = some 12)
    have hrun : Run _ (ClientSession.ReadsSerially ⟨[], 80, fun _ => default⟩) _ _ s :=
      .of_exec (by decide +kernel) hs
    have hbound :=
      (input_bounded { maxHeaderSize := 12, maxBodySize := 0 }).2 _ _ s hrun (by decide)
    exact ⟨s, hrun, hconsumed, hbound.1⟩

end Dss.Http
