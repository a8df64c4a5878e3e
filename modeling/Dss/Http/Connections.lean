import Dss.Http.ReadCycle

/-!
# The connections of a session

A server session has one connection, a client session may connect again. What it
has read and delivered on the last connection is cut out of its past by
`World.since`; the steps of a session do not depend on that past (`step_resume`).

The stream of a peer is that of one connection. Connecting clears neither
`m_buffer` nor the queue of the event loop, so what a failed read has left in the
buffer becomes the start of the first message of the next connection
(`not_framed_reconnect`). Where every connection finds the buffer empty, its
messages are made of its own bytes (`readCycles_framed`).
-/

namespace Dss.Http

open Dss.Lib

variable {L : Type}

namespace World

/-- What has been read and delivered since `w₀`. -/
def since (w w₀ : World L) : World L :=
  { w with
    taken := w.taken.drop w₀.taken.length
    delivered := (w.delivered.drop w₀.delivered.length).map fun d =>
      { d with taken := d.taken.drop w₀.taken.length } }

/-- The world `u` of a connection, after all that `w₀` has read and delivered. -/
def resume (w₀ u : World L) : World L :=
  { u with
    taken := w₀.taken ++ u.taken
    delivered := w₀.delivered ++ u.delivered.map fun d => { d with taken := w₀.taken ++ d.taken } }

@[simp] theorem since_session (w w₀ : World L) : (w.since w₀).session = w.session := rfl

@[simp] theorem since_self_taken (w : World L) : (w.since w).taken = [] := by simp [since]

@[simp] theorem since_self_delivered (w : World L) : (w.since w).delivered = [] := by simp [since]

@[simp] theorem since_resume (w₀ u : World L) : (w₀.resume u).since w₀ = u := by
  have hid : ((fun d : Delivery L => { d with taken := d.taken.drop w₀.taken.length }) ∘
      fun d => { d with taken := w₀.taken ++ d.taken }) = id := by
    funext d
    simp
  simp [since, resume, hid]

@[simp] theorem resume_since_self (w : World L) : w.resume (w.since w) = w := by
  simp [since, resume]

/-! ### Steps -/

@[simp] theorem resume_session (w₀ u : World L) : (w₀.resume u).session = u.session := rfl

@[simp] theorem resume_incoming (w₀ u : World L) : (w₀.resume u).incoming = u.incoming := rfl

theorem resume_record (w₀ u : World L) (hook : Option (HookCall L)) :
    (w₀.resume u).record hook = w₀.resume (u.record hook) := by
  unfold record
  split <;> simp [resume]

theorem resume_take (w₀ u : World L) (n : ℕ) :
    (w₀.resume u).take n = w₀.resume (u.take n) := by
  simp [take, resume]

theorem resume_recv (w₀ u : World L) (o : Op L) (n : ℕ) :
    (w₀.resume u).recv o n = (u.recv o n).map w₀.resume := by
  simp only [recv, resume_take, resume_session, resume_incoming]
  cases o.kind with
  | readUntil | readExactly r msg | write payload =>
    dsimp only
    split_ifs <;> rfl

theorem resume_settle (w₀ u : World L) (hook : Option (HookCall L)) :
    (w₀.resume u).settle hook = w₀.resume (u.settle hook) := by
  cases hook with
  | none => rfl
  | some c =>
    obtain ⟨hook, b⟩ := c
    cases hook <;> rfl

variable [StartLine L]

/-- A step does not depend on what happened before the connection. -/
theorem resume_io (w₀ u : World L) (e : IoEvent) :
    (w₀.resume u).io e = (u.io e).map fun (u, hook) => (w₀.resume u, hook) := by
  have hop (id : ℕ) : (w₀.resume u).op? id = u.op? id := rfl
  cases e with
  | arrive bytes => rfl
  | recv id n =>
    simp only [io, hop]
    cases u.op? id with
    | none => rfl
    | some o => simp [resume_recv, Function.comp_def]
  | fail id ec | sent id =>
    simp only [io, hop, resume_session]
    cases u.op? id with
    | none => rfl
    | some o =>
      simp only [Option.bind_some, apply_ite (Option.map _)]
      rfl
  | expire =>
    simp only [io, resume_session, apply_ite (Option.map _)]
    rfl
  | runOp id =>
    simp only [io, hop, resume_session]
    cases u.op? id with
    | none => rfl
    | some o =>
      simp only [Option.bind_some]
      cases o.progress with
      | pending => rfl
      | done ec =>
        exact congrArg (fun w => some (w, _)) (resume_record w₀
          { u with session := _, completed := u.completed ++ [id] } _)
  | runWait guarded =>
    simp only [io, resume_session]
    cases u.session.waits.find? (·.guarded = guarded) with
    | none => rfl
    | some v =>
      simp only [Option.bind_some]
      split_ifs
      · rfl
      · exact congrArg (fun w => some (w, _)) (resume_record w₀
          { u with session := _, timeouts := u.timeouts ++ [guarded] } _)
      · exact congrArg (fun w => some (w, _)) (resume_record w₀ { u with session := _ } _)

/-- So neither does a step of the derived class. -/
theorem resume_step (w₀ u : World L) (e : SessionEvent) :
    (w₀.resume u).step e = (u.step e).map w₀.resume := by
  cases e with
  | io e =>
    simp only [step, resume_io, Option.map_map]
    congr 1
    funext p
    exact resume_settle w₀ p.1 p.2
  | call c => cases c <;> rfl
  | caught =>
    simp only [step, resume_record]
    rfl

end World

variable {cfg : HttpConfiguration} {bs : List Bytes}

/-- A run of a session keeps the invariant of its connection. -/
theorem ReadCycle.run_resume [StartLine L] {w₀ u w : World L} {es : List SessionEvent}
    (h : ReadCycle cfg bs u)
    (hrun : Run World.step (World.SingleRead fun _ _ => True) (w₀.resume u) es w) :
    ∃ u bs, w = w₀.resume u ∧ ReadCycle cfg bs u := by
  refine hrun.invariant (I := fun w => ∃ u bs, w = w₀.resume u ∧ ReadCycle cfg bs u)
    ⟨u, bs, rfl, h⟩ fun w e w' hI hok hs => ?_
  obtain ⟨u, bs, rfl, hcycle⟩ := hI
  rw [World.resume_step] at hs
  obtain ⟨u', hu', rfl⟩ := Option.map_eq_some_iff.1 hs
  obtain ⟨bs', hcycle'⟩ := hcycle.step (P := fun _ _ => True) hok hu'
  exact ⟨u', bs', rfl, hcycle'⟩

/-! ## Client sessions -/

namespace ClientSession

variable {ep : Endpoint} {es : List ClientEvent} {s t : ClientSession} {e : ClientEvent}
  {w₀ u : World StatusLine}

/-- A step that connects finds the buffer empty. -/
def ConnectsEmpty (s : ClientSession) (e : ClientEvent) : Prop :=
  e.isConnect → s.world.session.buffer = []

instance (s : ClientSession) (e : ClientEvent) : Decidable (ConnectsEmpty s e) :=
  inferInstanceAs (Decidable (_ → _))

/-- The events lead to the start of a connection: the last one opens it, or there
    is none. -/
def Opening (es : List ClientEvent) : Prop := ∀ e ∈ es.getLast?, e.isConnect

instance (es : List ClientEvent) : Decidable (Opening es) :=
  inferInstanceAs (Decidable (∀ e ∈ es.getLast?, e.isConnect))

/-- Connecting with nothing in the buffer starts the first cycle of the new
    connection. -/
theorem readCycle_connect (h : ReadCycle cfg bs u)
    (hu : u.session = s.world.session) (hempty : s.world.session.buffer = [])
    (hs : step ep s .connect = some t) : ReadCycle cfg [] (t.world.since t.world) := by
  obtain rfl := Option.some.inj hs
  exact h.reopen (hu ▸ hempty) (by simp [hu]) (by simp [hu]) (by simp [hu]) hempty
    (World.since_self_taken _) (World.since_self_delivered _)

/-- Nothing has been read before the first connection. -/
theorem readCycle_create (cfg : HttpConfiguration) :
    ReadCycle cfg [] ((create cfg).world.since (create cfg).world) :=
  Unconnected.readCycle ⟨rfl, rfl, rfl, rfl, rfl, rfl⟩

/-- A step that opens no connection keeps the invariant. -/
theorem exists_readCycle_of_step (hcycle : ReadCycle cfg bs u) (hu : s.world = w₀.resume u)
    (hserial : ReadsSerially ep s e) (he : e.isConnect = false) (hs : step ep s e = some t) :
    ∃ u bs, t.world = w₀.resume u ∧ ReadCycle cfg bs u := by
  obtain ⟨es, hrun⟩ := exists_run_step he (hserial t hs) hs
  exact hcycle.run_resume (hu ▸ hrun)

/-- So does a run on one connection. -/
theorem exists_readCycle_of_run (hcycle : ReadCycle cfg bs u) (hu : s.world = w₀.resume u)
    (h : Run (step ep) (ReadsSerially ep) s es t) (hes : ∀ e ∈ es, e.isConnect = false) :
    ∃ u bs, t.world = w₀.resume u ∧ ReadCycle cfg bs u := by
  induction h with
  | nil => exact ⟨u, bs, hu, hcycle⟩
  | snoc _ hserial hs ih =>
    rw [List.forall_mem_append, List.forall_mem_singleton] at hes
    obtain ⟨u', bs', hu', hcycle'⟩ := ih hes.1
    exact exists_readCycle_of_step hcycle' hu' hserial hes.2 hs

/-- Every state has the invariant of its last connection, which is at its start
    when it has just been opened. -/
theorem readCycle_since
    (h : Run (step ep) (fun s e => ReadsSerially ep s e ∧ ConnectsEmpty s e) (create cfg) es s) :
    (∃ (w₀ u : World StatusLine) (bs : List Bytes), s.world = w₀.resume u ∧ ReadCycle cfg bs u) ∧
      (Opening es → ReadCycle cfg [] (s.world.since s.world)) := by
  induction h with
  | nil => exact ⟨⟨_, _, [], (World.resume_since_self _).symm, readCycle_create cfg⟩,
      fun _ => readCycle_create cfg⟩
  | @snoc es s t e _ hok hs ih =>
    obtain ⟨⟨w₀, u, bs, hu, hcycle⟩, -⟩ := ih
    cases he : e.isConnect with
    | true =>
      obtain rfl : e = .connect := by
        cases e with
        | connect => rfl
        | _ => cases he
      have hnew := readCycle_connect hcycle (by rw [hu, World.resume_session]) (hok.2 rfl) hs
      exact ⟨⟨_, _, [], (World.resume_since_self _).symm, hnew⟩, fun _ => hnew⟩
    | false =>
      obtain ⟨u', bs', hu', hcycle'⟩ := exists_readCycle_of_step hcycle hu hok.1 he hs
      refine ⟨⟨w₀, u', bs', hu', hcycle'⟩, fun hopening => ?_⟩
      have hconn := hopening e (by simp)
      rw [he] at hconn
      cases hconn

end ClientSession

/-- No byte is lost, duplicated or misattributed: in every run of a server
    session, the messages delivered are framed by byte strings that make up a
    prefix of the stream, and exactly what has been taken off the socket at each
    delivery. So they are on every connection of a client session, where read
    cycles do not overlap and every connection finds the buffer empty. -/
theorem readCycles_framed (cfg : HttpConfiguration) :
    (∀ (sv : Service) (es : List IoEvent) (s : ServerSession),
      Run (ServerSession.step sv) always (ServerSession.start cfg) es s →
      s.world.session.Serial ∧
        ∃ bs, FramedBy cfg bs s.world.delivered ∧ bs.flatten <+: s.world.stream) ∧
    ∀ (ep : Endpoint) (es₀ es : List ClientEvent) (s₀ s : ClientSession),
      Run (ClientSession.step ep)
        (fun s e => ClientSession.ReadsSerially ep s e ∧ ClientSession.ConnectsEmpty s e)
        (ClientSession.create cfg) es₀ s₀ →
      ClientSession.Opening es₀ →
      Run (ClientSession.step ep) (ClientSession.ReadsSerially ep) s₀ es s →
      (∀ e ∈ es, e.isConnect = false) →
        ∃ bs, FramedBy cfg bs (s.world.since s₀.world).delivered ∧
          bs.flatten <+: (s.world.since s₀.world).stream := by
  refine ⟨fun sv es s h => ⟨ServerSession.serial h, ?_⟩, fun ep es₀ es s₀ s h₀ hopening h hes => ?_⟩
  · obtain ⟨bs, hbs⟩ := ServerSession.exists_readCycle h
    exact ⟨bs, hbs.framed, hbs.prefix_stream⟩
  · have hcycle := (ClientSession.readCycle_since h₀).2 hopening
    obtain ⟨u, bs, hu, hcycle⟩ := ClientSession.exists_readCycle_of_run hcycle
      (World.resume_since_self _).symm h hes
    rw [hu, World.since_resume]
    exact ⟨bs, hcycle.framed, hcycle.prefix_stream⟩

/-- A request whose body comes with a second read, and a response on the second
    connection of a client. -/
theorem readCycles_framed_exchange :
    (∃ s bs, Run (ServerSession.step ⟨fun _ _ => .error [], fun _ => default⟩) always
        (ServerSession.start {})
        [.arrive (ascii "POST / v\r\ncontent-length: 2\r\n\r\na"), .recv 0 32, .runOp 0,
          .arrive (ascii "b"), .recv 1 1, .runOp 1] s ∧
      s.world.delivered.length = 1 ∧ FramedBy {} bs s.world.delivered) ∧
    ∃ s₀ s bs, Run (ClientSession.step ⟨[], 80, fun _ => default⟩)
        (fun s e => ClientSession.ReadsSerially ⟨[], 80, fun _ => default⟩ s e ∧
          ClientSession.ConnectsEmpty s e) (ClientSession.create {})
        [.connect, .request (.get (ascii "/") ∅) true, .io (.sent 0), .io (.runOp 0),
          .io (.arrive (ascii "v 200 OK\r\n\r\n")), .io (.recv 1 12), .io (.runOp 1), .ret,
          .connect] s₀ ∧
      Run (ClientSession.step ⟨[], 80, fun _ => default⟩)
        (ClientSession.ReadsSerially ⟨[], 80, fun _ => default⟩) s₀
        [.request (.get (ascii "/") ∅) true, .io (.sent 2), .io (.runOp 2),
          .io (.arrive (ascii "w 200 OK\r\n\r\n")), .io (.recv 3 12), .io (.runOp 3)] s ∧
      (s.world.since s₀.world).delivered.length = 1 ∧
      FramedBy {} bs (s.world.since s₀.world).delivered := by
  constructor
  · obtain ⟨s, hs, hlen⟩ := Option.map_eq_some_iff.1 (by decide +kernel :
      (exec (ServerSession.step ⟨fun _ _ => .error [], fun _ => default⟩) (ServerSession.start {})
        [.arrive (ascii "POST / v\r\ncontent-length: 2\r\n\r\na"), .recv 0 32, .runOp 0,
          .arrive (ascii "b"), .recv 1 1, .runOp 1]).map (·.world.delivered.length) = some 1)
    have hrun : Run _ always _ _ s := .of_exec (by decide +kernel) hs
    obtain ⟨bs, hbs, -⟩ := ((readCycles_framed {}).1 _ _ s hrun).2
    exact ⟨s, bs, hrun, hlen, hbs⟩
  · obtain ⟨s₀, hs₀, hok, s, hs, hlen⟩ : ∃ s₀ ∈
        exec (ClientSession.step ⟨[], 80, fun _ => default⟩) (ClientSession.create {})
          [.connect, .request (.get (ascii "/") ∅) true, .io (.sent 0), .io (.runOp 0),
            .io (.arrive (ascii "v 200 OK\r\n\r\n")), .io (.recv 1 12), .io (.runOp 1), .ret,
            .connect],
        Allowed (ClientSession.step ⟨[], 80, fun _ => default⟩)
          (ClientSession.ReadsSerially ⟨[], 80, fun _ => default⟩) s₀
          [.request (.get (ascii "/") ∅) true, .io (.sent 2), .io (.runOp 2),
            .io (.arrive (ascii "w 200 OK\r\n\r\n")), .io (.recv 3 12), .io (.runOp 3)] ∧
        ∃ s ∈ exec (ClientSession.step ⟨[], 80, fun _ => default⟩) s₀
          [.request (.get (ascii "/") ∅) true, .io (.sent 2), .io (.runOp 2),
            .io (.arrive (ascii "w 200 OK\r\n\r\n")), .io (.recv 3 12), .io (.runOp 3)],
          (s.world.since s₀.world).delivered.length = 1 := by decide +kernel
    have hrun₀ : Run _ (fun s e => ClientSession.ReadsSerially ⟨[], 80, fun _ => default⟩ s e ∧
        ClientSession.ConnectsEmpty s e) _ _ s₀ := .of_exec (by decide +kernel) hs₀
    have hrun : Run _ (ClientSession.ReadsSerially ⟨[], 80, fun _ => default⟩) s₀ _ s :=
      .of_exec hok hs
    obtain ⟨bs, hbs, -⟩ := (readCycles_framed {}).2 _ _ _ s₀ s hrun₀ (by decide) hrun (by decide)
    exact ⟨s₀, s, bs, hrun₀, hrun, hlen, hbs⟩

/-- The first message delivered is parsed from all that has been read. -/
theorem FramedBy.parse_singleton [StartLine L] {d : Delivery L} (h : FramedBy cfg bs [d]) :
    Message.parse d.taken = .ok d.msg := by
  generalize hds : [d] = ds at h
  cases h with
  | nil => cases hds
  | @snoc bs ds b d' hbs hb htaken =>
    rw [← List.nil_append [d]] at hds
    obtain ⟨hnil, hd⟩ := List.append_inj' hds rfl
    obtain rfl := List.singleton_inj.1 hd
    -- nothing has been delivered before
    have hflatten : bs.flatten = [] := by
      cases hbs with
      | nil => rfl
      | snoc => simp at hnil
    rw [htaken, hflatten, List.nil_append]
    exact hb.parse

/-- A connection fails after two of the three bytes of a body. The second one,
    which is in the buffer, becomes a part of the response on the next
    connection. -/
theorem not_framed_reconnect :
    ∃ s₀ s, Run (ClientSession.step ⟨[], 80, fun _ => default⟩)
        (ClientSession.ReadsSerially ⟨[], 80, fun _ => default⟩) (ClientSession.create {})
        [.connect, .request (.get (ascii "/") ∅) true, .io (.sent 0), .io (.runOp 0),
          .io (.arrive (ascii "v 200 OK\r\ncontent-length: 3\r\n\r\na")), .io (.recv 1 32),
          .io (.runOp 1), .io (.arrive (ascii "b")), .io (.recv 2 1), .io (.fail 2 (.other 2)),
          .io (.runOp 2), .ret, .connect] s₀ ∧
      Run (ClientSession.step ⟨[], 80, fun _ => default⟩)
        (ClientSession.ReadsSerially ⟨[], 80, fun _ => default⟩) s₀
        [.request (.get (ascii "/") ∅) true, .io (.sent 3), .io (.runOp 3),
          .io (.arrive (ascii "v 200 OK\r\n\r\n")), .io (.recv 4 12), .io (.runOp 4)] s ∧
      (¬∃ bs, FramedBy {} bs (s.world.since s₀.world).delivered) ∧
      ¬∃ bs, FramedBy {} bs s.world.delivered := by
  obtain ⟨s₀, hs₀, hok, s, hs, hd, hd'⟩ : ∃ s₀ ∈
      exec (ClientSession.step ⟨[], 80, fun _ => default⟩) (ClientSession.create {})
        [.connect, .request (.get (ascii "/") ∅) true, .io (.sent 0), .io (.runOp 0),
          .io (.arrive (ascii "v 200 OK\r\ncontent-length: 3\r\n\r\na")), .io (.recv 1 32),
          .io (.runOp 1), .io (.arrive (ascii "b")), .io (.recv 2 1), .io (.fail 2 (.other 2)),
          .io (.runOp 2), .ret, .connect],
      Allowed (ClientSession.step ⟨[], 80, fun _ => default⟩)
        (ClientSession.ReadsSerially ⟨[], 80, fun _ => default⟩) s₀
        [.request (.get (ascii "/") ∅) true, .io (.sent 3), .io (.runOp 3),
          .io (.arrive (ascii "v 200 OK\r\n\r\n")), .io (.recv 4 12), .io (.runOp 4)] ∧
      ∃ s ∈ exec (ClientSession.step ⟨[], 80, fun _ => default⟩) s₀
        [.request (.get (ascii "/") ∅) true, .io (.sent 3), .io (.runOp 3),
          .io (.arrive (ascii "v 200 OK\r\n\r\n")), .io (.recv 4 12), .io (.runOp 4)],
        (s.world.since s₀.world).delivered = [⟨⟨⟨.ok, ascii "bv"⟩, ∅, []⟩,
          ascii "v 200 OK\r\n\r\n", []⟩] ∧
        s.world.delivered = [⟨⟨⟨.ok, ascii "bv"⟩, ∅, []⟩,
          ascii "v 200 OK\r\ncontent-length: 3\r\n\r\nabv 200 OK\r\n\r\n", []⟩] := by
    decide +kernel
  have hrun₀ : Run _ (ClientSession.ReadsSerially ⟨[], 80, fun _ => default⟩) _ _ s₀ :=
    .of_exec (by decide +kernel) hs₀
  refine ⟨s₀, s, hrun₀, .of_exec hok hs, fun ⟨bs, hbs⟩ => ?_, fun ⟨bs, hbs⟩ => ?_⟩
  · rw [hd] at hbs
    exact absurd hbs.parse_singleton (by decide +kernel)
  · rw [hd'] at hbs
    exact absurd hbs.parse_singleton (by decide +kernel)

end Dss.Http
