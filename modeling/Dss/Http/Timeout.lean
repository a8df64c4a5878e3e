import Dss.Http.Derived

/-!
# Timeouts

A wait on the timer is to close the session only if the operation it guards has
not completed, and once it has, no message is to be delivered (`Excludes`).
Neither holds in general: `cancel` revokes no wait whose handler is queued, and
closing the socket no completion that is (`timeout_races`). Both hold in the runs
in which the two do not meet (`timeout_excludes`): no operation completes while
the expired wait that guards it is queued, or the other way round, and no expired
wait runs while a delivery is queued (`Apart`). These are runs on one connection:
they start on an open socket, and a session that has been closed is not connected
again.
-/

namespace Dss.Http

open Dss.Lib

variable {L : Type} [StartLine L]

namespace World

/-- The operation `id` has completed: its completion handler is queued, or has
    run. -/
def Completed (w : World L) (id : ℕ) : Prop :=
  id ∈ w.completed ∨ ∃ o ∈ w.session.ops, o.id = id ∧ o.progress ≠ .pending

/-- The event is the last one of the operation `o`. -/
def Finishes (w : World L) (o : Op L) : IoEvent → Prop
  | .recv id n => id = o.id ∧ match o.kind with
    | .readUntil => Session.readUntilProgress w.session.cfg
        (w.session.buffer ++ w.incoming.take n) ≠ .pending
    | .readExactly remaining _ => n = remaining
    | .write _ => False
  | .fail id _ | .sent id => id = o.id
  | _ => False

/-- The completion handler of the operation `o` is queued, and reports an error. -/
def WillFail (w : World L) (o : Op L) : Prop :=
  ∃ ec, o.progress = .done ec ∧ (ec = none → o.kind = .readUntil ∧
    ∀ (msg : Message L) n, ¬Accepted w.session.cfg w.session.buffer msg n)

/-- The step shuts the session down. -/
def ShutsDown (w : World L) : SessionEvent → Prop
  | .io (.runOp id) => ∃ o ∈ w.session.ops, o.id = id ∧ w.WillFail o
  | .io (.runWait guarded) => ∃ v ∈ w.session.waits, v.guarded = guarded ∧ v.state = .fired
  | .call .shutdown | .caught => True
  | _ => False

/-- The step completes the operation `o`, which is pending: it is its last one, or
    it closes the socket. -/
def Completes (w : World L) (e : SessionEvent) (o : Op L) : Prop :=
  (∃ e', e = .io e' ∧ w.Finishes o e') ∨ w.session.isOpen ∧ w.ShutsDown e

omit [StartLine L] in
/-- The reads that have completed with success, whose handlers are queued. -/
def doneReads (w : World L) : List (Op L) :=
  w.session.ops.filter fun o => o.isRead && o.progress = .done none

/-- No delivery is queued: the reads that have completed are reads of a header, and
    none of their handlers finds a whole message in what those before have left in
    the buffer. (There is only one such read where read cycles do not overlap.) -/
structure Undelivering (w : World L) : Prop where
  kind : ∀ o ∈ w.doneReads, o.kind = .readUntil
  buffer : ∀ i < w.doneReads.length, ∀ msg : Message L,
    ¬Accepted w.session.cfg ((leftover L w.session.cfg)^[i] w.session.buffer) msg msg.body.length

/-- The timer and the operations keep apart in the step `e`. -/
structure Apart (w : World L) (e : SessionEvent) : Prop where
  /-- No operation completes while the expired wait that guards it is queued. -/
  completes : ∀ v ∈ w.session.waits, v.state = .fired → e ≠ .io (.runWait v.guarded) →
    ∀ o ∈ w.session.ops, o.id = v.guarded → o.progress = .pending → ¬w.Completes e o
  /-- The timer does not expire while the completion of the operation it guards is
      queued. -/
  expires : e = .io .expire → ∀ v ∈ w.session.waits, v.state = .pending →
    ∀ o ∈ w.session.ops, o.id = v.guarded → o.progress = .pending
  /-- No expired wait runs while a delivery is queued. -/
  runs : ∀ v ∈ w.session.waits, v.state = .fired → e = .io (.runWait v.guarded) → w.Undelivering

/-- A timeout and a completion exclude each other in the step `e` to `w'`: an
    expired wait runs only if the operation it guards has not completed, and
    behind a timeout no message is delivered. -/
structure Excludes (w : World L) (e : SessionEvent) (w' : World L) : Prop where
  timeout : ∀ v ∈ w.session.waits, v.state = .fired → e = .io (.runWait v.guarded) →
    ¬w.Completed v.guarded
  delivery : w.timeouts ≠ [] → w'.delivered = w.delivered

/-- The invariant of the runs in which the timer and the operations keep apart. -/
structure TimerState (w : World L) : Prop where
  waits_lt : ∀ v ∈ w.session.waits, v.guarded < w.session.nextId
  ops_lt : ∀ o ∈ w.session.ops, o.id < w.session.nextId
  completed_lt : ∀ id ∈ w.completed, id < w.session.nextId
  pending : ∀ v ∈ w.session.waits, v.state = .pending → v.guarded ∉ w.completed
  fired : ∀ v ∈ w.session.waits, v.state = .fired → ¬w.Completed v.guarded
  timedOut : w.timeouts ≠ [] → w.session.isOpen = false ∧ w.Undelivering

variable {w w' : World L} {v : Wait} {o : Op L} {e : IoEvent} {hook : Option (HookCall L)}

/-! ## Where waits and operations come from -/

/-- A wait of the next state is a new one, or was there before: it has fired
    only if it had before, or the timer expires, and is pending only if it was and
    no handler of an operation has run. -/
theorem mem_waits_io (hio : Io w e w' hook) (hv : v ∈ (w'.settle hook).session.waits) :
    (v.guarded = w.session.nextId ∧ v.state = .pending ∧
      w.session.nextId < (w'.settle hook).session.nextId) ∨
    ∃ u ∈ w.session.waits, u.guarded = v.guarded ∧
      (v.state = .fired → (u.state = .fired ∧ e ≠ .runWait u.guarded) ∨
        e = .expire ∧ u.state = .pending) ∧
      (v.state = .pending → u.state = .pending ∧ (w'.settle hook).completed = w.completed) := by
  -- a wait cancelled is not pending, and has fired only if it had before
  have hcancel : ∀ {ws : List Wait}, v ∈ ws.map Wait.cancel →
      ∃ u ∈ ws, u.guarded = v.guarded ∧ (v.state = .fired → u.state = .fired) ∧
        v.state ≠ .pending := by
    intro ws hv
    obtain ⟨u, hu, rfl⟩ := List.mem_map.1 hv
    exact ⟨u, hu, by simp, by simp, u.cancel_ne_pending⟩
  cases hio with
  | arrive | recvUntil | recvExactly | fail | sent =>
    exact .inr ⟨v, hv, rfl, fun h => .inl ⟨h, by simp⟩, fun h => ⟨h, rfl⟩⟩
  | expire =>
    obtain ⟨u, hu, rfl⟩ := List.mem_map.1 hv
    refine .inr ⟨u, hu, by simp, fun h => ?_, fun h => absurd h u.expire_ne_pending⟩
    exact (u.expire_fired h).imp (fun h => ⟨h, by simp⟩) fun h => ⟨rfl, h⟩
  | waitOver =>
    obtain ⟨hv, hne⟩ := List.mem_filter.1 hv
    exact .inr ⟨v, hv, rfl, fun h => .inl ⟨h, by simpa using fun h => of_decide_eq_true hne h.symm⟩,
      fun h => ⟨h, rfl⟩⟩
  | @timedOut v₀ =>
    have hv : v ∈ ((w.dropWait v₀).session.waits.map Wait.cancel).map Wait.cancel := by
      simpa only [settle, call, record, Session.shutdown_waits] using hv
    obtain ⟨u, hu, hg, hf, hp⟩ := hcancel hv
    obtain ⟨u₀, hu₀, rfl⟩ := List.mem_map.1 hu
    obtain ⟨hu₀, hne⟩ := List.mem_filter.1 hu₀
    refine .inr ⟨u₀, hu₀, by simpa using hg, fun h => .inl ⟨by simpa using hf h, ?_⟩,
      fun h => absurd h hp⟩
    simpa using fun h => of_decide_eq_true hne h.symm
  | aborted | headersParsed | bodyRead | written =>
    obtain ⟨u, hu, hg, hf, hp⟩ := hcancel hv
    exact .inr ⟨u, hu, hg, fun h => .inl ⟨hf h, by simp⟩, fun h => absurd h hp⟩
  | @failed o =>
    have hv : v ∈ (w.session.waits.map Wait.cancel).map Wait.cancel := by
      simpa only [settle, call, record, withBuffer, handling, Session.shutdown_waits] using hv
    obtain ⟨u, hu, hg, hf, hp⟩ := hcancel hv
    obtain ⟨u₀, hu₀, rfl⟩ := List.mem_map.1 hu
    exact .inr ⟨u₀, hu₀, by simpa using hg, fun h => .inl ⟨by simpa using hf h, by simp⟩,
      fun h => absurd h hp⟩
  | headersRead =>
    rcases List.mem_append.1 hv with hv | hv
    · obtain ⟨u, hu, hg, hf, hp⟩ := hcancel hv
      obtain ⟨u₀, hu₀, rfl⟩ := List.mem_map.1 hu
      exact .inr ⟨u₀, hu₀, by simpa using hg, fun h => .inl ⟨by simpa using hf h, by simp⟩,
        fun h => absurd h hp⟩
    · rw [List.mem_singleton.1 hv]
      exact .inl ⟨rfl, rfl, Nat.lt_succ_self _⟩

theorem nextId_io (hio : Io w e w' hook) :
    w.session.nextId ≤ (w'.settle hook).session.nextId := by
  cases hio with
  | failed | timedOut => simp [settle, call, record, withBuffer, handling, dropWait]
  | headersRead => exact Nat.le_succ _
  | _ => exact le_rfl

/-- An operation of the next state is a new one, or was there before. -/
theorem mem_ops_io (hio : Io w e w' hook) (ho : o ∈ (w'.settle hook).session.ops) :
    (o.id = w.session.nextId ∧ w.session.nextId < (w'.settle hook).session.nextId) ∨
      ∃ p ∈ w.session.ops, p.id = o.id := by
  have hset : ∀ {w₁ : World L} {id kind progress}, w₁.session.ops = w.session.ops →
      o ∈ (w₁.setOp id kind progress).session.ops → ∃ p ∈ w.session.ops, p.id = o.id := by
    intro w₁ id kind progress hops ho
    obtain ⟨p, hp, rfl⟩ := List.mem_map.1 ho
    refine ⟨p, hops ▸ hp, ?_⟩
    split <;> simp_all
  have hshut : ∀ {s : Session L} {o : Op L}, o ∈ s.shutdown.ops → ∃ p ∈ s.ops, p.id = o.id := by
    intro s o ho
    rw [Session.shutdown_ops] at ho
    split at ho
    · obtain ⟨p, hp, rfl⟩ := List.mem_map.1 ho
      exact ⟨p, hp, by simp⟩
    · exact ⟨o, ho, rfl⟩
  cases hio with
  | arrive | expire | waitOver => exact .inr ⟨o, ho, rfl⟩
  | recvUntil | recvExactly | fail | sent => exact .inr (hset rfl ho)
  | aborted | headersParsed | bodyRead | written =>
    exact .inr ⟨o, (List.mem_filter.1 ho).1, rfl⟩
  | failed =>
    obtain ⟨p, hp, hid⟩ := hshut ho
    exact .inr ⟨p, (List.mem_filter.1 hp).1, hid⟩
  | timedOut =>
    obtain ⟨p, hp, hid⟩ := hshut ho
    obtain ⟨q, hq, hid'⟩ := hshut hp
    exact .inr ⟨q, hq, hid'.trans hid⟩
  | headersRead =>
    rcases List.mem_append.1 ho with ho | ho
    · exact .inr ⟨o, (List.mem_filter.1 ho).1, rfl⟩
    · rw [List.mem_singleton.1 ho]
      exact .inl ⟨rfl, Nat.lt_succ_self _⟩

/-- The handlers that have run are those of operations that were there. -/
theorem mem_completed_io (hio : Io w e w' hook) {id : ℕ}
    (hid : id ∈ (w'.settle hook).completed) :
    id ∈ w.completed ∨ ∃ o ∈ w.session.ops, o.id = id := by
  have hhandling : ∀ {o : Op L}, o ∈ w.session.ops → id ∈ w.completed ++ [o.id] →
      id ∈ w.completed ∨ ∃ o ∈ w.session.ops, o.id = id := by
    intro o ho hid
    rcases List.mem_append.1 hid with hid | hid
    · exact .inl hid
    · exact .inr ⟨o, ho, (List.mem_singleton.1 hid).symm⟩
  cases hio with
  | arrive | expire | waitOver | recvUntil | recvExactly | fail | sent | timedOut => exact .inl hid
  | aborted ho | headersParsed ho | bodyRead ho | written ho | failed ho | headersRead ho =>
    exact hhandling ho hid

/-! ## What completes an operation -/

omit [StartLine L] in
theorem completed_setOp {w₁ : World L} {i id : ℕ} {kind : OpKind L} {progress : Progress}
    (hops : w₁.session.ops = w.session.ops) (hcompleted : w₁.completed = w.completed)
    (hnot : ¬w.Completed i) (h : (w₁.setOp id kind progress).Completed i) :
    id = i ∧ progress ≠ .pending := by
  rcases h with hid | ⟨p, hp, hid, hdone⟩
  · exact absurd (.inl (hcompleted ▸ hid)) hnot
  · obtain ⟨q, hq, rfl⟩ := List.mem_map.1 hp
    split at hid
    next hqid =>
      rw [if_pos hqid] at hdone
      exact ⟨hid, hdone⟩
    next hqid =>
      rw [if_neg hqid] at hdone
      exact absurd (.inr ⟨q, hops ▸ hq, hid, hdone⟩) hnot

omit [StartLine L] in
/-- An operation whose handler runs has completed before. -/
theorem completed_handling {i : ℕ} (ho : o ∈ w.session.ops) (hp : o.progress ≠ .pending)
    (h : (w.handling o).Completed i) : w.Completed i := by
  rcases h with hid | ⟨p, hp', hid⟩
  · rcases List.mem_append.1 hid with hid | hid
    · exact .inl hid
    · exact .inr ⟨o, ho, (List.mem_singleton.1 hid).symm, hp⟩
  · exact .inr ⟨p, (List.mem_filter.1 hp').1, hid⟩

omit [StartLine L] in
/-- Closing the socket completes what is pending. -/
theorem completed_shutdown {i : ℕ} (h : (w.call .shutdown).Completed i) :
    w.Completed i ∨
      w.session.isOpen ∧ ∃ o ∈ w.session.ops, o.id = i ∧ o.progress = .pending := by
  rcases h with hid | ⟨p, hp, hid, hdone⟩
  · exact .inl (.inl hid)
  · simp only [call, Session.shutdown_ops] at hp
    split at hp
    next hopen =>
      obtain ⟨q, hq, rfl⟩ := List.mem_map.1 hp
      rw [Op.abort_id] at hid
      by_cases hpending : q.progress = .pending
      · exact .inr ⟨hopen, q, hq, hid, hpending⟩
      · exact .inl (.inr ⟨q, hq, hid, hpending⟩)
    next => exact .inl (.inr ⟨p, hp, hid, hdone⟩)

/-- An operation that completes in an event is completed by it. -/
theorem completes_io (hio : Io w e w' hook) {i : ℕ} (hlt : i < w.session.nextId)
    (hnot : ¬w.Completed i) (h : (w'.settle hook).Completed i) :
    ∃ o ∈ w.session.ops, o.id = i ∧ o.progress = .pending ∧ w.Completes (.io e) o := by
  cases hio with
  | arrive | expire | waitOver => exact absurd h hnot
  | @recvUntil o n ho hk hp =>
    obtain ⟨rfl, hdone⟩ := completed_setOp rfl rfl hnot h
    exact ⟨o, ho, rfl, hp, .inl ⟨_, rfl, by simpa [Finishes, hk, take] using hdone⟩⟩
  | @recvExactly o n r msg ho hk hp =>
    obtain ⟨rfl, hdone⟩ := completed_setOp rfl rfl hnot h
    exact ⟨o, ho, rfl, hp, .inl ⟨_, rfl, by simpa [Finishes, hk] using hdone⟩⟩
  | fail ho hp | sent ho _ hp =>
    obtain ⟨rfl, -⟩ := completed_setOp rfl rfl hnot h
    exact ⟨_, ho, rfl, hp, .inl ⟨_, rfl, rfl⟩⟩
  | aborted ho _ hp | headersParsed ho _ hp | bodyRead ho _ hp | written ho _ hp =>
    exact absurd (completed_handling ho (by simp [hp]) h) hnot
  | @failed o ec buffer c g ho hp _ hwhy =>
    rcases completed_shutdown h with h | ⟨hopen, p, hp', hid, hpending⟩
    · exact absurd (completed_handling ho (by simp [hp]) h) hnot
    · exact ⟨p, (List.mem_filter.1 hp').1, hid, hpending, .inr ⟨hopen, o, ho, rfl, ec, hp, hwhy⟩⟩
  | @headersRead o msg n ho _ hp =>
    rcases h with hid | ⟨p, hp', hid, hdone⟩
    · exact absurd (completed_handling ho (by simp [hp]) (.inl hid)) hnot
    · rcases List.mem_append.1 hp' with hp' | hp'
      · exact absurd (completed_handling ho (by simp [hp]) (.inr ⟨p, hp', hid, hdone⟩)) hnot
      · rw [List.mem_singleton.1 hp'] at hid
        exact absurd hid hlt.ne'
  | @timedOut v hv hfired =>
    -- the session has been closed before its hook closes it again
    rcases completed_shutdown h with h | ⟨hopen, -⟩
    · rcases completed_shutdown (w := w.dropWait v) h with h | ⟨hopen, p, hp, hid, hpending⟩
      · exact absurd h hnot
      · exact ⟨p, hp, hid, hpending, .inr ⟨hopen, v, hv, rfl, hfired⟩⟩
    · simp [call] at hopen

/-! ## Deliveries -/

omit [StartLine L] in
theorem mem_doneReads : o ∈ w.doneReads ↔
    o ∈ w.session.ops ∧ o.isRead ∧ o.progress = .done none := by
  simp [doneReads]

omit [StartLine L] in
theorem doneReads_handling_sublist (o : Op L) : (w.handling o).doneReads.Sublist w.doneReads :=
  List.filter_sublist.filter _

omit [StartLine L] in
/-- The handler of such a read leaves fewer of them. -/
theorem length_doneReads_handling (ho : o ∈ w.doneReads) :
    (w.handling o).doneReads.length < w.doneReads.length := by
  have hcomm : (w.handling o).doneReads = w.doneReads.filter (·.id ≠ o.id) := by
    simp only [doneReads, World.handling, List.filter_filter, Bool.and_comm]
  rw [hcomm]
  exact List.length_filter_lt_length_iff_exists.2 ⟨o, ho, by simp⟩

omit [StartLine L] in
/-- Closing the socket completes no read with success. -/
theorem doneReads_shutdown (w : World L) : (w.call .shutdown).doneReads = w.doneReads := by
  have habort (o : Op L) : (o.abort.isRead && o.abort.progress = .done none) =
      (o.isRead && o.progress = .done none) := by
    cases hp : o.progress <;> simp [Op.abort, hp, Op.isRead]
  simp only [doneReads, call, Session.shutdown_ops]
  split
  · simp only [List.filter_map, Function.comp_def, habort]
    refine (List.map_congr_left fun o ho => ?_).trans (List.map_id _)
    have hp := (mem_doneReads.1 ho).2.2
    simp [Op.abort, hp]
  · rfl

/-- No delivery is queued where there are fewer reads and the same buffer. -/
theorem Undelivering.congr (h : w.Undelivering) (hreads : w'.doneReads.Sublist w.doneReads)
    (hcfg : w'.session.cfg = w.session.cfg) (hbuffer : w'.session.buffer = w.session.buffer) :
    w'.Undelivering where
  kind o ho := h.kind o (hreads.subset ho)
  buffer i hi := by
    rw [hcfg, hbuffer]
    exact h.buffer i (hi.trans_le hreads.length_le)

/-- There is none in an empty buffer. -/
theorem undelivering_of_nil (hkind : ∀ o ∈ w.doneReads, o.kind = .readUntil)
    (hbuffer : w.session.buffer = []) : w.Undelivering where
  kind := hkind
  buffer i _ msg hacc := by
    have hnil : ∀ i, (leftover L w.session.cfg)^[i] [] = [] := fun i =>
      Function.iterate_fixed (by rfl) i
    obtain ⟨k, hk, -⟩ := hacc.delim
    rw [hbuffer, hnil] at hk
    cases hk

/-- An expired wait that runs closes the session, and leaves what has completed
    as it is. -/
theorem Undelivering.shutdown (h : w.Undelivering) : (w.call .shutdown).Undelivering :=
  h.congr (by rw [doneReads_shutdown]) (by simp [call]) (by simp [call])

/-- The handler of a header read that delivers nothing leaves the rest to the next
    one. -/
theorem Undelivering.handling (h : w.Undelivering) (ho : o ∈ w.doneReads) {buffer : Bytes}
    (hbuffer : buffer = leftover L w.session.cfg w.session.buffer) :
    ((w.handling o).withBuffer buffer).Undelivering where
  kind p hp := h.kind p ((doneReads_handling_sublist o).subset hp)
  buffer i hi := by
    have hlt := length_doneReads_handling ho
    have hnext := h.buffer (i + 1) (by
      have hi : i < (w.handling o).doneReads.length := hi
      omega)
    rw [Function.iterate_succ_apply, ← hbuffer] at hnext
    exact hnext

/-- Nor does an expired wait that runs queue a delivery. -/
theorem Undelivering.timedOut (h : w.Undelivering) (v : Wait) :
    (({ ((w.dropWait v).call .shutdown) with
      timeouts := w.timeouts ++ [v.guarded] }.record (some ⟨.error .timedOut, false⟩)).settle
        (some ⟨.error .timedOut, false⟩)).Undelivering := by
  have hdrop : (w.dropWait v).Undelivering := h.congr (.refl _) rfl rfl
  have hrecord : ({ ((w.dropWait v).call .shutdown) with
      timeouts := w.timeouts ++ [v.guarded] }.record
        (some ⟨.error .timedOut, false⟩)).Undelivering :=
    hdrop.shutdown.congr (.refl _) rfl rfl
  exact hrecord.shutdown

/-- On a closed session, an event delivers only what has been queued as a
    delivery. -/
theorem Undelivering.io (h : w.Undelivering) (hclosed : w.session.isOpen = false)
    (hio : Io w e w' hook) :
    (w'.settle hook).Undelivering ∧ (w'.settle hook).delivered = w.delivered := by
  cases hio with
  | arrive | expire | waitOver => exact ⟨h.congr (.refl _) rfl rfl, rfl⟩
  | recvUntil _ _ _ hopen | recvExactly _ _ _ hopen | fail _ _ hopen | sent _ _ _ hopen =>
    rw [hclosed] at hopen
    cases hopen
  | aborted | written => exact ⟨h.congr (doneReads_handling_sublist _) rfl rfl, rfl⟩
  | @failed o ec buffer c g ho hp hbuffer hwhy =>
    refine ⟨Undelivering.shutdown ?_, rfl⟩
    suffices ((w.handling o).withBuffer buffer).Undelivering from
      this.congr (.refl _) rfl rfl
    rcases hbuffer with rfl | ⟨hk, rfl, hbuffer⟩
    · exact h.congr (doneReads_handling_sublist _) rfl rfl
    · exact h.handling (mem_doneReads.2 ⟨ho, by simp [Op.isRead, hk], hp⟩) hbuffer
  | @headersRead o msg n ho hk hp =>
    refine ⟨undelivering_of_nil (fun p hp' => ?_) rfl, rfl⟩
    obtain ⟨hp', hr', hdone⟩ := mem_doneReads.1 hp'
    rcases List.mem_append.1 hp' with hp' | hp'
    · exact h.kind p ((doneReads_handling_sublist o).subset (mem_doneReads.2 ⟨hp', hr', hdone⟩))
    · -- on a closed socket the read of the body fails
      rw [Session.startProgress_of_closed (by exact hclosed)] at hp'
      rw [List.mem_singleton.1 hp'] at hdone
      simp at hdone
  | headersParsed ho hk hp hacc =>
    have hdone := mem_doneReads.2 ⟨ho, by simp [Op.isRead, hk], hp⟩
    exact absurd hacc (h.buffer 0 (List.length_pos_of_mem hdone) _)
  | bodyRead ho hk hp =>
    have hkind := h.kind _ (mem_doneReads.2 ⟨ho, by simp [Op.isRead, hk], hp⟩)
    rw [hk] at hkind
    cases hkind
  | @timedOut v => exact ⟨h.timedOut v, rfl⟩

/-- A closed session stays closed. -/
theorem isOpen_io_of_closed (hclosed : w.session.isOpen = false) (hio : Io w e w' hook) :
    (w'.settle hook).session.isOpen = false := by
  cases hio with
  | failed | timedOut => simp [settle, call]
  | _ => exact hclosed

namespace TimerState

theorem fresh (cfg : HttpConfiguration) : (World.fresh L cfg).TimerState where
  waits_lt := by simp [World.fresh]
  ops_lt := by simp [World.fresh]
  completed_lt := by simp [World.fresh]
  pending := by simp [World.fresh]
  fired := by simp [World.fresh]
  timedOut := by simp [World.fresh]

/-- An event keeps the invariant. -/
theorem io (h : w.TimerState) (hapart : w.Apart (.io e)) (hio : w.io e = some (w', hook)) :
    (w'.settle hook).TimerState := by
  have hio := io_cases hio
  have hnext := nextId_io hio
  refine {
    waits_lt := fun v hv => ?_
    ops_lt := fun o ho => ?_
    completed_lt := fun id hid => ?_
    pending := fun v hv hp => ?_
    fired := fun v hv hf => ?_
    timedOut := fun ht => ?_ }
  · rcases mem_waits_io hio hv with ⟨hnew, -, hlt⟩ | ⟨u, hu, hg, -⟩
    · omega
    · rw [← hg]
      exact (h.waits_lt u hu).trans_le hnext
  · rcases mem_ops_io hio ho with ⟨hnew, hlt⟩ | ⟨p, hp, hid⟩
    · omega
    · rw [← hid]
      exact (h.ops_lt p hp).trans_le hnext
  · rcases mem_completed_io hio hid with hid | ⟨o, ho, rfl⟩
    · exact (h.completed_lt id hid).trans_le hnext
    · exact (h.ops_lt o ho).trans_le hnext
  · rcases mem_waits_io hio hv with ⟨hnew, -, -⟩ | ⟨u, hu, hg, -, hpending⟩
    · -- the operation it guards is the one started with it
      rw [hnew]
      intro hid
      rcases mem_completed_io hio hid with hid | ⟨o, ho, hid⟩
      · exact (h.completed_lt _ hid).false
      · exact (h.ops_lt o ho).ne hid
    · obtain ⟨hu', hcompleted⟩ := hpending hp
      rw [hcompleted, ← hg]
      exact h.pending u hu hu'
  · intro hcompleted
    rcases mem_waits_io hio hv with ⟨-, hp, -⟩ | ⟨u, hu, hg, hfired, -⟩
    · rw [hf] at hp
      cases hp
    · rw [← hg] at hcompleted
      rcases hfired hf with ⟨hu', he⟩ | ⟨rfl, hu'⟩
      · obtain ⟨o, ho, hid, hp, hcompletes⟩ :=
          completes_io hio (h.waits_lt u hu) (h.fired u hu hu') hcompleted
        exact hapart.completes u hu hu' (by simpa using he) o ho hid hp hcompletes
      · -- the timer expires, and completes nothing
        cases hio
        rcases hcompleted with hid | ⟨o, ho, hid, hp⟩
        · exact h.pending u hu hu' hid
        · exact hp (hapart.expires rfl u hu hu' o ho hid)
  · by_cases htimeouts : w.timeouts = []
    · -- only an expired wait that runs is a timeout
      cases hio with
      | @timedOut v hv hfired =>
        exact ⟨by simp [settle, call], (hapart.runs v hv hfired rfl).timedOut v⟩
      | _ => exact absurd htimeouts ht
    · obtain ⟨hclosed, hundelivering⟩ := h.timedOut htimeouts
      exact ⟨isOpen_io_of_closed hclosed hio, (hundelivering.io hclosed hio).1⟩

/-- A read or write started keeps the invariant: its operation is new. -/
theorem start {kind : OpKind L} {progress : Progress} (h : w.TimerState)
    (hops : w'.session.ops = w.session.ops ++
      [⟨w.session.nextId, kind, w.session.startProgress progress⟩])
    (hwaits : w'.session.waits = w.session.startTimer.waits)
    (hnext : w'.session.nextId = w.session.nextId + 1) (hcfg : w'.session.cfg = w.session.cfg)
    (hopen : w'.session.isOpen = w.session.isOpen) (hbuffer : w'.session.buffer = w.session.buffer)
    (hcompleted : w'.completed = w.completed) (htimeouts : w'.timeouts = w.timeouts) :
    w'.TimerState := by
  have hmem : ∀ o ∈ w'.session.ops, o ∈ w.session.ops ∨
      o = ⟨w.session.nextId, kind, w.session.startProgress progress⟩ := by simp [hops]
  have hmem' : ∀ v ∈ w'.session.waits, (∃ u ∈ w.session.waits, v = u.cancel) ∨
      v = ⟨w.session.nextId, .pending⟩ := by
    intro v hv
    rw [hwaits] at hv
    rcases List.mem_append.1 hv with hv | hv
    · obtain ⟨u, hu, rfl⟩ := List.mem_map.1 hv
      exact .inl ⟨u, hu, rfl⟩
    · exact .inr (List.mem_singleton.1 hv)
  refine {
    waits_lt := fun v hv => ?_
    ops_lt := fun o ho => ?_
    completed_lt := fun id hid => ?_
    pending := fun v hv hp => ?_
    fired := fun v hv hf => ?_
    timedOut := fun ht => ?_ }
  · rcases hmem' v hv with ⟨u, hu, rfl⟩ | rfl
    · rw [u.cancel_guarded, hnext]
      exact (h.waits_lt u hu).trans (Nat.lt_succ_self _)
    · rw [hnext]
      exact Nat.lt_succ_self _
  · rcases hmem o ho with ho | rfl
    · rw [hnext]
      exact (h.ops_lt o ho).trans (Nat.lt_succ_self _)
    · rw [hnext]
      exact Nat.lt_succ_self _
  · rw [hnext]
    exact (h.completed_lt id (hcompleted ▸ hid)).trans (Nat.lt_succ_self _)
  · rcases hmem' v hv with ⟨u, hu, rfl⟩ | rfl
    · exact absurd hp u.cancel_ne_pending
    · rw [hcompleted]
      exact fun hid => (h.completed_lt _ hid).false
  · rcases hmem' v hv with ⟨u, hu, rfl⟩ | rfl
    · rw [Wait.cancel_fired] at hf
      rw [u.cancel_guarded]
      rintro (hid | ⟨o, ho, hid, hp⟩)
      · exact h.fired u hu hf (.inl (hcompleted ▸ hid))
      · rcases hmem o ho with ho | rfl
        · exact h.fired u hu hf (.inr ⟨o, ho, hid, hp⟩)
        · exact (h.waits_lt u hu).ne' hid
    · cases hf
  · -- behind a timeout the operation fails at once
    obtain ⟨hclosed, hundelivering⟩ := h.timedOut (htimeouts ▸ ht)
    have hreads : w'.doneReads = w.doneReads := by
      rw [doneReads, doneReads, hops, Session.startProgress_of_closed hclosed, List.filter_append,
        List.filter_singleton]
      simp
    exact ⟨hopen.trans hclosed, hundelivering.congr (hreads ▸ .refl _) hcfg hbuffer⟩

/-- The session is shut down, which completes no operation with an expired wait. -/
theorem shutdown (h : w.TimerState)
    (hcompletes : ∀ v ∈ w.session.waits, v.state = .fired → ∀ o ∈ w.session.ops,
      o.id = v.guarded → o.progress = .pending → ¬w.session.isOpen) :
    (w.call .shutdown).TimerState := by
  have hmem : ∀ v ∈ (w.call .shutdown).session.waits, ∃ u ∈ w.session.waits, v = u.cancel := by
    intro v hv
    simp only [call, Session.shutdown_waits] at hv
    obtain ⟨u, hu, rfl⟩ := List.mem_map.1 hv
    exact ⟨u, hu, rfl⟩
  have hops : ∀ o ∈ (w.call .shutdown).session.ops, ∃ p ∈ w.session.ops, p.id = o.id := by
    intro o ho
    simp only [call, Session.shutdown_ops] at ho
    split at ho
    · obtain ⟨p, hp, rfl⟩ := List.mem_map.1 ho
      exact ⟨p, hp, by simp⟩
    · exact ⟨o, ho, rfl⟩
  have hnext : (w.call .shutdown).session.nextId = w.session.nextId := by simp [call]
  refine {
    waits_lt := fun v hv => ?_
    ops_lt := fun o ho => ?_
    completed_lt := fun id hid => hnext ▸ h.completed_lt id hid
    pending := fun v hv hp => ?_
    fired := fun v hv hf => ?_
    timedOut := fun ht => ⟨by simp [call], (h.timedOut ht).2.shutdown⟩ }
  · obtain ⟨u, hu, rfl⟩ := hmem v hv
    rw [u.cancel_guarded, hnext]
    exact h.waits_lt u hu
  · obtain ⟨p, hp, hid⟩ := hops o ho
    rw [← hid, hnext]
    exact h.ops_lt p hp
  · obtain ⟨u, hu, rfl⟩ := hmem v hv
    exact absurd hp u.cancel_ne_pending
  · obtain ⟨u, hu, rfl⟩ := hmem v hv
    rw [Wait.cancel_fired] at hf
    rw [u.cancel_guarded]
    intro hcompleted
    rcases completed_shutdown hcompleted with hcompleted | ⟨hopen, o, ho, hid, hp⟩
    · exact h.fired u hu hf hcompleted
    · exact hcompletes u hu hf o ho hid hp hopen

/-- An error reported without an event. -/
theorem record (h : w.TimerState) (ec : ErrorCode) (g : Bool) :
    (w.record (some ⟨.error ec, g⟩)).TimerState where
  waits_lt := h.waits_lt
  ops_lt := h.ops_lt
  completed_lt := h.completed_lt
  pending := h.pending
  fired := h.fired
  timedOut ht := ⟨(h.timedOut ht).1, (h.timedOut ht).2.congr (.refl _) rfl rfl⟩

theorem call_read_write (h : w.TimerState) {c : Call} (hc : c ≠ .shutdown) :
    (w.call c).TimerState := by
  cases c with
  | doRead => exact h.start rfl rfl rfl rfl rfl rfl rfl rfl
  | doWrite payload => exact h.start rfl rfl rfl rfl rfl rfl rfl rfl
  | shutdown => exact absurd rfl hc

/-- A step in which the timer and the operations keep apart keeps the invariant. -/
theorem step {e : SessionEvent} (h : w.TimerState) (hapart : w.Apart e)
    (hs : w.step e = some w') : w'.TimerState := by
  cases e with
  | io e =>
    obtain ⟨⟨w₁, hook⟩, hio, rfl⟩ := Option.map_eq_some_iff.1 hs
    exact h.io hapart hio
  | call c =>
    obtain rfl := Option.some.inj hs
    by_cases hc : c = .shutdown
    · subst hc
      exact h.shutdown fun v hv hf o ho hid hp hopen =>
        hapart.completes v hv hf (by simp) o ho hid hp (.inr ⟨hopen, trivial⟩)
    · exact h.call_read_write hc
  | caught =>
    obtain rfl := Option.some.inj hs
    exact (h.record _ _).shutdown fun v hv hf o ho hid hp hopen =>
      hapart.completes v hv hf (by simp) o ho hid hp (.inr ⟨hopen, trivial⟩)

/-- So does a step of a server session: its calls complete nothing. -/
theorem step_singleRead {e : SessionEvent} (h : w.TimerState) (hok : SingleRead Apart w e)
    (hs : w.step e = some w') : w'.TimerState := by
  cases e with
  | io e => exact h.step hok hs
  | call c =>
    obtain rfl := Option.some.inj hs
    by_cases hc : c = .shutdown
    · subst hc
      have hops : w.session.ops = [] := hok
      exact h.shutdown fun v hv hf o ho => absurd ho (by simp [hops])
    · exact h.call_read_write hc
  | caught => exact h.step hok hs

/-- Where the timer and the operations have kept apart, a timeout and a completion
    exclude each other. -/
theorem excludes {e : SessionEvent} (h : w.TimerState) (hs : w.step e = some w') :
    w.Excludes e w' where
  timeout v hv hf _ := h.fired v hv hf
  delivery ht := by
    obtain ⟨hclosed, hundelivering⟩ := h.timedOut ht
    cases e with
    | io e =>
      obtain ⟨⟨w₁, hook⟩, hio, rfl⟩ := Option.map_eq_some_iff.1 hs
      exact (hundelivering.io hclosed (io_cases hio)).2
    | call c =>
      obtain rfl := Option.some.inj hs
      cases c <;> rfl
    | caught =>
      obtain rfl := Option.some.inj hs
      rfl

end TimerState

end World

end Dss.Http
