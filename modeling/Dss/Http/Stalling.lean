import Dss.Http.Issuing
import Mathlib.Algebra.Order.BigOperators.Group.List

/-!
# Peers that stall

A peer that sends nothing, takes nothing and closes nothing leaves a session with
its timer and the handlers that are queued (`IoEvent.isOwn`). The timer is enough:

* every event of a session's own uses up some of its `Session.backlog`
  (`World.Io.backlog_lt`), by more than a hook may add to it, so that the session
  comes to a standstill;
* while something is under way on an open session, a wait is that has not been
  cancelled (`Session.Timed`, `World.Io.timed`), and none is at a standstill
  (`World.waits_eq_nil`).

So a server session ends up closed with nothing under way, whatever it was doing
when its peer stalled (`ServerSession.stalled_ends`), and a client session calls
every callback it has accepted (`ClientSession.stalled_called`).
-/

namespace Dss.Http

open Dss.Lib

variable {L : Type}

/-- The event is one of the session's own: its timer expires, or a handler runs. -/
def IoEvent.isOwn : IoEvent → Bool
  | .expire | .runOp _ | .runWait _ => true
  | .arrive _ | .recv _ _ | .fail _ _ | .sent _ => false

/-! ## The backlog -/

/-- More than the handler of an operation may start, and one more for its abort. -/
def Op.backlog (o : Op L) : ℕ :=
  match o.progress with
  | .pending => 3
  | .done (some _) => 2
  | .done none => if o.isRead then 7 else 11

/-- How many events a wait can still take part in. -/
def Wait.backlog (v : Wait) : ℕ :=
  match v.state with
  | .pending => 3
  | .fired => 2
  | .cancelled => 1

/-- A bound on the events of its own a session has. -/
def Session.backlog (s : Session L) : ℕ :=
  (s.ops.map Op.backlog).sum + (s.waits.map Wait.backlog).sum

/-- What a derived class may add to the backlog in a hook: a response, a read. -/
def hookBacklog : Option (HookCall L) → ℕ
  | some ⟨.messageParsed _, _⟩ => 6
  | some ⟨.writeComplete, _⟩ => 10
  | some ⟨.error _, _⟩ | none => 0

/-- What a filter drops is no longer in the sum. -/
theorem sum_filter_add_le {α : Type*} (f : α → ℕ) {p : α → Bool} {l : List α} {a : α}
    (ha : a ∈ l) (hp : p a = false) : ((l.filter p).map f).sum + f a ≤ (l.map f).sum := by
  induction l with
  | nil => cases ha
  | cons b l ih =>
    rw [List.map_cons, List.sum_cons]
    rcases List.mem_cons.1 ha with rfl | ha
    · have hle : ((l.filter p).map f).sum ≤ (l.map f).sum :=
        (List.filter_sublist.map f).sum_le_sum (by simp)
      rw [List.filter_cons_of_neg (by simp [hp])]
      omega
    · have hle := ih ha
      cases hb : p b with
      | true =>
        rw [List.filter_cons_of_pos hb, List.map_cons, List.sum_cons]
        omega
      | false =>
        rw [List.filter_cons_of_neg (by simp [hb])]
        omega

theorem Op.two_le_backlog (o : Op L) : 2 ≤ o.backlog := by
  rw [backlog]
  split
  · simp
  · exact le_rfl
  · split <;> simp

theorem Op.backlog_abort_le (o : Op L) : o.abort.backlog ≤ o.backlog := by
  rw [abort]
  split
  next hp => simp [backlog, hp]
  next => exact le_rfl

theorem Wait.one_le_backlog (v : Wait) : 1 ≤ v.backlog := by
  rw [backlog]
  split <;> simp

theorem Wait.backlog_cancel_le (v : Wait) : v.cancel.backlog ≤ v.backlog := by
  cases h : v.state <;> simp [cancel, backlog, h]

theorem Wait.backlog_expire_le (v : Wait) : v.expire.backlog ≤ v.backlog := by
  cases h : v.state <;> simp [expire, backlog, h]

theorem Wait.backlog_expire_lt {v : Wait} (h : v.state = .pending) :
    v.expire.backlog < v.backlog := by
  simp [expire, backlog, h]

theorem sum_backlog_cancel_le (waits : List Wait) :
    ((waits.map Wait.cancel).map Wait.backlog).sum ≤ (waits.map Wait.backlog).sum := by
  rw [List.map_map]
  exact List.sum_le_sum fun v _ => v.backlog_cancel_le

namespace Session

theorem backlog_shutdown_le (s : Session L) : s.shutdown.backlog ≤ s.backlog := by
  have hwaits := sum_backlog_cancel_le s.waits
  have hops : ((s.ops.map Op.abort).map Op.backlog).sum ≤ (s.ops.map Op.backlog).sum := by
    rw [List.map_map]
    exact List.sum_le_sum fun o _ => o.backlog_abort_le
  simp only [backlog, shutdown_ops, shutdown_waits]
  split <;> omega

/-- An operation started adds itself and the wait that guards it. -/
theorem backlog_start_le (s : Session L) (kind : OpKind L) (progress : Progress) :
    (s.startTimer.startOp kind progress).backlog ≤
      s.backlog + Op.backlog ⟨s.nextId, kind, s.startProgress progress⟩ + 3 := by
  have hle := sum_backlog_cancel_le s.waits
  have hops : (s.startTimer.startOp kind progress).ops =
    s.ops ++ [⟨s.nextId, kind, s.startProgress progress⟩] := rfl
  have hwaits : (s.startTimer.startOp kind progress).waits =
    s.waits.map Wait.cancel ++ [⟨s.nextId, .pending⟩] := rfl
  have hnew : Wait.backlog ⟨s.nextId, .pending⟩ = 3 := rfl
  rw [backlog, backlog, hops, hwaits]
  simp only [List.map_append, List.map_cons, List.map_nil, List.sum_append, List.sum_cons,
    List.sum_nil, hnew]
  omega

theorem backlog_doRead_le (s : Session L) : s.doRead.backlog ≤ s.backlog + 10 := by
  refine (s.backlog_start_le _ _).trans ?_
  have hop : Op.backlog (L := L) ⟨s.nextId, .readUntil,
      s.startProgress (readUntilProgress s.cfg s.buffer)⟩ ≤ 7 := by
    rw [Op.backlog]
    split
    · simp
    · simp
    · exact le_of_eq (if_pos rfl)
  exact Nat.add_le_add_right (Nat.add_le_add_left hop _) 3

/-- An operation that does not complete at once. -/
theorem backlog_pending_le (s : Session L) (kind : OpKind L) :
    Op.backlog ⟨s.nextId, kind, s.startProgress .pending⟩ ≤ 3 := by
  rw [startProgress]
  split <;> simp [Op.backlog]

theorem backlog_doWrite_le (s : Session L) (payload : Bytes) :
    (s.doWrite payload).backlog ≤ s.backlog + 6 :=
  (s.backlog_start_le _ _).trans (by have := s.backlog_pending_le (.write payload); omega)

theorem backlog_doRemainingRead_le (s : Session L) (remaining : ℕ) (msg : Message L) :
    (s.doRemainingRead remaining msg).backlog ≤ s.backlog + 6 :=
  (s.backlog_start_le _ _).trans
    (by have := s.backlog_pending_le (.readExactly remaining msg); omega)

end Session

namespace World

variable {w w' : World L} {e : IoEvent} {hook : Option (HookCall L)} {o : Op L} {v : Wait}

theorem backlog_handling_le (ho : o ∈ w.session.ops) (buffer : Bytes) :
    ((w.handling o).withBuffer buffer).session.backlog + o.backlog ≤ w.session.backlog := by
  have hops := sum_filter_add_le Op.backlog (p := (·.id ≠ o.id)) ho (by simp)
  have hwaits := sum_backlog_cancel_le w.session.waits
  simp only [Session.backlog, withBuffer, handling]
  omega

theorem backlog_dropWait_le (hv : v ∈ w.session.waits) :
    (w.dropWait v).session.backlog + v.backlog ≤ w.session.backlog := by
  have hwaits := sum_filter_add_le Wait.backlog (p := (·.guarded ≠ v.guarded)) hv (by simp)
  simp only [Session.backlog, dropWait]
  omega

variable [StartLine L]

/-- An event of the session's own uses up more of the backlog than the hook may
    add. -/
theorem Io.backlog_lt (h : Io w e w' hook) (he : e.isOwn) :
    w'.session.backlog + hookBacklog hook < w.session.backlog := by
  cases h with
  | arrive | recvUntil | recvExactly | fail | sent => cases he
  | expire hv hp =>
    have hlt : ((w.session.waits.map Wait.expire).map Wait.backlog).sum <
        (w.session.waits.map Wait.backlog).sum := by
      rw [List.map_map]
      exact List.sum_lt_sum _ _ (fun v _ => v.backlog_expire_le) ⟨_, hv, Wait.backlog_expire_lt hp⟩
    simp only [Session.backlog, hookBacklog]
    omega
  | @aborted o ho =>
    have hle := backlog_handling_le ho w.session.buffer
    have := o.two_le_backlog
    exact lt_of_lt_of_le (Nat.lt_add_of_pos_right (by omega)) hle
  | @failed o _ buffer _ _ ho =>
    have hle := backlog_handling_le ho buffer
    have := o.two_le_backlog
    simp only [record_session, hookBacklog]
    omega
  | @headersRead o msg n ho hk hp =>
    have hle := backlog_handling_le ho []
    have hread := Session.backlog_doRemainingRead_le ((w.handling o).withBuffer []).session
      (n - msg.body.length) msg
    have ho : o.backlog = 7 := by simp [Op.backlog, hp, Op.isRead, hk]
    simp only [reading, hookBacklog]
    omega
  | @headersParsed o msg ho hk hp =>
    have hle := backlog_handling_le ho []
    have ho : o.backlog = 7 := by simp [Op.backlog, hp, Op.isRead, hk]
    simp only [record_session, hookBacklog]
    omega
  | @bodyRead o r msg ho hk hp =>
    have hle := backlog_handling_le ho []
    have ho : o.backlog = 7 := by simp [Op.backlog, hp, Op.isRead, hk]
    simp only [record_session, hookBacklog]
    omega
  | @written o ho hr hp =>
    have hle : (w.handling o).session.backlog + o.backlog ≤ w.session.backlog :=
      backlog_handling_le ho w.session.buffer
    have ho : o.backlog = 11 := by simp [Op.backlog, hp, hr]
    simp only [record_session, hookBacklog]
    omega
  | @waitOver v hv =>
    have hle := backlog_dropWait_le hv
    have := v.one_le_backlog
    simp only [hookBacklog]
    omega
  | @timedOut v hv =>
    have hle := backlog_dropWait_le hv
    have hshut := Session.backlog_shutdown_le (w.dropWait v).session
    have := v.one_le_backlog
    simp only [record_session, call, hookBacklog]
    omega

end World

/-! ## The timer -/

/-- The waits are numbered, and closing the socket, only that, aborts what is
    pending. -/
structure Session.Numbered (s : Session L) : Prop where
  waits_lt : ∀ v ∈ s.waits, v.guarded < s.nextId
  nodup : (s.waits.map (·.guarded)).Nodup
  aborted : ∀ o ∈ s.ops, o.progress = .done (some .operationAborted) → s.isOpen = false
  closed : s.isOpen = false → ∀ o ∈ s.ops, o.progress ≠ .pending

/-- A wait is under way that will close the session, if it is not cancelled. -/
def Session.Timed (s : Session L) : Prop := ∃ v ∈ s.waits, v.state ≠ .cancelled

theorem Wait.expire_ne_cancelled {v : Wait} (h : v.state ≠ .cancelled) :
    v.expire.state ≠ .cancelled := by
  cases hs : v.state <;> simp_all [expire]

theorem Op.abort_ne_pending (o : Op L) : o.abort.progress ≠ .pending := by
  rw [abort]
  split
  next => simp
  next hp => simp [hp]

theorem map_guarded_cancel (waits : List Wait) :
    (waits.map Wait.cancel).map (·.guarded) = waits.map (·.guarded) := by
  simp

theorem map_guarded_expire (waits : List Wait) :
    (waits.map Wait.expire).map (·.guarded) = waits.map (·.guarded) := by
  simp

namespace Session

theorem timed_doRead (s : Session L) : s.doRead.Timed :=
  ⟨⟨s.nextId, .pending⟩, List.mem_append_right _ (List.mem_singleton_self _), by simp⟩

theorem timed_doWrite (s : Session L) (payload : Bytes) : (s.doWrite payload).Timed :=
  ⟨⟨s.nextId, .pending⟩, List.mem_append_right _ (List.mem_singleton_self _), by simp⟩

theorem timed_doRemainingRead (s : Session L) (remaining : ℕ) (msg : Message L) :
    (s.doRemainingRead remaining msg).Timed :=
  ⟨⟨s.nextId, .pending⟩, List.mem_append_right _ (List.mem_singleton_self _), by simp⟩

namespace Numbered

variable {s : Session L}

/-- Waits may change their state, and operations be dropped. -/
theorem congr {s' : Session L} (h : s.Numbered) (hopen : s'.isOpen = s.isOpen)
    (hnext : s'.nextId = s.nextId)
    (hwaits : (s'.waits.map (·.guarded)).Sublist (s.waits.map (·.guarded)))
    (hops : ∀ o ∈ s'.ops, o ∈ s.ops) : s'.Numbered where
  waits_lt v hv := by
    obtain ⟨u, hu, hg⟩ := List.mem_map.1 (hwaits.subset (List.mem_map_of_mem hv))
    rw [hnext, ← hg]
    exact h.waits_lt u hu
  nodup := h.nodup.sublist hwaits
  aborted o ho hp := by rw [hopen]; exact h.aborted o (hops o ho) hp
  closed hclosed o ho := h.closed (hopen ▸ hclosed) o (hops o ho)

theorem shutdown (h : s.Numbered) : s.shutdown.Numbered where
  waits_lt v hv := by
    rw [shutdown_waits] at hv
    obtain ⟨u, hu, rfl⟩ := List.mem_map.1 hv
    rw [shutdown_nextId, Wait.cancel_guarded]
    exact h.waits_lt u hu
  nodup := by
    rw [shutdown_waits, map_guarded_cancel]
    exact h.nodup
  aborted _ _ _ := s.shutdown_isOpen
  closed _ o ho := by
    rw [shutdown_ops] at ho
    split at ho
    next =>
      obtain ⟨p, -, rfl⟩ := List.mem_map.1 ho
      exact p.abort_ne_pending
    next hclosed => exact h.closed (by simpa using hclosed) o ho

/-- An operation started is guarded by a wait of a new number. -/
theorem start (h : s.Numbered) (kind : OpKind L) {progress : Progress}
    (hp : progress ≠ .done (some .operationAborted)) :
    (s.startTimer.startOp kind progress).Numbered where
  waits_lt v hv := by
    rcases List.mem_append.1 hv with hv | hv
    · obtain ⟨u, hu, rfl⟩ := List.mem_map.1 hv
      rw [Wait.cancel_guarded]
      exact (h.waits_lt u hu).trans (Nat.lt_succ_self _)
    · rw [List.mem_singleton.1 hv]
      exact Nat.lt_succ_self _
  nodup := by
    have hwaits : (s.startTimer.startOp kind progress).waits =
      s.waits.map Wait.cancel ++ [⟨s.nextId, .pending⟩] := rfl
    rw [hwaits, List.map_append, map_guarded_cancel, List.nodup_append]
    refine ⟨h.nodup, List.nodup_singleton _, ?_⟩
    rintro i hi _ hj rfl
    obtain ⟨v, hv, rfl⟩ := List.mem_map.1 hi
    exact (h.waits_lt v hv).ne (List.mem_singleton.1 hj)
  aborted o ho hab := by
    rcases List.mem_append.1 ho with ho | ho
    · exact h.aborted o ho hab
    · rw [List.mem_singleton.1 ho] at hab
      cases hopen : s.isOpen with
      | false => exact hopen
      | true => exact absurd ((startProgress_of_open (s := s.startTimer) hopen _).symm.trans hab) hp
  closed hclosed o ho := by
    rcases List.mem_append.1 ho with ho | ho
    · exact h.closed hclosed o ho
    · rw [List.mem_singleton.1 ho]
      exact (startProgress_of_closed (s := s.startTimer) hclosed _).trans_ne (by simp)

theorem doRead (h : s.Numbered) : s.doRead.Numbered := by
  refine h.start _ ?_
  rw [readUntilProgress]
  split
  · simp
  · split <;> simp

theorem doWrite (h : s.Numbered) (payload : Bytes) : (s.doWrite payload).Numbered :=
  h.start _ (by simp)

theorem doRemainingRead (h : s.Numbered) (remaining : ℕ) (msg : Message L) :
    (s.doRemainingRead remaining msg).Numbered :=
  h.start _ (by simp)

/-- On an open session an operation moves on, and is not aborted. -/
theorem setOp (h : s.Numbered) (hopen : s.isOpen) (id : ℕ) (kind : OpKind L) {progress : Progress}
    (hp : progress ≠ .done (some .operationAborted)) : (s.setOp id kind progress).Numbered where
  waits_lt := h.waits_lt
  nodup := h.nodup
  aborted o ho hab := by
    obtain ⟨p, hp', rfl⟩ := List.mem_map.1 ho
    split at hab
    next => exact absurd hab hp
    next => exact h.aborted p hp' hab
  closed hclosed := by
    rw [show (s.setOp id kind progress).isOpen = s.isOpen from rfl, hopen] at hclosed
    cases hclosed

end Numbered

end Session

namespace World

variable {w w' : World L} {e : IoEvent} {hook : Option (HookCall L)} {o : Op L} {v : Wait}

theorem numbered_fresh (cfg : HttpConfiguration) : (fresh L cfg).session.Numbered where
  waits_lt _ hv := by cases hv
  nodup := List.nodup_nil
  aborted _ ho := by cases ho
  closed _ _ ho := by cases ho

theorem numbered_handling (h : w.session.Numbered) (o : Op L) (buffer : Bytes) :
    ((w.handling o).withBuffer buffer).session.Numbered :=
  h.congr rfl rfl (map_guarded_cancel w.session.waits ▸ List.Sublist.refl _)
    fun _ hp => (List.mem_filter.1 hp).1

theorem numbered_take (h : w.session.Numbered) (n : ℕ) : (w.take n).session.Numbered :=
  h.congr rfl rfl (List.Sublist.refl _) fun _ hp => hp

theorem numbered_dropWait (h : w.session.Numbered) (v : Wait) :
    (w.dropWait v).session.Numbered :=
  h.congr rfl rfl (List.filter_sublist.map _) fun _ hp => hp

variable [StartLine L]

/-- Every event keeps the numbers. -/
theorem Io.numbered (h : Io w e w' hook) (hn : w.session.Numbered) : w'.session.Numbered := by
  cases h with
  | arrive => exact hn
  | recvUntil ho hk hp hopen =>
    refine (numbered_take hn _).setOp hopen _ _ ?_
    rw [Session.readUntilProgress]
    split
    · simp
    · split <;> simp
  | recvExactly ho hk hp hopen =>
    exact (numbered_take hn _).setOp hopen _ _ (by split <;> simp)
  | fail ho hp hopen hab => exact hn.setOp hopen _ _ (by simpa using hab)
  | sent ho hr hp hopen => exact hn.setOp hopen _ _ (by simp)
  | expire =>
    exact hn.congr rfl rfl (map_guarded_expire w.session.waits ▸ List.Sublist.refl _) fun _ ho => ho
  | @aborted o => exact numbered_handling hn o w.session.buffer
  | @failed o _ buffer => exact (record_session _ _).symm ▸ numbered_handling hn o buffer
  | @headersRead o => exact (numbered_handling hn o []).doRemainingRead _ _
  | @headersParsed o => exact (record_session _ _).symm ▸ numbered_handling hn o []
  | @bodyRead o => exact (record_session _ _).symm ▸ numbered_handling hn o []
  | @written o => exact numbered_handling hn o w.session.buffer
  | @waitOver v => exact numbered_dropWait hn v
  | @timedOut v => exact (record_session _ _).symm ▸ (numbered_dropWait hn v).shutdown

/-- On an open session, an event in which no hook is called leaves a wait that has
    not been cancelled. -/
theorem Io.timed (h : Io w e w' none) (hn : w.session.Numbered) (hopen : w.session.isOpen)
    (ht : w.session.Timed) : w'.session.Timed := by
  cases h with
  | arrive | recvUntil | recvExactly | fail | sent => exact ht
  | expire =>
    obtain ⟨v, hv, hne⟩ := ht
    exact ⟨v.expire, List.mem_map_of_mem hv, Wait.expire_ne_cancelled hne⟩
  | aborted ho _ hp =>
    rw [hn.aborted _ ho hp] at hopen
    cases hopen
  | headersRead => exact Session.timed_doRemainingRead _ _ _
  | waitOver hv hs =>
    -- the wait dropped is another one
    obtain ⟨u, hu, hne⟩ := ht
    refine ⟨u, List.mem_filter.2 ⟨hu, ?_⟩, hne⟩
    have hguarded : u.guarded ≠ _ := fun hg =>
      hne ((List.inj_on_of_nodup_map hn.nodup hu hv hg) ▸ hs)
    simpa using hguarded

/-- Nor does it end the last operation. -/
theorem Io.ops_ne_nil (h : Io w e w' none) (hn : w.session.Numbered) (hopen : w.session.isOpen)
    (hops : w.session.ops ≠ []) : w'.session.ops ≠ [] := by
  cases h with
  | arrive | expire | waitOver => exact hops
  | recvUntil | recvExactly | fail | sent => simpa [setOp, Session.setOp, take] using hops
  | aborted ho _ hp =>
    rw [hn.aborted _ ho hp] at hopen
    cases hopen
  | headersRead => simp [reading]

/-! ## Standstill -/

/-- Where the timer does not expire and no handler runs, there are no waits. -/
theorem waits_eq_nil (h : ∀ e : IoEvent, e.isOwn → w.io e = none) : w.session.waits = [] := by
  by_contra hne
  obtain ⟨v, hv⟩ := List.exists_mem_of_ne_nil _ hne
  by_cases hex : ∃ v ∈ w.session.waits, v.state = .pending
  · have hnone := h .expire rfl
    simp [io, hex] at hnone
  · obtain ⟨u, hu⟩ : ∃ u, w.session.waits.find? (·.guarded = v.guarded) = some u :=
      Option.isSome_iff_exists.1 (List.find?_isSome.2 ⟨v, hv, by simp⟩)
    have hnone := h (.runWait v.guarded) rfl
    have hpending : u.state ≠ .pending := fun hp => hex ⟨u, List.mem_of_find?_eq_some hu, hp⟩
    simp [io, hu, hpending] at hnone

/-- And an operation under way is pending, if it is the only one. -/
theorem pending_of_single (h : ∀ e : IoEvent, e.isOwn → w.io e = none)
    (hops : w.session.ops = [o]) : o.progress = .pending := by
  have hop : w.op? o.id = some o := by simp [op?, hops]
  have hnone := h (.runOp o.id) rfl
  cases hp : o.progress with
  | pending => rfl
  | done ec => simp [io, hop, hp] at hnone

end World

/-! ## Server sessions -/

namespace ServerSession

/-- The peer of the session and its connection have no part in the event. -/
def Stalled (_ : ServerSession) (e : IoEvent) : Prop := e.isOwn

/-- The invariant: a server session that is open has an operation under way, and
    the wait that guards it. -/
structure Awaiting (s : ServerSession) : Prop where
  numbered : s.world.session.Numbered
  single : s.world.session.ops.length ≤ 1
  timed : s.world.session.isOpen → s.world.session.Timed ∧ s.world.session.ops ≠ []

variable {sv : Service} {s t : ServerSession} {e : IoEvent}

theorem awaiting_start (cfg : HttpConfiguration) : (start cfg).Awaiting where
  numbered := (World.numbered_fresh cfg).doRead
  single := by simp [start, World.call, World.fresh]
  timed _ := ⟨Session.timed_doRead _, by simp [start, World.call]⟩

theorem Awaiting.step (h : s.Awaiting) (hs : ServerSession.step sv s e = some t) :
    t.Awaiting := by
  have hsingle := length_ops_step h.single hs
  obtain ⟨w, hook, hio, hcase⟩ := step_cases hs
  have hio := World.io_cases hio
  have hw := hio.numbered h.numbered
  rcases hcase with ⟨rfl, rfl⟩ | ⟨req, g, rfl, rfl⟩ | ⟨g, rfl, rfl⟩ | ⟨ec, g, rfl, rfl⟩
  · refine ⟨hw, hsingle, fun hopen => ?_⟩
    have hopen : s.world.session.isOpen := hio.isOpen_eq (by simp) ▸ hopen
    obtain ⟨ht, hops⟩ := h.timed hopen
    exact ⟨hio.timed h.numbered hopen ht, hio.ops_ne_nil h.numbered hopen hops⟩
  · exact ⟨hw.doWrite _, hsingle, fun _ => ⟨Session.timed_doWrite _ _, by
      simp [onMessageParsed, World.call]⟩⟩
  · -- the session reads the next request, or is closed
    rw [onWriteComplete] at hsingle ⊢
    split at hsingle
    next hkeep =>
      rw [if_pos hkeep]
      exact ⟨hw.doRead, hsingle, fun _ => ⟨Session.timed_doRead _, by simp [World.call]⟩⟩
    next hkeep =>
      rw [if_neg hkeep]
      exact ⟨hw.shutdown, hsingle, fun hopen => by simp [World.call] at hopen⟩
  · exact ⟨hw.shutdown, hsingle, fun hopen => by simp [World.call] at hopen⟩

theorem backlog_step (he : e.isOwn) (hs : step sv s e = some t) :
    t.world.session.backlog < s.world.session.backlog := by
  obtain ⟨w, hook, hio, hcase⟩ := step_cases hs
  have hlt := (World.io_cases hio).backlog_lt he
  rcases hcase with ⟨rfl, rfl⟩ | ⟨req, g, rfl, rfl⟩ | ⟨g, rfl, rfl⟩ | ⟨ec, g, rfl, rfl⟩
  · exact hlt
  · exact (Session.backlog_doWrite_le _ _).trans_lt hlt
  · rw [onWriteComplete]
    split
    · exact (Session.backlog_doRead_le _).trans_lt hlt
    · exact (Session.backlog_shutdown_le _).trans_lt (lt_of_le_of_lt (Nat.le_add_right _ _) hlt)
  · exact (Session.backlog_shutdown_le _).trans_lt hlt

/-- At a standstill the session is closed, and nothing keeps it alive. -/
theorem Awaiting.standstill (h : s.Awaiting) (hmax : Maximal (ServerSession.step sv) Stalled s) :
    s.world.session.isOpen = false ∧ s.world.session.ops = [] ∧ s.world.session.waits = [] := by
  have hio : ∀ e : IoEvent, e.isOwn → s.world.io e = none := fun e he =>
    Option.map_eq_none_iff.1 (hmax e he)
  have hwaits := World.waits_eq_nil hio
  have hclosed : s.world.session.isOpen = false := by
    by_contra hopen
    obtain ⟨⟨v, hv, -⟩, -⟩ := h.timed (by simpa using hopen)
    rw [hwaits] at hv
    cases hv
  refine ⟨hclosed, ?_, hwaits⟩
  match hops : s.world.session.ops with
  | [] => rfl
  | [o] =>
    exact absurd (World.pending_of_single hio hops)
      (h.numbered.closed hclosed o (hops ▸ List.mem_singleton_self o))
  | _ :: _ :: _ =>
    have hsingle := h.single
    rw [hops] at hsingle
    simp at hsingle

/-- Whatever a server session is doing when its peer stalls, it takes a bounded
    number of events of its own, and then it is closed, with no operation and no
    wait that would keep it. -/
theorem stalled_ends (sv : Service) (cfg : HttpConfiguration) {es : List IoEvent}
    (h : Run (step sv) always (start cfg) es s) :
    (∀ fs t, Run (step sv) Stalled s fs t → fs.length ≤ s.world.session.backlog ∧
      (Maximal (step sv) Stalled t → t.world.session.isOpen = false ∧
        t.world.session.ops = [] ∧ t.world.session.waits = [])) ∧
    ∃ fs t, Run (step sv) Stalled s fs t ∧ Maximal (step sv) Stalled t := by
  have hs : s.Awaiting := h.invariant (awaiting_start cfg) fun _ _ _ hI _ hst => hI.step hst
  have hinv : ∀ t e u, Awaiting t → Stalled t e → step sv t e = some u → Awaiting u :=
    fun _ _ _ hI _ hst => hI.step hst
  have hrank : ∀ t e u, Awaiting t → Stalled t e → step sv t e = some u →
      u.world.session.backlog < t.world.session.backlog :=
    fun _ _ _ _ he hst => backlog_step he hst
  refine ⟨fun fs t hrun => ⟨?_, fun hmax => ?_⟩, Run.exists_maximal hs hinv hrank⟩
  · have hle := hrun.length_add_rank_le hs hinv hrank
    omega
  · exact (hrun.invariant hs hinv).standstill hmax

/-- A request that does not end. -/
theorem stalled_ends_slow :
    ∃ s, Run (step ⟨fun _ _ => .error [], fun _ => default⟩) always (start {})
        [.arrive (ascii "GET / v"), .recv 0 7] s ∧ s.world.session.isOpen ∧
      ∃ fs t, Run (step ⟨fun _ _ => .error [], fun _ => default⟩) Stalled s fs t ∧
        t.world.session.isOpen = false ∧ t.world.session.ops = [] ∧
        t.world.session.waits = [] := by
  obtain ⟨s, hs, hopen⟩ := Option.map_eq_some_iff.1 (by decide +kernel :
    (exec (step ⟨fun _ _ => .error [], fun _ => default⟩) (start {})
      [.arrive (ascii "GET / v"), .recv 0 7]).map (·.world.session.isOpen) = some true)
  have hrun : Run _ always _ _ s := .of_exec (by decide +kernel) hs
  obtain ⟨hall, fs, t, hrun', hmax⟩ :=
    stalled_ends ⟨fun _ _ => .error [], fun _ => default⟩ {} hrun
  exact ⟨s, hrun, hopen, fs, t, hrun', (hall fs t hrun').2 hmax⟩

end ServerSession

/-! ## Client sessions -/

namespace ClientSession

/-- The server, the connection and the user of the client have no part in the
    event; but the callbacks that are running return or throw. -/
def Stalled (_ : ClientSession) : ClientEvent → Prop
  | .io e => e.isOwn
  | .ret | .throw => True
  | .request _ _ | .connect => False

/-- The client is connected only while nothing of an earlier connection is under
    way: the handler of a read that is aborted calls nothing. -/
def ConnectsIdle (s : ClientSession) : ClientEvent → Prop
  | .connect => s.world.session.ops = []
  | _ => True

instance (s : ClientSession) : ∀ e, Decidable (ConnectsIdle s e)
  | .connect => inferInstanceAs (Decidable (s.world.session.ops = []))
  | .io _ | .request _ _ | .ret | .throw => inferInstanceAs (Decidable True)

/-- The invariant: a callback in the slot waits on an open session, and a wait of its
    timer is under way. -/
structure Awaiting (s : ClientSession) : Prop where
  numbered : s.world.session.Numbered
  timed : s.callback ≠ none → s.world.session.isOpen ∧ s.world.session.Timed

/-- The events a client session has on its own: those of its session, the callbacks
    running, and the one in the slot. -/
def backlog (s : ClientSession) : ℕ :=
  s.world.session.backlog + s.stack.length + s.callback.toList.length

variable {ep : Endpoint} {s t : ClientSession} {e : ClientEvent}

@[simp] theorem complete_callback (s : ClientSession) (outcome : Except ErrorCode Response)
    (g : Bool) : (s.complete outcome g).callback = none := by
  rw [complete]
  cases s.callback <;> rfl

@[simp] theorem complete_accepted (s : ClientSession) (outcome : Except ErrorCode Response)
    (g : Bool) : (s.complete outcome g).accepted = s.accepted := by
  rw [complete]
  cases s.callback <;> rfl

/-- The callback leaves the slot and is running. -/
@[simp] theorem complete_backlog (s : ClientSession) (outcome : Except ErrorCode Response)
    (g : Bool) : (s.complete outcome g).backlog = s.backlog := by
  rw [complete]
  cases h : s.callback with
  | none => simp [backlog, h]
  | some id =>
    simp only [backlog, invoke, h, List.length_cons, Option.toList_none, Option.toList_some,
      List.length_nil]
    omega

theorem awaiting_create (cfg : HttpConfiguration) : (create cfg).Awaiting where
  numbered := {
    waits_lt := by simp [create, World.fresh]
    nodup := List.nodup_nil
    aborted := by simp [create, World.fresh]
    closed := by simp [create, World.fresh] }
  timed hcallback := absurd rfl hcallback

/-- A completed callback leaves the slot empty, whatever the session. -/
theorem awaiting_complete (hn : s.world.session.Numbered) (outcome : Except ErrorCode Response)
    (g : Bool) : (s.complete outcome g).Awaiting where
  numbered := by rwa [complete_world]
  timed hcallback := absurd (complete_callback s outcome g) hcallback

namespace Awaiting

/-- The hook called in an event. -/
theorem onHook {e : IoEvent} {w : World StatusLine} {hook : Option (HookCall StatusLine)}
    (h : s.Awaiting) (hio : World.Io s.world e w hook) :
    (ClientSession.onHook { s with world := w } hook).Awaiting := by
  have hw := hio.numbered h.numbered
  match hook with
  | none =>
    refine ⟨hw, fun hcallback => ?_⟩
    obtain ⟨hopen, ht⟩ := h.timed hcallback
    exact ⟨(hio.isOpen_eq (by simp)).trans hopen, hio.timed h.numbered hopen ht⟩
  | some ⟨.messageParsed resp, g⟩ => exact awaiting_complete hw _ g
  | some ⟨.writeComplete, _⟩ =>
    exact ⟨hw.doRead, fun hcallback =>
      ⟨(hio.isOpen_eq (by simp)).trans (h.timed hcallback).1, Session.timed_doRead _⟩⟩
  | some ⟨.error ec, g⟩ =>
    have hshut : (w.call .shutdown).session.Numbered := hw.shutdown
    exact awaiting_complete hshut _ g

theorem step (h : s.Awaiting) (hok : ConnectsIdle s e) (hs : ClientSession.step ep s e = some t) :
    t.Awaiting := by
  cases e with
  | io e =>
    obtain ⟨w, hook, hio, rfl⟩ := ClientSession.step_io hs
    exact h.onHook (World.io_cases hio)
  | request c hasCallback =>
    obtain rfl := Option.some.inj hs
    rw [asyncRequest]
    dsimp only
    split
    next => cases hasCallback <;> exact ⟨h.numbered, h.timed⟩
    next hopen =>
      have hopen : s.world.session.isOpen := by simpa using hopen
      exact ⟨h.numbered.doWrite _, fun _ => ⟨hopen, Session.timed_doWrite _ _⟩⟩
  | connect =>
    obtain rfl := Option.some.inj hs
    have hops : s.world.session.ops = [] := hok
    refine ⟨⟨h.numbered.waits_lt, h.numbered.nodup, ?_, ?_⟩, fun hcallback => ?_⟩
    · simp [hops]
    · simp
    · exact ⟨rfl, (h.timed hcallback).2⟩
  | ret =>
    cases hstack : s.stack with
    | nil => simp [ClientSession.step, hstack] at hs
    | cons frame stack =>
      simp only [ClientSession.step, hstack, Option.some.injEq] at hs
      exact hs ▸ ⟨h.numbered, h.timed⟩
  | throw =>
    cases hstack : s.stack with
    | nil => simp [ClientSession.step, hstack] at hs
    | cons frame stack =>
      simp only [ClientSession.step, hstack] at hs
      split at hs
      next =>
        obtain rfl := Option.some.inj hs
        have hshut : ((s.world.record (some ⟨.error .invalidArgument, false⟩)).call
            .shutdown).session.Numbered := h.numbered.shutdown
        exact awaiting_complete hshut _ false
      next =>
        obtain rfl := Option.some.inj hs
        exact ⟨h.numbered, h.timed⟩

end Awaiting

/-- An event of its own leaves the callbacks accepted as they are, and uses up some
    of the backlog. -/
theorem backlog_step (he : Stalled s e) (hs : step ep s e = some t) :
    t.backlog < s.backlog ∧ t.accepted = s.accepted := by
  cases e with
  | io e =>
    obtain ⟨w, hook, hio, rfl⟩ := step_io hs
    have hlt := (World.io_cases hio).backlog_lt he
    match hook with
    | none =>
      simp only [onHook, backlog, hookBacklog] at hlt ⊢
      exact ⟨by omega, trivial⟩
    | some ⟨.messageParsed resp, g⟩ =>
      simp only [onHook, onMessageParsed, complete_backlog, complete_accepted]
      simp only [backlog, hookBacklog] at hlt ⊢
      exact ⟨by omega, trivial⟩
    | some ⟨.writeComplete, _⟩ =>
      have hread := w.session.backlog_doRead_le
      simp only [onHook, onWriteComplete, World.call, backlog, hookBacklog] at hlt ⊢
      exact ⟨by omega, trivial⟩
    | some ⟨.error ec, g⟩ =>
      have hshut := w.session.backlog_shutdown_le
      simp only [onHook, onError, complete_backlog, complete_accepted]
      simp only [World.call, backlog, hookBacklog] at hlt ⊢
      exact ⟨by omega, trivial⟩
  | request | connect => cases he
  | ret =>
    cases hstack : s.stack with
    | nil => simp [step, hstack] at hs
    | cons frame stack =>
      simp only [step, hstack, Option.some.injEq] at hs
      subst hs
      simp only [backlog, hstack, List.length_cons]
      exact ⟨by omega, trivial⟩
  | throw =>
    cases hstack : s.stack with
    | nil => simp [step, hstack] at hs
    | cons frame stack =>
      simp only [step, hstack] at hs
      split at hs
      next =>
        obtain rfl := Option.some.inj hs
        have hshut := s.world.session.backlog_shutdown_le
        simp only [onError, complete_backlog, complete_accepted]
        simp only [World.call, World.record, backlog, hstack, List.length_cons]
        exact ⟨by omega, trivial⟩
      next =>
        obtain rfl := Option.some.inj hs
        simp only [backlog, hstack, List.length_cons]
        exact ⟨by omega, trivial⟩

/-- At a standstill no callback is running, and none is in the slot. -/
theorem Awaiting.standstill (h : s.Awaiting) (hmax : Maximal (ClientSession.step ep) Stalled s) :
    s.stack = [] ∧ s.callback = none := by
  have hstack : s.stack = [] := by
    match hstack : s.stack with
    | [] => rfl
    | frame :: stack =>
      have hret := hmax .ret trivial
      simp [ClientSession.step, hstack] at hret
  refine ⟨hstack, ?_⟩
  have hio : ∀ e : IoEvent, e.isOwn → s.world.io e = none := fun e he => by
    have hnone := hmax (.io e) he
    simpa [ClientSession.step, hstack] using hnone
  by_contra hcallback
  obtain ⟨-, v, hv, -⟩ := h.timed hcallback
  rw [World.waits_eq_nil hio] at hv
  cases hv

/-- Whatever a client session is doing when its server stalls, it takes a bounded
    number of events of its own, and then every callback it has accepted has been
    called, or was replaced by that of a later request. -/
theorem stalled_called (ep : Endpoint) (cfg : HttpConfiguration) {es : List ClientEvent}
    (h : Run (step ep) ConnectsIdle (create cfg) es s) :
    (∀ fs t, Run (step ep) Stalled s fs t → fs.length ≤ s.backlog ∧
      (Maximal (step ep) Stalled t → t.stack = [] ∧ t.callback = none ∧
        ∀ id ∈ s.accepted, id ∈ t.called ∨ id ∈ t.replaced)) ∧
    ∃ fs t, Run (step ep) Stalled s fs t ∧ Maximal (step ep) Stalled t := by
  have hs : s.Awaiting ∧ s.Callbacks :=
    h.invariant (I := fun s => s.Awaiting ∧ s.Callbacks)
      ⟨awaiting_create cfg, callbacks_create cfg⟩
      fun _ _ _ hI hok hst => ⟨hI.1.step hok hst, hI.2.step hst⟩
  have hinv : ∀ t e u, Awaiting t → Stalled t e → step ep t e = some u → Awaiting u := by
    intro t e u hI he hst
    have hidle : ConnectsIdle t e := by cases e <;> trivial
    exact hI.step hidle hst
  have hrank : ∀ t e u, Awaiting t → Stalled t e → step ep t e = some u →
      u.backlog < t.backlog := fun _ _ _ _ he hst => (backlog_step he hst).1
  refine ⟨fun fs t hrun => ⟨?_, fun hmax => ?_⟩, Run.exists_maximal hs.1 hinv hrank⟩
  · have hle := hrun.length_add_rank_le hs.1 hinv hrank
    omega
  · obtain ⟨hstack, hcallback⟩ := (hrun.invariant hs.1 hinv).standstill hmax
    have hcallbacks : t.Callbacks := hrun.invariant hs.2 fun _ _ _ hI _ hst => hI.step hst
    -- no callback is accepted on the way
    have haccepted : t.accepted = s.accepted :=
      hrun.invariant (I := fun t => t.accepted = s.accepted) rfl
        fun _ _ _ hI he hst => (backlog_step he hst).2.trans hI
    refine ⟨hstack, hcallback, fun id hid => ?_⟩
    rcases hcallbacks.settled id (haccepted ▸ hid) with hc | hc | hc
    · exact .inl hc
    · rw [hcallback] at hc
      cases hc
    · exact .inr hc

/-- A request is sent, and no response comes. -/
theorem stalled_called_silent :
    ∃ s, Run (step ⟨[], 80, fun _ => default⟩) ConnectsIdle (create {})
        [.connect, .request (.get (ascii "/") ∅) true, .io (.sent 0), .io (.runOp 0)] s ∧
      s.accepted = [0] ∧ s.called = [] ∧
      ∃ fs t, Run (step ⟨[], 80, fun _ => default⟩) Stalled s fs t ∧
        (0 ∈ t.called ∨ 0 ∈ t.replaced) := by
  obtain ⟨s, hs, hstate⟩ := Option.map_eq_some_iff.1 (by decide +kernel :
    (exec (step ⟨[], 80, fun _ => default⟩) (create {})
      [.connect, .request (.get (ascii "/") ∅) true, .io (.sent 0), .io (.runOp 0)]).map
      (fun s => (s.accepted, s.called)) = some ([0], []))
  obtain ⟨haccepted, hcalled⟩ := Prod.mk.inj hstate
  have hrun : Run _ ConnectsIdle _ _ s := .of_exec (by decide +kernel) hs
  obtain ⟨hall, fs, t, hrun', hmax⟩ := stalled_called ⟨[], 80, fun _ => default⟩ {} hrun
  have hsettled := ((hall fs t hrun').2 hmax).2.2 0 (by simp [haccepted])
  exact ⟨s, hrun, haccepted, hcalled, fs, t, hrun', hsettled⟩

end ClientSession

end Dss.Http
