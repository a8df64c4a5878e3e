import Dss.Http.Client

/-!
# Callbacks of a client session

A callback is stored in `m_callback`, one slot, until a response or an error
calls it. It is called at most once; and if it is not, it is still in the slot,
or a request accepted later has taken its place there (`callbacks_settled`).
There is no queue of requests: a callback that is replaced is never called.
-/

namespace Dss.Http.ClientSession

open Dss.Lib

variable {ep : Endpoint} {s t : ClientSession} {e : ClientEvent}

/-- The callbacks called so far. -/
def called (s : ClientSession) : List ℕ := s.invoked.map (·.callback)

/-- The invariant of the callbacks. Requests are numbered in order, so a callback
    not stored yet is new. -/
structure Callbacks (s : ClientSession) : Prop where
  called_lt : ∀ id ∈ s.called, id < s.nextRequest
  accepted_lt : ∀ id ∈ s.accepted, id < s.nextRequest
  nodup : s.called.Nodup
  stored : ∀ id, s.callback = some id → id ∈ s.accepted ∧ id ∉ s.called ∧ id ∉ s.replaced
  replaced : ∀ id ∈ s.replaced, id ∈ s.accepted ∧ id ∉ s.called
  settled : ∀ id ∈ s.accepted, id ∈ s.called ∨ s.callback = some id ∨ id ∈ s.replaced

theorem callbacks_create (cfg : HttpConfiguration) : (create cfg).Callbacks where
  called_lt := by simp [create, called]
  accepted_lt := by simp [create]
  nodup := by simp [create, called]
  stored := by simp [create]
  replaced := by simp [create]
  settled := by simp [create]

namespace Callbacks

/-- The invariant depends on the callbacks only. -/
theorem congr (h : s.Callbacks) (hinvoked : t.invoked = s.invoked)
    (hnext : t.nextRequest = s.nextRequest) (haccepted : t.accepted = s.accepted)
    (hcallback : t.callback = s.callback) (hreplaced : t.replaced = s.replaced) :
    t.Callbacks := by
  have hcalled : t.called = s.called := by rw [called, called, hinvoked]
  constructor
  · rw [hcalled, hnext]
    exact h.called_lt
  · rw [haccepted, hnext]
    exact h.accepted_lt
  · rw [hcalled]
    exact h.nodup
  · rw [hcallback, haccepted, hcalled, hreplaced]
    exact h.stored
  · rw [hreplaced, haccepted, hcalled]
    exact h.replaced
  · rw [haccepted, hcalled, hcallback, hreplaced]
    exact h.settled

/-- A callback is called that has not been called before: the one in the slot,
    which is then empty, or one that has not been stored. -/
theorem call {id : ℕ} (h : s.Callbacks) (hlt : id < s.nextRequest) (hid : id ∉ s.called)
    (hid' : id ∉ s.replaced) (hcalled : t.called = s.called ++ [id])
    (hnext : t.nextRequest = s.nextRequest) (haccepted : t.accepted = s.accepted)
    (hreplaced : t.replaced = s.replaced)
    (hcallback : ∀ i, t.callback = some i ↔ s.callback = some i ∧ i ≠ id) : t.Callbacks := by
  have hmem : ∀ i, i ∈ t.called ↔ i ∈ s.called ∨ i = id := by simp [hcalled]
  constructor
  · intro i hi
    rw [hnext]
    rcases (hmem i).1 hi with hi | rfl
    · exact h.called_lt i hi
    · exact hlt
  · rw [haccepted, hnext]
    exact h.accepted_lt
  · rw [hcalled, List.nodup_append]
    refine ⟨h.nodup, List.nodup_singleton id, ?_⟩
    rintro a ha b hb rfl
    exact hid (List.mem_singleton.1 hb ▸ ha)
  · intro i hi
    obtain ⟨hi, hne⟩ := (hcallback i).1 hi
    obtain ⟨hacc, hc, hr⟩ := h.stored i hi
    rw [haccepted, hreplaced]
    exact ⟨hacc, fun hi => ((hmem i).1 hi).elim hc hne, hr⟩
  · intro i hi
    rw [hreplaced] at hi
    obtain ⟨hacc, hc⟩ := h.replaced i hi
    rw [haccepted]
    refine ⟨hacc, fun hi' => ((hmem i).1 hi').elim hc ?_⟩
    rintro rfl
    exact hid' hi
  · intro i hi
    rw [haccepted] at hi
    rw [hmem, hcallback, hreplaced]
    rcases h.settled i hi with hc | hc | hc
    · exact .inl (.inl hc)
    · by_cases hii : i = id
      · exact .inl (.inr hii)
      · exact .inr (.inl ⟨hc, hii⟩)
    · exact .inr (.inr hc)

/-- The callback in the slot is taken out of it, and called. -/
theorem complete (h : s.Callbacks) (outcome : Except ErrorCode Response) (g : Bool) :
    (s.complete outcome g).Callbacks := by
  rw [ClientSession.complete]
  cases hcb : s.callback with
  | none => exact h.congr rfl rfl rfl hcb.symm rfl
  | some id =>
    -- the callback in the slot has been accepted, and neither called nor replaced
    obtain ⟨hacc, hc, hr⟩ := h.stored id hcb
    refine h.call (h.accepted_lt id hacc) hc hr (by simp [called, invoke]) rfl rfl rfl fun i => ?_
    simp only [invoke, hcb]
    constructor
    · rintro ⟨⟩
    · rintro ⟨hi, hne⟩
      exact absurd (Option.some.inj hi).symm hne

/-- A request that is not accepted is given a number, no more. -/
theorem next (h : s.Callbacks) : Callbacks { s with nextRequest := s.nextRequest + 1 } where
  called_lt i hi := (h.called_lt i hi).trans (Nat.lt_succ_self _)
  accepted_lt i hi := (h.accepted_lt i hi).trans (Nat.lt_succ_self _)
  nodup := h.nodup
  stored := h.stored
  replaced := h.replaced
  settled := h.settled

/-- A request on a closed session calls its callback at once; on an open one it
    takes the place of the callback in the slot. -/
theorem asyncRequest (h : s.Callbacks) (req : Request) (hasCallback : Bool) :
    (s.asyncRequest ep req hasCallback).Callbacks := by
  -- the number of the request is new
  have hcalled : s.nextRequest ∉ s.called := fun hid => (h.called_lt _ hid).false
  have haccepted : s.nextRequest ∉ s.accepted := fun hid => (h.accepted_lt _ hid).false
  have hreplaced : s.nextRequest ∉ s.replaced := fun hid => haccepted (h.replaced _ hid).1
  have hcallback : ∀ i, s.callback = some i → i ≠ s.nextRequest := by
    rintro i hi rfl
    exact haccepted (h.stored _ hi).1
  rw [ClientSession.asyncRequest]
  dsimp only
  split
  next =>
    cases hasCallback with
    | false => exact h.next
    | true =>
      exact h.next.call (Nat.lt_succ_self _) hcalled hreplaced (by simp [called, invoke]) rfl rfl
        rfl fun i => ⟨fun hi => ⟨hi, hcallback i hi⟩, And.left⟩
  next =>
    -- what was in the slot is replaced, whether or not the request has a callback
    have hreplaced' : ∀ i, i ∈ s.replaced ++ s.callback.toList ↔
        i ∈ s.replaced ∨ s.callback = some i := by simp
    -- it is accepted if it has one
    have haccepted' : ∀ i, (i ∈ if hasCallback = true then s.accepted ++ [s.nextRequest]
        else s.accepted) ↔ i ∈ s.accepted ∨ (hasCallback = true ∧ i = s.nextRequest) := by
      intro i
      cases hasCallback <;> simp
    refine {
      called_lt := h.next.called_lt
      accepted_lt := fun i hi => ?_
      nodup := h.nodup
      stored := fun i hi => ?_
      replaced := fun i hi => ?_
      settled := fun i hi => ?_ }
    · rcases (haccepted' i).1 hi with hi | ⟨-, rfl⟩
      · exact h.next.accepted_lt i hi
      · exact Nat.lt_succ_self _
    · dsimp only at hi
      split at hi
      next hhas =>
        obtain rfl := Option.some.inj hi
        refine ⟨(haccepted' _).2 (.inr ⟨hhas, rfl⟩), hcalled, ?_⟩
        rw [hreplaced']
        exact fun hr => hr.elim hreplaced fun hr => hcallback _ hr rfl
      next => cases hi
    · rw [haccepted']
      rcases (hreplaced' i).1 hi with hi | hi
      · exact ⟨.inl (h.replaced i hi).1, (h.replaced i hi).2⟩
      · obtain ⟨hacc, hc, -⟩ := h.stored i hi
        exact ⟨.inl hacc, hc⟩
    · dsimp only
      rw [hreplaced']
      rcases (haccepted' i).1 hi with hi | ⟨hhas, rfl⟩
      · rcases h.settled i hi with hc | hc | hc
        · exact .inl hc
        · exact .inr (.inr (.inr hc))
        · exact .inr (.inr (.inl hc))
      · rw [if_pos hhas]
        exact .inr (.inl rfl)

/-- The hooks of the session. -/
theorem onHook (h : s.Callbacks) (hook : Option (HookCall StatusLine)) :
    (s.onHook hook).Callbacks := by
  match hook with
  | none => exact h
  | some ⟨.messageParsed resp, g⟩ =>
    have hkeep : Callbacks { s with keepAlive := resp.headers.keepsAlive } :=
      h.congr rfl rfl rfl rfl rfl
    exact hkeep.complete (.ok resp) g
  | some ⟨.writeComplete, _⟩ => exact h.congr rfl rfl rfl rfl rfl
  | some ⟨.error ec, g⟩ =>
    have hshut : Callbacks { s with world := s.world.call .shutdown } := h.congr rfl rfl rfl rfl rfl
    exact hshut.complete (.error ec) g

/-- A step keeps the invariant. -/
theorem step (h : s.Callbacks) (hs : ClientSession.step ep s e = some t) : t.Callbacks := by
  cases e with
  | io e =>
    simp only [ClientSession.step] at hs
    split at hs
    next => cases hs
    next =>
      obtain ⟨⟨w, hook⟩, -, rfl⟩ := Option.map_eq_some_iff.1 hs
      have hworld : Callbacks { s with world := w } := h.congr rfl rfl rfl rfl rfl
      exact hworld.onHook hook
  | request c hasCallback =>
    obtain rfl := Option.some.inj hs
    exact h.asyncRequest c.request hasCallback
  | connect =>
    obtain rfl := Option.some.inj hs
    exact h.congr rfl rfl rfl rfl rfl
  | ret =>
    cases hstack : s.stack with
    | nil => simp [ClientSession.step, hstack] at hs
    | cons frame stack =>
      simp only [ClientSession.step, hstack, Option.some.injEq] at hs
      exact hs ▸ h.congr rfl rfl rfl rfl rfl
  | throw =>
    -- within `on_headers_read` the exception is an error, elsewhere it leaves the loop
    cases hstack : s.stack with
    | nil => simp [ClientSession.step, hstack] at hs
    | cons frame stack =>
      have hpop : Callbacks { s with stack } := h.congr rfl rfl rfl rfl rfl
      simp only [ClientSession.step, hstack] at hs
      split at hs
      next =>
        obtain rfl := Option.some.inj hs
        have hrecord : Callbacks { s with
            stack, world := s.world.record (some ⟨.error .invalidArgument, false⟩) } :=
          hpop.congr rfl rfl rfl rfl rfl
        exact hrecord.onHook (some ⟨.error .invalidArgument, false⟩)
      next =>
        obtain rfl := Option.some.inj hs
        exact hpop

end Callbacks

/-! ## Requests one at a time -/

/-- The event is not a request accepted while a callback is in the slot. -/
def OneAtATime (s : ClientSession) : ClientEvent → Prop
  | .request _ _ => s.world.session.isOpen → s.callback = none
  | _ => True

instance (s : ClientSession) : ∀ e, Decidable (OneAtATime s e)
  | .request _ _ => inferInstanceAs (Decidable (s.world.session.isOpen → s.callback = none))
  | .io _ | .connect | .ret | .throw => inferInstanceAs (Decidable True)

@[simp] theorem complete_replaced (s : ClientSession) (outcome : Except ErrorCode Response)
    (g : Bool) : (s.complete outcome g).replaced = s.replaced := by
  rw [complete]
  cases s.callback <;> rfl

/-- Where requests are issued one at a time, no callback is replaced. -/
theorem replaced_step (hreplaced : s.replaced = []) (hok : OneAtATime s e)
    (hs : step ep s e = some t) : t.replaced = [] := by
  cases e with
  | io e =>
    simp only [step] at hs
    split at hs
    next => cases hs
    next =>
      obtain ⟨⟨w, hook⟩, -, rfl⟩ := Option.map_eq_some_iff.1 hs
      match hook with
      | none | some ⟨.writeComplete, _⟩ => exact hreplaced
      | some ⟨.messageParsed _, _⟩ => simpa [onHook, onMessageParsed] using hreplaced
      | some ⟨.error _, _⟩ => simpa [onHook, onError] using hreplaced
  | request c hasCallback =>
    obtain rfl := Option.some.inj hs
    simp only [asyncRequest]
    split
    next => cases hasCallback <;> exact hreplaced
    -- the slot is empty
    next hopen => simp [hreplaced, hok (by simpa using hopen)]
  | connect =>
    obtain rfl := Option.some.inj hs
    exact hreplaced
  | ret =>
    cases hstack : s.stack with
    | nil => simp [step, hstack] at hs
    | cons frame stack =>
      simp only [step, hstack, Option.some.injEq] at hs
      exact hs ▸ hreplaced
  | throw =>
    cases hstack : s.stack with
    | nil => simp [step, hstack] at hs
    | cons frame stack =>
      simp only [step, hstack] at hs
      split at hs
      next =>
        obtain rfl := Option.some.inj hs
        simpa [onError] using hreplaced
      next =>
        obtain rfl := Option.some.inj hs
        exact hreplaced

/-- A callback is called at most once, and one that has been accepted has been
    called, or is in the slot, or has been replaced there by a later request, and
    is then never called. Where requests are issued one at a time, none is
    replaced. -/
theorem callbacks_settled (ep : Endpoint) (cfg : HttpConfiguration) :
    (∀ es s, Run (step ep) always (create cfg) es s → s.called.Nodup ∧
      (∀ id ∈ s.accepted, id ∈ s.called ∨ s.callback = some id ∨ id ∈ s.replaced) ∧
      ∀ id ∈ s.replaced, id ∉ s.called) ∧
    ∀ es s, Run (step ep) OneAtATime (create cfg) es s →
      ∀ id ∈ s.accepted, id ∈ s.called ∨ s.callback = some id := by
  have hinv : ∀ {ok es s}, Run (step ep) ok (create cfg) es s → s.Callbacks := fun h =>
    h.invariant (callbacks_create cfg) fun _ _ _ hI _ hs => hI.step hs
  refine ⟨fun es s h => ?_, fun es s h id hid => ?_⟩
  · exact ⟨(hinv h).nodup, (hinv h).settled, fun id hid => ((hinv h).replaced id hid).2⟩
  · have hreplaced : s.replaced = [] :=
      h.invariant (I := fun s => s.replaced = []) rfl
        fun _ _ _ hI hok hs => replaced_step hI hok hs
    rcases (hinv h).settled id hid with hc | hc | hc
    · exact .inl hc
    · exact .inr hc
    · simp [hreplaced] at hc

/-- Two requests issued one after the other: the callback of the first is
    dropped. -/
theorem callback_dropped :
    ∃ s, Run (step ⟨[], 80, fun _ => default⟩) always (create {})
        [.connect, .request (.get (ascii "/a") ∅) true, .request (.get (ascii "/b") ∅) true] s ∧
      0 ∈ s.accepted ∧ 0 ∉ s.called ∧ s.callback ≠ some 0 := by
  refine ⟨_, .of_exec (by decide +kernel) rfl, ?_⟩
  decide +kernel

/-- A request is answered, and its callback called. -/
theorem callbacks_settled_answered :
    ∃ s, Run (step ⟨[], 80, fun _ => default⟩) OneAtATime (create {})
        [.connect, .request (.get (ascii "/") ∅) true, .io (.sent 0), .io (.runOp 0),
          .io (.arrive (ascii "v 200 OK\r\n\r\n")), .io (.recv 1 12), .io (.runOp 1), .ret] s ∧
      s.called.Nodup ∧ s.accepted = [0] ∧
      ∀ id ∈ s.accepted, id ∈ s.called ∨ s.callback = some id := by
  obtain ⟨s, hs, hacc⟩ := Option.map_eq_some_iff.1 (by decide +kernel :
    (exec (step ⟨[], 80, fun _ => default⟩) (create {})
      [.connect, .request (.get (ascii "/") ∅) true, .io (.sent 0), .io (.runOp 0),
        .io (.arrive (ascii "v 200 OK\r\n\r\n")), .io (.recv 1 12), .io (.runOp 1), .ret]).map
      (·.accepted) = some [0])
  have hrun : Run _ OneAtATime _ _ s := .of_exec (by decide +kernel) hs
  obtain ⟨hall, hone⟩ := callbacks_settled ⟨[], 80, fun _ => default⟩ {}
  exact ⟨s, hrun, (hall _ s (hrun.mono fun _ _ _ => trivial)).1, hacc, hone _ s hrun⟩

end Dss.Http.ClientSession
