import Dss.Http.Callbacks
import Dss.Http.Calls
import Dss.Http.Orderly

/-!
# One call at a time

A client session whose user makes one call at a time, each with a callback
(`ProperCall`). The payloads it writes are those of the calls, in order; while a
callback is in the slot it is that of the last call, and the response delivered
next is passed to it (`Issuing`).
-/

namespace Dss.Http

open Dss.Lib Dss.Utils Headers WireMessage

/-- A client session on a fresh connection. -/
def ClientSession.connected (cfg : HttpConfiguration) : ClientSession :=
  { create cfg with world := World.fresh StatusLine cfg }

/-- So `async_connect` leaves a session that has been created. -/
theorem ClientSession.step_connect (ep : Endpoint) (cfg : HttpConfiguration) :
    step ep (create cfg) .connect = some (connected cfg) := rfl

/-- An event of the connection, with the hook it calls. -/
theorem ClientSession.step_io {ep : Endpoint} {s t : ClientSession} {e : IoEvent}
    (hs : step ep s (.io e) = some t) :
    ∃ w hook, s.world.io e = some (w, hook) ∧ t = { s with world := w }.onHook hook := by
  rw [step, Option.ite_none_left_eq_some] at hs
  obtain ⟨⟨w, hook⟩, hio, rfl⟩ := Option.map_eq_some_iff.1 hs.2
  exact ⟨w, hook, hio, rfl⟩

/-- The calls made in an event. -/
def ClientEvent.calls : ClientEvent → List ClientCall
  | .request c _ => [c]
  | _ => []

/-- The user of the client makes calls that can be sent, each with a callback, and
    none while a callback is in the slot. -/
def ClientSession.ProperCall (s : ClientSession) : ClientEvent → Prop
  | .request c hasCallback =>
    hasCallback ∧ (s.world.session.isOpen → s.callback = none) ∧ c.Sendable
  | _ => True

instance (s : ClientSession) : ∀ e, Decidable (s.ProperCall e)
  | .request c hasCallback => inferInstanceAs (Decidable
      (hasCallback ∧ (s.world.session.isOpen → s.callback = none) ∧ c.Sendable))
  | .io _ | .connect | .ret | .throw => inferInstanceAs (Decidable True)

variable {ep : Endpoint}

namespace World

variable {L : Type} [StartLine L] {w w' : World L} {e : IoEvent} {hook : Option (HookCall L)}

/-- Only a timeout closes a session before its hook is called. -/
theorem Io.isOpen_eq (h : Io w e w' hook) (hhook : ∀ c g, hook ≠ some ⟨.error c, g⟩) :
    w'.session.isOpen = w.session.isOpen := by
  cases h with
  | failed | timedOut => exact absurd rfl (hhook _ _)
  | _ => rfl

/-- Events write nothing. -/
theorem Io.written_eq (h : Io w e w' hook) : w'.written = w.written := by
  cases h with
  | _ => rfl

end World

/-- The invariant of a client session that sends the calls `issued` one at a time,
    each with a callback. -/
structure Issuing (ep : Endpoint) (issued : List ClientCall) (s : ClientSession) : Prop where
  single : s.world.session.ops.length ≤ 1
  number : s.nextRequest = issued.length
  length_le : s.world.written.length ≤ issued.length
  written : s.world.written = payloads ep (issued.take s.world.written.length)
  /-- A session that is closed has called its callback. -/
  closed : s.world.session.isOpen = false → s.callback = none
  waiting : ∀ id, s.callback = some id → s.world.delivered.length = id ∧
    s.world.written.length = id + 1 ∧ issued.length = id + 1
  ready : s.world.session.isOpen → s.callback = none → s.world.session.ops = [] ∧
    s.world.written.length = issued.length ∧ s.world.delivered.length = issued.length
  /-- A callback is called with the response of its number. -/
  answered : ∀ i ∈ s.invoked, ∀ resp, i.outcome = .ok resp →
    (s.world.delivered.map (·.msg))[i.callback]? = some resp

namespace Issuing

variable {issued : List ClientCall} {s t : ClientSession} {e : IoEvent} {w : World StatusLine}

theorem connected (ep : Endpoint) (cfg : HttpConfiguration) : Issuing ep [] (.connected cfg) where
  single := Nat.zero_le _
  number := rfl
  length_le := le_rfl
  written := rfl
  closed hclosed := by cases hclosed
  waiting _ hcallback := by cases hcallback
  ready _ _ := ⟨rfl, rfl, rfl⟩
  answered _ hi := by cases hi

/-- The session changes in what the invariant does not speak of. -/
theorem congr (h : Issuing ep issued s)
    (hops : t.world.session.ops.length ≤ s.world.session.ops.length)
    (hopen : t.world.session.isOpen = s.world.session.isOpen)
    (hnumber : t.nextRequest = s.nextRequest) (hwritten : t.world.written = s.world.written)
    (hdelivered : t.world.delivered = s.world.delivered) (hcallback : t.callback = s.callback)
    (hinvoked : t.invoked = s.invoked) : Issuing ep issued t where
  single := hops.trans h.single
  number := hnumber.trans h.number
  length_le := hwritten ▸ h.length_le
  written := by rw [hwritten]; exact h.written
  closed hclosed := by rw [hcallback]; exact h.closed (hopen ▸ hclosed)
  waiting id hid := by rw [hdelivered, hwritten]; exact h.waiting id (hcallback ▸ hid)
  ready hopen' hnone := by
    obtain ⟨hnil, hlen, hlen'⟩ := h.ready (hopen ▸ hopen') (hcallback ▸ hnone)
    rw [hdelivered, hwritten]
    exact ⟨List.eq_nil_of_length_eq_zero (by rw [hnil] at hops; simpa using hops), hlen, hlen'⟩
  answered := by rw [hinvoked, hdelivered]; exact h.answered

/-- An error closes the session, and the callback is called with it. -/
theorem onError (h : Issuing ep issued s) (hops : w.session.ops.length ≤ s.world.session.ops.length)
    (hwritten : w.written = s.world.written) (hdelivered : w.delivered = s.world.delivered)
    (ec : ErrorCode) (g : Bool) : Issuing ep issued ({ s with world := w }.onError ec g) := by
  have hsingle : (w.call .shutdown).session.ops.length ≤ 1 := by
    refine le_trans ?_ (hops.trans h.single)
    simp only [World.call, Session.shutdown_ops]
    split <;> simp
  have hclosed : (w.call .shutdown).session.isOpen = false := by simp [World.call]
  have hanswered : ∀ i ∈ s.invoked, ∀ resp, i.outcome = .ok resp →
      (w.delivered.map (·.msg))[i.callback]? = some resp := hdelivered ▸ h.answered
  have hle : w.written.length ≤ issued.length := hwritten ▸ h.length_le
  have hpayloads : w.written = payloads ep (issued.take w.written.length) := by
    rw [hwritten]
    exact h.written
  rw [ClientSession.onError, ClientSession.complete]
  split
  next id hid =>
    refine {
      single := hsingle
      number := h.number
      length_le := hle
      written := hpayloads
      closed := fun _ => rfl
      waiting := fun _ hcallback => by cases hcallback
      ready := fun hopen => absurd (hclosed.symm.trans hopen) (by simp)
      answered := fun i hi resp hresp => ?_ }
    rcases List.mem_append.1 hi with hi | hi
    · exact hanswered i hi resp hresp
    · rw [List.mem_singleton.1 hi] at hresp
      cases hresp
  next =>
    exact {
      single := hsingle
      number := h.number
      length_le := hle
      written := hpayloads
      closed := fun _ => rfl
      waiting := fun _ hcallback => by cases hcallback
      ready := fun hopen => absurd (hclosed.symm.trans hopen) (by simp)
      answered := hanswered }

/-- A response is delivered when the read was the only operation: the callback in
    the slot is that of the last call, and gets it. -/
theorem onMessageParsed (h : Issuing ep issued s) {resp : Response} {g : Bool}
    (hio : World.Io s.world e w (some ⟨.messageParsed resp, g⟩)) :
    Issuing ep issued ({ s with world := w }.onMessageParsed resp g) := by
  obtain ⟨hwritten, hdelivered, -, o, ho, -⟩ := hio.of_messageParsed
  have hnil := hio.ops_eq_nil (by simp) h.single
  have hopen := hio.isOpen_eq (by simp)
  have hlen := hio.length_delivered
  have hanswered : ∀ i ∈ s.invoked, ∀ resp, i.outcome = .ok resp →
      (w.delivered.map (·.msg))[i.callback]? = some resp := by
    intro i hi resp hresp
    have hlt := (List.getElem?_eq_some_iff.1 (h.answered i hi resp hresp)).1
    rw [hdelivered, List.getElem?_append_left hlt]
    exact h.answered i hi resp hresp
  rw [ClientSession.onMessageParsed, ClientSession.complete]
  dsimp only
  cases hcallback : s.callback with
  | some id =>
    obtain ⟨hid, hlast, hissued⟩ := h.waiting id hcallback
    refine {
      single := by simp [ClientSession.invoke, hnil]
      number := h.number
      length_le := hwritten ▸ h.length_le
      written := by simpa only [ClientSession.invoke, hwritten] using h.written
      closed := fun _ => rfl
      waiting := fun _ hnone => by cases hnone
      ready := fun _ _ => ⟨hnil, (by rw [← hissued] at hlast; exact hwritten ▸ hlast),
        hlen.trans (by rw [hid, hissued])⟩
      answered := fun i hi resp' hresp => ?_ }
    rcases List.mem_append.1 hi with hi | hi
    · exact hanswered i hi resp' hresp
    · -- it is the next one to be delivered
      obtain rfl := List.mem_singleton.1 hi
      obtain rfl := Except.ok.inj hresp
      have hat : (s.world.delivered.map (·.msg)).length = id := by simpa using hid
      simp only [ClientSession.invoke]
      rw [hdelivered, ← hat, List.getElem?_concat_length]
  | none =>
    -- nothing is under way in a session that is open with an empty slot
    have hclosed : s.world.session.isOpen = false := by
      by_contra hopen
      rw [(h.ready (by simpa using hopen) hcallback).1] at ho
      cases ho
    exact {
      single := by simp [hnil]
      number := h.number
      length_le := hwritten ▸ h.length_le
      written := by simpa only [hwritten] using h.written
      closed := fun _ => rfl
      waiting := fun _ hnone => by cases hnone
      ready := fun hopen' => by simp [hopen.trans hclosed] at hopen'
      answered := hanswered }

/-- A write is done: the response is read. -/
theorem onWriteComplete (h : Issuing ep issued s) {g : Bool}
    (hio : World.Io s.world e w (some ⟨.writeComplete, g⟩)) :
    Issuing ep issued ({ s with world := w }.onWriteComplete) := by
  obtain ⟨hwritten, hdelivered, -, o, ho, -⟩ := hio.of_writeComplete
  have hnil := hio.ops_eq_nil (by simp) h.single
  have hopen := hio.isOpen_eq (by simp)
  refine {
    single := by simp [ClientSession.onWriteComplete, World.call, hnil]
    number := h.number
    length_le := ?_
    written := ?_
    closed := fun hclosed => h.closed (hopen.symm.trans hclosed)
    waiting := fun id hid => ?_
    ready := fun hopen' hnone => ?_
    answered := ?_ }
  · simpa only [ClientSession.onWriteComplete, World.call, hwritten] using h.length_le
  · simpa only [ClientSession.onWriteComplete, World.call, hwritten] using h.written
  · simpa only [ClientSession.onWriteComplete, World.call, hwritten, hdelivered]
      using h.waiting id hid
  · rw [(h.ready (hopen.symm.trans hopen') hnone).1] at ho
    cases ho
  · simpa only [ClientSession.onWriteComplete, World.call, hdelivered] using h.answered

/-- A call made while the slot is empty. -/
theorem asyncRequest (h : Issuing ep issued s)
    (hone : s.world.session.isOpen → s.callback = none) (c : ClientCall) :
    Issuing ep (issued ++ [c]) (s.asyncRequest ep c.request true) := by
  have hnumber : s.nextRequest + 1 = (issued ++ [c]).length := by simp [h.number]
  rw [ClientSession.asyncRequest]
  dsimp only
  cases hopen : s.world.session.isOpen with
  | false =>
    -- the callback is called with an error at once
    have hnone := h.closed hopen
    refine {
      single := h.single
      number := hnumber
      length_le := h.length_le.trans (by simp)
      written := ?_
      closed := fun _ => hnone
      waiting := fun id hid => by simp [ClientSession.invoke, hnone] at hid
      ready := fun hopen' => absurd (hopen.symm.trans hopen') (by simp)
      answered := fun i hi resp hresp => ?_ }
    · simpa [ClientSession.invoke, List.take_append_of_le_length h.length_le] using h.written
    · rcases List.mem_append.1 hi with hi | hi
      · exact h.answered i hi resp hresp
      · rw [List.mem_singleton.1 hi] at hresp
        cases hresp
  | true =>
    obtain ⟨hnil, hwritten, hdelivered⟩ := h.ready hopen (hone hopen)
    have hpayloads := h.written
    rw [hwritten, List.take_length] at hpayloads
    have hsent : s.world.written ++ [(c.sent ep).serialize (ep.order s.world.written.length)] =
        payloads ep (issued ++ [c]) := by
      rw [payloads_concat, ← hpayloads, hwritten]
    have hlen : (payloads ep (issued ++ [c])).length = (issued ++ [c]).length := by
      simp [payloads]
    refine {
      single := by simp [World.call, hnil]
      number := hnumber
      length_le := ((congrArg List.length hsent).trans hlen).le
      written := ?_
      closed := fun hclosed => absurd (hopen.symm.trans hclosed) (by simp)
      waiting := fun id hid => ?_
      ready := fun _ hnone => by simp at hnone
      answered := h.answered }
    · refine hsent.trans (congrArg (payloads ep) ?_)
      rw [List.take_of_length_le]
      exact ((congrArg List.length hsent).trans hlen).ge
    · obtain rfl : s.nextRequest = id := by simpa using hid
      simp [World.call, h.number, hwritten, hdelivered]

/-- A step keeps the invariant. -/
theorem step {e : ClientEvent} (h : Issuing ep issued s) (hok : s.ProperCall e)
    (hconn : e.isConnect = false) (hs : ClientSession.step ep s e = some t) :
    Issuing ep (issued ++ e.calls) t := by
  cases e with
  | io e =>
    simp only [ClientEvent.calls, List.append_nil]
    obtain ⟨w, hook, hio, rfl⟩ := ClientSession.step_io hs
    have hio := World.io_cases hio
    match hook with
    | none =>
      obtain ⟨hwritten, hdelivered, -, -⟩ := hio.of_quiet (.inl rfl)
      exact h.congr hio.length_ops_le (hio.isOpen_eq (by simp)) rfl hwritten hdelivered rfl rfl
    | some ⟨.messageParsed resp, g⟩ => exact h.onMessageParsed hio
    | some ⟨.writeComplete, g⟩ => exact h.onWriteComplete hio
    | some ⟨.error ec, g⟩ =>
      obtain ⟨hwritten, hdelivered, -, -⟩ := hio.of_quiet (.inr ⟨ec, g, rfl⟩)
      exact h.onError hio.length_ops_le hwritten hdelivered ec g
  | request c hasCallback =>
    obtain ⟨rfl, hone, -⟩ := hok
    obtain rfl := Option.some.inj hs
    exact h.asyncRequest hone c
  | connect => cases hconn
  | ret =>
    simp only [ClientEvent.calls, List.append_nil]
    cases hstack : s.stack with
    | nil => simp [ClientSession.step, hstack] at hs
    | cons frame stack =>
      simp only [ClientSession.step, hstack, Option.some.injEq] at hs
      exact hs ▸ h.congr le_rfl rfl rfl rfl rfl rfl rfl
  | throw =>
    simp only [ClientEvent.calls, List.append_nil]
    cases hstack : s.stack with
    | nil => simp [ClientSession.step, hstack] at hs
    | cons frame stack =>
      have hpop : Issuing ep issued { s with stack } := h.congr le_rfl rfl rfl rfl rfl rfl rfl
      simp only [ClientSession.step, hstack] at hs
      split at hs
      next =>
        obtain rfl := Option.some.inj hs
        exact hpop.onError (w := s.world.record (some ⟨.error .invalidArgument, false⟩)) le_rfl rfl
          rfl .invalidArgument false
      next =>
        obtain rfl := Option.some.inj hs
        exact hpop

end Issuing

end Dss.Http
