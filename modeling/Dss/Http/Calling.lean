import Dss.Http.Issuing
import Dss.Http.LockStep
import Dss.Http.Pipelining

/-!
# A client session that is answered

A client session that makes one call at a time to a server which answers each in
lock-step, within the limits, while no timer expires and nothing fails. It reports
no error and stays open; while a callback is in the slot, the write of its request
or the read of its response is under way; and the callbacks called are those of
the calls made, in order, each with the response delivered for it (`Calling`). Every
step but a call lowers the rank (`Calling.rank_io`).
-/

namespace Dss.Http

open Dss.Lib WireMessage

/-- The callbacks called where the responses `resps` have been delivered. -/
def invocations (resps : List Response) : List Invocation :=
  resps.zipIdx.map fun (resp, k) => ⟨k, .ok resp⟩

theorem invocations_concat (resps : List Response) (resp : Response) :
    invocations (resps ++ [resp]) = invocations resps ++ [⟨resps.length, .ok resp⟩] := by
  simp [invocations, List.zipIdx_append]

/-- The invariant of a client session that is sent the messages `ps` in answer to the
    calls `issued`. -/
structure Calling (ep : Endpoint) (cfg : HttpConfiguration) (ps : List WireMessage)
    (issued : List ClientCall) (s : ClientSession) : Prop where
  issuing : Issuing ep issued s
  lockStep : LockStepState cfg ps s.world
  isOpen : s.world.session.isOpen
  busy : ∀ id, s.callback = some id → ∃ o, s.world.session.ops = [o]
  invoked : s.invoked = invocations (s.world.delivered.map (·.msg))

/-- The steps of a client session with such a server, whose user makes one call at a
    time and does not throw. -/
def Answered (ps : List WireMessage) (s : ClientSession) : ClientEvent → Prop
  | .io e => LockStep ps s.world (.io e)
  | .request c hasCallback => hasCallback ∧ s.callback = none ∧ c.Sendable
  | .connect | .throw => False
  | .ret => True

/-- Where all messages are accepted, no error is reported. -/
theorem LockStepState.errors_eq_nil {L : Type} [StartLine L] {cfg : HttpConfiguration}
    {ps : List WireMessage} {w : World L} (h : LockStepState cfg ps w)
    (hps : ∀ p ∈ ps, p.WellFormed L) (hacc : ∀ p ∈ ps, p.accept (L := L) cfg ≠ none)
    (hne : ps ≠ []) : w.errors = [] := by
  by_contra herrors
  obtain ⟨p, hp, hnone⟩ := h.not_accepted_of_errors hps herrors hne
  exact hacc p (List.mem_of_getElem? hp) hnone

namespace Calling

variable {ep : Endpoint} {cfg : HttpConfiguration} {ps : List WireMessage}
  {issued : List ClientCall} {s t : ClientSession} {e : IoEvent} {w : World StatusLine}
  {hook : Option (HookCall StatusLine)}

theorem connected (ep : Endpoint) (cfg : HttpConfiguration) (ps : List WireMessage) :
    Calling ep cfg ps [] (.connected cfg) where
  issuing := .connected ep cfg
  lockStep := .fresh cfg ps
  isOpen := rfl
  busy _ hcallback := by cases hcallback
  invoked := rfl

section

variable (hps : ∀ p ∈ ps, p.WellFormed StatusLine)
  (hacc : ∀ p ∈ ps, p.accept (L := StatusLine) cfg ≠ none)
include hps hacc

/-- What an event does: nothing is under way and nothing happens, or the operation
    under way goes on, or it is over, and the response is read, or passed to the
    callback. -/
theorem io_cases (h : Calling ep cfg ps issued s) (hlen : issued.length ≤ ps.length)
    (hok : LockStep ps s.world (.io e)) (hio : s.world.io e = some (w, hook)) :
    w.session.isOpen ∧ LockStepState cfg ps (w.settle hook) ∧
    ((hook = none ∧ w.delivered = s.world.delivered ∧
      (s.callback ≠ none → ∃ o, w.session.ops = [o])) ∨
    (∃ id, s.callback = some id ∧ w.session.ops = [] ∧
      ((∃ g, hook = some ⟨.writeComplete, g⟩ ∧ w.delivered = s.world.delivered) ∨
      ∃ resp g, hook = some ⟨.messageParsed resp, g⟩ ∧
        w.delivered.map (·.msg) = s.world.delivered.map (·.msg) ++ [resp]))) := by
  have horderly := h.lockStep.toOrderlyState
  have hnext : LockStepState cfg ps (w.settle hook) :=
    h.lockStep.step hps hok (by simp [World.step, hio])
  have hio := World.io_cases hio
  cases hcallback : s.callback with
  | none =>
    obtain ⟨hnil, -, -⟩ := h.issuing.ready h.isOpen hcallback
    obtain ⟨rfl, hopen, -, -, hdelivered⟩ := horderly.io_of_none hnil hio
    exact ⟨hopen.trans h.isOpen, hnext, .inl ⟨rfl, hdelivered, fun hne => absurd rfl hne⟩⟩
  | some id =>
    obtain ⟨o, ho⟩ := h.busy id hcallback
    obtain ⟨hopen, hcase⟩ := horderly.io_of_single h.isOpen ho hok.orderly hio
    refine ⟨hopen.trans h.isOpen, hnext, ?_⟩
    rcases hcase with ⟨rfl, hdelivered, o', ho', -⟩ | ⟨hnil, ⟨resp, g, rfl, -, hdelivered⟩ |
      ⟨g, rfl, -, hdelivered⟩ | ⟨c, g, rfl, -, herrors, -⟩⟩
    · exact .inl ⟨rfl, hdelivered, fun _ => ⟨o', ho'⟩⟩
    · exact .inr ⟨id, rfl, hnil, .inr ⟨resp, g, rfl, hdelivered⟩⟩
    · exact .inr ⟨id, rfl, hnil, .inl ⟨g, rfl, hdelivered⟩⟩
    · -- the calls are answered, and all answers are accepted
      have hissued := (h.issuing.waiting id hcallback).2.2
      have hne : ps ≠ [] := List.ne_nil_of_length_pos (by omega)
      exact absurd (hnext.errors_eq_nil hps hacc hne) herrors

/-- A step keeps the invariant. -/
theorem step {e : ClientEvent} (h : Calling ep cfg ps issued s) (hlen : issued.length ≤ ps.length)
    (hok : Answered ps s e) (hs : ClientSession.step ep s e = some t) :
    Calling ep cfg ps (issued ++ e.calls) t := by
  cases e with
  | io e =>
    have hissuing := h.issuing.step (e := .io e) trivial rfl hs
    simp only [ClientEvent.calls, List.append_nil] at hissuing ⊢
    obtain ⟨w, hook, hio, rfl⟩ := ClientSession.step_io hs
    obtain ⟨hopen, hlock, ⟨rfl, hdelivered, hbusy⟩ | ⟨id, hcallback, hnil,
      ⟨g, rfl, hdelivered⟩ | ⟨resp, g, rfl, hdelivered⟩⟩⟩ := h.io_cases hps hacc hlen hok hio
    · exact ⟨hissuing, hlock, hopen, fun id hid => hbusy (Option.ne_none_iff_exists'.2 ⟨id, hid⟩),
        h.invoked.trans (by rw [← hdelivered]; rfl)⟩
    · -- the read of the response starts
      have hread : LockStep ps w (.call .doRead) := ⟨hopen, by simp [hnil]⟩
      exact ⟨hissuing, hlock.step hps hread rfl, hopen,
        fun _ _ => ⟨_, congrArg (· ++ [_]) hnil⟩,
        h.invoked.trans (by rw [← hdelivered]; rfl)⟩
    · -- the callback is called with the response
      have hid := (h.issuing.waiting id hcallback).1
      simp only [ClientSession.onHook, ClientSession.onMessageParsed, ClientSession.complete,
        hcallback, ClientSession.invoke] at hissuing ⊢
      refine ⟨hissuing, hlock, hopen, fun _ hnone => (by cases hnone), ?_⟩
      rw [hdelivered, invocations_concat, ← h.invoked, List.length_map, hid]
  | request c hasCallback =>
    obtain ⟨hhas, hnone, hsend⟩ := hok
    have hproper : s.ProperCall (.request c hasCallback) := ⟨hhas, fun _ => hnone, hsend⟩
    have hissuing := h.issuing.step hproper rfl hs
    obtain rfl := Option.some.inj hs
    obtain ⟨hnil, -, -⟩ := h.issuing.ready h.isOpen hnone
    refine ⟨hissuing, ?_, ?_, fun _ _ => ?_, ?_⟩
    · simp only [ClientSession.asyncRequest, h.isOpen, Bool.not_true, Bool.false_eq_true, if_false]
      have hwrite : ∀ payload, LockStep ps s.world (.call (.doWrite payload)) := fun _ => h.isOpen
      exact h.lockStep.step hps (hwrite _) rfl
    all_goals
      simp only [ClientSession.asyncRequest, h.isOpen, Bool.not_true, Bool.false_eq_true, if_false]
    · exact h.isOpen
    · exact ⟨_, congrArg (· ++ [_]) hnil⟩
    · exact h.invoked
  | connect => exact hok.elim
  | ret =>
    have hissuing := h.issuing.step (e := .ret) trivial rfl hs
    simp only [ClientEvent.calls, List.append_nil] at hissuing ⊢
    cases hstack : s.stack with
    | nil => simp [ClientSession.step, hstack] at hs
    | cons frame stack =>
      simp only [ClientSession.step, hstack, Option.some.injEq] at hs
      subst hs
      exact ⟨hissuing, h.lockStep, h.isOpen, h.busy, h.invoked⟩
  | throw => exact hok.elim

/-- Every step lowers the rank of the session and the number of running callbacks;
    a call raises it by three at most. -/
theorem rank_step {e : ClientEvent} (h : Calling ep cfg ps issued s)
    (hlen : issued.length ≤ ps.length) (hok : Answered ps s e)
    (hs : ClientSession.step ep s e = some t) :
    rank ps t.world + t.stack.length < rank ps s.world + s.stack.length + 4 * e.calls.length := by
  cases e with
  | io e =>
    simp only [ClientEvent.calls, List.length_nil]
    obtain ⟨w, hook, hio, rfl⟩ := ClientSession.step_io hs
    have hrank := rank_io hps h.lockStep.toOrderlyState (LockStep.orderly hok)
      (World.io_cases hio)
    obtain ⟨hopen, -, ⟨rfl, -, -⟩ | ⟨id, hcallback, hnil, ⟨g, rfl, -⟩ | ⟨resp, g, rfl, -⟩⟩⟩ :=
      h.io_cases hps hacc hlen hok hio
    · simp only [World.settle] at hrank
      simp only [ClientSession.onHook]
      omega
    · have hread := rank_doRead ps hopen (by simp [hnil])
      simp only [World.settle] at hrank
      simp only [ClientSession.onHook, ClientSession.onWriteComplete]
      omega
    · -- the delivery pays for the callback that is running
      have hdelivered := (World.io_cases hio).length_delivered
      simp only [World.settle] at hrank
      simp only [ClientSession.onHook, ClientSession.onMessageParsed, ClientSession.complete,
        hcallback, ClientSession.invoke, List.length_cons]
      omega
  | request c hasCallback =>
    obtain rfl := Option.some.inj hs
    simp only [ClientSession.asyncRequest, h.isOpen, Bool.not_true, Bool.false_eq_true, if_false,
      ClientEvent.calls, List.length_singleton]
    refine Nat.lt_of_le_of_lt (Nat.add_le_add_right (rank_doWrite ps s.world _) _) ?_
    omega
  | connect => exact hok.elim
  | ret =>
    cases hstack : s.stack with
    | nil => simp [ClientSession.step, hstack] at hs
    | cons frame stack =>
      simp only [ClientSession.step, hstack, Option.some.injEq] at hs
      subst hs
      simp [ClientEvent.calls]
  | throw => exact hok.elim

end

end Calling

end Dss.Http
