import Dss.Http.Client
import Dss.Http.Server
import Dss.Http.Steps

/-!
# Sessions of any derived class

`World.step` is a session whose derived class is left open: it may call the
session at any time, except that it shuts the session down when `on_error` is
called, as both derived classes do. What is proved of its runs holds of both:

* `ServerSession.step_cases` and `ClientSession.step_cases` say what a step of
  either is in terms of `World.io` and `World.call`;
* `ServerSession.exists_run`: a run of a server session is one of `World.step`
  which starts a read only where no other operation is under way;
* `ClientSession.exists_run`: so is a run of a client session that is not
  connected anew, as long as its read cycles do not overlap.
-/

namespace Dss.Http

open Dss.Lib

variable {L : Type}

/-- A step of a session: an event of the outside world or the event loop, a call
    of the derived class, or the `catch` block of `on_headers_read`. -/
inductive SessionEvent
  | io (e : IoEvent)
  | call (c : Call)
  | caught
  deriving DecidableEq, Repr

namespace World

/-- The world after the hook `hook`, if an error shuts the session down and the
    derived class does nothing else. -/
def settle (w : World L) : Option (HookCall L) → World L
  | some ⟨.error _, _⟩ => w.call .shutdown
  | _ => w

def step [StartLine L] (w : World L) : SessionEvent → Option (World L)
  | .io e => (w.io e).map fun (w, hook) => w.settle hook
  | .call c => some (w.call c)
  | .caught => some ((w.record (some ⟨.error .invalidArgument, false⟩)).call .shutdown)

/-- A read starts only where no other one is under way, the session is shut down
    without an error only where nothing is, and what is no call satisfies `P`. -/
def SingleRead (P : World L → SessionEvent → Prop) (w : World L) : SessionEvent → Prop
  | .io e => P w (.io e)
  | .call .doRead => ∀ o ∈ w.session.ops, o.isRead = false
  | .call .shutdown => w.session.ops = []
  | .call (.doWrite _) => True
  | .caught => P w .caught

variable [StartLine L] {P : World L → SessionEvent → Prop} {w w' : World L}

theorem run_io {e : IoEvent} {hook : Option (HookCall L)} (hP : P w (.io e))
    (h : w.io e = some (w', hook)) : Run step (SingleRead P) w [.io e] (w'.settle hook) :=
  .single (show SingleRead P w (.io e) from hP) (by simp [step, h])

theorem run_doWrite (w : World L) (payload : Bytes) :
    Run step (SingleRead P) w [.call (.doWrite payload)] (w.call (.doWrite payload)) :=
  .single (show SingleRead P w (.call (.doWrite payload)) from trivial) rfl

theorem run_shutdown (hw : w.session.ops = []) :
    Run step (SingleRead P) w [.call .shutdown] (w.call .shutdown) :=
  .single (show SingleRead P w (.call .shutdown) from hw) rfl

theorem run_doRead (hw : ∀ o ∈ w.session.ops, o.isRead = false) :
    Run step (SingleRead P) w [.call .doRead] (w.call .doRead) :=
  .single (show SingleRead P w (.call .doRead) from hw) rfl

theorem run_caught (hP : P w .caught) : Run step (SingleRead P) w [.caught]
    ((w.record (some ⟨.error .invalidArgument, false⟩)).call .shutdown) :=
  .single (show SingleRead P w .caught from hP) rfl

end World

/-- At most one read of the session is under way: its read cycles do not
    overlap. -/
def Session.Serial (s : Session L) : Prop := (s.ops.filter Op.isRead).length ≤ 1

instance (s : Session L) : Decidable s.Serial := inferInstanceAs (Decidable (_ ≤ _))

/-- Where a read makes no more than one, there was none before. -/
theorem Session.Serial.of_doRead {s : Session L} (h : s.doRead.Serial) :
    ∀ o ∈ s.ops, o.isRead = false := by
  intro o ho
  by_contra hread
  have hlen := List.length_pos_of_mem (List.mem_filter.2 ⟨ho, Bool.not_eq_false _ ▸ hread⟩)
  rw [Serial, doRead_ops, List.filter_append, List.filter_cons_of_pos rfl, List.filter_nil,
    List.length_append, List.length_singleton] at h
  omega

/-! ## Server sessions -/

namespace ServerSession

variable {sv : Service} {s t : ServerSession} {e : IoEvent}

/-- The steps of a server session. -/
theorem step_cases (h : step sv s e = some t) :
    ∃ w hook, s.world.io e = some (w, hook) ∧
      ((hook = none ∧ t = { s with world := w }) ∨
      (∃ req g, hook = some ⟨.messageParsed req, g⟩ ∧
        t = { s with world := w }.onMessageParsed sv req) ∨
      (∃ g, hook = some ⟨.writeComplete, g⟩ ∧ t = { s with world := w }.onWriteComplete) ∨
      ∃ ec g, hook = some ⟨.error ec, g⟩ ∧ t = { s with world := w.call .shutdown }) := by
  obtain ⟨⟨w, hook⟩, hio, rfl⟩ := Option.map_eq_some_iff.1 h
  refine ⟨w, hook, hio, ?_⟩
  match hook with
  | none => exact .inl ⟨rfl, rfl⟩
  | some ⟨.messageParsed req, g⟩ => exact .inr (.inl ⟨req, g, rfl, rfl⟩)
  | some ⟨.writeComplete, g⟩ => exact .inr (.inr (.inl ⟨g, rfl, rfl⟩))
  | some ⟨.error ec, g⟩ => exact .inr (.inr (.inr ⟨ec, g, rfl, rfl⟩))

/-- A server session has at most one operation under way: it starts the next one
    when the last one is over. -/
theorem length_ops_step (hs : s.world.session.ops.length ≤ 1) (h : step sv s e = some t) :
    t.world.session.ops.length ≤ 1 := by
  obtain ⟨w, hook, hio, hcase⟩ := step_cases h
  have hle := (World.io_cases hio).length_ops_le
  rcases hcase with ⟨rfl, rfl⟩ | ⟨req, g, rfl, rfl⟩ | ⟨g, rfl, rfl⟩ | ⟨ec, g, rfl, rfl⟩
  · exact hle.trans hs
  · have hnil := (World.io_cases hio).ops_eq_nil (by simp) hs
    simp [onMessageParsed, World.call, hnil]
  · have hnil := (World.io_cases hio).ops_eq_nil (by simp) hs
    simp only [onWriteComplete]
    split <;> simp [World.call, hnil]
  · simp only [World.call, Session.shutdown_ops]
    split <;> simp <;> omega

/-- A step of a server session is one of `World.step`, followed by at most one
    call. -/
theorem exists_run_step {P : World RequestLine → SessionEvent → Prop}
    (hs : s.world.session.ops.length ≤ 1) (hP : P s.world (.io e)) (h : step sv s e = some t) :
    ∃ es, Run World.step (World.SingleRead P) s.world es t.world := by
  obtain ⟨w, hook, hio, hcase⟩ := step_cases h
  have hrun := World.run_io hP hio
  rcases hcase with ⟨rfl, rfl⟩ | ⟨req, g, rfl, rfl⟩ | ⟨g, rfl, rfl⟩ | ⟨ec, g, rfl, rfl⟩
  · exact ⟨_, hrun⟩
  · exact ⟨_, hrun.append (World.run_doWrite w _)⟩
  · -- the write was the only operation
    have hnil := (World.io_cases hio).ops_eq_nil (by simp) hs
    simp only [onWriteComplete]
    split
    next => exact ⟨_, hrun.append (World.run_doRead (by simp [World.settle, hnil]))⟩
    next => exact ⟨_, hrun.append (World.run_shutdown hnil)⟩
  · exact ⟨_, hrun⟩

/-- A run of a server session is a run of `World.step`. -/
theorem exists_run {P : World RequestLine → SessionEvent → Prop} {es : List IoEvent}
    (hs : s.world.session.ops.length ≤ 1)
    (h : Run (step sv) (fun s e => P s.world (.io e)) s es t) :
    ∃ es', Run World.step (World.SingleRead P) s.world es' t.world :=
  h.simulate world hs (fun _ _ _ hI _ hst => length_ops_step hI hst)
    fun _ _ _ hI hP hst => exists_run_step hI hP hst

end ServerSession

/-! ## Client sessions -/

namespace ClientSession

variable {ep : Endpoint} {s t : ClientSession} {e : ClientEvent}

@[simp] theorem complete_world (s : ClientSession) (outcome : Except ErrorCode Response)
    (g : Bool) : (s.complete outcome g).world = s.world := by
  rw [complete]
  cases s.callback <;> rfl

/-- What a step of a client session does to its world. -/
theorem world_step (h : step ep s e = some t) :
    (∃ e' w hook, e = .io e' ∧ s.world.io e' = some (w, hook) ∧
      t.world = match hook with
        | some ⟨.writeComplete, _⟩ => w.call .doRead
        | _ => w.settle hook) ∨
    (∃ payload, s.world.session.isOpen ∧ t.world = s.world.call (.doWrite payload)) ∨
    (e = .throw ∧
      t.world = (s.world.record (some ⟨.error .invalidArgument, false⟩)).call .shutdown) ∨
    e.isConnect ∨ t.world = s.world := by
  cases e with
  | io e =>
    simp only [step] at h
    split at h
    next => cases h
    next =>
      obtain ⟨⟨w, hook⟩, hio, rfl⟩ := Option.map_eq_some_iff.1 h
      refine .inl ⟨e, w, hook, rfl, hio, ?_⟩
      match hook with
      | none => rfl
      | some ⟨.messageParsed _, _⟩ => simp [onHook, onMessageParsed, World.settle]
      | some ⟨.writeComplete, _⟩ => rfl
      | some ⟨.error _, _⟩ => simp [onHook, onError, World.settle]
  | request c hasCallback =>
    obtain rfl := Option.some.inj h
    simp only [asyncRequest]
    split
    next => cases hasCallback <;> exact .inr (.inr (.inr (.inr rfl)))
    next hopen => exact .inr (.inl ⟨_, by simpa using hopen, rfl⟩)
  | connect => exact .inr (.inr (.inr (.inl rfl)))
  | ret =>
    cases hs : s.stack with
    | nil => simp [step, hs] at h
    | cons frame stack =>
      simp only [step, hs, Option.some.injEq] at h
      exact .inr (.inr (.inr (.inr (h ▸ rfl))))
  | throw =>
    cases hs : s.stack with
    | nil => simp [step, hs] at h
    | cons frame stack =>
      simp only [step, hs] at h
      split at h
      next =>
        obtain rfl := Option.some.inj h
        exact .inr (.inr (.inl ⟨rfl, by simp [onError]⟩))
      next =>
        obtain rfl := Option.some.inj h
        exact .inr (.inr (.inr (.inr rfl)))

/-- A step of a client session that opens no connection and after which at most
    one read is under way is a run of `World.step`. -/
theorem exists_run_step (hc : e.isConnect = false) (ht : t.world.session.Serial)
    (h : step ep s e = some t) :
    ∃ es, Run World.step (World.SingleRead fun _ _ => True) s.world es t.world := by
  rcases world_step h with ⟨e, w, hook, rfl, hio, hw⟩ | ⟨payload, -, hw⟩ | ⟨-, hw⟩ | hconn | hw
  · -- a write that is done starts the read of the response
    have hrun := World.run_io (P := fun _ _ => True) trivial hio
    split at hw
    next =>
      rw [hw] at ht ⊢
      exact ⟨_, hrun.append (World.run_doRead ht.of_doRead)⟩
    next =>
      rw [hw]
      exact ⟨_, hrun⟩
  · rw [hw]
    exact ⟨_, World.run_doWrite s.world payload⟩
  · rw [hw]
    exact ⟨_, World.run_caught trivial⟩
  · rw [hc] at hconn
    cases hconn
  · rw [hw]
    exact ⟨_, .nil⟩

end ClientSession

end Dss.Http
