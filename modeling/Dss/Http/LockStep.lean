import Dss.Http.Bounded

/-!
# Messages in lock-step

A peer that sends the next message only when the last one has been delivered
(`LockStep`). The session then delivers, for every cut of the messages into
reads, exactly the messages it accepts, up to the first that it does not accept;
there it reports an error (`lockStep_complete`).
-/

namespace Dss.Http

open Dss.Lib WireMessage

variable {L : Type} [StartLine L]

/-- The steps of a session whose peer sends the messages `ps` in lock-step: no
    byte of a message is sent before the messages in front of it have been
    delivered. The timer does not expire, no operation fails on its own, and the
    derived class reads and writes while the session is open. -/
def LockStep (ps : List WireMessage) (w : World L) : SessionEvent → Prop
  | .io (.arrive bytes) => bytes ≠ [] ∧ w.stream ++ bytes <+: upToNext ps w
  | .io (.fail _ _) => False
  | .io .expire => False
  | .io _ => True
  | .call .doRead => w.session.isOpen ∧ ∀ o ∈ w.session.ops, o.isRead = false
  | .call (.doWrite _) => w.session.isOpen
  | .call .shutdown => False
  | .caught => False

instance (ps : List WireMessage) (w : World L) : ∀ e, Decidable (LockStep ps w e)
  | .io (.arrive bytes) =>
    inferInstanceAs (Decidable (bytes ≠ [] ∧ w.stream ++ bytes <+: upToNext ps w))
  | .io (.fail _ _) | .io .expire | .call .shutdown | .caught => inferInstanceAs (Decidable False)
  | .io (.recv _ _) | .io (.sent _) | .io (.runOp _) | .io (.runWait _) =>
    inferInstanceAs (Decidable True)
  | .call .doRead =>
    inferInstanceAs (Decidable (w.session.isOpen ∧ ∀ o ∈ w.session.ops, o.isRead = false))
  | .call (.doWrite _) => inferInstanceAs (Decidable (w.session.isOpen = true))

/-- A step in lock-step that does not start a write. -/
def LockStepRead (ps : List WireMessage) (w : World L) (e : SessionEvent) : Prop :=
  LockStep ps w e ∧ ∀ payload, e ≠ .call (.doWrite payload)

/-- The invariant of the runs in lock-step. -/
structure LockStepState (cfg : HttpConfiguration) (ps : List WireMessage) (w : World L) : Prop
    extends OrderlyState cfg ps w where
  upTo : w.stream <+: upToNext ps w
  isOpen : w.errors = [] → w.session.isOpen

variable {cfg : HttpConfiguration} {ps : List WireMessage} {w w' : World L} {o : Op L}
  {hook : Option (HookCall L)}

omit [StartLine L] in
/-- A peer in lock-step is orderly. -/
theorem LockStep.orderly {e : SessionEvent} (h : LockStep ps w e) : Orderly ps w e := by
  cases e with
  | io e =>
    cases e with
    | arrive bytes => exact ⟨h.1, h.2.trans (upToNext_isPrefix ps w)⟩
    | _ => exact h
  | call c =>
    cases c with
    | shutdown => exact h.elim
    | _ => exact h
  | caught => exact h.elim

/-- The session is closed by errors only. -/
theorem isOpen_io {e : IoEvent} (hio : World.Io w e w' hook)
    (herrors : (w'.settle hook).errors = []) :
    w.errors = [] ∧ (w'.settle hook).session.isOpen = w.session.isOpen := by
  cases hio with
  | failed | timedOut => simp [World.settle, World.call, World.record] at herrors
  | _ => exact ⟨herrors, rfl⟩

namespace LockStepState

theorem fresh (cfg : HttpConfiguration) (ps : List WireMessage) :
    LockStepState cfg ps (World.fresh L cfg) where
  toOrderlyState := .fresh cfg ps
  upTo := List.nil_prefix
  isOpen _ := rfl

/-- A step in lock-step keeps the invariant. -/
theorem step {e : SessionEvent} (hps : ∀ p ∈ ps, p.WellFormed L) (h : LockStepState cfg ps w)
    (hok : LockStep ps w e) (hs : w.step e = some w') : LockStepState cfg ps w' where
  toOrderlyState := h.toOrderlyState.step hps hok.orderly hs
  upTo := by
    cases e with
    | io e =>
      obtain ⟨⟨w₁, hook⟩, hio, rfl⟩ := Option.map_eq_some_iff.1 hs
      have hio := World.io_cases hio
      refine List.IsPrefix.trans ?_ (upToNext_mono (by simpa using delivered_io hio))
      rw [stream_settle]
      by_cases he : ∃ bytes, e = .arrive bytes
      · -- the peer sends bytes of the next message only
        obtain ⟨bytes, rfl⟩ := he
        cases hio
        simpa [World.stream] using hok.2
      · rw [stream_io hio (by simpa using he)]
        exact h.upTo
    | call c =>
      obtain rfl := Option.some.inj hs
      cases c <;> exact h.upTo
    | caught => exact hok.elim
  isOpen herrors := by
    cases e with
    | io e =>
      obtain ⟨⟨w₁, hook⟩, hio, rfl⟩ := Option.map_eq_some_iff.1 hs
      obtain ⟨herrors', hopen⟩ := isOpen_io (World.io_cases hio) herrors
      rw [hopen]
      exact h.isOpen herrors'
    | call c =>
      obtain rfl := Option.some.inj hs
      cases c with
      | shutdown => exact hok.elim
      | _ => exact h.isOpen herrors
    | caught => exact hok.elim

/-- Where an error has been reported, the next message is not accepted. -/
theorem not_accepted_of_errors (hps : ∀ p ∈ ps, p.WellFormed L) (h : LockStepState cfg ps w)
    (herrors : w.errors ≠ []) (hne : ps ≠ []) :
    ∃ p, ps[w.delivered.length]? = some p ∧ p.accept (L := L) cfg = none := by
  cases h.phase with
  | running hnone => exact absurd hnone herrors
  | failed _ _ _ hstuck =>
    -- in lock-step there is nothing behind the next message to be read
    refine (h.stuck_cases hps hstuck hne).resolve_right fun ⟨_, hcross⟩ => ?_
    have := ((List.prefix_append w.taken w.incoming).trans h.upTo).length_le
    omega

/-- Where no read can go on, all messages accepted have been delivered, and if
    there is another one, an error has been reported. -/
theorem complete (hps : ∀ p ∈ ps, p.WellFormed L) (h : LockStepState cfg ps w)
    (hmax : Maximal World.step (LockStepRead ps) w) :
    w.errors ≠ [] ∨ w.delivered.length = ps.length := by
  by_contra hcon
  push Not at hcon
  obtain ⟨herrors, hlen⟩ := hcon
  have hopen := h.isOpen herrors
  have hle := (h.delivered hps).2.trans length_served_le
  by_cases hreads : ∀ o ∈ w.session.ops, o.isRead = false
  · -- the next read cycle can start
    have := hmax (.call .doRead) ⟨⟨hopen, hreads⟩, by simp⟩
    simp [World.step] at this
  · -- the peer, the read or its handler can go on
    push Not at hreads
    obtain ⟨o, ho, hr⟩ := hreads
    rcases h.progress hps hopen (by omega) ho (by simpa using hr) with
      ⟨b, hb, -⟩ | ⟨henabled, -⟩ | henabled
    · have := hmax (.io (.arrive [b])) ⟨⟨by simp, hb⟩, by simp⟩
      simp [World.step, World.io] at this
    · have := hmax (.io (.recv o.id 1)) ⟨trivial, by simp⟩
      simp only [World.step, Option.map_eq_none_iff] at this
      simp [this] at henabled
    · have := hmax (.io (.runOp o.id)) ⟨trivial, by simp⟩
      simp only [World.step, Option.map_eq_none_iff] at this
      simp [this] at henabled

/-- Every step in lock-step that does not start a write lowers the rank. -/
theorem rank_step {e : SessionEvent} (hps : ∀ p ∈ ps, p.WellFormed L) (h : LockStepState cfg ps w)
    (hok : LockStepRead ps w e) (hs : w.step e = some w') : rank ps w' < rank ps w := by
  cases e with
  | io e =>
    obtain ⟨⟨w₁, hook⟩, hio, rfl⟩ := Option.map_eq_some_iff.1 hs
    exact lt_of_le_of_lt (Nat.le_add_right _ _)
      (rank_io hps h.toOrderlyState hok.1.orderly (World.io_cases hio))
  | call c =>
    obtain rfl := Option.some.inj hs
    cases c with
    | doRead => exact rank_doRead ps hok.1.1 hok.1.2
    | doWrite payload => exact absurd rfl (hok.2 payload)
    | shutdown => exact hok.1.elim
  | caught => exact hok.1.elim

end LockStepState

/-- In lock-step, the session delivers the messages it accepts up to the first
    one it does not accept, where it reports an error: in every run the messages
    delivered are the first of these; where an error has been reported, they are
    all of them, and there is another message; a run that can only start writes
    has delivered all of them, and reported an error if there is another message;
    and from every state reached, runs that start no write are bounded. -/
theorem lockStep_complete (cfg : HttpConfiguration) (ps : List WireMessage)
    (hps : ∀ p ∈ ps, p.WellFormed L) {es : List SessionEvent} {w : World L}
    (h : Run World.step (LockStep ps) (World.fresh L cfg) es w) :
    w.delivered.map (·.msg) <+: served cfg ps ∧
    (w.errors ≠ [] → w.delivered.map (·.msg) = served cfg ps ∧
      (ps ≠ [] → w.delivered.length < ps.length)) ∧
    (Maximal World.step (LockStepRead ps) w → w.delivered.map (·.msg) = served cfg ps ∧
      (w.delivered.length < ps.length → w.errors ≠ [])) ∧
    ∃ n, ∀ es' w', Run World.step (LockStepRead ps) w es' w' → es'.length ≤ n := by
  have hstate : LockStepState cfg ps w :=
    h.invariant (.fresh cfg ps) fun _ _ _ hI hok hs => hI.step hps hok hs
  have hserved : w.errors ≠ [] → w.delivered.map (·.msg) = served cfg ps := by
    intro herrors
    refine hstate.delivered_eq_served hps fun p hp => ?_
    have hne : ps ≠ [] := by
      rintro rfl
      simp at hp
    obtain ⟨q, hq, hacc⟩ := hstate.not_accepted_of_errors hps herrors hne
    rw [hp, Option.some.injEq] at hq
    rwa [hq]
  refine ⟨?_, fun herrors => ⟨hserved herrors, fun hne => ?_⟩, fun hmax => ⟨?_, fun hlt => ?_⟩,
    rank ps w, fun es' w' hrun => ?_⟩
  · rw [(hstate.delivered hps).1]
    exact List.take_prefix _ _
  · obtain ⟨p, hp, -⟩ := hstate.not_accepted_of_errors hps herrors hne
    exact (List.getElem?_eq_some_iff.1 hp).1
  · rcases hstate.complete hps hmax with herrors | hlen
    · exact hserved herrors
    · exact hstate.delivered_eq_served hps fun p hp => by simp [hlen] at hp
  · exact (hstate.complete hps hmax).resolve_right hlt.ne
  · have := hrun.length_add_rank_le (I := LockStepState cfg ps) hstate
      (fun _ _ _ hI hok hs => hI.step hps hok.1 hs) fun _ _ _ hI hok hs => hI.rank_step hps hok hs
    omega

/-- A request cut inside of its delimiter is delivered, and a first line that
    cannot be read is an error. -/
theorem lockStep_complete_two :
    let ps : List WireMessage := [⟨ascii "GET / v\r\n\r\n", []⟩, ⟨ascii "GET\r\n\r\n", []⟩]
    ∃ w : World RequestLine, Run World.step (LockStep ps) (World.fresh RequestLine {})
      [.call .doRead, .io (.arrive (ascii "GET / v\r\n\r")), .io (.recv 0 10),
        .io (.arrive (ascii "\n")), .io (.recv 0 1), .io (.runOp 0), .call .doRead,
        .io (.arrive (ascii "GET\r\n\r\n")), .io (.recv 1 7), .io (.runOp 1)] w ∧
      w.errors ≠ [] ∧ w.delivered.map (·.msg) = served {} ps ∧ w.delivered.length < ps.length := by
  intro ps
  obtain ⟨w, hw, herrors⟩ := Option.map_eq_some_iff.1 (by decide +kernel :
    (exec World.step (World.fresh RequestLine {})
      [.call .doRead, .io (.arrive (ascii "GET / v\r\n\r")), .io (.recv 0 10),
        .io (.arrive (ascii "\n")), .io (.recv 0 1), .io (.runOp 0), .call .doRead,
        .io (.arrive (ascii "GET\r\n\r\n")), .io (.recv 1 7), .io (.runOp 1)]).map (·.errors) =
      some [.invalidArgument])
  have hrun : Run World.step (LockStep ps) _ _ w := .of_exec (by decide +kernel) hw
  have hwf : ∀ p ∈ ps, p.WellFormed RequestLine := by decide +kernel
  have herrors' : w.errors ≠ [] := by simp [herrors]
  obtain ⟨hserved, hlt⟩ := (lockStep_complete {} ps hwf hrun).2.1 herrors'
  exact ⟨w, hrun, herrors', hserved, hlt (by decide)⟩

end Dss.Http
