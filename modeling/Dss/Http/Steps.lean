import Dss.Http.Session

/-!
# What a step of a session does

`World.io` inverted, once for all invariants: `Io w e w' hook` lists every step
from `w`, with the conditions it is taken under and the world it leads to
(`World.io_cases`). The completion handlers are summed up by their outcome: the
handler of the header read either finds nothing to do, or reports an error, or
has a message that is `Accepted`, to be delivered at once or after the rest of
its body.
-/

namespace Dss.Http

open Dss.Lib

variable {L : Type} [StartLine L]

/-- The checks of `on_headers_read` on the buffer: the delimiter comes within the
    limit of the header, the bytes parse as `msg`, with a length `n` within the
    limit of the body, and there is not more of the body than that. -/
structure Accepted (cfg : HttpConfiguration) (buffer : Bytes) (msg : Message L) (n : ℕ) : Prop where
  delim : ∃ i, search delimiter buffer = some i ∧ i + 4 ≤ cfg.maxHeaderSize
  parse : Message.parse buffer = .ok msg
  length : msg.headers.contentLength = .ok n
  length_le : n ≤ cfg.maxBodySize
  body_le : msg.body.length ≤ n

/-- The part of an accepted message before its body is within the limit. -/
theorem Accepted.exists_header {cfg : HttpConfiguration} {buffer : Bytes} {msg : Message L} {n : ℕ}
    (h : Accepted cfg buffer msg n) :
    ∃ hdr, buffer = hdr ++ msg.body ∧ hdr.length ≤ cfg.maxHeaderSize := by
  obtain ⟨i, hi, hle⟩ := h.delim
  obtain ⟨a, y, hs, rfl⟩ := search_eq_some hi
  obtain ⟨l, r, z, hl, hr, -, hb, hz⟩ := exists_readsBlock hs h.parse
  obtain ⟨x, c, -, hx⟩ := hb.exists_blank
  refine ⟨l ++ x ++ lf :: (c ++ [lf]), by rw [hr, hx]; simp, ?_⟩
  have hlen := congrArg List.length (hs.symm.trans (hr.trans (congrArg (l ++ ·) hx)))
  rw [hz] at hlen
  simp only [List.length_append, List.length_cons, List.length_nil, delimiter] at hlen ⊢
  omega

variable (L) in
/-- What the handler of a header read that has succeeded leaves in the buffer: all
    of it where it does not parse it, what follows the first line where it cannot,
    and nothing otherwise. -/
def leftover (cfg : HttpConfiguration) (buffer : Bytes) : Bytes :=
  match search delimiter buffer with
  | none => buffer
  | some i =>
    if i + 4 > cfg.maxHeaderSize then buffer
    else match Message.parse (L := L) buffer with
      | .error _ => ((getline buffer).map Prod.snd).getD []
      | .ok _ => []

namespace Session

variable {s : Session L} {ec : Option ErrorCode}

/-- The outcomes of `on_headers_read`. -/
theorem onHeadersRead_cases (s : Session L) (ec : Option ErrorCode) :
    (ec = some .operationAborted ∧ s.onHeadersRead ec = (s.cancelTimer, none)) ∨
    (∃ buffer c g, s.onHeadersRead ec = ({ s.cancelTimer with buffer }, some ⟨.error c, g⟩) ∧
      (buffer = s.buffer ∨ ec = none ∧ buffer = leftover L s.cfg s.buffer) ∧
      (ec = none → ∀ (msg : Message L) n, ¬Accepted s.cfg s.buffer msg n)) ∨
    ∃ msg n, ec = none ∧ Accepted s.cfg s.buffer msg n ∧ s.onHeadersRead ec =
      if msg.body.length < n then
        ({ s.cancelTimer with buffer := [] }.doRemainingRead (n - msg.body.length) msg, none)
      else ({ s.cancelTimer with buffer := [] }, some ⟨.messageParsed msg, true⟩) := by
  match ec with
  | some .operationAborted => exact .inl ⟨rfl, rfl⟩
  | some .notFound | some .badDescriptor | some .timedOut | some .messageSize
  | some .invalidArgument | some .notConnected | some (.other _) =>
    exact .inr (.inl ⟨s.buffer, _, _, rfl, .inl rfl, by simp⟩)
  | none =>
    -- the checks in their order: each that fails leaves no way to accept the buffer
    refine .inr ?_
    obtain ⟨res, hres⟩ : ∃ res, s.onHeadersRead none = res := ⟨_, rfl⟩
    rw [hres]
    unfold onHeadersRead at hres
    dsimp only [cancelTimer] at hres
    split at hres
    next hd =>
      subst hres
      refine .inl ⟨s.buffer, _, _, rfl, .inl rfl, fun _ msg n h => ?_⟩
      obtain ⟨i, hi, -⟩ := h.delim
      rw [hd] at hi
      cases hi
    next i hd =>
      split at hres
      next hlong =>
        subst hres
        refine .inl ⟨s.buffer, _, _, rfl, .inl rfl, fun _ msg n h => ?_⟩
        obtain ⟨j, hj, hle⟩ := h.delim
        rw [hd, Option.some.injEq] at hj
        omega
      next hshort =>
        split at hres
        next e hp =>
          subst hres
          refine .inl ⟨_, _, _, rfl, .inr ⟨rfl, ?_⟩, fun _ msg n h => ?_⟩
          · simp only [leftover, hd, if_neg hshort, hp]
          · rw [h.parse] at hp
            cases hp
        next msg hp =>
          have hleft : [] = leftover L s.cfg s.buffer := by
            simp only [leftover, hd, if_neg hshort, hp]
          split at hres
          next e hcl =>
            subst hres
            refine .inl ⟨[], _, _, rfl, .inr ⟨rfl, hleft⟩, fun _ msg' n h => ?_⟩
            obtain rfl := Except.ok.inj (h.parse.symm.trans hp)
            rw [h.length] at hcl
            cases hcl
          next expected hcl =>
            -- the bytes parse in one way only
            have hacc : ∀ {msg' n}, Accepted s.cfg s.buffer msg' n → msg' = msg ∧ n = expected := by
              intro msg' n h
              obtain rfl := Except.ok.inj (h.parse.symm.trans hp)
              exact ⟨rfl, Except.ok.inj (h.length.symm.trans hcl)⟩
            split at hres
            next hbig =>
              subst hres
              refine .inl ⟨[], _, _, rfl, .inr ⟨rfl, hleft⟩, fun _ msg' n h => ?_⟩
              obtain ⟨rfl, rfl⟩ := hacc h
              exact absurd h.length_le (not_le.2 hbig)
            next hsmall =>
              split at hres
              next hmore =>
                subst hres
                refine .inl ⟨[], _, _, rfl, .inr ⟨rfl, hleft⟩, fun _ msg' n h => ?_⟩
                obtain ⟨rfl, rfl⟩ := hacc h
                exact absurd h.body_le (not_le.2 hmore)
              next hbody =>
                refine .inr ⟨msg, expected, rfl, ⟨⟨i, hd, not_lt.1 hshort⟩, hp, hcl,
                  not_lt.1 hsmall, not_lt.1 hbody⟩, ?_⟩
                simp only [gt_iff_lt, Nat.sub_pos_iff_lt] at hres
                rw [← hres]
                rfl

end Session

/-! ## The steps -/

namespace World

/-- The world in which the handler of the operation `o` starts: the operation is
    over, and the timer cancelled. -/
def handling (w : World L) (o : Op L) : World L :=
  { w with
    session := { w.session with
      ops := w.session.ops.filter (·.id ≠ o.id)
      waits := w.session.waits.map Wait.cancel }
    completed := w.completed ++ [o.id] }

/-- The world with another buffer. -/
def withBuffer (w : World L) (buffer : Bytes) : World L :=
  { w with session := { w.session with buffer } }

/-- The world with a read for the rest of a message started. -/
def reading (w : World L) (remaining : ℕ) (msg : Message L) : World L :=
  { w with session := w.session.doRemainingRead remaining msg }

/-- The world in which the handler of the wait `v` starts. -/
def dropWait (w : World L) (v : Wait) : World L :=
  { w with session := { w.session with waits := w.session.waits.filter (·.guarded ≠ v.guarded) } }

/-- The steps from `w`: an event, the world it leads to, and the hook called. -/
inductive Io (w : World L) : IoEvent → World L → Option (HookCall L) → Prop
  | arrive (bytes : Bytes) :
      Io w (.arrive bytes) { w with incoming := w.incoming ++ bytes } none
  | recvUntil {o : Op L} {n : ℕ} : o ∈ w.session.ops → o.kind = .readUntil →
      o.progress = .pending → w.session.isOpen → 0 < n → n ≤ w.incoming.length →
      w.session.buffer.length + n ≤ w.session.cfg.capacity →
      Io w (.recv o.id n) ((w.take n).setOp o.id .readUntil
        (Session.readUntilProgress w.session.cfg (w.take n).session.buffer)) none
  | recvExactly {o : Op L} {n r : ℕ} {msg : Message L} : o ∈ w.session.ops →
      o.kind = .readExactly r msg → o.progress = .pending → w.session.isOpen → 0 < n →
      n ≤ w.incoming.length → n ≤ r →
      Io w (.recv o.id n) ((w.take n).setOp o.id (.readExactly (r - n) msg)
        (if n = r then .done none else .pending)) none
  | fail {o : Op L} {ec : ErrorCode} : o ∈ w.session.ops → o.progress = .pending →
      w.session.isOpen → ec ≠ .operationAborted → ec ≠ .notFound →
      Io w (.fail o.id ec) (w.setOp o.id o.kind (.done (some ec))) none
  | sent {o : Op L} : o ∈ w.session.ops → o.isRead = false → o.progress = .pending →
      w.session.isOpen → Io w (.sent o.id) (w.setOp o.id o.kind (.done none)) none
  | expire {v : Wait} : v ∈ w.session.waits → v.state = .pending →
      Io w .expire
        { w with session := { w.session with waits := w.session.waits.map Wait.expire } } none
  | aborted {o : Op L} : o ∈ w.session.ops → o.kind = .readUntil →
      o.progress = .done (some .operationAborted) → Io w (.runOp o.id) (w.handling o) none
  | failed {o : Op L} {ec : Option ErrorCode} {buffer : Bytes} {c : ErrorCode} {g : Bool} :
      o ∈ w.session.ops → o.progress = .done ec →
      (buffer = w.session.buffer ∨ o.kind = .readUntil ∧ ec = none ∧
        buffer = leftover L w.session.cfg w.session.buffer) →
      (ec = none → o.kind = .readUntil ∧
        ∀ (msg : Message L) n, ¬Accepted w.session.cfg w.session.buffer msg n) →
      Io w (.runOp o.id) (((w.handling o).withBuffer buffer).record (some ⟨.error c, g⟩))
        (some ⟨.error c, g⟩)
  | headersRead {o : Op L} {msg : Message L} {n : ℕ} : o ∈ w.session.ops → o.kind = .readUntil →
      o.progress = .done none → Accepted w.session.cfg w.session.buffer msg n →
      msg.body.length < n →
      Io w (.runOp o.id)
        (((w.handling o).withBuffer []).reading (n - msg.body.length) msg) none
  | headersParsed {o : Op L} {msg : Message L} : o ∈ w.session.ops → o.kind = .readUntil →
      o.progress = .done none → Accepted w.session.cfg w.session.buffer msg msg.body.length →
      Io w (.runOp o.id)
        (((w.handling o).withBuffer []).record (some ⟨.messageParsed msg, true⟩))
        (some ⟨.messageParsed msg, true⟩)
  | bodyRead {o : Op L} {r : ℕ} {msg : Message L} : o ∈ w.session.ops →
      o.kind = .readExactly r msg → o.progress = .done none →
      Io w (.runOp o.id) (((w.handling o).withBuffer []).record
          (some ⟨.messageParsed (msg.append w.session.buffer), false⟩))
        (some ⟨.messageParsed (msg.append w.session.buffer), false⟩)
  | written {o : Op L} : o ∈ w.session.ops → o.isRead = false → o.progress = .done none →
      Io w (.runOp o.id) ((w.handling o).record (some ⟨.writeComplete, false⟩))
        (some ⟨.writeComplete, false⟩)
  | waitOver {v : Wait} : v ∈ w.session.waits → v.state = .cancelled →
      Io w (.runWait v.guarded) (w.dropWait v) none
  | timedOut {v : Wait} : v ∈ w.session.waits → v.state = .fired →
      Io w (.runWait v.guarded) ({ ((w.dropWait v).call .shutdown) with
          timeouts := w.timeouts ++ [v.guarded] }.record (some ⟨.error .timedOut, false⟩))
        (some ⟨.error .timedOut, false⟩)

variable {w w' : World L} {e : IoEvent} {hook : Option (HookCall L)}

omit [StartLine L] in
theorem op?_eq_some {id : ℕ} {o : Op L} (h : w.op? id = some o) : o ∈ w.session.ops ∧ o.id = id :=
  ⟨List.mem_of_find?_eq_some h, by simpa using List.find?_some h⟩

/-- The steps that run the handler of an operation. -/
theorem io_runOp {o : Op L} {ec : Option ErrorCode} (ho : o ∈ w.session.ops)
    (hp : o.progress = .done ec) :
    Io w (.runOp o.id)
      ({ w with session := (w.session.handle o ec).1, completed := w.completed ++ [o.id] }.record
        (w.session.handle o ec).2) (w.session.handle o ec).2 := by
  cases hk : o.kind with
  | readUntil =>
    simp only [Session.handle, hk]
    rcases Session.onHeadersRead_cases { w.session with ops := w.session.ops.filter (·.id ≠ o.id) }
        ec with ⟨rfl, h⟩ | ⟨buffer, c, g, h, hbuffer, hwhy⟩ | ⟨msg, n, rfl, hacc, h⟩
    · rw [h]
      exact .aborted ho hk hp
    · rw [h]
      exact .failed ho hp (hbuffer.imp_right fun hec => ⟨hk, hec⟩) fun hec => ⟨hk, hwhy hec⟩
    · -- the rest of the body is read, or there is none
      rw [h]
      split
      next hlt => exact .headersRead ho hk hp hacc hlt
      next hge =>
        obtain rfl : msg.body.length = n := le_antisymm hacc.body_le (not_lt.1 hge)
        exact .headersParsed ho hk hp hacc
  | readExactly r msg =>
    simp only [Session.handle, hk, Session.onBodyRead]
    cases ec with
    | none => exact .bodyRead ho hk hp
    | some c => exact .failed ho hp (.inl rfl) (fun h => by cases h)
  | write payload =>
    simp only [Session.handle, hk, Session.onWritten]
    cases ec with
    | none => exact .written ho (by simp [Op.isRead, hk]) hp
    | some c => exact .failed ho hp (.inl rfl) (fun h => by cases h)

/-- Every step is one of the list. -/
theorem io_cases (h : w.io e = some (w', hook)) : Io w e w' hook := by
  cases e with
  | arrive bytes =>
    simp only [io, Option.some.injEq, Prod.mk.injEq] at h
    obtain ⟨rfl, rfl⟩ := h
    exact .arrive bytes
  | recv id n =>
    simp only [io, Option.bind_eq_some_iff, Option.map_eq_some_iff, Prod.mk.injEq] at h
    obtain ⟨o, ho, v, hv, rfl, rfl⟩ := h
    obtain ⟨hmem, rfl⟩ := op?_eq_some ho
    rw [recv] at hv
    split at hv
    next hcond =>
      obtain ⟨hopen, hp, hpos, hle⟩ := hcond
      cases hk : o.kind with
      | readUntil =>
        simp only [hk] at hv
        split at hv
        next hcap =>
          rw [Option.some.injEq] at hv
          exact hv ▸ .recvUntil hmem hk hp hopen hpos hle hcap
        next => cases hv
      | readExactly r msg =>
        simp only [hk] at hv
        split at hv
        next hr =>
          rw [Option.some.injEq] at hv
          exact hv ▸ .recvExactly hmem hk hp hopen hpos hle hr
        next => cases hv
      | write payload =>
        simp only [hk] at hv
        cases hv
    next => cases hv
  | fail id ec =>
    simp only [io, Option.bind_eq_some_iff] at h
    obtain ⟨o, ho, h⟩ := h
    obtain ⟨hmem, rfl⟩ := op?_eq_some ho
    split at h
    next hcond =>
      simp only [Option.some.injEq, Prod.mk.injEq] at h
      obtain ⟨rfl, rfl⟩ := h
      exact .fail hmem hcond.2.1 hcond.1 hcond.2.2.1 hcond.2.2.2
    next => cases h
  | sent id =>
    simp only [io, Option.bind_eq_some_iff] at h
    obtain ⟨o, ho, h⟩ := h
    obtain ⟨hmem, rfl⟩ := op?_eq_some ho
    split at h
    next hcond =>
      simp only [Option.some.injEq, Prod.mk.injEq] at h
      obtain ⟨rfl, rfl⟩ := h
      exact .sent hmem hcond.2.2 hcond.2.1 hcond.1
    next => cases h
  | expire =>
    simp only [io] at h
    split at h
    next hex =>
      obtain ⟨v, hv, hp⟩ := hex
      simp only [Option.some.injEq, Prod.mk.injEq] at h
      obtain ⟨rfl, rfl⟩ := h
      exact .expire hv hp
    next => cases h
  | runOp id =>
    simp only [io, Option.bind_eq_some_iff] at h
    obtain ⟨o, ho, h⟩ := h
    obtain ⟨hmem, rfl⟩ := op?_eq_some ho
    split at h
    next => cases h
    next ec hp =>
      simp only [Option.some.injEq, Prod.mk.injEq] at h
      obtain ⟨rfl, rfl⟩ := h
      exact io_runOp hmem hp
  | runWait guarded =>
    simp only [io, Option.bind_eq_some_iff] at h
    obtain ⟨v, hv, h⟩ := h
    have hmem := List.mem_of_find?_eq_some hv
    obtain rfl : v.guarded = guarded := by simpa using List.find?_some hv
    cases hs : v.state with
    | pending => simp [hs] at h
    | fired =>
      simp only [hs, Session.onTimer] at h
      obtain ⟨rfl, rfl⟩ := Prod.mk.inj (Option.some.inj h)
      exact .timedOut hmem hs
    | cancelled =>
      simp only [hs, Session.onTimer] at h
      obtain ⟨rfl, rfl⟩ := Prod.mk.inj (Option.some.inj h)
      exact .waitOver hmem hs

/-! ### Operations under way and messages delivered -/

omit [StartLine L] in
theorem length_ops_handling {o : Op L} (ho : o ∈ w.session.ops) :
    (w.handling o).session.ops.length < w.session.ops.length := by
  refine List.length_filter_lt_length_iff_exists.2 ⟨o, ho, ?_⟩
  simp

/-- No event starts an operation, but a handler may start the next one in the
    place of its own. -/
theorem Io.length_ops_le (h : Io w e w' hook) :
    w'.session.ops.length ≤ w.session.ops.length := by
  cases h with
  | arrive | expire | waitOver => exact le_rfl
  | recvUntil | recvExactly | fail | sent =>
    simp [setOp, Session.setOp, take]
  | timedOut =>
    simp only [record, call, dropWait, Session.shutdown_ops]
    split <;> simp
  | aborted ho | failed ho | headersParsed ho | bodyRead ho | written ho =>
    exact (length_ops_handling ho).le
  | headersRead ho =>
    have hlt := length_ops_handling ho
    simpa [reading, withBuffer] using hlt

/-- Where a hook other than `on_error` is called, the operation is over. -/
theorem Io.length_ops_lt {c : HookCall L} (h : Io w e w' (some c)) (hc : ∀ ec, c.hook ≠ .error ec) :
    w'.session.ops.length < w.session.ops.length := by
  cases h with
  | failed | timedOut => exact absurd rfl (hc _)
  | headersParsed ho | bodyRead ho | written ho => exact length_ops_handling ho

/-- So nothing is under way if it was the only one. -/
theorem Io.ops_eq_nil {c : HookCall L} (h : Io w e w' (some c)) (hc : ∀ ec, c.hook ≠ .error ec)
    (hsingle : w.session.ops.length ≤ 1) : w'.session.ops = [] := by
  have hlt := h.length_ops_lt hc
  exact List.eq_nil_of_length_eq_zero (by omega)

/-- A message parsed is delivered. -/
theorem Io.length_delivered {msg : Message L} {g : Bool}
    (h : Io w e w' (some ⟨.messageParsed msg, g⟩)) :
    w'.delivered.length = w.delivered.length + 1 := by
  cases h with
  | headersParsed | bodyRead => simp [record, withBuffer, handling]

end World

end Dss.Http
