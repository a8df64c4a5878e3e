import Dss.Http.Orderly
import Mathlib.Algebra.Order.BigOperators.Group.List

/-!
# Runs with an orderly peer are bounded

Every step of a session with an orderly peer uses up something there is only so
much of: bytes to send, bytes to read, operations and waits under way, read
cycles to start and messages to deliver. `rank` adds these up. It is lowered by
every event and by every read started (`rank_io`, `rank_doRead`), and a write
started raises it by less than a delivery lowers it (`rank_doWrite`).
-/

namespace Dss.Http

open Dss.Lib WireMessage

variable {L : Type}

/-- How many steps an operation can still take part in, the start of the read of
    a body included. -/
def Op.cost (o : Op L) : ℕ :=
  match o.kind, o.progress with
  | .readUntil, _ => 3
  | .readExactly _ _, _ => 1
  | .write _, .pending => 2
  | .write _, .done _ => 1

def cost (ops : List (Op L)) : ℕ := (ops.map Op.cost).sum

/-- What the peer has not sent yet. -/
def unsent (ps : List WireMessage) (w : World L) : ℕ := (stream ps).length - w.stream.length

/-- The read that can be started between two cycles. -/
def idle (w : World L) : ℕ := if w.session.isOpen && !w.session.ops.any Op.isRead then 5 else 0

def rank (ps : List WireMessage) (w : World L) : ℕ :=
  2 * unsent ps w + w.incoming.length + cost w.session.ops + w.session.waits.length + idle w +
    9 * (ps.length - w.delivered.length)

variable (ps : List WireMessage) {w w' : World L} {o : Op L} {ops : List (Op L)}

theorem Op.one_le_cost (o : Op L) : 1 ≤ o.cost := by
  rw [cost]
  split <;> simp

theorem Op.cost_of_readUntil (hk : o.kind = .readUntil) : o.cost = 3 := by simp [cost, hk]

theorem Op.cost_of_readExactly {r : ℕ} {msg : Message L} (hk : o.kind = .readExactly r msg) :
    o.cost = 1 := by
  simp [cost, hk]

theorem Op.cost_abort_le (o : Op L) : o.abort.cost ≤ o.cost := by
  rw [abort]
  split
  next hp => cases hk : o.kind <;> simp [cost, hk, hp]
  next => exact le_rfl

@[simp] theorem cost_append (ops ops' : List (Op L)) :
    cost (ops ++ ops') = cost ops + cost ops' := by
  simp [cost]

@[simp] theorem cost_singleton (o : Op L) : cost [o] = o.cost := by simp [cost]

/-- An operation that is over costs nothing more. -/
theorem cost_filter (ho : o ∈ ops) : cost (ops.filter (·.id ≠ o.id)) + o.cost ≤ cost ops := by
  induction ops with
  | nil => cases ho
  | cons p ops ih =>
    rw [List.filter_cons]
    rcases List.mem_cons.1 ho with rfl | ho
    · -- the head is over, and further ones with its identifier are dropped with it
      have hle : cost (ops.filter (·.id ≠ o.id)) ≤ cost ops :=
        (List.filter_sublist.map Op.cost).sum_le_sum (by simp)
      simp only [ne_eq, not_true, decide_false, Bool.false_eq_true, if_false]
      simp only [cost, List.map_cons, List.sum_cons] at hle ⊢
      simp only [ne_eq] at hle
      omega
    · have := ih ho
      split
      · simp only [cost, List.map_cons, List.sum_cons] at this ⊢
        omega
      · simp only [cost, List.map_cons, List.sum_cons] at this ⊢
        omega

theorem cost_map_le {f : Op L → Op L} (hf : ∀ o ∈ ops, (f o).cost ≤ o.cost) :
    cost (ops.map f) ≤ cost ops := by
  rw [cost, cost, List.map_map]
  exact List.sum_le_sum (by simpa using hf)

theorem cost_map_lt {f : Op L → Op L} (hf : ∀ o ∈ ops, (f o).cost ≤ o.cost) (ho : o ∈ ops)
    (hlt : (f o).cost < o.cost) : cost (ops.map f) < cost ops := by
  rw [cost, cost, List.map_map]
  exact List.sum_lt_sum _ _ hf ⟨o, ho, hlt⟩

theorem idle_le (w : World L) : idle w ≤ 5 := by
  rw [idle]
  split <;> simp

theorem idle_of_closed (h : w.session.isOpen = false) : idle w = 0 := by simp [idle, h]

theorem idle_of_isRead (ho : o ∈ w.session.ops) (hr : o.isRead) : idle w = 0 := by
  have : w.session.ops.any Op.isRead := List.any_eq_true.2 ⟨o, ho, hr⟩
  simp [idle, this]

theorem idle_eq (hopen : w.session.isOpen) (hw : ∀ o ∈ w.session.ops, o.isRead = false) :
    idle w = 5 := by
  have : w.session.ops.any Op.isRead = false := by simpa using hw
  simp [idle, this, hopen]

/-- A session is idle only if it has been idle before, or a read is over. -/
theorem idle_le_of (hopen : w'.session.isOpen → w.session.isOpen)
    (hops : ∀ o ∈ w.session.ops, o.isRead → ∃ o' ∈ w'.session.ops, o'.isRead) :
    idle w' ≤ idle w := by
  cases hopen' : w'.session.isOpen with
  | false => simp [idle_of_closed hopen']
  | true =>
    by_cases hr : ∃ o ∈ w'.session.ops, o.isRead
    · obtain ⟨o, ho, hr⟩ := hr
      simp [idle_of_isRead ho hr]
    · rw [idle_eq (hopen hopen') fun o ho => ?_]
      · exact idle_le w'
      · by_contra hread
        exact hr (hops o ho (by simpa using hread))

/-! ## Calls -/

theorem rank_doRead (hopen : w.session.isOpen) (hw : ∀ o ∈ w.session.ops, o.isRead = false) :
    rank ps (w.call .doRead) < rank ps w := by
  have hidle := idle_eq hopen hw
  have hidle' : idle (w.call .doRead) = 0 :=
    idle_of_isRead (List.mem_append_right _ List.mem_cons_self) rfl
  have hcost : cost (w.call .doRead).session.ops = cost w.session.ops + 3 := by
    simp [World.call, Op.cost]
  have hwaits : (w.call .doRead).session.waits.length = w.session.waits.length + 1 := by
    simp [World.call, Session.doRead, Session.startOp, Session.startTimer]
  have hunsent : unsent ps (w.call .doRead) = unsent ps w := rfl
  have hin : (w.call .doRead).incoming = w.incoming := rfl
  have hdel : (w.call .doRead).delivered = w.delivered := rfl
  rw [rank, rank, hin, hdel]
  omega

theorem rank_doWrite (w : World L) (payload : Bytes) :
    rank ps (w.call (.doWrite payload)) ≤ rank ps w + 3 := by
  have hidle : idle (w.call (.doWrite payload)) ≤ idle w :=
    idle_le_of id fun o ho hr => ⟨o, List.mem_append_left _ ho, hr⟩
  have hcost : cost (w.call (.doWrite payload)).session.ops ≤ cost w.session.ops + 2 := by
    have hle : Op.cost (L := L) ⟨w.session.nextId, .write payload, w.session.startProgress .pending⟩
        ≤ 2 := by
      rw [Op.cost]
      split <;> simp_all
    simp only [World.call, Session.doWrite_ops, cost_append, cost_singleton]
    omega
  have hwaits : (w.call (.doWrite payload)).session.waits.length = w.session.waits.length + 1 := by
    simp [World.call, Session.doWrite, Session.startOp, Session.startTimer]
  have hunsent : unsent ps (w.call (.doWrite payload)) = unsent ps w := rfl
  have hin : (w.call (.doWrite payload)).incoming = w.incoming := rfl
  have hdel : (w.call (.doWrite payload)).delivered = w.delivered := rfl
  rw [rank, rank, hin, hdel]
  omega

theorem rank_shutdown (w : World L) : rank ps (w.call .shutdown) + idle w ≤ rank ps w := by
  have hidle : idle (w.call .shutdown) = 0 := idle_of_closed (by simp [World.call])
  have hcost : cost (w.call .shutdown).session.ops ≤ cost w.session.ops := by
    simp only [World.call, Session.shutdown_ops]
    split
    · exact cost_map_le fun o _ => o.cost_abort_le
    · exact le_rfl
  have hwaits : (w.call .shutdown).session.waits.length = w.session.waits.length := by
    simp [World.call]
  have hunsent : unsent ps (w.call .shutdown) = unsent ps w := rfl
  have hin : (w.call .shutdown).incoming = w.incoming := rfl
  have hdel : (w.call .shutdown).delivered = w.delivered := rfl
  rw [rank, rank, hin, hdel]
  omega

/-! ## Events -/

variable {n id : ℕ} {kind : OpKind L} {progress : Progress}

/-- Bytes that arrive are not on their way any more. -/
theorem rank_arrive {bytes : Bytes} (hne : bytes ≠ [])
    (hle : (w.stream ++ bytes).length ≤ (WireMessage.stream ps).length) :
    rank ps { w with incoming := w.incoming ++ bytes } < rank ps w := by
  have hpos := List.length_pos_of_ne_nil hne
  have hunsent : unsent ps { w with incoming := w.incoming ++ bytes } + bytes.length =
      unsent ps w := by
    simp only [unsent, World.stream, List.length_append] at hle ⊢
    omega
  have hidle : idle { w with incoming := w.incoming ++ bytes } = idle w := rfl
  simp only [rank, hidle, List.length_append]
  omega

/-- A wait that is over is used up. -/
theorem rank_dropWait {v : Wait} (hv : v ∈ w.session.waits) :
    rank ps (w.dropWait v) < rank ps w := by
  have hlt : (w.dropWait v).session.waits.length < w.session.waits.length :=
    List.length_filter_lt_length_iff_exists.2 ⟨v, hv, by simp⟩
  have hunsent : unsent ps (w.dropWait v) = unsent ps w := rfl
  have hidle : idle (w.dropWait v) = idle w := rfl
  simp only [rank, hunsent, hidle]
  simp only [World.dropWait] at hlt ⊢
  omega

/-- An operation that makes progress costs no more. -/
theorem cost_setOp (hinj : ∀ p ∈ w.session.ops, ∀ q ∈ w.session.ops, p.id = q.id → p = q)
    (ho : o ∈ w.session.ops) (hle : Op.cost ⟨o.id, kind, progress⟩ ≤ o.cost) :
    cost (w.setOp o.id kind progress).session.ops ≤ cost w.session.ops := by
  refine cost_map_le fun p hp => ?_
  split
  next hid => rwa [hinj p hp o ho hid]
  next => exact le_rfl

/-- A socket read uses up bytes. -/
theorem rank_recv (hinj : ∀ p ∈ w.session.ops, ∀ q ∈ w.session.ops, p.id = q.id → p = q)
    (ho : o ∈ w.session.ops) (hread : Op.isRead ⟨o.id, kind, progress⟩)
    (hle : Op.cost ⟨o.id, kind, progress⟩ ≤ o.cost) (hn : 0 < n) (hn' : n ≤ w.incoming.length) :
    rank ps ((w.take n).setOp o.id kind progress) < rank ps w := by
  have hmem : ⟨o.id, kind, progress⟩ ∈ ((w.take n).setOp o.id kind progress).session.ops :=
    List.mem_map.2 ⟨o, ho, if_pos rfl⟩
  have hidle := idle_of_isRead hmem hread
  have hcost : cost ((w.take n).setOp o.id kind progress).session.ops ≤ cost w.session.ops :=
    cost_setOp (w := w.take n) hinj ho hle
  have hunsent : unsent ps ((w.take n).setOp o.id kind progress) = unsent ps w := by
    simp [unsent, World.stream, World.setOp, World.take]
  have hin : ((w.take n).setOp o.id kind progress).incoming.length = w.incoming.length - n := by
    simp [World.setOp, World.take]
  have hwaits : ((w.take n).setOp o.id kind progress).session.waits = w.session.waits := rfl
  have hdel : ((w.take n).setOp o.id kind progress).delivered = w.delivered := rfl
  rw [rank, rank, hwaits, hdel]
  omega

/-- A write that is done has one step less to go. -/
theorem rank_sent (hinj : ∀ p ∈ w.session.ops, ∀ q ∈ w.session.ops, p.id = q.id → p = q)
    (ho : o ∈ w.session.ops) (hr : o.isRead = false) (hp : o.progress = .pending) :
    rank ps (w.setOp o.id o.kind (.done none)) < rank ps w := by
  have hlt : Op.cost ⟨o.id, o.kind, .done none⟩ < o.cost := by
    rw [Op.isRead] at hr
    split at hr
    next payload hk => simp [Op.cost, hk, hp]
    next => cases hr
  have hcost : cost (w.setOp o.id o.kind (.done none)).session.ops < cost w.session.ops := by
    refine cost_map_lt (fun p hp' => ?_) ho (by simpa using hlt)
    split
    next hid => rw [hinj p hp' o ho hid]; exact hlt.le
    next => exact le_rfl
  -- it is not a read, so the read under way is still there
  have hidle : idle (w.setOp o.id o.kind (.done none)) ≤ idle w := by
    refine idle_le_of id fun p hp' hr' => ⟨p, List.mem_map.2 ⟨p, hp', if_neg fun hid => ?_⟩, hr'⟩
    rw [hinj p hp' o ho hid, hr] at hr'
    cases hr'
  have hunsent : unsent ps (w.setOp o.id o.kind (.done none)) = unsent ps w := rfl
  have hin : (w.setOp o.id o.kind (.done none)).incoming = w.incoming := rfl
  have hwaits : (w.setOp o.id o.kind (.done none)).session.waits = w.session.waits := rfl
  have hdel : (w.setOp o.id o.kind (.done none)).delivered = w.delivered := rfl
  rw [rank, rank, hwaits, hdel, hin]
  omega

/-- What is left of the rank in a handler: its operation is used up. -/
theorem rank_handling (ho : o ∈ w.session.ops) (buffer : Bytes) :
    rank ps ((w.handling o).withBuffer buffer) + o.cost + idle w ≤
      rank ps w + idle ((w.handling o).withBuffer buffer) := by
  have hcost : cost ((w.handling o).withBuffer buffer).session.ops + o.cost ≤ cost w.session.ops :=
    cost_filter ho
  have hunsent : unsent ps ((w.handling o).withBuffer buffer) = unsent ps w := rfl
  have hin : ((w.handling o).withBuffer buffer).incoming = w.incoming := rfl
  have hwaits : ((w.handling o).withBuffer buffer).session.waits.length =
      w.session.waits.length := by
    simp [World.withBuffer, World.handling]
  have hdel : ((w.handling o).withBuffer buffer).delivered = w.delivered := rfl
  rw [rank, rank, hin, hwaits, hdel]
  omega

/-- The handler of a write uses up its operation, and the read under way goes on. -/
theorem rank_written (hinj : ∀ p ∈ w.session.ops, ∀ q ∈ w.session.ops, p.id = q.id → p = q)
    (ho : o ∈ w.session.ops) (hr : o.isRead = false) :
    rank ps ((w.handling o).record (some ⟨.writeComplete, false⟩)) < rank ps w := by
  have hpos := o.one_le_cost
  have hhandling := rank_handling ps ho w.session.buffer
  have hidle : idle ((w.handling o).withBuffer w.session.buffer) ≤ idle w := by
    refine idle_le_of id fun p hp' hr' => ⟨p, List.mem_filter.2 ⟨hp', ?_⟩, hr'⟩
    have hid : p.id ≠ o.id := by
      intro hid
      rw [hinj p hp' o ho hid, hr] at hr'
      cases hr'
    simpa using hid
  have hrecord : rank ps ((w.handling o).record (some ⟨.writeComplete, false⟩)) =
    rank ps ((w.handling o).withBuffer w.session.buffer) := rfl
  omega

/-- A delivery uses up a message. -/
theorem rank_deliver (msg : Message L) (g : Bool) (hlt : w.delivered.length < ps.length) :
    rank ps (w.record (some ⟨.messageParsed msg, g⟩)) + 9 = rank ps w := by
  have hidle : idle (w.record (some ⟨.messageParsed msg, g⟩)) = idle w := rfl
  have hunsent : unsent ps (w.record (some ⟨.messageParsed msg, g⟩)) = unsent ps w := rfl
  have hin : (w.record (some ⟨.messageParsed msg, g⟩)).incoming = w.incoming := rfl
  have hsession : (w.record (some ⟨.messageParsed msg, g⟩)).session = w.session := rfl
  have hdel : (w.record (some ⟨.messageParsed msg, g⟩)).delivered.length =
      w.delivered.length + 1 := by
    simp [World.record]
  rw [rank, rank, hin, hsession, hdel, hidle, hunsent]
  omega

/-- A handler that delivers uses up its operation too, and leaves a read that can
    be started. -/
theorem rank_delivered (ho : o ∈ w.session.ops) (msg : Message L) (g : Bool)
    (hlt : w.delivered.length < ps.length) :
    rank ps (((w.handling o).withBuffer []).record (some ⟨.messageParsed msg, g⟩)) +
      4 * ((((w.handling o).withBuffer []).record
        (some ⟨.messageParsed msg, g⟩)).delivered.length - w.delivered.length) < rank ps w := by
  have hpos := o.one_le_cost
  have hhandling := rank_handling ps ho []
  have hidle := idle_le ((w.handling o).withBuffer [])
  have hdeliver := rank_deliver ps (w := (w.handling o).withBuffer []) msg g hlt
  have hdel : (((w.handling o).withBuffer []).record
      (some ⟨.messageParsed msg, g⟩)).delivered.length = w.delivered.length + 1 := by
    simp [World.record, World.withBuffer, World.handling]
  rw [hdel]
  omega

/-- The start of the read of a body. -/
theorem rank_reading (w : World L) (r : ℕ) (msg : Message L) :
    rank ps (w.reading r msg) + idle w ≤ rank ps w + 2 := by
  have hidle : idle (w.reading r msg) = 0 :=
    idle_of_isRead (List.mem_append_right _ List.mem_cons_self) rfl
  have hcost : cost (w.reading r msg).session.ops = cost w.session.ops + 1 := by
    simp [World.reading, Op.cost]
  have hwaits : (w.reading r msg).session.waits.length = w.session.waits.length + 1 := by
    simp [World.reading, Session.doRemainingRead, Session.startOp, Session.startTimer]
  have hunsent : unsent ps (w.reading r msg) = unsent ps w := rfl
  have hin : (w.reading r msg).incoming = w.incoming := rfl
  have hdel : (w.reading r msg).delivered = w.delivered := rfl
  rw [rank, rank, hin, hdel]
  omega

variable {ps}
variable [StartLine L] {cfg : HttpConfiguration} {e : IoEvent} {hook : Option (HookCall L)}

/-- An event lowers the rank, and a delivery does so by more than a write raises
    it. -/
theorem rank_io (hps : ∀ p ∈ ps, p.WellFormed L) (h : OrderlyState cfg ps w)
    (hok : Orderly ps w (.io e)) (hio : World.Io w e w' hook) :
    rank ps (w'.settle hook) + 4 * (w'.delivered.length - w.delivered.length) < rank ps w := by
  obtain ⟨bs, hcycle⟩ := h.cycle
  have hnext := h.io hps hok hio
  have hleft := (hnext.delivered hps).2.trans length_served_le
  cases hio with
  | arrive bytes =>
    have := rank_arrive ps hok.1 hok.2.length_le
    simpa [World.settle] using this
  | @recvUntil o n ho hk hp hopen hn hn' hcap =>
    have : rank ps ((w.take n).setOp o.id .readUntil
        (Session.readUntilProgress w.session.cfg (w.take n).session.buffer)) < rank ps w :=
      rank_recv ps hcycle.id_inj ho rfl (by rw [Op.cost_of_readUntil hk]; rfl) hn hn'
    simpa [World.settle, World.setOp, World.take] using this
  | @recvExactly o n r msg ho hk hp hopen hn hn' hr =>
    have : rank ps ((w.take n).setOp o.id (.readExactly (r - n) msg)
        (if n = r then .done none else .pending)) < rank ps w :=
      rank_recv ps hcycle.id_inj ho rfl (by rw [Op.cost_of_readExactly hk]; rfl) hn hn'
    simpa [World.settle, World.setOp, World.take] using this
  -- the connection of an orderly peer does not fail, and no timer fires
  | fail => exact hok.elim
  | expire => exact hok.elim
  | sent ho hr hp hopen =>
    have := rank_sent ps hcycle.id_inj ho hr hp
    simpa [World.settle, World.setOp] using this
  | aborted ho hk hp =>
    -- only a session that has failed aborts its operations, and it reads no more
    cases h.phase with
    | running _ _ hsound => simpa [Op.Sound, hp] using hsound _ ho
    | failed _ _ hreads => simpa [Op.isRead_of_readUntil hk] using hreads _ ho
  | @failed o ec buffer c g ho hp hbuffer hwhy =>
    have hpos := o.one_le_cost
    have hhandling := rank_handling ps ho buffer
    have hshutdown := rank_shutdown ps
      (((w.handling o).withBuffer buffer).record (some ⟨.error c, g⟩))
    have hrecord : rank ps (((w.handling o).withBuffer buffer).record (some ⟨.error c, g⟩)) =
      rank ps ((w.handling o).withBuffer buffer) := rfl
    have hidle : idle (((w.handling o).withBuffer buffer).record (some ⟨.error c, g⟩)) =
      idle ((w.handling o).withBuffer buffer) := rfl
    have hdel : (((w.handling o).withBuffer buffer).record (some ⟨.error c, g⟩)).delivered =
      w.delivered := rfl
    rw [hdel, Nat.sub_self]
    simp only [World.settle]
    omega
  | @headersRead o msg n ho hk hp hacc hlt =>
    have hhandling := rank_handling ps ho []
    have hreading := rank_reading ps ((w.handling o).withBuffer [])
      (n - msg.body.length) msg
    have hdel : (((w.handling o).withBuffer []).reading (n - msg.body.length) msg).delivered =
      w.delivered := rfl
    rw [Op.cost_of_readUntil hk] at hhandling
    rw [hdel, Nat.sub_self]
    simp only [World.settle]
    omega
  | @headersParsed o msg ho hk hp hacc =>
    simp only [World.settle, World.record, List.length_append, List.length_singleton] at hleft
    exact rank_delivered ps ho msg true hleft
  | @bodyRead o r msg ho hk hp =>
    simp only [World.settle, World.record, List.length_append, List.length_singleton] at hleft
    exact rank_delivered ps ho (msg.append w.session.buffer) false hleft
  | @written o ho hr hp =>
    have := rank_written ps hcycle.id_inj ho hr
    simpa [World.settle, World.record, World.handling] using this
  | @waitOver v hv =>
    have := rank_dropWait ps hv
    simpa [World.settle, World.dropWait] using this
  | timedOut hv hfired => exact absurd hfired (h.waits _ hv)

end Dss.Http
