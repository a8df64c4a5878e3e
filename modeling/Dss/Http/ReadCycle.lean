import Dss.Http.Derived

/-!
# The read cycle

No byte is lost, duplicated or attributed to another message: the bytes a
session takes off its socket are those of the messages it has delivered
(`FramedBy`), followed by what it has read of the next one. The invariant
`ReadCycle` says where these last bytes are, in every phase of the cycle:

* while the header is read, in the buffer;
* while the rest of the body is read, in the message parsed and in the buffer;
* between two cycles, there are none.

`ReadCore` is what is left of it while `on_error` runs. The cycles of a server
session never overlap, those of a client session do not as long as its requests
do not. What becomes of the invariant where a client session connects again is
the subject of `Dss.Http.Connections`.
-/

namespace Dss.Http

open Dss.Lib

variable {L : Type} [StartLine L]

/-- `b` is the bytes of the message `m`, with the length its headers announce,
    and within the limits. -/
structure Framed (cfg : HttpConfiguration) (b : Bytes) (m : Message L) : Prop where
  parse : Message.parse b = .ok m
  length : m.headers.contentLength = .ok m.body.length
  length_le : m.body.length ≤ cfg.maxBodySize
  header : ∃ h, b = h ++ m.body ∧ h.length ≤ cfg.maxHeaderSize
  delim : ∃ i, search delimiter b = some i ∧ i + 4 ≤ cfg.maxHeaderSize

/-- The deliveries are those of the messages with the bytes `bs`: each message is
    framed, nothing but these bytes has been taken off the socket until it is
    delivered, and the buffer is empty then. -/
inductive FramedBy (cfg : HttpConfiguration) : List Bytes → List (Delivery L) → Prop
  | nil : FramedBy cfg [] []
  | snoc {bs : List Bytes} {ds : List (Delivery L)} {b : Bytes} {d : Delivery L} :
      FramedBy cfg bs ds → Framed cfg b d.msg → d.taken = bs.flatten ++ b → d.buffer = [] →
        FramedBy cfg (bs ++ [b]) (ds ++ [d])

omit [StartLine L] in
theorem exists_of_search {b : Bytes} {i : ℕ} (h : search delimiter b = some i) :
    ∃ a y, b = a ++ delimiter ++ y :=
  let ⟨a, y, hb, _⟩ := search_eq_some h
  ⟨a, y, hb⟩

/-- What is accepted is framed once the rest of its body has been read. -/
theorem Accepted.framed {cfg : HttpConfiguration} {x t : Bytes} {msg : Message L} {n : ℕ}
    (h : Accepted cfg x msg n) (hlen : msg.body.length + t.length = n) :
    Framed cfg (x ++ t) (msg.append t) := by
  obtain ⟨i, hi, hle⟩ := h.delim
  obtain ⟨a, y, hx⟩ := exists_of_search hi
  obtain ⟨hdr, hhdr, hhle⟩ := h.exists_header
  have hbody : (msg.append t).body.length = n := by
    rw [Message.append, List.length_append, hlen]
  exact {
    parse := Message.parse_append hx h.parse t
    length := by rw [hbody]; exact h.length
    length_le := by rw [hbody]; exact h.length_le
    header := ⟨hdr, by rw [Message.append, ← List.append_assoc, ← hhdr], hhle⟩
    delim := ⟨i, search_append hi t, hle⟩ }

/-! ## The invariant -/

/-- What is known of an operation under way, when the messages with the bytes
    `bs` have been delivered. -/
def OpState (bs : List Bytes) (w : World L) (o : Op L) : Prop :=
  match o.kind, o.progress with
  | .readUntil, .pending => w.session.isOpen ∧ w.taken = bs.flatten ++ w.session.buffer ∧
      search delimiter w.session.buffer = none ∧
      w.session.buffer.length < w.session.cfg.capacity
  | .readUntil, .done none => w.taken = bs.flatten ++ w.session.buffer ∧
      search delimiter w.session.buffer ≠ none
  | .readUntil, .done (some .notFound) => w.taken = bs.flatten ++ w.session.buffer ∧
      search delimiter w.session.buffer = none ∧
      w.session.buffer.length = w.session.cfg.capacity
  | .readUntil, .done (some .operationAborted) =>
      w.session.isOpen → w.taken = bs.flatten ∧ w.session.buffer = []
  | .readExactly r msg, .pending => w.session.isOpen ∧ 0 < r ∧
      ∃ x n, w.taken = bs.flatten ++ x ++ w.session.buffer ∧ Accepted w.session.cfg x msg n ∧
        msg.body.length + w.session.buffer.length + r = n
  | .readExactly _ msg, .done none => w.session.buffer ≠ [] ∧
      ∃ x n, w.taken = bs.flatten ++ x ++ w.session.buffer ∧ Accepted w.session.cfg x msg n ∧
        msg.body.length + w.session.buffer.length = n
  | _, _ => True

/-- The part of the invariant that holds while `on_error` runs. -/
structure ReadCore (cfg : HttpConfiguration) (bs : List Bytes) (w : World L) : Prop where
  cfg_eq : w.session.cfg = cfg
  framed : FramedBy cfg bs w.delivered
  taken : bs.flatten <+: w.taken
  id_lt : ∀ o ∈ w.session.ops, o.id < w.session.nextId
  id_inj : ∀ o ∈ w.session.ops, ∀ o' ∈ w.session.ops, o.id = o'.id → o = o'
  serial : ∀ o ∈ w.session.ops, ∀ o' ∈ w.session.ops, o.isRead → o'.isRead → o = o'
  ops : ∀ o ∈ w.session.ops, OpState bs w o

/-- The invariant of the read cycle. -/
structure ReadCycle (cfg : HttpConfiguration) (bs : List Bytes) (w : World L) : Prop
    extends ReadCore cfg bs w where
  idle : w.session.isOpen → (∀ o ∈ w.session.ops, o.isRead = false) →
    w.taken = bs.flatten ∧ w.session.buffer = []

theorem readCycle_fresh (cfg : HttpConfiguration) : ReadCycle cfg [] (World.fresh L cfg) where
  cfg_eq := rfl
  framed := .nil
  taken := List.nil_prefix
  id_lt := by simp [World.fresh]
  id_inj := by simp [World.fresh]
  serial := by simp [World.fresh]
  ops := by simp [World.fresh]
  idle _ _ := ⟨rfl, rfl⟩

variable {cfg : HttpConfiguration} {bs : List Bytes} {w w' : World L} {o : Op L}

omit [StartLine L] in
theorem Op.isRead_of_readUntil (hk : o.kind = .readUntil) : o.isRead := by simp [isRead, hk]

omit [StartLine L] in
theorem Op.isRead_of_readExactly {r : ℕ} {msg : Message L} (hk : o.kind = .readExactly r msg) :
    o.isRead := by
  simp [isRead, hk]

/-- Nothing is to be known of a write. -/
theorem opState_of_write (ho : o.isRead = false) : OpState bs w o := by
  rw [OpState]
  cases hk : o.kind with
  | readUntil => simp [Op.isRead_of_readUntil hk] at ho
  | readExactly r msg => simp [Op.isRead_of_readExactly hk] at ho
  | write payload => trivial

/-- Nothing is to be known of an operation that has failed on its own. -/
theorem opState_failed (bs : List Bytes) (w : World L) (id : ℕ) (kind : OpKind L) {ec : ErrorCode}
    (haborted : ec ≠ .operationAborted) (hfound : ec ≠ .notFound) :
    OpState bs w ⟨id, kind, .done (some ec)⟩ := by
  rw [OpState]
  split <;> simp_all

/-- A read of the header is as far as the buffer is. -/
theorem opState_readUntil (id : ℕ) (hopen : w.session.isOpen)
    (htaken : w.taken = bs.flatten ++ w.session.buffer)
    (hle : w.session.buffer.length ≤ w.session.cfg.capacity) :
    OpState bs w ⟨id, .readUntil,
      Session.readUntilProgress w.session.cfg w.session.buffer⟩ := by
  obtain ⟨p, hp⟩ : ∃ p, Session.readUntilProgress w.session.cfg w.session.buffer = p := ⟨_, rfl⟩
  rw [hp]
  rw [Session.readUntilProgress] at hp
  split at hp
  next hfound => exact hp ▸ ⟨htaken, hfound⟩
  next hnone =>
    split at hp
    next hfull => exact hp ▸ ⟨htaken, not_not.1 hnone, hfull⟩
    next hfree => exact hp ▸ ⟨hopen, htaken, not_not.1 hnone, lt_of_le_of_ne hle hfree⟩

/-- What is known of an operation depends on what has been read, and on whether
    the socket is open. -/
theorem OpState.congr (h : OpState bs w o) (hopen : w'.session.isOpen = w.session.isOpen)
    (htaken : w'.taken = w.taken) (hbuffer : w'.session.buffer = w.session.buffer)
    (hcfg : w'.session.cfg = w.session.cfg) : OpState bs w' o := by
  rw [OpState] at h ⊢
  rw [hopen, htaken, hbuffer, hcfg]
  exact h

/-- Closing the socket aborts the operations that are pending. -/
theorem OpState.abort (h : OpState bs w o) (hopen : w'.session.isOpen = false)
    (htaken : w'.taken = w.taken) (hbuffer : w'.session.buffer = w.session.buffer)
    (hcfg : w'.session.cfg = w.session.cfg) : OpState bs w' o.abort := by
  rw [OpState] at h ⊢
  rw [hopen, htaken, hbuffer, hcfg]
  cases hp : o.progress with
  | pending =>
    simp only [Op.abort, hp]
    cases o.kind <;> simp
  | done ec =>
    simp only [Op.abort, hp] at h ⊢
    split at h <;> simp_all

/-- So does opening a new one. Where nothing is in the buffer, no read has been
    completed. -/
theorem OpState.reopen (h : OpState bs w o) (hempty : w.session.buffer = [])
    (htaken : w'.taken = []) (hbuffer : w'.session.buffer = [])
    (hcfg : w'.session.cfg = w.session.cfg) : OpState [] w' o.abort := by
  rw [OpState] at h ⊢
  rw [htaken, hbuffer, hcfg]
  cases hp : o.progress with
  | pending =>
    simp only [Op.abort, hp]
    cases o.kind <;> simp
  | done ec =>
    simp only [Op.abort, hp] at h ⊢
    rw [hempty] at h
    have hnil : search delimiter [] = none := rfl
    split at h <;> simp_all

namespace ReadCore

/-- An operation is over. -/
theorem handling (h : ReadCore cfg bs w) (o : Op L) : ReadCore cfg bs (w.handling o) where
  cfg_eq := h.cfg_eq
  framed := h.framed
  taken := h.taken
  id_lt p hp := h.id_lt p (List.mem_filter.1 hp).1
  id_inj p hp q hq := h.id_inj p (List.mem_filter.1 hp).1 q (List.mem_filter.1 hq).1
  serial p hp q hq := h.serial p (List.mem_filter.1 hp).1 q (List.mem_filter.1 hq).1
  ops p hp := h.ops p (List.mem_filter.1 hp).1

/-- The buffer changes while nothing is read. -/
theorem withBuffer (h : ReadCore cfg bs w) (hw : ∀ o ∈ w.session.ops, o.isRead = false)
    (buffer : Bytes) : ReadCore cfg bs (w.withBuffer buffer) where
  cfg_eq := h.cfg_eq
  framed := h.framed
  taken := h.taken
  id_lt := h.id_lt
  id_inj := h.id_inj
  serial := h.serial
  ops p hp := opState_of_write (hw p hp)

/-- A hook other than `on_message_parsed` is called. -/
theorem record (h : ReadCore cfg bs w) {hook : Option (HookCall L)}
    (hhook : (w.record hook).delivered = w.delivered) : ReadCore cfg bs (w.record hook) where
  cfg_eq := by simpa using h.cfg_eq
  framed := by rw [hhook]; exact h.framed
  taken := by simpa using h.taken
  id_lt := by simpa using h.id_lt
  id_inj := by simpa using h.id_inj
  serial := by simpa using h.serial
  ops p hp := (h.ops p (by simpa using hp)).congr (by simp) (by simp) (by simp) (by simp)

/-- The operations change in place, and other messages have been delivered. -/
theorem mapOps_of_framed {bs' : List Bytes} (h : ReadCore cfg bs w) (f : Op L → Op L)
    (hid : ∀ o, (f o).id = o.id) (hread : ∀ o ∈ w.session.ops, (f o).isRead = o.isRead)
    (hops : w'.session.ops = w.session.ops.map f) (hcfg : w'.session.cfg = w.session.cfg)
    (hnext : w'.session.nextId = w.session.nextId) (hframed : FramedBy cfg bs' w'.delivered)
    (htaken : bs'.flatten <+: w'.taken) (hstate : ∀ o ∈ w.session.ops, OpState bs' w' (f o)) :
    ReadCore cfg bs' w' where
  cfg_eq := hcfg.trans h.cfg_eq
  framed := hframed
  taken := htaken
  id_lt p hp := by
    rw [hops] at hp
    obtain ⟨o, ho, rfl⟩ := List.mem_map.1 hp
    rw [hid, hnext]
    exact h.id_lt o ho
  id_inj p hp q hq hpq := by
    rw [hops] at hp hq
    obtain ⟨o, ho, rfl⟩ := List.mem_map.1 hp
    obtain ⟨o', ho', rfl⟩ := List.mem_map.1 hq
    rw [hid, hid] at hpq
    rw [h.id_inj o ho o' ho' hpq]
  serial p hp q hq hp' hq' := by
    rw [hops] at hp hq
    obtain ⟨o, ho, rfl⟩ := List.mem_map.1 hp
    obtain ⟨o', ho', rfl⟩ := List.mem_map.1 hq
    rw [hread o ho] at hp'
    rw [hread o' ho'] at hq'
    rw [h.serial o ho o' ho' hp' hq']
  ops p hp := by
    rw [hops] at hp
    obtain ⟨o, ho, rfl⟩ := List.mem_map.1 hp
    exact hstate o ho

/-- The operations change in place. -/
theorem mapOps (h : ReadCore cfg bs w) (f : Op L → Op L) (hid : ∀ o, (f o).id = o.id)
    (hread : ∀ o ∈ w.session.ops, (f o).isRead = o.isRead)
    (hops : w'.session.ops = w.session.ops.map f) (hcfg : w'.session.cfg = w.session.cfg)
    (hnext : w'.session.nextId = w.session.nextId) (hdelivered : w'.delivered = w.delivered)
    (htaken : w.taken <+: w'.taken) (hstate : ∀ o ∈ w.session.ops, OpState bs w' (f o)) :
    ReadCore cfg bs w' :=
  h.mapOps_of_framed f hid hread hops hcfg hnext (hdelivered ▸ h.framed) (h.taken.trans htaken)
    hstate

/-- The operation `o` makes progress, in a world that has read no less. -/
theorem setOp (h : ReadCore cfg bs w) (ho : o ∈ w.session.ops) {kind : OpKind L}
    {progress : Progress} (hread : Op.isRead ⟨o.id, kind, progress⟩ = o.isRead)
    (hops : w'.session.ops = w.session.ops) (hcfg : w'.session.cfg = w.session.cfg)
    (hnext : w'.session.nextId = w.session.nextId) (hdelivered : w'.delivered = w.delivered)
    (htaken : w.taken <+: w'.taken) (hstate : OpState bs w' ⟨o.id, kind, progress⟩)
    (hothers : ∀ p ∈ w.session.ops, p.id ≠ o.id → OpState bs w' p) :
    ReadCore cfg bs (w'.setOp o.id kind progress) := by
  refine h.mapOps (fun p => if p.id = o.id then ⟨o.id, kind, progress⟩ else p) (fun p => ?_)
    (fun p hp => ?_) (by rw [← hops]; rfl) hcfg hnext hdelivered htaken fun p hp => ?_
  · split <;> simp_all
  · split
    next hid => rw [h.id_inj p hp o ho hid, hread]
    next => rfl
  · split
    next => exact hstate.congr rfl rfl rfl rfl
    next hid => exact (hothers p hp hid).congr rfl rfl rfl rfl

/-- Next to a read there are only writes. -/
theorem isRead_eq_false (h : ReadCore cfg bs w) (ho : o ∈ w.session.ops) (hr : o.isRead) :
    ∀ p ∈ w.session.ops, p.id ≠ o.id → p.isRead = false := by
  intro p hp hid
  by_contra hr'
  exact hid (congrArg Op.id (h.serial p hp o ho (by simpa using hr') hr))

/-- When a read is over, there is no other. -/
theorem not_isRead_handling (h : ReadCore cfg bs w) (ho : o ∈ w.session.ops) (hr : o.isRead) :
    ∀ p ∈ (w.handling o).session.ops, p.isRead = false := by
  intro p hp
  obtain ⟨hmem, hid⟩ := List.mem_filter.1 hp
  exact h.isRead_eq_false ho hr p hmem (by simpa using hid)

/-- The session is shut down. -/
theorem shutdown (h : ReadCore cfg bs w) : ReadCycle cfg bs (w.call .shutdown) where
  toReadCore := by
    cases hopen : w.session.isOpen with
    | true =>
      refine h.mapOps Op.abort Op.abort_id (fun o _ => o.abort_isRead) (by simp [World.call, hopen])
        (by simp [World.call]) (by simp [World.call]) rfl List.prefix_rfl fun o ho => ?_
      exact (h.ops o ho).abort (by simp [World.call]) rfl (by simp [World.call])
        (by simp [World.call])
    | false =>
      refine h.mapOps id (fun _ => rfl) (fun _ _ => rfl) (by simp [World.call, hopen])
        (by simp [World.call]) (by simp [World.call]) rfl List.prefix_rfl fun o ho => ?_
      exact (h.ops o ho).congr (by simp [World.call, hopen]) rfl (by simp [World.call])
        (by simp [World.call])
  idle hopen := by simp [World.call] at hopen

/-- A message is delivered, with nothing left in the buffer. -/
theorem deliver (h : ReadCore cfg bs w) (hw : ∀ o ∈ w.session.ops, o.isRead = false)
    (hbuffer : w.session.buffer = []) {b : Bytes} {msg : Message L} (hb : Framed cfg b msg)
    (htaken : w.taken = bs.flatten ++ b) (g : Bool) :
    ReadCycle cfg (bs ++ [b]) (w.record (some ⟨.messageParsed msg, g⟩)) where
  cfg_eq := h.cfg_eq
  framed := .snoc h.framed hb htaken hbuffer
  taken := by simp [World.record, htaken]
  id_lt := h.id_lt
  id_inj := h.id_inj
  serial := h.serial
  ops p hp := opState_of_write (hw p hp)
  idle _ _ := ⟨by simp [World.record, htaken], hbuffer⟩

/-- An operation is started. -/
theorem startOp (h : ReadCore cfg bs w) {kind : OpKind L} {progress : Progress}
    (hsession : w'.session.ops = w.session.ops ++ [⟨w.session.nextId, kind, progress⟩])
    (hnext : w'.session.nextId = w.session.nextId + 1) (hcfg : w'.session.cfg = w.session.cfg)
    (hopen : w'.session.isOpen = w.session.isOpen) (hbuffer : w'.session.buffer = w.session.buffer)
    (htaken : w'.taken = w.taken) (hdelivered : w'.delivered = w.delivered)
    (hread : Op.isRead ⟨w.session.nextId, kind, progress⟩ →
      ∀ o ∈ w.session.ops, o.isRead = false)
    (hstate : OpState bs w ⟨w.session.nextId, kind, progress⟩) : ReadCore cfg bs w' := by
  have hmem : ∀ p ∈ w'.session.ops, p ∈ w.session.ops ∨ p = ⟨w.session.nextId, kind, progress⟩ := by
    simp [hsession]
  refine {
    cfg_eq := hcfg.trans h.cfg_eq
    framed := hdelivered ▸ h.framed
    taken := htaken ▸ h.taken
    id_lt := fun p hp => ?_
    id_inj := fun p hp q hq hpq => ?_
    serial := fun p hp q hq hp' hq' => ?_
    ops := fun p hp => ?_ }
  · rcases hmem p hp with hp | rfl
    · have := h.id_lt p hp
      omega
    · simp [hnext]
  · rcases hmem p hp with hp | rfl <;> rcases hmem q hq with hq | rfl
    · exact h.id_inj p hp q hq hpq
    · exact absurd hpq (h.id_lt p hp).ne
    · exact absurd hpq (h.id_lt q hq).ne'
    · rfl
  · rcases hmem p hp with hp | rfl <;> rcases hmem q hq with hq | rfl
    · exact h.serial p hp q hq hp' hq'
    · rw [hread hq' p hp] at hp'
      cases hp'
    · rw [hread hp' q hq] at hq'
      cases hq'
    · rfl
  · rcases hmem p hp with hp | rfl
    · exact (h.ops p hp).congr hopen htaken hbuffer hcfg
    · exact hstate.congr hopen htaken hbuffer hcfg

end ReadCore

/-! ## Steps -/

namespace ReadCycle

/-- The invariant depends on what has been read and delivered, and on the
    operations under way. -/
theorem congr (h : ReadCycle cfg bs w) (hops : w'.session.ops = w.session.ops)
    (hcfg : w'.session.cfg = w.session.cfg) (hnext : w'.session.nextId = w.session.nextId)
    (hopen : w'.session.isOpen = w.session.isOpen) (hbuffer : w'.session.buffer = w.session.buffer)
    (htaken : w'.taken = w.taken) (hdelivered : w'.delivered = w.delivered) :
    ReadCycle cfg bs w' where
  toReadCore := by
    refine h.mapOps id (fun _ => rfl) (fun _ _ => rfl) (by simp [hops]) hcfg hnext hdelivered
      (htaken ▸ List.prefix_rfl) fun o ho => ?_
    exact (h.ops o ho).congr hopen htaken hbuffer hcfg
  idle hopen' hw := by
    rw [htaken, hbuffer]
    exact h.idle (hopen ▸ hopen') (hops ▸ hw)

/-- A read starts between two cycles. -/
theorem doRead (h : ReadCycle cfg bs w) (hw : ∀ o ∈ w.session.ops, o.isRead = false) :
    ReadCycle cfg bs (w.call .doRead) where
  toReadCore := by
    refine h.startOp rfl rfl rfl rfl rfl rfl rfl (fun _ => hw) ?_
    cases hopen : w.session.isOpen with
    | false =>
      rw [Session.startProgress_of_closed (by exact hopen)]
      exact opState_failed _ _ _ _ (by simp) (by simp)
    | true =>
      obtain ⟨htaken, hbuffer⟩ := h.idle hopen hw
      rw [Session.startProgress_of_open (by exact hopen)]
      exact opState_readUntil _ hopen (by simp [htaken, hbuffer]) (by simp [hbuffer])
  idle _ hr := by
    have := hr ⟨w.session.nextId, .readUntil, _⟩ (List.mem_append_right _ List.mem_cons_self)
    simp [Op.isRead] at this

theorem doWrite (h : ReadCycle cfg bs w) (payload : Bytes) :
    ReadCycle cfg bs (w.call (.doWrite payload)) where
  toReadCore := h.startOp rfl rfl rfl rfl rfl rfl rfl (by simp [Op.isRead])
    (opState_of_write (by simp [Op.isRead]))
  idle hopen hw := h.idle hopen fun o ho => hw o (List.mem_append_left _ ho)

/-- Where a read is under way, no cycle is over. -/
theorem of_isRead (h : ReadCore cfg bs w) (ho : o ∈ w.session.ops) (hr : o.isRead) :
    ReadCycle cfg bs w where
  toReadCore := h
  idle _ hw := by rw [hw o ho] at hr; cases hr

omit [StartLine L] in
theorem mem_setOp (ho : o ∈ w.session.ops) (kind : OpKind L) (progress : Progress) :
    ⟨o.id, kind, progress⟩ ∈ (w.setOp o.id kind progress).session.ops :=
  List.mem_map.2 ⟨o, ho, if_pos rfl⟩

/-- Bytes are read for the header. -/
theorem recvUntil (h : ReadCycle cfg bs w) (ho : o ∈ w.session.ops) (hk : o.kind = .readUntil)
    (hp : o.progress = .pending) {n : ℕ}
    (hcap : w.session.buffer.length + n ≤ w.session.cfg.capacity) :
    ReadCycle cfg bs ((w.take n).setOp o.id .readUntil
      (Session.readUntilProgress w.session.cfg (w.take n).session.buffer)) := by
  have hr := Op.isRead_of_readUntil hk
  have hstate := h.ops o ho
  simp only [OpState, hk, hp] at hstate
  obtain ⟨hopen, htaken, -⟩ := hstate
  refine of_isRead (h.setOp ho (by rw [hr]; rfl) rfl rfl rfl rfl (List.prefix_append _ _) ?_
    fun p hp hid => opState_of_write (h.isRead_eq_false ho hr p hp hid))
      (mem_setOp (w := w.take n) ho _ _) rfl
  refine opState_readUntil _ hopen (by simp [World.take, htaken]) ?_
  simp only [World.take, List.length_append, List.length_take]
  omega

/-- Bytes are read for the body. -/
theorem recvExactly {n r : ℕ} {msg : Message L} (h : ReadCycle cfg bs w) (ho : o ∈ w.session.ops)
    (hk : o.kind = .readExactly r msg) (hp : o.progress = .pending)
    (hn : n ≤ w.incoming.length) (hr : n ≤ r) :
    ReadCycle cfg bs ((w.take n).setOp o.id (.readExactly (r - n) msg)
      (if n = r then .done none else .pending)) := by
  have hread := Op.isRead_of_readExactly hk
  have hstate := h.ops o ho
  simp only [OpState, hk, hp] at hstate
  obtain ⟨hopen, hpos, x, m, htaken, hacc, hlen⟩ := hstate
  have htaken' : (w.take n).taken = bs.flatten ++ x ++ (w.take n).session.buffer := by
    simp [World.take, htaken]
  have hlen' : msg.body.length + (w.take n).session.buffer.length + (r - n) = m := by
    simp only [World.take, List.length_append, List.length_take]
    omega
  refine of_isRead (h.setOp ho (by rw [hread]; rfl) rfl rfl rfl rfl (List.prefix_append _ _) ?_
    fun p hp hid => opState_of_write (h.isRead_eq_false ho hread p hp hid))
      (mem_setOp (w := w.take n) ho _ _) rfl
  split
  next heq =>
    -- at least one byte has been read
    refine ⟨fun hnil => ?_, x, m, htaken', hacc, by omega⟩
    have hlen := congrArg List.length hnil
    simp only [World.take, List.length_append, List.length_take, List.length_nil] at hlen
    omega
  next hne => exact ⟨hopen, by omega, x, m, htaken', hacc, hlen'⟩

/-- An operation fails, or a write is done. -/
theorem setOp (h : ReadCycle cfg bs w) (ho : o ∈ w.session.ops) {progress : Progress}
    (hstate : OpState bs w ⟨o.id, o.kind, progress⟩) :
    ReadCycle cfg bs (w.setOp o.id o.kind progress) where
  toReadCore := h.toReadCore.setOp ho rfl rfl rfl rfl rfl List.prefix_rfl hstate
    fun p hp _ => h.ops p hp
  idle hopen hw := by
    refine h.idle hopen fun p hp => ?_
    by_cases hid : p.id = o.id
    · have := hw _ (mem_setOp ho o.kind progress)
      rw [h.id_inj p hp o ho hid]
      exact this
    · exact hw p (List.mem_map.2 ⟨p, hp, if_neg hid⟩)

/-- A handler reports an error. -/
theorem failed (h : ReadCycle cfg bs w) (ho : o ∈ w.session.ops) {buffer : Bytes} {c : HookCall L}
    {ec : ErrorCode} (hc : c.hook = .error ec)
    (hb : buffer = w.session.buffer ∨ o.kind = .readUntil) :
    ReadCycle cfg bs (((w.handling o).withBuffer buffer).record (some c) |>.call .shutdown) := by
  obtain ⟨hook, g⟩ := c
  obtain rfl : hook = .error ec := hc
  refine ReadCore.shutdown (ReadCore.record ?_ rfl)
  rcases hb with rfl | hk
  · exact h.handling o
  · exact (h.handling o).withBuffer (h.not_isRead_handling ho (Op.isRead_of_readUntil hk)) buffer

/-- The header has been read, and a part of the body is to come. -/
theorem headersRead (h : ReadCycle cfg bs w) (ho : o ∈ w.session.ops) (hk : o.kind = .readUntil)
    (hp : o.progress = .done none) {msg : Message L} {n : ℕ}
    (hacc : Accepted w.session.cfg w.session.buffer msg n) (hlt : msg.body.length < n) :
    ReadCycle cfg bs (((w.handling o).withBuffer []).reading (n - msg.body.length) msg) := by
  have hnone := h.not_isRead_handling ho (Op.isRead_of_readUntil hk)
  have hstate := h.ops o ho
  simp only [OpState, hk, hp] at hstate
  refine of_isRead (o := ⟨w.session.nextId, .readExactly (n - msg.body.length) msg, _⟩)
    (((h.handling o).withBuffer hnone []).startOp rfl rfl rfl rfl rfl rfl rfl (fun _ => hnone) ?_)
    (List.mem_append_right _ List.mem_cons_self) rfl
  cases hopen : w.session.isOpen with
  | false =>
    rw [Session.startProgress_of_closed (by exact hopen)]
    exact opState_failed _ _ _ _ (by simp) (by simp)
  | true =>
    rw [Session.startProgress_of_open (by exact hopen)]
    exact ⟨hopen, by omega, w.session.buffer, n, by simpa [World.withBuffer, World.handling] using
      hstate.1, hacc, by simp [World.withBuffer]; omega⟩

/-- The header has been read, and with it the whole body. -/
theorem headersParsed (h : ReadCycle cfg bs w) (ho : o ∈ w.session.ops) (hk : o.kind = .readUntil)
    (hp : o.progress = .done none) {msg : Message L}
    (hacc : Accepted w.session.cfg w.session.buffer msg msg.body.length) (g : Bool) :
    ReadCycle cfg (bs ++ [w.session.buffer])
      (((w.handling o).withBuffer []).record (some ⟨.messageParsed msg, g⟩)) := by
  have hnone := h.not_isRead_handling ho (Op.isRead_of_readUntil hk)
  have hstate := h.ops o ho
  simp only [OpState, hk, hp] at hstate
  have hframed := hacc.framed (t := []) (by simp)
  rw [List.append_nil, Message.append_nil, h.cfg_eq] at hframed
  exact ((h.handling o).withBuffer hnone []).deliver hnone rfl hframed hstate.1 g

/-- The rest of the body has been read. -/
theorem bodyRead (h : ReadCycle cfg bs w) (ho : o ∈ w.session.ops) {r : ℕ} {msg : Message L}
    (hk : o.kind = .readExactly r msg) (hp : o.progress = .done none) (g : Bool) :
    ∃ b, ReadCycle cfg (bs ++ [b]) (((w.handling o).withBuffer []).record
      (some ⟨.messageParsed (msg.append w.session.buffer), g⟩)) := by
  have hnone := h.not_isRead_handling ho (Op.isRead_of_readExactly hk)
  have hstate := h.ops o ho
  simp only [OpState, hk, hp] at hstate
  obtain ⟨-, x, n, htaken, hacc, hlen⟩ := hstate
  have hframed := hacc.framed hlen
  rw [h.cfg_eq] at hframed
  exact ⟨_, ((h.handling o).withBuffer hnone []).deliver hnone rfl hframed
    (by rw [← List.append_assoc]; exact htaken) g⟩

/-- A write is over. -/
theorem written (h : ReadCycle cfg bs w) (ho : o ∈ w.session.ops) (hr : o.isRead = false)
    (g : Bool) :
    ReadCycle cfg bs ((w.handling o).record (some ⟨.writeComplete, g⟩)) where
  toReadCore := (h.handling o).record rfl
  idle hopen hw := by
    refine h.idle hopen fun p hp => ?_
    by_cases hid : p.id = o.id
    · rw [h.id_inj p hp o ho hid, hr]
    · exact hw p (List.mem_filter.2 ⟨hp, by simpa using hid⟩)

/-- A new connection starts with the first cycle, where nothing is in the buffer. -/
theorem reopen (h : ReadCycle cfg bs w) (hempty : w.session.buffer = [])
    (hops : w'.session.ops = w.session.ops.map Op.abort) (hcfg : w'.session.cfg = w.session.cfg)
    (hnext : w'.session.nextId = w.session.nextId) (hbuffer : w'.session.buffer = [])
    (htaken : w'.taken = []) (hdelivered : w'.delivered = []) : ReadCycle cfg [] w' where
  toReadCore := h.mapOps_of_framed Op.abort Op.abort_id (fun o _ => o.abort_isRead) hops hcfg hnext
    (hdelivered ▸ .nil) List.nil_prefix fun o ho => (h.ops o ho).reopen hempty htaken hbuffer hcfg
  idle _ _ := ⟨htaken, hbuffer⟩

/-- An event keeps the invariant. -/
theorem io {e : IoEvent} {hook : Option (HookCall L)} (h : ReadCycle cfg bs w)
    (hio : World.Io w e w' hook) : ∃ bs', ReadCycle cfg bs' (w'.settle hook) := by
  cases hio with
  | arrive | expire | waitOver => exact ⟨bs, h.congr rfl rfl rfl rfl rfl rfl rfl⟩
  | recvUntil ho hk hp _ _ _ hcap => exact ⟨bs, h.recvUntil ho hk hp hcap⟩
  | recvExactly ho hk hp _ _ hn hr => exact ⟨bs, h.recvExactly ho hk hp hn hr⟩
  | fail ho _ _ haborted hfound =>
    exact ⟨bs, h.setOp ho (opState_failed _ _ _ _ haborted hfound)⟩
  | sent ho hr => exact ⟨bs, h.setOp ho (opState_of_write hr)⟩
  | aborted ho hk hp =>
    -- the bytes of the message are lost where the session is closed
    have hstate := h.ops _ ho
    simp only [OpState, hk, hp] at hstate
    exact ⟨bs, h.handling _, fun hopen _ => hstate hopen⟩
  | failed ho _ hbuffer => exact ⟨bs, h.failed ho rfl (hbuffer.imp_right And.left)⟩
  | headersRead ho hk hp hacc hlt => exact ⟨bs, h.headersRead ho hk hp hacc hlt⟩
  | headersParsed ho hk hp hacc => exact ⟨_, h.headersParsed ho hk hp hacc true⟩
  | bodyRead ho hk hp =>
    obtain ⟨b, hb⟩ := h.bodyRead ho hk hp false
    exact ⟨_, hb⟩
  | written ho hr => exact ⟨bs, h.written ho hr false⟩
  | @timedOut v hv =>
    have hdrop : ReadCycle cfg bs (w.dropWait v) := h.congr rfl rfl rfl rfl rfl rfl rfl
    have hshut := hdrop.shutdown
    have htimeout : ReadCycle cfg bs { ((w.dropWait v).call .shutdown) with
        timeouts := w.timeouts ++ [v.guarded] } := hshut.congr rfl rfl rfl rfl rfl rfl rfl
    exact ⟨bs, ReadCore.shutdown (htimeout.record rfl)⟩

/-- A step keeps the invariant, where no read starts while another is under
    way. -/
theorem step {P : World L → SessionEvent → Prop} {e : SessionEvent} (h : ReadCycle cfg bs w)
    (hok : World.SingleRead P w e) (hs : w.step e = some w') : ∃ bs', ReadCycle cfg bs' w' := by
  cases e with
  | io e =>
    obtain ⟨⟨w₁, hook⟩, hio, rfl⟩ := Option.map_eq_some_iff.1 hs
    exact h.io (World.io_cases hio)
  | call c =>
    obtain rfl := Option.some.inj hs
    cases c with
    | doRead => exact ⟨bs, h.doRead hok⟩
    | doWrite payload => exact ⟨bs, h.doWrite payload⟩
    | shutdown => exact ⟨bs, h.shutdown⟩
  | caught =>
    obtain rfl := Option.some.inj hs
    exact ⟨bs, ReadCore.shutdown (h.record rfl)⟩

/-- A run keeps the invariant. -/
theorem run {P : World L → SessionEvent → Prop} {es : List SessionEvent} (h : ReadCycle cfg bs w)
    (hrun : Run World.step (World.SingleRead P) w es w') : ∃ bs', ReadCycle cfg bs' w' :=
  hrun.invariant (I := fun w => ∃ bs, ReadCycle cfg bs w) ⟨bs, h⟩
    fun _ _ _ ⟨_, hI⟩ hok hs => hI.step hok hs

theorem prefix_stream (h : ReadCycle cfg bs w) : bs.flatten <+: w.stream :=
  h.taken.trans (List.prefix_append _ _)

end ReadCycle

/-! ## Server sessions and client sessions -/

namespace ServerSession

variable {sv : Service} {es : List IoEvent} {s : ServerSession}

/-- The invariant holds throughout the runs of a server session. -/
theorem exists_readCycle (h : Run (step sv) always (start cfg) es s) :
    ∃ bs, ReadCycle cfg bs s.world := by
  have hstart : ReadCycle cfg [] (start cfg).world :=
    (readCycle_fresh cfg).doRead (by simp [World.fresh])
  obtain ⟨es', hrun⟩ := exists_run (P := fun _ _ => True) le_rfl h
  exact hstart.run hrun

/-- The read cycles of a server session do not overlap. -/
theorem serial (h : Run (step sv) always (start cfg) es s) : s.world.session.Serial :=
  (List.length_filter_le _ _).trans
    (h.invariant (I := fun s => s.world.session.ops.length ≤ 1) le_rfl
      fun _ _ _ hI _ hs => length_ops_step hI hs)

end ServerSession

namespace ClientSession

variable {ep : Endpoint} {es : List ClientEvent} {s t : ClientSession} {e : ClientEvent}

/-- The step does not make read cycles overlap. -/
def ReadsSerially (ep : Endpoint) (s : ClientSession) (e : ClientEvent) : Prop :=
  ∀ t ∈ step ep s e, t.world.session.Serial

instance (s : ClientSession) (e : ClientEvent) : Decidable (ReadsSerially ep s e) :=
  inferInstanceAs (Decidable (∀ t ∈ step ep s e, t.world.session.Serial))

/-- A session that has not been connected. -/
structure Unconnected (cfg : HttpConfiguration) (w : World L) : Prop where
  cfg_eq : w.session.cfg = cfg
  closed : w.session.isOpen = false
  ops : w.session.ops = []
  buffer : w.session.buffer = []
  taken : w.taken = []
  delivered : w.delivered = []

omit [StartLine L] in
theorem Unconnected.shutdown (h : Unconnected cfg w) : Unconnected cfg (w.call .shutdown) where
  cfg_eq := by simpa [World.call] using h.cfg_eq
  closed := by simp [World.call]
  ops := by simp [World.call, h.ops, h.closed]
  buffer := by simpa [World.call] using h.buffer
  taken := h.taken
  delivered := h.delivered

/-- Nothing is read before the session is connected. -/
theorem Unconnected.io {e : IoEvent} {hook : Option (HookCall L)} (h : Unconnected cfg w)
    (hio : World.Io w e w' hook) :
    Unconnected cfg w' ∧ ∀ c ∈ hook, ∃ ec, c.hook = .error ec := by
  cases hio with
  | arrive | expire | waitOver =>
    exact ⟨⟨h.cfg_eq, h.closed, h.ops, h.buffer, h.taken, h.delivered⟩, by simp⟩
  | @timedOut v =>
    have hdrop : Unconnected cfg (w.dropWait v) :=
      ⟨h.cfg_eq, h.closed, h.ops, h.buffer, h.taken, h.delivered⟩
    have hshut := hdrop.shutdown
    exact ⟨⟨hshut.cfg_eq, hshut.closed, hshut.ops, hshut.buffer, hshut.taken, hshut.delivered⟩,
      by simp⟩
  | recvUntil ho | recvExactly ho | fail ho | sent ho | aborted ho | failed ho | headersRead ho
  | headersParsed ho | bodyRead ho | written ho =>
    rw [h.ops] at ho
    cases ho

theorem Unconnected.step (h : Unconnected cfg s.world) (hs : step ep s e = some t)
    (he : e.isConnect = false) : Unconnected cfg t.world := by
  rcases world_step hs with ⟨e, w, hook, rfl, hio, hw⟩ | ⟨payload, hopen, -⟩ | ⟨-, hw⟩ | hconn | hw
  · -- no operation is under way, so only a timeout calls a hook
    obtain ⟨hw', hhook⟩ := h.io (World.io_cases hio)
    match hook with
    | none => exact hw ▸ hw'
    | some ⟨.error ec, g⟩ => exact hw ▸ hw'.shutdown
    | some ⟨.messageParsed msg, g⟩ | some ⟨.writeComplete, g⟩ =>
      obtain ⟨ec, hec⟩ := hhook _ rfl
      cases hec
  · rw [h.closed] at hopen
    cases hopen
  · rw [hw]
    have hrec : Unconnected cfg (s.world.record (some ⟨.error .invalidArgument, false⟩)) :=
      ⟨h.cfg_eq, h.closed, h.ops, h.buffer, h.taken, h.delivered⟩
    exact hrec.shutdown
  · rw [he] at hconn
    cases hconn
  · rwa [hw]

theorem Unconnected.readCycle (h : Unconnected cfg w) : ReadCycle cfg [] w where
  cfg_eq := h.cfg_eq
  framed := by simpa [h.delivered] using FramedBy.nil
  taken := List.nil_prefix
  id_lt := by simp [h.ops]
  id_inj := by simp [h.ops]
  serial := by simp [h.ops]
  ops := by simp [h.ops]
  idle hopen := by simp [h.closed] at hopen

/-- Connecting starts the first cycle. -/
theorem Unconnected.connect (h : Unconnected cfg s.world)
    (hs : ClientSession.step ep s .connect = some t) : ReadCycle cfg [] t.world := by
  obtain rfl := Option.some.inj hs
  exact h.readCycle.reopen h.buffer rfl rfl rfl h.buffer h.taken h.delivered

/-- The invariant holds throughout the runs of a client session on one
    connection, as long as its read cycles do not overlap. -/
theorem exists_readCycle (h : Run (step ep) (ReadsSerially ep) (create cfg) es s)
    (hes : es.countP ClientEvent.isConnect ≤ 1) : ∃ bs, ReadCycle cfg bs s.world := by
  -- until it is connected, more is true
  suffices (es.countP ClientEvent.isConnect = 0 → Unconnected cfg s.world) ∧
      ∃ bs, ReadCycle cfg bs s.world from this.2
  induction h with
  | nil =>
    have hcreate : Unconnected cfg (create cfg).world := ⟨rfl, rfl, rfl, rfl, rfl, rfl⟩
    exact ⟨fun _ => hcreate, [], hcreate.readCycle⟩
  | @snoc es s t e _ hok hs ih =>
    rw [List.countP_append, List.countP_singleton] at hes ⊢
    obtain ⟨hunconnected, bs, hcycle⟩ := ih (by omega)
    cases he : e.isConnect with
    | false =>
      refine ⟨fun hzero => (hunconnected (by omega)).step hs he, ?_⟩
      obtain ⟨es', hrun⟩ := exists_run_step he (hok t hs) hs
      exact hcycle.run hrun
    | true =>
      rw [he] at hes
      refine ⟨fun hzero => by simp at hzero, [], ?_⟩
      obtain rfl : e = .connect := by
        cases e with
        | connect => rfl
        | _ => cases he
      exact (hunconnected (by simpa using hes)).connect hs

end ClientSession

end Dss.Http
