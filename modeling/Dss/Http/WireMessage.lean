import Dss.Http.ReadCycle

/-!
# Messages on the wire

A peer that speaks HTTP sends a header block, and then as many bytes as its
`Content-Length` says (`WireMessage`). Such a stream can be cut into messages in
one way only, so what the read cycle guarantees for every stream (`FramedBy`)
determines the messages delivered: they are, in order, the messages sent, as long
as the session accepts them (`FramedBy.served`).
-/

namespace Dss.Http

open Dss.Lib

/-- The bytes of a message: a header block, and a body. -/
structure WireMessage where
  header : Bytes
  body : Bytes
  deriving DecidableEq, Repr

namespace WireMessage

variable {L : Type} [StartLine L]

def bytes (p : WireMessage) : Bytes := p.header ++ p.body

/-- The bytes of messages sent one after the other. -/
def stream (ps : List WireMessage) : Bytes := ps.flatMap bytes

@[simp] theorem stream_nil : stream [] = [] := rfl

@[simp] theorem stream_cons (p : WireMessage) (ps : List WireMessage) :
    stream (p :: ps) = p.bytes ++ stream ps := rfl

@[simp] theorem stream_append (ps qs : List WireMessage) :
    stream (ps ++ qs) = stream ps ++ stream qs := List.flatMap_append

/-- The header is a header block, and the body has the length it announces, if it
    announces one. -/
structure WellFormed (L : Type) [StartLine L] (p : WireMessage) : Prop where
  block : HeaderBlock p.header
  length : ∀ (m : Message L) n, Message.parse p.bytes = .ok m →
    m.headers.contentLength = .ok n → p.body.length = n

/-- What makes a message well-formed, to be computed. -/
theorem wellFormed_iff {p : WireMessage} : p.WellFormed L ↔ HeaderBlock p.header ∧
    ∀ m ∈ (Message.parse (L := L) p.bytes).toOption, ∀ n ∈ m.headers.contentLength.toOption,
      p.body.length = n := by
  have hmem : ∀ {ε α : Type} {x : Except ε α} {a : α}, a ∈ x.toOption ↔ x = .ok a := by
    intro ε α x a
    cases x <;> simp [Except.toOption]
  simp only [hmem]
  exact ⟨fun h => ⟨h.block, fun m hm n hn => h.length m n hm hn⟩,
    fun h => ⟨h.1, fun m n hm hn => h.2 m hm n hn⟩⟩

instance (p : WireMessage) : Decidable (p.WellFormed L) := decidable_of_iff _ wellFormed_iff.symm

/-- The message, if it can be parsed, announces its length, and is within the
    limits. -/
def accept (cfg : HttpConfiguration) (p : WireMessage) : Option (Message L) :=
  match Message.parse p.bytes with
  | .error _ => none
  | .ok m =>
    match m.headers.contentLength with
    | .error _ => none
    | .ok n => if p.header.length ≤ cfg.maxHeaderSize ∧ n ≤ cfg.maxBodySize then some m else none

/-- The messages up to the first one that is not accepted. -/
def served (cfg : HttpConfiguration) : List WireMessage → List (Message L)
  | [] => []
  | p :: ps =>
    match p.accept cfg with
    | none => []
    | some m => m :: served cfg ps

variable {cfg : HttpConfiguration} {p : WireMessage} {ps qs : List WireMessage} {m : Message L}
  {b t : Bytes} {bs : List Bytes} {j : ℕ}

theorem accept_eq_some : p.accept cfg = some m ↔ Message.parse p.bytes = .ok m ∧
    p.header.length ≤ cfg.maxHeaderSize ∧
    ∃ n, m.headers.contentLength = .ok n ∧ n ≤ cfg.maxBodySize := by
  rw [accept]
  constructor
  · intro h
    split at h
    next => cases h
    next m' hp =>
      split at h
      next => cases h
      next n hn =>
        split at h
        next hle =>
          obtain rfl := Option.some.inj h
          exact ⟨hp, hle.1, n, hn, hle.2⟩
        next => cases h
  · rintro ⟨hp, hle, n, hn, hn'⟩
    simp [hp, hn, hle, hn']

/-- The next message served is the next one, if it is accepted. -/
theorem getElem?_served (hj : j ≤ (served (L := L) cfg ps).length) :
    (served (L := L) cfg ps)[j]? = ps[j]?.bind (accept cfg) := by
  induction ps generalizing j with
  | nil => rfl
  | cons p ps ih =>
    rw [served] at hj ⊢
    cases hp : p.accept (L := L) cfg with
    | none =>
      rw [hp] at hj
      obtain rfl := Nat.le_zero.1 hj
      simp [hp]
    | some m =>
      rw [hp] at hj
      cases j with
      | zero => simp [hp]
      | succ j => simpa using ih (Nat.le_of_succ_le_succ hj)

theorem length_served_le : (served (L := L) cfg ps).length ≤ ps.length := by
  induction ps with
  | nil => exact le_rfl
  | cons p ps ih =>
    rw [served]
    split
    next => simp
    next => simpa using ih

/-! ## Cutting the stream -/

/-- What lies behind the header block on the stream, once the delimiter has been
    found in a part `b` of it. -/
theorem WellFormed.exists_append (hp : p.WellFormed L) (hb : b <+: p.bytes ++ t)
    (hdelim : search delimiter b ≠ none) : ∃ y, b = p.header ++ y ∧ y <+: p.body ++ t := by
  rw [bytes, List.append_assoc] at hb
  rcases List.prefix_or_prefix_of_prefix hb (List.prefix_append p.header _) with h | h
  · obtain ⟨y, hy⟩ := h
    cases y with
    | nil =>
      rw [List.append_nil] at hy
      exact ⟨[], by simp [hy], List.nil_prefix⟩
    | cons c y => exact absurd (hp.block.search_isPrefix hy.symm (by simp)) hdelim
  · obtain ⟨y, rfl⟩ := h
    exact ⟨y, rfl, (List.prefix_append_right_inj _).1 hb⟩

/-- What has been found to be a message at the front of the stream is the first
    message of the stream. -/
theorem WellFormed.eq_of_framed (hp : p.WellFormed L) (hb : b <+: p.bytes ++ t)
    (hf : Framed cfg b m) : b = p.bytes ∧ p.accept cfg = some m := by
  obtain ⟨i, hi, hle⟩ := hf.delim
  obtain ⟨y, rfl, hy⟩ := hp.exists_append hb (by simp [hi])
  obtain rfl := hp.block.body_eq hf.parse
  have hparse := hp.block.parse_append hf.parse p.body
  have hlen := hp.length _ _ hparse hf.length
  have hbody : m.body = p.body :=
    (List.prefix_of_prefix_length_le hy (List.prefix_append _ _) hlen.ge).eq_of_length hlen.symm
  have hbytes : p.header ++ m.body = p.bytes := by rw [hbody, bytes]
  refine ⟨hbytes, accept_eq_some.2 ⟨hbytes ▸ hf.parse, ?_, _, hf.length, hf.length_le⟩⟩
  rw [hp.block.search_append, Option.some.injEq] at hi
  omega

theorem stream_take_append_drop (j : ℕ) (ps : List WireMessage) :
    stream (ps.take j) ++ stream (ps.drop j) = stream ps := by
  rw [← stream_append, List.take_append_drop]

theorem take_succ_of_drop (h : ps.drop j = p :: qs) : ps.take (j + 1) = ps.take j ++ [p] := by
  have hp : ps[j]? = some p := by rw [← List.head?_drop, h, List.head?_cons]
  rw [List.take_add_one, hp, Option.toList_some]

/-- The messages delivered are those sent, as long as they are accepted. -/
theorem served_of_framedBy (hps : ∀ p ∈ ps, p.WellFormed L) {ds : List (Delivery L)}
    (h : FramedBy cfg bs ds) (hbs : bs.flatten <+: stream ps) :
    bs.flatten = stream (ps.take ds.length) ∧
      ds.map (·.msg) = (served cfg ps).take ds.length ∧
      ds.length ≤ (served (L := L) cfg ps).length := by
  induction h with
  | nil => exact ⟨rfl, rfl, Nat.zero_le _⟩
  | @snoc bs ds b d _ hf _ _ ih =>
    rw [List.flatten_append, List.flatten_singleton] at hbs ⊢
    obtain ⟨htake, hmsgs, hle⟩ := ih ((List.prefix_append _ _).trans hbs)
    rw [htake, ← stream_take_append_drop ds.length ps, List.prefix_append_right_inj] at hbs
    -- the bytes of the message are at the front of what is left of the stream
    cases hdrop : ps.drop ds.length with
    | nil =>
      rw [hdrop] at hbs
      obtain rfl : b = [] := List.prefix_nil.1 hbs
      obtain ⟨i, hi, -⟩ := hf.delim
      exact absurd hi (by rw [show search delimiter ([] : Bytes) = none by decide]; simp)
    | cons p qs =>
      have hp : ps[ds.length]? = some p := by rw [← List.head?_drop, hdrop, List.head?_cons]
      rw [hdrop] at hbs
      obtain ⟨rfl, hacc⟩ := (hps p (List.mem_of_getElem? hp)).eq_of_framed hbs hf
      have hnext : (served (L := L) cfg ps)[ds.length]? = some d.msg := by
        rw [getElem?_served hle, hp, Option.bind_some, hacc]
      refine ⟨?_, ?_, ?_⟩
      · rw [List.length_append, List.length_singleton, take_succ_of_drop hdrop, htake]
        simp [stream]
      · rw [List.map_append, hmsgs, List.length_append, List.length_singleton, List.take_add_one,
          hnext]
        rfl
      · obtain ⟨hlt, -⟩ := List.getElem?_eq_some_iff.1 hnext
        simpa using hlt

end WireMessage

end Dss.Http
