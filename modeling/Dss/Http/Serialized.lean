import Dss.Http.ContentLength
import Dss.Http.WireMessage

/-!
# Serialized messages on the wire

What the serializers write is the bytes of a well-formed message: lines, each
ended by CR LF, a blank line, and the body (`Request.wellFormed_wire`,
`Response.wellFormed_wire`). So the session that reads it finds the end of its
header and of its body, whatever is written behind it.
-/

namespace Dss.Http

open Dss.Lib Dss.Utils Headers

/-! ## Blocks of lines -/

/-- Lines that are not empty, each ended by CR LF. -/
inductive Lines : Bytes → Prop
  | nil : Lines []
  | cons {l b : Bytes} : l ≠ [] → lf ∉ l → Lines b → Lines (l ++ crlf ++ b)

variable {b b' k v l x y : Bytes}

theorem Lines.single (hne : l ≠ []) (hl : lf ∉ l) : Lines (l ++ crlf) := by
  simpa using Lines.cons hne hl .nil

theorem Lines.append (hb : Lines b) (hb' : Lines b') : Lines (b ++ b') := by
  induction hb with
  | nil => exact hb'
  | cons hne hl _ ih =>
    rw [List.append_assoc]
    exact .cons hne hl ih

theorem Lines.ite {c : Prop} [Decidable c] (hb : Lines b) : Lines (if c then b else []) := by
  split
  · exact hb
  · exact .nil

theorem lines_fieldLine (hk : lf ∉ k) (hv : lf ∉ v) : Lines (fieldLine k v) := by
  refine .single (by simp [show ascii ": " = [colon, 32] from rfl]) ?_
  rw [List.mem_append, List.mem_append]
  rintro ((h | h) | h)
  exacts [hk h, absurd h (by decide), hv h]

theorem lines_flatMap {es : List (Σ _ : Bytes, Bytes)} (hes : ∀ e ∈ es, lf ∉ e.1 ∧ lf ∉ e.2) :
    Lines (fieldLines es) := by
  induction es with
  | nil => exact .nil
  | cons e es ih =>
    obtain ⟨hk, hv⟩ := hes e List.mem_cons_self
    exact (lines_fieldLine hk hv).append (ih fun e he => hes e (List.mem_cons_of_mem _ he))

theorem lines_fieldLines {h : Headers} (hs : Stored h) (o : IterationOrder Bytes Bytes) :
    Lines (fieldLines (o.entries h)) :=
  lines_flatMap fun _ he =>
    let ⟨hk, hv⟩ := hs _ _ (o.mem_entries.1 he)
    ⟨hk.no_lf, hv.no_lf⟩

/-- Every LF of the block is that of a CR LF. -/
theorem Lines.no_bare_lf (hb : Lines b) (h : b ++ crlf = x ++ lf :: y) :
    ∃ x', x = x' ++ [cr] := by
  induction hb generalizing x with
  | nil =>
    -- the blank line
    match x with
    | [] => cases h
    | [c] => exact ⟨[], by cases h; rfl⟩
    | _ :: _ :: _ => simp [crlf] at h
  | @cons l b _ hl _ ih =>
    have hlf : lf ∉ l ++ [cr] := by simpa [hl] using cr_ne_lf.symm
    have hsplit : (l ++ [cr]) ++ lf :: (b ++ crlf) = x ++ lf :: y := by simpa [crlf] using h
    obtain ⟨z, hz⟩ := suffix_of_line hlf hsplit
    obtain rfl : (l ++ [cr]) ++ z = x := by
      rw [hz, ← List.append_assoc] at hsplit
      exact List.append_cancel_right hsplit
    cases z with
    | nil => exact ⟨l, by simp⟩
    | cons c z =>
      -- it is in one of the lines that follow
      rw [List.cons_append, List.cons.injEq] at hz
      obtain ⟨x', rfl⟩ := ih hz.2
      exact ⟨l ++ [cr] ++ c :: x', by simp⟩

/-- The only blank line is the one at the end. -/
theorem Lines.only (hb : Lines b) (h : b ++ crlf = x ++ delimiter ++ y) : y = [] := by
  induction hb generalizing x with
  | nil =>
    have := congrArg List.length h
    simp only [List.length_append, List.length_nil, crlf, delimiter, List.length_cons] at this
    omega
  | @cons l b _ hl hb ih =>
    have hlf : lf ∉ l ++ [cr] := by simpa [hl] using cr_ne_lf.symm
    have hsplit : (l ++ [cr]) ++ lf :: (b ++ crlf) = (x ++ [cr]) ++ lf :: (cr :: lf :: y) := by
      simpa [crlf, delimiter] using h
    obtain ⟨z, hz⟩ := suffix_of_line hlf hsplit
    cases z with
    | cons c z =>
      rw [List.cons_append, List.cons.injEq] at hz
      obtain ⟨x', rfl⟩ := hb.no_bare_lf hz.2
      exact ih (x := x') (by rw [hz.2]; simp [delimiter])
    | nil =>
      -- the line that follows is blank, so it is the end of the block
      rw [List.nil_append, List.cons.injEq] at hz
      obtain ⟨-, hz⟩ := hz
      cases hb with
      | nil => simpa [crlf] using hz.symm
      | @cons l b hne hl =>
        cases l with
        | nil => exact absurd rfl hne
        | cons c l =>
          cases l with
          | nil =>
            have := congrArg (·[1]?) hz
            simp [crlf, cr, lf] at this
          | cons d l =>
            simp only [List.cons_append, List.cons.injEq] at hz
            exact absurd (by simp [hz.2.1]) hl

/-- Lines and a blank line are a header block. -/
theorem Lines.headerBlock (hb : Lines b) (hne : b ≠ []) : HeaderBlock (b ++ crlf) where
  no_bare_lf _ _ := hb.no_bare_lf
  ends := by
    have hends : ∀ {b : Bytes}, Lines b → b ≠ [] → ∃ a, b = a ++ crlf := by
      intro b hb hne
      induction hb with
      | nil => exact absurd rfl hne
      | @cons l b _ _ _ ih =>
        by_cases hb : b = []
        · exact ⟨l, by simp [hb]⟩
        · obtain ⟨a, ha⟩ := ih hb
          exact ⟨l ++ crlf ++ a, by simp [ha]⟩
    obtain ⟨a, rfl⟩ := hends hb hne
    exact ⟨a, by simp [crlf, delimiter]⟩
  only _ _ := hb.only

/-! ## Messages -/

/-- The bytes `payload` with the body `body` at their end, cut in front of it. -/
def WireMessage.ofPayload (payload body : Bytes) : WireMessage :=
  ⟨payload.take (payload.length - body.length), body⟩

theorem WireMessage.ofPayload_append (header body : Bytes) :
    ofPayload (header ++ body) body = ⟨header, body⟩ := by
  simp [ofPayload]

/-- What a request is on the wire. -/
def Request.wire (o : IterationOrder Bytes Bytes) (q : Request) : WireMessage :=
  .ofPayload (q.serialize o) q.body

/-- What a response is on the wire. -/
def Response.wire (o : IterationOrder Bytes Bytes) (r : Response) : WireMessage :=
  .ofPayload (r.serialize o) r.body

/-- A message is the lines of its header, a blank line and its body. -/
theorem WireMessage.exists_lines {payload body : Bytes} (hb : Lines b) (hne : b ≠ [])
    (h : payload = b ++ crlf ++ body) :
    HeaderBlock (ofPayload payload body).header ∧ (ofPayload payload body).bytes = payload := by
  rw [h, ofPayload_append]
  exact ⟨hb.headerBlock hne, rfl⟩

namespace Request

variable {q : Request} {o : IterationOrder Bytes Bytes}

theorem headerBlock_wire (hq : q.Encodable) (o : IterationOrder Bytes Bytes) :
    HeaderBlock (q.wire o).header ∧ (q.wire o).bytes = q.serialize o := by
  have hm := isWord_methodToString q.line.methodType
  have hfirst : Lines (methodToString q.line.methodType ++ ascii " " ++ q.line.path ++ ascii " "
      ++ q.line.version ++ crlf) := by
    refine .single (by simp [show ascii " " = [32] from rfl]) ?_
    simp only [List.mem_append, hm.lf_not_mem, hq.path.lf_not_mem, hq.version.lf_not_mem]
    decide
  refine WireMessage.exists_lines (((hfirst.append (lines_fieldLines hq.headers o)).append
    (.ite (lines_fieldLine ?_ ?_))).append (.ite (lines_fieldLine ?_ ?_))) (by simp [crlf]) rfl
  · decide
  · decide
  · decide
  · exact (isWord_decimal _).lf_not_mem

/-- The length a request is read back with, if it is in range, is that of its body. -/
def AnnouncesBody (q : Request) : Prop :=
  ∀ n, q.withDefaults.contentLength = .ok n → q.body.length = n

/-- A request that does not set the length of its body announces it. -/
theorem announcesBody_of_not_mem (hnone : contentLengthKey ∉ q.headers) : q.AnnouncesBody := by
  intro n hn
  have hlookup := q.lookup_withDefaults contentLengthKey
  rw [Finmap.lookup_eq_none.2 hnone, Option.none_or, defaultHeader, if_neg (by decide)] at hlookup
  rcases contentLength_eq_ok.1 hn with ⟨hv, rfl⟩ | ⟨v, hv, hread⟩
  · by_contra hbody
    rw [if_pos ⟨rfl, List.ne_nil_of_length_pos (Nat.pos_of_ne_zero hbody)⟩, hv] at hlookup
    cases hlookup
  · split at hlookup
    next =>
      rw [hv, Option.some.injEq] at hlookup
      have hval := (fromChars_eq_some_nil.1 hread).2.2.1
      rwa [hlookup, digitsValue_decimal] at hval
    next =>
      rw [hv] at hlookup
      cases hlookup

theorem wellFormed_wire (hq : q.Encodable) (hbody : q.AnnouncesBody)
    (o : IterationOrder Bytes Bytes) : (q.wire o).WellFormed RequestLine where
  block := (headerBlock_wire hq o).1
  length m n hm hn := by
    rw [(headerBlock_wire hq o).2] at hm
    obtain rfl := Except.ok.inj (hm.symm.trans (parse_serialize hq o))
    exact hbody n hn

end Request

namespace Response

variable {r : Response} {o : IterationOrder Bytes Bytes}

theorem headerBlock_wire (hr : r.Encodable) (o : IterationOrder Bytes Bytes) :
    HeaderBlock (r.wire o).header ∧ (r.wire o).bytes = r.serialize o := by
  have hfirst : Lines (r.line.version ++ ascii " " ++ decimal r.line.statusCode.toUnderlying.toNat
      ++ ascii " " ++ statusTextFor r.line.statusCode ++ crlf) :=
    .single (by simp [show ascii " " = [32] from rfl]) (lf_not_mem_statusLine hr.version.lf_not_mem)
  refine WireMessage.exists_lines (((hfirst.append (lines_fieldLines hr.headers o)).append
    (.ite (lines_fieldLine ?_ ?_))).append (.ite (lines_fieldLine ?_ ?_))) (by simp [crlf]) rfl
  · decide
  · exact (isWord_decimal _).lf_not_mem
  · decide
  · decide

/-- The length written last is that of the body, whatever the headers say. -/
theorem wellFormed_wire (hr : r.Encodable) (o : IterationOrder Bytes Bytes) :
    (r.wire o).WellFormed StatusLine where
  block := (headerBlock_wire hr o).1
  length m n hm hn := by
    rw [(headerBlock_wire hr o).2] at hm
    obtain rfl := Except.ok.inj (hm.symm.trans (parse_serialize hr o))
    have hlookup : r.readBackHeaders.lookup contentLengthKey = some (decimal r.body.length) := by
      rw [lookup_readBackHeaders]
      rfl
    rcases contentLength_eq_ok.1 hn with ⟨hv, -⟩ | ⟨v, hv, hread⟩
    · rw [hlookup] at hv
      cases hv
    · rw [hlookup, Option.some.injEq] at hv
      have hval := (fromChars_eq_some_nil.1 hread).2.2.1
      rwa [← hv, digitsValue_decimal] at hval

end Response

end Dss.Http
