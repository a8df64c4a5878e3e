import Dss.Http.Codec
import Dss.Lib.Search

/-!
# Where the header block ends

The session looks for the delimiter CR LF CR LF; the parser reads lines, takes
an optional CR off each, and stops at the first blank one. What relates the two:

* the parser stops at the delimiter or before it (`exists_readsBlock`), since
  behind an LF the bytes CR LF are a blank line;
* so a message can be parsed as soon as the delimiter is there: what comes later
  only extends the body (`Message.parse_append`);
* in a header block that ends every line by CR LF and has the delimiter at its
  end only (`HeaderBlock`), the parser stops exactly there
  (`HeaderBlock.parse_append`).

`ReadsBlock` is the run of the parser's loop over the lines, up to the blank one.
-/

namespace Dss.Http

open Dss.Lib Dss.Utils Headers

/-- The delimiter of the header block. -/
def delimiter : Bytes := [cr, lf, cr, lf]

variable {L : Type} [StartLine L] {h h' : Headers} {m : Message L} {a b l r r' s t x y z : Bytes}

/-- The loop of `headers_t::parse` over the lines of `s`, from the headers `h`:
    it ends with the headers `h'` at a blank line, and leaves `r` to read. -/
inductive ReadsBlock : Headers → Bytes → Headers → Bytes → Prop
  | blank {h : Headers} {l r : Bytes} :
      lf ∉ l → chompCr l = [] → ReadsBlock h (l ++ lf :: r) h r
  | line {h h' : Headers} {l r r' : Bytes} :
      lf ∉ l → chompCr l ≠ [] → ReadsBlock (h.parseLine (chompCr l)) r h' r' →
        ReadsBlock h (l ++ lf :: r) h' r'

/-- What follows the block is left to read. -/
theorem ReadsBlock.parseFrom (hb : ReadsBlock h s h' r) (t : Bytes) :
    Headers.parseFrom h (s ++ t) = (h', r ++ t) := by
  induction hb with
  | blank hl hblank =>
    rw [List.append_assoc, List.cons_append, parseFrom_blank hl hblank]
  | line hl hne _ ih =>
    rw [List.append_assoc, List.cons_append, parseFrom_line hl hne, ih]

/-- The block ends with a blank line: behind an LF (that of the line before the
    block, if need be), it is an LF, or CR LF. -/
theorem ReadsBlock.exists_blank (hb : ReadsBlock h s h' r) :
    ∃ x l, (l = [] ∨ l = [cr]) ∧ lf :: s = x ++ lf :: (l ++ lf :: r) := by
  induction hb with
  | blank _ hblank => exact ⟨[], _, chompCr_eq_nil.1 hblank, rfl⟩
  | @line h h' l r r' _ _ _ ih =>
    obtain ⟨x, l', hl', hx⟩ := ih
    exact ⟨lf :: (l ++ x), l', hl', by simp [hx]⟩

/-- Where a blank line lies ahead, the loop ends there or before. -/
theorem readsBlock_of_blank (h : Headers) (hb : b = [] ∨ b = [cr])
    (hs : lf :: s = x ++ lf :: (b ++ lf :: y)) : ∃ h' z, ReadsBlock h s h' (z ++ y) := by
  induction hn : s.length using Nat.strongRecOn generalizing h s x with
  | ind n ih =>
    cases x with
    | nil =>
      -- the blank line comes next
      rw [List.nil_append, List.cons.injEq] at hs
      have hlf : lf ∉ b := by rcases hb with rfl | rfl <;> decide
      exact ⟨h, [], hs.2 ▸ .blank hlf (chompCr_eq_nil.2 hb)⟩
    | cons c x =>
      rw [List.cons_append, List.cons.injEq] at hs
      obtain ⟨-, hs⟩ := hs
      obtain ⟨l, r, hl, rfl⟩ : ∃ l r, lf ∉ l ∧ s = l ++ lf :: r := by
        cases hline : getline s with
        | none => rw [getline_eq_none.1 hline] at hs; simp at hs
        | some p =>
          obtain ⟨hl, hsl | ⟨hsl, -⟩⟩ := getline_eq_some hline
          · exact ⟨p.1, p.2, hl, hsl⟩
          · exact absurd (by simp [← hsl, hs]) hl
      obtain ⟨z, hz⟩ := suffix_of_line hl hs
      by_cases hblank : chompCr l = []
      · -- another blank line comes first
        refine ⟨h, ?_⟩
        cases z with
        | nil =>
          rw [List.nil_append, List.cons.injEq] at hz
          refine ⟨b ++ [lf], ?_⟩
          rw [show b ++ [lf] ++ y = r by rw [hz.2]; simp]
          exact .blank hl hblank
        | cons d z =>
          rw [List.cons_append, List.cons.injEq] at hz
          refine ⟨z ++ lf :: (b ++ [lf]), ?_⟩
          rw [show z ++ lf :: (b ++ [lf]) ++ y = r by rw [hz.2]; simp]
          exact .blank hl hblank
      · -- the line is read, and the LF at its end is now the one in front
        obtain ⟨h', z', hread⟩ := ih r.length (by simp [← hn]; omega) _ hz rfl
        exact ⟨h', z', .line hl hblank hread⟩

/-! ## Messages -/

/-- The message with more bytes of its body. -/
def Message.append (m : Message L) (t : Bytes) : Message L := { m with body := m.body ++ t }

omit [StartLine L] in
@[simp] theorem Message.append_append (m : Message L) (s t : Bytes) :
    (m.append s).append t = m.append (s ++ t) := by
  simp [append]

omit [StartLine L] in
@[simp] theorem Message.append_nil (m : Message L) : m.append [] = m := by
  simp [append]

/-- A message read up to its delimiter: the first line and the block of headers,
    which ends at the delimiter or before. -/
theorem exists_readsBlock (hs : s = a ++ delimiter ++ y) (hp : Message.parse s = .ok m) :
    ∃ l r z, lf ∉ l ∧ s = l ++ lf :: r ∧ StartLine.ofLine (chompCr l) = .ok m.line ∧
      ReadsBlock ∅ r m.headers m.body ∧ m.body = z ++ y := by
  obtain ⟨r, hline, hheaders⟩ := Message.parse_eq_ok hp
  obtain ⟨l, hget, hof⟩ := StartLine.parse_eq_ok hline
  have hlf : s = (a ++ [cr]) ++ lf :: cr :: lf :: y := by simp [hs, delimiter]
  obtain ⟨hl, hsl | ⟨hsl, -⟩⟩ := getline_eq_some hget
  · obtain ⟨x, hx⟩ := suffix_of_line hl (hsl ▸ hlf)
    obtain ⟨h', z, hb⟩ := readsBlock_of_blank (b := [cr]) ∅ (.inr rfl) hx
    have := hb.parseFrom []
    rw [List.append_nil, List.append_nil, ← Headers.parse, hheaders, Prod.mk.injEq] at this
    exact ⟨l, r, z, hl, hsl, hof, by rw [this.1, this.2]; exact hb, this.2⟩
  · exact absurd (by simp [← hsl, hlf]) hl

theorem parse_of_readsBlock {line : L} (hl : lf ∉ l) (hof : StartLine.ofLine (chompCr l) = .ok line)
    (hb : ReadsBlock ∅ r h s) (t : Bytes) :
    Message.parse (l ++ lf :: r ++ t) = .ok ⟨line, h, s ++ t⟩ := by
  have hline : StartLine.parse (l ++ lf :: r ++ t) = .ok (line, r ++ t) := by
    rw [StartLine.parse, List.append_assoc, List.cons_append, getline_append hl]
    simp only [hof]
    rfl
  rw [Message.parse_of_startLine hline, Headers.parse, hb.parseFrom]

/-- Once the delimiter is there, more bytes only extend the body. -/
theorem Message.parse_append (hs : s = a ++ delimiter ++ y) (hp : Message.parse s = .ok m)
    (t : Bytes) : Message.parse (s ++ t) = .ok (m.append t) := by
  obtain ⟨l, r, _, hl, rfl, hof, hb, -⟩ := exists_readsBlock hs hp
  exact parse_of_readsBlock hl hof hb t

/-- A first line that cannot be read cannot be read when more bytes follow. -/
theorem Message.parse_append_error {e : HttpError} (hs : s = a ++ delimiter ++ y)
    (hp : Message.parse (L := L) s = .error e) (t : Bytes) :
    Message.parse (L := L) (s ++ t) = .error e := by
  have hlf : s = (a ++ [cr]) ++ lf :: cr :: lf :: y := by simp [hs, delimiter]
  cases hline : getline s with
  | none => rw [getline_eq_none.1 hline] at hlf; simp at hlf
  | some p =>
    obtain ⟨hl, hsl | ⟨hsl, -⟩⟩ := getline_eq_some hline
    · have hline' := getline_append_of_lf (hsl ▸ hline) t
      rw [← hsl] at hline'
      simp only [Message.parse, StartLine.parse, hline] at hp
      simp only [Message.parse, StartLine.parse, hline']
      cases hof : StartLine.ofLine (L := L) (chompCr p.1) with
      | error e' => rw [hof] at hp; exact hp
      | ok l => rw [hof] at hp; cases hp
    · exact absurd (by simp [← hsl, hlf]) hl

/-! ## Well-formed header blocks -/

/-- A header block: every LF ends a line as part of CR LF, and the delimiter is
    at its end, and only there. -/
structure HeaderBlock (h : Bytes) : Prop where
  no_bare_lf : ∀ a b, h = a ++ lf :: b → ∃ a', a = a' ++ [cr]
  ends : ∃ a, h = a ++ delimiter
  only : ∀ a b, h = a ++ delimiter ++ b → b = []

variable {hdr : Bytes}

theorem HeaderBlock.four_le_length (hh : HeaderBlock hdr) : 4 ≤ hdr.length := by
  obtain ⟨a, rfl⟩ := hh.ends
  simp [delimiter]

/-- The delimiter is found at the end of the block, whatever follows. -/
theorem HeaderBlock.search_append (hh : HeaderBlock hdr) (t : Bytes) :
    search delimiter (hdr ++ t) = some (hdr.length - 4) := by
  obtain ⟨a, ha⟩ := hh.ends
  obtain ⟨i, hi, hs⟩ := search_le delimiter a []
  rw [List.append_nil, ← ha] at hs
  obtain ⟨a', b, hab, rfl⟩ := search_eq_some hs
  have hlen := congrArg List.length hab
  rw [hh.only a' b hab, List.append_nil, List.length_append] at hlen
  rw [Lib.search_append hs, hlen]
  rfl

/-- A part of the block that lacks bytes at the end does not contain the
    delimiter. -/
theorem HeaderBlock.search_isPrefix (hh : HeaderBlock hdr) (hx : hdr = x ++ y) (hy : y ≠ []) :
    search delimiter x = none := by
  refine search_eq_none_iff.2 fun ⟨a, b, hab⟩ => hy ?_
  have := hh.only a (b ++ y) (by rw [hx, hab]; simp)
  exact (List.append_eq_nil_iff.1 this).2

/-- The parser stops where the block ends. -/
theorem HeaderBlock.body_eq (hh : HeaderBlock hdr) (hp : Message.parse (hdr ++ t) = .ok m) :
    m.body = t := by
  obtain ⟨a, ha⟩ := hh.ends
  obtain ⟨l, r, z, hl, hs, -, hb, hz⟩ := exists_readsBlock (by rw [ha]) hp
  obtain ⟨x, c, hc, hx⟩ := hb.exists_blank
  -- the blank line lies inside the block, and only its end can be one
  have hblock : hdr ++ t = (l ++ x) ++ lf :: (c ++ lf :: (z ++ t)) := by
    rw [hs, hx, hz, List.append_assoc]
  have hhdr : hdr = (l ++ x) ++ lf :: (c ++ lf :: z) := by
    have : hdr ++ t = ((l ++ x) ++ lf :: (c ++ lf :: z)) ++ t := by simp [hblock]
    exact List.append_cancel_right this
  suffices z = [] by rw [hz, this, List.nil_append]
  rcases hc with rfl | rfl
  · -- no LF follows another one, as it would not end a line by CR LF
    obtain ⟨d, hd⟩ := hh.no_bare_lf ((l ++ x) ++ [lf]) z (by simp [hhdr])
    have := congrArg List.getLast? hd
    simp [cr, lf] at this
  · obtain ⟨d, hd⟩ := hh.no_bare_lf (l ++ x) ([cr] ++ lf :: z) hhdr
    exact hh.only d z (by rw [hhdr, hd]; simp [delimiter])

/-- A block read as the header of a message is so whatever body follows. -/
theorem HeaderBlock.parse_append (hh : HeaderBlock hdr) (hp : Message.parse (hdr ++ s) = .ok m)
    (t : Bytes) : Message.parse (hdr ++ t) = .ok { m with body := t } := by
  obtain ⟨a, ha⟩ := hh.ends
  have ha' : hdr = a ++ delimiter ++ [] := by rw [ha, List.append_nil]
  cases hp' : Message.parse (L := L) hdr with
  | error e =>
    rw [Message.parse_append_error ha' hp' s] at hp
    cases hp
  | ok m' =>
    have hnil : m'.body = [] := by
      have := hh.body_eq (t := []) (by rwa [List.append_nil])
      exact this
    have happ := Message.parse_append ha' hp'
    rw [happ s, Except.ok.injEq] at hp
    rw [happ t, ← hp, Message.append, Message.append, hnil, List.nil_append]

/-- What makes a header block, to be computed. -/
theorem headerBlock_iff : HeaderBlock hdr ↔
    (∀ i < hdr.length, hdr[i]? = some lf → 0 < i ∧ hdr[i - 1]? = some cr) ∧
      4 ≤ hdr.length ∧ search delimiter hdr = some (hdr.length - 4) := by
  constructor
  · intro hh
    refine ⟨fun i hi hlf => ?_, hh.four_le_length, by simpa using hh.search_append []⟩
    rw [List.getElem?_eq_getElem hi, Option.some.injEq] at hlf
    obtain ⟨a', ha'⟩ := hh.no_bare_lf (hdr.take i) (hdr.drop (i + 1)) (by
      rw [← hlf, List.getElem_cons_drop, List.take_append_drop])
    have hlen := congrArg List.length ha'
    rw [List.length_take_of_le hi.le, List.length_append, List.length_singleton] at hlen
    refine ⟨by omega, ?_⟩
    rw [← List.take_append_drop i hdr, ha', hlen]
    simp
  · rintro ⟨hlf, hlen, hs⟩
    obtain ⟨⟨a, b, hab, ha⟩, hmin⟩ := search_eq_some_iff.1 hs
    have hdelim : delimiter.length = 4 := rfl
    -- the first delimiter is found at the end, so there is no other
    refine ⟨fun x y hxy => ?_, ⟨a, ?_⟩, fun x y hxy => ?_⟩
    · obtain ⟨hpos, hcr⟩ := hlf x.length (by simp [hxy]) (by simp [hxy])
      have hne : x ≠ [] := List.ne_nil_of_length_pos hpos
      rw [hxy, List.getElem?_append_left (by omega), ← List.getLast?_eq_getElem?] at hcr
      exact List.getLast?_eq_some_iff.1 hcr
    · have := congrArg List.length hab
      simp only [List.length_append] at this
      rw [List.eq_nil_of_length_eq_zero (l := b) (by omega), List.append_nil] at hab
      exact hab
    · have := hmin x y hxy
      have hlen' := congrArg List.length hxy
      simp only [List.length_append] at hlen'
      exact List.eq_nil_of_length_eq_zero (by omega)

instance : Decidable (HeaderBlock hdr) := decidable_of_iff _ headerBlock_iff.symm

end Dss.Http
