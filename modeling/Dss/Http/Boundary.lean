import Dss.Http.Framing

/-!
# Two rules for where the header block ends

The session takes the header block to end behind the first CR LF CR LF
(`headerSize`, the "exact header size" it compares with `max_header_size`); the
parser lets it end behind the first blank line, and a line may also end by a lone
LF. The two agree on a message exactly if no blank line comes to its end before the
delimiter does (`endsAt_headerSize_iff`): the parser never goes on behind the
delimiter, and it stops before it at such a line only.
-/

namespace Dss.Http

open Dss.Lib Headers

/-- `header_size` of `on_headers_read`. -/
def headerSize (s : Bytes) : Option ℕ := (search delimiter s).map (· + 4)

/-- A body read from the stream `s` begins behind its first `n` bytes: as many are
    consumed for what comes before it. -/
structure EndsAt (s body : Bytes) (n : ℕ) : Prop where
  consumed : n + body.length = s.length
  body_eq : body = s.drop n

/-- A blank line (an LF or CR LF behind an LF) comes to its end within less than `n`
    bytes. -/
def BlankBefore (s : Bytes) (n : ℕ) : Prop :=
  ∃ x b y, s = x ++ lf :: (b ++ lf :: y) ∧ (b = [] ∨ b = [cr]) ∧
    (x ++ lf :: (b ++ [lf])).length < n

variable {L : Type} [StartLine L] {m : Message L} {s b x y : Bytes} {n : ℕ}

theorem headerSize_eq_some (hn : headerSize s = some n) :
    ∃ a y, s = a ++ delimiter ++ y ∧ (a ++ delimiter).length = n := by
  obtain ⟨d, hd, rfl⟩ := Option.map_eq_some_iff.1 hn
  obtain ⟨a, y, hs, rfl⟩ := search_eq_some hd
  exact ⟨a, y, hs, by simp [delimiter]⟩

/-- The parser does not go on behind a blank line. -/
theorem exists_body_of_blank (hn : headerSize s = some n) (hp : Message.parse s = .ok m)
    (hb : b = [] ∨ b = [cr]) (hs : s = x ++ lf :: (b ++ lf :: y)) : ∃ z, m.body = z ++ y := by
  obtain ⟨a, t, ha, -⟩ := headerSize_eq_some hn
  obtain ⟨l, r, _, hl, hlr, -, hread, -⟩ := exists_readsBlock ha hp
  obtain ⟨x', hx'⟩ := suffix_of_line hl (hlr ▸ hs)
  obtain ⟨h', z, hread'⟩ := readsBlock_of_blank ∅ hb hx'
  have heq := (hread.parseFrom []).symm.trans (hread'.parseFrom [])
  rw [List.append_nil, List.append_nil, Prod.mk.injEq] at heq
  exact ⟨z, heq.2⟩

/-- It stops at one. -/
theorem exists_blank_of_parse (hn : headerSize s = some n) (hp : Message.parse s = .ok m) :
    ∃ x b, (b = [] ∨ b = [cr]) ∧ s = x ++ lf :: (b ++ lf :: m.body) := by
  obtain ⟨a, t, ha, -⟩ := headerSize_eq_some hn
  obtain ⟨l, r, _, -, hlr, -, hread, -⟩ := exists_readsBlock ha hp
  obtain ⟨x, b, hb, hx⟩ := hread.exists_blank
  exact ⟨l ++ x, b, hb, by rw [hlr, hx, List.append_assoc]⟩

/-- The delimiter ends with a blank line, so that the parser reads the bytes behind it
    into the body. -/
theorem length_le_of_parse (hn : headerSize s = some n) (hp : Message.parse s = .ok m) :
    s.length ≤ n + m.body.length := by
  obtain ⟨a, y, hs, rfl⟩ := headerSize_eq_some hn
  have hblank : s = (a ++ [cr]) ++ lf :: ([cr] ++ lf :: y) := by simp [hs, delimiter]
  obtain ⟨z, hz⟩ := exists_body_of_blank hn hp (.inr rfl) hblank
  have hbody : m.body.length = z.length + y.length := by rw [hz, List.length_append]
  rw [hs, List.length_append, hbody]
  omega

/-- The session and the parser agree exactly if no blank line comes before the end of
    the delimiter. -/
theorem endsAt_headerSize_iff (hn : headerSize s = some n) (hp : Message.parse s = .ok m) :
    EndsAt s m.body n ↔ ¬BlankBefore s n := by
  have hle := length_le_of_parse hn hp
  constructor
  · rintro ⟨hlen, -⟩ ⟨x, b, y, hs, hb, hlt⟩
    obtain ⟨z, hz⟩ := exists_body_of_blank hn hp hb hs
    have hbody := congrArg List.length hz
    have := congrArg List.length hs
    simp only [List.length_append, List.length_cons, List.length_nil] at this hbody hlt
    omega
  · intro hblank
    obtain ⟨x, b, hb, hs⟩ := exists_blank_of_parse hn hp
    have hx : s = (x ++ lf :: (b ++ [lf])) ++ m.body := by
      rw [List.append_assoc, List.cons_append, List.append_assoc]
      exact hs
    have hlen : n ≤ (x ++ lf :: (b ++ [lf])).length :=
      not_lt.1 fun hlt => hblank ⟨x, b, m.body, hs, hb, hlt⟩
    have hsum := congrArg List.length hx
    rw [List.length_append] at hsum
    obtain rfl : n = (x ++ lf :: (b ++ [lf])).length := by omega
    refine ⟨hsum.symm, ?_⟩
    conv_rhs => rw [hx]
    rw [List.drop_left]

/-- A request and a response with the bytes `xy` behind their delimiters. -/
theorem endsAt_headerSize_iff_hello :
    (EndsAt (ascii "GET / HTTP/1.1\r\nHost: a\r\n\r\nxy") (ascii "xy") 27 ↔
      ¬BlankBefore (ascii "GET / HTTP/1.1\r\nHost: a\r\n\r\nxy") 27) ∧
    (EndsAt (ascii "HTTP/1.1 200 OK\r\n\r\nxy") (ascii "xy") 19 ↔
      ¬BlankBefore (ascii "HTTP/1.1 200 OK\r\n\r\nxy") 19) :=
  ⟨endsAt_headerSize_iff (m := (⟨⟨.get, ascii "/", ascii "HTTP/1.1"⟩,
      Finmap.insert (ascii "host") (ascii "a") ∅, ascii "xy"⟩ : Request)) (by decide) (by decide),
    endsAt_headerSize_iff (m := (⟨⟨.ok, ascii "HTTP/1.1"⟩, ∅, ascii "xy"⟩ : Response))
      (by decide) (by decide)⟩

/-- Two LF in a row end the header block of the parser; the session sees it end with
    the stream. -/
theorem not_endsAt_headerSize_lf :
    headerSize (ascii "GET / HTTP/1.1\n\nA\r\n\r\n") = some 21 ∧
    (Request.parse (ascii "GET / HTTP/1.1\n\nA\r\n\r\n")).toOption.map Message.body =
      some (ascii "A\r\n\r\n") ∧
    ¬EndsAt (ascii "GET / HTTP/1.1\n\nA\r\n\r\n") (ascii "A\r\n\r\n") 21 :=
  ⟨by decide, by decide, fun h => absurd h.consumed (by decide)⟩

end Dss.Http
