import Dss.Lib.Stream
import Mathlib.Data.Nat.Digits.Lemmas

/-!
# Decimal numbers

The decimal digits of a number as the C++ standard library writes them
(`decimal`, both `operator<<` and `std::to_string`), and the two ways it reads
them back: `std::from_chars` on a string (`fromChars`) and `operator>>` on a
stream (`extractUnsigned`). Both read back what is written, if it is in the
range of the type read (`fromChars_append`, `extractUnsigned_append`).
-/

namespace Dss.Lib

/-- The digit of a number below ten. -/
def digit (d : ℕ) : Byte := 48 + d.toUInt8

/-- The decimal digits of `n`. -/
def decimal (n : ℕ) : Bytes :=
  if n = 0 then [digit 0] else ((Nat.digits 10 n).map digit).reverse

def isDigit (b : Byte) : Bool := 48 ≤ b && b ≤ 57

/-- The value of a digit. -/
def digitValue (b : Byte) : ℕ := b.toNat - 48

/-- The value of a string of digits. -/
def digitsValue (s : Bytes) : ℕ := s.foldl (fun v b => 10 * v + digitValue b) 0

/-- `std::from_chars` on a string, for an unsigned type with the values below
    `bound`: the longest prefix of digits, which must not be empty nor out of
    range, and what follows it. -/
def fromChars (bound : ℕ) (s : Bytes) : Option (ℕ × Bytes) :=
  let digits := s.takeWhile isDigit
  if digits = [] ∨ bound ≤ digitsValue digits then none
  else some (digitsValue digits, s.dropWhile isDigit)

/-- `stream >> n` for an unsigned type with the values below `bound`: whitespace
    is skipped, a sign is accepted, and a negative number is taken modulo
    `bound`; it fails without a digit or if the number is out of range. -/
def extractUnsigned (bound : ℕ) (s : Bytes) : Option (ℕ × Bytes) :=
  match s.dropWhile isSpace with
  | 45 :: s => (fromChars bound s).map fun (n, r) => ((bound - n) % bound, r)
  | 43 :: s => fromChars bound s
  | s => fromChars bound s

variable {n d bound : ℕ} {r s x : Bytes}

theorem toNat_digit (hd : d < 10) : (digit d).toNat = 48 + d := by
  simp only [digit, UInt8.toNat_add, Nat.toUInt8, UInt8.toNat_ofNat', UInt8.reduceToNat]
  omega

theorem isDigit_digit (hd : d < 10) : isDigit (digit d) = true := by
  simp only [isDigit, Bool.and_eq_true, decide_eq_true_eq, UInt8.le_iff_toNat_le,
    toNat_digit hd, UInt8.reduceToNat]
  omega

theorem digitValue_digit (hd : d < 10) : digitValue (digit d) = d := by
  rw [digitValue, toNat_digit hd]
  omega

theorem isDigit_of_mem_decimal {b : Byte} (hb : b ∈ decimal n) : isDigit b = true := by
  rw [decimal] at hb
  split at hb
  · rw [List.mem_singleton.1 hb]
    rfl
  · rw [List.mem_reverse, List.mem_map] at hb
    obtain ⟨d, hd, rfl⟩ := hb
    exact isDigit_digit (Nat.digits_lt_base (by decide) hd)

theorem decimal_ne_nil (n : ℕ) : decimal n ≠ [] := by
  rw [decimal]
  split
  · simp
  next hn => simpa using Nat.digits_ne_nil_iff_ne_zero.2 hn

/-- A number below a power of ten has at most as many digits. -/
theorem length_decimal_le {k : ℕ} (hk : 0 < k) (hn : n < 10 ^ k) : (decimal n).length ≤ k := by
  rw [decimal]
  split
  · simpa using Nat.succ_le_of_lt hk
  · rw [List.length_reverse, List.length_map]
    exact (Nat.digits_length_le_iff (by decide) n).2 hn

theorem not_isSpace_of_isDigit {b : Byte} (hb : isDigit b = true) : isSpace b = false := by
  simp only [isDigit, Bool.and_eq_true, decide_eq_true_eq, UInt8.le_iff_toNat_le] at hb
  simp only [isSpace, decide_eq_false_iff_not, List.mem_cons, List.not_mem_nil, or_false]
  rintro (rfl | rfl | rfl | rfl | rfl | rfl) <;> exact absurd hb (by decide)

/-- A decimal number is a word. -/
theorem isWord_decimal (n : ℕ) : IsWord (decimal n) where
  ne_nil := decimal_ne_nil n
  no_space _ hb := not_isSpace_of_isDigit (isDigit_of_mem_decimal hb)

/-- Horner's scheme: the value of digits, the least significant one first. -/
theorem foldr_digit_eq_ofDigits {l : List ℕ} (hl : ∀ d ∈ l, d < 10) :
    l.foldr (fun d v => 10 * v + digitValue (digit d)) 0 = Nat.ofDigits 10 l := by
  induction l with
  | nil => rfl
  | cons d l ih =>
    rw [List.foldr_cons, ih fun e he => hl e (List.mem_cons_of_mem _ he),
      digitValue_digit (hl d List.mem_cons_self), Nat.ofDigits_cons, add_comm]

/-- What is written has the value it was written for. -/
theorem digitsValue_decimal (n : ℕ) : digitsValue (decimal n) = n := by
  rw [decimal]
  split
  next hn => rw [hn]; rfl
  · rw [digitsValue, List.foldl_reverse, List.foldr_map,
      foldr_digit_eq_ofDigits fun d hd => Nat.digits_lt_base (by decide) hd, Nat.ofDigits_digits]

/-- A decimal number starts with a digit. -/
theorem decimal_append_ne {b : Byte} (hb : isDigit b = false) : decimal n ++ r ≠ b :: s := by
  obtain ⟨c, l, hl⟩ := List.exists_cons_of_ne_nil (decimal_ne_nil n)
  have hc : isDigit c = true := isDigit_of_mem_decimal (n := n) (by simp [hl])
  rw [hl, List.cons_append]
  intro h
  rw [List.cons.injEq] at h
  rw [← h.1, hc] at hb
  cases hb

theorem fromChars_append (hn : n < bound) (hr : ∀ b ∈ r.head?, isDigit b = false) :
    fromChars bound (decimal n ++ r) = some (n, r) := by
  have hpos : ∀ b ∈ decimal n, isDigit b = true := fun _ => isDigit_of_mem_decimal
  have htake : r.takeWhile isDigit = [] := by
    cases r with
    | nil => rfl
    | cons b r => simp [hr b (by simp)]
  have hdrop : r.dropWhile isDigit = r := by
    cases r with
    | nil => rfl
    | cons b r => simp [hr b (by simp)]
  simp only [fromChars, List.takeWhile_append_of_pos hpos, List.dropWhile_append_of_pos hpos,
    htake, hdrop, List.append_nil, digitsValue_decimal]
  rw [if_neg (by simp [decimal_ne_nil, hn])]

/-- All of a string is read exactly if it is a number in range. -/
theorem fromChars_eq_some_nil : fromChars bound s = some (n, []) ↔
    s ≠ [] ∧ (∀ b ∈ s, isDigit b = true) ∧ digitsValue s = n ∧ n < bound := by
  constructor
  · intro h
    simp only [fromChars] at h
    split at h
    next => cases h
    next hcond =>
      obtain ⟨hne, hlt⟩ := not_or.1 hcond
      obtain ⟨hvalue, hrest⟩ := Prod.mk.inj (Option.some.inj h)
      have hall : ∀ b ∈ s, isDigit b = true := List.dropWhile_eq_nil_iff.1 hrest
      rw [List.takeWhile_eq_self_iff.2 hall] at hne hlt hvalue
      exact ⟨hne, hall, hvalue, by omega⟩
  · rintro ⟨hne, hall, rfl, hlt⟩
    simp only [fromChars, List.takeWhile_eq_self_iff.2 hall, List.dropWhile_eq_nil_iff.2 hall]
    rw [if_neg (by simp [hne, hlt])]

theorem extractUnsigned_append (hx : ∀ b ∈ x, isSpace b = true) (hn : n < bound)
    (hr : ∀ b ∈ r.head?, isDigit b = false) :
    extractUnsigned bound (x ++ (decimal n ++ r)) = some (n, r) := by
  have hdrop : (x ++ (decimal n ++ r)).dropWhile isSpace = decimal n ++ r := by
    rw [List.dropWhile_append_of_pos hx]
    obtain ⟨b, l, hl⟩ := List.exists_cons_of_ne_nil (decimal_ne_nil n)
    have hb : isSpace b = false := (isWord_decimal n).no_space b (by simp [hl])
    rw [hl, List.cons_append, List.dropWhile_cons_of_neg (by simp [hb])]
  rw [extractUnsigned, hdrop]
  split
  next hs => exact absurd hs (decimal_append_ne rfl)
  next hs => exact absurd hs (decimal_append_ne rfl)
  next => exact fromChars_append hn hr

end Dss.Lib
