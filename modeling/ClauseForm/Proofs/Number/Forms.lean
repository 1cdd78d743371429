import Mathlib.Algebra.Field.Rat
import ClauseForm.Number.Literal

/-!
# How numbers are written

The grammar of numeric literals, and what they denote, said without a reader: an integer
(`ClauseForm.Literal.Numeral`) is a sign and digits, a decimal
(`ClauseForm.Literal.Decimal`) a sign and digits with at most one point
(`ClauseForm.Literal.Mantissa`), and an optional power of ten behind an `e` of either
case.

The reader of exponents accepts the integers that fit 64 bits
(`ClauseForm.Literal.exponent?_eq_some_iff`), and the reader of decimals the decimals whose
exponent is one of these and that are not scaled too far
(`ClauseForm.Literal.decimal?_eq_some_iff`). What they return is what the literal denotes.
-/

namespace ClauseForm

namespace Literal

/-! ### Powers of ten -/

/-- Scaling a number multiplies it by a power of ten. -/
theorem scale_eq (n e : Int) : scale n e = n * 10 ^ e := by
  unfold scale
  split
  · rename_i he
    obtain ⟨k, rfl⟩ := Int.eq_ofNat_of_zero_le he
    rw [Int.toNat_natCast, zpow_natCast, Rat.intCast_mul]
    exact congrArg _ (Rat.intCast_pow 10 k)
  · rename_i he
    obtain ⟨k, rfl⟩ : ∃ k : Nat, e = -(k : Int) := ⟨(-e).toNat, by omega⟩
    rw [neg_neg, Int.toNat_natCast, zpow_neg, zpow_natCast, Rat.mkRat_eq_div, div_eq_mul_inv]
    exact congrArg (fun x : Rat => n * x⁻¹) (Rat.natCast_pow 10 k)

/-! ### Cutting a text in two -/

variable {p : Char → Bool} {cs l r : List Char} {c : Char}

theorem cut_of_forall (h : ∀ c ∈ cs, p c = false) : cut p cs = (cs, none) := by
  induction cs with
  | nil => rfl
  | cons c cs ih =>
    rw [List.forall_mem_cons] at h
    rw [cut, h.1, ih h.2]
    rfl

theorem cut_append (h : ∀ d ∈ l, p d = false) (hc : p c = true) :
    cut p (l ++ c :: r) = (l, some r) := by
  induction l with
  | nil => rw [List.nil_append, cut, if_pos hc]
  | cons d l ih =>
    rw [List.forall_mem_cons] at h
    rw [List.cons_append, cut, h.1, ih h.2]
    rfl

/-- A text is cut at the first character of a kind, if it has one. -/
theorem cut_cases (p : Char → Bool) (cs : List Char) :
    ((∀ c ∈ cs, p c = false) ∧ cut p cs = (cs, none)) ∨
      ∃ l c r, cs = l ++ c :: r ∧ (∀ d ∈ l, p d = false) ∧ p c = true ∧
        cut p cs = (l, some r) := by
  induction cs with
  | nil => exact Or.inl ⟨by simp, rfl⟩
  | cons c cs ih =>
    cases hc : p c with
    | true => exact Or.inr ⟨[], c, cs, rfl, by simp, hc, by rw [cut, if_pos hc]⟩
    | false =>
      rcases ih with ⟨hnone, hcut⟩ | ⟨l, d, r, rfl, hl, hd, hcut⟩
      · have hall : ∀ d ∈ c :: cs, p d = false := List.forall_mem_cons.2 ⟨hc, hnone⟩
        exact Or.inl ⟨hall, cut_of_forall hall⟩
      · have hall : ∀ e ∈ c :: l, p e = false := List.forall_mem_cons.2 ⟨hc, hl⟩
        exact Or.inr ⟨c :: l, d, r, rfl, hall, hd, cut_append hall hd⟩

/-! ### Signs -/

/-- What may stand in front of the digits of a number. -/
inductive Sign where
  /-- Nothing. -/
  | absent
  /-- A plus. -/
  | plus
  /-- A minus. -/
  | minus

namespace Sign

/-- How a sign is written. -/
def text : Sign → List Char
  | absent => []
  | plus => ['+']
  | minus => ['-']

/-- What the number behind a sign is to be multiplied by. -/
def factor : Sign → Int
  | minus => -1
  | _ => 1

/-- Whether a sign is a minus. -/
def isMinus : Sign → Bool
  | minus => true
  | _ => false

theorem withSign_isMinus (s : Sign) (n : Nat) : withSign s.isMinus n = s.factor * n := by
  cases s <;> simp [withSign, isMinus, factor]

theorem eq_of_mem_text {s : Sign} (h : c ∈ s.text) : c = '+' ∨ c = '-' := by
  cases s with
  | absent => simp [text] at h
  | plus => exact Or.inl (List.mem_singleton.1 h)
  | minus => exact Or.inr (List.mem_singleton.1 h)

/-- The sign of a text is taken off, if no second one follows. -/
theorem unsigned_append (s : Sign) (h : ∀ c ∈ cs.head?, c ≠ '+' ∧ c ≠ '-') :
    unsigned (s.text ++ cs) = (s.isMinus, cs) := by
  cases s with
  | absent =>
    cases cs with
    | nil => rfl
    | cons c cs =>
      obtain ⟨hplus, hminus⟩ := h c rfl
      simp [text, unsigned, isMinus, hplus, hminus]
  | plus => rfl
  | minus => rfl

theorem exists_unsigned (cs : List Char) :
    ∃ s : Sign, (unsigned cs).1 = s.isMinus ∧ s.text ++ (unsigned cs).2 = cs := by
  unfold unsigned
  split
  · exact ⟨minus, rfl, rfl⟩
  · exact ⟨plus, rfl, rfl⟩
  · exact ⟨absent, rfl, rfl⟩

end Sign

/-- A digit is no other character that may stand in a number. -/
theorem ne_of_isDigit {d : Char} (h : c.isDigit = true) (hd : d.isDigit = false) : c ≠ d := by
  rintro rfl
  rw [h] at hd
  cases hd

/-! ### Integers -/

/-- An integer as it is written: a sign or none, and at least one digit. -/
structure Numeral where
  /-- The sign. -/
  sign : Sign
  /-- The digits, the highest first. -/
  digits : List Char
  isDigit : ∀ c ∈ digits, c.isDigit = true
  ne_nil : digits ≠ []

namespace Numeral

/-- How an integer is written. -/
def text (n : Numeral) : List Char :=
  n.sign.text ++ n.digits

/-- The integer that is written. -/
def value (n : Numeral) : Int :=
  n.sign.factor * digitsValue n.digits

/-- Whether an integer can be held in 64 bits. -/
def Fits (n : Numeral) : Prop :=
  -Int.pow 2 63 ≤ n.value ∧ n.value < Int.pow 2 63

theorem unsigned_text (n : Numeral) : unsigned n.text = (n.sign.isMinus, n.digits) := by
  refine n.sign.unsigned_append fun c hc => ?_
  have hdigit : c.isDigit = true := n.isDigit c (List.mem_of_head? hc)
  exact ⟨ne_of_isDigit hdigit rfl, ne_of_isDigit hdigit rfl⟩

theorem mem_text {n : Numeral} (h : c ∈ n.text) : c.isDigit = true ∨ c = '+' ∨ c = '-' := by
  rcases List.mem_append.1 h with h | h
  · exact Or.inr (Sign.eq_of_mem_text h)
  · exact Or.inl (n.isDigit c h)

end Numeral

/-- **Exponents** are the integers that fit 64 bits. -/
theorem exponent?_eq_some_iff {e : Int} :
    exponent? cs = some e ↔ ∃ n : Numeral, n.text = cs ∧ n.Fits ∧ n.value = e := by
  unfold exponent?
  constructor
  · intro h
    obtain ⟨s, hminus, htext⟩ := Sign.exists_unsigned cs
    simp only [hminus, Sign.withSign_isMinus] at h
    split at h
    · cases h
    · rename_i hdigits
      split at h
      · rename_i hfits
        simp only [Bool.or_eq_true, List.isEmpty_iff, Bool.not_eq_true', not_or, Bool.not_eq_false,
          List.all_eq_true] at hdigits
        exact ⟨⟨s, (unsigned cs).2, hdigits.2, hdigits.1⟩, htext, hfits, Option.some.inj h⟩
      · cases h
  · rintro ⟨n, rfl, hfits, rfl⟩
    have hdigits : ¬(n.digits.isEmpty || !n.digits.all Char.isDigit) = true := by
      simpa [n.ne_nil] using n.isDigit
    rw [n.unsigned_text, if_neg hdigits, Sign.withSign_isMinus]
    exact if_pos hfits

/-! ### Mantissas -/

/-- A number as it is written without a power of ten: a sign or none, and at least one digit, with
at most one point in front of the digits, behind them or between. -/
structure Mantissa where
  /-- The sign. -/
  sign : Sign
  /-- The digits in front of the point. -/
  whole : List Char
  /-- The digits behind the point, if there is one. -/
  behind : Option (List Char)
  isDigit : ∀ c ∈ whole ++ behind.getD [], c.isDigit = true
  ne_nil : whole ++ behind.getD [] ≠ []

namespace Mantissa

/-- The digits behind the point, of which there are none without a point. -/
def fraction (m : Mantissa) : List Char :=
  m.behind.getD []

/-- What follows the sign. -/
def body (m : Mantissa) : List Char :=
  m.whole ++ m.behind.elim [] ('.' :: ·)

/-- How the number is written. -/
def text (m : Mantissa) : List Char :=
  m.sign.text ++ m.body

/-- The number that is written, times a power of ten: the digits without the point are scaled by as
many places less as there are digits behind the point. -/
def scaled (m : Mantissa) (e : Int) : Rat :=
  (m.sign.factor * digitsValue (m.whole ++ m.fraction) : Int) * 10 ^ (e - m.fraction.length)

theorem mem_body {m : Mantissa} (h : c ∈ m.body) : c.isDigit = true ∨ c = '.' := by
  have hdigit := m.isDigit c
  rw [List.mem_append] at hdigit
  rcases List.mem_append.1 h with h | h
  · exact Or.inl (hdigit (Or.inl h))
  · cases hbehind : m.behind with
    | none => simp [hbehind] at h
    | some ds =>
      rw [hbehind, Option.elim_some, List.mem_cons] at h
      rw [hbehind, Option.getD_some] at hdigit
      exact h.symm.imp (fun h => hdigit (Or.inr h)) id

theorem mem_text {m : Mantissa} (h : c ∈ m.text) :
    c.isDigit = true ∨ c = '+' ∨ c = '-' ∨ c = '.' := by
  rcases List.mem_append.1 h with h | h
  · rcases Sign.eq_of_mem_text h with h | h
    · exact Or.inr (Or.inl h)
    · exact Or.inr (Or.inr (Or.inl h))
  · exact (mem_body h).imp id fun h => Or.inr (Or.inr h)

theorem unsigned_text (m : Mantissa) : unsigned m.text = (m.sign.isMinus, m.body) := by
  refine m.sign.unsigned_append fun c hc => ?_
  rcases mem_body (List.mem_of_head? hc) with hdigit | rfl
  · exact ⟨ne_of_isDigit hdigit rfl, ne_of_isDigit hdigit rfl⟩
  · decide

theorem cut_body (m : Mantissa) : cut (· == '.') m.body = (m.whole, m.behind) := by
  have hwhole : ∀ c ∈ m.whole, (c == '.') = false := fun c hc =>
    beq_eq_false_iff_ne.2 (ne_of_isDigit (m.isDigit c (List.mem_append_left _ hc)) rfl)
  rw [body]
  cases m.behind with
  | none => rw [Option.elim_none, List.append_nil, cut_of_forall hwhole]
  | some ds => rw [Option.elim_some, cut_append hwhole rfl]

/-- Every text is cut at its first point into the parts that a mantissa has. -/
theorem append_elim_cut (cs : List Char) :
    (cut (· == '.') cs).1 ++ (cut (· == '.') cs).2.elim [] ('.' :: ·) = cs := by
  rcases cut_cases (· == '.') cs with ⟨-, hcut⟩ | ⟨l, c, r, hcs, -, hc, hcut⟩
  · rw [hcut, Option.elim_none, List.append_nil]
  · rw [hcut, Option.elim_some, hcs, beq_iff_eq.1 hc]

end Mantissa

/-- What a text has besides a sign and a point. -/
def unpointed (cs : List Char) : List Char :=
  (cut (· == '.') (unsigned cs).2).1 ++ (cut (· == '.') (unsigned cs).2).2.getD []

theorem Mantissa.unpointed_text (m : Mantissa) : unpointed m.text = m.whole ++ m.fraction := by
  rw [unpointed, m.unsigned_text, m.cut_body]
  rfl

/-- A text is a mantissa if it has a digit, and nothing but digits besides a sign and a point. -/
theorem exists_mantissa_iff :
    (∃ m : Mantissa, m.text = cs) ↔
      ((unpointed cs).isEmpty || !(unpointed cs).all Char.isDigit) = false := by
  rw [Bool.or_eq_false_iff, Bool.not_eq_false', List.all_eq_true, List.isEmpty_eq_false_iff]
  constructor
  · rintro ⟨m, rfl⟩
    rw [m.unpointed_text]
    exact ⟨m.ne_nil, m.isDigit⟩
  · rintro ⟨hne, hdigit⟩
    obtain ⟨s, -, htext⟩ := Sign.exists_unsigned cs
    refine ⟨⟨s, (cut (· == '.') (unsigned cs).2).1, (cut (· == '.') (unsigned cs).2).2,
      hdigit, hne⟩, ?_⟩
    rw [Mantissa.text, Mantissa.body, Mantissa.append_elim_cut, htext]

theorem Mantissa.scale_eq (m : Mantissa) (e : Int) :
    scale (withSign m.sign.isMinus (digitsValue (m.whole ++ m.fraction)))
      (e - m.fraction.length) = m.scaled e := by
  rw [Literal.scale_eq, Sign.withSign_isMinus]
  rfl

/-- A mantissa is read as what it denotes, unless it is to be scaled too far. -/
theorem fixed?_text (m : Mantissa) (e : Int) : fixed? m.text e =
    if maxScale < (e - m.fraction.length).natAbs then none else some (m.scaled e) := by
  have hcheck := exists_mantissa_iff.1 ⟨m, rfl⟩
  rw [m.unpointed_text] at hcheck
  simp only [fixed?, m.unsigned_text, m.cut_body]
  change (if ((m.whole ++ m.fraction).isEmpty || !(m.whole ++ m.fraction).all Char.isDigit ||
    decide (maxScale < (e - m.fraction.length).natAbs)) = true then none else
      some (scale (withSign m.sign.isMinus (digitsValue (m.whole ++ m.fraction)))
        (e - m.fraction.length))) = _
  rw [hcheck, m.scale_eq, Bool.false_or]
  simp only [decide_eq_true_eq]

/-- What is no mantissa is not read. -/
theorem fixed?_of_forall (h : ∀ m : Mantissa, m.text ≠ cs) (e : Int) : fixed? cs e = none := by
  have hcheck : ((unpointed cs).isEmpty || !(unpointed cs).all Char.isDigit) = true := by
    rw [← Bool.not_eq_false, ← exists_mantissa_iff]
    exact not_exists.2 h
  exact if_pos (Bool.or_eq_true_iff.2 (Or.inl hcheck))

/-- What is read without an exponent are the mantissas that are not scaled too far. -/
theorem fixed?_eq_some_iff {e : Int} {x : Rat} :
    fixed? cs e = some x ↔ ∃ m : Mantissa, m.text = cs ∧
      (e - m.fraction.length).natAbs ≤ maxScale ∧ m.scaled e = x := by
  constructor
  · intro h
    obtain ⟨m, rfl⟩ : ∃ m : Mantissa, m.text = cs := by
      by_contra hnone
      rw [fixed?_of_forall (not_exists.1 hnone)] at h
      cases h
    rw [fixed?_text, Option.ite_none_left_eq_some, Nat.not_lt] at h
    exact ⟨m, rfl, h.1, Option.some.inj h.2⟩
  · rintro ⟨m, rfl, hscale, rfl⟩
    rw [fixed?_text, if_neg (Nat.not_lt.2 hscale)]

/-! ### Decimals -/

/-- Whether a power of ten follows a character. -/
def isMarker (c : Char) : Bool :=
  c == 'e' || c == 'E'

/-- A decimal as it is written: a mantissa, and an optional exponent behind an `e` of either
case. -/
structure Decimal where
  /-- The mantissa. -/
  mantissa : Mantissa
  /-- The exponent, and the letter in front of it. -/
  exponent : Option (Char × Numeral)
  marked : ∀ p ∈ exponent, isMarker p.1 = true

namespace Decimal

/-- How a decimal is written. -/
def text (d : Decimal) : List Char :=
  d.mantissa.text ++ d.exponent.elim [] fun p => p.1 :: p.2.text

/-- The exponent, which is zero if none is written. -/
def power (d : Decimal) : Int :=
  d.exponent.elim 0 fun p => p.2.value

/-- The power of ten by which the digits without the point are scaled. -/
def shift (d : Decimal) : Int :=
  d.power - d.mantissa.fraction.length

/-- Whether the exponent fits 64 bits, and the digits are not scaled too far either way. -/
def Readable (d : Decimal) : Prop :=
  (∀ p ∈ d.exponent, p.2.Fits) ∧ d.shift.natAbs ≤ maxScale

/-- The number that is written. -/
def value (d : Decimal) : Rat :=
  d.mantissa.scaled d.power

end Decimal

theorem isMarker_of_isDigit (h : c.isDigit = true) : isMarker c = false := by
  rw [isMarker, beq_eq_false_iff_ne.2 (ne_of_isDigit h rfl),
    beq_eq_false_iff_ne.2 (ne_of_isDigit h rfl)]
  rfl

theorem isMarker_of_mem_text {m : Mantissa} (h : c ∈ m.text) : isMarker c = false := by
  rcases Mantissa.mem_text h with hdigit | rfl | rfl | rfl
  · exact isMarker_of_isDigit hdigit
  · rfl
  · rfl
  · rfl

/-- **What is read as a decimal**: the decimals whose exponent fits 64 bits and that are not scaled
too far, each as the number that it denotes. -/
theorem decimal?_eq_some_iff {x : Rat} :
    decimal? cs = some x ↔ ∃ d : Decimal, d.text = cs ∧ d.Readable ∧ d.value = x := by
  unfold decimal?
  constructor
  · intro h
    rcases cut_cases isMarker cs with ⟨-, hcut⟩ | ⟨l, c, r, rfl, -, hc, hcut⟩
    · rw [show (fun c => c == 'e' || c == 'E') = isMarker from rfl, hcut] at h
      obtain ⟨m, rfl, hscale, rfl⟩ := fixed?_eq_some_iff.1 h
      exact ⟨⟨m, none, by simp⟩, List.append_nil _, ⟨by simp, hscale⟩, rfl⟩
    · rw [show (fun c => c == 'e' || c == 'E') = isMarker from rfl, hcut] at h
      obtain ⟨e, he, h⟩ := Option.bind_eq_some_iff.1 h
      obtain ⟨n, rfl, hfits, rfl⟩ := exponent?_eq_some_iff.1 he
      obtain ⟨m, rfl, hscale, rfl⟩ := fixed?_eq_some_iff.1 h
      exact ⟨⟨m, some (c, n), by simpa using hc⟩, rfl, ⟨by simpa using hfits, hscale⟩, rfl⟩
  · rintro ⟨⟨m, exponent, hmarker⟩, rfl, ⟨hfits, hscale⟩, rfl⟩
    have hmantissa : ∀ c ∈ m.text, isMarker c = false := fun c hc => isMarker_of_mem_text hc
    rw [show (fun c => c == 'e' || c == 'E') = isMarker from rfl]
    cases exponent with
    | none =>
      rw [Decimal.text, Option.elim_none, List.append_nil, cut_of_forall hmantissa]
      exact fixed?_eq_some_iff.2 ⟨m, rfl, hscale, rfl⟩
    | some p =>
      rw [Decimal.text, Option.elim_some, cut_append hmantissa (hmarker p rfl)]
      refine Option.bind_eq_some_iff.2 ⟨p.2.value, ?_, ?_⟩
      · exact exponent?_eq_some_iff.2 ⟨p.2, rfl, hfits p rfl, rfl⟩
      · exact fixed?_eq_some_iff.2 ⟨m, rfl, hscale, rfl⟩

theorem decimal?_eq_none (h : ∀ d : Decimal, d.text = cs → ¬d.Readable) : decimal? cs = none := by
  rw [Option.eq_none_iff_forall_ne_some]
  intro x hx
  obtain ⟨d, htext, hd, -⟩ := decimal?_eq_some_iff.1 hx
  exact h d htext hd

end Literal

end ClauseForm
