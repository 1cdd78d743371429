import ClauseForm.Proofs.Number.Reading
import ClauseForm.Term.Show

/-!
# Reading what was written

The text of a number denotes the number. What a format of numbers has to do for that is little
(`ClauseForm.NumberFormat.Inverse`): it writes integers in base ten, rational numbers as one
integer or as two with a slash between them, and reads what it writes. Then terms that are
numbers are read from their texts (`ClauseForm.Term.exists_text_read`). A real number that is
an integer is written with a point, and read as a decimal
(`ClauseForm.Literal.Numeral.withPoint`); any other has a slash, which no decimal has, so that
it is left to the reader of rational numbers.

The format in use is one of these (`ClauseForm.NumberFormat.inverse_baseTen`).
-/

namespace ClauseForm

/-! ### Texts without blanks -/

/-- A text without blanks is left as it is. -/
theorem Text.trim_eq_self {cs : List Char} (h : ∀ c ∈ cs, isBlank c = false) : trim cs = cs := by
  have hdrop : ∀ ds : List Char, (∀ c ∈ ds, isBlank c = false) → ds.dropWhile isBlank = ds := by
    intro ds hds
    refine List.dropWhile_eq_self_iff.2 fun hpos => ?_
    rw [hds _ (List.getElem_mem hpos)]
    exact Bool.false_ne_true
  rw [trim, hdrop cs h, hdrop cs.reverse fun c hc => h c (List.mem_reverse.1 hc),
    List.reverse_reverse]

namespace Literal

theorem isBlank_of_isDigit {c : Char} (h : c.isDigit = true) : Text.isBlank c = false := by
  obtain ⟨hlow, hhigh⟩ := Char.isDigit_iff_toNat.1 h
  simp only [Text.isBlank, Bool.or_eq_false_iff, Bool.and_eq_false_iff, decide_eq_false_iff_not,
    beq_eq_false_iff_ne]
  change 48 ≤ c.toNat at hlow
  change c.toNat ≤ 57 at hhigh
  omega

theorem Numeral.isBlank_of_mem_text {n : Numeral} {c : Char} (h : c ∈ n.text) :
    Text.isBlank c = false := by
  rcases Numeral.mem_text h with hdigit | rfl | rfl
  · exact isBlank_of_isDigit hdigit
  · rfl
  · rfl

/-! ### Integers with a point behind them -/

/-- A digit more multiplies by ten. -/
theorem digitsValue_concat (cs : List Char) (c : Char) :
    digitsValue (cs ++ [c]) = 10 * digitsValue cs + digitValue c := by
  rw [digitsValue, List.foldl_append]
  rfl

/-- An integer with a point and a zero behind it. -/
def Numeral.withPoint (n : Numeral) : Decimal where
  mantissa :=
    { sign := n.sign
      whole := n.digits
      behind := some ['0']
      isDigit := List.forall_mem_append.2 ⟨n.isDigit, List.all_eq_true.1 rfl⟩
      ne_nil := by simp }
  exponent := none
  marked := by simp

theorem Numeral.text_withPoint (n : Numeral) : n.withPoint.text = n.text ++ ['.', '0'] := by
  simp [Decimal.text, Mantissa.text, Mantissa.body, Numeral.withPoint, Numeral.text]

theorem Numeral.readable_withPoint (n : Numeral) : n.withPoint.Readable :=
  ⟨by simp [Numeral.withPoint], show (0 - ((1 : Nat) : Int)).natAbs ≤ maxScale by decide⟩

theorem Numeral.value_withPoint (n : Numeral) : n.withPoint.value = n.value := by
  have hdigits : digitsValue (n.digits ++ ['0']) = 10 * digitsValue n.digits := by
    rw [digitsValue_concat]
    rfl
  have hscaled : n.sign.factor * ((10 * digitsValue n.digits : Nat) : Int) = n.value * 10 := by
    rw [Numeral.value, Nat.cast_mul, mul_left_comm, mul_comm]
    rfl
  change ((n.sign.factor * digitsValue (n.digits ++ ['0']) : Int) : Rat) *
    10 ^ ((0 : Int) - (1 : Nat)) = n.value
  rw [hdigits, hscaled, Rat.intCast_mul, mul_assoc]
  norm_num

/-- There are no slashes in decimals. -/
theorem Decimal.slash_notMem_text (d : Decimal) : '/' ∉ d.text := by
  intro h
  rcases List.mem_append.1 h with h | h
  · exact absurd (Mantissa.mem_text h) (by decide)
  · cases hexponent : d.exponent with
    | none => simp [hexponent] at h
    | some p =>
      rw [hexponent, Option.elim_some] at h
      rcases List.mem_cons.1 h with hp | h
      · have hmarker := d.marked p hexponent
        rw [← hp] at hmarker
        cases hmarker
      · exact absurd (Numeral.mem_text h) (by decide)

end Literal

namespace NumberFormat

open Literal

/-! ### What is relied on of a format -/

/-- Integers are written in base ten, and rational numbers in lowest terms: as an integer if they
are one, and as a numerator and a denominator with a slash between them otherwise. What is written
is read as what it was written for. -/
structure Inverse (F : NumberFormat) : Prop where
  /-- An integer is written as digits that denote it, with a sign in front or not. -/
  integerText : ∀ n, ∃ d : Numeral, (F.integerText n).toList = d.text ∧ d.value = n
  /-- A rational number that is an integer is written like one. -/
  rationalText_of_den_eq_one : ∀ x : Rat, x.den = 1 → F.rationalText x = F.integerText x.num
  /-- Any other is written as a fraction. -/
  rationalText_of_den_ne_one : ∀ x : Rat, x.den ≠ 1 →
    F.rationalText x = F.integerText x.num ++ "/" ++ F.integerText x.den
  /-- The text of an integer is read as this integer. -/
  integer? : ∀ n, F.integer? (F.integerText n).toList = some n
  /-- The text of a rational number is read as this number. -/
  rational? : ∀ x, F.rational? (F.rationalText x).toList = some x

variable {F : NumberFormat} {c : Char} {n : Int} {x : Rat}

theorem realText_of_den_ne_one (h : x.den ≠ 1) : F.realText x = F.rationalText x :=
  if_neg h

section Inverse

variable (hF : F.Inverse)

include hF

theorem Inverse.isBlank_of_mem_integerText (h : c ∈ (F.integerText n).toList) :
    Text.isBlank c = false := by
  obtain ⟨d, hd, -⟩ := hF.integerText n
  exact Numeral.isBlank_of_mem_text (hd ▸ h)

theorem Inverse.toList_rationalText_of_den_ne_one (h : x.den ≠ 1) : (F.rationalText x).toList =
    (F.integerText x.num).toList ++ '/' :: (F.integerText x.den).toList := by
  rw [hF.rationalText_of_den_ne_one x h, String.toList_append, String.toList_append,
    List.append_assoc]
  rfl

theorem Inverse.isBlank_of_mem_rationalText (h : c ∈ (F.rationalText x).toList) :
    Text.isBlank c = false := by
  by_cases hden : x.den = 1
  · rw [hF.rationalText_of_den_eq_one x hden] at h
    exact hF.isBlank_of_mem_integerText h
  · rw [hF.toList_rationalText_of_den_ne_one hden, List.mem_append, List.mem_cons] at h
    rcases h with h | rfl | h
    · exact hF.isBlank_of_mem_integerText h
    · rfl
    · exact hF.isBlank_of_mem_integerText h

/-- A real number that is an integer is written as a decimal that denotes it. -/
theorem Inverse.exists_toList_realText (h : x.den = 1) :
    ∃ d : Numeral, (F.realText x).toList = d.withPoint.text ∧ d.withPoint.value = x := by
  obtain ⟨d, hd, hvalue⟩ := hF.integerText x.num
  refine ⟨d, ?_, ?_⟩
  · rw [realText, if_pos h, hF.rationalText_of_den_eq_one x h, String.toList_append, hd,
      d.text_withPoint]
    rfl
  · rw [d.value_withPoint, hvalue]
    exact x.den_eq_one_iff.1 h

theorem Inverse.isBlank_of_mem_realText (h : c ∈ (F.realText x).toList) :
    Text.isBlank c = false := by
  by_cases hden : x.den = 1
  · obtain ⟨d, hd, -⟩ := hF.exists_toList_realText hden
    rw [hd, d.text_withPoint, List.mem_append] at h
    rcases h with h | h
    · exact Numeral.isBlank_of_mem_text h
    · obtain rfl | rfl : c = '.' ∨ c = '0' := by simpa using h
      · rfl
      · rfl
  · rw [realText_of_den_ne_one hden] at h
    exact hF.isBlank_of_mem_rationalText h

/-- **The text of a real number is read as this number**, as a decimal if it is an integer, and by
the reader of rational numbers otherwise. -/
theorem Inverse.decimal?_or_rational?_realText :
    (decimal? (F.realText x).toList).or (F.rational? (F.realText x).toList) = some x := by
  by_cases h : x.den = 1
  · obtain ⟨d, hd, hvalue⟩ := hF.exists_toList_realText h
    have hdecimal : decimal? (F.realText x).toList = some x := by
      rw [hd]
      exact decimal?_eq_some_iff.2 ⟨_, rfl, d.readable_withPoint, hvalue⟩
    rw [hdecimal, Option.some_or]
  · -- the slash keeps the reader of decimals from taking it
    have hslash : '/' ∈ (F.rationalText x).toList := by
      rw [hF.toList_rationalText_of_den_ne_one h]
      simp
    have hdecimal : decimal? (F.rationalText x).toList = none := decimal?_eq_none fun d htext _ =>
      d.slash_notMem_text (htext ▸ hslash)
    rw [realText_of_den_ne_one h, hdecimal, Option.none_or, hF.rational?]

end Inverse

/-! ### Base ten -/

/-- The sign of an integer that is written without a plus. -/
def signOf (n : Int) : Sign :=
  if 0 ≤ n then .absent else .minus

theorem factor_signOf (n : Int) : (signOf n).factor * n.natAbs = n := by
  unfold signOf
  split
  · simp only [Sign.factor]
    omega
  · simp only [Sign.factor]
    omega

/-- An integer in base ten. -/
def numeralOf (n : Int) : Numeral where
  sign := signOf n
  digits := Nat.toDigits 10 n.natAbs
  isDigit := fun _ hc => Nat.isDigit_of_mem_toDigits (by decide) (by decide) hc
  ne_nil := Nat.toDigits_ne_nil

theorem value_numeralOf (n : Int) : (numeralOf n).value = n := by
  have hdigits : digitsValue (Nat.toDigits 10 n.natAbs) = n.natAbs := Nat.ofDigitChars_ten_toDigits
  rw [Numeral.value, numeralOf, hdigits, factor_signOf]

theorem text_numeralOf (n : Int) : (numeralOf n).text = (toString n).toList := by
  change (signOf n).text ++ Nat.toDigits 10 n.natAbs = n.repr.toList
  rw [Int.repr_eq_if, signOf]
  split
  · rename_i hn
    rw [Nat.repr_eq_ofList_toDigits, String.toList_ofList, show n.toNat = n.natAbs by omega]
    rfl
  · rename_i hn
    rw [Nat.repr_eq_ofList_toDigits, String.toList_append, String.toList_ofList,
      String.toList_ofList, show (-n).toNat = n.natAbs by omega]
    rfl

theorem integer?_toString (n : Int) : Literal.integer? (toString n).toList = some n := by
  rw [← text_numeralOf, integer?_text, value_numeralOf]

/-- A fraction is read as this fraction. -/
theorem rational?_fraction (x : Rat) :
    Literal.rational? ((toString x.num).toList ++ '/' :: (toString (x.den : Int)).toList) =
      some x := by
  have hden : (x.den : Int) ≠ 0 := Int.natCast_ne_zero.2 x.den_nz
  have hslash : ∀ c ∈ (toString x.num).toList, (c == '/') = false :=
    text_numeralOf x.num ▸ (numeralOf x.num).forall_mem_text
  rw [rational?_append hslash, integer?_toString, integer?_toString]
  simp only [Option.bind_some, if_neg hden, Rat.num_divInt_den]

/-- **Base ten is such a format.** -/
theorem inverse_baseTen : baseTen.Inverse where
  integerText n := ⟨numeralOf n, (text_numeralOf n).symm, value_numeralOf n⟩
  rationalText_of_den_eq_one _ h := if_pos h
  rationalText_of_den_ne_one _ h := if_neg h
  integer? := integer?_toString
  rational? x := by
    by_cases h : x.den = 1
    · have htext : baseTen.rationalText x = toString x.num := if_pos h
      have hread := readsIntegers_rational?.numeral (numeralOf x.num)
      rw [text_numeralOf, value_numeralOf, x.den_eq_one_iff.1 h] at hread
      rw [htext]
      exact hread
    · have htext : baseTen.rationalText x = toString x.num ++ "/" ++ toString (x.den : Int) :=
        if_neg h
      rw [htext, String.toList_append, String.toList_append, List.append_assoc]
      exact rational?_fraction x

end NumberFormat

namespace Term

open Literal

/-- **What is written is read back.** Whatever the vocabulary, a term that is an integer, a rational
number or a real number has a text, and the constructor for its type makes the same term of it, if
the format reads the integers and fractions that it writes. -/
theorem exists_text_read {F : NumberFormat} (hF : F.Inverse) (voc : Vocabulary) :
    (∀ n : Int, ∃ s, (Term.integer n).textBy F voc = .ok s ∧
        integerOfTextBy F.integer? s = .ok (.integer n)) ∧
      (∀ x : Rat, ∃ s, (Term.rational x).textBy F voc = .ok s ∧
        rationalOfTextBy F.rational? s = .ok (.rational x)) ∧
      ∀ x : Rat, ∃ s, (Term.real x).textBy F voc = .ok s ∧
        realOfTextBy F.rational? s = .ok (.real x) := by
  refine ⟨fun n => ⟨F.integerText n, rfl, ?_⟩, fun x => ⟨F.rationalText x, rfl, ?_⟩,
    fun x => ⟨F.realText x, rfl, ?_⟩⟩
  · rw [integerOfTextBy, numberOfText, Text.trim_eq_self fun _ => hF.isBlank_of_mem_integerText,
      hF.integer?]
    rfl
  · rw [rationalOfTextBy, numberOfText, Text.trim_eq_self fun _ => hF.isBlank_of_mem_rationalText,
      hF.rational?]
    rfl
  · rw [realOfTextBy, numberOfText, Text.trim_eq_self fun _ => hF.isBlank_of_mem_realText,
      hF.decimal?_or_rational?_realText]
    rfl

/-- In base ten, a negative integer, a fraction, and two real numbers of which one is an integer. -/
theorem exists_text_read_baseTen :
    NumberFormat.baseTen.Inverse ∧
      (Term.integer (-7)).text {} = .ok "-7" ∧ integerOfText "-7" = .ok (.integer (-7)) ∧
      (Term.rational (-1 / 3)).text {} = .ok "-1/3" ∧
      rationalOfText "-1/3" = .ok (.rational (-1 / 3)) ∧
      (Term.real (-7)).text {} = .ok "-7.0" ∧ realOfText "-7.0" = .ok (.real (-7)) ∧
      (Term.real (5 / 2)).text {} = .ok "5/2" ∧ realOfText "5/2" = .ok (.real (5 / 2)) := by
  obtain ⟨hinteger, hrational, hreal⟩ := exists_text_read NumberFormat.inverse_baseTen {}
  have htext : (Term.integer (-7)).text {} = .ok "-7" := rfl
  have htext₁ : (Term.rational (-1 / 3)).text {} = .ok "-1/3" := by decide +kernel
  have htext₂ : (Term.real (-7)).text {} = .ok "-7.0" := by decide +kernel
  have htext₃ : (Term.real (5 / 2)).text {} = .ok "5/2" := by decide +kernel
  obtain ⟨s, hs, hread⟩ := hinteger (-7)
  obtain ⟨s₁, hs₁, hread₁⟩ := hrational (-1 / 3)
  obtain ⟨s₂, hs₂, hread₂⟩ := hreal (-7)
  obtain ⟨s₃, hs₃, hread₃⟩ := hreal (5 / 2)
  cases htext.symm.trans hs
  cases htext₁.symm.trans hs₁
  cases htext₂.symm.trans hs₂
  cases htext₃.symm.trans hs₃
  exact ⟨NumberFormat.inverse_baseTen, htext, hread, htext₁, hread₁, htext₂, hread₂, htext₃,
    hread₃⟩

end Term

end ClauseForm
