import Mathlib.Data.List.TakeWhile
import Mathlib.Tactic.NormNum
import ClauseForm.Proofs.Number.Positions
import ClauseForm.Term.Build

/-!
# What real numbers are read from

A real number is read as a decimal, or else as a rational number. Of the reader of rational
numbers no more is needed than that it reads integers as what they denote, and that it takes
no characters but those of integers and fractions (`ClauseForm.Literal.ReadsIntegers`). With
every such reader, the texts that both readers accept are integers, and are read alike
(`ClauseForm.Literal.ReadsIntegers.eq_of_decimal?`); so the order in which the two are asked
makes no difference to the answer.

`ClauseForm.Term.realOfTextBy_cases` says for every text what comes of it, be it a number or
a refusal. The reader in use is one of these (`ClauseForm.Literal.readsIntegers_rational?`).
-/

namespace ClauseForm

/-! ### Blanks at the ends -/

/-- Trimming a text takes blanks from its ends, and leaves none there. -/
theorem Text.exists_trim (cs : List Char) : ∃ front back, cs = front ++ trim cs ++ back ∧
    (∀ c ∈ front ++ back, isBlank c = true) ∧ (∀ c ∈ (trim cs).head?, isBlank c = false) ∧
    ∀ c ∈ (trim cs).getLast?, isBlank c = false := by
  have hrest : cs.dropWhile isBlank =
      trim cs ++ ((cs.dropWhile isBlank).reverse.takeWhile isBlank).reverse := by
    rw [trim, ← List.reverse_append, List.takeWhile_append_dropWhile, List.reverse_reverse]
  refine ⟨cs.takeWhile isBlank, ((cs.dropWhile isBlank).reverse.takeWhile isBlank).reverse,
    ?_, ?_, ?_, ?_⟩
  · rw [List.append_assoc, ← hrest, List.takeWhile_append_dropWhile]
  · intro c hc
    rcases List.mem_append.1 hc with hc | hc
    · exact List.mem_takeWhile_imp hc
    · exact List.mem_takeWhile_imp (List.mem_reverse.1 hc)
  · intro c hc
    have hfirst : c ∈ (cs.dropWhile isBlank).head? := by
      rw [hrest]
      exact List.mem_head?_append_of_mem_head? hc
    have hnot := List.head?_dropWhile_not isBlank cs
    rw [hfirst] at hnot
    exact hnot
  · intro c hc
    rw [trim, List.getLast?_reverse] at hc
    have hnot := List.head?_dropWhile_not isBlank (cs.dropWhile isBlank).reverse
    rw [hc] at hnot
    exact hnot

namespace Literal

variable {cs : List Char} {c : Char}

/-! ### Reading integers -/

theorem natural?_of_isDigit (h : ∀ c ∈ cs, c.isDigit = true) (hne : cs ≠ []) :
    natural? cs = some (digitsValue cs) := by
  cases cs with
  | nil => exact absurd rfl hne
  | cons c cs =>
    have hfilter : (c :: cs).filter (· != '_') = c :: cs := by
      refine List.filter_eq_self.2 fun d hd => ?_
      exact bne_iff_ne.2 (ne_of_isDigit (h d hd) rfl)
    rw [List.forall_mem_cons] at h
    have hcheck : (c.isDigit && cs.all fun d => d.isDigit || d == '_') = true := by
      rw [h.1, Bool.true_and, List.all_eq_true]
      exact fun d hd => Bool.or_eq_true_iff.2 (Or.inl (h.2 d hd))
    rw [natural?, if_pos hcheck, hfilter]

/-- An integer is read as what it denotes. -/
theorem integer?_text (n : Numeral) : integer? n.text = some n.value := by
  rw [integer?, n.unsigned_text, natural?_of_isDigit n.isDigit n.ne_nil, Option.map_some,
    Sign.withSign_isMinus]
  rfl

theorem mem_natural? {n : Nat} (h : natural? cs = some n) (hc : c ∈ cs) :
    c.isDigit = true ∨ c = '_' := by
  cases cs with
  | nil => cases hc
  | cons d cs =>
    rw [natural?] at h
    split at h
    · rename_i hcheck
      rw [Bool.and_eq_true, List.all_eq_true] at hcheck
      rcases List.mem_cons.1 hc with rfl | hc
      · exact Or.inl hcheck.1
      · simpa using hcheck.2 c hc
    · cases h

/-- A character of a text that is read as an integer. -/
theorem mem_integer? {n : Int} (h : integer? cs = some n) (hc : c ∈ cs) :
    c.isDigit = true ∨ c = '_' ∨ c = '+' ∨ c = '-' := by
  obtain ⟨s, -, htext⟩ := Sign.exists_unsigned cs
  obtain ⟨k, hk, -⟩ := Option.map_eq_some_iff.1 h
  rw [← htext] at hc
  rcases List.mem_append.1 hc with hc | hc
  · exact Or.inr (Or.inr (Sign.eq_of_mem_text hc))
  · exact (mem_natural? hk hc).imp id Or.inl

/-! ### Readers of rational numbers -/

/-- What is known of a reader of rational numbers: a sign and digits are the integer that they
denote, and nothing is accepted but signs, digits, underscores and slashes. -/
structure ReadsIntegers (read? : List Char → Option Rat) : Prop where
  /-- Integers are read as what they denote. -/
  numeral : ∀ n : Numeral, read? n.text = some (n.value : Rat)
  /-- There are no other characters in what is read. -/
  mem : ∀ {cs : List Char} {x : Rat} {c : Char}, read? cs = some x → c ∈ cs →
    c.isDigit = true ∨ c = '_' ∨ c = '+' ∨ c = '-' ∨ c = '/'

/-- There are neither points nor exponents in what such a reader accepts. -/
theorem ReadsIntegers.not_isMarker {read? : List Char → Option Rat} (hread : ReadsIntegers read?)
    {x : Rat} (h : read? cs = some x) (hc : c ∈ cs) : isMarker c = false ∧ c ≠ '.' := by
  rcases hread.mem h hc with hdigit | rfl | rfl | rfl | rfl
  · exact ⟨isMarker_of_isDigit hdigit, ne_of_isDigit hdigit rfl⟩
  all_goals decide

/-- **What both are read from is read alike**: a decimal that a reader of rational numbers accepts
is an integer. -/
theorem ReadsIntegers.eq_of_decimal? {read? : List Char → Option Rat} (hread : ReadsIntegers read?)
    {x y : Rat} (hx : decimal? cs = some x) (hy : read? cs = some y) : x = y := by
  obtain ⟨⟨⟨s, whole, behind, hdigit, hne⟩, exponent, hmarked⟩, rfl, -, rfl⟩ :=
    decimal?_eq_some_iff.1 hx
  -- neither the letter of an exponent nor a point is accepted, so there are none
  obtain rfl : exponent = none := by
    cases exponent with
    | none => rfl
    | some p =>
      have hmem : p.1 ∈ Decimal.text ⟨⟨s, whole, behind, hdigit, hne⟩, some p, hmarked⟩ := by
        simp [Decimal.text]
      have hmarker := hmarked p rfl
      rw [(hread.not_isMarker hy hmem).1] at hmarker
      cases hmarker
  obtain rfl : behind = none := by
    cases behind with
    | none => rfl
    | some ds =>
      have hmem : '.' ∈ Decimal.text ⟨⟨s, whole, some ds, hdigit, hne⟩, none, hmarked⟩ := by
        simp [Decimal.text, Mantissa.text, Mantissa.body]
      exact absurd rfl (hread.not_isMarker hy hmem).2
  have hwhole : ∀ c ∈ whole, c.isDigit = true := fun c hc => hdigit c (List.mem_append_left _ hc)
  have hne' : whole ≠ [] := by simpa using hne
  have htext : Decimal.text ⟨⟨s, whole, none, hdigit, hne⟩, none, hmarked⟩ =
      (⟨s, whole, hwhole, hne'⟩ : Numeral).text := by
    simp [Decimal.text, Mantissa.text, Mantissa.body, Numeral.text]
  rw [htext, hread.numeral] at hy
  rw [← Option.some.inj hy]
  simp [Decimal.value, Mantissa.scaled, Mantissa.fraction, Decimal.power, Numeral.value]

/-! ### The reader in use -/

theorem rational?_of_forall (h : ∀ c ∈ cs, (c == '/') = false) :
    rational? cs = (integer? cs).map Int.cast := by
  simp only [rational?, cut_of_forall h]
  cases integer? cs <;> rfl

theorem rational?_append {l r : List Char} (h : ∀ c ∈ l, (c == '/') = false) :
    rational? (l ++ '/' :: r) = (integer? l).bind fun n => (integer? r).bind fun d =>
      if d = 0 then none else some (Rat.divInt n d) := by
  simp only [rational?, cut_append h (show ('/' == '/') = true from rfl)]
  cases integer? l <;> cases integer? r <;> rfl

theorem Numeral.forall_mem_text (n : Numeral) : ∀ c ∈ n.text, (c == '/') = false := by
  intro c hc
  rcases mem_text hc with hdigit | rfl | rfl
  · exact beq_eq_false_iff_ne.2 (ne_of_isDigit hdigit rfl)
  · rfl
  · rfl

/-- **The reader of rational numbers in use** is one of these. -/
theorem readsIntegers_rational? : ReadsIntegers rational? where
  numeral n := by rw [rational?_of_forall n.forall_mem_text, integer?_text, Option.map_some]
  mem {cs x c} h hc := by
    have hinteger : ∀ {ds : List Char} {n : Int}, integer? ds = some n → c ∈ ds →
        c.isDigit = true ∨ c = '_' ∨ c = '+' ∨ c = '-' ∨ c = '/' := fun hn hmem =>
      (mem_integer? hn hmem).imp id fun h => h.imp id fun h => h.imp id Or.inl
    rcases cut_cases (· == '/') cs with ⟨hnone, -⟩ | ⟨l, d, r, rfl, hl, hd, -⟩
    · rw [rational?_of_forall hnone] at h
      obtain ⟨n, hn, -⟩ := Option.map_eq_some_iff.1 h
      exact hinteger hn hc
    · obtain rfl : d = '/' := beq_iff_eq.1 hd
      rw [rational?_append hl] at h
      obtain ⟨n, hn, h⟩ := Option.bind_eq_some_iff.1 h
      obtain ⟨k, hk, -⟩ := Option.bind_eq_some_iff.1 h
      rcases List.mem_append.1 hc with hc | hc
      · exact hinteger hn hc
      · rcases List.mem_cons.1 hc with rfl | hc
        · exact Or.inr (Or.inr (Or.inr (Or.inr rfl)))
        · exact hinteger hk hc

end Literal

namespace Term

open Literal

/-! ### Reading real numbers -/

variable {read? : List Char → Option Rat} {text : String} {cs : List Char}

/-- **What comes of a text that is to be a real number**, once the blanks at its ends are cut off.
A decimal whose exponent fits 64 bits, and that is not scaled by more than the largest scale, is the
number that it denotes; and so it is for the reader of rational numbers, if that accepts it at all.
Any other text is what the reader of rational numbers makes of it, and refused if this refuses it.
Reading decimals by positions and in words cuts no character in two and lets no sum overflow. -/
theorem realOfTextBy_cases (hread : ReadsIntegers read?) (htrim : Text.trim text.toList = cs) :
    (∃ front back, text.toList = front ++ cs ++ back ∧
        (∀ c ∈ front ++ back, Text.isBlank c = true) ∧
        (∀ c ∈ cs.head?, Text.isBlank c = false) ∧ ∀ c ∈ cs.getLast?, Text.isBlank c = false) ∧
      (∀ x, decimal? cs = some x ↔ ∃ d : Decimal, d.text = cs ∧ d.Readable ∧ d.value = x) ∧
      (∀ d : Decimal, d.text = cs → d.Readable →
        realOfTextBy read? text = .ok (.real d.value) ∧ ∀ y, read? cs = some y → y = d.value) ∧
      ((∀ d : Decimal, d.text = cs → ¬d.Readable) →
        (∀ t, realOfTextBy read? text = .ok t ↔ ∃ x, read? cs = some x ∧ t = .real x) ∧
          (realOfTextBy read? text = .error (.invalidNumber .real text) ↔ read? cs = none)) ∧
      (String.utf8Len cs < Nat.pow 2 63 → decimalInBytes cs = .ok (decimal? cs)) ∧
      realOfText text = realOfTextBy rational? text := by
  subst htrim
  refine ⟨Text.exists_trim text.toList, fun x => decimal?_eq_some_iff, fun d htext hd => ?_,
    fun hnone => ?_, decimalInBytes_eq, rfl⟩
  · have hdecimal := decimal?_eq_some_iff.2 ⟨d, htext, hd, rfl⟩
    refine ⟨?_, fun y hy => (hread.eq_of_decimal? hdecimal hy).symm⟩
    rw [realOfTextBy, numberOfText, hdecimal]
    rfl
  · rw [realOfTextBy, numberOfText, decimal?_eq_none hnone, Option.none_or]
    cases read? (Text.trim text.toList) with
    | none => simp
    | some x => simp [eq_comm]

/-- The decimal `-1.25e3`. -/
def scaledExample : Decimal where
  mantissa := ⟨.minus, ['1'], some ['2', '5'], List.all_eq_true.1 rfl, by decide⟩
  exponent := some ('e', ⟨.absent, ['3'], List.all_eq_true.1 rfl, by decide⟩)
  marked := by decide

theorem readable_scaledExample : scaledExample.Readable := by
  refine ⟨fun p hp => ?_, by decide⟩
  cases hp
  exact ⟨by decide, by decide⟩

theorem value_scaledExample : scaledExample.value = -1250 := by
  have hdigits : digitsValue ['1', '2', '5'] = 125 := rfl
  have hpower : digitsValue ['3'] = 3 := rfl
  norm_num [Decimal.value, Mantissa.scaled, Mantissa.fraction, Decimal.power, scaledExample,
    Numeral.value, Sign.factor, hdigits, hpower]

/-- One text is a decimal with blanks around it, the other is none. -/
theorem realOfTextBy_cases_scaledExample :
    ReadsIntegers rational? ∧ Text.trim " -1.25e3\t".toList = scaledExample.text ∧
      scaledExample.Readable ∧ realOfText " -1.25e3\t" = .ok (.real (-1250)) ∧
      decimalInBytes scaledExample.text = .ok (some (-1250)) ∧
      (∀ d : Decimal, d.text = "-2/6".toList → ¬d.Readable) ∧
      realOfText "-2/6" = .ok (.real (-1 / 3)) := by
  have htrim : Text.trim " -1.25e3\t".toList = scaledExample.text := by decide
  have htrim' : Text.trim "-2/6".toList = "-2/6".toList := by decide
  obtain ⟨-, hdecimal, hread, -, hbytes, huse⟩ := realOfTextBy_cases readsIntegers_rational? htrim
  obtain ⟨-, hdecimal', -, hother, -, huse'⟩ := realOfTextBy_cases readsIntegers_rational? htrim'
  have hnone : ∀ d : Decimal, d.text = "-2/6".toList → ¬d.Readable := by
    intro d htext hd
    have hsome := (hdecimal' d.value).2 ⟨d, htext, hd, rfl⟩
    rw [show decimal? "-2/6".toList = none by decide] at hsome
    cases hsome
  have hthird : rational? "-2/6".toList = some (-1 / 3) := by
    have hquotient : Rat.divInt (-2) 6 = -1 / 3 := by rw [Rat.divInt_eq_div]; norm_num
    exact (rational?_append (l := ['-', '2']) (by simp)).trans (congrArg some hquotient)
  have hok := ((hother hnone).1 (.real (-1 / 3))).2 ⟨_, hthird, rfl⟩
  have hvalue := (hread scaledExample rfl readable_scaledExample).1
  have hsome := (hdecimal (-1250)).2
    ⟨scaledExample, rfl, readable_scaledExample, value_scaledExample⟩
  rw [value_scaledExample] at hvalue
  rw [hsome] at hbytes
  exact ⟨readsIntegers_rational?, htrim, readable_scaledExample, huse.trans hvalue,
    hbytes (by decide), hnone, huse'.trans hok⟩

end Term

end ClauseForm
