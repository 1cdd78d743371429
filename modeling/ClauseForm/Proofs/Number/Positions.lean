import Mathlib.Data.String.Basic
import ClauseForm.Proofs.Number.Forms

/-!
# Reading decimals by positions and in words

Where a text is held as bytes, the exponent of a decimal is found by its position, and the
text is cut there. Characters take up to four bytes, so that a position may lie within one;
and positions, exponents and numbers of digits are held in words of 64 bits.
`ClauseForm.Literal.decimalInBytes` reads decimals in this way, and stops where a text is
cut within a character or behind its end, and where a sum of positions does not fit a word.

It never stops: the letter of the exponent takes one byte, so that both cuts are made between
characters. And nothing is lost by words: a difference of exponent and number of digits that
does not fit is far beyond what a decimal may be scaled by. So for every text that a
memory can hold, the answer is that of `ClauseForm.Literal.decimal?`
(`ClauseForm.Literal.decimalInBytes_eq`).
-/

namespace ClauseForm

namespace Literal

/-- What can stop a reading by positions. -/
inductive Trap where
  /-- A text is cut within a character or behind its end. -/
  | betweenBytes
  /-- A sum of positions does not fit a word. -/
  | overflow

/-! ### Positions -/

/-- The position of the first character of a kind: the number of bytes in front of it. -/
def bytePosition? (p : Char → Bool) : List Char → Option Nat
  | [] => none
  | c :: cs => if p c then some 0 else (bytePosition? p cs).map (c.utf8Size + ·)

/-- The sum of two positions. -/
def addPositions (i j : Nat) : Except Trap Nat :=
  if i + j < Nat.pow 2 64 then .ok (i + j) else .error .overflow

/-- The parts of a text in front of a position and behind it. -/
def splitAtByte : Nat → List Char → Except Trap (List Char × List Char)
  | 0, cs => .ok ([], cs)
  | _ + 1, [] => .error .betweenBytes
  | i + 1, c :: cs =>
    if c.utf8Size ≤ i + 1 then
      (splitAtByte (i + 1 - c.utf8Size) cs).map fun parts => (c :: parts.1, parts.2)
    else .error .betweenBytes

variable {p : Char → Bool} {cs l r : List Char} {c : Char}

theorem bytePosition?_of_forall (h : ∀ c ∈ cs, p c = false) : bytePosition? p cs = none := by
  induction cs with
  | nil => rfl
  | cons c cs ih =>
    rw [List.forall_mem_cons] at h
    rw [bytePosition?, h.1, ih h.2]
    rfl

theorem bytePosition?_append (h : ∀ d ∈ l, p d = false) (hc : p c = true) :
    bytePosition? p (l ++ c :: r) = some (String.utf8Len l) := by
  induction l with
  | nil => rw [List.nil_append, bytePosition?, if_pos hc, String.utf8Len_nil]
  | cons d l ih =>
    rw [List.forall_mem_cons] at h
    rw [List.cons_append, bytePosition?, h.1, ih h.2, String.utf8Len_cons, Nat.add_comm]
    rfl

/-- A text is cut at every position between two characters. -/
theorem splitAtByte_append (l r : List Char) :
    splitAtByte (String.utf8Len l) (l ++ r) = .ok (l, r) := by
  induction l with
  | nil => rw [String.utf8Len_nil, List.nil_append, splitAtByte]
  | cons c l ih =>
    -- a character takes a byte at least, so that the position is not zero
    obtain ⟨i, hi⟩ : ∃ i, String.utf8Len (c :: l) = i + 1 := by
      have hpos := c.utf8Size_pos
      rw [String.utf8Len_cons]
      exact ⟨String.utf8Len l + c.utf8Size - 1, by omega⟩
    have hrest : i + 1 - c.utf8Size = String.utf8Len l := by
      rw [← hi, String.utf8Len_cons]
      omega
    have hle : c.utf8Size ≤ i + 1 := by
      rw [← hi, String.utf8Len_cons]
      omega
    rw [hi, List.cons_append, splitAtByte, if_pos hle, hrest, ih]
    rfl

/-- A text is cut nowhere else. -/
theorem eq_of_splitAtByte {i : Nat} (h : splitAtByte i cs = .ok (l, r)) :
    cs = l ++ r ∧ i = String.utf8Len l := by
  induction cs generalizing i l with
  | nil =>
    cases i with
    | zero => cases h; exact ⟨rfl, rfl⟩
    | succ i => cases h
  | cons c cs ih =>
    cases i with
    | zero => cases h; exact ⟨rfl, rfl⟩
    | succ i =>
      rw [splitAtByte] at h
      split at h
      · rename_i hle
        cases hrest : splitAtByte (i + 1 - c.utf8Size) cs with
        | error trap => rw [hrest] at h; cases h
        | ok parts =>
          rw [hrest] at h
          cases h
          obtain ⟨hcs, hi⟩ := ih hrest
          refine ⟨congrArg _ hcs, ?_⟩
          rw [String.utf8Len_cons, ← hi]
          omega
      · cases h

/-- **The positions at which a text is cut are its valid ones.** -/
theorem exists_splitAtByte_iff_isValid (i : Nat) (s : String) :
    (∃ parts, splitAtByte i s.toList = .ok parts) ↔ (⟨i⟩ : String.Pos.Raw).IsValid s := by
  rw [String.Pos.Raw.isValid_iff_exists_append]
  constructor
  · rintro ⟨⟨l, r⟩, hcut⟩
    obtain ⟨htext, rfl⟩ := eq_of_splitAtByte hcut
    refine ⟨String.ofList l, String.ofList r, ?_, ?_⟩
    · rw [← String.ofList_append, ← htext, String.ofList_toList]
    · rw [String.rawEndPos, String.utf8ByteSize_ofList]
  · rintro ⟨s₁, s₂, rfl, hi⟩
    have hlen : i = String.utf8Len s₁.toList := by
      rw [String.utf8Len_toList]
      exact congrArg String.Pos.Raw.byteIdx hi
    exact ⟨_, by rw [hlen, String.toList_append]; exact splitAtByte_append _ _⟩

/-! ### Words -/

/-- An integer, if 64 bits can hold it with its sign. -/
def word? (n : Int) : Option Int :=
  if -Int.pow 2 63 ≤ n ∧ n < Int.pow 2 63 then some n else none

/-- The number that a sign and digits with at most one point denote, times a power of ten. The
digits behind the point are counted in bytes, and all numbers are held in words but the digits
themselves. -/
def fixedInWords? (cs : List Char) (exponent : Int) : Option Rat :=
  let signed := unsigned cs
  let halves := cut (· == '.') signed.2
  let fraction := halves.2.getD []
  let digits := halves.1 ++ fraction
  if digits.isEmpty || !digits.all Char.isDigit then none
  else
    (word? (String.utf8Len fraction)).bind fun places =>
      (word? (exponent - places)).bind fun shift =>
        if maxScale < shift.natAbs then none
        else some (scale (withSign signed.1 (digitsValue digits)) shift)

/-- The number that a decimal denotes, read by positions and in words. -/
def decimalInBytes (cs : List Char) : Except Trap (Option Rat) :=
  match bytePosition? isMarker cs with
  | none => .ok (fixedInWords? cs 0)
  | some i => do
    let mantissa := (← splitAtByte i cs).1
    let exponent := (← splitAtByte (← addPositions i 1) cs).2
    return (exponent? exponent).bind (fixedInWords? mantissa)

theorem word?_of_range {n : Int} (h : -Int.pow 2 63 ≤ n ∧ n < Int.pow 2 63) : word? n = some n :=
  if_pos h

/-- Digits take a byte each. -/
theorem utf8Len_of_isDigit (h : ∀ c ∈ cs, c.isDigit = true) : String.utf8Len cs = cs.length := by
  induction cs with
  | nil => rfl
  | cons c cs ih =>
    rw [List.forall_mem_cons] at h
    have hsize : c.utf8Size = 1 := by
      have hc := h.1
      simp only [Char.isDigit, Bool.and_eq_true, decide_eq_true_eq] at hc
      have hlt : (57 : UInt32) ≤ 127 := by decide
      exact Char.utf8Size_eq_one_iff.2 (UInt32.le_trans hc.2 hlt)
    rw [String.utf8Len_cons, ih h.2, hsize, List.length_cons]

theorem utf8Len_marker (h : isMarker c = true) : c.utf8Size = 1 := by
  rw [isMarker, Bool.or_eq_true, beq_iff_eq, beq_iff_eq] at h
  rcases h with rfl | rfl <;> rfl

theorem Mantissa.length_fraction_le (m : Mantissa) : m.fraction.length ≤ String.utf8Len m.text := by
  have hdigits : ∀ c ∈ m.fraction, c.isDigit = true := fun c hc =>
    m.isDigit c (List.mem_append_right _ hc)
  rw [← utf8Len_of_isDigit hdigits, Mantissa.text, Mantissa.body, String.utf8Len_append,
    String.utf8Len_append, Mantissa.fraction]
  cases m.behind with
  | none => simp
  | some ds =>
    rw [Option.getD_some, Option.elim_some, String.utf8Len_cons]
    omega

/-- A mantissa is read alike in words and without them. -/
theorem fixedInWords?_text (m : Mantissa) (e : Int)
    (hlen : String.utf8Len m.text < Nat.pow 2 63) : fixedInWords? m.text e = fixed? m.text e := by
  have hdigits : ∀ c ∈ m.fraction, c.isDigit = true := fun c hc =>
    m.isDigit c (List.mem_append_right _ hc)
  have hpow : Int.pow 2 63 = 9223372036854775808 := rfl
  have hpow' : Nat.pow 2 63 = 9223372036854775808 := rfl
  have hfraction := m.length_fraction_le
  have hcheck := exists_mantissa_iff.1 ⟨m, rfl⟩
  rw [m.unpointed_text] at hcheck
  have hplaces : word? (String.utf8Len m.fraction) = some (m.fraction.length : Int) := by
    rw [utf8Len_of_isDigit hdigits]
    exact word?_of_range (by omega)
  rw [fixed?_text]
  simp only [fixedInWords?, m.unsigned_text, m.cut_body]
  change (if ((m.whole ++ m.fraction).isEmpty || !(m.whole ++ m.fraction).all Char.isDigit) = true
    then none else (word? (String.utf8Len m.fraction)).bind fun places =>
      (word? (e - places)).bind fun shift => if maxScale < shift.natAbs then none else
        some (scale (withSign m.sign.isMinus (digitsValue (m.whole ++ m.fraction))) shift)) = _
  rw [hcheck, if_neg Bool.false_ne_true, hplaces, Option.bind_some]
  by_cases hshift : -Int.pow 2 63 ≤ e - m.fraction.length ∧ e - m.fraction.length < Int.pow 2 63
  · rw [word?_of_range hshift, Option.bind_some, m.scale_eq]
  · -- the difference does not fit a word, and so is beyond every scale
    have hfar : maxScale < (e - m.fraction.length).natAbs := by
      unfold maxScale
      omega
    rw [word?, if_neg hshift, if_pos hfar]
    rfl

theorem fixedInWords?_eq (e : Int) (hlen : String.utf8Len cs < Nat.pow 2 63) :
    fixedInWords? cs e = fixed? cs e := by
  by_cases h : ∃ m : Mantissa, m.text = cs
  · obtain ⟨m, rfl⟩ := h
    exact fixedInWords?_text m e hlen
  · rw [fixed?_of_forall (not_exists.1 h)]
    rw [exists_mantissa_iff, Bool.not_eq_false] at h
    exact if_pos h

/-- **Reading by positions and in words never stops**, and reads decimals as they are read without
positions and words, in every text of less than `2 ^ 63` bytes. -/
theorem decimalInBytes_eq (hlen : String.utf8Len cs < Nat.pow 2 63) :
    decimalInBytes cs = .ok (decimal? cs) := by
  unfold decimalInBytes decimal?
  rw [show (fun c => c == 'e' || c == 'E') = isMarker from rfl]
  rcases cut_cases isMarker cs with ⟨hnone, hcut⟩ | ⟨l, c, r, rfl, hl, hc, hcut⟩
  · rw [bytePosition?_of_forall hnone, hcut]
    exact congrArg Except.ok (fixedInWords?_eq 0 hlen)
  · rw [String.utf8Len_append, String.utf8Len_cons, utf8Len_marker hc] at hlen
    have hpow : Nat.pow 2 63 < Nat.pow 2 64 := by decide
    have hnext : addPositions (String.utf8Len l) 1 = .ok (String.utf8Len (l ++ [c])) := by
      rw [String.utf8Len_append, String.utf8Len_cons, utf8Len_marker hc, String.utf8Len_nil]
      exact if_pos (by omega)
    have hbehind : splitAtByte (String.utf8Len (l ++ [c])) (l ++ c :: r) = .ok (l ++ [c], r) := by
      rw [← splitAtByte_append, List.append_assoc]
      rfl
    rw [bytePosition?_append hl hc, hcut]
    change (splitAtByte (String.utf8Len l) (l ++ c :: r) >>= fun front =>
      addPositions (String.utf8Len l) 1 >>= fun next =>
        splitAtByte next (l ++ c :: r) >>= fun back =>
          pure ((exponent? back.2).bind (fixedInWords? front.1))) = _
    rw [splitAtByte_append, hnext]
    change (splitAtByte (String.utf8Len (l ++ [c])) (l ++ c :: r) >>= fun back =>
      pure ((exponent? back.2).bind (fixedInWords? l))) = _
    rw [hbehind]
    have hmantissa : fixedInWords? l = fixed? l := by
      ext e : 1
      exact fixedInWords?_eq e (by omega)
    rw [hmantissa]
    rfl

end Literal

end ClauseForm
