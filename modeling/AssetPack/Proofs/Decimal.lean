import AssetPack.Double.Read
import AssetPack.Proofs.Json.Parts

/-!
# Normal decimals

Every decimal is put into its one form: zeros at both ends of the digits go, and the point is counted
from the first digit that stays. The written form of a normal decimal is read back as that decimal,
and is a numeral in every style of writing.
-/
namespace AssetPack
namespace Decimal
open Json (Digits digits_zero takeWhile_digits dropWhile_digits)

/-- The one form of a number: digits with no zero at either end, and none for zero. -/
structure Normal (d : Decimal) : Prop where
  digit : ∀ c ∈ d.digits, c.isDigit
  first : d.digits.head? ≠ some '0'
  last : d.digits.getLast? ≠ some '0'
  zero : d.digits = [] → d.point = 0

theorem dropWhile_zeros {digits : List Char} (h : digits.head? ≠ some '0') (n : Nat) :
    (List.replicate n '0' ++ digits).dropWhile (· == '0') = digits := by
  rw [List.dropWhile_append_of_pos (by simp)]
  refine Json.dropWhile_ends fun c hc => ?_
  have hne : c ≠ '0' := by
    rintro rfl
    exact h hc
  simpa using hne

theorem trimEnd_append_zeros {digits : List Char} (h : digits.getLast? ≠ some '0') (n : Nat) :
    trimEnd (digits ++ List.replicate n '0') = digits := by
  have hhead : digits.reverse.head? ≠ some '0' := by rwa [List.head?_reverse]
  rw [trimEnd, List.reverse_append, List.reverse_replicate, dropWhile_zeros hhead, List.reverse_reverse]

/-- Digits whose zeros at the front and at the end are told apart. -/
theorem ofParts_eq {whole fraction digits : List Char} {front back : Nat} (exponent : Int)
    (hall : whole ++ fraction = List.replicate front '0' ++ (digits ++ List.replicate back '0'))
    (hne : digits ≠ []) (hfirst : digits.head? ≠ some '0') (hlast : digits.getLast? ≠ some '0') :
    ofParts whole fraction exponent = ⟨digits, whole.length - front + exponent⟩ := by
  have hkept : (whole ++ fraction).dropWhile (· == '0') = digits ++ List.replicate back '0' := by
    rw [hall, dropWhile_zeros]
    cases digits with
    | nil => exact (hne rfl).elim
    | cons c digits => exact hfirst
  have hempty : digits.isEmpty = false := by
    cases digits with
    | nil => exact (hne rfl).elim
    | cons c digits => rfl
  have hlength : (whole ++ fraction).length - (digits ++ List.replicate back '0').length = front := by
    rw [hall]
    simp only [List.length_append, List.length_replicate]
    omega
  simp only [ofParts, hkept, hlength, trimEnd_append_zeros hlast, hempty, Bool.false_eq_true, if_false]

theorem ofParts_zeros {whole fraction : List Char} {n : Nat} (exponent : Int)
    (hall : whole ++ fraction = List.replicate n '0') : ofParts whole fraction exponent = ⟨[], 0⟩ := by
  have hkept : (whole ++ fraction).dropWhile (· == '0') = [] := by
    rw [hall, ← List.append_nil (List.replicate n '0'), dropWhile_zeros (by simp)]
  simp only [ofParts, hkept]
  rfl

theorem split_front (text : List Char) :
    ∃ n rest, text = List.replicate n '0' ++ rest ∧ rest.head? ≠ some '0' := by
  induction text with
  | nil => exact ⟨0, [], rfl, by simp⟩
  | cons c text ih =>
    by_cases hc : c = '0'
    · obtain ⟨n, rest, htext, hrest⟩ := ih
      exact ⟨n + 1, rest, by rw [hc, htext, List.replicate_succ, List.cons_append], hrest⟩
    · exact ⟨0, c :: text, rfl, by simpa using hc⟩

/-- Every run of digits is zeros, or normal digits with zeros at both ends. -/
theorem split_zeros (text : List Char) : (∃ n, text = List.replicate n '0') ∨
    ∃ front digits back, text = List.replicate front '0' ++ (digits ++ List.replicate back '0') ∧
      digits ≠ [] ∧ digits.head? ≠ some '0' ∧ digits.getLast? ≠ some '0' := by
  obtain ⟨front, rest, htext, hrest⟩ := split_front text
  obtain ⟨back, tsar, hreverse, htsar⟩ := split_front rest.reverse
  have hback : rest = tsar.reverse ++ List.replicate back '0' := by
    rw [← List.reverse_reverse rest, hreverse, List.reverse_append, List.reverse_replicate]
  cases tsar with
  | nil =>
    refine .inl ⟨front + back, ?_⟩
    rw [htext, hback, List.reverse_nil, List.nil_append, List.replicate_append_replicate]
  | cons c tsar =>
    refine .inr ⟨front, (c :: tsar).reverse, back, by rw [htext, hback], by simp, ?_, ?_⟩
    · obtain ⟨d, digits, hd⟩ := List.exists_cons_of_ne_nil (l := (c :: tsar).reverse) (by simp)
      rw [hback, hd] at hrest
      rw [hd]
      exact hrest
    · rwa [List.getLast?_reverse]

/-- What a numeral stands for is in normal form. -/
theorem normal_ofParts {whole fraction : List Char} (exponent : Int)
    (h : ∀ c ∈ whole ++ fraction, c.isDigit) : (ofParts whole fraction exponent).Normal := by
  rcases split_zeros (whole ++ fraction) with ⟨n, hall⟩ | ⟨front, digits, back, hall, hne, hfirst, hlast⟩
  · rw [ofParts_zeros exponent hall]
    exact ⟨by simp, by simp, by simp, fun _ => rfl⟩
  · rw [ofParts_eq exponent hall hne hfirst hlast]
    refine ⟨fun c hc => h c ?_, hfirst, hlast, fun hnil => (hne hnil).elim⟩
    rw [hall]
    exact List.mem_append_right _ (List.mem_append_left _ hc)

theorem normal_ofNat (n : Nat) (exponent : Int) : (ofNat n exponent).Normal := by
  refine normal_ofParts exponent fun c hc => ?_
  rw [List.append_nil] at hc
  exact Nat.isDigit_of_mem_toDigits (by decide) (by decide) hc

/-! ## Integers in plain text -/

/-- The numeral of a whole number. -/
theorem digits_toDigits (n : Nat) : Digits (Nat.toDigits 10 n) :=
  ⟨Nat.toDigits_ne_nil, fun _ hc => Nat.isDigit_of_mem_toDigits (by decide) (by decide) hc⟩

theorem toList_toString_int (n : Int) : (toString n).toList =
    (if n < 0 then ['-'] else []) ++ Nat.toDigits 10 n.natAbs := by
  rw [Int.toString_eq_repr, Int.repr_eq_if]
  by_cases h : 0 ≤ n
  · have hn : n.toNat = n.natAbs := by omega
    rw [if_pos h, if_neg (Int.not_lt.mpr h), Nat.toList_repr, hn, List.nil_append]
  · have hn : (-n).toNat = n.natAbs := by omega
    rw [if_neg h, if_pos (Int.not_le.mp h), String.toList_append, Nat.toList_repr, hn]
    rfl

theorem splitSign_digits {digits : List Char} (h : Digits digits) :
    Text.splitSign digits = (false, digits) := by
  unfold Text.splitSign
  split
  · exact absurd (h.digit '-' List.mem_cons_self) (by decide)
  · exact absurd (h.digit '+' List.mem_cons_self) (by decide)
  · rfl

/-- A signed numeral is read as an integer. -/
theorem readInt?_of_splitSign {text digits : List Char} {negative : Bool} (h : Digits digits)
    (hsign : Text.splitSign text = (negative, digits)) : Text.readInt? text =
      some (if negative then -(Nat.ofDigitChars 10 digits 0 : Int) else Nat.ofDigitChars 10 digits 0) := by
  have hdigits : ¬(digits.isEmpty = true ∨ (!digits.all Char.isDigit) = true) := by
    have hall : digits.all Char.isDigit = true := List.all_eq_true.mpr h.digit
    have hne : digits.isEmpty = false := by simpa using h.nonempty
    simp [hall, hne]
  simp only [Text.readInt?, hsign, hdigits, if_false]

theorem readInt?_exponentChars (plus : Bool) (n : Int) : Text.readInt? (exponentChars plus n) = some n := by
  have hdigits := digits_toDigits n.natAbs
  have hvalue : Nat.ofDigitChars 10 (Nat.toDigits 10 n.natAbs) 0 = n.natAbs := Nat.ofDigitChars_ten_toDigits
  rw [exponentChars, toList_toString_int]
  by_cases hneg : n < 0
  · have hplus : ¬0 < n := by omega
    have hsign : Text.splitSign ('-' :: Nat.toDigits 10 n.natAbs) = (true, Nat.toDigits 10 n.natAbs) := rfl
    simp only [hneg, hplus, decide_false, Bool.and_false, Bool.false_eq_true, if_false, if_true,
      List.nil_append, List.cons_append]
    rw [readInt?_of_splitSign hdigits hsign, hvalue, if_pos rfl, Option.some.injEq]
    omega
  · have habs : (n.natAbs : Int) = n := by omega
    have hsign : Text.splitSign ((if (plus && decide (0 < n)) = true then ['+'] else []) ++
        Nat.toDigits 10 n.natAbs) = (false, Nat.toDigits 10 n.natAbs) := by
      split
      · rfl
      · exact splitSign_digits hdigits
    simp only [hneg, if_false, List.nil_append]
    rw [readInt?_of_splitSign hdigits hsign, hvalue, if_neg Bool.false_ne_true, habs]

/-! ## Decimals in plain text -/

section
variable {whole fraction rest : List Char}

theorem splitDigits_append {digits : List Char} (h : ∀ c ∈ digits, c.isDigit)
    (hrest : ∀ c ∈ rest.head?, ¬c.isDigit) : splitDigits (digits ++ rest) = (digits, rest) := by
  rw [splitDigits, takeWhile_digits h hrest, dropWhile_digits h hrest]

/-- A numeral up to its exponent. -/
theorem read?_point (hwhole : ∀ c ∈ whole, c.isDigit) (hfraction : Digits fraction)
    (hrest : ∀ c ∈ rest.head?, ¬c.isDigit) : read? (whole ++ '.' :: (fraction ++ rest)) =
      (readExponent? rest).map (ofParts whole fraction) := by
  have hpoint : splitDigits (whole ++ '.' :: (fraction ++ rest)) = (whole, '.' :: (fraction ++ rest)) := by
    refine splitDigits_append hwhole fun c hc => ?_
    cases hc
    decide
  have hne : ¬(whole.isEmpty = true ∧ fraction.isEmpty = true) := by
    rintro ⟨_, h⟩
    exact hfraction.nonempty (List.isEmpty_iff.mp h)
  simp only [read?, hpoint, splitPoint, splitDigits_append hfraction.digit hrest, hne, if_false]

/-- A numeral without a point up to its exponent. -/
theorem read?_whole (hwhole : Digits whole) (hrest : ∀ c ∈ rest.head?, ¬c.isDigit ∧ c ≠ '.') :
    read? (whole ++ rest) = (readExponent? rest).map (ofParts whole []) := by
  have hsplit := splitDigits_append hwhole.digit fun c hc => (hrest c hc).1
  have hne : whole.isEmpty = false := by simpa using hwhole.nonempty
  have hpoint : splitPoint rest = ([], rest) := by
    unfold splitPoint
    split
    · exact absurd rfl (hrest '.' rfl).2
    · rfl
  simp only [read?, hsplit, hpoint, hne, Bool.false_eq_true, false_and, if_false]

end

theorem mem_zeros {n : Nat} {c : Char} (h : c ∈ List.replicate n '0') : c.isDigit := by
  rw [List.eq_of_mem_replicate h]
  decide

section
variable {digits rest : List Char} {first second : Char} {point : Int}

/-! ## The parts of a written decimal -/

theorem digits_first (h : Digits (first :: rest)) : Digits [first] :=
  ⟨List.cons_ne_nil _ _, List.forall_mem_singleton.mpr (h.digit first List.mem_cons_self)⟩

theorem digits_rest (h : Digits (first :: second :: rest)) : Digits (second :: rest) :=
  ⟨List.cons_ne_nil _ _, fun c hc => h.digit c (List.mem_cons_of_mem _ hc)⟩

theorem digits_behind_zeros (h : Digits digits) (n : Nat) : Digits (List.replicate n '0' ++ digits) := by
  refine ⟨fun hnil => h.nonempty (List.append_eq_nil_iff.mp hnil).2, fun c hc => ?_⟩
  rcases List.mem_append.mp hc with hc | hc
  · exact mem_zeros hc
  · exact h.digit c hc

theorem digits_before_point (h : Digits digits) (hpoint : 0 < point) :
    Digits (digits.take point.toNat ++ List.replicate (point.toNat - digits.length) '0') := by
  refine ⟨fun hnil => ?_, fun c hc => ?_⟩
  · have hlength := congrArg List.length hnil
    simp only [List.length_append, List.length_take, List.length_replicate, List.length_nil] at hlength
    omega
  · rcases List.mem_append.mp hc with hc | hc
    · exact h.digit c (List.mem_of_mem_take hc)
    · exact mem_zeros hc

theorem digits_after_point (h : Digits digits) (n : Nat) :
    Digits (if (digits.drop n).isEmpty then ['0'] else digits.drop n) := by
  split
  · exact digits_zero
  · rename_i hne
    exact ⟨by simpa using hne, fun c hc => h.digit c (List.mem_of_mem_drop hc)⟩

/-! ## What is read back -/

/-- The point stands in front of all digits. -/
theorem read?_front (hdigits : Digits digits) (hfirst : digits.head? ≠ some '0')
    (hlast : digits.getLast? ≠ some '0') (hpoint : point ≤ 0) :
    read? ('0' :: '.' :: (List.replicate (-point).toNat '0' ++ digits)) = some ⟨digits, point⟩ := by
  have hwhole : ∀ c ∈ ['0'], c.isDigit := List.forall_mem_singleton.mpr rfl
  have hrest : ∀ c ∈ ([] : List Char).head?, ¬c.isDigit := by simp
  have hread := read?_point hwhole (digits_behind_zeros hdigits (-point).toNat) hrest
  rw [List.append_nil] at hread
  have hall : ['0'] ++ (List.replicate (-point).toNat '0' ++ digits) =
      List.replicate (1 + (-point).toNat) '0' ++ (digits ++ List.replicate 0 '0') := by
    rw [← List.append_assoc, List.replicate_zero, List.append_nil, ← List.replicate_append_replicate]
    rfl
  refine hread.trans ?_
  rw [readExponent?, Option.map_some, ofParts_eq 0 hall hdigits.nonempty hfirst hlast]
  simp only [List.length_singleton, Option.some.injEq, Decimal.mk.injEq, true_and]
  omega

/-- The point stands behind the first digit. -/
theorem read?_within (hdigits : Digits digits) (hfirst : digits.head? ≠ some '0')
    (hlast : digits.getLast? ≠ some '0') (hpoint : 0 < point) :
    read? (digits.take point.toNat ++ List.replicate (point.toNat - digits.length) '0' ++
      '.' :: (if (digits.drop point.toNat).isEmpty then ['0'] else digits.drop point.toNat)) =
      some ⟨digits, point⟩ := by
  have hlength : (digits.take point.toNat ++
      List.replicate (point.toNat - digits.length) '0').length = point.toNat := by
    simp only [List.length_append, List.length_take, List.length_replicate]
    omega
  have hrest : ∀ c ∈ ([] : List Char).head?, ¬c.isDigit := by simp
  obtain ⟨back, hall⟩ : ∃ back, digits.take point.toNat ++ List.replicate (point.toNat - digits.length) '0' ++
      (if (digits.drop point.toNat).isEmpty then ['0'] else digits.drop point.toNat) =
        List.replicate 0 '0' ++ (digits ++ List.replicate back '0') := by
    by_cases hlen : digits.length ≤ point.toNat
    · refine ⟨point.toNat - digits.length + 1, ?_⟩
      rw [List.drop_eq_nil_of_le hlen, List.take_of_length_le hlen, List.append_assoc, List.replicate_zero,
        List.nil_append, List.replicate_succ']
      rfl
    · have hdrop : digits.drop point.toNat ≠ [] := by
        rw [Ne, List.drop_eq_nil_iff]
        exact hlen
      have hzero : point.toNat - digits.length = 0 := by omega
      refine ⟨0, ?_⟩
      rw [if_neg (by simpa using hdrop), hzero, List.replicate_zero, List.append_nil, List.append_nil,
        List.take_append_drop, List.nil_append]
  have hread := read?_point (digits_before_point hdigits hpoint).digit (digits_after_point hdigits point.toNat) hrest
  rw [List.append_nil] at hread
  rw [hread, readExponent?, Option.map_some, ofParts_eq 0 hall hdigits.nonempty hfirst hlast, hlength]
  simp only [Option.some.injEq, Decimal.mk.injEq, true_and]
  omega

/-- The point stands behind the first digit, and an exponent tells where it belongs. -/
theorem read?_exponent (plus : Bool) (hdigits : Digits (first :: rest))
    (hfirst : first ≠ '0') (hlast : (first :: rest).getLast? ≠ some '0') :
    read? ((if rest.isEmpty then [first] else first :: '.' :: rest) ++
      'e' :: exponentChars plus (point - 1)) = some ⟨first :: rest, point⟩ := by
  have hend : readExponent? ('e' :: exponentChars plus (point - 1)) = some (point - 1) := by
    rw [readExponent?, if_pos (.inl rfl), readInt?_exponentChars]
  have hhead : (first :: rest).head? ≠ some '0' := by simpa using hfirst
  have hmark : ∀ c ∈ ('e' :: exponentChars plus (point - 1)).head?, ¬c.isDigit ∧ c ≠ '.' := by
    intro c hc
    cases hc
    decide
  have hall : [first] ++ rest = List.replicate 0 '0' ++ (first :: rest ++ List.replicate 0 '0') := by simp
  have hparts := ofParts_eq (point - 1) hall (List.cons_ne_nil _ _) hhead hlast
  have hpoint : ([first].length : Int) - (0 : Nat) + (point - 1) = point := by
    simp only [List.length_singleton]
    omega
  rw [hpoint] at hparts
  cases rest with
  | nil =>
    rw [List.isEmpty_nil, if_pos rfl, read?_whole (digits_first hdigits) hmark, hend, Option.map_some, hparts]
  | cons second rest =>
    have hread := read?_point (digits_first hdigits).digit (digits_rest hdigits) fun c hc => (hmark c hc).1
    rw [List.isEmpty_cons, if_neg Bool.false_ne_true]
    exact hread.trans (by rw [hend, Option.map_some, hparts])

end

/-- The written form of a normal decimal is read back. -/
theorem read?_toChars (plus : Bool) {d : Decimal} (h : d.Normal) : read? (d.toChars plus) = some d := by
  obtain ⟨digits, point⟩ := d
  obtain ⟨hdigit, hfirst, hlast, hzero⟩ := h
  simp only at hdigit hfirst hlast hzero
  cases digits with
  | nil =>
    rw [hzero rfl]
    rfl
  | cons first rest =>
    have hdigits : Digits (first :: rest) := ⟨List.cons_ne_nil _ _, hdigit⟩
    simp only [toChars]
    split
    · split
      · exact read?_front hdigits hfirst hlast ‹_›
      · exact read?_within hdigits hfirst hlast (by omega)
    · exact read?_exponent plus hdigits (by simpa using hfirst) hlast

/-! ## Written decimals are numerals -/

open Json (IsNumeral IsFraction IsExponent)

theorem isExponent_exponentChars (plus : Bool) (n : Int) : IsExponent ('e' :: exponentChars plus n) := by
  have hdigits := digits_toDigits n.natAbs
  rw [exponentChars, toList_toString_int]
  by_cases hneg : n < 0
  · have hplus : ¬0 < n := by omega
    simp only [hneg, hplus, decide_false, Bool.and_false, Bool.false_eq_true, if_false, if_true,
      List.nil_append, List.cons_append]
    exact .signed (.inl rfl) (.inr rfl) hdigits
  · simp only [hneg, if_false, List.nil_append]
    split
    · exact .signed (.inl rfl) (.inl rfl) hdigits
    · exact .plain (.inl rfl) hdigits

/-- A written decimal is a whole number, a fraction and an exponent. -/
theorem toChars_parts (plus : Bool) {d : Decimal} (h : d.Normal) : ∃ whole fraction exponent,
    d.toChars plus = whole ++ fraction ++ exponent ∧ Digits whole ∧ IsFraction fraction ∧
      IsExponent exponent := by
  obtain ⟨digits, point⟩ := d
  cases digits with
  | nil => exact ⟨['0'], ['.', '0'], [], rfl, digits_zero, .point digits_zero, .none⟩
  | cons first rest =>
    have hdigits : Digits (first :: rest) := ⟨List.cons_ne_nil _ _, h.digit⟩
    by_cases hpos : (Decimal.mk (first :: rest) point).Positional
    · by_cases hpoint : point ≤ 0
      · refine ⟨['0'], _, [], ?_, digits_zero,
          .point (digits_behind_zeros hdigits (-point).toNat), .none⟩
        simp only [toChars, hpos, hpoint, if_true, List.append_nil]
        rfl
      · refine ⟨_, _, [], ?_, digits_before_point hdigits (Int.not_le.mp hpoint),
          .point (digits_after_point hdigits point.toNat), .none⟩
        simp only [toChars, hpos, hpoint, if_true, if_false, List.append_nil]
    · have hexponent := isExponent_exponentChars plus (point - 1)
      cases rest with
      | nil =>
        refine ⟨[first], [], _, ?_, digits_first hdigits, .none, hexponent⟩
        simp only [toChars, hpos, if_false, List.isEmpty_nil, if_true]
        rfl
      | cons second rest =>
        refine ⟨[first], '.' :: second :: rest, _, ?_, digits_first hdigits,
          .point (digits_rest hdigits), hexponent⟩
        simp only [toChars, hpos, if_false, List.isEmpty_cons, Bool.false_eq_true]
        rfl

/-- With or without a minus in front, a written decimal is a numeral. -/
theorem isNumeral_toChars (plus negative : Bool) {d : Decimal} (h : d.Normal) :
    IsNumeral ((if negative then ['-'] else []) ++ d.toChars plus) := by
  obtain ⟨whole, fraction, exponent, heq, hwhole, hfraction, hexponent⟩ := toChars_parts plus h
  have hsign : (if negative then ['-'] else []) = [] ∨ (if negative then ['-'] else []) = ['-'] := by
    cases negative
    · exact .inl rfl
    · exact .inr rfl
  rw [heq, ← List.append_assoc, ← List.append_assoc]
  exact .mk hsign hwhole hfraction hexponent

/-- A written decimal begins with a digit. -/
theorem toChars_head (plus : Bool) {d : Decimal} (h : d.Normal) :
    ∃ c rest, d.toChars plus = c :: rest ∧ c.isDigit := by
  obtain ⟨whole, fraction, exponent, heq, hwhole, _, _⟩ := toChars_parts plus h
  cases whole with
  | nil => exact (hwhole.nonempty rfl).elim
  | cons c whole => exact ⟨c, _, heq, hwhole.digit c List.mem_cons_self⟩

end Decimal
end AssetPack
