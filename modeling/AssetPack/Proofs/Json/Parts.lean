import AssetPack.Json.Read
import AssetPack.Json.Token
import AssetPack.Proofs.Dict

/-!
# What JSON is made of

Numerals have a grammar of their own, and containers nest. A text of JSON holds numerals only, and no name twice.
-/
namespace AssetPack

/-!
## Numerals in a text

The grammar of numerals, and that a numeral is split off whole where no character follows that could
belong to it.
-/

namespace Json

/-- One digit or more. -/
structure Digits (text : List Char) : Prop where
  nonempty : text ≠ []
  digit : ∀ c ∈ text, c.isDigit

theorem digits_zero : Digits ['0'] := ⟨List.cons_ne_nil _ _, List.forall_mem_singleton.mpr rfl⟩

/-- The part of a numeral behind its whole number, up to the exponent. -/
inductive IsFraction : List Char → Prop
  | none : IsFraction []
  | point {digits : List Char} : Digits digits → IsFraction ('.' :: digits)

/-- The exponent of a numeral. -/
inductive IsExponent : List Char → Prop
  | none : IsExponent []
  | plain {mark : Char} {digits : List Char} : mark = 'e' ∨ mark = 'E' → Digits digits →
      IsExponent (mark :: digits)
  | signed {mark sign : Char} {digits : List Char} : mark = 'e' ∨ mark = 'E' →
      sign = '+' ∨ sign = '-' → Digits digits → IsExponent (mark :: sign :: digits)

/-- A numeral: perhaps a minus, a whole number, a fraction and an exponent. -/
inductive IsNumeral : List Char → Prop
  | mk {sign whole fraction exponent : List Char} : sign = [] ∨ sign = ['-'] → Digits whole →
      IsFraction fraction → IsExponent exponent → IsNumeral (sign ++ whole ++ fraction ++ exponent)

/-- No character of a numeral stands at the front. -/
def Ends (tail : List Char) : Prop :=
  ∀ c ∈ tail.head?, ¬c.isDigit ∧ c ≠ '.' ∧ c ≠ 'e' ∧ c ≠ 'E'

theorem takeWhile_ends {p : Char → Bool} {tail : List Char} (h : ∀ c ∈ tail.head?, ¬p c) :
    tail.takeWhile p = [] := by
  cases tail with
  | nil => rfl
  | cons c tail =>
    rw [List.takeWhile_cons, if_neg (h c rfl)]

theorem dropWhile_ends {p : Char → Bool} {tail : List Char} (h : ∀ c ∈ tail.head?, ¬p c) :
    tail.dropWhile p = tail := by
  cases tail with
  | nil => rfl
  | cons c tail =>
    rw [List.dropWhile_cons, if_neg (h c rfl)]

/-- Digits are split off up to the first other character. -/
theorem takeWhile_digits {digits tail : List Char} (h : ∀ c ∈ digits, c.isDigit)
    (htail : ∀ c ∈ tail.head?, ¬c.isDigit) : (digits ++ tail).takeWhile Char.isDigit = digits := by
  rw [List.takeWhile_append_of_pos h, takeWhile_ends htail, List.append_nil]

theorem dropWhile_digits {digits tail : List Char} (h : ∀ c ∈ digits, c.isDigit)
    (htail : ∀ c ∈ tail.head?, ¬c.isDigit) : (digits ++ tail).dropWhile Char.isDigit = tail := by
  rw [List.dropWhile_append_of_pos h, dropWhile_ends htail]

theorem splitDigits?_append {digits tail : List Char} (h : Digits digits)
    (htail : ∀ c ∈ tail.head?, ¬c.isDigit) : splitDigits? (digits ++ tail) = some (digits, tail) := by
  unfold splitDigits?
  rw [takeWhile_digits h.digit htail, dropWhile_digits h.digit htail]
  cases digits with
  | nil => exact (h.nonempty rfl).elim
  | cons c digits => rfl

/-- What follows the whole number does not begin with a digit. -/
theorem IsExponent.not_digit {exponent tail : List Char} (h : IsExponent exponent) (htail : Ends tail) :
    ∀ c ∈ (exponent ++ tail).head?, ¬c.isDigit ∧ c ≠ '.' := by
  cases h with
  | none => exact fun c hc => ⟨(htail c hc).1, (htail c hc).2.1⟩
  | plain hmark _ =>
    intro c hc
    cases hc
    rcases hmark with rfl | rfl <;> decide
  | signed hmark _ _ =>
    intro c hc
    cases hc
    rcases hmark with rfl | rfl <;> decide

theorem IsFraction.not_digit {fraction tail : List Char} (h : IsFraction fraction)
    (htail : ∀ c ∈ tail.head?, ¬c.isDigit) : ∀ c ∈ (fraction ++ tail).head?, ¬c.isDigit := by
  cases h with
  | none => exact htail
  | point _ =>
    intro c hc
    cases hc
    decide

theorem splitMinus_append {sign text : List Char} (hsign : sign = [] ∨ sign = ['-'])
    (htext : ∀ c ∈ text.head?, c.isDigit) : splitMinus (sign ++ text) = (sign, text) := by
  rcases hsign with rfl | rfl
  · rw [List.nil_append]
    unfold splitMinus
    split
    · exact absurd (htext '-' rfl) (by decide)
    · rfl
  · rfl

theorem splitFraction?_append {fraction tail : List Char} (h : IsFraction fraction)
    (htail : ∀ c ∈ tail.head?, ¬c.isDigit ∧ c ≠ '.') :
    splitFraction? (fraction ++ tail) = some (fraction, tail) := by
  cases h with
  | none =>
    rw [List.nil_append]
    unfold splitFraction?
    split
    · exact absurd rfl (htail '.' rfl).2
    · rfl
  | point hdigits =>
    rw [List.cons_append, splitFraction?, splitDigits?_append hdigits fun c hc => (htail c hc).1]
    rfl

theorem splitExponent?_append {exponent tail : List Char} (h : IsExponent exponent)
    (htail : Ends tail) : splitExponent? (exponent ++ tail) = some (exponent, tail) := by
  have hmarked {mark : Char} (hmark : mark = 'e' ∨ mark = 'E') :
      (decide (mark = 'e') || decide (mark = 'E')) = true := by simpa using hmark
  have hrest : ∀ c ∈ tail.head?, ¬c.isDigit := fun c hc => (htail c hc).1
  cases h with
  | none =>
    cases tail with
    | nil => rfl
    | cons c tail =>
      have hc := htail c rfl
      simp [splitExponent?, hc]
  | @plain mark digits hmark hdigits =>
    have hsign : splitExponentSign (digits ++ tail) = ([], digits ++ tail) := by
      cases digits with
      | nil => exact (hdigits.nonempty rfl).elim
      | cons c digits =>
        have hc := hdigits.digit c List.mem_cons_self
        have hplus : c ≠ '+' := by rintro rfl; exact absurd hc (by decide)
        have hminus : c ≠ '-' := by rintro rfl; exact absurd hc (by decide)
        simp [splitExponentSign, hplus, hminus]
    rw [List.cons_append, splitExponent?, if_pos (hmarked hmark)]
    simp only [hsign, splitDigits?_append hdigits hrest]
    rfl
  | @signed mark sign digits hmark hsign hdigits =>
    have hsign : splitExponentSign (sign :: (digits ++ tail)) = ([sign], digits ++ tail) := by
      rcases hsign with rfl | rfl <;> simp [splitExponentSign]
    rw [List.cons_append, List.cons_append, splitExponent?, if_pos (hmarked hmark)]
    simp only [hsign, splitDigits?_append hdigits hrest]
    rfl

/-- A numeral is split off whole. -/
theorem splitNumeral?_append {numeral tail : List Char} (h : IsNumeral numeral) (htail : Ends tail) :
    splitNumeral? (numeral ++ tail) = some (numeral, tail) := by
  cases h with
  | @mk sign whole fraction exponent hsign hwhole hfraction hexponent =>
    have hbehind := hexponent.not_digit htail
    have hhead : ∀ c ∈ (whole ++ (fraction ++ (exponent ++ tail))).head?, c.isDigit := by
      cases whole with
      | nil => exact (hwhole.nonempty rfl).elim
      | cons c whole =>
        intro d hd
        cases hd
        exact hwhole.digit c List.mem_cons_self
    have hwholeSplit := splitDigits?_append hwhole (hfraction.not_digit fun c hc => (hbehind c hc).1)
    simp only [splitNumeral?, List.append_assoc, splitMinus_append hsign hhead, hwholeSplit,
      splitFraction?_append hfraction hbehind, splitExponent?_append hexponent htail,
      Option.bind_eq_bind, Option.bind_some, Option.pure_def]

end Json

/-!
## Parts of JSON

How deep containers nest in JSON, and what the JSON of a text is like: its numbers are numerals, and
no object has a name twice.
-/

namespace Json

/-- Induction over JSON by its items and members. -/
@[induction_eliminator, elab_as_elim]
theorem induction_inside {motive : Json → Prop}
    (null : motive .null)
    (bool : ∀ b, motive (.bool b))
    (number : ∀ numeral, motive (.number numeral))
    (string : ∀ s, motive (.string s))
    (array : ∀ items, (∀ j ∈ items, motive j) → motive (.array items))
    (object : ∀ members : Dict Json, (∀ m ∈ members.entries, motive m.2) → motive (.object members))
    (j : Json) : motive j := by
  cases j with
  | null => exact null
  | bool b => exact bool b
  | number numeral => exact number numeral
  | string s => exact string s
  | array items =>
    exact array items fun j h => induction_inside null bool number string array object j
  | object members =>
    exact object members fun m h => induction_inside null bool number string array object m.2
termination_by sizeOf j
decreasing_by
  · have := List.sizeOf_lt_of_mem h
    simp only [Json.array.sizeOf_spec]
    omega
  · have hmem := List.sizeOf_lt_of_mem h
    have hentry : sizeOf m = 1 + sizeOf m.1 + sizeOf m.2 := by cases m; rfl
    have hdict : sizeOf members = 1 + sizeOf members.entries := by cases members; rfl
    simp only [Json.object.sizeOf_spec]
    omega

end Json

mutual

/-- How many containers of the value stand within each other. -/
def Json.depth : Json → Nat
  | .array items => depthItems items + 1
  | .object members => members.depth + 1
  | _ => 0
termination_by structural j => j

def depthItems : List Json → Nat
  | [] => 0
  | j :: js => max j.depth (depthItems js)
termination_by structural js => js

/-- How many containers stand within each other in the members of an object. -/
def Dict.depth : Dict Json → Nat
  | ⟨members⟩ => depthMembers members
termination_by structural d => d

def depthMembers : List (String × Json) → Nat
  | [] => 0
  | (_, j) :: rest => max j.depth (depthMembers rest)
termination_by structural members => members

end

mutual

/-- Numbers are numerals and no object has a name twice. -/
def Json.Sound : Json → Prop
  | .number numeral => Json.IsNumeral numeral.toList
  | .array items => soundItems items
  | .object members => members.Sound
  | _ => True
termination_by structural j => j

def soundItems : List Json → Prop
  | [] => True
  | j :: js => j.Sound ∧ soundItems js
termination_by structural js => js

/-- The members of an object are sound and no name stands twice. -/
def Dict.Sound : Dict Json → Prop
  | ⟨members⟩ => (members.map (·.1)).Nodup ∧ soundMembers members
termination_by structural d => d

def soundMembers : List (String × Json) → Prop
  | [] => True
  | (_, j) :: rest => j.Sound ∧ soundMembers rest
termination_by structural members => members

end

theorem depthItems_le_iff {items : List Json} {n : Nat} :
    depthItems items ≤ n ↔ ∀ j ∈ items, j.depth ≤ n := by
  induction items with
  | nil => simp [depthItems]
  | cons j js ih => rw [depthItems, Nat.max_le, ih, List.forall_mem_cons]

theorem Dict.depth_le_iff {members : Dict Json} {n : Nat} :
    members.depth ≤ n ↔ ∀ m ∈ members.entries, m.2.depth ≤ n := by
  obtain ⟨members⟩ := members
  rw [Dict.depth]
  induction members with
  | nil => simp [depthMembers]
  | cons m rest ih => rw [depthMembers, Nat.max_le, ih, List.forall_mem_cons]

theorem soundItems_iff {items : List Json} : soundItems items ↔ ∀ j ∈ items, j.Sound := by
  induction items with
  | nil => simp [soundItems]
  | cons j js ih => rw [soundItems, ih, List.forall_mem_cons]

theorem Dict.sound_iff {members : Dict Json} :
    members.Sound ↔ members.Distinct ∧ ∀ m ∈ members.entries, m.2.Sound := by
  obtain ⟨members⟩ := members
  have h (members : List (String × Json)) : soundMembers members ↔ ∀ m ∈ members, m.2.Sound := by
    induction members with
    | nil => simp [soundMembers]
    | cons m rest ih => rw [soundMembers, ih, List.forall_mem_cons]
  rw [Dict.Sound, h]
  rfl

theorem jsonValues_eq (items : List Json) : jsonValues items = items.map Json.value := by
  induction items with
  | nil => rfl
  | cons j js ih => rw [jsonValues, ih, List.map_cons]

theorem Dict.jsonValue_eq (members : Dict Json) : members.jsonValue = members.map Json.value := by
  have h (members : List (String × Json)) :
      jsonMembers members = members.map fun m => (m.1, m.2.value) := by
    induction members with
    | nil => rfl
    | cons m rest ih => rw [jsonMembers, ih, List.map_cons]
  obtain ⟨members⟩ := members
  rw [Dict.jsonValue, h]
  rfl

end AssetPack
