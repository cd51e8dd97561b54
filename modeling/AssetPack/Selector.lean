import AssetPack.Value.Convert

/-!
# Selectors

A selector such as `/first[2]/three[1]` names a value inside a dictionary. A slash and a name
go to an entry; the name ends before the next slash or opening bracket and may be empty, which
stays at the dictionary itself. An index in brackets goes to an item of a list. A payload
that holds a dictionary is entered like the dictionary.
-/
namespace AssetPack

/-- One step from a value to a value inside it. -/
inductive Step where
  | name (name : String)
  | index (n : Nat)
  deriving DecidableEq, Repr

namespace Selector

/-- Indices are smaller than this. -/
def indexLimit : Nat := 0x10000000000000000

/-- Whether a character can stand in a name. -/
def inName (c : Char) : Bool := c != '/' && c != '['

/-- The steps a text stands for. Each step takes a character, so the length of the text is fuel
enough. -/
def read : (fuel : Nat) → List Char → Option (List Step)
  | _, [] => some []
  | 0, _ => none
  | fuel + 1, '/' :: rest =>
    (read fuel (rest.dropWhile inName)).map (.name (String.ofList (rest.takeWhile inName)) :: ·)
  | fuel + 1, '[' :: rest =>
    let digits := rest.takeWhile Char.isDigit
    let n := Nat.ofDigitChars 10 digits 0
    match rest.dropWhile Char.isDigit with
    | ']' :: rest =>
      if digits.isEmpty ∨ indexLimit ≤ n then none else (read fuel rest).map (.index n :: ·)
    | _ => none
  | _, _ => none

/-- The steps of a selector, which begins with a slash. -/
def parse? (text : String) : Option (List Step) :=
  if text.toList.head? = some '/' then read text.toList.length text.toList else none

/-- A step as it is written. -/
def renderStep : Step → String
  | .name name => "/" ++ name
  | .index n => "[" ++ toString n ++ "]"

/-- Steps as they are written. -/
def render (steps : List Step) : String := String.join (steps.map renderStep)

/-- The steps to a place as they are written, given the last one first. -/
def renderTrail (trail : List Step) : String := render trail.reverse

/-- The value one step away. -/
def step? (v : Value) : Step → Option Value
  | .name name =>
    if name = "" then v.dictValue?
    else v.dictValue?.bind fun v => v.dict?.bind (·.get? name)
  | .index n => v.item? n

/-- The value that steps lead to. -/
def follow? (v : Value) (steps : List Step) : Option Value := steps.foldlM step? v

end Selector

namespace Dict

/-- The value that steps lead to from a dictionary. The first step is a name. -/
def select? (d : Dict Value) : List Step → Option Value
  | .name name :: steps =>
    (if name = "" then some (.dict d) else d.get? name).bind (Selector.follow? · steps)
  | _ => none

/-- The value a selector leads to. -/
def selectText? (d : Dict Value) (selector : String) : Option Value :=
  (Selector.parse? selector).bind d.select?

/-- The value of a name, or of a selector if it begins with a slash. -/
def find? (d : Dict Value) (name : String) : Option Value :=
  if name.toList.head? = some '/' then d.selectText? name else d.get? name

/-- What the value of a name shows. -/
def findAs? {α : Type} (d : Dict Value) (name : String) (w : View α) : Option α :=
  (d.find? name).bind (·.as? w)

end Dict

/-- The value that a dictionary value has for a name or a selector. -/
def Value.child? (v : Value) (name : String) : Option Value := v.dict?.bind (·.find? name)

end AssetPack
