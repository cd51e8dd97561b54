import AssetPack.Text.Numeral

/-!
# Path names

A path name is a text of names with slashes between them. It is absolute if it begins with a
slash. Empty names and single points count for nothing, except for a point that a relative path
begins with. Paths are compared and sorted by their components, so two spellings can be the same
path.
-/
namespace AssetPack

/-- The name of a file or directory, as it is spelled. -/
abbrev Path := String

namespace Path

/-- The parts of a text between the characters `sep`. -/
def splitAt (sep : Char) : List Char → List (List Char)
  | [] => [[]]
  | c :: rest =>
    match splitAt sep rest with
    | part :: parts => if c = sep then [] :: part :: parts else (c :: part) :: parts
    | [] => [[c]]

/-- The parts of a text with `sep` between them. -/
def joinWith (sep : Char) : List (List Char) → List Char
  | [] => []
  | [part] => part
  | part :: parts => part ++ sep :: joinWith sep parts

def isAbsolute (p : Path) : Bool := p.toList.head? == some '/'

/-- One part of a path, in the order in which paths are sorted. -/
inductive Component where
  | root
  | here
  | up
  | normal (name : String)
  deriving DecidableEq, Repr

/-- The component of a name, if it counts as one. `first` tells whether a relative path begins
with it. -/
def component? (first : Bool) (name : List Char) : Option Component :=
  if name = [] then none
  else if name = ['.'] then (if first then some .here else none)
  else if name = ['.', '.'] then some .up
  else some (.normal (String.ofList name))

/-- The names of a path behind its root. -/
def names (p : Path) : List (List Char) :=
  splitAt '/' (if p.isAbsolute then p.toList.drop 1 else p.toList)

/-- The components of a path. -/
def components (p : Path) : List Component :=
  match p.names with
  | [] => []
  | name :: rest =>
    let first := if p.isAbsolute then none else component? true name
    let again := if p.isAbsolute then component? false name else none
    (if p.isAbsolute then [.root] else []) ++ first.toList ++ again.toList ++
      rest.filterMap (component? false)

namespace Component

/-- The place of a kind of component in the order. -/
def rank : Component → Nat
  | .root => 0
  | .here => 1
  | .up => 2
  | .normal _ => 3

/-- Whether a component comes before another. -/
def before : Component → Component → Bool
  | .normal a, .normal b => a < b
  | a, b => a.rank < b.rank

end Component

/-- Whether a list of components comes before another. -/
def beforeList : List Component → List Component → Bool
  | _, [] => false
  | [], _ :: _ => true
  | a :: as, b :: bs => if a = b then beforeList as bs else a.before b

/-- Whether two spellings are the same path. -/
def same (p q : Path) : Bool := p.components = q.components

/-- Whether a path is sorted before another. -/
def before (p q : Path) : Bool := beforeList p.components q.components

/-- A sorted list of paths with one more. Of two spellings the first is kept. -/
def insertSorted (p : Path) : List Path → List Path
  | [] => [p]
  | q :: qs =>
    if p.same q then q :: qs
    else if p.before q then p :: q :: qs
    else q :: insertSorted p qs

/-- The path `rest` as seen from `base`. -/
def join (base rest : Path) : Path :=
  if rest.isAbsolute then rest
  else if base.isEmpty || base.toList.getLast? == some '/' then base ++ rest
  else base ++ "/" ++ rest

/-- Whether the name before these ones is a component. -/
def counts (relative : Bool) (before : List (List Char)) (name : List Char) : Bool :=
  (component? (relative && before.isEmpty) name).isSome

/-- Names, the last one first, from the last one on that is a component. -/
def dropIdle (relative : Bool) : List (List Char) → List (List Char)
  | [] => []
  | name :: before => if counts relative before name then name :: before else dropIdle relative before

/-- The names of a path up to its last component, the last one first. -/
def ending (p : Path) : List (List Char) := dropIdle (!p.isAbsolute) p.names.reverse

/-- The path of names given the last one first. -/
def ofEnding (absolute : Bool) (names : List (List Char)) : Path :=
  String.ofList ((if absolute then ['/'] else []) ++ joinWith '/' names.reverse)

/-- The path without its last component. -/
def parent? (p : Path) : Option Path :=
  match p.ending with
  | [] => none
  | _ :: before => some (ofEnding p.isAbsolute (dropIdle (!p.isAbsolute) before))

/-- The last component, if it is a plain name. -/
def fileName? (p : Path) : Option (List Char) :=
  match p.ending with
  | name :: _ => if name = ['.'] ∨ name = ['.', '.'] then none else some name
  | [] => none

/-- A file name split at its last point, unless that begins it. -/
def splitName (name : List Char) : List Char × Option (List Char) :=
  let back := name.reverse
  let after := (back.takeWhile (· != '.')).reverse
  match back.dropWhile (· != '.') with
  | _ :: before => if before.isEmpty then (name, none) else (before.reverse, some after)
  | [] => (name, none)

/-- The file name without its extension. -/
def stem? (p : Path) : Option String := p.fileName?.map fun name => String.ofList (splitName name).1

/-- What stands behind the last point of the file name. -/
def extension? (p : Path) : Option String :=
  (p.fileName?.bind fun name => (splitName name).2).map String.ofList

/-- A path without the extension of its file name: as many characters as that has are taken from
the end. -/
def withoutExtension (p : Path) : Path :=
  match p.extension? with
  | some extension => String.ofList (p.toList.take (p.length - extension.length))
  | none => p

/-- The path with another extension of its file name. A name that begins with two points can
leave just these when it loses its extension; they name a directory, which gets none. -/
def withExtension (p : Path) (extension : String) : Path :=
  let bare := p.withoutExtension
  match bare.fileName?, bare.ending with
  | some name, _ :: before =>
    ofEnding bare.isAbsolute (((splitName name).1 ++ '.' :: extension.toList) :: before)
  | _, _ => bare

end Path
end AssetPack
