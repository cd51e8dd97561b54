import AssetPack.Tree

/-!
# Sameness of values

Two values are the same if they hold the same, whatever form their dictionaries are in and
in whatever order their entries stand. Doubles are compared by their bits and payloads by
their stored parts. Blocks of equal bytes are the same also if they do not open.
-/
namespace AssetPack

/-- Whether two forms are the same without a look inside; `none` if that does not tell. -/
def Source.same? : Source → Source → Option Bool
  | .payload p, .payload q => some (p = q)
  | .payload _, _ => some false
  | _, .payload _ => some false
  | .block b, .block c => if b.bytes = c.bytes then some true else none
  | _, _ => none

mutual

def Tree.same : Tree → Tree → Bool
  | .atom a, u => match u with
    | .atom b => a = b
    | _ => false
  | .list ts, u => match u with
    | .list us => sameItems ts us
    | _ => false
  | .dict s d, u => match u with
    | .dict t e => (s.same? t).getD (d.same e)
    | _ => false
  | .blob p, u => match u with
    | .blob q => p = q
    | _ => false
  | .broken s, u => match u with
    | .broken t => (s.same? t).getD false
    | _ => false
termination_by structural t => t

def sameItems : List Tree → List Tree → Bool
  | [], us => us.isEmpty
  | t :: ts, us => match us with
    | [] => false
    | u :: us => t.same u && sameItems ts us
termination_by structural ts => ts

/-- As many entries, and each with the same value under its name. -/
def Dict.same : Dict Tree → Dict Tree → Bool
  | ⟨entries⟩, e => entries.length == e.size && sameEntries entries e
termination_by structural d => d

def sameEntries : List (String × Tree) → Dict Tree → Bool
  | [], _ => true
  | (name, t) :: rest, e =>
    (match e.get? name with
      | some u => t.same u
      | none => false) && sameEntries rest e
termination_by structural entries => entries

end

/-- Whether two values are the same. -/
def Value.same (v w : Value) : Bool := v.tree.same w.tree

/-- Whether two dictionaries are the same. -/
def Dict.sameAs (d e : Dict Value) : Bool := d.tree.same e.tree

end AssetPack
