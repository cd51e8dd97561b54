import AssetPack.Issue
import AssetPack.Tree

/-!
# Visits

A visit walks over a dictionary with everything in it opened and builds it anew. Children are
visited before their parent and siblings in order. One hook sees every value that is not a
dictionary, the other every dictionary after it was built from what became of its entries. A
hook may report issues and answers with the value that takes the place of what it saw, or with
none: an entry is then dropped, and an item of a list becomes null. Neither answer changes what
is visited. What does not open is reported and has no hook call.
-/
namespace AssetPack

/-- Where a visit stands: the steps from the root, the last one first, and the issues so far. -/
structure Spot where
  trail : List Step
  issues : List Issue

namespace Spot

/-- The selector of the place. -/
def place (s : Spot) : String := Selector.renderTrail s.trail

/-- The top-level entry that the place is in. -/
def root? (s : Spot) : Option String :=
  match s.trail.getLast? with
  | some (.name name) => some name
  | _ => none

def isRoot (s : Spot) : Bool := s.trail.isEmpty

end Spot

/-- What a hook answers: what takes the place of the value, and its issues. -/
structure Reply where
  value : Option Value
  issues : List Issue

/-- The answer that keeps a value. -/
def Reply.keep (v : Value) : Reply := ⟨some v, []⟩

/-- The answer that reports one issue and drops the value. -/
def Reply.drop (i : Issue) : Reply := ⟨none, [i]⟩

/-- The two hooks of a visit, with effects in `m`. -/
structure Hooks (m : Type → Type) where
  onValue : Spot → Value → m Reply
  onDict : Spot → Dict Value → m Reply

/-- A part of a visit, which adds to the issues. -/
abbrev Visiting (m : Type → Type) := StateT (List Issue) m

/-- The result of a visit: the root, if it stayed a dictionary, and the issues. -/
structure Visited where
  dict : Option (Dict Value)
  issues : List Issue

/-- Whether the root is there and nothing was reported. -/
def Visited.isOk (v : Visited) : Bool := v.dict.isSome && v.issues.isEmpty

namespace Visiting
variable {m : Type → Type} [Monad m] {α : Type}

/-- Report an issue. -/
def report (i : Issue) : Visiting m Unit := modify (· ++ Issue.audible [i])

/-- Call a hook. -/
def call (hook : Spot → α → m Reply) (trail : List Step) (a : α) : Visiting m (Option Value) := do
  let reply ← hook ⟨trail, ← get⟩ a
  modify (· ++ Issue.audible reply.issues)
  return reply.value

end Visiting

/-- The issue of a form that does not open. -/
def Source.issue (place : String) : Source → Issue
  | .payload _ => .brokenPayload place
  | _ => .brokenDict place

section
variable {m : Type → Type} [Monad m]

mutual

/-- Visit the value at a place. -/
def Tree.visit (h : Hooks m) (trail : List Step) : Tree → Visiting m (Option Value)
  | .atom a => Visiting.call h.onValue trail (.atom a)
  | .list items => do
    let items ← visitItems h trail 0 items
    Visiting.call h.onValue trail (.list items)
  | .dict _ d => d.visit h trail
  | .blob p => Visiting.call h.onValue trail (.saved p)
  | .broken source => do
    Visiting.report (source.issue (Selector.renderTrail trail))
    return none
termination_by structural t => t

/-- Visit the items of a list from `index` on. -/
def visitItems (h : Hooks m) (trail : List Step) (index : Nat) : List Tree → Visiting m (List Value)
  | [] => return []
  | t :: ts => do
    let v ← t.visit h (.index index :: trail)
    let vs ← visitItems h trail (index + 1) ts
    return v.getD .null :: vs
termination_by structural ts => ts

/-- Visit the dictionary at a place. -/
def Dict.visit (h : Hooks m) (trail : List Step) : Dict Tree → Visiting m (Option Value)
  | ⟨entries⟩ => do
    let entries ← visitEntries h trail entries
    Visiting.call h.onDict trail ⟨entries⟩
termination_by structural d => d

/-- Visit the entries of a dictionary. -/
def visitEntries (h : Hooks m) (trail : List Step) :
    List (String × Tree) → Visiting m (List (String × Value))
  | [] => return []
  | (name, t) :: rest => do
    let v ← t.visit h (.name name :: trail)
    let rest ← visitEntries h trail rest
    return match v with
      | some v => (name, v) :: rest
      | none => rest
termination_by structural entries => entries

end

/-- Visit a dictionary as a root. -/
def Dict.visitRoot (h : Hooks m) (d : Dict Value) : m Visited := do
  let (v, issues) ← (d.tree.visit h []).run []
  return ⟨(v.bind Value.dictValue?).bind Value.dict?, issues⟩

end

/-- The hooks that keep everything. -/
def Hooks.keep {m : Type → Type} [Monad m] : Hooks m :=
  ⟨fun _ v => pure (.keep v), fun _ d => pure (.keep (.dict d))⟩

end AssetPack
