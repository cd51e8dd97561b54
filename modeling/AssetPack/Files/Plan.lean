import AssetPack.Bytes
import AssetPack.Files.Error
import AssetPack.Files.Path

/-!
# Plans

A plan is a computation that asks for things outside it and goes on with the answers. What it may
ask for is given by its interface. A handler that answers each request in some monad runs the plan
there: against a record of files, on a simulated disk, or on the machine.

Two interfaces are used. A `Look` only asks what is there; a `Script` may also change it. So what
is a look changes nothing, whatever it asks.
-/
namespace AssetPack

/-- Requests, each with the type of its answers. -/
structure Interface where
  Request : Type
  Answer : Request → Type

/-- A computation that asks requests of an interface. -/
inductive Plan (I : Interface) (α : Type) where
  | done (a : α)
  | ask (request : I.Request) (next : I.Answer request → Plan I α)

namespace Plan
variable {I J : Interface} {α β : Type}

def bind : Plan I α → (α → Plan I β) → Plan I β
  | done a, f => f a
  | ask request next, f => ask request fun answer => (next answer).bind f

instance : Monad (Plan I) where
  pure := done
  bind := bind

/-- Ask one request. -/
def request (r : I.Request) : Plan I (I.Answer r) := ask r done

/-- Run a plan with a handler. -/
def run {m : Type → Type} [Monad m] (handler : (r : I.Request) → m (I.Answer r)) : Plan I α → m α
  | done a => pure a
  | ask r next => do
    let answer ← handler r
    (next answer).run handler

@[simp] theorem pure_def (a : α) : (pure a : Plan I α) = done a := rfl

@[simp] theorem bind_def (x : Plan I α) (f : α → Plan I β) : x >>= f = x.bind f := rfl

@[simp] theorem bind_done (x : Plan I α) : x.bind done = x := by
  induction x with
  | done a => rfl
  | ask r next ih => simp only [bind, ih]

theorem bind_assoc {γ : Type} (x : Plan I α) (f : α → Plan I β) (g : β → Plan I γ) :
    (x.bind f).bind g = x.bind fun a => (f a).bind g := by
  induction x with
  | done a => rfl
  | ask r next ih => simp only [bind, ih]

instance : LawfulMonad (Plan I) :=
  LawfulMonad.mk' (Plan I) bind_done (fun _ _ => rfl) bind_assoc

/-- A plan in sequence is run in sequence. -/
theorem run_bind {m : Type → Type} [Monad m] [LawfulMonad m]
    (handler : (r : I.Request) → m (I.Answer r)) (x : Plan I α) (f : α → Plan I β) :
    (x.bind f).run handler = x.run handler >>= fun a => (f a).run handler := by
  induction x with
  | done a => simp [bind, run]
  | ask r next ih => simp [bind, run, ih]

end Plan

/-- What is known of a file or directory without reading it. -/
structure Status where
  isFile : Bool
  /-- when it was last changed -/
  time : Nat
  deriving DecidableEq, Repr

/-- Questions about files. -/
inductive Question where
  /-- the one absolute name of what is at a path -/
  | canonical (p : Path)
  | read (p : Path)
  | status (p : Path)
  deriving DecidableEq, Repr

def Question.Answer : Question → Type
  | canonical _ => Except FileError Path
  | read _ => Except FileError Bytes
  | status _ => Option Status

/-- A computation that looks at files. -/
abbrev Look := Plan ⟨Question, Question.Answer⟩

/-- Questions about files and changes to them. -/
inductive Action where
  | look (q : Question)
  /-- make a directory and those it is to lie in -/
  | makeDirs (p : Path)
  | write (p : Path) (bs : Bytes)
  | remove (p : Path)
  /-- the directory for temporary files -/
  | scratch

def Action.Answer : Action → Type
  | look q => q.Answer
  | makeDirs _ => Except FileError Unit
  | write _ _ => Except FileError Unit
  | remove _ => Except FileError Unit
  | scratch => Path

/-- A computation that may change files. -/
abbrev Script := Plan ⟨Action, Action.Answer⟩

namespace Look
variable {α : Type}

def canonical (p : Path) : Look (Except FileError Path) := .ask (.canonical p) .done

/-- The canonical name of a path, or the path itself if it has none. -/
def settle (p : Path) : Look Path := do
  match ← canonical p with
  | .ok q => return q
  | .error _ => return p

def read (p : Path) : Look (Except FileError Bytes) := .ask (.read p) .done

/-- The text of a file. -/
def readText (p : Path) : Look (Except FileError String) := do
  match ← read p with
  | .error e => return .error e
  | .ok bs => match bs.toString? with
    | some s => return .ok s
    | none => return .error .notText

def status (p : Path) : Look (Option Status) := .ask (.status p) .done

/-- When a file was last changed. -/
def time (p : Path) : Look (Option Nat) := do return (← status p).map (·.time)

def isFile (p : Path) : Look Bool := do return (← status p).any (·.isFile)

def exists? (p : Path) : Look Bool := do return (← status p).isSome

/-- A look as a script, which changes nothing. -/
def toScript : Look α → Script α
  | .done a => .done a
  | .ask q next => .ask (.look q) fun answer => toScript (next answer)

end Look

namespace Script

def makeDirs (p : Path) : Script (Except FileError Unit) := .ask (.makeDirs p) .done

def write (p : Path) (bs : Bytes) : Script (Except FileError Unit) := .ask (.write p bs) .done

def remove (p : Path) : Script (Except FileError Unit) := .ask (.remove p) .done

def scratch : Script Path := .ask .scratch .done

instance : MonadLift Look Script := ⟨Look.toScript⟩

end Script
end AssetPack
