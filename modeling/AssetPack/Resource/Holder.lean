/-!
# Holders

A holder keeps the current snapshot and lets it be rebuilt in the background. While a rebuild is
under way further requests are not queued one by one: only the latest waits. A build that gives a
snapshot puts it in place and every listener hears of it; one that fails changes nothing. A
listener may bring in new listeners, which hear of the next rebuild.

A worker goes in small steps, and requests, new listeners and replacements may come between any two
of them. Nothing but the mark that a rebuild is running keeps a second worker from being started.
-/
namespace AssetPack
variable {S σ : Type}

/-- What is told of every new snapshot. It may change the state that builds and listeners share, and
answers with new listeners. -/
inductive Listener (S σ : Type) where
  | mk (hear : S → σ → List (Listener S σ) × σ)

def Listener.hear : Listener S σ → S → σ → List (Listener S σ) × σ
  | mk hear => hear

/-- What makes a snapshot, or fails. One that breaks off has failed as well. -/
abbrev Build (S σ : Type) := σ → Option S × σ

/-- A rebuild that was requested. Each request has a number of its own. -/
structure Rebuild (S σ : Type) where
  number : Nat
  build : Build S σ

/-- Where a worker stands. -/
inductive Worker (S σ : Type) where
  | building (r : Rebuild S σ)
  /-- about to put a snapshot in place -/
  | swapping (next : S)
  /-- about to see who is to be told of a new snapshot -/
  | announcing (next : S)
  /-- telling these listeners of a new snapshot -/
  | telling (next : S) (rest : List (Listener S σ))
  /-- about to take what is pending -/
  | settling

/-- The current snapshot and its rebuilding. -/
structure Holder (S σ : Type) where
  current : S
  /-- the mark that a rebuild is under way or waits -/
  running : Bool
  pending : Option (Rebuild S σ)
  workers : List (Worker S σ)
  listeners : List (Listener S σ)
  /-- the number of requests so far -/
  asked : Nat

namespace Holder

def start (s : S) : Holder S σ := ⟨s, false, none, [], [], 0⟩

/-- Whether a rebuild is under way or waits. -/
def isRebuilding (h : Holder S σ) : Bool := h.running

/-- Put a snapshot in place; the answer is the one before. -/
def replace (h : Holder S σ) (s : S) : S × Holder S σ := (h.current, { h with current := s })

def listen (h : Holder S σ) (l : Listener S σ) : Holder S σ := { h with listeners := h.listeners ++ [l] }

/-- Ask for a rebuild; whether this request started a worker. -/
def request (h : Holder S σ) (b : Build S σ) : Bool × Holder S σ :=
  let r : Rebuild S σ := ⟨h.asked, b⟩
  if h.running then (false, { h with pending := some r, asked := h.asked + 1 })
  else (true, { h with running := true, workers := h.workers ++ [.building r], asked := h.asked + 1 })

/-- The holder with a worker at another place. -/
def move (h : Holder S σ) (i : Nat) (w : Worker S σ) : Holder S σ := { h with workers := h.workers.set i w }

/-- Take what is pending, or end the worker. -/
def settle (h : Holder S σ) (i : Nat) : Holder S σ :=
  match h.pending with
  | some r => { h.move i (.building r) with pending := none }
  | none => { h with running := false, workers := h.workers.eraseIdx i }

/-- One step of a worker. -/
def work (h : Holder S σ) (i : Nat) (world : σ) : Holder S σ × σ :=
  match h.workers[i]? with
  | none => (h, world)
  | some (.building r) =>
    match r.build world with
    | (some next, world) => (h.move i (.swapping next), world)
    | (none, world) => (h.move i .settling, world)
  | some (.swapping next) => ((h.replace next).2.move i (.announcing next), world)
  | some (.announcing next) => (h.move i (.telling next h.listeners), world)
  | some (.telling next (l :: rest)) =>
    let (new, world) := l.hear next world
    (new.foldl listen (h.move i (.telling next rest)), world)
  | some (.telling _ []) => (h.move i .settling, world)
  | some .settling => (h.settle i, world)

/-- Let the first worker go a number of steps. -/
def workFor : (steps : Nat) → Holder S σ → σ → Holder S σ × σ
  | 0, h, world => (h, world)
  | steps + 1, h, world =>
    let (h, world) := h.work 0 world
    workFor steps h world

/-- The steps after which the first worker has settled if nothing comes in between. -/
def unsettled (h : Holder S σ) : Nat :=
  match h.workers with
  | [] => 0
  | .building _ :: _ => h.listeners.length + 5
  | .swapping _ :: _ => h.listeners.length + 4
  | .announcing _ :: _ => h.listeners.length + 3
  | .telling _ rest :: _ => rest.length + 2
  | .settling :: _ => 1

/-- Work until no rebuild is running. Without further requests at most one build waits. -/
def wait (h : Holder S σ) (world : σ) : Holder S σ × σ :=
  let (h, world) := workFor h.unsettled h world
  workFor h.unsettled h world

end Holder
end AssetPack
