import AssetPack.Files.Plan

/-!
# Disks

Files and directories as plain data, with the rules by which paths are resolved and files are
made. A disk has no links. Its clock moves on with every change, and a file, or a directory whose
names change, gets the time of the change.

What a look can see of a disk, or of anything like one, is a `Files`: an answer to each question.
-/
namespace AssetPack

/-- An answer to each question about files. -/
structure Files where
  canonical : Path → Except FileError Path
  read : Path → Except FileError Bytes
  status : Path → Option Status

def Files.answer (fs : Files) : (q : Question) → q.Answer
  | .canonical p => fs.canonical p
  | .read p => fs.read p
  | .status p => fs.status p

/-- What a look finds. -/
def Look.eval {α : Type} (fs : Files) (x : Look α) : α := Id.run (Plan.run (fun q => pure (fs.answer q)) x)

/-- What is at a place of a disk. The bytes are missing for a directory. -/
structure Entry where
  bytes : Option Bytes
  time : Nat

/-- The names on the way from the root to a place. -/
abbrev Place := List String

structure Disk where
  entries : List (Place × Entry)
  /-- where relative paths begin -/
  home : Place
  /-- the directory for temporary files -/
  scratch : Path
  clock : Nat

namespace Disk

/-- The absolute path of a place. -/
def pathOf (place : Place) : Path :=
  match place with
  | [] => "/"
  | names => String.join (names.map ("/" ++ ·))

def longestName : Nat := 255
def longestPath : Nat := 4095

/-- What is at a place. The root is always there. -/
def find? (d : Disk) (place : Place) : Option Entry :=
  match d.entries.lookup place with
  | some e => some e
  | none => if place.isEmpty then some ⟨none, 0⟩ else none

def isDir (d : Disk) (place : Place) : Bool := (d.find? place).any (·.bytes.isNone)

/-- Whether a name stands for a directory that is there already. -/
def isDots (name : List Char) : Bool := name = ['.'] || name = ['.', '.']

def isTooLong (name : List Char) : Bool := longestName < (String.ofList name).utf8ByteSize

/-- Whether a path cannot be handed on as it is spelled. -/
def isTooLongPath (p : Path) : Bool := longestPath < p.utf8ByteSize

/-- Go on from a place by names, each of which needs a directory to start from. `reaches` tells
which places can be gone to. -/
def walk (d : Disk) (reaches : Place → Bool) (place : Place) : List (List Char) → Except FileError Place
  | [] => .ok place
  | name :: rest =>
    if !d.isDir place then .error .notDirectory
    else if name = [] ∨ name = ['.'] then d.walk reaches place rest
    else if name = ['.', '.'] then d.walk reaches place.dropLast rest
    else
      let next := place ++ [String.ofList name]
      if isTooLong name || !reaches next then .error .nameTooLong
      else if (d.find? next).isNone then .error .missing
      else d.walk reaches next rest

/-- Where a path begins, if it is one at all. -/
def start (d : Disk) (p : Path) : Except FileError Place :=
  if p.toList.contains '\x00' then .error .zeroInName
  else if p.isEmpty then .error .missing
  else .ok (if p.isAbsolute then [] else d.home)

/-- Resolve names of a path that is handed on as it is spelled. -/
def resolveNames (d : Disk) (p : Path) (names : List (List Char)) : Except FileError Place :=
  match d.start p with
  | .error e => .error e
  | .ok place => if isTooLongPath p then .error .nameTooLong else d.walk (fun _ => true) place names

/-- The place of a path. -/
def resolve (d : Disk) (p : Path) : Except FileError Place := d.resolveNames p p.names

/-- The path of a place. It is found name by name, so the length of the spelling does not count,
but that of the path to every place on the way does. -/
def canonical (d : Disk) (p : Path) : Except FileError Path :=
  match d.start p with
  | .error e => .error e
  | .ok place =>
    match d.walk (fun next => !isTooLongPath (pathOf next)) place p.names with
    | .error e => .error e
    | .ok place => .ok (pathOf place)

/-- The names of a path without the empty ones at its end. -/
def leadingNames (p : Path) : List (List Char) := (p.names.reverse.dropWhile (·.isEmpty)).reverse

/-- The directory that a path leads to up to its last name, and that name. -/
def resolveParent (d : Disk) (p : Path) : Except FileError (Place × Option (List Char)) :=
  match d.resolveNames p (leadingNames p).dropLast with
  | .error e => .error e
  | .ok place =>
    if d.isDir place then .ok (place, (leadingNames p).getLast?) else .error .notDirectory

/-- The bytes at a place. -/
def readAt (d : Disk) (place : Place) : Except FileError Bytes :=
  match d.find? place with
  | some ⟨some bs, _⟩ => .ok bs
  | some ⟨none, _⟩ => .error .isDirectory
  | none => .error .missing

/-- What can be seen of a disk. -/
def files (d : Disk) : Files where
  canonical := d.canonical
  read p := match d.resolve p with
    | .ok place => d.readAt place
    | .error e => .error e
  status p := match d.resolve p with
    | .ok place => (d.find? place).map fun e => ⟨e.bytes.isSome, e.time⟩
    | .error _ => none

/-- The disk with an entry put at a place. -/
def put (d : Disk) (place : Place) (e : Entry) : Disk :=
  { d with entries := (place, e) :: d.entries.filter (·.1 ≠ place) }

/-- The disk after a change of the names in a directory. -/
def touchDir (d : Disk) (place : Place) : Disk :=
  match d.find? place with
  | some e => d.put place { e with time := d.clock }
  | none => d

/-- A new entry at a place, at the next time of the clock. -/
def create (d : Disk) (place : Place) (bytes : Option Bytes) : Disk :=
  let d := { d with clock := d.clock + 1 }
  (d.put place ⟨bytes, d.clock⟩).touchDir place.dropLast

/-- Write a file. A path that ends with a slash is that of a directory. -/
def write (d : Disk) (p : Path) (bs : Bytes) : Except FileError Unit × Disk :=
  match d.resolveParent p with
  | .error e => (.error e, d)
  | .ok (_, none) => (.error .isDirectory, d)
  | .ok (parent, some name) =>
    if isDots name ∨ (leadingNames p).length < p.names.length then (.error .isDirectory, d)
    else if isTooLong name then (.error .nameTooLong, d)
    else
      let place := parent ++ [String.ofList name]
      match d.find? place with
      | some ⟨none, _⟩ => (.error .isDirectory, d)
      | some ⟨some _, _⟩ =>
        let d := { d with clock := d.clock + 1 }
        (.ok (), d.put place ⟨some bs, d.clock⟩)
      | none => (.ok (), d.create place (some bs))

/-- Make one directory. -/
def makeDir (d : Disk) (p : Path) : Except FileError Unit × Disk :=
  match d.resolveParent p with
  | .error e => (.error e, d)
  | .ok (_, none) => (.error .alreadyExists, d)
  | .ok (parent, some name) =>
    if isDots name then (.error .alreadyExists, d)
    else if isTooLong name then (.error .nameTooLong, d)
    else
      let place := parent ++ [String.ofList name]
      if (d.find? place).isSome then (.error .alreadyExists, d) else (.ok (), d.create place none)

/-- Whether there is a directory at a path. -/
def hasDir (d : Disk) (p : Path) : Bool :=
  match d.resolve p with
  | .ok place => d.isDir place
  | .error _ => false

/-- Make a directory where there is none yet. -/
def ensureDir (d : Disk) (p : Path) : Except FileError Unit × Disk :=
  match d.makeDir p with
  | (.ok (), d) => (.ok (), d)
  | (.error e, d) => (if d.hasDir p then .ok () else .error e, d)

/-- Make a directory and those it is to lie in. A path has no more parents than characters. -/
def makeDirsTo : (fuel : Nat) → Path → Disk → Except FileError Unit × Disk
  | 0, _, d => (.error .missing, d)
  | fuel + 1, p, d =>
    if p.isEmpty then (.ok (), d)
    else
      match d.makeDir p with
      | (.error .missing, d) =>
        match p.parent? with
        | none => (.error (.other "failed to create whole tree"), d)
        | some parent =>
          match makeDirsTo fuel parent d with
          | (.ok (), d) => d.ensureDir p
          | (.error e, d) => (.error e, d)
      | (.ok (), d) => (.ok (), d)
      | (.error e, d) => (if d.hasDir p then .ok () else .error e, d)

/-- Make a directory and those it is to lie in. -/
def makeDirs (d : Disk) (p : Path) : Except FileError Unit × Disk :=
  makeDirsTo (p.toList.length + 1) p d

/-- Remove a file. -/
def remove (d : Disk) (p : Path) : Except FileError Unit × Disk :=
  match d.resolve p with
  | .error e => (.error e, d)
  | .ok place =>
    match d.find? place with
    | some ⟨some _, _⟩ =>
      let d := { d with clock := d.clock + 1, entries := d.entries.filter (·.1 ≠ place) }
      (.ok (), d.touchDir place.dropLast)
    | _ => (.error .isDirectory, d)

/-- Set the time of what is at a path. -/
def setTime (d : Disk) (p : Path) (time : Nat) : Disk :=
  match d.resolve p with
  | .ok place => match d.find? place with
    | some e => d.put place { e with time := time }
    | none => d
  | .error _ => d

/-- Carry out an action. -/
def perform (d : Disk) : (a : Action) → a.Answer × Disk
  | .look q => (d.files.answer q, d)
  | .makeDirs p => d.makeDirs p
  | .write p bs => d.write p bs
  | .remove p => d.remove p
  | .scratch => (d.scratch, d)

end Disk

/-- What a script answers on a disk, and the disk after it. -/
def Script.runOn {α : Type} (d : Disk) (x : Script α) : α × Disk :=
  let handler (a : Action) : StateM Disk a.Answer := fun d => d.perform a
  Id.run ((Plan.run handler x).run d)

end AssetPack
