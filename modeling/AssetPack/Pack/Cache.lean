import AssetPack.Digest
import AssetPack.Pack.File
import AssetPack.Text.Lowercase

/-!
# Caches

A compiled pack serves as a cache of its description for as long as every file it lists is still
there and is not newer than the cache. A file is compiled by way of a cache if one is named: a
valid cache is used as it is or, if so wanted, made anew in any case. A cache that cannot be
written is removed and does not spoil the compile.
-/
namespace AssetPack
variable {σ : Type}

/-- What is done about a cache. -/
inductive CacheMode where
  | none
  | use (p : Path)
  | rebuild (p : Path)
  deriving DecidableEq, Repr

namespace Cache

/-- The usual place of the cache of a description, under the directory for temporary files. -/
def path (scratch source : Path) (debug : Bool) : Look Path := do
  let source ← Look.settle source
  let digest := Digest.ofBytes (Bytes.ofString (Text.lowercase source))
  let name := source.stem?.getD "" ++ "." ++ Text.hex 16 digest.toNat ++
    (if debug then ".debug" else "") ++ ".pack"
  return Path.join (Path.join scratch "respack.cache") name

/-- Whether all these files are there and none is newer than `time`. -/
def allCurrent (time : Nat) : List Path → Look Bool
  | [] => return true
  | p :: ps => do
    match ← Look.time p with
    | some t => if time < t then return false else allCurrent time ps
    | none => return false

/-- The pack in a cache that is current. -/
def load? (p : Path) : Look (Option (Dict Value)) := do
  match ← Look.time p with
  | none => return none
  | some time =>
    match ← Pack.read p with
    | .error _ => return none
    | .ok d => if ← allCurrent time (Pack.files d) then return some d else return none

/-- Whether one of these files is the file `source`, which is given by its canonical name. -/
def anyIs (source : Path) : List Path → Look Bool
  | [] => return false
  | p :: ps => do
    match ← Look.canonical p with
    | .ok q => if Path.same q source then return true else anyIs source ps
    | .error _ => anyIs source ps

/-- Whether the cache is current and was compiled from this description. -/
def isUpdated (source cache : Path) : Look Bool := do
  match ← load? cache with
  | none => return false
  | some d =>
    match ← Look.time source, ← Look.time cache with
    | some t, some time =>
      if time < t then return false
      else
        match ← Look.canonical source with
        | .ok p => anyIs p (Pack.files d)
        | .error _ => return false
    | _, _ => return false

end Cache

/-- The list of files with one more, sorted unless it was there already. -/
def addSource (source : String) (files : List String) : List String :=
  if source ∈ files then files else (files ++ [source]).mergeSort (· ≤ ·)

/-- Compile a description file. The result names its source and lists it among its files. -/
def compileSource (fuel : Nat) (o : Options σ) (p : Path) : Compiling σ (Dict Value) := do
  match ← (Look.readText p : Look _) with
  | .error e => throw [.unreadableFile p e]
  | .ok text =>
    let source ← (Look.settle p : Look _)
    let d ← compileText fuel o (source.parent?.getD "") text
    let d := d.set Key.source (.string source)
    return d.set Key.files (textList (addSource source (Pack.files d)))

/-- Keep a compiled pack in a cache. -/
def keepIn (cache : Path) (d : Dict Value) : Script Unit := do
  match ← Pack.write cache d with
  | .ok () => return ()
  | .error _ =>
    let _ ← Script.remove cache
    return ()

/-- A part of a compile that may change files. -/
abbrev CompilingFile (σ : Type) := StateT σ (OptionT Script)

/-- The outcome of a compile as part of a script. -/
def runCompile {α : Type} (x : Compiling σ α) : CompilingFile σ (Except (List Issue) α) :=
  fun world => OptionT.mk (Look.toScript ((x.run.run world).run))

/-- Compile a description file by way of a cache. -/
def compileFile (fuel : Nat) (o : Options σ) (p : Path) (mode : CacheMode) : CompilingFile σ Outcome := do
  let found ← match mode with
    | .use cache => (Look.toScript (Cache.load? cache) : Script _)
    | _ => pure none
  match found with
  | some d => return .ok d
  | none =>
    match ← runCompile (compileSource fuel o p) with
    | .error issues => return .error issues
    | .ok d =>
      match mode with
      | .none => pure ()
      | .use cache => (keepIn cache d : Script Unit)
      | .rebuild cache => (keepIn cache d : Script Unit)
      return .ok d

end AssetPack
