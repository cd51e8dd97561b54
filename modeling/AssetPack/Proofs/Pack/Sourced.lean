import AssetPack.Proofs.Command.Transparent
import AssetPack.Proofs.Files.Systems

/-!
# The source of a pack

A compile that makes a pack lists the description among its files. A cache that may be used is taken as it is if it
is current. Whether it lists the description is not looked at, so it may be the cache of another one.
-/
namespace AssetPack
variable {σ S : Type} {fs : Files} {m : FileSystem S} {s : S} {fuel : Nat} {o : Options σ} {p : Path} {w w' : σ}
  {d : Dict Value} {mode : CacheMode}

namespace Pack

theorem files_of_get? {d : Dict Value} {files : List String} (h : d.get? Key.files = some (textList files)) :
    Pack.files d = files := by
  have hread : (files.map Value.string).mapM (fun v : Value => v.as? View.string) = some files := by
    clear h
    induction files with
    | nil => rfl
    | cons f rest ih =>
      rw [List.map_cons, List.mapM_cons, ih]
      rfl
  rw [Pack.files, Dict.findAs?, Dict.find?, if_neg (by decide), h]
  change ((files.map Value.string).mapM fun v : Value => v.as? View.string).getD [] = files
  rw [hread]
  rfl

theorem files_set (d : Dict Value) (files : List String) : Pack.files (d.set Key.files (textList files)) = files :=
  files_of_get? ((Dict.get?_set ..).trans (if_pos rfl))

end Pack

namespace CacheMode

/-- The pack in a cache that may be used as it is. -/
def found : CacheMode → Look (Option (Dict Value))
  | .use cache => Cache.load? cache
  | _ => pure Option.none

theorem found_of_ne_use (hmode : ∀ cache, mode ≠ .use cache) : mode.found = pure Option.none := by
  cases mode with
  | use cache => exact (hmode cache rfl).elim
  | _ => rfl

/-- What is done with a pack that was made. -/
def keep (d : Dict Value) : CacheMode → Script Unit
  | .none => pure ()
  | .use cache => keepIn cache d
  | .rebuild cache => keepIn cache d

/-- What is done with the outcome of a compile. -/
def keepOutcome (mode : CacheMode) : Option (Outcome × σ) → Script (Option (Outcome × σ))
  | some (.ok d, w) => mode.keep d >>= fun _ => pure (some (.ok d, w))
  | r => pure r

end CacheMode

theorem mem_addSource (source : String) (files : List String) : source ∈ addSource source files := by
  rw [addSource]
  split
  · assumption
  · exact List.mem_mergeSort.mpr (List.mem_append_right _ (List.mem_singleton_self source))

theorem run_script_bind {α β : Type} (x : Script α) (f : α → CompilingFile σ β) (w : σ) :
    ((liftM x >>= f : CompilingFile σ β).run w).run = x >>= fun a => ((f a).run w).run := by
  have hlift : ((liftM x : CompilingFile σ α).run w) = (liftM x : OptionT Script α) >>= fun a => pure (a, w) := rfl
  rw [StateT.run_bind, hlift, OptionT.run_bind, OptionT.run_bind, OptionT.run_monadLift]
  simp only [Option.elimM, bind_assoc, bind_map_left, Option.elim_some, OptionT.run_pure, pure_bind,
    monadLift_self]

theorem run_runCompile_bind {α β : Type} (x : Compiling σ α) (f : Except (List Issue) α → CompilingFile σ β) (w : σ) :
    ((runCompile x >>= f).run w).run = ((x.run).run w).run.toScript >>= fun r => match r with
      | some r => ((f r.1).run r.2).run
      | none => pure none := by
  rw [StateT.run_bind, OptionT.run_bind, Option.elimM]
  refine congrArg (Plan.bind _) (funext fun r => ?_)
  cases r <;> rfl

/-- A pack that is made anew is kept as the mode has it. -/
theorem run_compileAnew (mode : CacheMode) : ((do
      match ← runCompile (compileSource fuel o p) with
      | .error issues => return .error issues
      | .ok d =>
        match mode with
        | .none => pure ()
        | .use cache => (keepIn cache d : Script Unit)
        | .rebuild cache => (keepIn cache d : Script Unit)
        return .ok d : CompilingFile σ Outcome).run w).run =
      (((compileSource fuel o p).run).run w).run.toScript >>= mode.keepOutcome := by
  rw [run_runCompile_bind]
  refine congrArg (Plan.bind _) (funext fun r => ?_)
  rcases r with _ | ⟨issues | d, w'⟩
  · rfl
  · rfl
  · cases mode with
    | none => rfl
    | use cache => exact run_script_bind _ _ _
    | rebuild cache => exact run_script_bind _ _ _

/-- A compile looks into a cache that may be used, and if nothing is found there makes the pack anew. -/
theorem run_compileFile (mode : CacheMode) : ((compileFile fuel o p mode).run w).run =
    mode.found.toScript >>= fun found => match found with
      | some d => pure (some (.ok d, w))
      | none => (((compileSource fuel o p).run).run w).run.toScript >>= mode.keepOutcome := by
  unfold compileFile
  cases mode with
  | use cache =>
    dsimp only
    rw [run_script_bind]
    refine congrArg (Plan.bind _) (funext fun found => ?_)
    cases found with
    | some d => rfl
    | none => exact run_compileAnew (.use cache)
  | none => exact run_compileAnew .none
  | rebuild cache => exact run_compileAnew (.rebuild cache)

namespace Compiling.Ends

/-- What a compile of a file does: it reads the description, compiles it and records where it comes from. -/
theorem of_compileSource (h : Ends fs (compileSource fuel o p) w d w') : ∃ text made,
    (Look.readText p).eval fs = .ok text ∧
      Ends fs (compileText fuel o (((Look.settle p).eval fs).parent?.getD "") text) w made w' ∧
      d = (made.set Key.source (.string ((Look.settle p).eval fs))).set Key.files (textList (addSource
        ((Look.settle p).eval fs) (Pack.files (made.set Key.source (.string ((Look.settle p).eval fs)))))) := by
  change Compiling.eval fs _ w = _ at h
  rw [compileSource, eval_look_bind] at h
  cases htext : (Look.readText p).eval fs with
  | error e =>
    rw [htext] at h
    cases h
  | ok text =>
    rw [htext] at h
    dsimp only at h
    rw [eval_look_bind] at h
    obtain ⟨made, _, hmade, hdone⟩ := of_bind h
    cases (Answers.files fs).option.eq_of_pure hdone.symm
    exact ⟨text, made, rfl, hmade, rfl⟩

/-- A description that compiles is listed among the files of the pack. -/
theorem lists_source (h : Ends fs (compileSource fuel o p) w d w') : (Look.settle p).eval fs ∈ Pack.files d := by
  obtain ⟨text, made, -, -, rfl⟩ := h.of_compileSource
  rw [Pack.files_set]
  exact mem_addSource _ _

end Compiling.Ends

namespace CompilingFile

/-- In this state of a file system a compile ends well: from the world `w` with `d`, and it leaves the world `w'`. -/
def Ends (m : FileSystem S) (s : S) (x : CompilingFile σ Outcome) (w : σ) (d : Dict Value) (w' : σ) : Prop :=
  (m.run s (x.run w).run).1 = some (.ok d, w')

instance {P : Dict Value → Prop} [DecidablePred P] (m : FileSystem S) (s : S) (x : CompilingFile σ Outcome) (w : σ) :
    Decidable (∃ d w', Ends m s x w d w' ∧ P d) :=
  match h : (m.run s (x.run w).run).1 with
  | some (.ok d, w') => decidable_of_iff (P d)
    ⟨fun hd => ⟨d, w', h, hd⟩, fun ⟨_, _, h', hd⟩ => by cases h.symm.trans h'; exact hd⟩
  | some (.error _, _) => isFalse fun ⟨_, _, h', _⟩ => nomatch h.symm.trans h'
  | none => isFalse fun ⟨_, _, h', _⟩ => nomatch h.symm.trans h'

/-- A compile ends well with what it finds in a cache or with what it makes anew. -/
theorem ends_iff : Ends m s (compileFile fuel o p mode) w d w' ↔
    match mode.found.eval (m.files s) with
    | some e => e = d ∧ w = w'
    | none => Compiling.Ends (m.files s) (compileSource fuel o p) w d w' := by
  rw [Ends, run_compileFile, FileSystem.run_bind, FileSystem.run_toScript]
  dsimp only
  cases mode.found.eval (m.files s) with
  | some e =>
    dsimp only
    constructor
    · intro h
      cases h
      exact ⟨rfl, rfl⟩
    · rintro ⟨rfl, rfl⟩
      rfl
  | none =>
    dsimp only
    rw [FileSystem.run_bind, FileSystem.run_toScript, Compiling.Ends]
    generalize (((compileSource fuel o p).run).run w).run.eval (m.files s) = r
    rcases r with _ | ⟨issues | e, v⟩
    · exact Iff.rfl
    · exact Iff.rfl
    · dsimp only [CacheMode.keepOutcome]
      rw [FileSystem.run_bind]
      exact Iff.rfl

/-- A compile that ends well lists the description, unless it may use a cache and takes one that does not. -/
theorem lists_source_iff (h : Ends m s (compileFile fuel o p mode) w d w') :
    (Look.settle p).eval (m.files s) ∈ Pack.files d ↔ ∀ cache e, mode = .use cache →
      (Cache.load? cache).eval (m.files s) = some e → (Look.settle p).eval (m.files s) ∈ Pack.files e := by
  have hfound := ends_iff.mp h
  constructor
  · rintro hlists cache e rfl hload
    change match (Cache.load? cache).eval (m.files s) with | some e => _ | none => _ at hfound
    rw [hload] at hfound
    exact hfound.1 ▸ hlists
  · intro hown
    cases hcache : mode.found.eval (m.files s) with
    | none =>
      rw [hcache] at hfound
      exact hfound.lists_source
    | some e =>
      rw [hcache] at hfound
      obtain ⟨rfl, -⟩ := hfound
      cases mode with
      | use cache => exact hown cache e rfl hcache
      | _ => cases hcache

/-- A description is compiled into a cache, beside another one. -/
def sharedCache : Disk :=
  let d := Command.history Command.blankDisk Command.twoFiles
  (Disk.system.run d ((compileFile ample (Command.requestFor "b").options "b" (.rebuild "c")).run ()).run).2

theorem lists_source_iff_sharedCache : ∃ d, Ends Disk.system sharedCache
      (compileFile ample (Command.requestFor "b").options "b" (.use "c")) () d () ∧ "/b" ∈ Pack.files d := by
  obtain ⟨d, ⟨⟩, hends, hfiles⟩ : ∃ d w', Ends Disk.system sharedCache
      (compileFile ample (Command.requestFor "b").options "b" (.use "c")) () d w' ∧ Pack.files d = ["/b"] := by
    decide +kernel
  have hsettle : (Look.settle "b").eval (Disk.system.files sharedCache) = "/b" := by decide +kernel
  generalize sharedCache = s at hends hsettle ⊢
  have hlists := lists_source_iff hends
  rw [hsettle] at hlists
  refine ⟨d, hends, hlists.mpr fun cache e hcache hload => ?_⟩
  cases hcache
  have hfound := ends_iff.mp hends
  change match (Cache.load? "c").eval _ with | some e => _ | none => _ at hfound
  rw [hload] at hfound
  rw [hfound.1, hfiles]
  exact List.mem_singleton_self _

/-- The cache of one description is used for the other, which it does not list. -/
theorem not_lists_source_of_sharedCache : (Look.settle "a").eval sharedCache.files = "/a" ∧
    ∃ d w', Ends Disk.system sharedCache (compileFile ample (Command.requestFor "a").options "a" (.use "c")) () d w' ∧
      "/a" ∉ Pack.files d := by
  constructor
  · decide +kernel
  · decide +kernel

end CompilingFile
end AssetPack
