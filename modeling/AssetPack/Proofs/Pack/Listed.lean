import AssetPack.Proofs.Description.Read
import AssetPack.Proofs.Pack.Sourced

/-!
# All that a compile reads is listed

A compile that does not use a cache reads the description, what it imports and what it embeds. All of this is listed
in the pack that it makes, but for files that are named without the mark.
-/
namespace AssetPack
variable {σ S : Type} {fs : Files} {m : FileSystem S} {s : S} {fuel : Nat} {o : Options σ} {p : Path} {w w' : σ}
  {d : Dict Value} {mode : CacheMode}

namespace Pack

/-- What is recorded for debugging leaves the list of files alone. -/
theorem get?_files_withFiles {files : List String} (h : d.get? Key.files = some (textList files)) (context : Context)
    (name : String) : (withFiles context d name).get? Key.files = some (textList files) := by
  unfold withFiles
  split
  · exact h
  · rename_i hentry _
    rw [Dict.get?_set]
    split
    · rename_i hname
      rw [← hname, h] at hentry
      cases hentry
    · exact h
  · exact h

theorem get?_files_withDebug {files : List String} (h : d.get? Key.files = some (textList files)) (context : Context) :
    (withDebug context d).get? Key.files = some (textList files) := by
  have hfold (names : List String) {d : Dict Value} (h : d.get? Key.files = some (textList files)) :
      (names.foldl (withFiles context) d).get? Key.files = some (textList files) := by
    induction names generalizing d with
    | nil => exact h
    | cons name rest ih => exact ih (get?_files_withFiles h context name)
  rw [withDebug, Dict.get?_set, if_neg (by decide)]
  refine hfold _ ?_
  rw [Dict.get?_set, if_neg (by decide), h]

theorem get?_files_withMetadata (context : Context) (d : Dict Value) :
    (withMetadata context d).get? Key.files = some (textList context.files) := by
  have hfiles : (d.set Key.files (textList context.files)).get? Key.files = some (textList context.files) :=
    (Dict.get?_set ..).trans (if_pos rfl)
  have hdebug : (if context.debug then withDebug context (d.set Key.files (textList context.files))
      else d.set Key.files (textList context.files)).get? Key.files = some (textList context.files) := by
    split
    · exact get?_files_withDebug hfiles context
    · exact hfiles
  have hnameSpace {e : Dict Value} (he : e.get? Key.files = some (textList context.files)) :
      (if e.contains Key.nameSpace then e else e.set Key.nameSpace (.string Key.defaultNamespace)).get? Key.files =
        some (textList context.files) := by
    split
    · exact he
    · rw [Dict.get?_set, if_neg (by decide), he]
  rw [withMetadata, Dict.get?_set, if_neg (by decide)]
  exact hnameSpace hdebug

end Pack

theorem subset_addSource (source : String) (files : List String) : files ⊆ addSource source files := by
  rw [addSource]
  split
  · exact List.Subset.refl _
  · exact fun f hf => List.mem_mergeSort.mpr (List.mem_append_left _ hf)

/-- What the description in a file is expanded to. -/
def expandedSource? (fs : Files) (fuel : Nat) (o : Options σ) (p : Path) : Option (Dict Value) :=
  match (Look.readText p).eval fs with
  | .error _ => none
  | .ok text =>
    match Json.parseDict text with
    | .error _ => none
    | .ok d => d.expanded? fs fuel o (((Look.settle p).eval fs).parent?.getD "")

theorem expandedSource?_of_parse {text : String} (htext : (Look.readText p).eval fs = .ok text)
    (hparse : Json.parseDict text = .ok d) (fuel : Nat) (o : Options σ) :
    expandedSource? fs fuel o p = d.expanded? fs fuel o (((Look.settle p).eval fs).parent?.getD "") := by
  rw [expandedSource?, htext]
  dsimp only
  rw [hparse]

/-- The file is listed by the name that it goes by. -/
def Dict.Lists (fs : Files) (d : Dict Value) (path : Path) : Prop :=
  ∃ f ∈ Pack.files d, Path.same f ((Look.settle path).eval fs)

namespace Compiling
variable {α β : Type}

theorem asked_bind (x : Compiling σ α) (f : α → Compiling σ β) (w : σ) : asked fs (x >>= f) w = asked fs x w ++
    match eval fs x w with
    | some (.ok a, w') => asked fs (f a) w'
    | _ => [] := by
  have hrun : ((x >>= f).run).run w = (x.run).run w >>= fun r => (ExceptT.bindCont f r.1).run r.2 := rfl
  rw [asked, hrun, Look.asked_optionT_bind, asked, eval]
  refine congrArg (_ ++ ·) ?_
  rcases ((x.run).run w).run.eval fs with _ | ⟨issues | a, w'⟩ <;> rfl

theorem asked_map (f : α → β) (x : Compiling σ α) (w : σ) : asked fs (x >>= fun a => pure (f a)) w = asked fs x w := by
  rw [asked_bind]
  rcases eval fs x w with _ | ⟨issues | a, w'⟩ <;> exact List.append_nil _

theorem asked_compileSource {text : String} (h : (Look.readText p).eval fs = .ok text) (w : σ) :
    asked fs (compileSource fuel o p) w = .read p :: .canonical p ::
      asked fs (compileText fuel o (((Look.settle p).eval fs).parent?.getD "") text) w := by
  rw [compileSource, asked_look_bind, Look.asked_readText, h]
  dsimp only
  rw [asked_look_bind, Look.asked_settle, asked_map]
  rfl

/-- With the built-in types a compile of a file lists what it reads, but for what the description names plainly. -/
theorem Ends.reads (h : Ends fs (compileSource fuel o p) w d w') (ho : o.registry = .builtin) {path : Path}
    (hread : .read path ∈ asked fs (compileSource fuel o p) w) :
    d.Lists fs path ∨ ∃ e, expandedSource? fs fuel o p = some e ∧ e.NamesPlainly path := by
  have hsource := h.lists_source
  obtain ⟨text, made, htext, hmade, rfl⟩ := h.of_compileSource
  rw [asked_compileSource htext] at hread
  rcases List.mem_cons.mp hread with hread | hread
  · cases hread
    exact .inl ⟨_, hsource, decide_eq_true rfl⟩
  rcases List.mem_cons.mp hread with hread | hread
  · cases hread
  rw [compileText] at hmade hread
  cases hparse : Json.parseDict text with
  | error f =>
    rw [hparse] at hmade
    exact (not_of_throw hmade).elim
  | ok d =>
    rw [hparse] at hmade hread
    obtain ⟨context, made, expanded, rfl, hexpanded, hreads⟩ := Dict.reads_of_compile ho hmade
    rcases hreads path hread with ⟨f, hf, hsame⟩ | hplain
    · refine .inl ⟨f, ?_, hsame⟩
      have hfiles : Pack.files ((withMetadata context made).set Key.source (.string ((Look.settle p).eval fs))) =
          context.files := by
        refine Pack.files_of_get? ?_
        rw [Dict.get?_set, if_neg (by decide), Pack.get?_files_withMetadata]
      rw [Pack.files_set, hfiles]
      exact subset_addSource _ _ hf
    · exact .inr ⟨expanded, (expandedSource?_of_parse htext hparse fuel o).trans hexpanded, hplain⟩

end Compiling
/-- The action is no question. -/
def Action.IsChange : Action → Prop
  | .look _ => False
  | _ => True

/-- The pack is written once its directory was made. -/
theorem Pack.asks_put (p : Path) (d : Dict Value) (made : Except FileError Unit) :
    Plan.Asks Action.IsChange (match made with
      | .error e => return .error (.file e)
      | .ok () => do
        match ← Script.write p d.encode with
        | .ok () => return .ok ()
        | .error e => return .error (.file e) : Script (Except Fault Unit)) := by
  cases made with
  | error e => trivial
  | ok _ =>
    refine ⟨trivial, fun answer => ?_⟩
    cases answer <;> trivial

theorem Pack.asks_write (p : Path) (d : Dict Value) : (Pack.write p d).Asks Action.IsChange := by
  unfold Pack.write
  split
  · split
    · exact asks_put p d (.ok ())
    · exact ⟨trivial, asks_put p d⟩
  · exact asks_put p d (.ok ())

theorem CacheMode.asks_keepOutcome (mode : CacheMode) (r : Option (Outcome × σ)) :
    (mode.keepOutcome r).Asks Action.IsChange := by
  have hkeepIn (cache : Path) (d : Dict Value) : (keepIn cache d).Asks Action.IsChange := by
    refine (Pack.asks_write cache d).bind fun written => ?_
    cases written with
    | ok _ => trivial
    | error e => exact ⟨trivial, fun _ => trivial⟩
  rcases r with _ | ⟨issues | d, w⟩
  · trivial
  · trivial
  · refine Plan.Asks.bind ?_ fun _ => trivial
    cases mode with
    | none => trivial
    | use cache => exact hkeepIn cache d
    | rebuild cache => exact hkeepIn cache d

/-- The path at which an action reads. -/
def Action.readAt? : Action → Option Path
  | .look (.read p) => some p
  | _ => none

namespace CompilingFile

/-- The paths at which a compile of a file reads, in order. -/
def reads (m : FileSystem S) (s : S) (x : CompilingFile σ Outcome) (w : σ) : List Path :=
  (m.actions s (x.run w).run).filterMap Action.readAt?

/-- What a compile reads that does not use a cache is read to make the pack. -/
theorem asked_of_mem_reads (hmode : ∀ cache, mode ≠ .use cache) {path : Path}
    (h : path ∈ reads m s (compileFile fuel o p mode) w) :
    .read path ∈ Compiling.asked (m.files s) (compileSource fuel o p) w := by
  obtain ⟨action, haction, hpath⟩ := List.mem_filterMap.mp h
  obtain rfl : action = .look (.read path) := by
    cases action with
    | look q =>
      cases q with
      | read p =>
        cases hpath
        rfl
      | _ => cases hpath
    | _ => cases hpath
  rw [run_compileFile, CacheMode.found_of_ne_use hmode] at haction
  change _ ∈ m.actions s ((((compileSource fuel o p).run).run w).run.toScript >>= mode.keepOutcome) at haction
  rw [FileSystem.actions_bind, FileSystem.actions_toScript] at haction
  rcases List.mem_append.mp haction with haction | haction
  · obtain ⟨_, hasked, ⟨⟩⟩ := List.mem_map.mp haction
    exact hasked
  · exact (FileSystem.of_mem_actions (mode.asks_keepOutcome _) _ haction).elim

/-- Without a cache or with one that is made anew, and with the built-in types, a compile of a file that ends well lists
every file that it reads by its canonical name. Only those may be missing that the description, once it is expanded,
names in a field `file` without the mark. -/
theorem lists_read (hmode : ∀ cache, mode ≠ .use cache) (ho : o.registry = .builtin)
    (h : Ends m s (compileFile fuel o p mode) w d w') : ∀ path ∈ reads m s (compileFile fuel o p mode) w,
      d.Lists (m.files s) path ∨ ∃ e, expandedSource? (m.files s) fuel o p = some e ∧ e.NamesPlainly path := by
  intro path hread
  have hends := ends_iff.mp h
  rw [CacheMode.found_of_ne_use hmode, Look.eval_pure] at hends
  exact hends.reads ho (asked_of_mem_reads hmode hread)

/-- A text and an import, a description with both, and one that names the text without the mark. -/
def namedFiles : Disk :=
  Command.history Command.blankDisk
    [.write "t" (Bytes.ofString "text"), .write "i" (Bytes.ofString "\x7b\"x\": 1\x7d"),
      .write "d" (Bytes.ofString ("\x7b\"res:import\": \"i\", \"s\": \"file:d\"," ++
        "\"r\": \x7b\"res:type\": \"file\", \"file\": \"file:t\"\x7d\x7d")),
      .write "p" (Bytes.ofString "\x7b\"r\": \x7b\"res:type\": \"file\", \"file\": \"t\"\x7d\x7d")]

theorem lists_read_namedFiles : ∃ d, Ends Disk.system namedFiles
      (compileFile ample (Command.requestFor "d").options "d" (.rebuild "c")) () d () ∧
    Pack.files d = ["/d", "/i", "/t"] ∧ ∀ path ∈ ["d", "/i", "/t"], d.Lists namedFiles.files path ∨
      ∃ e, expandedSource? namedFiles.files ample (Command.requestFor "d").options "d" = some e ∧
        e.NamesPlainly path := by
  obtain ⟨d, ⟨⟩, hends, hfiles⟩ : ∃ d w', Ends Disk.system namedFiles
      (compileFile ample (Command.requestFor "d").options "d" (.rebuild "c")) () d w' ∧
        Pack.files d = ["/d", "/i", "/t"] := by
    decide +kernel
  have hreads : reads Disk.system namedFiles
      (compileFile ample (Command.requestFor "d").options "d" (.rebuild "c")) () = ["d", "/i", "/t"] := by
    decide +kernel
  exact ⟨d, hends, hfiles, hreads ▸ lists_read (fun _ h => nomatch h) rfl hends⟩

/-- A file that is named without the mark is read and not listed. -/
theorem not_lists_read_of_plain : ∃ d w', Ends Disk.system namedFiles
      (compileFile ample (Command.requestFor "p").options "p" .none) () d w' ∧
    "t" ∈ reads Disk.system namedFiles (compileFile ample (Command.requestFor "p").options "p" .none) () ∧
      ¬d.Lists namedFiles.files "t" := by
  obtain ⟨d, w', hends, hfiles⟩ : ∃ d w', Ends Disk.system namedFiles
      (compileFile ample (Command.requestFor "p").options "p" .none) () d w' ∧ Pack.files d = ["/p"] := by
    decide +kernel
  refine ⟨d, w', hends, by decide +kernel, ?_⟩
  rintro ⟨f, hf, hsame⟩
  rw [hfiles, List.mem_singleton] at hf
  have hother : Path.same "/p" ((Look.settle "t").eval namedFiles.files) = false := by decide +kernel
  rw [hf, hother] at hsame
  cases hsame

end CompilingFile
end AssetPack
