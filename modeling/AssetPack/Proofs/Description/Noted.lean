import AssetPack.Proofs.Description.Passes

/-!
# What types and resources note

A compile in which all types and resources are overheard is the same compile. All issues that they note
and that have words are in the context at the end of the last pass.
-/
namespace AssetPack
variable {σ α β : Type} {fs : Files}

def Note.issue? : Note → Option Issue
  | .issue i => some i
  | _ => none

/-- The issues among the notes beside an answer. -/
def noted (r : α × List Note) : List Issue := r.2.filterMap Note.issue?

/-- A resource whose world keeps a list of all issues that it notes. -/
def Resource.overheard (r : Resource σ) : Resource (σ × List Issue) where
  typeName := r.typeName
  body := r.body
  save := r.save
  dependencies := r.dependencies
  finish c := overhear noted (r.finish c)
  siblings := r.siblings
  toFile := r.toFile

/-- A type whose world keeps a list of all issues that it and its resources note. -/
def Factory.overheard (f : Factory σ) : Factory (σ × List Issue) where
  fromSource d c := do
    let (made, notes) ← overhear noted (f.fromSource d c)
    return (made.map Resource.overheard, notes)
  fromCache d := do
    let (w, log) ← get
    let (made, w) := (f.fromCache d).run w
    set (w, log)
    return made.map Resource.overheard

def Registry.overheard (r : Registry σ) : Registry (σ × List Issue) := ⟨r.factories.map Factory.overheard⟩

def Options.overheard (o : Options σ) : Options (σ × List Issue) := ⟨o.debug, o.registry.overheard, o.localize⟩

theorem Registry.get?_overheard (r : Registry σ) (typeName : String) :
    r.overheard.get? typeName = (r.get? typeName).map Factory.overheard := Dict.get?_map ..

namespace Context

theorem issues_addFile (c : Context) (owner : Option String) (path : Path) :
    ((c.addFile owner path).eval fs).issues = c.issues := by
  rw [addFile, Look.eval_bind, Look.eval_pure]
  rfl

theorem issues_addSymbol (c : Context) (symbol name : String) : (c.addSymbol symbol name).issues = c.issues := by
  rw [addSymbol]
  split <;> rfl

theorem issues_add (c : Context) (note : Note) :
    ((c.add note).eval fs).issues = c.issues ++ Issue.audible note.issue?.toList := by
  cases note with
  | issue i => rfl
  | output name bytes =>
    show (c.addOutput name bytes).issues = c.issues ++ []
    rw [addOutput, List.append_nil]
    split <;> rfl
  | file owner path => exact (issues_addFile c owner path).trans (List.append_nil _).symm

/-- The issues among notes are added, if they have words. -/
theorem issues_addAll (c : Context) (notes : List Note) :
    ((c.addAll notes).eval fs).issues = c.issues ++ Issue.audible (notes.filterMap Note.issue?) := by
  induction notes generalizing c with
  | nil => exact (List.append_nil _).symm
  | cons note rest ih =>
    have hsplit : (note :: rest).filterMap Note.issue? = note.issue?.toList ++ rest.filterMap Note.issue? := by
      rw [List.filterMap_cons]
      cases note.issue? <;> rfl
    rw [addAll, List.foldlM_cons, Look.eval_bind, ← addAll, ih, issues_add, hsplit, Issue.audible_append,
      List.append_assoc]

end Context

/-! ## Loading -/

def Loading.overheard (l : Loading σ) (log : List Issue) : Loading (σ × List Issue) :=
  ⟨l.context, l.roots.map fun root => (root.1, root.2.overheard), (l.world, log)⟩

/-- The same state, and no issue that was overheard and has words is missing in its context. -/
def Loading.Heard (l : Loading σ) (l' : Loading (σ × List Issue)) : Prop :=
  ∃ log, l' = l.overheard log ∧ Issue.audible log ⊆ l.context.issues

/-- `y` does what `x` does, with what it notes kept besides, and gives what `x` gives, but for `f`. -/
def Overhears (fs : Files) (f : α → β) (x : StateT σ Look (α × List Note))
    (y : StateT (σ × List Issue) Look (β × List Note)) : Prop :=
  ∀ w log, (Evaluation.files fs).after y (w, log) =
    ((f ((Evaluation.files fs).after x w).1.1, ((Evaluation.files fs).after x w).1.2),
      ((Evaluation.files fs).after x w).2, log ++ noted ((Evaluation.files fs).after x w).1)

theorem overhears_finish (r : Resource σ) (c : Context) : Overhears fs id (r.finish c) (r.overheard.finish c) :=
  fun _ _ => Evaluation.after_overhear ..

theorem overhears_fromSource (f : Factory σ) (d : Dict Value) (c : Context) :
    Overhears fs (Option.map Resource.overheard) (f.fromSource d c) (f.overheard.fromSource d c) := by
  intro w log
  rw [Factory.overheard, Evaluation.after_bind, Evaluation.after_overhear, Evaluation.after_pure]

namespace Loading

theorem after_noting (x : Context → StateT σ Look (α × List Note)) (l : Loading σ) :
    (Evaluation.files fs).after (noting x) l =
      (((Evaluation.files fs).after (x l.context) l.world).1.1,
        { l with
          context := (l.context.addAll ((Evaluation.files fs).after (x l.context) l.world).1.2).eval fs
          world := ((Evaluation.files fs).after (x l.context) l.world).2 }) := by
  rw [noting, Evaluation.after_bind, Evaluation.after_get, Evaluation.after_bind, Evaluation.after_lift,
    Evaluation.after_bind, Evaluation.after_lift, Evaluation.after_bind, Evaluation.after_set, Evaluation.after_pure]
  rfl

theorem follows_noting {f : α → β} {x : Context → StateT σ Look (α × List Note)}
    {y : Context → StateT (σ × List Issue) Look (β × List Note)} (h : ∀ c, Overhears fs f (x c) (y c)) :
    Follows (.files fs) Heard f (noting x) (noting y) := by
  rintro l _ ⟨log, rfl, hlog⟩
  rw [after_noting, after_noting, overheard, h l.context l.world log]
  refine ⟨rfl, log ++ noted _, rfl, ?_⟩
  rw [Issue.audible_append, Context.issues_addAll]
  exact List.append_subset.mpr
    ⟨List.Subset.trans hlog (List.subset_append_left _ _), List.subset_append_right _ _⟩

theorem follows_addSymbol (symbol name : String) :
    Follows (.files fs) (Heard (σ := σ)) id (addSymbol symbol name) (addSymbol symbol name) := by
  unfold addSymbol
  split
  · refine .change ?_
    rintro l _ ⟨log, rfl, hlog⟩
    exact ⟨log, rfl, (l.context.issues_addSymbol symbol name).symm ▸ hlog⟩
  · exact .pure ()

/-- What is loaded is the same. -/
theorem follows_load (registry : Registry σ) (s : Spot) (d : Dict Value) :
    Follows (.files fs) Heard id (load registry s d) (load registry.overheard s d) := by
  obtain ⟨trail, issues⟩ := s
  unfold load
  simp only [Registry.get?_overheard]
  split
  · exact .pure _
  · refine .bind (follows_addSymbol _ _) fun _ => ?_
    split
    · exact .pure _
    · rename_i typeName _
      cases registry.get? typeName with
      | none => exact .pure _
      | some factory =>
        refine .bind (follows_noting fun c => overhears_fromSource factory d c) fun made => ?_
        cases made with
        | none => exact .pure _
        | some r =>
          refine .bind (.change ?_) fun _ => .pure _
          rintro l _ ⟨log, rfl, hlog⟩
          refine ⟨log, ?_, hlog⟩
          simp only [overheard, List.map_append, List.map_cons, List.map_nil]
  · split
    · exact .pure _
    · rename_i typeName _
      cases registry.get? typeName with
      | none => exact .pure _
      | some factory =>
        refine .bind (follows_noting fun c => overhears_fromSource factory d c) fun made => ?_
        cases made with
        | none => exact .pure _
        | some r =>
          dsimp only [Option.map]
          split
          · refine .bind (.change ?_) fun _ => .pure _
            rintro l _ ⟨log, rfl, hlog⟩
            refine ⟨log, ?_, hlog⟩
            simp only [overheard, List.map_append, List.map_cons, List.map_nil]
          · refine .bind (follows_noting (overhears_finish r)) fun ok => ?_
            have hkept : keptForm d typeName r.overheard = keptForm d typeName r := rfl
            rw [hkept]
            cases ok with
            | false => exact .pure _
            | true =>
              dsimp only [id, Bool.not_true]
              cases keptForm d typeName r <;> exact .pure _

end Loading

/-- The pass over objects is the same when it is overheard. -/
theorem Dict.follows_loadObjects (fs : Files) (registry : Registry σ) (d : Dict Value) {l : Loading σ}
    {l' : Loading (σ × List Issue)} (hl : l.Heard l') :
    (((d.loadObjects registry.overheard).run l').eval fs).1 = (((d.loadObjects registry).run l).eval fs).1 ∧
      (((d.loadObjects registry).run l).eval fs).2.Heard (((d.loadObjects registry.overheard).run l').eval fs).2 := by
  have hfollow : Hooks.Follow (.files fs) (fun _ => Loading.Heard)
      { Hooks.keep with onDict := Loading.load registry }
      { Hooks.keep with onDict := Loading.load registry.overheard } :=
    ⟨fun _ _ _ _ h => h, fun _ _ _ _ _ h => ⟨rfl, h⟩, fun trail d issues => Loading.follows_load registry _ d⟩
  exact hfollow.visitRoot d hl

/-! ## Finishing -/

/-- States of finishing in the relation `R` have come equally far, and what is reported or set in both keeps them in
it. -/
structure Finishing.Kin {τ : Type} (R : Finishing σ → Finishing τ → Prop) : Prop where
  progress : ∀ f f', R f f' → f'.progress = f.progress
  report : ∀ i f f', R f f' → R { f with issues := f.issues ++ [i] } { f' with issues := f'.issues ++ [i] }
  setProgress : ∀ name p f f', R f f' →
    R { f with progress := f.progress.set name p } { f' with progress := f'.progress.set name p }

namespace Finishing
variable {τ : Type} {R : Finishing σ → Finishing τ → Prop}

theorem Kin.follows_report (hR : Kin R) (i : Issue) :
    Follows (.files fs) R id (Finishing.report i) (Finishing.report i) := .change (hR.report i)

theorem Kin.follows_setProgress (hR : Kin R) (name : String) (p : Progress) :
    Follows (.files fs) R id (Finishing.setProgress name p) (Finishing.setProgress name p) :=
  .change (hR.setProgress name p)

theorem Kin.follows_allFinish (hR : Kin R) {finish : String → FinishingM σ Bool} {finish' : String → FinishingM τ Bool}
    (h : ∀ name, Follows (.files fs) R id (finish name) (finish' name)) (owner : String) (names : List String) :
    Follows (.files fs) R id (allFinish finish owner names) (allFinish finish' owner names) := by
  induction names with
  | nil => exact .pure true
  | cons name rest ih =>
    refine (h name).bind fun ok => ?_
    cases ok with
    | true => exact ih
    | false => exact (hR.follows_report _).bind fun _ => .pure false

/-- How the finishing of a resource ends. -/
theorem Kin.follows_close (hR : Kin R) (name : String) (ready ok : Bool) : Follows (.files fs) R id
    (do
      if ready && !ok then Finishing.report (.notFinished name)
      Finishing.setProgress name (.ended ok)
      return ok)
    (do
      if ready && !ok then Finishing.report (.notFinished name)
      Finishing.setProgress name (.ended ok)
      return ok) := by
  split
  · exact (hR.follows_report _).bind fun _ => (hR.follows_setProgress name (.ended ok)).bind fun _ => .pure ok
  · exact (hR.follows_setProgress name (.ended ok)).bind fun _ => .pure ok

/-- Finishing follows if it does for each resource itself. -/
theorem Kin.follows_finish (hR : Kin R) {objects : Dict (Resource σ)} {objects' : Dict (Resource τ)}
    {w : String → Resource σ → Resource τ}
    (hobjects : ∀ name, objects'.get? name = (objects.get? name).map (w name))
    (hdependencies : ∀ name r, (w name r).dependencies = r.dependencies)
    (hcomplete : ∀ name r, objects.get? name = some r → Follows (.files fs) R id (complete r) (complete (w name r)))
    (fuel : Nat) (name : String) : Follows (.files fs) R id (finish objects fuel name) (finish objects' fuel name) := by
  induction fuel generalizing name with
  | zero => exact .pure false
  | succ fuel ih =>
    refine .ask fun f f' hf => ?_
    rw [hR.progress f f' hf, hobjects]
    cases f.progress.get? name with
    | some p =>
      cases p with
      | ended ok => exact .pure ok
      | underway => exact (hR.follows_report _).bind fun _ => .pure false
    | none =>
      cases hobject : objects.get? name with
      | none => exact .pure true
      | some r =>
        dsimp only [Option.map_some]
        rw [hdependencies]
        refine (hR.follows_setProgress name .underway).bind fun _ =>
          (hR.follows_allFinish ih name r.dependencies).bind fun ready => ?_
        cases ready with
        | true => exact (hcomplete name r hobject).bind fun ok => hR.follows_close name true ok
        | false => exact hR.follows_close name false false

theorem Kin.follows_finishAll (hR : Kin R) {w : String → Resource σ → Resource τ}
    (hdependencies : ∀ name r, (w name r).dependencies = r.dependencies) (roots : List (String × Resource σ))
    (hcomplete : ∀ root ∈ roots, Follows (.files fs) R id (complete root.2) (complete (w root.1 root.2))) :
    Follows (.files fs) R id (finishAll roots) (finishAll (roots.map fun root => (root.1, w root.1 root.2))) := by
  have hfinish := hR.follows_finish (Dict.get?_ofList_map w roots) hdependencies
    (fun name r hr => hcomplete (name, r) (Dict.mem_ofList (Dict.mem_of_get? hr))) (roots.length + 1)
  have hall (names : List (String × Resource σ)) : Follows (.files fs) R id
      (names.forM fun root => do let _ ← finish (Dict.ofList roots) (roots.length + 1) root.1)
      ((names.map fun root => (root.1, w root.1 root.2)).forM fun root => do
        let _ ← finish (Dict.ofList (roots.map fun root => (root.1, w root.1 root.2))) (roots.length + 1)
          root.1) := by
    induction names with
    | nil => exact .pure ()
    | cons root rest ih =>
      exact .bind ((hfinish root.1).bind (g := id) fun _ => .pure ()) fun _ => ih
  rw [finishAll, finishAll, List.length_map]
  exact hall roots

/-- How a resource itself finishes. -/
theorem after_complete (r : Resource σ) (f : Finishing σ) :
    (Evaluation.files fs).after (complete r) f =
      (((Evaluation.files fs).after (r.finish f.context) f.world).1.1,
        { f with
          context := (f.context.addAll ((Evaluation.files fs).after (r.finish f.context) f.world).1.2).eval fs
          world := ((Evaluation.files fs).after (r.finish f.context) f.world).2 }) := by
  rw [complete, Evaluation.after_bind, Evaluation.after_get, Evaluation.after_bind, Evaluation.after_lift,
    Evaluation.after_bind, Evaluation.after_lift, Evaluation.after_bind, Evaluation.after_set, Evaluation.after_pure]
  rfl

def overheard (f : Finishing σ) (log : List Issue) : Finishing (σ × List Issue) :=
  ⟨f.progress, f.issues, f.context, (f.world, log)⟩

/-- The same state, and no issue that was overheard and has words is missing in its context. -/
def Heard (f : Finishing σ) (f' : Finishing (σ × List Issue)) : Prop :=
  ∃ log, f' = f.overheard log ∧ Issue.audible log ⊆ f.context.issues

theorem kin_heard : Kin (Heard (σ := σ)) where
  progress := by
    rintro f _ ⟨log, rfl, _⟩
    rfl
  report := by
    rintro i f _ ⟨log, rfl, hlog⟩
    exact ⟨log, rfl, hlog⟩
  setProgress := by
    rintro name p f _ ⟨log, rfl, hlog⟩
    exact ⟨log, rfl, hlog⟩

theorem follows_complete (r : Resource σ) :
    Follows (.files fs) Heard id (complete r) (complete r.overheard) := by
  rintro f _ ⟨log, rfl, hlog⟩
  rw [after_complete, after_complete, overheard, overhears_finish r f.context f.world log]
  refine ⟨rfl, log ++ noted _, rfl, ?_⟩
  rw [Issue.audible_append, Context.issues_addAll]
  exact List.append_subset.mpr
    ⟨List.Subset.trans hlog (List.subset_append_left _ _), List.subset_append_right _ _⟩

end Finishing

/-! ## Saving -/

theorem saveRoots_overheard (roots : List (String × Resource σ)) (d : Dict Value) :
    saveRoots (roots.map fun root => (root.1, root.2.overheard)) d = saveRoots roots d := by
  rw [saveRoots, List.foldl_map]
  rfl

theorem addSiblings_overheard (roots : List (String × Resource σ)) (d : Dict Value) (context : Context) :
    addSiblings (roots.map fun root => (root.1, root.2.overheard)) d context = addSiblings roots d context := by
  rw [addSiblings, List.foldl_map]
  rfl

/-! ## The chain of passes -/

/-- The same end of a pass, and no issue that was overheard and has words is missing in its context. -/
structure Ended.Heard (p : Ended σ) (p' : Ended (σ × List Issue)) : Prop where
  dict : p'.dict = p.dict
  issues : p'.issues = p.issues
  context : p'.context = p.context
  roots : p'.roots = p.roots.map fun root => (root.1, root.2.overheard)
  world : p'.world.1 = p.world
  heard : Issue.audible p'.world.2 ⊆ p.context.issues

theorem Ended.Heard.concluded {p : Ended σ} {p' : Ended (σ × List Issue)} (h : p.Heard p') :
    p'.concluded = p.concluded := by
  rw [Ended.concluded, h.context, h.dict, h.issues]
  rfl

/-- A pass is the same when it is overheard. -/
theorem Pass.heard_run {registry : Registry σ} {p : Ended σ} {p' : Ended (σ × List Issue)} (h : p.Heard p')
    {d : Dict Value} (hd : p.concluded = .ok d) (pass : Pass) :
    (pass.run fs registry p d).Heard (pass.run fs registry.overheard p' d) := by
  have hsilent : Issue.audible p'.world.2 = [] := by
    have hissues := (List.append_eq_nil_iff.mp (Context.of_conclude hd).2).2
    exact List.subset_nil.mp (hissues ▸ h.heard)
  cases pass with
  | files =>
    refine ⟨?_, ?_, ?_, h.roots, h.world, ?_⟩
    · simp only [run, h.context]
    · simp only [run, h.context]
    · simp only [run, h.context]
    · simp only [run, hsilent]
      exact List.nil_subset _
  | references => exact ⟨rfl, rfl, h.context, h.roots, h.world, h.heard⟩
  | objects =>
    have hstart : (⟨p.context, [], p.world⟩ : Loading σ).Heard ⟨p'.context, [], p'.world⟩ :=
      ⟨p'.world.2, by rw [Loading.overheard, h.context, ← h.world]; rfl, h.heard⟩
    obtain ⟨hvisited, log, hloading, hlog⟩ := Dict.follows_loadObjects fs registry d hstart
    refine ⟨congrArg Visited.dict hvisited, congrArg Visited.issues hvisited, congrArg Loading.context hloading,
      congrArg Loading.roots hloading, congrArg (·.world.1) hloading, ?_⟩
    have hworld : (run fs registry.overheard p' d objects).world.2 = log := congrArg (·.world.2) hloading
    rw [hworld]
    exact hlog
  | finishing =>
    have hstart : (⟨∅, [], p.context, p.world⟩ : Finishing σ).Heard ⟨∅, [], p'.context, p'.world⟩ :=
      ⟨p'.world.2, by rw [Finishing.overheard, h.context, ← h.world], h.heard⟩
    obtain ⟨_, log, hfinishing, hlog⟩ := Finishing.kin_heard.follows_finishAll (w := fun _ => Resource.overheard)
      (fun _ _ => rfl) p.roots (fun root _ => Finishing.follows_complete root.2) _ _ hstart
    rw [← h.roots] at hfinishing
    refine ⟨rfl, congrArg Finishing.issues hfinishing, congrArg Finishing.context hfinishing, h.roots,
      congrArg (·.world.1) hfinishing, ?_⟩
    have hworld : (run fs registry.overheard p' d finishing).world.2 = log := congrArg (·.world.2) hfinishing
    rw [hworld]
    exact hlog
  | saving =>
    have hsaved : saveRoots p'.roots d = saveRoots p.roots d := by rw [h.roots, saveRoots_overheard]
    have hadded (e : Dict Value) : addSiblings p'.roots e p'.context = addSiblings p.roots e p.context := by
      rw [h.roots, h.context, addSiblings_overheard]
    refine ⟨?_, ?_, ?_, h.roots, h.world, ?_⟩
    · simp only [run, hsaved, hadded]
    · simp only [run, hsaved, hadded]
    · simp only [run, hsaved, hadded]
    · simp only [run, hsilent]
      exact List.nil_subset _

/-- All passes are gone through in the same way when they are overheard. -/
theorem Ended.heard_ends {registry : Registry σ} {passes : List Pass} {p last : Ended σ}
    {p' : Ended (σ × List Issue)} (h : p.Heard p') (hlast : (p.ends fs registry passes).getLast? = some last) :
    ∃ last', (p'.ends fs registry.overheard passes).getLast? = some last' ∧ last.Heard last' := by
  induction passes generalizing p p' with
  | nil =>
    cases hlast
    exact ⟨p', rfl, h⟩
  | cons pass rest ih =>
    cases hconcluded : p.concluded with
    | ok d =>
      rw [getLast?_ends_of_ok hconcluded] at hlast
      rw [getLast?_ends_of_ok (h.concluded.trans hconcluded)]
      exact ih (pass.heard_run h hconcluded) hlast
    | error issues =>
      rw [ends_of_error hconcluded] at hlast
      cases hlast
      rw [ends_of_error (h.concluded.trans hconcluded)]
      exact ⟨p', rfl, h⟩

end AssetPack
