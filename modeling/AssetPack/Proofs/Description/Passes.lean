import AssetPack.Proofs.Description.Compiled
import AssetPack.Proofs.Visit.Followed

/-!
# The passes of a compile

With given files a compile is a chain: each pass starts from the dictionary that the one before it was
concluded with, and the first that cannot be concluded ends the chain.
-/
namespace AssetPack
variable {σ : Type} {fs : Files}

namespace Compiling
variable {α β : Type}

/-- What a compile ends with and the world it leaves, if it has an answer. -/
def eval (fs : Files) (x : Compiling σ α) (w : σ) : Option (Except (List Issue) α × σ) :=
  ((x.run).run w).run.eval fs

theorem eval_pure (a : α) (w : σ) : eval fs (pure a : Compiling σ α) w = some (.ok a, w) := rfl

theorem eval_bind (x : Compiling σ α) (f : α → Compiling σ β) (w : σ) : eval fs (x >>= f) w =
    (eval fs x w).bind fun r => match r.1 with
      | .ok a => eval fs (f a) r.2
      | .error issues => some (.error issues, r.2) := by
  have hrun : ((x >>= f).run).run w = (x.run).run w >>= fun r => (ExceptT.bindCont f r.1).run r.2 := rfl
  rw [eval, hrun, OptionT.run_bind, Option.elimM, Look.eval_bind, eval]
  cases ((x.run).run w).run.eval fs with
  | none => rfl
  | some r =>
    obtain ⟨r, w'⟩ := r
    cases r <;> rfl

theorem eval_optionT_bind (x : OptionT Look α) (f : α → Compiling σ β) (w : σ) :
    eval fs (liftM x >>= f) w = (x.run.eval fs).bind fun a => eval fs (f a) w := by
  have hlift : ((liftM x : Compiling σ α).run).run w =
      (x >>= fun a => pure (a, w)) >>= fun r => pure (.ok r.1, r.2) := rfl
  rw [eval_bind, eval, hlift, OptionT.run_bind, OptionT.run_bind]
  simp only [Option.elimM, Look.eval_bind]
  cases x.run.eval fs <;> rfl

theorem eval_look_bind (x : Look α) (f : α → Compiling σ β) (w : σ) :
    eval fs (liftM x >>= f) w = eval fs (f (x.eval fs)) w := by
  have hlift : eval fs (liftM x >>= f) w = eval fs (liftM (OptionT.lift x) >>= f) w := rfl
  rw [hlift, eval_optionT_bind, OptionT.run_lift, Look.eval_bind]
  rfl

theorem eval_getThe_bind (f : σ → Compiling σ β) (w : σ) : eval fs (getThe σ >>= f) w = eval fs (f w) w := rfl

theorem eval_modifyThe_bind (g : σ → σ) (f : Unit → Compiling σ β) (w : σ) :
    eval fs (modifyThe σ g >>= f) w = eval fs (f ()) (g w) := rfl

end Compiling

/-- How a pass ended: what it made and what it found, and what is kept for the passes behind it. -/
structure Ended (σ : Type) where
  dict : Option (Dict Value)
  issues : List Issue
  /-- all that the hooks of its visit reported, if it is one -/
  replies : List Issue
  context : Context
  roots : List (String × Resource σ)
  world : σ

namespace Ended

/-- The dictionary that the next pass starts from, or the issues that end the compile. -/
def concluded (p : Ended σ) : Outcome := p.context.conclude p.dict p.issues

/-- What a compile ends with when this was its last pass. -/
def outcome (p : Ended σ) : Outcome × σ := (p.concluded.map (withMetadata p.context), p.world)

/-- All that was reported in the pass. -/
def reported (p : Ended σ) : List Issue := p.replies ++ (p.issues ++ p.context.issues)

end Ended

/-- The passes behind the expansion. -/
inductive Pass where
  | files | references | objects | finishing | saving
  deriving DecidableEq

namespace Pass

/-- In the order in which they are gone through. -/
def all : List Pass := [files, references, objects, finishing, saving]

/-- Go through a pass with a dictionary, after one that ended as `p`. -/
def run (fs : Files) (registry : Registry σ) (p : Ended σ) (d : Dict Value) : Pass → Ended σ
  | files =>
    let hooks : Hooks (StateT Context Look) := { Hooks.keep with onValue := locate }
    let (visited, context) := (d.locate p.context).eval fs
    { p with
      dict := visited.dict, issues := visited.issues, context := context
      replies := d.replies (.files fs) hooks p.context }
  | references =>
    let hooks : Hooks (StateM Graph) := { Hooks.keep with onValue := resolveRef d }
    { p with
      dict := d.resolveRefs.dict, issues := d.resolveRefs.issues, replies := d.replies .plain hooks ⟨[]⟩ }
  | objects =>
    let hooks : Hooks (LoadingM σ) := { Hooks.keep with onDict := Loading.load registry }
    let (visited, l) := ((d.loadObjects registry).run ⟨p.context, [], p.world⟩).eval fs
    { dict := visited.dict, issues := visited.issues, context := l.context, roots := l.roots, world := l.world
      replies := d.replies (.files fs) hooks ⟨p.context, [], p.world⟩ }
  | finishing =>
    let (_, f) := ((finishAll p.roots).run ⟨∅, [], p.context, p.world⟩).eval fs
    { p with dict := some d, issues := f.issues, replies := [], context := f.context, world := f.world }
  | saving =>
    let (d, issues) := saveRoots p.roots d
    let (d, context, more) := addSiblings p.roots d p.context
    { p with dict := some d, issues := issues ++ more, replies := [], context := context }

end Pass

/-- The ends of the passes, from one that ended as `p` on. -/
def Ended.ends (fs : Files) (registry : Registry σ) (p : Ended σ) : List Pass → List (Ended σ)
  | [] => [p]
  | pass :: rest => p :: match p.concluded with
    | .ok d => (pass.run fs registry p d).ends fs registry rest
    | .error _ => []

/-- The ends of all passes that a compile goes through. There are none if the expansion has no end. -/
def Dict.ends (fs : Files) (fuel : Nat) (o : Options σ) (base : Path) (d : Dict Value) (w : σ) : List (Ended σ) :=
  match (d.expand fuel o.localize (.start base o.debug)).run.eval fs with
  | none => []
  | some (visited, context) =>
    let p : Ended σ := ⟨visited.dict, visited.issues, [], context, [], w⟩
    p.ends fs o.registry Pass.all

/-! ## The chain is the compile -/

theorem Ended.ends_ne_nil {registry : Registry σ} (p : Ended σ) (passes : List Pass) :
    p.ends fs registry passes ≠ [] := by
  cases passes <;> exact List.cons_ne_nil _ _

theorem Ended.ends_of_ok {registry : Registry σ} {p : Ended σ} {d : Dict Value} (h : p.concluded = .ok d)
    (pass : Pass) (rest : List Pass) :
    p.ends fs registry (pass :: rest) = p :: (pass.run fs registry p d).ends fs registry rest := by
  rw [ends, h]

theorem Ended.getLast?_ends_of_ok {registry : Registry σ} {p : Ended σ} {d : Dict Value}
    (h : p.concluded = .ok d) (pass : Pass) (rest : List Pass) : (p.ends fs registry (pass :: rest)).getLast? =
      ((pass.run fs registry p d).ends fs registry rest).getLast? := by
  rw [ends_of_ok h, List.getLast?_cons_of_ne_nil (ends_ne_nil _ rest)]

theorem Ended.ends_of_error {registry : Registry σ} {p : Ended σ} {issues : List Issue}
    (h : p.concluded = .error issues) (passes : List Pass) : p.ends fs registry passes = [p] := by
  cases passes with
  | nil => rfl
  | cons pass rest => rw [ends, h]

theorem Compiling.eval_conclude_bind {p : Ended σ} {registry : Registry σ} {pass : Pass} {rest : List Pass}
    {f : Dict Value → Compiling σ (Dict Value)}
    (h : ∀ d, eval fs (f d) p.world =
      ((pass.run fs registry p d).ends fs registry rest).getLast?.map Ended.outcome) :
    eval fs (Dict.compile.liftExcept p.concluded >>= f) p.world =
      (p.ends fs registry (pass :: rest)).getLast?.map Ended.outcome := by
  have hlift : eval fs (Dict.compile.liftExcept p.concluded) p.world = some (p.concluded, p.world) := rfl
  rw [eval_bind, hlift]
  cases hconcluded : p.concluded with
  | ok d =>
    rw [Ended.getLast?_ends_of_ok hconcluded]
    exact h d
  | error issues =>
    rw [Ended.ends_of_error hconcluded, List.getLast?_singleton, Option.map_some, Ended.outcome, hconcluded]
    rfl

theorem Compiling.eval_conclude_pure (p : Ended σ) :
    eval fs (Dict.compile.liftExcept p.concluded >>= fun d => pure (withMetadata p.context d)) p.world =
      some p.outcome := by
  have hlift : eval fs (Dict.compile.liftExcept p.concluded) p.world = some (p.concluded, p.world) := rfl
  rw [eval_bind, hlift, Ended.outcome]
  cases p.concluded <;> rfl

/-- A compile ends as the last pass that it goes through. -/
theorem Dict.eval_compile (fuel : Nat) (o : Options σ) (base : Path) (d : Dict Value) (w : σ) :
    Compiling.eval fs (d.compile fuel o base) w = (d.ends fs fuel o base w).getLast?.map Ended.outcome := by
  rw [compile, Compiling.eval_optionT_bind, ends]
  cases (d.expand fuel o.localize (.start base o.debug)).run.eval fs with
  | none => rfl
  | some r =>
    obtain ⟨visited, context⟩ := r
    refine Compiling.eval_conclude_bind (p := ⟨visited.dict, visited.issues, [], context, [], w⟩) fun d => ?_
    rw [Compiling.eval_look_bind, Pass.run]
    dsimp only
    generalize (d.locate context).eval fs = located
    generalize d.replies (.files fs) _ _ = replies
    refine Compiling.eval_conclude_bind
      (p := ⟨located.1.dict, located.1.issues, replies, located.2, [], w⟩) fun d => ?_
    rw [Pass.run]
    dsimp only
    generalize d.resolveRefs = resolved
    generalize d.replies .plain _ _ = replies
    refine Compiling.eval_conclude_bind
      (p := ⟨resolved.dict, resolved.issues, replies, located.2, [], w⟩) fun d => ?_
    rw [Compiling.eval_getThe_bind, Compiling.eval_look_bind, Compiling.eval_modifyThe_bind, Pass.run]
    dsimp only
    generalize ((d.loadObjects o.registry).run ⟨located.2, [], w⟩).eval fs = loaded
    generalize d.replies (.files fs) _ _ = replies
    refine Compiling.eval_conclude_bind
      (p := ⟨loaded.1.dict, loaded.1.issues, replies, loaded.2.context, loaded.2.roots, loaded.2.world⟩) fun d => ?_
    rw [Compiling.eval_look_bind, Compiling.eval_modifyThe_bind, Pass.run]
    dsimp only
    generalize ((finishAll loaded.2.roots).run ⟨∅, [], loaded.2.context, loaded.2.world⟩).eval fs = finished
    refine Compiling.eval_conclude_bind
      (p := ⟨some d, finished.2.issues, [], finished.2.context, loaded.2.roots, finished.2.world⟩) fun d => ?_
    rw [Pass.run]
    dsimp only
    generalize saveRoots loaded.2.roots d = saved
    generalize addSiblings loaded.2.roots saved.1 finished.2.context = added
    exact Compiling.eval_conclude_pure
      ⟨some added.1, saved.2 ++ added.2.2, [], added.2.1, loaded.2.roots, finished.2.world⟩

/-! ## All or nothing -/

/-- What a compile ends with tells of an issue: it is silent, or it is among those that ended the compile. -/
def Outcome.Tells (r : Outcome) (i : Issue) : Prop :=
  i.isSilent = false → ∃ issues, r = .error issues ∧ i ∈ issues

theorem Context.of_conclude_error {c : Context} {dict : Option (Dict Value)} {issues all : List Issue}
    (h : c.conclude dict issues = .error all) : all ≠ [] ∧ issues ++ c.issues ⊆ all := by
  unfold conclude at h
  cases hall : issues ++ c.issues with
  | nil =>
    rw [hall] at h
    cases dict with
    | none =>
      cases h
      exact ⟨List.cons_ne_nil _ _, List.nil_subset _⟩
    | some d => cases h
  | cons i rest =>
    rw [hall] at h
    cases dict <;> (cases h; exact ⟨List.cons_ne_nil _ _, List.Subset.refl _⟩)

/-- What a compile ends well with is what its last pass was concluded with and what is recorded about it. -/
theorem Ended.of_outcome_ok {p : Ended σ} {e : Dict Value} (h : p.outcome.1 = .ok e) :
    ∃ d, p.concluded = .ok d ∧ e = withMetadata p.context d := by
  rw [outcome] at h
  cases hconcluded : p.concluded with
  | ok d =>
    rw [hconcluded] at h
    cases h
    exact ⟨d, rfl, rfl⟩
  | error all =>
    rw [hconcluded] at h
    cases h

namespace Ended
variable {registry : Registry σ} {p q last : Ended σ} {passes : List Pass}

theorem tells_of_mem {i : Issue} (hi : i ∈ p.issues ++ p.context.issues) :
    ∃ issues, p.concluded = .error issues ∧ i ∈ issues := by
  cases h : p.concluded with
  | ok d =>
    obtain ⟨_, hissues⟩ := Context.of_conclude h
    rw [hissues] at hi
    cases hi
  | error all => exact ⟨all, rfl, (Context.of_conclude_error h).2 hi⟩

/-- What a pass ends with is among the issues that end the compile. -/
theorem tells_of_mem_ends (hlast : (p.ends fs registry passes).getLast? = some last)
    (hq : q ∈ p.ends fs registry passes) {i : Issue} (hi : i ∈ q.issues ++ q.context.issues) :
    ∃ issues, last.concluded = .error issues ∧ i ∈ issues := by
  induction passes generalizing p with
  | nil =>
    cases hlast
    obtain rfl := List.mem_singleton.mp hq
    exact tells_of_mem hi
  | cons pass rest ih =>
    cases hconcluded : p.concluded with
    | ok d =>
      rw [getLast?_ends_of_ok hconcluded] at hlast
      rw [ends, hconcluded] at hq
      rcases List.mem_cons.mp hq with rfl | hq
      · obtain ⟨_, herror, _⟩ := tells_of_mem hi
        cases hconcluded.symm.trans herror
      · exact ih hlast hq
    | error issues =>
      rw [ends_of_error hconcluded] at hlast hq
      cases hlast
      obtain rfl := List.mem_singleton.mp hq
      exact tells_of_mem hi

end Ended

end AssetPack
