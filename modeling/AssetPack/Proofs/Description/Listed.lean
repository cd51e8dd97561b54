import AssetPack.Proofs.Description.Passes
import AssetPack.Proofs.Description.Told
import AssetPack.Proofs.Visit.Asked

/-!
# What a compile asks about is listed

The files of a context only grow. So what is added in a pass is still listed at the end: all that the expansion
and the pass over files ask about, and what the types say that they used.
-/
namespace AssetPack
variable {σ α : Type} {fs : Files} {files : List Path}

/-! ## Files only grow -/

namespace Context

theorem files_subset_add (c : Context) (note : Note) : c.files ⊆ ((c.add note).eval fs).files := by
  cases note with
  | issue i => exact List.Subset.refl _
  | output name bytes =>
    show c.files ⊆ (c.addOutput name bytes).files
    rw [addOutput]
    split <;> exact List.Subset.refl _
  | file owner path =>
    show c.files ⊆ ((c.addFile owner path).eval fs).files
    rw [files_addFile]
    exact Path.subset_insertSorted _ _

theorem files_subset_addAll (c : Context) (notes : List Note) : c.files ⊆ ((c.addAll notes).eval fs).files := by
  induction notes generalizing c with
  | nil => exact List.Subset.refl _
  | cons note rest ih =>
    rw [addAll, List.foldlM_cons, Look.eval_bind]
    exact List.Subset.trans (c.files_subset_add note) (ih _)

theorem files_addSymbol (c : Context) (symbol name : String) : (c.addSymbol symbol name).files = c.files := by
  rw [addSymbol]
  split <;> rfl

end Context

theorem keepsFiles_locate (spot : Spot) (v : Value) :
    Keeps (Answers.files fs) (fun c => files ⊆ c.files) (locate spot v) fun _ => True := by
  unfold locate
  split
  · exact Keeps.pure trivial
  · refine Keeps.bind Keeps.ask fun c hc => Keeps.bind (Keeps.look _) fun found _ => ?_
    cases found with
    | ok path =>
      refine Keeps.bind (Keeps.look _) fun c' hc' => Keeps.bind (Keeps.put ?_) fun _ _ => Keeps.pure trivial
      rw [hc', Context.files_addFile]
      exact List.Subset.trans hc (Path.subset_insertSorted _ _)
    | error e => exact Keeps.pure trivial

theorem keepsFiles_noting (x : Context → StateT σ Look (α × List Note)) :
    Keeps (Answers.files fs) (fun l => files ⊆ l.context.files) (Loading.noting x) fun _ => True := by
  refine Keeps.bind Keeps.ask fun l hl => Keeps.bind (Keeps.look _) fun answer _ => ?_
  refine Keeps.bind (Keeps.look _) fun c hc => Keeps.bind (Keeps.put ?_) fun _ _ => Keeps.pure trivial
  rw [hc]
  exact List.Subset.trans hl (l.context.files_subset_addAll _)

theorem keepsFiles_addSymbol (symbol name : String) :
    Keeps (Answers.files fs) (fun l : Loading σ => files ⊆ l.context.files) (Loading.addSymbol symbol name)
      fun _ => True := by
  unfold Loading.addSymbol
  split
  · refine Keeps.change fun l hl => ?_
    rw [Context.files_addSymbol]
    exact hl
  · exact Keeps.pure trivial

theorem keepsFiles_load (registry : Registry σ) (spot : Spot) (d : Dict Value) :
    Keeps (Answers.files fs) (fun l => files ⊆ l.context.files) (Loading.load registry spot d) fun _ => True := by
  have hmake (factory : Factory σ) (next : Option (Resource σ) → LoadingM σ Reply)
      (hnext : ∀ made, Keeps (Answers.files fs) (fun l => files ⊆ l.context.files) (next made) fun _ => True) :
      Keeps (Answers.files fs) (fun l => files ⊆ l.context.files)
        (Loading.noting (factory.fromSource d) >>= next) fun _ => True :=
    Keeps.bind (keepsFiles_noting _) fun made _ => hnext made
  obtain ⟨trail, issues⟩ := spot
  unfold Loading.load
  simp only
  split
  · exact Keeps.pure trivial
  · refine Keeps.bind (keepsFiles_addSymbol _ _) fun _ _ => ?_
    split
    · exact Keeps.pure trivial
    · split
      · exact Keeps.pure trivial
      · refine hmake _ _ fun made => ?_
        cases made with
        | none => exact Keeps.pure trivial
        | some r => exact Keeps.bind (Keeps.change fun _ hl => hl) fun _ _ => Keeps.pure trivial
  · split
    · exact Keeps.pure trivial
    · split
      · exact Keeps.pure trivial
      · refine hmake _ _ fun made => ?_
        cases made with
        | none => exact Keeps.pure trivial
        | some r =>
          dsimp only
          split
          · exact Keeps.bind (Keeps.change fun _ hl => hl) fun _ _ => Keeps.pure trivial
          · refine Keeps.bind (keepsFiles_noting _) fun ok _ => ?_
            split
            · exact Keeps.pure trivial
            · split <;> exact Keeps.pure trivial

theorem keepsFiles_complete (r : Resource σ) :
    Finishing.KeepsContext fs (fun c => files ⊆ c.files) (Finishing.complete r) := by
  refine Keeps.bind Keeps.ask fun f hf => Keeps.bind (Keeps.look _) fun answer _ => ?_
  refine Keeps.bind (Keeps.look _) fun c hc => Keeps.bind (Keeps.put ?_) fun _ _ => Keeps.pure trivial
  rw [hc]
  exact List.Subset.trans hf (f.context.files_subset_addAll _)

theorem files_addSiblings (roots : List (String × Resource σ)) (d : Dict Value) (context : Context) :
    (addSiblings roots d context).2.1.files = context.files := by
  unfold addSiblings
  refine List.foldlRecOn (motive := fun s : Dict Value × Context × List Issue => s.2.1.files = context.files) roots _
    rfl fun s hs root _ => ?_
  refine List.foldlRecOn (motive := fun s : Dict Value × Context × List Issue => s.2.1.files = context.files) _ _ hs
    fun s hs sibling _ => ?_
  unfold addSibling
  dsimp only
  split
  · exact hs
  · split
    · exact hs
    · exact (Context.files_addSymbol _ _ _).trans hs

theorem Pass.files_subset_run (registry : Registry σ) (p : Ended σ) (d : Dict Value) (pass : Pass) :
    p.context.files ⊆ (pass.run fs registry p d).context.files := by
  cases pass with
  | files =>
    have hkeeps : Keeps (Answers.files fs) (fun c : Context => p.context.files ⊆ c.files)
        (d.visitRoot { Hooks.keep with onValue := locate }) fun _ => True :=
      Dict.keeps_visitRoot keepsFiles_locate (fun _ _ => Keeps.pure trivial) d
    exact (hkeeps p.context _ _ rfl (List.Subset.refl _)).1
  | references => exact List.Subset.refl _
  | objects =>
    have hkeeps : Keeps (Answers.files fs) (fun l : Loading σ => p.context.files ⊆ l.context.files)
        (d.loadObjects registry) fun _ => True :=
      Dict.keeps_visitRoot (fun _ _ => Keeps.pure trivial) (keepsFiles_load registry) d
    exact (hkeeps ⟨p.context, [], p.world⟩ _ _ rfl (List.Subset.refl _)).1
  | finishing =>
    have hkeeps : Finishing.KeepsContext fs (fun c => p.context.files ⊆ c.files) (finishAll p.roots) :=
      Finishing.keepsContext_finishAll fun root _ => keepsFiles_complete root.2
    exact (hkeeps ⟨∅, [], p.context, p.world⟩ _ _ rfl (List.Subset.refl _)).1
  | saving =>
    show p.context.files ⊆ (addSiblings p.roots _ p.context).2.1.files
    rw [files_addSiblings]
    exact List.Subset.refl _

/-! ## What the passes ask -/

theorem asks_locate (spot : Spot) (v : Value) :
    Reply.Asks fs (fun c => c.files ⊆ files) (·.Listed fs files) (locate spot v) := by
  unfold locate
  split
  · exact Reply.asks_pure _
  · rename_i relative _
    intro c reply c' hmay hissues hfiles
    rw [StateT.run_bind, StateT.run_get, pure_bind] at hmay ⊢
    dsimp only at hmay ⊢
    rw [Look.run_liftM_bind] at hmay ⊢
    rw [Look.asked_bind]
    obtain ⟨_, rfl, hrest⟩ := (Answers.files fs).of_bind hmay
    rw [Look.eval_canonical] at hrest ⊢
    cases hcanonical : fs.canonical (Path.join c.base relative) with
    | error e =>
      rw [hcanonical] at hrest
      cases (Answers.files fs).eq_of_pure hrest
      rw [Issue.audible_of_own (i := .fileNotFound _) trivial] at hissues
      cases hissues
    | ok path =>
      rw [hcanonical] at hrest
      dsimp only at hrest ⊢
      rw [Look.run_liftM_bind] at hrest ⊢
      obtain ⟨_, rfl, hdone⟩ := (Answers.files fs).of_bind hrest
      cases (Answers.files fs).eq_of_pure hdone
      rw [Context.files_addFile] at hfiles
      refine ⟨List.Subset.trans (Path.subset_insertSorted _ _) hfiles, fun q hq => ?_⟩
      have hasked : q ∈ [.canonical (Path.join c.base relative), .canonical path] := by
        rwa [Look.asked_bind, Context.asked_addFile] at hq
      rcases List.mem_pair.mp hasked with rfl | rfl
      · exact .canonical hcanonical
      · exact .name hcanonical

namespace Compiling
variable {β : Type}

/-- The questions that a compile asks. -/
def asked (fs : Files) (x : Compiling σ α) (w : σ) : List Question := ((x.run).run w).run.asked fs

theorem asked_optionT_bind (x : OptionT Look α) (f : α → Compiling σ β) (w : σ) :
    asked fs (liftM x >>= f) w = x.run.asked fs ++ (x.run.eval fs).elim [] fun a => asked fs (f a) w := by
  have hrun : ((liftM x >>= f).run).run w = ((x >>= fun a => pure (a, w)) >>= fun r => pure (Except.ok r.1, r.2)) >>=
      fun r => (ExceptT.bindCont f r.1).run r.2 := rfl
  rw [asked, hrun, Look.asked_optionT_bind, Look.asked_optionT_map, Look.asked_optionT_map]
  simp only [OptionT.run_bind, Option.elimM, Look.eval_bind]
  cases x.run.eval fs <;> rfl

theorem asked_look_bind (x : Look α) (f : α → Compiling σ β) (w : σ) :
    asked fs (liftM x >>= f) w = x.asked fs ++ asked fs (f (x.eval fs)) w := by
  have hlift : asked fs (liftM x >>= f) w = asked fs (liftM (OptionT.lift x) >>= f) w := rfl
  rw [hlift, asked_optionT_bind, Look.asked_optionT_lift, OptionT.run_lift, Look.eval_bind]
  rfl

theorem asked_getThe_bind (f : σ → Compiling σ β) (w : σ) : asked fs (getThe σ >>= f) w = asked fs (f w) w := rfl

theorem asked_modifyThe_bind (g : σ → σ) (f : Unit → Compiling σ β) (w : σ) :
    asked fs (modifyThe σ g >>= f) w = asked fs (f ()) (g w) := rfl

end Compiling

/-- What is asked in a pass that starts from `d`, after one that ended as `p`. -/
def Pass.asked (fs : Files) (registry : Registry σ) (p : Ended σ) (d : Dict Value) : Pass → List Question
  | .files => (d.locate p.context).asked fs
  | .references => []
  | .objects => ((d.loadObjects registry).run ⟨p.context, [], p.world⟩).asked fs
  | .finishing => ((finishAll p.roots).run ⟨∅, [], p.context, p.world⟩).asked fs
  | .saving => []

namespace Ended

/-- What is asked in a pass, if it is gone through at all. -/
def asked (fs : Files) (registry : Registry σ) (p : Ended σ) (pass : Pass) : List Question :=
  match p.concluded with
  | .ok d => pass.asked fs registry p d
  | .error _ => []

/-- Each pass of a chain with the end that it starts from. -/
def begun (fs : Files) (registry : Registry σ) (p : Ended σ) (passes : List Pass) : List (Ended σ × Pass) :=
  (p.ends fs registry passes).zip passes

theorem begun_of_ok {registry : Registry σ} {p : Ended σ} {d : Dict Value} (h : p.concluded = .ok d) (pass : Pass)
    (rest : List Pass) : p.begun fs registry (pass :: rest) =
      (p, pass) :: (pass.run fs registry p d).begun fs registry rest := by
  rw [begun, ends, h, List.zip_cons_cons]
  rfl

end Ended

theorem Compiling.asked_conclude_bind {p : Ended σ} {registry : Registry σ} {pass : Pass} {rest : List Pass}
    {f : Dict Value → Compiling σ (Dict Value)}
    (h : ∀ d, asked fs (f d) p.world = pass.asked fs registry p d ++
      ((pass.run fs registry p d).begun fs registry rest).flatMap fun q => q.1.asked fs registry q.2) :
    asked fs (Dict.compile.liftExcept p.concluded >>= f) p.world =
      (p.begun fs registry (pass :: rest)).flatMap fun q => q.1.asked fs registry q.2 := by
  cases hconcluded : p.concluded with
  | ok d =>
    rw [Ended.begun_of_ok hconcluded, List.flatMap_cons, Ended.asked, hconcluded]
    exact h d
  | error issues =>
    rw [Ended.begun, Ended.ends_of_error hconcluded, List.zip_cons_cons, List.zip_nil_left, List.flatMap_singleton,
      Ended.asked, hconcluded]
    rfl

theorem Compiling.asked_conclude_pure (p : Ended σ) :
    asked fs (Dict.compile.liftExcept p.concluded >>= fun d => pure (withMetadata p.context d)) p.world = [] := by
  cases h : p.concluded <;> rfl

/-- The passes that a compile begins, each with the end that it starts from. -/
def Dict.begun (fs : Files) (fuel : Nat) (o : Options σ) (base : Path) (d : Dict Value) (w : σ) :
    List (Ended σ × Pass) := (d.ends fs fuel o base w).zip Pass.all

/-- A compile asks what its expansion asks and what its passes ask. -/
theorem Dict.asked_compile (fuel : Nat) (o : Options σ) (base : Path) (d : Dict Value) (w : σ) :
    Compiling.asked fs (d.compile fuel o base) w =
      (d.expand fuel o.localize (.start base o.debug)).run.asked fs ++
        (d.begun fs fuel o base w).flatMap fun q => q.1.asked fs o.registry q.2 := by
  rw [compile, Compiling.asked_optionT_bind, begun, ends]
  cases (d.expand fuel o.localize (.start base o.debug)).run.eval fs with
  | none => rfl
  | some r =>
    obtain ⟨visited, context⟩ := r
    refine congrArg (_ ++ ·) ?_
    refine Compiling.asked_conclude_bind (p := ⟨visited.dict, visited.issues, [], context, [], w⟩) fun d => ?_
    rw [Compiling.asked_look_bind, Pass.asked, Pass.run]
    refine congrArg (_ ++ ·) ?_
    dsimp only
    generalize (d.locate context).eval fs = located
    generalize d.replies (.files fs) _ _ = replies
    refine Compiling.asked_conclude_bind
      (p := ⟨located.1.dict, located.1.issues, replies, located.2, [], w⟩) fun d => ?_
    rw [Pass.asked, Pass.run, List.nil_append]
    dsimp only
    generalize d.resolveRefs = resolved
    generalize d.replies .plain _ _ = replies
    refine Compiling.asked_conclude_bind
      (p := ⟨resolved.dict, resolved.issues, replies, located.2, [], w⟩) fun d => ?_
    rw [Compiling.asked_getThe_bind, Compiling.asked_look_bind, Compiling.asked_modifyThe_bind, Pass.asked, Pass.run]
    refine congrArg (_ ++ ·) ?_
    dsimp only
    generalize ((d.loadObjects o.registry).run ⟨located.2, [], w⟩).eval fs = loaded
    generalize d.replies (.files fs) _ _ = replies
    refine Compiling.asked_conclude_bind
      (p := ⟨loaded.1.dict, loaded.1.issues, replies, loaded.2.context, loaded.2.roots, loaded.2.world⟩) fun d => ?_
    rw [Compiling.asked_look_bind, Compiling.asked_modifyThe_bind, Pass.asked, Pass.run]
    refine congrArg (_ ++ ·) ?_
    dsimp only
    generalize ((finishAll loaded.2.roots).run ⟨∅, [], loaded.2.context, loaded.2.world⟩).eval fs = finished
    refine Compiling.asked_conclude_bind
      (p := ⟨some d, finished.2.issues, [], finished.2.context, loaded.2.roots, finished.2.world⟩) fun d => ?_
    rw [Pass.asked, Pass.run, List.nil_append]
    dsimp only
    generalize saveRoots loaded.2.roots d = saved
    generalize addSiblings loaded.2.roots saved.1 finished.2.context = added
    exact Compiling.asked_conclude_pure
      ⟨some added.1, saved.2 ++ added.2.2, [], added.2.1, loaded.2.roots, finished.2.world⟩

namespace Ended
variable {registry : Registry σ} {passes : List Pass} {p last : Ended σ} {e : Dict Value}

/-- A chain whose last pass is concluded has no other end. -/
theorem exists_concluded (hlast : (p.ends fs registry passes).getLast? = some last) (he : last.concluded = .ok e) :
    ∃ d, p.concluded = .ok d := by
  cases hconcluded : p.concluded with
  | ok d => exact ⟨d, rfl⟩
  | error issues =>
    rw [ends_of_error hconcluded] at hlast
    cases hlast
    cases hconcluded.symm.trans he

theorem files_subset_of_ends (hlast : (p.ends fs registry passes).getLast? = some last) (he : last.concluded = .ok e) :
    p.context.files ⊆ last.context.files := by
  induction passes generalizing p with
  | nil =>
    cases hlast
    exact List.Subset.refl _
  | cons pass rest ih =>
    obtain ⟨d, hd⟩ := exists_concluded hlast he
    rw [getLast?_ends_of_ok hd] at hlast
    exact List.Subset.trans (pass.files_subset_run registry p d) (ih hlast)

/-- Where all turns out well, the pass over files asks about what is listed at the end. -/
theorem listed_of_ends (hlast : (p.ends fs registry passes).getLast? = some last) (he : last.concluded = .ok e) :
    ∀ q ∈ p.begun fs registry passes, q.2 = .files →
      ∀ question ∈ q.1.asked fs registry q.2, question.Listed fs last.context.files := by
  induction passes generalizing p with
  | nil => exact fun q hq => nomatch hq
  | cons pass rest ih =>
    obtain ⟨d, hd⟩ := exists_concluded hlast he
    rw [getLast?_ends_of_ok hd] at hlast
    rw [begun_of_ok hd]
    refine List.forall_mem_cons.mpr ⟨fun hfiles => ?_, ih hlast⟩
    obtain rfl : pass = .files := hfiles
    have hfiles := files_subset_of_ends hlast he
    obtain ⟨_, hnext⟩ := exists_concluded hlast he
    obtain ⟨_, hissues⟩ := Context.of_conclude hnext
    have hhooks : Hooks.Asks fs (fun c : Context => c.files ⊆ last.context.files)
        (·.Listed fs last.context.files) { Hooks.keep with onValue := locate } :=
      ⟨asks_locate, fun _ _ => Reply.asks_pure _⟩
    rw [asked, hd]
    exact hhooks.visitRoot rfl (List.append_eq_nil_iff.mp hissues).1 hfiles

end Ended

/-- What the types ask while resources are made and finished. -/
def Dict.typeAsked (fs : Files) (fuel : Nat) (o : Options σ) (base : Path) (d : Dict Value) (w : σ) : List Question :=
  ((d.begun fs fuel o base w).filter (·.2 ≠ .files)).flatMap fun q => q.1.asked fs o.registry q.2

/-- What a compile that ends well asks is asked by types or is about what it lists. -/
theorem Dict.listed_of_compile {fuel : Nat} {o : Options σ} {base : Path} {d e : Dict Value} {w w' : σ}
    (h : Compiling.Ends fs (d.compile fuel o base) w e w') : ∃ context made, e = withMetadata context made ∧
      ∀ q ∈ Compiling.asked fs (d.compile fuel o base) w,
        q.Listed fs context.files ∨ q ∈ d.typeAsked fs fuel o base w := by
  have hend : (d.ends fs fuel o base w).getLast?.map Ended.outcome = some (.ok e, w') :=
    (eval_compile fuel o base d w).symm.trans h
  obtain ⟨last, hlast, houtcome⟩ := Option.map_eq_some_iff.mp hend
  obtain ⟨made, hmade, rfl⟩ := Ended.of_outcome_ok (congrArg Prod.fst houtcome)
  refine ⟨last.context, made, rfl, fun q hq => ?_⟩
  rw [asked_compile] at hq
  rw [typeAsked]
  rw [begun, ends] at hq ⊢
  rw [ends] at hlast
  cases hexpand : (d.expand fuel o.localize (.start base o.debug)).run.eval fs with
  | none =>
    rw [hexpand] at hlast
    cases hlast
  | some r =>
    obtain ⟨visited, context⟩ := r
    rw [hexpand] at hlast hq
    rcases List.mem_append.mp hq with hq | hq
    · obtain ⟨_, hstart⟩ := Ended.exists_concluded hlast hmade
      obtain ⟨_, hissues⟩ := Context.of_conclude hstart
      have hlisted := listed_of_expand hexpand (List.append_eq_nil_iff.mp hissues).1 q hq
      exact .inl (hlisted.mono (Ended.files_subset_of_ends hlast hmade))
    · obtain ⟨begun, hbegun, hq⟩ := List.mem_flatMap.mp hq
      by_cases hfiles : begun.2 = .files
      · exact .inl (Ended.listed_of_ends hlast hmade begun hbegun hfiles q hq)
      · exact .inr (List.mem_flatMap.mpr ⟨begun, List.mem_filter.mpr ⟨hbegun, decide_eq_true hfiles⟩, hq⟩)

end AssetPack
