import AssetPack.Proofs.Description.Read
import AssetPack.Proofs.Description.Rearranged

/-!
# Objects of descriptions in another order

With the built-in types the pass over objects makes the same resource of a file, and of dictionaries that are the same
but for the order of entries it makes such resources. So both passes replace what is typed inside an entry alike, and
find the same issues in some order.
-/
namespace AssetPack
variable {σ : Type} {fs : Files} {d e : Dict Value}

/-! ## What a description is made into -/

/-- Texts and truth values are found in both alike, where what is found shows the same. -/
theorem Dict.findAs?_of_rel {R : Value → Value → Prop} {key : String}
    (hR : ∀ v w, R v w → v.string? = w.string? ∧ v.as? .string = w.as? .string ∧ v.as? .bool = w.as? .bool)
    (h : Option.Rel R (d.get? key) (e.get? key)) (hkey : key.toList.head? ≠ some '/') :
    d.findAs? key .string = e.findAs? key .string ∧ d.findAs? key .bool = e.findAs? key .bool := by
  simp only [Dict.findAs?, Dict.find?, if_neg hkey]
  generalize d.get? key = v at h ⊢
  generalize e.get? key = w at h ⊢
  cases h with
  | none => exact ⟨rfl, rfl⟩
  | some hvw => exact (hR _ _ hvw).2

theorem Dict.string?_of_rel {R : Value → Value → Prop} {key : String} (hR : ∀ v w, R v w → v.string? = w.string?)
    (h : Option.Rel R (d.get? key) (e.get? key)) :
    (d.get? key).bind Value.string? = (e.get? key).bind Value.string? := by
  generalize d.get? key = v at h ⊢
  generalize e.get? key = w at h ⊢
  cases h with
  | none => rfl
  | some hvw => exact hR _ _ hvw

theorem Value.Reordered.findAs? {packed : Prop} (h : (Value.dict d).Reordered packed (.dict e)) (key : String)
    (hkey : key.toList.head? ≠ some '/') :
    d.findAs? key .string = e.findAs? key .string ∧ d.findAs? key .bool = e.findAs? key .bool :=
  Dict.findAs?_of_rel (fun _ _ hvw => hvw.shows) (h.get? key) hkey

/-- The type that a description names. -/
theorem Value.Reordered.type? {packed : Prop} (h : (Value.dict d).Reordered packed (.dict e)) (key : String) :
    (d.get? key).bind Value.string? = (e.get? key).bind Value.string? :=
  Dict.string?_of_rel (fun _ _ hvw => hvw.shows.1) (h.get? key)

theorem FileResource.fromSource_congr {packed : Prop} (h : (Value.dict d).Reordered packed (.dict e)) :
    fromSource d = fromSource e := by
  rw [fromSource, fromSource, (h.findAs? _ (by decide)).1, (h.findAs? _ (by decide)).2]

namespace Dict.Describes
variable {t : String} {r r' : Resource σ}

theorem exists_eq_file (h : d.Describes fs "file" r) :
    ∃ f, (FileResource.fromSource d).eval fs = .ok f ∧ r = f.toResource := by
  generalize ht : "file" = t at h
  cases h with
  | file hf => exact ⟨_, hf, rfl⟩
  | dict => exact absurd ht (by decide)

theorem eq_dict (h : d.Describes fs "dict" r) : r = (DictResource.ofDict d).toResource := by
  generalize ht : "dict" = t at h
  cases h with
  | file _ => exact absurd ht (by decide)
  | dict => rfl

/-- The dictionaries that a pack keeps of both resources are the same but for the order of entries. -/
theorem rel_kept (hde : (Value.dict d).Reordered True (.dict e)) (hr : d.Describes fs t r)
    (hr' : e.Describes fs t r') : (Value.dict (r.kept d t)).Reordered True (.dict (r'.kept e t)) := by
  have hstart : (Dict.ofList [(Key.type, .string t)]).Of .open :=
    Dict.of_empty.set trivial (Value.of_atom.mpr trivial)
  have hsave : (Value.dict (r.save (Dict.ofList [(Key.type, .string t)])).2).Reordered True
      (.dict (r'.save (Dict.ofList [(Key.type, .string t)])).2) := by
    cases hr with
    | @file f hf =>
      obtain ⟨f', hf', rfl⟩ := hr'.exists_eq_file
      obtain rfl : f = f' := by
        rw [FileResource.fromSource_congr hde, hf'] at hf
        exact (Except.ok.inj hf).symm
      refine ((Value.Reordered.set (.refl (Value.Of.distinct hstart)) ?_ _).set (.atom _) _).set (.atom _) _
      split
      · exact .saved _
      · exact .atom _
    | dict =>
      obtain rfl := hr'.eq_dict
      exact (Value.Reordered.refl (Value.Of.distinct hstart)).merge (hde.filter fun name => !Key.isReserved name)
  have hlistener := hde.get? Key.loadListener
  rw [Resource.kept, Resource.kept]
  generalize d.get? Key.loadListener = v at hlistener ⊢
  generalize e.get? Key.loadListener = w at hlistener ⊢
  cases hlistener with
  | none => exact hsave
  | some hvw => exact hsave.set hvw _

/-- So are the forms, where payloads are compared as the dictionaries that they hold. -/
theorem rel_form (hde : (Value.dict d).Reordered True (.dict e)) (hr : d.Describes fs t r) (hr' : e.Describes fs t r') :
    (r.form d t).Reordered True (r'.form e t) := by
  have hcompressed : e.isCompressed = d.isCompressed := by
    rw [Dict.isCompressed, Dict.isCompressed, (hde.findAs? _ (by decide)).2]
  rw [Resource.form, Resource.form, hcompressed]
  split
  · exact .encoded trivial (rel_kept hde hr hr')
  · exact rel_kept hde hr hr'

end Dict.Describes

/-- A built-in type makes resources of both descriptions or of neither, with the same issues, if they name the same
file. -/
theorem Registry.rel_fromSource (fs : Files) (hsame : FileResource.fromSource d = FileResource.fromSource e) {t : String}
    {f : Factory σ} (hf : Registry.builtin.get? t = some f) :
    ∃ (made made' : Option (Resource σ)) (issues : List Issue),
      Option.Rel (fun r r' => d.Describes fs t r ∧ e.Describes fs t r') made made' ∧
        (∀ c w, (Evaluation.files fs).after (f.fromSource d c) w = ((made, issues.map .issue), w)) ∧
        ∀ c w, (Evaluation.files fs).after (f.fromSource e c) w = ((made', issues.map .issue), w) := by
  rcases List.mem_cons.mp (Dict.mem_of_get? hf) with heq | hmem
  · cases heq
    have hlook (d : Dict Value) :
        (Evaluation.files fs).run (FileResource.fromSource d) = (FileResource.fromSource d).eval fs := rfl
    cases hmade : (FileResource.fromSource e).eval fs with
    | ok f =>
      have hrun {d : Dict Value} (hmade : (FileResource.fromSource d).eval fs = .ok f) (c : Context) (w : σ) :
          (Evaluation.files fs).after (FileResource.factory.fromSource d c) w = ((some f.toResource, []), w) := by
        rw [FileResource.factory, Evaluation.after_bind, Evaluation.after_lift, hlook, hmade]
        rfl
      exact ⟨some f.toResource, some f.toResource, [], .some ⟨.file (hsame ▸ hmade), .file hmade⟩,
        hrun (hsame ▸ hmade), hrun hmade⟩
    | error i =>
      have hrun {d : Dict Value} (hmade : (FileResource.fromSource d).eval fs = .error i) (c : Context) (w : σ) :
          (Evaluation.files fs).after (FileResource.factory.fromSource d c) w = ((none, [.issue i]), w) := by
        rw [FileResource.factory, Evaluation.after_bind, Evaluation.after_lift, hlook, hmade]
        rfl
      exact ⟨none, none, [i], .none, hrun (hsame ▸ hmade), hrun hmade⟩
  · cases List.mem_singleton.mp hmem
    exact ⟨_, _, [], .some ⟨.dict, .dict⟩, fun _ _ => rfl, fun _ _ => rfl⟩

/-! ## The hook -/

/-- A context without its symbols. -/
def Context.unnamed (c : Context) : Context := { c with symbols := ∅ }

/-- The pass over objects looks at the world, and tells the issues that are noted. -/
abbrev Telling.loading (fs : Files) : Telling (LoadingM σ) (Loading σ) σ Context Issue :=
  .following (.files fs) Loading.world (fun l => l.context.unnamed) Context.addIssue fun _ => True

theorem Context.addAll_issues (issues : List Issue) (c : Context) :
    (c.addAll (issues.map .issue)).eval fs = issues.foldl addIssue c := by
  induction issues generalizing c with
  | nil => rfl
  | cons i rest ih =>
    rw [List.map_cons, addAll, List.foldlM_cons, Look.eval_bind, ← addAll]
    exact ih (c.addIssue i)

theorem Context.unnamed_foldl_addIssue (issues : List Issue) (c : Context) :
    (issues.foldl addIssue c).unnamed = issues.foldl addIssue c.unnamed := by
  induction issues generalizing c with
  | nil => rfl
  | cons i rest ih => exact ih (c.addIssue i)

namespace Loading
variable {α : Type}

theorem agree_addSymbol (symbol name symbol' name' : String) : (Telling.loading (σ := σ) fs).Agree Eq
    (addSymbol symbol name) (addSymbol symbol' name') fun _ _ => True := by
  have hgives (symbol name : String) (w : σ) : (Telling.loading fs).Gives (addSymbol symbol name) w (some ((), [])) := by
    unfold addSymbol
    split
    · refine Telling.gives_following (fun l hl => ?_) (List.forall_mem_nil _)
      rw [Evaluation.after_modify]
      refine ⟨rfl, hl, ?_⟩
      show (l.context.addSymbol symbol name).unnamed = l.context.unnamed
      rw [Context.addSymbol]
      split <;> rfl
    · exact Telling.gives_pure _
  exact .of_gives (hgives symbol name) (hgives symbol' name') trivial

theorem agree_addRoot (name name' : String) (r r' : Resource σ) : (Telling.loading fs).Agree Eq
    (modify fun l => { l with roots := l.roots ++ [(name, r)] } : LoadingM σ PUnit)
    (modify fun l => { l with roots := l.roots ++ [(name', r')] }) fun _ _ => True := by
  have hgives (name : String) (r : Resource σ) (w : σ) : (Telling.loading fs).Gives
      (modify fun l => { l with roots := l.roots ++ [(name, r)] } : LoadingM σ PUnit) w (some (⟨⟩, [])) :=
    Telling.gives_following (fun _ hl => ⟨rfl, hl, rfl⟩) (List.forall_mem_nil _)
  exact .of_gives (hgives name r) (hgives name' r') trivial

/-- What notes no more than issues and leaves the world as it is. -/
theorem agree_noting {x y : Context → StateT σ Look (α × List Note)} {a b : α} {issues : List Issue}
    (hx : ∀ c w, (Evaluation.files fs).after (x c) w = ((a, issues.map .issue), w))
    (hy : ∀ c w, (Evaluation.files fs).after (y c) w = ((b, issues.map .issue), w)) {Q : α → α → Prop} (h : Q a b) :
    (Telling.loading fs).Agree Eq (noting x) (noting y) Q := by
  have hgives {x : Context → StateT σ Look (α × List Note)} {a : α}
      (hx : ∀ c w, (Evaluation.files fs).after (x c) w = ((a, issues.map .issue), w)) (w : σ) :
      (Telling.loading fs).Gives (noting x) w (some (a, issues)) := by
    refine Telling.gives_following (fun l hl => ?_) fun _ _ => trivial
    rw [after_noting, hx, Context.addAll_issues]
    exact ⟨rfl, hl, Context.unnamed_foldl_addIssue issues l.context⟩
  exact .of_gives (hgives hx) (hgives hy) h

/-- A typed dictionary inside an entry is replaced, one that is an entry becomes a root. -/
theorem agree_load (trail : List Step) (hde : (Value.dict d).Reordered True (.dict e)) :
    (Telling.loading (σ := σ) fs).Agree Eq (load .builtin ⟨trail, []⟩ d) (load .builtin ⟨trail, []⟩ e)
      (Reply.Related (Value.Reordered True)) := by
  have htype := hde.type? Key.type
  unfold load
  dsimp only
  rw [htype]
  have hmade {t : String} {f : Factory σ} (hf : Registry.builtin.get? t = some f)
      {next next' : Option (Resource σ) → LoadingM σ Reply}
      (hnone : (Telling.loading fs).Agree Eq (next none) (next' none) (Reply.Related (Value.Reordered True)))
      (hnext : ∀ r r', d.Describes fs t r → e.Describes fs t r' →
        (Telling.loading fs).Agree Eq (next (some r)) (next' (some r')) (Reply.Related (Value.Reordered True))) :
      (Telling.loading fs).Agree Eq (noting (f.fromSource d) >>= next) (noting (f.fromSource e) >>= next')
        (Reply.Related (Value.Reordered True)) := by
    obtain ⟨made, made', issues, hrel, hx, hy⟩ := Registry.rel_fromSource fs (FileResource.fromSource_congr hde) hf
    refine (agree_noting hx hy hrel).bind fun r r' hr => ?_
    cases hr with
    | none => exact hnone
    | some hr => exact hnext _ _ hr.1 hr.2
  split
  · exact .pure (.keep hde)
  · rename_i name
    refine (agree_addSymbol _ _ _ _).bind fun _ _ _ => ?_
    split
    · exact .pure (.keep hde)
    · rename_i t _
      cases hf : Registry.builtin.get? (σ := σ) t with
      | none => exact .pure (.drop _)
      | some f =>
        refine hmade hf (.pure (.drop _)) fun r r' hr hr' => ?_
        exact (agree_addRoot name name r r').bind fun _ _ _ => .pure (.keep hde)
  · split
    · exact .pure (.keep hde)
    · rename_i t _
      cases hf : Registry.builtin.get? (σ := σ) t with
      | none => exact .pure (.drop _)
      | some f =>
        refine hmade hf (.pure (.drop _)) fun r r' hr hr' => ?_
        dsimp only
        split
        · exact (agree_addRoot _ _ r r').bind fun _ _ _ => .pure (.keep hde)
        · have hfinish {r : Resource σ} {d : Dict Value} (hr : d.Describes fs t r) (c : Context) (w : σ) :
              (Evaluation.files fs).after (r.finish c) w = ((true, [].map .issue), w) := by
            rw [hr.finishesAtOnce]
            rfl
          refine (agree_noting (hfinish hr) (hfinish hr') (Q := fun ok ok' => ok = true ∧ ok' = true)
            ⟨rfl, rfl⟩).bind fun ok ok' hok => ?_
          obtain ⟨rfl, rfl⟩ := hok
          rw [hr.keptForm_eq, hr'.keptForm_eq]
          exact .pure (.keep (hr.rel_form hde hr'))

end Loading

theorem agree_loadObjects (fs : Files) : Hooks.Agree (Telling.loading (σ := σ) fs) Eq True
    { Hooks.keep with onDict := Loading.load .builtin } { Hooks.keep with onDict := Loading.load .builtin } where
  deafValue _ _ _ := rfl
  deafValue' _ _ _ := rfl
  deafDict _ _ _ := rfl
  deafDict' _ _ _ := rfl
  onValue _ _ _ hvw := .pure (.keep hvw)
  onDict trail _ _ hde := Loading.agree_load trail hde

/-- What is typed in both dictionaries is loaded alike, and the world stays as it is. -/
theorem Dict.rel_loadObjects (hde : (Value.dict d).Reordered False (.dict e)) (l l' : Loading σ)
    (hc : l.context.Alike l'.context) (hworld : l'.world = l.world) :
    Dict.Rearranged True (((d.loadObjects .builtin).run l).eval fs).1.dict
        (((e.loadObjects .builtin).run l').eval fs).1.dict ∧
      (((d.loadObjects .builtin).run l).eval fs).1.issues.Perm (((e.loadObjects .builtin).run l').eval fs).1.issues ∧
      (((d.loadObjects .builtin).run l).eval fs).2.context.Alike
        (((e.loadObjects .builtin).run l').eval fs).2.context ∧
      (((d.loadObjects .builtin).run l).eval fs).2.world = l.world ∧
      (((e.loadObjects .builtin).run l').eval fs).2.world = l.world := by
  obtain ⟨hdict, hissues, hkept, hkept', ts, us, hperm, _, hview, hview'⟩ :=
    (agree_loadObjects fs).following (fun _ => rfl) (fun _ => rfl) hde l l' hworld.symm
  refine ⟨hdict, hissues, ?_, hkept, hkept'.trans hworld⟩
  have hc : l.context.unnamed.Alike l'.context.unnamed := ⟨hc.base, hc.debug, hc.outputs, hc.files, hc.filesFor, hc.issues⟩
  have halike := foldl_of_perm (fun _ => True) .refl (fun h h' => h.trans h') (fun i h => h.addIssue i)
    (fun c i j _ _ => .addIssue_comm c i j) hperm (fun _ _ => trivial) hc
  rw [← hview, ← hview'] at halike
  exact ⟨halike.base, halike.debug, halike.outputs, halike.files, halike.filesFor, halike.issues⟩

end AssetPack
