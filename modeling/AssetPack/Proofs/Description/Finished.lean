import AssetPack.Proofs.Description.Loaded

/-!
# Finished and saved objects

Finishing built-in resources adds no file to the context, whatever the order, and saving them replaces each
entry by its kept form under the same name.
-/
namespace AssetPack
variable {σ : Type} {fs : Files} {R : String → String → Prop}

namespace Finishing
variable {I : Context → Prop}

/-- The context stays as stated, whatever `x` answers. -/
def KeepsContext {α : Type} (fs : Files) (I : Context → Prop) (x : FinishingM σ α) : Prop :=
  Keeps (Answers.files fs) (fun f => I f.context) x fun _ => True

theorem keepsContext_report (i : Issue) : KeepsContext (σ := σ) fs I (report i) := Keeps.change fun _ h => h

theorem keepsContext_setProgress (name : String) (p : Progress) : KeepsContext (σ := σ) fs I (setProgress name p) :=
  Keeps.change fun _ h => h

theorem keepsContext_allFinish {finish : String → FinishingM σ Bool} (hfinish : ∀ name, KeepsContext fs I (finish name))
    (owner : String) (names : List String) : KeepsContext fs I (allFinish finish owner names) := by
  induction names with
  | nil => exact Keeps.pure trivial
  | cons name rest ih =>
    refine Keeps.bind (hfinish name) fun ok _ => ?_
    cases ok with
    | true => exact ih
    | false => exact Keeps.bind (keepsContext_report _) fun _ _ => Keeps.pure trivial

/-- How the finishing of a resource ends. -/
theorem keepsContext_close (name : String) (ready ok : Bool) : KeepsContext (σ := σ) fs I (do
    if ready && !ok then report (.notFinished name)
    setProgress name (.ended ok)
    return ok) := by
  have hend : KeepsContext (σ := σ) fs I (do
      setProgress name (.ended ok)
      return ok) := Keeps.bind (keepsContext_setProgress _ _) fun _ _ => Keeps.pure trivial
  by_cases hfailed : ready && !ok
  · simp only [hfailed, if_true]
    exact Keeps.bind (keepsContext_report _) fun _ _ => hend
  · simp only [hfailed]
    exact hend

theorem keepsContext_finish {objects : Dict (Resource σ)}
    (hobjects : ∀ name r, objects.get? name = some r → KeepsContext fs I (complete r)) (fuel : Nat) (name : String) :
    KeepsContext fs I (finish objects fuel name) := by
  induction fuel generalizing name with
  | zero => exact Keeps.pure trivial
  | succ fuel ih =>
    refine Keeps.bind Keeps.ask fun f hf => ?_
    split
    · exact Keeps.pure trivial
    · exact Keeps.bind (keepsContext_report _) fun _ _ => Keeps.pure trivial
    · split
      · exact Keeps.pure trivial
      · rename_i r hr
        refine Keeps.bind (keepsContext_setProgress _ _) fun _ _ => ?_
        refine Keeps.bind (keepsContext_allFinish ih name r.dependencies) fun ready _ => ?_
        cases ready with
        | true => exact Keeps.bind (hobjects name r hr) fun ok _ => keepsContext_close name true ok
        | false => exact keepsContext_close name false false

/-- Whatever each resource keeps true of the context when it finishes is true at the end. -/
theorem keepsContext_finishAll {roots : List (String × Resource σ)}
    (hroots : ∀ root ∈ roots, KeepsContext fs I (complete root.2)) : KeepsContext fs I (finishAll roots) := by
  have hobjects : ∀ name r, (Dict.ofList roots).get? name = some r → KeepsContext fs I (complete r) :=
    fun name r h => hroots _ (Dict.mem_ofList (Dict.mem_of_get? h))
  refine Keeps.forM fun root _ => Keeps.bind (keepsContext_finish hobjects _ root.1) fun _ _ => ?_
  exact Keeps.pure trivial

/-- A built-in resource adds nothing to the context. -/
theorem keepsContext_complete {P : String → Prop} {r : Resource σ} (hr : r.Plain fs P) :
    KeepsContext fs I (complete r) := by
  refine Keeps.bind Keeps.ask fun f hf => Keeps.bind (Keeps.look _) fun answer hanswer => ?_
  rw [hr.finish] at hanswer
  cases hanswer
  refine Keeps.bind (Keeps.look _) fun c hc => Keeps.bind (Keeps.put ?_) fun _ _ => Keeps.pure trivial
  rw [hc]
  exact hf

end Finishing

/-! ## Saving -/

/-- If it is an open dictionary, the top-level entry of this name has a type. -/
def Dict.TypedIfOpen (d : Dict Value) (name : String) : Prop :=
  ∀ e, d.get? name = some (.dict e) → ∃ typeName, e.get? Key.type = some (.string typeName)

theorem Dict.Types.typedIfOpen {d : Dict Value} {name : String} (h : d.Types name) : d.TypedIfOpen name := by
  obtain ⟨e, typeName, hget, htype⟩ := h
  intro e' hget'
  rw [hget] at hget'
  cases hget'
  exact ⟨typeName, htype⟩

theorem findAs?_type {e : Dict Value} {typeName : String} (h : e.get? Key.type = some (.string typeName)) :
    e.findAs? Key.type .string = some typeName := by
  rw [Dict.findAs?, Dict.find?, if_neg (by decide), h]
  rfl

theorem saveRoots_cons_of_none {d : Dict Value} {name : String} (h : (d.get? name).bind Value.dict? = none)
    (r : Resource σ) (rest : List (String × Resource σ)) : saveRoots ((name, r) :: rest) d = saveRoots rest d := by
  rw [saveRoots, List.foldl_cons]
  simp only [h]
  rfl

theorem saveRoots_cons_of_kept {d e : Dict Value} {name : String} {r : Resource σ} {v : Value}
    (h : (d.get? name).bind Value.dict? = some e)
    (hkept : keptForm e ((e.findAs? Key.type .string).getD "") r = some v) (rest : List (String × Resource σ)) :
    saveRoots ((name, r) :: rest) d = saveRoots rest (d.set name v) := by
  rw [saveRoots, List.foldl_cons]
  simp only [h, hkept]
  rfl

/-- Each resource is saved under its name. -/
theorem Dict.of_saveRoots {d : Dict Value} (hd : ∀ entry ∈ d.entries, entry.2.Of (.kept fs (R entry.1)))
    {roots : List (String × Resource σ)} (hroots : ∀ root ∈ roots, root.2.Plain fs (R root.1))
    (htyped : ∀ root ∈ roots, d.TypedIfOpen root.1) :
    (saveRoots roots d).2 = [] ∧ (saveRoots roots d).1.names = d.names ∧
      ∀ entry ∈ (saveRoots roots d).1.entries, entry.2.Of (.kept fs (R entry.1)) := by
  induction roots generalizing d with
  | nil => exact ⟨rfl, rfl, hd⟩
  | cons root rest ih =>
    obtain ⟨name, r⟩ := root
    obtain ⟨hr, hrest⟩ := List.forall_mem_cons.mp hroots
    obtain ⟨htype, htyperest⟩ := List.forall_mem_cons.mp htyped
    cases hentry : (d.get? name).bind Value.dict? with
    | none =>
      rw [saveRoots_cons_of_none hentry]
      exact ih hd hrest htyperest
    | some e =>
      obtain ⟨v, hget, hv⟩ := Option.bind_eq_some_iff.mp hentry
      have hof := hd _ (mem_of_get? hget)
      obtain rfl := hof.eq_dict hv
      obtain ⟨typeName, htypeName⟩ := htype e hget
      obtain ⟨w, hkept, hw, _, hwtype⟩ := of_keptForm hr hof (clear_of_type hof htypeName)
      rw [saveRoots_cons_of_kept hentry (by rwa [findAs?_type htypeName])]
      have hset : ∀ entry ∈ (d.set name w).entries, entry.2.Of (.kept fs (R entry.1)) := by
        intro entry hmem
        rcases mem_set hmem with rfl | hmem
        · exact hw
        · exact hd entry hmem
      have hopen : ∀ root ∈ rest, (d.set name w).TypedIfOpen root.1 := by
        intro root hroot e' he'
        rw [get?_set] at he'
        split at he'
        · exact ⟨typeName, hwtype e' (Option.some.inj he')⟩
        · exact htyperest root hroot e' he'
      have hnames : (d.set name w).names = d.names := by
        rw [names_set, if_pos (mem_names (mem_of_get? hget))]
      obtain ⟨hissues, hnames', hentries⟩ := ih hset hrest hopen
      exact ⟨hissues, hnames'.trans hnames, hentries⟩

/-- Nothing is added for resources without siblings. -/
theorem addSiblings_of_empty {roots : List (String × Resource σ)} (hroots : ∀ root ∈ roots, root.2.siblings root.1 = ∅)
    (d : Dict Value) (context : Context) : addSiblings roots d context = (d, context, []) := by
  induction roots with
  | nil => rfl
  | cons root rest ih =>
    obtain ⟨hr, hrest⟩ := List.forall_mem_cons.mp hroots
    have hsiblings : (root.2.siblings root.1).entries = [] := by
      rw [hr]
      rfl
    rw [addSiblings, List.foldl_cons]
    simp only [hsiblings]
    exact ih hrest

/-- Built-in resources have no siblings. -/
theorem addSiblings_of_plain {roots : List (String × Resource σ)}
    (hroots : ∀ root ∈ roots, ∃ P, root.2.Plain fs P) (d : Dict Value) (context : Context) :
    addSiblings roots d context = (d, context, []) := by
  refine addSiblings_of_empty (fun root hroot => ?_) d context
  obtain ⟨P, hr⟩ := hroots root hroot
  exact hr.siblings root.1

end AssetPack
