import AssetPack.Proofs.Description.Dependencies
import AssetPack.Proofs.Description.Entries
import AssetPack.Proofs.Description.Read
import AssetPack.Proofs.Description.Recast
import AssetPack.Proofs.Value.Reordered

/-!
# Finishing what finishes at once

Resources of the built-in types finish at once, and what a compile of them saves is told by their sources.
-/
namespace AssetPack

/-!
## Resources that finish at once

A resource that finishes at once notes nothing and leaves the world as it is. If all resources do, finishing adds
nothing to the context, and issues are reported exactly if a resource comes back to itself through those that it
depends on. The context and the world do not matter to that.
-/

section
open Relation
variable {σ : Type} {fs : Files} {roots : List (String × Resource σ)} {c c' : Context} {w w' : σ}

namespace Finishing

theorem after_complete_atOnce {r : Resource σ} (hr : r.FinishesAtOnce) (f : Finishing σ) :
    (Evaluation.files fs).after (complete r) f = (true, f) := by
  rw [after_complete, hr, Evaluation.after_pure]
  rfl

/-- Equally far, in these contexts and worlds. -/
structure Level (c c' : Context) (w w' : σ) (f f' : Finishing σ) : Prop where
  progress : f'.progress = f.progress
  issues : f'.issues = f.issues
  context : f.context = c ∧ f'.context = c'
  world : f.world = w ∧ f'.world = w'

theorem kin_level : Kin (Level c c' w w') where
  progress _ _ h := h.progress
  report i _ _ h := ⟨h.progress, congrArg (· ++ [i]) h.issues, h.context, h.world⟩
  setProgress name p _ _ h := ⟨congrArg (·.set name p) h.progress, h.issues, h.context, h.world⟩

/-- In whatever context and world, the same is reported, and they stay as they are. -/
theorem level_finishAll (fs : Files) (hroots : ∀ root ∈ roots, root.2.FinishesAtOnce) (c c' : Context) (w w' : σ) :
    Level c c' w w'
    ((Evaluation.files fs).after (finishAll roots) ⟨∅, [], c, w⟩).2
    ((Evaluation.files fs).after (finishAll roots) ⟨∅, [], c', w'⟩).2 := by
  have hcomplete (root : String × Resource σ) (hroot : root ∈ roots) :
      Follows (.files fs) (Level c c' w w') id (complete root.2) (complete root.2) := by
    intro f f' h
    rw [after_complete_atOnce (hroots root hroot), after_complete_atOnce (hroots root hroot)]
    exact ⟨rfl, h⟩
  have hall := (kin_level.follows_finishAll (w := fun _ r => r) (fun _ _ => rfl) roots hcomplete
    ⟨∅, [], c, w⟩ ⟨∅, [], c', w'⟩ ⟨rfl, rfl, ⟨rfl, rfl⟩, ⟨rfl, rfl⟩⟩).2
  rwa [List.map_id'] at hall

/-! ### Calls -/

/-- The same state with calls that all went well. -/
def Flawless (f : Finishing σ) (f' : Finishing (σ × Calls)) : Prop :=
  ∃ calls : Calls, f' = f.recorded calls ∧ ∀ call ∈ calls, call.2 = true

theorem kin_flawless : Kin (Flawless (σ := σ)) where
  progress := by
    rintro f _ ⟨calls, rfl, _⟩
    rfl
  report := by
    rintro i f _ ⟨calls, rfl, hcalls⟩
    exact ⟨calls, rfl, hcalls⟩
  setProgress := by
    rintro name p f _ ⟨calls, rfl, hcalls⟩
    exact ⟨calls, rfl, hcalls⟩

/-- Every resource that is called finishes. -/
theorem flawless_calls (hroots : ∀ root ∈ roots, root.2.FinishesAtOnce) :
    ∀ call ∈ calls fs roots c w, call.2 = true := by
  have hcomplete (root : String × Resource σ) (hroot : root ∈ roots) :
      Follows (.files fs) Flawless id (complete root.2) (complete (root.2.recorded root.1)) := by
    rintro f _ ⟨calls, rfl, hcalls⟩
    rw [after_complete_recorded, after_complete_atOnce (hroots root hroot)]
    exact ⟨rfl, _, rfl, List.forall_mem_cons.mpr ⟨rfl, hcalls⟩⟩
  obtain ⟨log, hlog, hcalls⟩ := (kin_flawless.follows_finishAll (w := Resource.recorded) (fun _ _ => rfl) roots
    hcomplete ⟨∅, [], c, w⟩ ⟨∅, [], c, (w, [])⟩ ⟨[], rfl, List.forall_mem_nil _⟩).2
  have hsame : calls fs roots c w = log := congrArg (fun f => f.world.2) hlog
  rwa [hsame]

/-- No issue is reported exactly if no resource comes back to itself through those that it depends on. -/
theorem issues_finishAll_eq_nil_iff (hroots : ∀ root ∈ roots, root.2.FinishesAtOnce) :
    ((Evaluation.files fs).after (finishAll roots) ⟨∅, [], c, w⟩).2.issues = [] ↔
      ∀ name, ¬TransGen (Dict.ofList roots).Needs name name := by
  obtain ⟨f, rfl, hsound, hended⟩ := sound_finishAll fs roots c w
  have hcalls : ∀ call ∈ calls fs roots c w, call.2 = true := flawless_calls hroots
  constructor
  · intro hissues name hcycle
    obtain ⟨m, ⟨r, hget, _⟩, _⟩ := TransGen.head'_iff.mp hcycle
    rcases hended name (Dict.mem_names_of_get? hget) with hdone | hlost
    · exact hsound.inOrder.not_doomed hdone (.of_cycle hcycle)
    · exact hlost.issues hissues
  · intro hacyclic
    by_contra hissues
    obtain ⟨name, hlost⟩ := hsound.blamed hissues
    obtain ⟨m, _, hcycle | hfailed⟩ := hlost.doomed
    · exact hacyclic m hcycle
    · cases hcalls _ hfailed

end Finishing

end

/-!
## Roots of descriptions in another order

The resources of two descriptions that are the same but for the order of their entries have the same names, depend on
the same resources, and are kept in forms that are the same but for such an order.
-/

section
open Relation
variable {σ : Type} {fs : Files} {d e : Dict Value} {roots roots' : List (String × Resource σ)}

/-! ### Roots and their entries -/

theorem Rooted.finishesAtOnce {entries : List (String × Value)} (h : Rooted fs entries roots) :
    ∀ root ∈ roots, root.2.FinishesAtOnce := by
  rintro ⟨name, r⟩ hroot
  obtain ⟨_, _, _, _, hr⟩ := h.exists_entry hroot
  exact hr.finishesAtOnce

/-- Resources with different names are found by these. -/
theorem Rooted.get?_ofList (h : Rooted fs d.entries roots) (hd : d.Distinct) {name : String} {r : Resource σ}
    (hmem : (name, r) ∈ roots) : (Dict.ofList roots).get? name = some r := by
  have hnodup : (roots.map (·.1)).Nodup := hd.sublist h.names
  rw [Dict.ofList_of_nodup hnodup]
  exact Dict.get?_of_mem hnodup hmem

/-- A typed dictionary has a typed one of the same type in its place. -/
theorem Value.Reordered.type_eq {packed : Prop} (h : (Value.dict d).Reordered packed (.dict e)) {t : String}
    (ht : d.get? Key.type = some (.string t)) : e.get? Key.type = some (.string t) := by
  have hrel := h.get? Key.type
  rw [ht] at hrel
  obtain ⟨w, hw, hvw⟩ := exists_of_rel hrel
  cases hvw
  exact hw

/-- Both descriptions have a resource of the same name, made of what is the same but for the order of entries. -/
theorem Rooted.exists_twin (hde : (Value.dict d).Reordered True (.dict e)) (hroots : Rooted fs d.entries roots)
    (hroots' : Rooted fs e.entries roots') {name : String} {r : Resource σ} (hmem : (name, r) ∈ roots) :
    ∃ (d' e' : Dict Value) (t : String) (r' : Resource σ), (name, r') ∈ roots' ∧
      d.get? name = some (.dict d') ∧ d'.get? Key.type = some (.string t) ∧ d'.Describes fs t r ∧
      e.get? name = some (.dict e') ∧ e'.get? Key.type = some (.string t) ∧ e'.Describes fs t r' ∧
      (Value.dict d').Reordered True (.dict e') := by
  obtain ⟨d', t, hentry, htype, hr⟩ := hroots.exists_entry hmem
  have hget := Dict.get?_of_mem (Value.reordered_dict_iff.mp hde).distinct hentry
  have hrel := hde.get? name
  rw [hget] at hrel
  obtain ⟨w, hw, hvw⟩ := exists_of_rel hrel
  have hdict : ∃ e', w = .dict e' := by
    cases hvw with
    | entries => exact ⟨_, rfl⟩
  obtain ⟨e', rfl⟩ := hdict
  obtain ⟨r', hmem', hr'⟩ := hroots'.exists_mem (Dict.mem_of_get? hw) (hvw.type_eq htype)
  exact ⟨d', e', t, r', hmem', hget, htype, hr, hw, hvw.type_eq htype, hr', hvw⟩

/-! ### Dependencies -/

theorem Dict.Describes.mem_dependencies {t : String} {r r' : Resource σ} (hde : (Value.dict d).Reordered True (.dict e))
    (hr : d.Describes fs t r) (hr' : e.Describes fs t r') {name : String} (hname : name ∈ r.dependencies) :
    name ∈ r'.dependencies := by
  cases hr with
  | file _ => cases hname
  | dict =>
    obtain rfl := hr'.eq_dict
    have hrefs (d : Dict Value) : ((DictResource.ofDict d).toResource : Resource σ).dependencies =
        (Value.dict ⟨d.entries.filter fun entry => !Key.isReserved entry.1⟩).refs := by
      rw [Value.refs, Value.tree_dict, Tree.addRefs_dict (by rintro _ ⟨⟩)]
      rfl
    rw [hrefs] at hname ⊢
    exact (hde.filter fun name => !Key.isReserved name).mem_refs hname

/-- The resources of both descriptions depend on each other in the same way. -/
theorem Rooted.needs (hde : (Value.dict d).Reordered True (.dict e)) (hroots : Rooted fs d.entries roots)
    (hroots' : Rooted fs e.entries roots') {a b : String} (h : (Dict.ofList roots).Needs a b) :
    (Dict.ofList roots').Needs a b := by
  have hdistinct := (Value.reordered_dict_iff.mp hde).distinct'
  obtain ⟨r, hget, hdependency, hobject⟩ := h
  obtain ⟨d', e', t, r', hmem', _, _, hr, _, _, hr', hde'⟩ :=
    exists_twin hde hroots hroots' (Dict.mem_ofList (Dict.mem_of_get? hget))
  refine ⟨r', hroots'.get?_ofList hdistinct hmem', hr.mem_dependencies hde' hr' hdependency, ?_⟩
  obtain ⟨s, hs⟩ := Dict.exists_get? hobject
  obtain ⟨_, _, _, s', hmem'', _⟩ := exists_twin hde hroots hroots' (Dict.mem_ofList (Dict.mem_of_get? hs))
  exact Dict.mem_names_of_get? (hroots'.get?_ofList hdistinct hmem'')

/-- Both finish without issues or neither does. -/
theorem Rooted.issues_finishAll (hde : (Value.dict d).Reordered True (.dict e))
    (hroots : Rooted fs d.entries roots) (hroots' : Rooted fs e.entries roots') {c c' : Context} {w w' : σ} :
    ((Evaluation.files fs).after (finishAll roots) ⟨∅, [], c, w⟩).2.issues = [] ↔
      ((Evaluation.files fs).after (finishAll roots') ⟨∅, [], c', w'⟩).2.issues = [] := by
  rw [Finishing.issues_finishAll_eq_nil_iff hroots.finishesAtOnce,
    Finishing.issues_finishAll_eq_nil_iff hroots'.finishesAtOnce]
  constructor
  · exact fun h name hcycle => h name (TransGen.mono (fun _ _ => needs hde.symm hroots' hroots) name name hcycle)
  · exact fun h name hcycle => h name (TransGen.mono (fun _ _ => needs hde hroots hroots') name name hcycle)

/-! ### Saving -/

/-- Every resource can be saved. -/
theorem issues_foldl_saveRoot (fs : Files) (hnodup : (roots.map (·.1)).Nodup) {s : Dict Value × List Issue}
    (h : ∀ root ∈ roots, ∃ d t, s.1.get? root.1 = some (.dict d) ∧ d.get? Key.type = some (.string t) ∧
      d.Describes fs t root.2) : (roots.foldl saveRoot s).2 = s.2 := by
  induction roots generalizing s with
  | nil => rfl
  | cons root rest ih =>
    obtain ⟨hnew, hnodup⟩ := List.nodup_cons.mp hnodup
    obtain ⟨⟨d, t, hget, htype, hr⟩, hrest⟩ := List.forall_mem_cons.mp h
    have hsave : saveRoot s root = (s.1.set root.1 (root.2.form d t), s.2) := by
      rw [saveRoot]
      simp only [hget, Option.bind_some, Value.dict?, findAs?_type htype, Option.getD_some, hr.keptForm_eq]
    rw [List.foldl_cons, ih hnodup, hsave]
    intro other hother
    obtain ⟨d', t', hget', htype', hr'⟩ := hrest other hother
    have hne : other.1 ≠ root.1 := fun heq => hnew (List.mem_map.mpr ⟨other, hother, heq⟩)
    refine ⟨d', t', ?_, htype', hr'⟩
    rw [hsave, Dict.get?_set, if_neg hne]
    exact hget'

theorem Rooted.issues_saveRoots (hd : d.Distinct) (hroots : Rooted fs d.entries roots) : (saveRoots roots d).2 = [] := by
  refine issues_foldl_saveRoot fs (hd.sublist hroots.names) fun root hroot => ?_
  obtain ⟨d', t, hentry, htype, hr⟩ := hroots.exists_entry hroot
  exact ⟨d', t, Dict.get?_of_mem hd hentry, htype, hr⟩

/-- What is saved is the same but for the order of entries. -/
theorem Rooted.rel_saveRoots (hde : (Value.dict d).Reordered True (.dict e)) (hroots : Rooted fs d.entries roots)
    (hroots' : Rooted fs e.entries roots') :
    (Value.dict (saveRoots roots d).1).Reordered True (.dict (saveRoots roots' e).1) := by
  have hrel := Value.reordered_dict_iff.mp hde
  refine .dict (.of_get? (distinct_foldl_saveRoot hrel.distinct roots) (distinct_foldl_saveRoot hrel.distinct' roots')
    fun name => ?_)
  by_cases hname : name ∈ roots.map (·.1)
  · obtain ⟨⟨name, r⟩, hmem, rfl⟩ := List.mem_map.mp hname
    obtain ⟨d', e', t, r', hmem', hget, htype, hr, hget', htype', hr', hde'⟩ := exists_twin hde hroots hroots' hmem
    rw [hroots.get?_saveRoots hrel.distinct hmem hget htype hr,
      hroots'.get?_saveRoots hrel.distinct' hmem' hget' htype' hr']
    exact .some (hr.rel_form hde' hr')
  · have hname' : name ∉ roots'.map (·.1) := by
      intro hname'
      obtain ⟨⟨_, r'⟩, hmem', rfl⟩ := List.mem_map.mp hname'
      obtain ⟨_, _, _, r, hmem, _⟩ := exists_twin hde.symm hroots' hroots hmem'
      exact hname (List.mem_map_of_mem (f := (·.1)) hmem)
    rw [saveRoots_eq, saveRoots_eq, get?_foldl_saveRoot_of_not_mem hname, get?_foldl_saveRoot_of_not_mem hname']
    exact hde.get? name

end

end AssetPack
