import AssetPack.Proofs.Description.Alongside
import AssetPack.Proofs.Description.Orderless
import AssetPack.Proofs.Description.Packed
import AssetPack.Proofs.Resource.Stored

/-!
# Compiles up to flags

If a description compiles, so does one that is the same but for flags. What is made of both has the same entries, and
these show the same.
-/
namespace AssetPack
open Relation
variable {σ : Type} {fs : Files} {d e : Dict Value}

/-! ## Dependencies without circles -/

/-- A value refers to nothing but what may be referred to in it. -/
theorem Value.Of.of_mem_refs {P : String → Prop} {v : Value} (h : v.Of (.kept fs P)) {name : String}
    (hname : name ∈ v.refs) : P name := by
  induction v with
  | atom a =>
    cases a with
    | ref other =>
      obtain rfl : name = other := List.mem_singleton.mp hname
      exact of_atom.mp h
    | _ => cases hname
  | list items ih =>
    obtain ⟨v, hv, hname⟩ := mem_refs_list.mp hname
    exact ih v hv (of_list.mp h v hv) hname
  | dict d ih =>
    obtain ⟨entry, hentry, hname⟩ := mem_refs_dict.mp hname
    exact ih entry hentry (Dict.Of.entry h hentry) hname
  | block b => exact (not_of_block h).elim
  | saved p =>
    rw [refs, addRefs_saved] at hname
    cases hname

/-- Resources need no more than their entries may refer to. -/
theorem Rooted.of_needs {roots : List (String × Resource σ)} {R : String → String → Prop}
    (hroots : Rooted fs d.entries roots)
    (hd : ∀ entry ∈ d.entries, entry.2.Of (.kept fs (R entry.1))) {a b : String} (h : (Dict.ofList roots).Needs a b) :
    R a b := by
  obtain ⟨r, hget, hdependency, _⟩ := h
  obtain ⟨e, t, hentry, _, hr⟩ := hroots.exists_entry (Dict.mem_ofList (Dict.mem_of_get? hget))
  have he : (Value.dict e).Of (.kept fs (R a)) := hd _ hentry
  cases hr with
  | file _ => cases hdependency
  | dict =>
    have hfields : (Value.dict (DictResource.ofDict e).fields).Of (.kept fs (R a)) := Dict.Of.filter he _
    exact hfields.of_mem_refs hdependency

namespace Ended
variable {p : Ended σ} {debug : Bool} {base : Path} {expanded located referred loaded : Dict Value}

/-- Where all references are there and lead in no circle, the roots are loaded and finish. -/
theorem rooted_of_objects (hexpanded : expanded.Of .expanded) (hcontext : p.context.Consulted fs debug base)
    (hlocated : (Pass.files.run fs .builtin p expanded).concluded = .ok located)
    (hreferred :
      (Pass.references.run fs .builtin (Pass.files.run fs .builtin p expanded) located).concluded = .ok referred)
    {q : Ended σ} (hq : q = Pass.objects.run fs .builtin
      (Pass.references.run fs .builtin (Pass.files.run fs .builtin p expanded) located) referred)
    (hloaded : q.concluded = .ok loaded) :
    q.context.Consulted fs debug base ∧ Rooted fs loaded.entries q.roots ∧
      (Pass.finishing.run fs .builtin q loaded).issues = [] := by
  subst hq
  obtain ⟨hdict₁, hissues₁⟩ := Context.of_conclude hlocated
  obtain ⟨hcontext₁, hlocated⟩ := Dict.of_locate hexpanded hcontext rfl (List.append_eq_nil_iff.mp hissues₁).1 hdict₁
  obtain ⟨hdict₂, hissues₂⟩ := Context.of_conclude hreferred
  obtain ⟨g, hnames, hacyclic, hresolved⟩ := Dict.of_resolveRefs hlocated (List.append_eq_nil_iff.mp hissues₂).1 hdict₂
  have hdistinct : referred.Distinct := by
    rw [Dict.Distinct, hnames]
    exact hlocated.distinct
  obtain ⟨hdict₃, hissues₃⟩ := Context.of_conclude hloaded
  obtain ⟨hcontext₃, _, hkept, _⟩ := Dict.of_loadObjects
    (R := fun owner name => g.Refers owner name ∧ located.Offers name) (fun _ _ hf => Registry.plain_builtin hf)
    hdistinct (fun entry he => (hresolved entry he).2) hcontext₁ rfl rfl (List.append_eq_nil_iff.mp hissues₃).1 hdict₃
  have hopen : (Value.dict referred).Of .open :=
    Dict.of_intro hdistinct fun entry hentry => ⟨trivial, (hresolved entry hentry).2.open⟩
  obtain ⟨hroots, _⟩ := Pass.of_objects hopen.distinct hloaded
  refine ⟨hcontext₃, hroots, (Finishing.issues_finishAll_eq_nil_iff hroots.finishesAtOnce).mpr fun name hcycle => ?_⟩
  refine hacyclic name (TransGen.mono (fun owner target hneeds => ?_) name name hcycle)
  exact (hroots.of_needs (R := fun owner name => g.Refers owner name ∧ located.Offers name) hkept hneeds).1

/-! ## One pass -/

/-- The first pass was concluded, and the second one made a dictionary in the relation and found nothing. -/
structure Abreast (R : Dict Value → Dict Value → Prop) (p p' : Ended σ) : Prop where
  dict : Option.Rel R p.dict p'.dict
  issues : p'.issues = []
  context : p'.context = p.context
  world : p'.world = p.world

namespace Abreast
variable {R : Dict Value → Dict Value → Prop} {p' : Ended σ} {P : Dict Value → Prop} {made : Dict Value}

theorem concluded (h : p.Abreast R p') (hd : p.concluded = .ok d) : ∃ e, p'.concluded = .ok e ∧ R d e := by
  obtain ⟨hdict, hissues⟩ := Context.of_conclude hd
  obtain ⟨_, hnone⟩ := List.append_eq_nil_iff.mp hissues
  obtain ⟨e, he, hde⟩ := exists_of_rel (hdict ▸ h.dict)
  refine ⟨e, ?_, hde⟩
  simp only [Ended.concluded, he, h.issues, h.context, Context.conclude, hnone, List.append_nil]

theorem files (h : p.Abreast R p') (hP : Dict.Stable P) (hde : (Value.dict d).ReflaggedIn P (.dict e))
    (hmade : (Pass.files.run fs .builtin p d).concluded = .ok made) :
    (Pass.files.run fs .builtin p d).Abreast (fun d e => (Value.dict d).ReflaggedIn P (.dict e))
      (Pass.files.run fs .builtin p' e) := by
  obtain ⟨_, hissues⟩ := Context.of_conclude hmade
  have hrun : (d.locate p.context).eval fs = (((d.locate p.context).eval fs).1, ((d.locate p.context).eval fs).2) := rfl
  obtain ⟨visited', hrun', hissues', hdict⟩ :=
    Dict.locate_reflagged hP hde hrun (List.append_eq_nil_iff.mp hissues).1
  have hpass : Pass.files.run fs .builtin p' e = { p' with
      dict := visited'.dict, issues := visited'.issues, context := (Pass.files.run fs .builtin p d).context
      replies := e.replies (.files fs) { Hooks.keep with onValue := locate } p'.context } := by
    rw [Pass.run]
    dsimp only
    rw [h.context, hrun']
    rfl
  rw [hpass]
  exact ⟨hdict, hissues', rfl, h.world⟩

theorem references (h : p.Abreast R p') (hP : Dict.Stable P) (hde : (Value.dict d).ReflaggedIn P (.dict e))
    (hmade : (Pass.references.run fs .builtin p d).concluded = .ok made) :
    (Pass.references.run fs .builtin p d).Abreast (fun d e => (Value.dict d).ReflaggedIn P (.dict e))
      (Pass.references.run fs .builtin p' e) := by
  obtain ⟨_, hissues⟩ := Context.of_conclude hmade
  obtain ⟨hissues', hdict⟩ := Dict.resolveRefs_reflagged hP hde (List.append_eq_nil_iff.mp hissues).1
  exact ⟨hdict, hissues', h.context, h.world⟩

theorem objects (h : p.Abreast R p')
    (hde : (Value.dict d).ReflaggedIn (fun d => d.Distinct ∧ d.TypedIfFlagged) (.dict e))
    (hmade : (Pass.objects.run fs .builtin p d).concluded = .ok made) :
    (Pass.objects.run fs .builtin p d).Abreast
      (fun d e => d.Distinct ∧ e.Distinct ∧ UpToFlags Value.LoadedAlike d.entries e.entries)
      (Pass.objects.run fs .builtin p' e) := by
  obtain ⟨_, hissues⟩ := Context.of_conclude hmade
  have hl : (⟨p.context, [], p.world⟩ : Loading σ).Abreast ⟨p'.context, [], p'.world⟩ := ⟨h.context, h.world⟩
  have hrun : ((d.loadObjects .builtin).run (⟨p.context, [], p.world⟩ : Loading σ)).eval fs = (_, _) := rfl
  obtain ⟨visited', l', hrun', hissues', hafter, hdict⟩ :=
    Dict.loadObjects_reflagged hde hl hrun (List.append_eq_nil_iff.mp hissues).1
  have hpass : (Pass.objects.run fs .builtin p' e).dict = visited'.dict ∧
      (Pass.objects.run fs .builtin p' e).issues = visited'.issues ∧
      (Pass.objects.run fs .builtin p' e).context = l'.context ∧
      (Pass.objects.run fs .builtin p' e).world = l'.world := by
    rw [Pass.run]
    dsimp only
    rw [hrun']
    exact ⟨rfl, rfl, rfl, rfl⟩
  exact ⟨hpass.1 ▸ hdict, hpass.2.1.trans hissues', hpass.2.2.1.trans hafter.context, hpass.2.2.2.trans hafter.world⟩

/-- Resources that finish leave everything as it is. -/
theorem finishing (h : p.Abreast R p') (hde : R d e) (hroots : Rooted fs d.entries p.roots)
    (hroots' : Rooted fs e.entries p'.roots) (hissues : (Pass.finishing.run fs .builtin p' e).issues = []) :
    (Pass.finishing.run fs .builtin p d).Abreast R (Pass.finishing.run fs .builtin p' e) := by
  obtain ⟨hcontext, hworld⟩ := Pass.finishing_stays fs .builtin d hroots.finishesAtOnce
  obtain ⟨hcontext', hworld'⟩ := Pass.finishing_stays fs .builtin e hroots'.finishesAtOnce
  refine ⟨.some hde, hissues, ?_, ?_⟩
  · rw [hcontext, hcontext', h.context]
  · rw [hworld, hworld', h.world]

/-- All that is loaded is saved. -/
theorem saving (h : p.Abreast R p') (hroots : Rooted fs d.entries p.roots) (hroots' : Rooted fs e.entries p'.roots)
    (he : e.Distinct) {S : Dict Value → Dict Value → Prop}
    (hsame : S (saveRoots p.roots d).1 (saveRoots p'.roots e).1) :
    (Pass.saving.run fs .builtin p d).Abreast S (Pass.saving.run fs .builtin p' e) := by
  refine ⟨?_, ?_, ?_, h.world⟩
  · rw [Pass.saving_dict hroots, Pass.saving_dict hroots']
    exact .some hsame
  · simp only [Pass.run, addSiblings_of_empty hroots'.siblings_eq, hroots'.issues_saveRoots he, List.append_nil]
  · rw [Pass.saving_context .builtin hroots, Pass.saving_context .builtin hroots', h.context]

end Abreast
end Ended

/-! ## What is saved -/

/-- What may stand in the place of an entry: every payload holds a dictionary, and the data of a file is none. -/
structure Value.SoundEntry (v : Value) : Prop where
  payload : ∀ p, v = .saved p → p.content = .dict
  data : ∀ d, v.opened? = some d → d.get? Key.type = some (.string "file") →
    ∀ u, d.get? "data" = some u → u.opened? = none

/-- Entries that show the same. -/
structure Value.SavedAlike (v w : Value) : Prop where
  shown : v.Matches w
  left : v.SoundEntry
  right : w.SoundEntry

/-- What is typed is kept as a sound entry. -/
theorem Dict.Describes.soundEntry_form {t : String} {r : Resource σ} (hr : d.Describes fs t r) (hd : d.Of .open) :
    (r.form d t).SoundEntry := by
  have htype := hr.type_kept hd.distinct
  have hdata (ht : t = "file") {u : Value} (hu : (r.kept d t).get? "data" = some u) :
      ∀ place, (u.stored place).opened? = none ∧ u.opened? = none := by
    subst ht
    obtain ⟨f, _, rfl⟩ := hr.exists_eq_file
    have hfields := hr.fields_kept hd.distinct
    rw [← DictResource.get?_fields (by decide), hfields, Resource.fields] at hu
    change (f.save ∅).get? "data" = some u at hu
    rw [f.save_empty] at hu
    obtain rfl := Option.some.inj hu
    intro place
    split <;> exact ⟨rfl, rfl⟩
  rw [Resource.form]
  split
  · refine ⟨fun p hp => ?_, fun e he hfile u hu => ?_⟩
    · cases hp
      rfl
    · cases hload : (Payload.ofBytes .dict (r.kept d t).encode true).loadDict with
      | error f =>
        rw [Value.opened?_saved, hload] at he
        split at he <;> cases he
      | ok stored =>
        rw [Value.opened?_of_loadDict rfl hload] at he
        cases he
        obtain ⟨rfl, _, _⟩ := Payload.eq_stored_of_loadDict (hr.kept_open hd).distinct hload
        have hrelated := (r.kept d t).related_stored 0
        obtain ⟨v, hv, place, heq⟩ := exists_of_rel (hrelated.flip.get? Key.type |> (hfile ▸ ·))
        obtain ⟨x, hx, place', rfl⟩ := exists_of_rel (hrelated.flip.get? "data" |> (hu ▸ ·))
        rw [htype] at hv
        cases hv
        cases heq
        exact (hdata rfl hx place').1
  · refine ⟨fun p hp => ?_, fun e he hfile u hu => ?_⟩
    · cases hp
    · cases he
      rw [htype] at hfile
      cases hfile
      exact (hdata rfl hu 0).2

/-- What is not typed is a sound entry as it is. -/
theorem Value.soundEntry_of_untyped {v : Value} (hv : ∀ p, v ≠ .saved p)
    (huntyped : ∀ d, v.opened? = some d → (d.get? Key.type).bind string? = none) : v.SoundEntry := by
  refine ⟨fun p hp => absurd hp (hv p), fun d hd hfile => ?_⟩
  have hnone := huntyped d hd
  rw [hfile] at hnone
  cases hnone

section
variable {roots roots' : List (String × Resource σ)}

/-- What has no text for a type is no root. -/
theorem Rooted.get?_saveRoots_of_untyped (hroots : Rooted fs d.entries roots) (hd : d.Distinct) {name : String}
    (huntyped : ∀ e, d.get? name = some (.dict e) → (e.get? Key.type).bind Value.string? = none) :
    (saveRoots roots d).1.get? name = d.get? name := by
  rw [saveRoots_eq]
  refine get?_foldl_saveRoot_of_not_mem (fun hmem => ?_) _
  obtain ⟨⟨_, r⟩, hroot, rfl⟩ := List.mem_map.mp hmem
  obtain ⟨e, t, hentry, htype, _⟩ := hroots.exists_entry hroot
  have hnone := huntyped e (Dict.get?_of_mem hd hentry)
  rw [htype] at hnone
  cases hnone

/-- The saved entries show the same. -/
theorem Rooted.savedAlike (hroots : Rooted fs d.entries roots) (hroots' : Rooted fs e.entries roots') (hd : d.Distinct)
    (he : e.Distinct) (h : UpToFlags Value.LoadedAlike d.entries e.entries) {name : String}
    (hname : Key.isReserved name = false) :
    Option.Rel Value.SavedAlike ((saveRoots roots d).1.get? name) ((saveRoots roots' e).1.get? name) := by
  have hrel : Option.Rel Value.LoadedAlike (d.get? name) (e.get? name) :=
    Dict.get?_upToFlags h (by rintro rfl; cases hname)
  have hkept (huntyped : ∀ d', d.get? name = some (.dict d') → (d'.get? Key.type).bind Value.string? = none)
      (huntyped' : ∀ e', e.get? name = some (.dict e') → (e'.get? Key.type).bind Value.string? = none) :
      (saveRoots roots d).1.get? name = d.get? name ∧ (saveRoots roots' e).1.get? name = e.get? name :=
    ⟨hroots.get?_saveRoots_of_untyped hd huntyped, hroots'.get?_saveRoots_of_untyped he huntyped'⟩
  rcases rel_cases hrel with ⟨hnone, hnone'⟩ | ⟨v, w, hv, hw, hvw⟩
  · rw [(hkept (by simp [hnone]) (by simp [hnone'])).1, (hkept (by simp [hnone]) (by simp [hnone'])).2, hnone, hnone']
    exact .none
  · cases hvw with
    | atom a =>
      obtain ⟨hleft, hright⟩ := hkept (by simp [hv]) (by simp [hw])
      rw [hleft, hright, hv, hw]
      have hsound : (Value.atom a).SoundEntry := Value.soundEntry_of_untyped nofun nofun
      exact .some ⟨.refl (Value.of_atom.mpr trivial), hsound, hsound⟩
    | list hitems =>
      obtain ⟨hleft, hright⟩ := hkept (by simp [hv]) (by simp [hw])
      rw [hleft, hright, hv, hw]
      exact .some ⟨.list hitems, Value.soundEntry_of_untyped nofun nofun, Value.soundEntry_of_untyped nofun nofun⟩
    | @untyped d' e' htype htype' hdistinct hrelated =>
      have hleft : ∀ u, d.get? name = some (.dict u) → (u.get? Key.type).bind Value.string? = none := by
        rintro u hu
        rw [hv] at hu
        cases hu
        exact htype
      have hright : ∀ u, e.get? name = some (.dict u) → (u.get? Key.type).bind Value.string? = none := by
        rintro u hu
        rw [hw] at hu
        cases hu
        exact htype'
      rw [(hkept hleft hright).1, (hkept hleft hright).2, hv, hw]
      refine .some ⟨.dict hdistinct hrelated, Value.soundEntry_of_untyped nofun ?_,
        Value.soundEntry_of_untyped nofun ?_⟩
      · rintro _ ⟨⟩
        exact htype
      · rintro _ ⟨⟩
        exact htype'
    | @typed d' e' t htype htype' hdistinct hdistinct' hentries =>
      obtain ⟨r, hmem, hr⟩ := hroots.exists_mem (Dict.mem_of_get? hv) htype
      obtain ⟨r', hmem', hr'⟩ := hroots'.exists_mem (Dict.mem_of_get? hw) htype'
      rw [hroots.get?_saveRoots hd hmem hv htype hr, hroots'.get?_saveRoots he hmem' hw htype' hr']
      refine .some ⟨hr.matches_form hentries hdistinct hr', hr.soundEntry_form ?_, hr'.soundEntry_form ?_⟩
      · exact Dict.of_upToFlags hentries hdistinct
      · exact Dict.of_upToFlags (hentries.flip.imp fun _ _ h => h.symm) hdistinct'

end

/-! ## The whole compile -/

theorem Value.Of.dicts_distinct {V : Vocabulary} (hplain : ∀ p, ¬V.payload p) {v : Value} (h : v.Of V) :
    v.Dicts Dict.Distinct := by
  induction v with
  | atom a => exact throughout_atom.mpr trivial
  | list items ih => exact throughout_list.mpr ⟨trivial, fun v hv => ih v hv (of_list.mp h v hv)⟩
  | dict d ih =>
    exact throughout_dict.mpr ⟨Dict.Of.distinct h, fun entry hentry => ih entry hentry (Dict.Of.entry h hentry)⟩
  | block b => exact (not_of_block h).elim
  | saved p => exact (hplain p (of_saved.mp h)).elim

/-- What is recorded without debugging is no field. -/
theorem DictResource.ofDict_withMetadata {context : Context} (hdebug : context.debug = false) (d : Dict Value) :
    ofDict (withMetadata context d) = ofDict d := by
  refine Outlasts.withMetadata (P := fun e => ofDict e = ofDict d)
    ⟨fun e name v he hname _ => ?_, fun htrue => ?_⟩ rfl
  · rw [ofDict_set hname, he]
  · rw [hdebug] at htrue
    cases htrue

/-- Saved dictionaries have the same fields, which show the same. -/
theorem Rooted.related_fields {roots roots' : List (String × Resource σ)} (hroots : Rooted fs d.entries roots)
    (hroots' : Rooted fs e.entries roots') (hd : d.Distinct) (he : e.Distinct)
    (h : UpToFlags Value.LoadedAlike d.entries e.entries) :
    (DictResource.ofDict (saveRoots roots d).1).fields.Related Value.SavedAlike
      (DictResource.ofDict (saveRoots roots' e).1).fields := by
  have hnames {d d' : Dict Value} (h : d'.names = d.names) :
      (DictResource.ofDict d').fields.names = (DictResource.ofDict d).fields.names := by
    have hfilter (d : Dict Value) :
        (DictResource.ofDict d).fields.names = d.names.filter fun name => !Key.isReserved name := by
      rw [Dict.names, Dict.names, List.filter_map]
      rfl
    rw [hfilter, hfilter, h]
  refine Dict.related_of_get? ?_ ?_ fun name => ?_
  · rw [Dict.Distinct, hnames (names_saveRoots roots d)]
    exact DictResource.distinct_fields hd
  · rw [hnames (names_saveRoots roots d), hnames (names_saveRoots roots' e)]
    exact (Dict.related_fields h).names
  · cases hname : Key.isReserved name with
    | false =>
      rw [DictResource.get?_fields hname, DictResource.get?_fields hname]
      exact hroots.savedAlike hroots' hd he h hname
    | true =>
      have hnone (d : Dict Value) : (DictResource.ofDict d).fields.get? name = none := by
        rw [DictResource.ofDict, d.get?_filter fun name => !Key.isReserved name, hname]
        rfl
      rw [hnone, hnone]
      exact .none

/-- If the passes over the one description end well, so do those over the other. -/
theorem Ended.Abreast.ends {p p' last : Ended σ} {debug : Bool} {base : Path} {saved : Dict Value}
    (h : p.Abreast (fun d e => (Value.dict d).ReflaggedIn (fun d => d.Distinct ∧ d.TypedIfFlagged) (.dict e)) p')
    (hof : ∀ e, p.dict = some e → e.Of .expanded) (hof' : ∀ e, p'.dict = some e → e.Of .expanded)
    (hcontext : p.context.Consulted fs debug base) (hlast : (p.ends fs .builtin Pass.all).getLast? = some last)
    (hsaved : last.concluded = .ok saved) :
    ∃ last' saved', (p'.ends fs .builtin Pass.all).getLast? = some last' ∧ last'.concluded = .ok saved' ∧
      last'.context = last.context ∧ last'.world = last.world ∧ last.context.Consulted fs debug base ∧
      (DictResource.ofDict saved).fields.Related Value.SavedAlike (DictResource.ofDict saved').fields := by
  have hP := Dict.stable_typedIfFlagged
  rw [Pass.all] at hlast ⊢
  -- each pass over the other description leaves what is the same but for flags
  obtain ⟨expanded, hexpanded, hlast, _⟩ := exists_next hlast hsaved
  obtain ⟨expanded', hexpanded', hrel⟩ := h.concluded hexpanded
  obtain ⟨located, hlocated, hlast, _⟩ := exists_next hlast hsaved
  have h₁ := h.files hP hrel hlocated
  obtain ⟨located', hlocated', hrel₁⟩ := h₁.concluded hlocated
  obtain ⟨referred, hreferred, hlast, _⟩ := exists_next hlast hsaved
  have h₂ := h₁.references hP hrel₁ hreferred
  obtain ⟨referred', hreferred', hrel₂⟩ := h₂.concluded hreferred
  obtain ⟨loaded, hloaded, hlast, _⟩ := exists_next hlast hsaved
  have h₃ := h₂.objects hrel₂ hloaded
  obtain ⟨loaded', hloaded', hd, he, hrel₃⟩ := h₃.concluded hloaded
  obtain ⟨hcontext₃, hroots, _⟩ :=
    rooted_of_objects (hof _ (Context.of_conclude hexpanded).1) hcontext hlocated hreferred rfl hloaded
  obtain ⟨_, hroots', hfinishing⟩ := rooted_of_objects (hof' _ (Context.of_conclude hexpanded').1)
    (h.context ▸ hcontext) hlocated' hreferred' rfl hloaded'
  obtain ⟨finished, hfinished, hlast, _⟩ := exists_next hlast hsaved
  obtain ⟨hdict₄, hissues₄⟩ := Context.of_conclude hfinished
  cases hdict₄
  have h₄ := h₃.finishing ⟨hd, he, hrel₃⟩ hroots hroots' hfinishing
  obtain ⟨finished', hfinished', _⟩ := h₄.concluded hfinished
  cases (Context.of_conclude hfinished').1
  rw [Ended.ends, List.getLast?_singleton] at hlast
  cases hlast
  have h₅ := h₄.saving hroots hroots' he
    (S := fun d e => (DictResource.ofDict d).fields.Related Value.SavedAlike (DictResource.ofDict e).fields)
    (hroots.related_fields hroots' hd he hrel₃)
  obtain ⟨saved', hsaved', hrelated⟩ := h₅.concluded hsaved
  refine ⟨_, saved', ?_, hsaved', h₅.context, h₅.world, ?_, hrelated⟩
  · rw [getLast?_ends_of_ok hexpanded', getLast?_ends_of_ok hlocated', getLast?_ends_of_ok hreferred',
      getLast?_ends_of_ok hloaded', getLast?_ends_of_ok hfinished', Ended.ends, List.getLast?_singleton]
  · have hstays := (Pass.finishing_stays fs .builtin loaded hroots.finishesAtOnce).1
    exact ((Pass.saving_context .builtin (p := Pass.finishing.run fs .builtin _ loaded) hroots).trans
      hstays) ▸ hcontext₃

theorem Dict.expanded?_unique {o : Options σ} {base : Path} {d e e' : Dict Value} {n m : Nat}
    (h : d.expanded? fs n o base = some e) (h' : d.expanded? fs m o base = some e') : e = e' := by
  obtain ⟨r, hr, he⟩ := Option.bind_eq_some_iff.mp h
  obtain ⟨r', hr', he'⟩ := Option.bind_eq_some_iff.mp h'
  cases (expand_of_le (le_max_left n m) hr).symm.trans (expand_of_le (le_max_right n m) hr')
  exact Option.some.inj (he.symm.trans he')

/-- Whatever the description is expanded to, a flag in it stands beside a type that is a plain text, if beside one. -/
def Dict.ExpandsTyped (fs : Files) (o : Options σ) (base : Path) (d : Dict Value) : Prop :=
  ∀ fuel e, d.expanded? fs fuel o base = some e → (Value.dict e).Dicts TypedIfFlagged

/-- The descriptions are the same but for flags in typed dictionaries. Flags are plain, nothing leads to one, and a type
beside a flag comes out as a plain text. -/
structure Dict.UpToCompression (fs : Files) (o : Options σ) (base : Path) (d d' : Dict Value) : Prop where
  alongside : (Value.dict d).Alongside fs base (.dict d')
  typed : d.ExpandsTyped fs o base
  typed' : d'.ExpandsTyped fs o base

theorem Dict.UpToCompression.symm {o : Options σ} {base : Path} {d d' : Dict Value}
    (h : d.UpToCompression fs o base d') : d'.UpToCompression fs o base d :=
  ⟨⟨h.alongside.reflagged.flip, h.alongside.right, h.alongside.left⟩, h.typed', h.typed⟩

/-- If a description compiles, so does one that is the same but for flags. The entries of both show the same. -/
theorem Dict.compile_reflagged {o : Options σ} (hregistry : o.registry = .builtin) (hdebug : o.debug = false)
    (hlocalize : ∀ name v, o.localize name = some v → v.Of .expanded ∧ v.PlainlyFlagged) {base : Path}
    {d d' : Dict Value} (h : d.UpToCompression fs o base d') {n : Nat} {w w' : σ} {e : Dict Value}
    (hends : Compiling.Ends fs (d.compile n o base) w e w') :
    ∃ e', Compiling.Ends fs (d'.compile (n + 1) o base) w e' w' ∧
      (DictResource.ofDict e).fields.Related Value.SavedAlike (DictResource.ofDict e').fields := by
  have hend : (d.ends fs n o base w).getLast?.map Ended.outcome = some (.ok e, w') :=
    (eval_compile n o base d w).symm.trans hends
  obtain ⟨last, hlast, houtcome⟩ := Option.map_eq_some_iff.mp hend
  obtain ⟨saved, hsaved, rfl⟩ := Ended.of_outcome_ok (congrArg Prod.fst houtcome)
  obtain rfl : last.world = w' := congrArg Prod.snd houtcome
  have htyped := h.typed n
  have htyped' := h.typed' (n + 1)
  rw [expanded?] at htyped htyped'
  cases hexpand : (d.expand n o.localize (.start base o.debug)).run.eval fs with
  | none =>
    rw [ends, hexpand] at hlast
    cases hlast
  | some r =>
    obtain ⟨visited, context⟩ := r
    rw [ends, hexpand, hregistry] at hlast
    dsimp only at hlast
    obtain ⟨expanded, hexpanded⟩ := Ended.exists_concluded hlast hsaved
    obtain ⟨_, hissues⟩ := Context.of_conclude hexpanded
    obtain ⟨visited', hexpand', hissues', hrel⟩ :=
      expand_alongside h.alongside hlocalize .start hexpand (List.append_eq_nil_iff.mp hissues).1
    -- both expanded descriptions are in the vocabulary, so a name stands in no dictionary twice
    have hvalues (name : String) : Expanded (o.localize name) := fun v hv => (hlocalize name v hv).1
    obtain ⟨hcontext, hof⟩ := of_expand h.alongside.left.of hvalues .start hexpand
    have hof' := (of_expand h.alongside.right.of hvalues .start hexpand').2
    have hreflagged : Option.Rel
        (fun d e => (Value.dict d).ReflaggedIn (fun d => d.Distinct ∧ d.TypedIfFlagged) (.dict e))
        visited.dict visited'.dict := by
      rcases rel_cases hrel with ⟨hnone, hnone'⟩ | ⟨u, u', hu, hu', huu⟩
      · rw [hnone, hnone']
        exact .none
      · rw [hexpand, Option.bind_some] at htyped
        rw [hexpand', Option.bind_some] at htyped'
        rw [hu, hu']
        have hdistinct := Value.dicts_iff.mp (Value.Of.dicts_distinct (fun _ => id) (hof u hu))
        have hdistinct' := Value.dicts_iff.mp (Value.Of.dicts_distinct (fun _ => id) (hof' u' hu'))
        exact .some ⟨huu, Value.dicts_iff.mpr fun x hx => ⟨hdistinct x hx, Value.dicts_iff.mp (htyped u hu) x hx⟩,
          Value.dicts_iff.mpr fun x hx => ⟨hdistinct' x hx, Value.dicts_iff.mp (htyped' u' hu') x hx⟩⟩
    have hstart : (⟨visited.dict, visited.issues, [], context, [], w⟩ : Ended σ).Abreast _
        ⟨visited'.dict, visited'.issues, [], context, [], w⟩ := ⟨hreflagged, hissues', rfl, rfl⟩
    obtain ⟨last', saved', hlast', hsaved', hafter, hworld, hconsulted, hrelated⟩ :=
      hstart.ends hof hof' hcontext hlast hsaved
    refine ⟨withMetadata last'.context saved', ?_, ?_⟩
    · change Compiling.eval fs (d'.compile (n + 1) o base) w = _
      rw [eval_compile, ends, hexpand', hregistry]
      dsimp only
      rw [hlast', Option.map_some, Ended.outcome, hsaved', hworld]
      rfl
    · have hoff : last.context.debug = false := hconsulted.debug_eq.trans hdebug
      rw [DictResource.ofDict_withMetadata hoff, DictResource.ofDict_withMetadata (hafter ▸ hoff)]
      exact hrelated

end AssetPack
