import AssetPack.Description.Expansion
import AssetPack.Proofs.Description.Consulted
import AssetPack.Proofs.Description.Marks

/-!
# Expansion leaves no directive

Whatever an expansion starts from, what it answers has no directives and no texts that stand for a value
in scope or a localized one, as long as localized values have none. The proof is by induction on the fuel: all
parts of the pass only call the next level of it, and keep that the values in scope are values of JSON.
-/
namespace AssetPack

/-- The marks that an expansion leaves behind it. -/
def Key.lookups : List String := [Key.reserved, Key.localized]

namespace Vocabulary

/-- What an expansion answers. -/
def expanded : Vocabulary := unmarked Key.lookups

end Vocabulary

/-- An optional value is of the vocabulary. -/
def Expanded (v : Option Value) : Prop := ∀ w, v = some w → w.Of .expanded

theorem Expanded.of_none {v : Option Value} (h : v = none) : Expanded v := by
  rintro w rfl
  cases h

/-- A job is about a value of JSON. -/
def Job.Plain : Job → Prop
  | .dict d => d.Of .json
  | .value v => v.Of .json

/-- What an expansion keeps true of itself. -/
structure Expansion.Plain (fs : Files) (debug : Bool) (base : Path) (e : Expansion) : Prop where
  scopes : ∀ scope ∈ e.scopes, scope.Of .json
  context : e.context.Consulted fs debug base

theorem Expansion.Plain.inScope? {fs : Files} {debug : Bool} {base : Path} {e : Expansion}
    (h : e.Plain fs debug base) {name : String} {v : Value} (hv : e.inScope? name = some v) : v.Of .json := by
  obtain ⟨scope, hscope, hfind⟩ := Option.bind_eq_some_iff.mp hv
  exact (h.scopes scope (List.mem_of_head? hscope)).find? (fun _ hp => hp) hfind

theorem after?_of_lookups {text : String} (h₁ : after? Key.reserved text = none)
    (h₂ : after? Key.localized text = none) : (Value.string text).Of .expanded := by
  rw [Value.of_atom]
  intro mark hmark
  rcases List.mem_cons.mp hmark with rfl | hmark
  · exact h₁
  · rwa [List.mem_singleton.mp hmark]

namespace Expanding
variable {fs : Files} {debug : Bool} {base : Path} {α : Type} {Q : α → Prop}

/-- What a part of an expansion keeps true, and what it answers. -/
abbrev Yields (fs : Files) (debug : Bool) (base : Path) (x : Expanding α) (Q : α → Prop) : Prop :=
  Keeps (Answers.files fs).option (Expansion.Plain fs debug base) x Q

theorem yields_drop (i : Issue) (Q : α → Prop) :
    Yields fs debug base (drop i : Expanding (Option α)) fun a => ∀ b, a = some b → Q b := by
  refine Keeps.bind (Keeps.change fun _ h => ⟨h.scopes, h.context⟩) fun _ _ => Keeps.pure ?_
  intro b hb
  cases hb

theorem yields_look (x : Look α) : Yields fs debug base (liftM x) fun a => a = x.eval fs := by
  intro e a e' hmay he
  obtain ⟨b, hb, heq⟩ := (Answers.files fs).option.of_bind hmay
  obtain ⟨c, hc, hsome⟩ := (Answers.files fs).of_bind hb
  cases (Answers.files fs).eq_of_pure heq
  cases (Answers.files fs).eq_of_pure hsome
  exact ⟨he, hc⟩

section
variable {x : Expanding α}

theorem yields_within (step : Step) (h : Yields fs debug base x Q) : Yields fs debug base (within step x) Q :=
  Keeps.around (fun _ he => ⟨he.scopes, he.context⟩) (fun _ he => ⟨he.scopes, he.context⟩) h

theorem yields_inTemplate (name : String) (h : Yields fs debug base x Q) :
    Yields fs debug base (inTemplate name x) Q :=
  Keeps.around (fun _ he => ⟨he.scopes, he.context⟩) (fun _ he => ⟨he.scopes, he.context⟩) h

theorem yields_inImport (path : Path) (h : Yields fs debug base x Q) :
    Yields fs debug base (inImport path x) Q :=
  Keeps.around (fun _ he => ⟨he.scopes, he.context⟩) (fun _ he => ⟨he.scopes, he.context⟩) h

theorem yields_inNewScope {scope : Dict Value} (hscope : scope.Of .json) (h : Yields fs debug base x Q) :
    Yields fs debug base (inNewScope scope x) Q := by
  refine Keeps.around (fun e he => ⟨?_, he.context⟩) (fun e he => ⟨?_, he.context⟩) h
  · exact List.forall_mem_cons.mpr ⟨hscope, he.scopes⟩
  · exact fun scope hmem => he.scopes scope (List.mem_of_mem_drop hmem)

end

theorem yields_addFile {path : Path} (hpath : fs.Known base path) :
    Yields fs debug base (addFile path) fun _ => True := by
  refine Keeps.bind Keeps.ask fun e he => Keeps.bind (yields_look _) fun context hcontext => ?_
  refine Keeps.put ⟨he.scopes, ?_⟩
  rw [hcontext]
  exact he.context.addFile hpath e.root?

/-! ## One level of the pass -/

variable {next : Job → Expanding (Option Value)}

/-- Entries keep their names, but some of them may be missing. -/
theorem yields_entries (hnext : ∀ job, job.Plain → Yields fs debug base (next job) Expanded)
    {es : List (String × Value)} (hes : ∀ e ∈ es, e.2.Of .json) :
    Yields fs debug base (entries next es) fun done =>
      (done.map (·.1)).Sublist (es.map (·.1)) ∧ ∀ e ∈ done, e.2.Of .expanded := by
  induction es with
  | nil => exact Keeps.pure ⟨List.Sublist.refl _, by simp⟩
  | cons e rest ih =>
    obtain ⟨name, v⟩ := e
    obtain ⟨hv, hrest⟩ := List.forall_mem_cons.mp hes
    refine Keeps.bind (yields_within _ (hnext (.value v) hv)) fun w hw => ?_
    refine Keeps.bind (ih hrest) fun done hdone => Keeps.pure ?_
    cases w with
    | none => exact ⟨hdone.1.cons _, hdone.2⟩
    | some w => exact ⟨hdone.1.cons_cons _, List.forall_mem_cons.mpr ⟨hw w rfl, hdone.2⟩⟩

theorem yields_items (hnext : ∀ job, job.Plain → Yields fs debug base (next job) Expanded)
    {vs : List Value} (hvs : ∀ v ∈ vs, v.Of .json) (index : Nat) :
    Yields fs debug base (items next index vs) fun done => ∀ w ∈ done, w.Of .expanded := by
  induction vs generalizing index with
  | nil => exact Keeps.pure (by simp)
  | cons v rest ih =>
    obtain ⟨hv, hrest⟩ := List.forall_mem_cons.mp hvs
    refine Keeps.bind (yields_within _ (hnext (.value v) hv)) fun w hw => ?_
    refine Keeps.bind (ih hrest (index + 1)) fun done hdone => Keeps.pure ?_
    refine List.forall_mem_cons.mpr ⟨?_, hdone⟩
    cases w with
    | none => exact Value.of_atom.mpr trivial
    | some w => exact hw w rfl

theorem yields_importFile (hnext : ∀ job, job.Plain → Yields fs debug base (next job) Expanded) (relative : Path) :
    Yields fs debug base (importFile next relative) fun d => ∀ d', d = some d' → d'.Of .expanded := by
  refine Keeps.bind Keeps.ask fun e he => Keeps.bind (yields_look _) fun path hpath => ?_
  refine Keeps.bind Keeps.ask fun e' _ => ?_
  split
  · exact yields_drop _ _
  · refine Keeps.bind (yields_look _) fun read hread => ?_
    cases read with
    | error error => exact yields_drop _ _
    | ok text =>
      dsimp only
      cases hparse : Json.parseDict text with
      | error fault => exact yields_drop _ _
      | ok parsed =>
        have hknown : fs.Known base path := by
          rw [he.context.base_eq] at hpath
          rw [hpath] at hread ⊢
          exact Files.known_settle hread.symm
        refine Keeps.bind (yields_addFile hknown) fun _ _ => ?_
        refine Keeps.bind (yields_inImport path (hnext (.dict parsed) (Json.of_parseDict hparse))) fun w hw => ?_
        cases hdict : w.bind Value.dict? with
        | none => exact yields_drop _ _
        | some d =>
          obtain ⟨v, rfl, hd⟩ := Option.bind_eq_some_iff.mp hdict
          obtain rfl := (hw v rfl).eq_dict hd
          refine Keeps.pure fun d' heq => ?_
          cases heq
          exact hw _ rfl

/-- A dictionary without values for the scope is set over what it imports, and has no import then. -/
theorem yields_imported (hnext : ∀ job, job.Plain → Yields fs debug base (next job) Expanded)
    {d : Dict Value} (hd : d.Of .json) (hvalues : Key.values ∉ d.names) :
    Yields fs debug base (imported next d) fun d =>
      ∀ d', d = some d' → d'.Of .json ∧ Key.imported ∉ d'.names ∧ Key.values ∉ d'.names := by
  unfold imported
  split
  · rename_i hget
    refine Keeps.pure fun d' heq => ?_
    cases heq
    exact ⟨hd, Dict.get?_eq_none_iff.mp hget, hvalues⟩
  · refine Keeps.bind (yields_importFile hnext _) fun found hfound => ?_
    cases found with
    | none =>
      refine Keeps.pure fun _ heq => ?_
      cases heq
    | some b =>
      have hb := hfound b rfl
      refine Keeps.pure fun d' heq => ?_
      cases heq
      have habsent {name : String} (hdirective : name ∈ Key.directives)
          (herased : name ∉ (d.erase Key.imported).names) : name ∉ (b.merge (d.erase Key.imported)).names := by
        intro hmem
        rcases Dict.mem_names_merge hmem with hmem | hmem
        · exact hb.name hmem hdirective
        · exact herased hmem
      refine ⟨Dict.Of.merge (Value.Of.json hb) (hd.erase _), ?_, ?_⟩
      · exact habsent (by decide) (d.not_mem_names_erase _)
      · exact habsent (by decide) fun hmem => hvalues (d.names_erase_subset _ hmem)
  · exact Keeps.bind Keeps.ask fun e _ => yields_drop _ _

theorem yields_overTemplate {s : Setting} (hroot : s.root.Of .json)
    (hnext : ∀ job, job.Plain → Yields fs debug base (next job) Expanded) {d : Dict Value} (hd : d.Of .json)
    (template : String) : Yields fs debug base (overTemplate next s template d) Expanded := by
  refine Keeps.bind Keeps.ask fun e he => ?_
  split
  · exact yields_drop _ _
  · split
    · exact yields_drop _ _
    · rename_i found hfound
      have hof : found.Of .json := by
        cases hscope : e.inScope? template with
        | none =>
          rw [hscope] at hfound
          exact hroot.find? (fun _ hp => hp) hfound
        | some v =>
          rw [hscope] at hfound
          cases hfound
          exact he.inScope? hscope
      refine yields_inTemplate template ?_
      split
      · rename_i under hunder
        obtain ⟨v, hv, hunder⟩ := Option.bind_eq_some_iff.mp hunder
        obtain rfl := hof.dictValue? (fun _ hp => hp) hv
        obtain rfl := hof.eq_dict hunder
        exact hnext (.dict (under.merge d)) (Dict.Of.merge hof hd)
      · split
        · exact hnext (.value found) hof
        · exact yields_drop _ _

theorem yields_plain {s : Setting} (hroot : s.root.Of .json)
    (hnext : ∀ job, job.Plain → Yields fs debug base (next job) Expanded) {d : Dict Value} (hd : d.Of .json)
    (hvalues : Key.values ∉ d.names) : Yields fs debug base (plain next s d) Expanded := by
  refine Keeps.bind (yields_imported hnext hd hvalues) fun whole hwhole => ?_
  cases whole with
  | none =>
    refine Keeps.pure fun _ heq => ?_
    cases heq
  | some d =>
    obtain ⟨hd, himported, hvalues⟩ := hwhole d rfl
    dsimp only
    split
    · rename_i hget
      have htemplate : Key.template ∉ d.names ∧ Key.base ∉ d.names := by
        have habsent := Dict.get?_eq_none_iff.mp hget
        rw [templateKey] at habsent
        split at habsent
        · rename_i hcontains
          exact absurd (Dict.contains_iff.mp hcontains) habsent
        · rename_i hcontains
          exact ⟨fun hmem => hcontains (Dict.contains_iff.mpr hmem), habsent⟩
      refine Keeps.bind (yields_entries hnext fun e he => hd.entry he) fun done hdone => Keeps.pure ?_
      intro w hw
      cases hw
      refine Dict.of_intro (hd.distinct.sublist hdone.1) fun e he => ⟨fun hdirective => ?_, hdone.2 e he⟩
      have hmem : e.1 ∈ d.names := hdone.1.subset (List.mem_map_of_mem he)
      simp only [Key.directives, List.mem_cons, List.not_mem_nil, or_false] at hdirective
      rcases hdirective with heq | heq | heq | heq
      · exact himported (heq ▸ hmem)
      · exact htemplate.1 (heq ▸ hmem)
      · exact htemplate.2 (heq ▸ hmem)
      · exact hvalues (heq ▸ hmem)
    · exact yields_overTemplate hroot hnext (hd.erase _) _
    · exact Keeps.bind Keeps.ask fun e _ => yields_drop _ _

theorem yields_dict {s : Setting} (hroot : s.root.Of .json)
    (hnext : ∀ job, job.Plain → Yields fs debug base (next job) Expanded) {d : Dict Value} (hd : d.Of .json) :
    Yields fs debug base (dict next s d) Expanded := by
  unfold dict
  split
  · exact yields_plain hroot hnext hd (Dict.get?_eq_none_iff.mp ‹_›)
  · rename_i values hget
    split
    · exact Keeps.bind Keeps.ask fun e _ => yields_drop _ _
    · rename_i values' hdict
      obtain rfl := (hd.get? hget).2.eq_dict hdict
      refine Keeps.bind Keeps.ask fun e he => ?_
      have hscope : (e.scopes.head?.getD ∅).Of .json := by
        cases hhead : e.scopes.head? with
        | none => exact Dict.of_empty
        | some scope => exact he.scopes scope (List.mem_of_head? hhead)
      refine yields_inNewScope (hscope.merge (hd.get? hget).2) ?_
      exact yields_plain hroot hnext (hd.erase _) (d.not_mem_names_erase _)

/-- What is inside a value is expanded; a text is as it was. -/
theorem yields_inside (hnext : ∀ job, job.Plain → Yields fs debug base (next job) Expanded) {v : Value}
    (hv : v.Of .json) : Yields fs debug base (inside next v) fun w =>
      ∀ u, w = some u → u.Of .expanded ∨ ∃ text, u = .string text := by
  cases v with
  | dict d => exact (hnext (.dict d) hv).mono fun _ hw u hu => .inl (hw u hu)
  | block b => exact (Value.not_of_block hv).elim
  | saved p => exact (Value.of_saved.mp hv).elim
  | list vs =>
    refine Keeps.bind (yields_items hnext (Value.of_list.mp hv) 0) fun done hdone => Keeps.pure ?_
    intro u hu
    cases hu
    exact .inl (Value.of_list.mpr hdone)
  | atom a =>
    refine Keeps.pure fun u hu => ?_
    cases hu
    have ha := Value.of_atom.mp hv
    cases a with
    | string text => exact .inr ⟨text, rfl⟩
    | bytes bs => exact ha.elim
    | struct bs => exact ha.elim
    | ref name => exact ha.elim
    | _ => exact .inl (Value.of_atom.mpr trivial)

theorem yields_named {s : Setting} (hlocalize : ∀ name, Expanded (s.localize name))
    (hnext : ∀ job, job.Plain → Yields fs debug base (next job) Expanded) (text : String) :
    Yields fs debug base (named next s text) Expanded := by
  unfold named
  split
  · refine Keeps.bind Keeps.ask fun e he => ?_
    split
    · exact hnext (.value _) (he.inScope? ‹_›)
    · exact yields_drop _ _
  · split
    · rename_i name _
      split
      · rename_i hlocal
        exact Keeps.pure (hlocal ▸ hlocalize name)
      · exact yields_drop _ _
    · refine Keeps.pure fun w hw => ?_
      cases hw
      exact after?_of_lookups ‹_› ‹_›

theorem yields_value {s : Setting} (hlocalize : ∀ name, Expanded (s.localize name))
    (hnext : ∀ job, job.Plain → Yields fs debug base (next job) Expanded) {v : Value} (hv : v.Of .json) :
    Yields fs debug base (value next s v) Expanded := by
  refine Keeps.bind (yields_inside hnext hv) fun w hw => ?_
  split
  · exact yields_named hlocalize hnext _
  · rename_i hother
    refine Keeps.pure fun u hu => ?_
    rcases hw u hu with hu | ⟨text, rfl⟩
    · exact hu
    · exact (hother text hu).elim

end Expanding

variable {fs : Files} {debug : Bool} {base : Path}

theorem yields_expandTo {s : Setting} (hroot : s.root.Of .json)
    (hlocalize : ∀ name, Expanded (s.localize name)) (fuel : Nat) {job : Job} (hjob : job.Plain) :
    Expanding.Yields fs debug base (expandTo s fuel job) Expanded := by
  induction fuel generalizing job with
  | zero =>
    intro e a e' hmay _
    exact ((Answers.files fs).not_may_failure _ hmay).elim
  | succ fuel ih =>
    cases job with
    | dict d => exact Expanding.yields_dict hroot (fun _ h => ih h) hjob
    | value v => exact Expanding.yields_value hlocalize (fun _ h => ih h) hjob

/-- An expansion is one job. -/
theorem Dict.exists_expandTo {d : Dict Value} {fuel : Nat} {localize : String → Option Value}
    {context context' : Context} {visited : Visited}
    (h : (d.expand fuel localize context).run.eval fs = some (visited, context')) :
    ∃ v e, (Answers.files fs).option.May ((expandTo ⟨d, localize⟩ fuel (.dict d)).run (.start context)) (v, e) ∧
      visited = ⟨(v.bind Value.dictValue?).bind Value.dict?, e.issues⟩ ∧ context' = e.context := by
  obtain ⟨⟨v, e⟩, hrun, hdone⟩ := (Answers.files fs).option.of_bind h.symm
  cases (Answers.files fs).option.eq_of_pure hdone
  exact ⟨v, e, hrun, rfl, rfl⟩

/-- The dictionary that an expansion makes of a description has no directives left, at no depth. -/
theorem Dict.of_expand {d : Dict Value} (hd : d.Of .json) {fuel : Nat}
    {localize : String → Option Value} (hlocalize : ∀ name, Expanded (localize name)) {context context' : Context}
    (hcontext : context.Consulted fs debug base) {visited : Visited}
    (h : (d.expand fuel localize context).run.eval fs = some (visited, context')) :
    context'.Consulted fs debug base ∧ ∀ e, visited.dict = some e → e.Of .expanded := by
  obtain ⟨v, e, hrun, rfl, rfl⟩ := exists_expandTo h
  have hstart : (Expansion.start context).Plain fs debug base := ⟨by simp [Expansion.start], hcontext⟩
  have hjob : (Job.dict d).Plain := hd
  obtain ⟨hplain, hof⟩ := yields_expandTo (s := ⟨d, localize⟩) hd hlocalize fuel hjob _ _ _ hrun hstart
  refine ⟨hplain.context, fun e heq => ?_⟩
  obtain ⟨u, hu, heq⟩ := Option.bind_eq_some_iff.mp heq
  obtain ⟨w, rfl, hw⟩ := Option.bind_eq_some_iff.mp hu
  have hw' := hof w rfl
  obtain rfl := hw'.dictValue? (fun _ hp => hp) hw
  obtain rfl := hw'.eq_dict heq
  exact hw'

end AssetPack
