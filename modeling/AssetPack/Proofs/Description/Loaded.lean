import AssetPack.Description.Objects
import AssetPack.Proofs.Codec.Saved
import AssetPack.Proofs.Description.Resolved
import AssetPack.Resource.Builtin

/-!
# Loaded objects

Of each typed entry a resource is made and a form kept. The kept forms hold no directives and no marks.
-/
namespace AssetPack

/-!
## Kept forms

A resource of a built-in type is made from an entry without marks and directives, and the form that a pack
keeps of it has none either, also within what is saved.
-/

section
variable {σ : Type} {fs : Files} {R : String → Prop}

/-- What is in an entry that is kept: what is resolved, and payloads with nothing else within them. -/
def Vocabulary.kept (fs : Files) (R : String → Prop) : Vocabulary :=
  { Vocabulary.resolved fs R with payload := fun p => ∀ u, Value.Within u (.saved p) → u.Speaks (.resolved fs R) }

theorem Value.Of.kept {v : Value} (h : v.Of (.resolved fs R)) : v.Of (.kept fs R) :=
  h.mono (fun _ ha => ha) (fun _ hname => hname) fun _ hp => hp.elim

/-- A resource that is kept with nothing but what its entry may hold, finishes at once and brings no
siblings. -/
structure Resource.Plain (fs : Files) (R : String → Prop) (r : Resource σ) : Prop where
  save : ∀ d, d.Of (.kept fs R) →
    ∃ kept, r.save d = (true, kept) ∧ kept.Of (.kept fs R) ∧ kept.get? Key.type = d.get? Key.type
  finish : ∀ c, r.finish c = pure (true, [])
  siblings : ∀ name, r.siblings name = ∅

/-- What a factory makes of a described entry is plain, and all that it notes are issues. -/
def Factory.Plain (fs : Files) (f : Factory σ) : Prop :=
  ∀ R d c w a w', d.Of (.kept fs R) → (a, w') = ((f.fromSource d c).run w).eval fs →
    (∀ r, a.1 = some r → r.Plain fs R) ∧ ∀ note ∈ a.2, ∃ i, note = .issue i

/-! ### The built-in types -/

theorem unmarked_extensionOf (path : Path) : Unmarked (FileResource.extensionOf path) := by
  refine unmarked_of_head fun c hc => ?_
  unfold FileResource.extensionOf at hc
  split at hc
  · rw [String.toList_append] at hc
    cases hc
    decide
  · cases hc

theorem FileResource.plain_toResource {f : FileResource} (h : Unmarked f.extension) :
    (f.toResource : Resource σ).Plain fs R := by
  refine ⟨fun d hd => ⟨_, rfl, ?_, ?_⟩, fun _ => rfl, fun _ => rfl⟩
  · have hnames : "data" ∉ Key.directives ∧ "extension" ∉ Key.directives ∧ "compress" ∉ Key.directives := by
      decide
    have hextension : (Value.string f.extension).Of (.kept fs R) := Value.of_atom.mpr (.inl h)
    have hcompress : (Value.bool f.compress).Of (.kept fs R) := Value.of_atom.mpr trivial
    refine ((hd.set hnames.1 ?_).set hnames.2.1 hextension).set hnames.2.2 hcompress
    split
    · refine Value.of_saved.mpr fun u hu => ?_
      cases hu with
      | self => trivial
      | saved hcontent _ _ => cases hcontent
    · exact Value.of_atom.mpr trivial
  · rw [FileResource.save, Dict.get?_set, if_neg (by decide), Dict.get?_set, if_neg (by decide), Dict.get?_set,
      if_neg (by decide)]

theorem FileResource.unmarked_of_fromSource {d : Dict Value} {f : FileResource}
    (h : (FileResource.fromSource d).eval fs = .ok f) : Unmarked f.extension := by
  unfold FileResource.fromSource at h
  split at h
  · cases h
  · rename_i path _
    rw [Look.eval_bind, Look.eval_read] at h
    split at h
    · cases h
    · cases h
      exact unmarked_extensionOf path

theorem FileResource.plain_factory (fs : Files) : (FileResource.factory : Factory σ).Plain fs := by
  intro R d c w a w' _ hmay
  obtain ⟨⟨made, _⟩, hlook, hdone⟩ := (Answers.files fs).of_bind hmay
  obtain ⟨_, hmade, hlift⟩ := (Answers.files fs).of_bind hlook
  cases (Answers.files fs).eq_of_pure hlift
  cases made with
  | ok f =>
    cases (Answers.files fs).eq_of_pure hdone
    refine ⟨fun r hr => ?_, by simp⟩
    cases hr
    exact plain_toResource (unmarked_of_fromSource hmade.symm)
  | error i =>
    cases (Answers.files fs).eq_of_pure hdone
    refine ⟨fun r hr => ?_, fun note hnote => ⟨i, List.mem_singleton.mp hnote⟩⟩
    cases hr

theorem DictResource.plain_ofDict {d : Dict Value} (hd : d.Of (.kept fs R)) :
    ((DictResource.ofDict d).toResource : Resource σ).Plain fs R := by
  refine ⟨fun e he => ⟨_, rfl, he.merge (hd.filter _), ?_⟩, fun _ => rfl, fun _ => rfl⟩
  refine Dict.get?_setAll_of_not_mem fun hmem => ?_
  obtain ⟨entry, hentry, hname⟩ := List.mem_map.mp hmem
  have hreserved := (List.mem_filter.mp hentry).2
  rw [hname] at hreserved
  exact absurd hreserved (by decide)

theorem DictResource.plain_factory (fs : Files) : (DictResource.factory : Factory σ).Plain fs := by
  intro R d c w a w' hd heq
  cases heq
  refine ⟨fun r hr => ?_, by simp⟩
  cases hr
  exact DictResource.plain_ofDict hd

theorem Registry.plain_builtin {typeName : String} {f : Factory σ}
    (h : Registry.builtin.get? typeName = some f) : f.Plain fs := by
  have hmem := Dict.mem_of_get? h
  simp only [Registry.builtin, List.mem_cons, Prod.mk.injEq, List.not_mem_nil, or_false] at hmem
  rcases hmem with ⟨_, rfl⟩ | ⟨_, rfl⟩
  · exact FileResource.plain_factory fs
  · exact DictResource.plain_factory fs

/-! ### The form of a pack -/

/-- A plain resource can be kept, as a dictionary of its type or saved. -/
theorem of_keptForm {r : Resource σ} (hr : r.Plain fs R) {d : Dict Value} (hd : d.Of (.kept fs R)) {typeName : String}
    (htype : fs.Clear typeName) : ∃ v, keptForm d typeName r = some v ∧ v.Of (.kept fs R) ∧ v.string? = none ∧
      ∀ e, v = .dict e → e.get? Key.type = some (.string typeName) := by
  have hnames : Key.type ∉ Key.directives ∧ Key.loadListener ∉ Key.directives := by decide
  have hstart : (Dict.ofList [(Key.type, .string typeName)]).Of (.kept fs R) :=
    Dict.of_empty.set hnames.1 (Value.of_atom.mpr htype)
  obtain ⟨kept, hsave, hkept, hget⟩ := hr.save _ hstart
  have hform {e : Dict Value} (he : e.Of (.kept fs R)) (htype : e.get? Key.type = some (.string typeName)) :
      ∃ v : Value, (if (d.findAs? Key.compress .bool).getD false then some (.saved (.ofBytes .dict e.encode true))
        else some (.dict e)) = some v ∧ v.Of (.kept fs R) ∧ v.string? = none ∧
          ∀ e, v = .dict e → e.get? Key.type = some (.string typeName) := by
    split
    · refine ⟨_, rfl, Value.of_saved.mpr fun u hu => ?_, rfl, fun e h => nomatch h⟩
      exact Value.speaks_saved (fun _ hp => hp) he hu
    · refine ⟨_, rfl, he, rfl, fun e' h => ?_⟩
      cases h
      exact htype
  rw [keptForm, hsave]
  cases hlistener : d.get? Key.loadListener with
  | none => exact hform hkept hget
  | some listener =>
    refine hform (hkept.set hnames.2 (hd.get? hlistener).2) ?_
    rw [Dict.get?_set, if_neg (by decide), hget]
    rfl

end

/-!
## Loaded objects

A visit that loads every object leaves entries that a pack can keep, and resources for those top-level
entries that have a type.
-/

section
variable {σ : Type} {fs : Files} {debug : Bool} {base : Path}

namespace Context.Consulted
variable {c : Context}

theorem addIssue (h : c.Consulted fs debug base) (i : Issue) : (c.addIssue i).Consulted fs debug base :=
  ⟨h.base_eq, h.debug_eq, h.files⟩

theorem addSymbol (h : c.Consulted fs debug base) (symbol name : String) :
    (c.addSymbol symbol name).Consulted fs debug base := by
  unfold Context.addSymbol
  split
  · exact h
  · exact ⟨h.base_eq, h.debug_eq, h.files⟩

/-- Issues do not touch the files. -/
theorem addAll (h : c.Consulted fs debug base) {notes : List Note} (hnotes : ∀ note ∈ notes, ∃ i, note = .issue i) :
    ((c.addAll notes).eval fs).Consulted fs debug base := by
  induction notes generalizing c with
  | nil => exact h
  | cons note rest ih =>
    obtain ⟨⟨i, rfl⟩, hrest⟩ := List.forall_mem_cons.mp hnotes
    rw [Context.addAll, List.foldlM_cons, Look.eval_bind]
    exact ih (h.addIssue i) hrest

end Context.Consulted

/-- The top-level entry of this name has a type. -/
def Dict.Types (d : Dict Value) (name : String) : Prop :=
  ∃ e typeName, d.get? name = some (.dict e) ∧ e.get? Key.type = some (.string typeName)

/-- What the loading of `d` keeps true. -/
structure Loading.Plain (fs : Files) (debug : Bool) (base : Path) (R : String → String → Prop) (d : Dict Value)
    (l : Loading σ) : Prop where
  context : l.context.Consulted fs debug base
  roots : ∀ root ∈ l.roots, root.2.Plain fs (R root.1) ∧ d.Types root.1

variable {R : String → String → Prop} {d : Dict Value} {α : Type}

theorem keeps_noting {x : Context → StateT σ Look (α × List Note)} {Q : α → Prop}
    (hx : ∀ c w a w', (a, w') = ((x c).run w).eval fs → Q a.1 ∧ ∀ note ∈ a.2, ∃ i, note = .issue i) :
    Keeps (Answers.files fs) (Loading.Plain fs debug base R d) (Loading.noting x) Q := by
  refine Keeps.bind Keeps.ask fun l hl => Keeps.bind (Keeps.look _) fun a ha => ?_
  obtain ⟨⟨a, notes⟩, world⟩ := a
  obtain ⟨hQ, hnotes⟩ := hx _ _ _ _ ha
  refine Keeps.bind (Keeps.look _) fun c hc => Keeps.bind (Keeps.put ⟨?_, hl.roots⟩) fun _ _ => Keeps.pure hQ
  rw [hc]
  exact hl.context.addAll hnotes

theorem keeps_addSymbol (symbol name : String) :
    Keeps (Answers.files fs) (Loading.Plain (σ := σ) fs debug base R d) (Loading.addSymbol symbol name)
      fun _ => True := by
  unfold Loading.addSymbol
  split
  · exact Keeps.change fun l hl => ⟨hl.context.addSymbol symbol name, hl.roots⟩
  · exact Keeps.pure trivial

theorem keeps_fromSource {P : String → Prop} {f : Factory σ} (hf : f.Plain fs) {e : Dict Value}
    (he : e.Of (.kept fs P)) : Keeps (Answers.files fs) (Loading.Plain fs debug base R d)
      (Loading.noting (f.fromSource e)) fun made => ∀ r, made = some r → r.Plain fs P :=
  keeps_noting fun _ _ _ _ hmay => hf P _ _ _ _ _ he hmay

theorem keeps_finish {P : String → Prop} {r : Resource σ} (hr : r.Plain fs P) :
    Keeps (Answers.files fs) (Loading.Plain fs debug base R d) (Loading.noting r.finish) fun ok => ok = true := by
  refine keeps_noting fun c w a w' hmay => ?_
  rw [hr.finish] at hmay
  cases hmay
  exact ⟨rfl, by simp⟩

theorem eq_string_of_string? {v : Value} {s : String} (h : v.string? = some s) : v = .string s := by
  unfold Value.string? at h
  split at h
  · cases h
    rfl
  · cases h

theorem get?_of_type {e : Dict Value} {typeName : String}
    (h : (e.get? Key.type).bind Value.string? = some typeName) : e.get? Key.type = some (.string typeName) := by
  obtain ⟨v, hv, hstring⟩ := Option.bind_eq_some_iff.mp h
  rw [hv, eq_string_of_string? hstring]

theorem clear_of_type {P : String → Prop} {e : Dict Value} (he : e.Of (.kept fs P)) {typeName : String}
    (h : e.get? Key.type = some (.string typeName)) : fs.Clear typeName :=
  Value.of_atom.mp (he.get? h).2

variable {registry : Registry σ} {P : String → Prop} {trail : List Step} {e : Dict Value}

/-- Inside an entry an object is replaced by its kept form at once. -/
theorem keeps_load_inside (hregistry : ∀ typeName f, registry.get? typeName = some f → f.Plain fs)
    (htrail : 2 ≤ trail.length) (issues : List Issue) (he : e.Of (.kept fs P)) :
    Keeps (Answers.files fs) (Loading.Plain fs debug base R d) (Loading.load registry ⟨trail, issues⟩ e)
      fun reply => Issue.audible reply.issues = [] →
        ∃ w, reply.value = some w ∧ w.Of (.kept fs P) ∧ w.string? = none := by
  obtain _ | ⟨a, _ | ⟨b, rest⟩⟩ := trail
  · exact absurd htrail (by simp)
  · exact absurd htrail (by simp)
  · unfold Loading.load
    simp only
    split
    · exact Keeps.pure fun _ => ⟨_, rfl, he, rfl⟩
    · rename_i typeName htype
      split
      · exact Keeps.pure fun hissues => (Reply.not_own_of_drop hissues trivial).elim
      · rename_i factory hfactory
        refine Keeps.bind (keeps_fromSource (hregistry _ _ hfactory) he) fun made hmade => ?_
        cases made with
        | none => exact Keeps.pure fun hissues => (Reply.not_own_of_drop hissues trivial).elim
        | some r =>
          have hr := hmade r rfl
          refine Keeps.bind (keeps_finish hr) fun ok hok => ?_
          obtain ⟨v, hkept, hof, hstring, _⟩ :=
            of_keptForm hr he (clear_of_type he (get?_of_type htype))
          rw [hok, hkept]
          exact Keeps.pure fun _ => ⟨v, rfl, hof, hstring⟩

/-- A top-level object stays as it is until all are made. -/
theorem keeps_load_top (hregistry : ∀ typeName f, registry.get? typeName = some f → f.Plain fs) {name : String}
    (issues : List Issue) (he : e.Of (.kept fs (R name)))
    (htypes : ∀ typeName, e.get? Key.type = some (.string typeName) → d.Types name) :
    Keeps (Answers.files fs) (Loading.Plain fs debug base R d) (Loading.load registry ⟨[.name name], issues⟩ e)
      fun reply => Issue.audible reply.issues = [] → reply.value = some (.dict e) := by
  unfold Loading.load
  simp only
  refine Keeps.bind (keeps_addSymbol _ _) fun _ _ => ?_
  split
  · exact Keeps.pure fun _ => rfl
  · rename_i typeName htype
    split
    · exact Keeps.pure fun hissues => (Reply.not_own_of_drop hissues trivial).elim
    · rename_i factory hfactory
      refine Keeps.bind (keeps_fromSource (hregistry _ _ hfactory) he) fun made hmade => ?_
      cases made with
      | none => exact Keeps.pure fun hissues => (Reply.not_own_of_drop hissues trivial).elim
      | some r =>
        refine Keeps.bind (Keeps.change fun l hl => ⟨hl.context, ?_⟩) fun _ _ => Keeps.pure fun _ => rfl
        intro root hroot
        rcases List.mem_append.mp hroot with hroot | hroot
        · exact hl.roots root hroot
        · obtain rfl := List.mem_singleton.mp hroot
          exact ⟨hmade r rfl, htypes typeName (get?_of_type htype)⟩

/-! ### The whole pass -/

/-- What becomes of a value: the vocabulary is kept, and just texts become texts. -/
def Loads (fs : Files) (P : String → Prop) (v w : Value) : Prop := w.Of (.kept fs P) ∧ w.string? = v.string?

theorem makes_load (hregistry : ∀ typeName f, registry.get? typeName = some f → f.Plain fs) :
    Hooks.Makes (Answers.files fs) (fun _ => True) (Loading.Plain fs debug base R d)
      (fun trail => 2 ≤ trail.length) (.resolved fs P) (Loads fs P)
      { Hooks.keep with onDict := Loading.load registry } := by
  refine ⟨fun trail issues a _ ha => ?_, fun trail issues items done _ => ?_, fun trail issues e done htrail he => ?_⟩
  · exact Reply.upholds_pure fun _ _ => ⟨_, rfl, Value.of_atom.mpr ha, rfl⟩
  · refine Reply.upholds_pure fun _ hdone => ⟨_, rfl, Value.of_list.mpr fun w hw => ?_, rfl⟩
    obtain ⟨_, _, hof, _⟩ := exists_of_forall₂ hdone hw
    exact hof
  · refine Reply.upholds_of_keeps fun hdone => ?_
    have hof : (⟨done⟩ : Dict Value).Of (.kept fs P) :=
      Dict.of_forall₂ he (fun _ hname => hname) (fun _ _ h => h.1) hdone
    exact (keeps_load_inside hregistry htrail issues hof).mono fun _ h hissues => h hissues

/-- The type of a dictionary is still there when what is in it is loaded, and there was no other. -/
theorem type_iff_of_loads {e : Dict Value} {done : List (String × Value)}
    (h : List.Forall₂ (fun e e' => e.1 = e'.1 ∧ Loads fs P e.2 e'.2) e.entries done) {typeName : String} :
    (⟨done⟩ : Dict Value).get? Key.type = some (.string typeName) ↔
      e.get? Key.type = some (.string typeName) := by
  have hrel : Option.Rel (Loads fs P) (e.get? Key.type) ((⟨done⟩ : Dict Value).get? Key.type) :=
    rel_get?_of_forall₂ (R := fun _ => Loads fs P) h Key.type
  generalize e.get? Key.type = v at hrel ⊢
  generalize (⟨done⟩ : Dict Value).get? Key.type = w at hrel ⊢
  cases hrel with
  | none => rfl
  | some hloads =>
    constructor <;> intro heq <;> cases heq
    · rw [eq_string_of_string? hloads.2.symm]
    · rw [eq_string_of_string? hloads.2]

/-- What becomes of a top-level entry. If it has a type it keeps it. -/
def LoadsTop (fs : Files) (P : String → Prop) (v w : Value) : Prop :=
  w.Of (.kept fs P) ∧ ∀ e typeName, v = .dict e → e.get? Key.type = some (.string typeName) →
    ∃ e', w = .dict e' ∧ e'.get? Key.type = some (.string typeName)

theorem upholds_visit_top (hregistry : ∀ typeName f, registry.get? typeName = some f → f.Plain fs)
    {name : String} {v : Value} (hv : v.Of (.resolved fs (R name))) (hget : d.get? name = some v) :
    Visiting.Upholds (Answers.files fs) (fun _ => True) (Loading.Plain fs debug base R d) True
      (v.tree.visit { Hooks.keep with onDict := Loading.load registry } [.name name])
      fun w => ∃ u, w = some u ∧ LoadsTop fs (R name) v u := by
  have hmakes : Hooks.Makes (Answers.files fs) (fun _ => True) (Loading.Plain fs debug base R d)
      (fun trail => 2 ≤ trail.length) (.resolved fs (R name)) (Loads fs (R name))
      { Hooks.keep with onDict := Loading.load registry } := makes_load hregistry
  have hinside (step : Step) {u : Value} (hu : u.Of (.resolved fs (R name))) :
      Visiting.Upholds (Answers.files fs) (fun _ => True) (Loading.Plain fs debug base R d) True
        (u.tree.visit { Hooks.keep with onDict := Loading.load registry } [step, .name name])
        fun w => ∃ x, w = some x ∧ Loads fs (R name) u x :=
    hmakes.visit (fun _ _ h => Nat.le_succ_of_le h) (fun _ hp => hp) hu (by simp)
  cases v with
  | atom a =>
    refine Visiting.upholds_call fun issues => Reply.upholds_pure fun _ _ => ⟨_, rfl, Value.Of.kept hv, ?_⟩
    intro _ _ h
    cases h
  | list items =>
    rw [Value.tree_list, Tree.visit]
    refine Visiting.Upholds.bind
      (upholds_visitItems (fun u hu index => hinside (.index index) (Value.of_list.mp hv u hu)) 0) fun done => ?_
    refine Visiting.upholds_call fun issues => Reply.upholds_pure fun _ hdone => ⟨_, rfl, ?_, ?_⟩
    · refine Value.of_list.mpr fun w hw => ?_
      obtain ⟨_, _, hof, _⟩ := exists_of_forall₂ hdone hw
      exact hof
    · intro _ _ h
      cases h
  | dict e =>
    rw [Value.tree_dict, Tree.visit, Dict.tree_eq, Dict.map, Dict.visit]
    refine Visiting.Upholds.bind (upholds_visitEntries (fun _ => Loads fs (R name)) fun entry hentry =>
      hinside (.name entry.1) (Dict.Of.entry hv hentry)) fun done => ?_
    refine Visiting.upholds_call fun issues => Reply.upholds_of_keeps fun hdone => ?_
    have hof : (⟨done⟩ : Dict Value).Of (.kept fs (R name)) :=
      Dict.of_forall₂ hv (fun _ hname => hname) (fun _ _ h => h.1) hdone
    refine (keeps_load_top hregistry issues hof fun typeName htype =>
      ⟨e, typeName, hget, (type_iff_of_loads hdone).mp htype⟩).mono fun reply hreply hissues =>
        ⟨_, hreply hissues, hof, fun e' typeName heq htype => ?_⟩
    cases heq
    exact ⟨_, rfl, (type_iff_of_loads hdone).mpr htype⟩
  | block b => exact (Value.not_of_block hv).elim
  | saved p => exact (Value.of_saved.mp hv).elim

/-- The dictionary whose objects are all loaded, and the resources for its entries that have a type. -/
theorem Dict.of_loadObjects (hregistry : ∀ typeName f, registry.get? typeName = some f → f.Plain fs)
    (hdistinct : d.Distinct) (hd : ∀ entry ∈ d.entries, entry.2.Of (.resolved fs (R entry.1)))
    {loading loading' : Loading σ} (hloading : loading.context.Consulted fs debug base) (hroots : loading.roots = [])
    {visited : Visited}
    (h : ((d.loadObjects registry).run loading).eval fs = (visited, loading')) (hissues : visited.issues = [])
    {e : Dict Value} (he : visited.dict = some e) :
    loading'.context.Consulted fs debug base ∧ e.names = d.names ∧
      (∀ entry ∈ e.entries, entry.2.Of (.kept fs (R entry.1))) ∧
      ∀ root ∈ loading'.roots, root.2.Plain fs (R root.1) ∧ e.Types root.1 := by
  have hvisit := Dict.upholds_visitRoot_of_entry (I := Loading.Plain fs debug base R d)
    (fun name => LoadsTop fs (R name)) (fun _ _ => rfl)
    (fun entry hentry => upholds_visit_top hregistry (hd entry hentry) (Dict.get?_of_mem hdistinct hentry))
    h.symm hissues trivial
  obtain ⟨hplain, done, hdone, hforall⟩ := hvisit.2 ⟨hloading, by simp [hroots]⟩
  obtain rfl : e = ⟨done⟩ := Option.some.inj (he.symm.trans hdone)
  refine ⟨hplain.context, names_of_forall₂ hforall, fun entry hentry => ?_, fun root hroot => ?_⟩
  · obtain ⟨e, _, hname, hof, _⟩ := exists_of_forall₂ hforall hentry
    rwa [← hname]
  · obtain ⟨hr, e, typeName, hget, htype⟩ := hplain.roots root hroot
    refine ⟨hr, ?_⟩
    have hrel : Option.Rel (LoadsTop fs (R root.1)) (d.get? root.1) ((⟨done⟩ : Dict Value).get? root.1) :=
      rel_get?_of_forall₂ (R := fun name => LoadsTop fs (R name)) hforall root.1
    rw [hget] at hrel
    generalize hw : (⟨done⟩ : Dict Value).get? root.1 = w at hrel
    cases hrel with
    | some hloads =>
      obtain ⟨e', rfl, htype'⟩ := hloads.2 e typeName rfl htype
      exact ⟨e', typeName, hw, htype'⟩

end

end AssetPack
