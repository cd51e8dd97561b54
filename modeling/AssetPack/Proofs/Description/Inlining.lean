import AssetPack.Proofs.Description.Inherited
import AssetPack.Proofs.Description.Fueled
import AssetPack.Proofs.Description.Unlisted

/-!
# Two expansions side by side

A description may have the object in a file in the place of an import of that file. An expansion looks at the
description only for templates, and at the imports that it is in only to find one of them again. So a value that
names no template that the two descriptions disagree on, and does not use the file, is expanded in the same way in
both, inside and outside of the import.
-/
namespace AssetPack
variable {fs : Files} {base : Path}

namespace Files

/-- The file that a description names. -/
def settled (fs : Files) (base relative : Path) : Path := (Look.settle (Path.join base relative)).eval fs

/-- The dictionary that a file holds. -/
def dict? (fs : Files) (path : Path) : Option (Dict Value) :=
  match (Look.readText path).eval fs with
  | .ok text => (Json.parseDict text).toOption
  | .error _ => none

end Files

/-! ## What a value uses -/

/-- A field with this text stands in the value at some depth, or in a file that is imported there. -/
inductive Value.Uses (fs : Files) (base : Path) (key text : String) : Value → Prop
  | field {v : Value} : v.HasField key (.string text) → Uses fs base key text v
  | imported {v : Value} {relative : Path} {d : Dict Value} : v.HasField Key.imported (.string relative) →
      fs.dict? (fs.settled base relative) = some d → Uses fs base key text (.dict d) → Uses fs base key text v

theorem Value.Uses.of_fields {u v w : Value} {key text : String}
    (hfields : ∀ key a, u.HasField key a → v.HasField key a ∨ w.HasField key a) (h : u.Uses fs base key text) :
    v.Uses fs base key text ∨ w.Uses fs base key text := by
  cases h with
  | field hfield => exact (hfields key _ hfield).imp .field .field
  | imported hfield hd huses =>
    exact (hfields _ _ hfield).imp (fun h => .imported h hd huses) fun h => .imported h hd huses

theorem Value.hasField_merge {d e : Dict Value} {key : String} {a : Atom}
    (h : (Value.dict (d.merge e)).HasField key a) : (Value.dict d).HasField key a ∨ (Value.dict e).HasField key a := by
  obtain ⟨entry, hentry, hhere⟩ := hasField_dict.mp h
  exact (Dict.mem_setAll hentry).imp (fun hmem => hasField_dict.mpr ⟨entry, hmem, hhere⟩)
    fun hmem => hasField_dict.mpr ⟨entry, hmem, hhere⟩

theorem Value.hasField_of_get? {d : Dict Value} {key : String} {a : Atom} (h : d.get? key = some (.atom a)) :
    (Value.dict d).HasField key a := ⟨d, .self, Dict.mem_of_get? h⟩

/-- A description without a template that imports the object in a file, which has no directives. -/
structure Inlining (fs : Files) (base : Path) where
  root : Dict Value
  /-- the file by the name that the description has for it -/
  relative : Path
  object : Dict Value
  distinct : root.Distinct
  imports : root.get? Key.imported = some (.string relative)
  noTemplate : root.template? = none
  holds : fs.dict? (fs.settled base relative) = some object
  bare : ∀ name ∈ object.names, name ∉ Key.directives

namespace Inlining

def path (I : Inlining fs base) : Path := fs.settled base I.relative

/-- The description with the object in the place of the import. -/
def inlined (I : Inlining fs base) : Dict Value := I.object.merge (I.root.erase Key.imported)

/-- The value makes no use of the file, and of no template that is not the same after inlining. -/
structure Spares (I : Inlining fs base) (v : Value) : Prop where
  imports : ∀ relative, v.Uses fs base Key.imported relative → ¬(fs.settled base relative).same I.path
  templates : ∀ key ∈ [Key.template, Key.base], ∀ name, v.Uses fs base key name →
    I.root.find? name = I.inlined.find? name

namespace Spares
variable {I : Inlining fs base} {u v w : Value}

theorem of_fields (hv : I.Spares v) (hw : I.Spares w)
    (h : ∀ key a, u.HasField key a → v.HasField key a ∨ w.HasField key a) : I.Spares u where
  imports relative huses := (huses.of_fields h).elim (hv.imports relative) (hw.imports relative)
  templates key hkey name huses := (huses.of_fields h).elim (hv.templates key hkey name) (hw.templates key hkey name)

theorem within (hv : I.Spares v) (h : u.Within v) : I.Spares u :=
  of_fields hv hv fun _ _ hfield => .inl (hfield.within fun _ hw => hw.trans h)

theorem merge {d e : Dict Value} (hd : I.Spares (.dict d)) (he : I.Spares (.dict e)) : I.Spares (.dict (d.merge e)) :=
  of_fields hd he fun _ _ => Value.hasField_merge

theorem filter {d : Dict Value} (h : I.Spares (.dict d)) (keep : String × Value → Bool) :
    I.Spares (.dict ⟨d.entries.filter keep⟩) := by
  refine of_fields h h fun key a hfield => .inl ?_
  obtain ⟨entry, hentry, hhere⟩ := Value.hasField_dict.mp hfield
  exact Value.hasField_dict.mpr ⟨entry, List.mem_of_mem_filter hentry, hhere⟩

theorem erase {d : Dict Value} (h : I.Spares (.dict d)) (name : String) : I.Spares (.dict (d.erase name)) := h.filter _

/-- What is imported spares the file as well. -/
theorem held {d : Dict Value} (h : I.Spares v) {relative : Path} (hfield : v.HasField Key.imported (.string relative))
    (hd : fs.dict? (fs.settled base relative) = some d) : I.Spares (.dict d) where
  imports other huses := h.imports other (.imported hfield hd huses)
  templates key hkey name huses := h.templates key hkey name (.imported hfield hd huses)

theorem of_settled {n : Nat} (h : v.Settled n) : I.Spares v := by
  have hnone {key : String} (hkey : key ∈ Key.directives) (text : String) : ¬v.Uses fs base key text := by
    rintro (hfield | ⟨hfield, _, _⟩)
    · exact h.not_hasField hkey _ hfield
    · exact h.not_hasField (by decide) _ hfield
  refine ⟨fun relative huses => absurd huses (hnone (by decide) relative), fun key hkey name huses => ?_⟩
  refine absurd huses (hnone ?_ name)
  exact (by decide : [Key.template, Key.base] ⊆ Key.directives) hkey

end Spares
end Inlining

/-- A setting of one of the two descriptions, without localized values. -/
structure Setting.Of (I : Inlining fs base) (s : Setting) : Prop where
  root : s.root = I.root ∨ s.root = I.inlined
  localize : ∀ name, s.localize name = none

theorem Setting.Of.find? {I : Inlining fs base} {s : Setting} (hs : s.Of I) {name : String}
    (h : I.root.find? name = I.inlined.find? name) : s.root.find? name = I.inlined.find? name := by
  rcases hs.root with hroot | hroot
  · rw [hroot, h]
  · rw [hroot]

/-! ## Runs side by side -/

namespace Expansion

/-- What an expansion keeps besides the place it is at, its issues and the files that it lists. -/
def core (e : Expansion) : Expansion := { e with trail := [], issues := [], context := e.context.unlisted }

theorem core_eq_iff {e e' : Expansion} : e.core = e'.core ↔ e.scopes = e'.scopes ∧ e.templates = e'.templates ∧
    e.imports = e'.imports ∧ e.context.unlisted = e'.context.unlisted := by
  simp only [core, mk.injEq, true_and]

end Expansion

namespace Expanding
variable {α β : Type} {S : Expansion → Expansion → Prop} {x y : Expanding α} {Q : α → Prop}

/-- From states in the relation, if `x` reports nothing, `y` answers the same and reports nothing either. All that
states keep besides places, issues and files is at the end as before. -/
def Mirrors (fs : Files) (S : Expansion → Expansion → Prop) (x y : Expanding α) (Q : α → Prop) : Prop :=
  ∀ e e', S e.core e'.core → ∀ a e₁, eval fs x e = some (a, e₁) →
    e.issues <+: e₁.issues ∧ e₁.core = e.core ∧ Q a ∧ (e₁.issues = e.issues →
      ∃ e₁', eval fs y e' = some (a, e₁') ∧ e₁'.issues = e'.issues ∧ e₁'.core = e'.core)

theorem eval_addFile (path : Path) (e : Expansion) : eval fs (addFile path) e =
    some ((), { e with context := (e.context.addFile e.root? path).eval fs }) := by
  rw [addFile, eval_get_bind, eval_look_bind]
  rfl

theorem core_addFile (path : Path) (e : Expansion) :
    ({ e with context := (e.context.addFile e.root? path).eval fs } : Expansion).core = e.core :=
  Expansion.core_eq_iff.mpr ⟨rfl, rfl, rfl, Context.unlisted_addFile _ _ _⟩

namespace Mirrors

theorem pure {a : α} (h : Q a) : Mirrors fs S (Pure.pure a) (Pure.pure a) Q := by
  intro e e' _ _ _ hrun
  cases hrun
  exact ⟨List.prefix_rfl, rfl, h, fun _ => ⟨e', rfl, rfl, rfl⟩⟩

theorem bind {f g : α → Expanding β} {T : β → Prop} (hx : Mirrors fs S x y Q)
    (hf : ∀ a, Q a → Mirrors fs S (f a) (g a) T) : Mirrors fs S (x >>= f) (y >>= g) T := by
  intro e e' hS b e₂ hrun
  obtain ⟨a, e₁, hfirst, hsecond⟩ := exists_of_eval_bind hrun
  obtain ⟨hgrown, hcore, ha, hmirror⟩ := hx e e' hS a e₁ hfirst
  obtain ⟨hgrown', hcore', hb, _⟩ := hf a ha e₁ e' (hcore ▸ hS) b e₂ hsecond
  refine ⟨hgrown.trans hgrown', hcore'.trans hcore, hb, fun hissues => ?_⟩
  -- issues stay, so nothing was reported in between either
  have hmiddle : e₁.issues = e.issues := (hgrown.eq_of_length_le (hissues ▸ hgrown'.length_le)).symm
  obtain ⟨e₁', hfirst', hissues', hcore₁⟩ := hmirror hmiddle
  have hS' : S e₁.core e₁'.core := by
    rw [hcore, hcore₁]
    exact hS
  obtain ⟨_, _, _, hmirror'⟩ := hf a ha e₁ e₁' hS' b e₂ hsecond
  obtain ⟨e₂', hsecond', hissues₂, hcore₂⟩ := hmirror' (hissues.trans hmiddle.symm)
  exact ⟨e₂', (eval_bind_of hfirst').trans hsecond', hissues₂.trans hissues', hcore₂.trans hcore₁⟩

theorem mono {R : α → Prop} (hx : Mirrors fs S x y Q) (h : ∀ a, Q a → R a) : Mirrors fs S x y R := by
  intro e e' hS a e₁ hrun
  obtain ⟨hgrown, hcore, ha, hmirror⟩ := hx e e' hS a e₁ hrun
  exact ⟨hgrown, hcore, h a ha, hmirror⟩

/-- After a look at the states they are known to be in the relation. -/
theorem ask {f g : Expansion → Expanding α} (h : ∀ e e', S e.core e'.core → Mirrors fs S (f e) (g e') Q) :
    Mirrors fs S (get >>= f) (get >>= g) Q :=
  fun e e' hS => h e e' hS e e' hS

theorem look_bind {f g : β → Expanding α} (z : Look β) (h : Mirrors fs S (f (z.eval fs)) (g (z.eval fs)) Q) :
    Mirrors fs S (liftM z >>= f) (liftM z >>= g) Q := by
  intro e e' hS
  rw [eval_look_bind, eval_look_bind]
  exact h e e' hS

/-- Where something is dropped with words it need not be mirrored. -/
theorem drop {i : Issue} (hi : i.Own) {y : Expanding (Option α)} {Q : Option α → Prop} (h : Q none) :
    Mirrors fs S (drop i) y Q := by
  intro e e' _ a e₁ hrun
  have heval : eval fs (Expanding.drop i : Expanding (Option α)) e =
      some (none, { e with issues := e.issues ++ Issue.audible [i] }) := rfl
  rw [heval, Issue.audible_of_own hi] at hrun
  cases hrun
  refine ⟨List.prefix_append _ _, rfl, h, fun hissues => ?_⟩
  exact absurd (List.append_right_eq_self.mp hissues) (List.cons_ne_nil i [])

/-- `x` between a change of the state and the one that takes it back. -/
theorem around {f g : Expansion → Expansion} (hf : ∀ e, (f e).issues = e.issues) (hg : ∀ e, (g e).issues = e.issues)
    (hback : ∀ e e₁, e₁.core = (f e).core → (g e₁).core = e.core)
    (hS : ∀ e e', S e.core e'.core → S (f e).core (f e').core) (h : Mirrors fs S x y Q) :
    Mirrors fs S (do modify f; let a ← x; modify g; return a) (do modify f; let a ← y; modify g; return a) Q := by
  intro e e' hstart _ e₂ hrun
  rw [eval_around] at hrun
  obtain ⟨⟨a, e₁⟩, hinner, hdone⟩ := Option.map_eq_some_iff.mp hrun
  cases hdone
  obtain ⟨hgrown, hcore, ha, hmirror⟩ := h (f e) (f e') (hS e e' hstart) a e₁ hinner
  rw [hf] at hgrown
  refine ⟨(hg e₁).symm ▸ hgrown, hback e e₁ hcore, ha, fun hissues => ?_⟩
  rw [hg] at hissues
  obtain ⟨e₁', hinner', hissues', hcore'⟩ := hmirror (hissues.trans (hf e).symm)
  refine ⟨g e₁', ?_, (hg e₁').trans (hissues'.trans (hf e')), hback e' e₁' hcore'⟩
  rw [eval_around, hinner']
  rfl

theorem within (step : Step) (h : Mirrors fs S x y Q) : Mirrors fs S (within step x) (within step y) Q :=
  around (fun _ => rfl) (fun _ => rfl) (fun _ _ hcore => hcore) (fun _ _ hS => hS) h

theorem addFile (path : Path) : Mirrors fs S (addFile path) (addFile path) fun _ => True := by
  intro e e' _ a e₁ hrun
  rw [eval_addFile] at hrun
  cases hrun
  exact ⟨List.prefix_rfl, core_addFile path e, trivial, fun _ => ⟨_, eval_addFile path e', rfl, core_addFile path e'⟩⟩

end Mirrors

/-! ## One level of the pass -/

/-- The states of two runs, after the imports `before` and `before'`, which are none but imports of the file. -/
structure Beside (I : Inlining fs base) (before before' : List Path) (e e' : Expansion) : Prop where
  scopes : e'.scopes = e.scopes
  templates : e'.templates = e.templates
  imports : ∃ rest, e.imports = before ++ rest ∧ e'.imports = before' ++ rest
  file : ∀ path ∈ before ++ before', path = I.path
  context : e.context.unlisted = e'.context.unlisted
  base : e.context.base = base
  spared : ∀ scope ∈ e.scopes, I.Spares (.dict scope)

variable {I : Inlining fs base} {before before' : List Path}

namespace Beside
variable {e e' : Expansion}

theorem base' (h : Beside I before before' e e') : e'.context.base = base :=
  (Context.unlisted_eq_iff.mp h.context).1.symm.trans h.base

theorem inScope? (h : Beside I before before' e e') (name : String) : e'.inScope? name = e.inScope? name := by
  rw [Expansion.inScope?, Expansion.inScope?, h.scopes]

theorem spares_of_inScope? (h : Beside I before before' e e') {name : String} {v : Value}
    (hv : e.inScope? name = some v) : I.Spares v := by
  obtain ⟨scope, hscope, hfind⟩ := Option.bind_eq_some_iff.mp hv
  exact (h.spared scope (List.mem_of_head? hscope)).within (Value.within_of_find? hfind)

/-- The imports of the file make no difference to another file. -/
theorem any_same (h : Beside I before before' e e') {path : Path} (hpath : ¬path.same I.path) :
    e'.imports.any (Path.same path) = e.imports.any (Path.same path) := by
  obtain ⟨rest, himports, himports'⟩ := h.imports
  have hnone (front : List Path) (hfront : front ⊆ before ++ before') : front.any (Path.same path) = false := by
    refine List.any_eq_false.mpr fun other hother => ?_
    rwa [h.file other (hfront hother)]
  rw [himports, himports', List.any_append, List.any_append, hnone before (List.subset_append_left _ _),
    hnone before' (List.subset_append_right _ _)]

end Beside

theorem Mirrors.inTemplate (name : String) (h : Mirrors fs (Beside I before before') x y Q) :
    Mirrors fs (Beside I before before') (inTemplate name x) (inTemplate name y) Q := by
  refine around (fun _ => rfl) (fun _ => rfl) (fun e e₁ hcore => ?_) (fun e e' hS => ?_) h
  · obtain ⟨hscopes, htemplates, himports, hcontext⟩ := Expansion.core_eq_iff.mp hcore
    refine Expansion.core_eq_iff.mpr ⟨hscopes, ?_, himports, hcontext⟩
    simp only [htemplates, List.dropLast_concat]
  · exact ⟨hS.scopes, congrArg (· ++ [name]) hS.templates, hS.imports, hS.file, hS.context, hS.base, hS.spared⟩

theorem Mirrors.inImport (path : Path) (h : Mirrors fs (Beside I before before') x y Q) :
    Mirrors fs (Beside I before before') (inImport path x) (inImport path y) Q := by
  refine around (fun _ => rfl) (fun _ => rfl) (fun e e₁ hcore => ?_) (fun e e' hS => ?_) h
  · obtain ⟨hscopes, htemplates, himports, hcontext⟩ := Expansion.core_eq_iff.mp hcore
    refine Expansion.core_eq_iff.mpr ⟨hscopes, htemplates, ?_, hcontext⟩
    simp only [himports, List.dropLast_concat]
  · obtain ⟨rest, himports, himports'⟩ := hS.imports
    refine ⟨hS.scopes, hS.templates, ⟨rest ++ [path], ?_, ?_⟩, hS.file, hS.context, hS.base, hS.spared⟩
    · exact (congrArg (· ++ [path]) himports).trans (List.append_assoc _ _ _)
    · exact (congrArg (· ++ [path]) himports').trans (List.append_assoc _ _ _)

theorem Mirrors.inNewScope {scope : Dict Value} (hscope : I.Spares (.dict scope))
    (h : Mirrors fs (Beside I before before') x y Q) :
    Mirrors fs (Beside I before before') (inNewScope scope x) (inNewScope scope y) Q := by
  refine around (fun _ => rfl) (fun _ => rfl) (fun e e₁ hcore => ?_) (fun e e' hS => ?_) h
  · obtain ⟨hscopes, htemplates, himports, hcontext⟩ := Expansion.core_eq_iff.mp hcore
    refine Expansion.core_eq_iff.mpr ⟨?_, htemplates, himports, hcontext⟩
    simp only [hscopes, List.drop_succ_cons, List.drop_zero]
  · exact ⟨congrArg (scope :: ·) hS.scopes, hS.templates, hS.imports, hS.file, hS.context, hS.base,
      List.forall_mem_cons.mpr ⟨hscope, hS.spared⟩⟩

/-- What is answered to a job with fuel `n` is settled. -/
def Settles (n : Nat) : Job → Option Value → Prop
  | .dict _, answer => ∀ v, answer = some v → v.Settled (n + 1)
  | .value _, answer => 0 < n ∧ ∀ v, answer = some v → v.Settled n

section
variable {n : Nat} {next next' : Job → Expanding (Option Value)} {s s' : Setting}
variable (hnext : ∀ job, I.Spares job.source →
  Mirrors fs (Beside I before before') (next job) (next' job) (Settles n job))
include hnext

theorem mirrors_entries {es : List (String × Value)} (hes : ∀ entry ∈ es, I.Spares entry.2) :
    Mirrors fs (Beside I before before') (entries next es) (entries next' es) fun done =>
      (∀ entry ∈ done, entry.1 ∈ es.map (·.1)) ∧ ∀ entry ∈ done, entry.2.Settled n := by
  induction es with
  | nil => exact .pure ⟨fun _ h => (nomatch h), fun _ h => (nomatch h)⟩
  | cons entry rest ih =>
    obtain ⟨hentry, hrest⟩ := List.forall_mem_cons.mp hes
    refine ((hnext (.value entry.2) hentry).within _).bind fun w hw => (ih hrest).bind fun done hdone => ?_
    have hnames : ∀ other ∈ done, other.1 ∈ (entry :: rest).map (·.1) :=
      fun other hother => List.mem_cons_of_mem _ (hdone.1 other hother)
    cases w with
    | none => exact .pure ⟨hnames, hdone.2⟩
    | some w =>
      exact .pure ⟨List.forall_mem_cons.mpr ⟨List.mem_cons_self, hnames⟩,
        List.forall_mem_cons.mpr ⟨hw.2 w rfl, hdone.2⟩⟩

theorem mirrors_items {vs : List Value} (hvs : ∀ v ∈ vs, I.Spares v) (index : Nat) :
    Mirrors fs (Beside I before before') (items next index vs) (items next' index vs)
      fun done => ∀ w ∈ done, w.Settled n := by
  induction vs generalizing index with
  | nil => exact .pure fun _ h => nomatch h
  | cons v rest ih =>
    obtain ⟨hv, hrest⟩ := List.forall_mem_cons.mp hvs
    refine ((hnext (.value v) hv).within _).bind fun w hw => (ih hrest (index + 1)).bind fun done hdone => ?_
    refine .pure (List.forall_mem_cons.mpr ⟨?_, hdone⟩)
    cases w with
    | none => exact Value.Settled.null.mono hw.1
    | some w => exact hw.2 w rfl

theorem mirrors_importFile {relative : Path} (hpath : ¬(fs.settled base relative).same I.path)
    (hheld : ∀ d, fs.dict? (fs.settled base relative) = some d → I.Spares (.dict d)) :
    Mirrors fs (Beside I before before') (importFile next relative) (importFile next' relative)
      fun found => ∀ d, found = some d → (Value.dict d).Settled (n + 1) := by
  refine .ask fun e e' hS => ?_
  have hbase : e.context.base = base := hS.base
  have hbase' : e'.context.base = base := hS.base'
  rw [hbase, hbase']
  refine .look_bind _ (.ask fun e₁ e₁' hS₁ => ?_)
  have hfound : (Look.settle (Path.join base relative)).eval fs = fs.settled base relative := rfl
  have himports : e₁'.imports.any (Path.same (fs.settled base relative)) =
      e₁.imports.any (Path.same (fs.settled base relative)) := hS₁.any_same hpath
  rw [hfound, himports]
  split
  · exact .drop (by trivial) nofun
  · refine .look_bind _ ?_
    rw [Files.dict?] at hheld
    cases htext : (Look.readText (fs.settled base relative)).eval fs with
    | error error => exact .drop (by trivial) nofun
    | ok text =>
      rw [htext] at hheld
      dsimp only at hheld ⊢
      cases hparse : Json.parseDict text with
      | error fault => exact .drop (by trivial) nofun
      | ok parsed =>
        rw [hparse] at hheld
        refine (Mirrors.addFile _).bind fun _ _ => ((hnext (.dict parsed) (hheld parsed rfl)).inImport _).bind
          fun w hw => ?_
        cases hdict : w.bind Value.dict? with
        | none => exact .drop (by trivial) nofun
        | some d =>
          obtain ⟨v, rfl, hd⟩ := Option.bind_eq_some_iff.mp hdict
          have hsettled := hw v rfl
          obtain rfl := hsettled.eq_dict hd
          refine .pure ?_
          rintro _ ⟨⟩
          exact hsettled

/-- A dictionary is set over what it imports, and has no import then. -/
theorem mirrors_imported {d : Dict Value} (hd : I.Spares (.dict d)) (hvalues : Key.values ∉ d.names) :
    Mirrors fs (Beside I before before') (imported next d) (imported next' d) fun whole =>
      ∀ d', whole = some d' → I.Spares (.dict d') ∧ Key.imported ∉ d'.names ∧ Key.values ∉ d'.names := by
  unfold imported
  cases himport : d.get? Key.imported with
  | none =>
    refine .pure ?_
    rintro _ ⟨⟩
    exact ⟨hd, Dict.get?_eq_none_iff.mp himport, hvalues⟩
  | some v =>
    split
    · rename_i heq
      cases heq
    · rename_i relative heq
      cases heq
      have hfield := Value.hasField_of_get? himport
      refine (mirrors_importFile hnext (hd.imports relative (.field hfield))
        fun held hheld => hd.held hfield hheld).bind fun found hfound => ?_
      cases found with
      | none => exact .pure nofun
      | some found =>
        have hsettled := hfound found rfl
        refine .pure ?_
        rintro _ ⟨⟩
        have habsent {name : String} (hdirective : name ∈ Key.directives)
            (herased : name ∉ (d.erase Key.imported).names) : name ∉ (found.merge (d.erase Key.imported)).names := by
          cases hsettled with
          | dict hnames _ =>
            exact fun hmem => (Dict.mem_names_merge hmem).elim (fun hmem => hnames name hmem hdirective) herased
        refine ⟨(Inlining.Spares.of_settled hsettled).merge (hd.erase _), ?_, ?_⟩
        · exact habsent (by decide) (d.not_mem_names_erase _)
        · exact habsent (by decide) fun hmem => hvalues (d.names_erase_subset _ hmem)
    · exact .ask fun _ _ _ => .drop (by trivial) nofun

theorem mirrors_overTemplate (hs : s.Of I) (hs' : s'.Of I) (hinlined : I.Spares (.dict I.inlined)) {template : String}
    (hsame : I.root.find? template = I.inlined.find? template) {d : Dict Value} (hd : I.Spares (.dict d)) :
    Mirrors fs (Beside I before before') (overTemplate next s template d) (overTemplate next' s' template d)
      (Settles (n + 1) (.dict d)) := by
  refine .ask fun e e' hS => ?_
  have htemplates : e'.templates = e.templates := hS.templates
  have hscope : e'.inScope? template = e.inScope? template := hS.inScope? template
  rw [htemplates, hscope, hs.find? hsame, hs'.find? hsame]
  split
  · exact .drop (by trivial) nofun
  · split
    · exact .drop (by trivial) nofun
    · rename_i found hfound
      have hspared : I.Spares found := by
        cases hin : e.inScope? template with
        | none =>
          rw [hin] at hfound
          exact hinlined.within (Value.within_of_find? hfound)
        | some v =>
          rw [hin] at hfound
          cases hfound
          exact hS.spares_of_inScope? hin
      refine .inTemplate template ?_
      split
      · rename_i under hunder
        have hunder : I.Spares (.dict under) := hspared.within (.of_opened hunder .self)
        exact (hnext (.dict (under.merge d)) (hunder.merge hd)).mono fun _ ha v hv => (ha v hv).succ
      · split
        · exact (hnext (.value found) hspared).mono fun _ ha v hv => (ha.2 v hv).mono (by omega)
        · exact .drop (by trivial) nofun

theorem mirrors_plain (hs : s.Of I) (hs' : s'.Of I) (hinlined : I.Spares (.dict I.inlined)) {d : Dict Value}
    (hd : I.Spares (.dict d)) (hvalues : Key.values ∉ d.names) :
    Mirrors fs (Beside I before before') (plain next s d) (plain next' s' d) (Settles (n + 1) (.dict d)) := by
  refine (mirrors_imported hnext hd hvalues).bind fun whole hwhole => ?_
  cases whole with
  | none => exact .pure nofun
  | some d =>
    obtain ⟨hd, himported, hvalues⟩ := hwhole d rfl
    have htemplate : d.get? (templateKey d) = d.template? := rfl
    dsimp only
    rw [htemplate]
    cases hname : d.template? with
    | none =>
      obtain ⟨htemplate, hbase⟩ := Dict.template?_eq_none_iff.mp hname
      refine (mirrors_entries hnext fun entry hentry => hd.within (.entry hentry .self)).bind fun done hdone => .pure ?_
      rintro _ ⟨⟩
      refine .dict (fun name hmem hdirective => ?_) fun entry hentry => hdone.2 entry hentry
      obtain ⟨entry, hentry, rfl⟩ := List.mem_map.mp hmem
      have hmem : entry.1 ∈ d.names := hdone.1 entry hentry
      simp only [Key.directives, List.mem_cons, List.not_mem_nil, or_false] at hdirective
      rcases hdirective with heq | heq | heq | heq
      · exact himported (heq ▸ hmem)
      · exact htemplate (heq ▸ hmem)
      · exact hbase (heq ▸ hmem)
      · exact hvalues (heq ▸ hmem)
    | some v =>
      split
      · rename_i heq
        cases heq
      · rename_i template heq
        cases heq
        have hfield : (Value.dict d).HasField (templateKey d) (.string template) := Value.hasField_of_get? hname
        have hkey : templateKey d ∈ [Key.template, Key.base] := by
          rcases Dict.templateKey_cases d with ⟨hkey, _⟩ | ⟨hkey, _⟩ <;> rw [hkey] <;> decide
        exact mirrors_overTemplate hnext hs hs' hinlined (hd.templates _ hkey template (.field hfield)) (hd.erase _)
      · exact .ask fun _ _ _ => .drop (by trivial) nofun

theorem mirrors_dict (hs : s.Of I) (hs' : s'.Of I) (hinlined : I.Spares (.dict I.inlined)) {d : Dict Value}
    (hd : I.Spares (.dict d)) :
    Mirrors fs (Beside I before before') (dict next s d) (dict next' s' d) (Settles (n + 1) (.dict d)) := by
  unfold dict
  cases hvalues : d.get? Key.values with
  | none => exact mirrors_plain hnext hs hs' hinlined hd (Dict.get?_eq_none_iff.mp hvalues)
  | some values =>
    dsimp only
    cases hdict : values.dict? with
    | none => exact .ask fun _ _ _ => .drop (by trivial) nofun
    | some opened =>
      have hopened : I.Spares (.dict opened) :=
        (hd.within (Value.within_of_get? hvalues)).within (Value.within_of_dict? hdict)
      refine .ask fun e e' hS => ?_
      have hscopes : e'.scopes = e.scopes := hS.scopes
      have hscope : I.Spares (.dict (e.scopes.head?.getD ∅)) := by
        cases hhead : e.scopes.head? with
        | none => exact .of_settled (n := 2) (.dict nofun nofun)
        | some scope => exact hS.spared scope (List.mem_of_head? hhead)
      rw [hscopes]
      refine .inNewScope (hscope.merge hopened) ?_
      exact mirrors_plain hnext hs hs' hinlined (hd.erase _) (d.not_mem_names_erase _)

/-- What is inside a value is settled, unless it is a text. -/
theorem mirrors_inside {v : Value} (hv : I.Spares v) :
    Mirrors fs (Beside I before before') (inside next v) (inside next' v)
      fun answer => ∀ w, answer = some w → w.Settled (n + 1) ∨ ∃ text, w = .string text := by
  have hopen {d : Dict Value} (hd : I.Spares (.dict d)) : Mirrors fs (Beside I before before') (next (.dict d))
      (next' (.dict d)) fun answer => ∀ w, answer = some w → w.Settled (n + 1) ∨ ∃ text, w = .string text :=
    (hnext (.dict d) hd).mono fun _ ha w hw => .inl (ha w hw)
  cases v with
  | dict d => exact hopen hv
  | block b =>
    rw [inside, inside]
    cases hload : b.load with
    | ok d => exact hopen (hv.within (.block hload .self))
    | error f => exact .ask fun _ _ _ => .drop (by trivial) (by rintro _ ⟨⟩)
  | saved p =>
    rw [inside, inside]
    split
    · rename_i hp
      cases hload : p.loadDict with
      | ok d => exact hopen (hv.within (.saved hp hload .self))
      | error f => exact .ask fun _ _ _ => .drop (by trivial) (by rintro _ ⟨⟩)
    · refine .pure ?_
      rintro _ ⟨⟩
      exact .inl (.blob ‹_›)
  | list vs =>
    refine (mirrors_items hnext (fun v hmem => hv.within (.item hmem .self)) 0).bind fun done hdone => .pure ?_
    rintro _ ⟨⟩
    exact .inl (.list hdone)
  | atom a =>
    refine .pure ?_
    rintro _ ⟨⟩
    by_cases htext : ∃ text, a = .string text
    · obtain ⟨text, rfl⟩ := htext
      exact .inr ⟨text, rfl⟩
    · exact .inl (.atom fun text heq => absurd ⟨text, heq⟩ htext)

theorem mirrors_named (hs : s.Of I) (hs' : s'.Of I) (text : String) :
    Mirrors fs (Beside I before before') (named next s text) (named next' s' text)
      fun answer => ∀ v, answer = some v → v.Settled (n + 1) := by
  unfold named
  cases hreserved : after? Key.reserved text with
  | some name =>
    refine .ask fun e e' hS => ?_
    have hscope : e'.inScope? name = e.inScope? name := hS.inScope? name
    rw [hscope]
    cases hin : e.inScope? name with
    | none => exact .drop (by trivial) nofun
    | some v => exact (hnext (.value v) (hS.spares_of_inScope? hin)).mono fun _ ha v hv => (ha.2 v hv).succ
  | none =>
    dsimp only
    cases hlocalized : after? Key.localized text with
    | some name =>
      dsimp only
      rw [hs.localize, hs'.localize]
      exact .drop (by trivial) nofun
    | none =>
      refine .pure ?_
      rintro _ ⟨⟩
      refine .atom ?_
      rintro _ ⟨⟩
      exact ⟨hreserved, hlocalized⟩

theorem mirrors_value (hs : s.Of I) (hs' : s'.Of I) {v : Value} (hv : I.Spares v) :
    Mirrors fs (Beside I before before') (value next s v) (value next' s' v) (Settles (n + 1) (.value v)) := by
  refine (mirrors_inside hnext hv).bind fun answer hanswer => ?_
  split
  · exact (mirrors_named hnext hs hs' _).mono fun _ ha => ⟨n.succ_pos, ha⟩
  · rename_i hother
    refine .pure ⟨n.succ_pos, fun w hw => (hanswer w hw).resolve_right ?_⟩
    rintro ⟨text, rfl⟩
    exact hother text hw

end
end Expanding

/-- With at least as much fuel, and in the setting of either description, a job that spares the file and what is not
the same after inlining is answered in the same way. -/
theorem mirrors_expandTo {I : Inlining fs base} {before before' : List Path} {s s' : Setting} (hs : s.Of I)
    (hs' : s'.Of I) (hinlined : I.Spares (.dict I.inlined)) {n m : Nat} (hle : n ≤ m) (job : Job)
    (hjob : I.Spares job.source) : Expanding.Mirrors fs (Expanding.Beside I before before') (expandTo s n job)
      (expandTo s' m job) (Expanding.Settles n job) := by
  induction n generalizing m job with
  | zero => exact fun _ _ _ _ _ hrun => nomatch hrun
  | succ n ih =>
    obtain ⟨m, rfl⟩ := Nat.exists_eq_add_of_lt hle
    have hnext (job : Job) (hjob : I.Spares job.source) := ih (m := n + m) (Nat.le_add_right n m) job hjob
    cases job with
    | dict d => exact Expanding.mirrors_dict hnext hs hs' hinlined hjob
    | value v => exact Expanding.mirrors_value hnext hs hs' hjob

end AssetPack
