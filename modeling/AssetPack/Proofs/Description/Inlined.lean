import AssetPack.Proofs.Description.Inlining
import AssetPack.Proofs.Dict.Reordered

/-!
# An import in place

An import is expanded on its own and then again with what stands over it. The second time changes nothing. So a
description is compiled like the one with the object of its import in place, provided that nothing in it uses the
file again or a template that is not the same in both, and that what it overrides of the object is expanded, too.
-/
namespace AssetPack
variable {fs : Files} {base : Path}

namespace Expanding
variable {α β : Type} {x : Expanding α} {c : Expansion}

/-- Wherever an expansion keeps what `c` keeps, `x` answers `a` and reports nothing. -/
def Clean (fs : Files) (x : Expanding α) (c : Expansion) (a : α) : Prop :=
  ∀ e, e.core = c.core → ∃ e₁, eval fs x e = some (a, e₁) ∧ e₁.issues = e.issues ∧ e₁.core = c.core

namespace Clean

theorem pure (a : α) : Clean fs (Pure.pure a) c a := fun e he => ⟨e, rfl, rfl, he⟩

theorem bind {f : α → Expanding β} {a : α} {b : β} (hx : Clean fs x c a) (hf : Clean fs (f a) c b) :
    Clean fs (x >>= f) c b := by
  intro e he
  obtain ⟨e₁, hfirst, hissues, hcore⟩ := hx e he
  obtain ⟨e₂, hsecond, hissues', hcore'⟩ := hf e₁ hcore
  exact ⟨e₂, (eval_bind_of hfirst).trans hsecond, hissues'.trans hissues, hcore'⟩

theorem within {a : α} (step : Step) (h : Clean fs x c a) : Clean fs (within step x) c a := by
  intro e he
  obtain ⟨e₁, hrun, hissues, hcore⟩ := h { e with trail := step :: e.trail } he
  refine ⟨{ e₁ with trail := e₁.trail.drop 1 }, ?_, hissues, hcore⟩
  rw [eval_within, hrun]
  rfl

theorem addFile (path : Path) : Clean fs (addFile path) c () :=
  fun e he => ⟨_, eval_addFile path e, rfl, (core_addFile path e).trans he⟩

theorem inImport {a : α} {path : Path} (h : Clean fs x { c with imports := c.imports ++ [path] } a) :
    Clean fs (inImport path x) c a := by
  intro e he
  obtain ⟨hscopes, htemplates, himports, hcontext⟩ := Expansion.core_eq_iff.mp he
  obtain ⟨e₁, hrun, hissues, hcore⟩ := h { e with imports := e.imports ++ [path] }
    (Expansion.core_eq_iff.mpr ⟨hscopes, htemplates, congrArg (· ++ [path]) himports, hcontext⟩)
  obtain ⟨hscopes, htemplates, himports, hcontext⟩ := Expansion.core_eq_iff.mp hcore
  refine ⟨{ e₁ with imports := e₁.imports.dropLast }, ?_, hissues,
    Expansion.core_eq_iff.mpr ⟨hscopes, htemplates, ?_, hcontext⟩⟩
  · rw [Expanding.inImport, eval_around, hrun]
    rfl
  · simp only [himports, List.dropLast_concat]

/-- What is answered cleanly is the one answer. -/
theorem unique {a b : α} (h : Clean fs x c a) (h' : Clean fs x c b) : a = b := by
  obtain ⟨_, hrun, _⟩ := h c rfl
  obtain ⟨_, hrun', _⟩ := h' c rfl
  exact congrArg Prod.fst (Option.some.inj (hrun.symm.trans hrun'))

end Clean

/-- What is mirrored and reports nothing is answered cleanly. -/
theorem Mirrors.clean {S : Expansion → Expansion → Prop} {y : Expanding α} {Q : α → Prop} (h : Mirrors fs S x y Q)
    {e e₁ : Expansion} (hS : S e.core c.core) {a : α} (hrun : eval fs x e = some (a, e₁))
    (hissues : e₁.issues = e.issues) : Clean fs y c a := by
  intro e' he'
  obtain ⟨_, _, _, hmirror⟩ := h e e' (he' ▸ hS) a e₁ hrun
  obtain ⟨e₁', hrun', hissues', hcore⟩ := hmirror hissues
  exact ⟨e₁', hrun', hissues', hcore.trans he'⟩

/-- Where an expansion keeps what `c` keeps, the value is expanded to `w` and nothing is reported. -/
def Comes (fs : Files) (s : Setting) (n : Nat) (c : Expansion) (v w : Value) : Prop :=
  Clean fs (expandTo s n (.value v)) c (some w)

variable {I : Inlining fs base} {before before' : List Path} {s s' : Setting} {n m : Nat} {c c' : Expansion}
  {v w : Value}

theorem comes_of_settled (h : v.Settled n) : Comes fs s n c v v :=
  fun e he => ⟨e, eval_expandTo_of_settled h e, rfl, he⟩

theorem Comes.mirror (hs : s.Of I) (hs' : s'.Of I) (hI : I.Spares (.dict I.inlined)) (hv : I.Spares v)
    (h : Comes fs s n c v w) (hc : Beside I before before' c.core c'.core) (hle : n ≤ m) : Comes fs s' m c' v w := by
  obtain ⟨e₁, hrun, hissues, _⟩ := h c rfl
  exact (mirrors_expandTo hs hs' hI hle (.value v) hv).clean hc hrun hissues

theorem Comes.settled (hs : s.Of I) (hI : I.Spares (.dict I.inlined)) (hv : I.Spares v) (h : Comes fs s n c v w)
    (hc : Beside I before before c.core c.core) : w.Settled n := by
  obtain ⟨e₁, hrun, _⟩ := h c rfl
  obtain ⟨_, _, ⟨_, hsettled⟩, _⟩ := mirrors_expandTo hs hs hI (le_refl n) (.value v) hv c c hc _ e₁ hrun
  exact hsettled w rfl

/-- An answer to a job that reports nothing is there. -/
theorem exists_answer {job : Job} {e e₁ : Expansion} {answer : Option Value}
    (hrun : eval fs (expandTo s n job) e = some (answer, e₁)) (hissues : e₁.issues = e.issues) :
    ∃ w, answer = some w := by
  obtain ⟨_, htells⟩ := tells_expandTo e₁.context.files s n job e answer e₁ hrun.symm
  obtain ⟨_, hanswered⟩ := htells hissues (List.Subset.refl _)
  cases job with
  | dict d => exact (hanswered trivial).imp fun _ h => h.1
  | value v => exact hanswered trivial

/-! ## Entries -/

theorem clean_entries {es done : List (String × Value)}
    (h : Dict.Related (Comes fs s n c) ⟨es⟩ ⟨done⟩) : Clean fs (entries (expandTo s n) es) c done := by
  change List.Forall₂ _ es done at h
  induction h with
  | nil => exact .pure []
  | @cons entry entry' _ _ hentry _ ih =>
    obtain ⟨hname, hcomes⟩ := hentry
    refine (Clean.within _ hcomes).bind (ih.bind ?_)
    rw [hname]
    exact .pure _

/-- Entries that are expanded without an issue come to their values one by one. -/
theorem related_of_entries (hs : s.Of I) (hI : I.Spares (.dict I.inlined)) (hc : Beside I before before c.core c.core)
    {es done : List (String × Value)} (hes : ∀ entry ∈ es, I.Spares entry.2) {e e₁ : Expansion}
    (he : e.core = c.core) (hrun : eval fs (entries (expandTo s n) es) e = some (done, e₁))
    (hissues : e₁.issues = e.issues) : Dict.Related (Comes fs s n c) ⟨es⟩ ⟨done⟩ := by
  induction es generalizing done e with
  | nil =>
    cases hrun
    exact .nil
  | cons entry rest ih =>
    obtain ⟨hentry, hrest⟩ := List.forall_mem_cons.mp hes
    have hnext (job : Job) (hjob : I.Spares job.source) :
        Mirrors fs (Beside I before before) (expandTo s n job) (expandTo s n job) (Settles n job) :=
      mirrors_expandTo hs hs hI (le_refl n) job hjob
    obtain ⟨answer, e', hfirst, hrun⟩ := exists_of_eval_bind hrun
    obtain ⟨done', e'', hsecond, hdone⟩ := exists_of_eval_bind hrun
    cases hdone
    have hwithin := (hnext (.value entry.2) hentry).within (.name entry.1)
    obtain ⟨hgrown, hcore, _⟩ := hwithin e c (he ▸ hc) answer e' hfirst
    obtain ⟨hgrown', _⟩ := mirrors_entries hnext hrest e' c (hcore.trans he ▸ hc) done' e₁ hsecond
    -- nothing was reported in between
    have hmiddle : e'.issues = e.issues := (hgrown.eq_of_length_le (hissues ▸ hgrown'.length_le)).symm
    have hrelated := ih hrest (hcore.trans he) hsecond (hissues.trans hmiddle.symm)
    rw [eval_within] at hfirst
    obtain ⟨⟨_, e₂⟩, hvalue, hback⟩ := Option.map_eq_some_iff.mp hfirst
    cases hback
    obtain ⟨w, rfl⟩ := exists_answer hvalue hmiddle
    exact .cons ⟨rfl, (hnext (.value entry.2) hentry).clean (he ▸ hc) hvalue hmiddle⟩ hrelated

end Expanding

/-! ## The object in its place -/

namespace Inlining
variable (I : Inlining fs base)

/-- What the description has besides the import and the values for the scope. -/
def own : Dict Value := (I.root.erase Key.imported).erase Key.values

/-- The scope that the description opens, if it opens one. -/
def scopes : List (Dict Value) :=
  match (I.root.get? Key.values).bind Value.dict? with
  | some values => [(∅ : Dict Value).merge values]
  | none => []

/-- An expansion of the description in its scope. -/
def opened (debug : Bool) : Expansion := { Expansion.start (.start base debug) with scopes := I.scopes }

/-- The same inside the import. -/
def inside (debug : Bool) : Expansion := { I.opened debug with imports := [I.path] }

/-- What the description overrides of the object. -/
def hidden : Dict Value := ⟨I.object.entries.filter fun entry => I.root.contains entry.1⟩

/-- What it overrides is expanded inside the import without an issue. -/
def HiddenExpands (debug : Bool) : Prop :=
  ∃ n w, Expanding.Clean fs (expandTo ⟨I.root, fun _ => none⟩ n (.dict I.hidden)) (I.inside debug) (some w)

/-- Neither the object nor what the description has besides the import makes use of the file, or of a template that
is not the same after inlining. -/
structure Apart : Prop where
  object : I.Spares (.dict I.object)
  own : I.Spares (.dict (I.root.erase Key.imported))

variable {I}

theorem Apart.inlined (h : I.Apart) : I.Spares (.dict I.inlined) := h.object.merge h.own

theorem own_bare : ∀ name ∈ I.own.names, name ∉ Key.directives := by
  intro name hname hdirective
  have himported : name ∈ (I.root.erase Key.imported).names := Dict.names_erase_subset _ _ hname
  have hroot : name ∈ I.root.names := Dict.names_erase_subset _ _ himported
  obtain ⟨htemplate, hbase⟩ := Dict.template?_eq_none_iff.mp I.noTemplate
  simp only [Key.directives, List.mem_cons, List.not_mem_nil, or_false] at hdirective
  rcases hdirective with rfl | rfl | rfl | rfl
  · exact Dict.not_mem_names_erase _ _ himported
  · exact htemplate hroot
  · exact hbase hroot
  · exact Dict.not_mem_names_erase _ _ hname

theorem merge_own_bare {d : Dict Value} (hd : ∀ name ∈ d.names, name ∉ Key.directives) :
    ∀ name ∈ (d.merge I.own).names, name ∉ Key.directives :=
  fun name hname => (Dict.mem_names_merge hname).elim (hd name) (own_bare name)

/-- The inlined description without the values for the scope. -/
theorem inlined_erase_values : I.inlined.erase Key.values = I.object.merge I.own := by
  have hobject : Key.values ∉ I.object.names := fun h => I.bare _ h (by decide)
  rw [inlined, Dict.erase_merge, Dict.erase_of_not_mem hobject, own]

theorem get?_values_inlined : I.inlined.get? Key.values = I.root.get? Key.values := by
  have hobject : I.object.get? Key.values = none := Dict.get?_eq_none_iff.mpr fun h => I.bare _ h (by decide)
  rw [inlined, Dict.get?_merge _ (Dict.distinct_erase I.distinct _), hobject, Option.or_none, Dict.get?_erase,
    if_neg (by decide)]

theorem get?_imported_erase_values : (I.root.erase Key.values).get? Key.imported = some (.string I.relative) := by
  rw [Dict.get?_erase, if_neg (by decide), I.imports]

theorem erase_values_erase_imported : (I.root.erase Key.values).erase Key.imported = I.own := Dict.erase_comm _ _ _

/-! ### Where the expansion is -/

theorem Apart.spares_scopes (hI : I.Apart) : ∀ scope ∈ I.scopes, I.Spares (.dict scope) := by
  rw [scopes]
  split
  · rename_i values hvalues
    obtain ⟨v, hget, hdict⟩ := Option.bind_eq_some_iff.mp hvalues
    have hown : (I.root.erase Key.imported).get? Key.values = some v := by rw [Dict.get?_erase, if_neg (by decide), hget]
    have hspared := (hI.own.within (Value.within_of_get? hown)).within (Value.within_of_dict? hdict)
    have hempty : I.Spares (.dict ∅) := .of_settled (n := 2) (.dict nofun nofun)
    exact List.forall_mem_singleton.mpr (hempty.merge hspared)
  · exact fun _ h => nomatch h

section
variable (hI : I.Apart) (debug : Bool)
include hI

theorem Apart.beside_opened : Expanding.Beside I [] [] (I.opened debug).core (I.opened debug).core :=
  ⟨rfl, rfl, ⟨[], rfl, rfl⟩, nofun, rfl, rfl, hI.spares_scopes⟩

theorem Apart.beside_inside : Expanding.Beside I [I.path] [I.path] (I.inside debug).core (I.inside debug).core := by
  refine ⟨rfl, rfl, ⟨[], rfl, rfl⟩, fun path h => ?_, rfl, rfl, hI.spares_scopes⟩
  simpa only [List.cons_append, List.nil_append, List.mem_cons, List.not_mem_nil, or_false, or_self] using h

theorem Apart.beside_leave : Expanding.Beside I [I.path] [] (I.inside debug).core (I.opened debug).core :=
  ⟨rfl, rfl, ⟨[], rfl, rfl⟩, fun _ h => List.mem_singleton.mp h, rfl, rfl, hI.spares_scopes⟩

theorem Apart.beside_enter : Expanding.Beside I [] [I.path] (I.opened debug).core (I.inside debug).core :=
  ⟨rfl, rfl, ⟨[], rfl, rfl⟩, fun _ h => List.mem_singleton.mp h, rfl, rfl, hI.spares_scopes⟩

end

/-! ### The import -/

open Expanding

variable {s : Setting} {n : Nat} {debug : Bool}

/-- The import of the object, where nothing is imported yet. -/
theorem eval_importFile (next : Job → Expanding (Option Value)) {e : Expansion}
    (he : e.core = (I.opened debug).core) : eval fs (importFile next I.relative) e = eval fs (do
      addFile I.path
      match (← inImport I.path (next (.dict I.object))).bind Value.dict? with
      | some d => return some d
      | none => drop (.importNotDict I.path) : Expanding (Option (Dict Value))) e := by
  obtain ⟨_, _, himports, hcontext⟩ := Expansion.core_eq_iff.mp he
  obtain ⟨hbase, _⟩ := Context.unlisted_eq_iff.mp hcontext
  have hbase : e.context.base = base := hbase
  have himports : e.imports = [] := himports
  have hpath : (Look.settle (Path.join base I.relative)).eval fs = I.path := rfl
  have hholds : fs.dict? I.path = some I.object := I.holds
  rw [Files.dict?] at hholds
  rw [importFile, eval_get_bind, hbase, eval_look_bind, hpath, eval_get_bind, himports, List.any_nil]
  rw [if_neg Bool.false_ne_true, eval_look_bind]
  cases htext : (Look.readText I.path).eval fs with
  | error error =>
    rw [htext] at hholds
    cases hholds
  | ok text =>
    rw [htext] at hholds
    dsimp only at hholds ⊢
    cases hparse : Json.parseDict text with
    | error fault =>
      rw [hparse] at hholds
      cases hholds
    | ok parsed =>
      rw [hparse] at hholds
      cases hholds
      rfl

/-- The object is imported if its entries are expanded inside the import. -/
theorem clean_importFile {d : Dict Value} (h : Dict.Related (Comes fs s n (I.inside debug)) I.object d) :
    Clean fs (importFile (expandTo s (n + 1)) I.relative) (I.opened debug) (some d) := by
  have hobject : Clean fs (expandTo s (n + 1) (.dict I.object)) (I.inside debug) (some (.dict d)) := by
    rw [expandTo, dict_of_bare I.bare]
    exact (clean_entries h).bind (.pure _)
  have himport := (Clean.inImport hobject).bind (f := fun w => match w.bind Value.dict? with
    | some d => return some d
    | none => drop (.importNotDict I.path)) (.pure (some d))
  intro e he
  obtain ⟨e₁, hrun, hissues, hcore⟩ := (Clean.addFile I.path).bind (f := fun _ => _) himport e he
  exact ⟨e₁, (eval_importFile _ he).trans hrun, hissues, hcore⟩

/-- What is imported has no directives, and if no issue is reported its entries were expanded inside the import. -/
theorem of_importFile (hI : I.Apart) (hs : s.Of I) {d : Dict Value} {e e₁ : Expansion}
    (he : e.core = (I.opened debug).core)
    (hrun : eval fs (importFile (expandTo s n) I.relative) e = some (some d, e₁)) :
    (∀ name ∈ d.names, name ∉ Key.directives) ∧ I.Spares (.dict d) ∧ e.issues <+: e₁.issues ∧ e₁.core = e.core ∧
      (e₁.issues = e.issues → ∃ k, n = k + 1 ∧ Dict.Related (Comes fs s k (I.inside debug)) I.object d) := by
  rw [eval_importFile _ he, eval_bind_of (eval_addFile I.path e)] at hrun
  obtain ⟨answer, e₂, himport, hrun⟩ := exists_of_eval_bind hrun
  rw [inImport, eval_around] at himport
  obtain ⟨⟨_, e₃⟩, hobject, hback⟩ := Option.map_eq_some_iff.mp himport
  cases hback
  cases n with
  | zero => cases hobject
  | succ k =>
    rw [expandTo, dict_of_bare I.bare] at hobject
    obtain ⟨done, e₄, hentries, hdone⟩ := exists_of_eval_bind hobject
    cases hdone
    cases hrun
    obtain ⟨hscopes, htemplates, himports, hcontext⟩ := Expansion.core_eq_iff.mp he
    have hinside : ({ e with
        imports := e.imports ++ [I.path], context := (e.context.addFile e.root? I.path).eval fs } : Expansion).core =
          (I.inside debug).core := Expansion.core_eq_iff.mpr
      ⟨hscopes, htemplates, congrArg (· ++ [I.path]) himports, (Context.unlisted_addFile _ _ _).trans hcontext⟩
    have hspared : ∀ entry ∈ I.object.entries, I.Spares entry.2 :=
      fun entry hentry => hI.object.within (.entry hentry .self)
    have hbeside := hI.beside_inside debug
    obtain ⟨hgrown, hcore, ⟨hnames, hsettled⟩, _⟩ :=
      mirrors_entries (mirrors_expandTo hs hs hI.inlined (le_refl k)) hspared _ _ (hinside ▸ hbeside) _ _ hentries
    have hbare : ∀ name ∈ (⟨done⟩ : Dict Value).names, name ∉ Key.directives := by
      intro name hname
      obtain ⟨entry, hentry, rfl⟩ := List.mem_map.mp hname
      exact I.bare _ (hnames entry hentry)
    refine ⟨hbare, .of_settled (.dict hbare hsettled), hgrown, ?_, fun hissues => ⟨k, rfl, ?_⟩⟩
    · obtain ⟨hscopes, htemplates, himports, hcontext⟩ := Expansion.core_eq_iff.mp hcore
      refine Expansion.core_eq_iff.mpr ⟨hscopes, htemplates, ?_, hcontext.trans (Context.unlisted_addFile _ _ _)⟩
      simp only [himports, List.dropLast_concat]
    · exact related_of_entries hs hI.inlined hbeside hspared hinside hentries hissues

/-- The description is expanded if its object is and then, with its own entries over it, the whole. -/
theorem clean_plain {d out : Dict Value} (hd : Dict.Related (Comes fs s n (I.inside debug)) I.object d)
    (hout : Dict.Related (Comes fs s (n + 1) (I.opened debug)) (d.merge I.own) out) :
    Clean fs (plain (expandTo s (n + 1)) s (I.root.erase Key.values)) (I.opened debug) (some (.dict out)) := by
  have hbare : ∀ name ∈ (d.merge I.own).names, name ∉ Key.directives := merge_own_bare (hd.names ▸ I.bare)
  have himported : Clean fs (imported (expandTo s (n + 1)) (I.root.erase Key.values)) (I.opened debug)
      (some (d.merge I.own)) := by
    rw [imported, get?_imported_erase_values, ← erase_values_erase_imported]
    exact (clean_importFile hd).bind (.pure _)
  rw [plain]
  refine himported.bind ?_
  dsimp only
  rw [get?_of_bare hbare (mem_directives_templateKey _)]
  exact (clean_entries hout).bind (.pure _)

theorem of_plain (hI : I.Apart) (hs : s.Of I) {v : Value} {e e₁ : Expansion} (he : e.core = (I.opened debug).core)
    (hrun : eval fs (plain (expandTo s n) s (I.root.erase Key.values)) e = some (some v, e₁))
    (hissues : e₁.issues = e.issues) : ∃ k d out, n = k + 1 ∧ v = .dict out ∧
      Dict.Related (Comes fs s k (I.inside debug)) I.object d ∧
        Dict.Related (Comes fs s (k + 1) (I.opened debug)) (d.merge I.own) out := by
  have hbeside := hI.beside_opened debug
  obtain ⟨whole, e₂, himported, hrest⟩ := exists_of_eval_bind hrun
  rw [imported, get?_imported_erase_values, erase_values_erase_imported] at himported
  obtain ⟨found, e₃, hfound, hmerged⟩ := exists_of_eval_bind himported
  cases found with
  | none =>
    cases hmerged
    cases hrest
  | some d =>
    cases hmerged
    obtain ⟨hbare, hspared, hgrown, hcore, hrelated⟩ := of_importFile hI hs he hfound
    have hmerged := merge_own_bare (I := I) hbare
    dsimp only at hrest
    rw [get?_of_bare hmerged (mem_directives_templateKey _)] at hrest
    obtain ⟨done, e₄, hentries, hdone⟩ := exists_of_eval_bind hrest
    cases hdone
    have hentry : ∀ entry ∈ (d.merge I.own).entries, I.Spares entry.2 :=
      fun entry hmem => (hspared.merge (hI.own.erase _)).within (.entry hmem .self)
    have hcore : e₂.core = (I.opened debug).core := hcore.trans he
    obtain ⟨hgrown', _⟩ := mirrors_entries (mirrors_expandTo hs hs hI.inlined (le_refl n)) hentry _ _
      (hcore ▸ hbeside) _ _ hentries
    -- nothing was reported while the object was imported
    have hmiddle : e₂.issues = e.issues := (hgrown.eq_of_length_le (hissues ▸ hgrown'.length_le)).symm
    obtain ⟨k, rfl, hd⟩ := hrelated hmiddle
    exact ⟨k, d, _, rfl, rfl, hd,
      related_of_entries hs hI.inlined hbeside hentry hcore hentries (hissues.trans hmiddle.symm)⟩

/-! ### With the object in its place -/

theorem clean_plain_inlined {out : Dict Value}
    (h : Dict.Related (Comes fs s n (I.opened debug)) (I.object.merge I.own) out) :
    Clean fs (plain (expandTo s n) s (I.inlined.erase Key.values)) (I.opened debug) (some (.dict out)) := by
  rw [inlined_erase_values, plain_of_bare (merge_own_bare I.bare)]
  exact (clean_entries h).bind (.pure _)

theorem of_plain_inlined (hI : I.Apart) (hs : s.Of I) {v : Value} {e e₁ : Expansion}
    (he : e.core = (I.opened debug).core)
    (hrun : eval fs (plain (expandTo s n) s (I.inlined.erase Key.values)) e = some (some v, e₁))
    (hissues : e₁.issues = e.issues) : ∃ out, v = .dict out ∧
      Dict.Related (Comes fs s n (I.opened debug)) (I.object.merge I.own) out := by
  rw [inlined_erase_values, plain_of_bare (merge_own_bare I.bare)] at hrun
  obtain ⟨done, e₂, hentries, hdone⟩ := exists_of_eval_bind hrun
  cases hdone
  exact ⟨_, rfl, related_of_entries hs hI.inlined (hI.beside_opened debug)
    (fun entry hmem => (hI.object.merge (hI.own.erase _)).within (.entry hmem .self)) he hentries hissues⟩

end Inlining
end AssetPack
