import AssetPack.Proofs.Description.Inert
import AssetPack.Proofs.Files.Later
import AssetPack.Proofs.Json.Written
import Mathlib.Data.Finset.Card
import Mathlib.Data.Set.Finite.Lattice

/-!
# Expansions that end

An expansion that goes into a template or an import keeps it until it has come back, and goes into none that it is in.
The names of both are texts of the description and of the files, which are finitely many. So the templates and the
imports that it is not in grow fewer, and between two of them it goes down in a value. A text that stands for a value
in scope leads up again; but if no such value has a text of the kind in it, from there it goes down only.
-/
namespace AssetPack

/-! ## What is put in scope, and what is named -/

namespace Value

/-- At no depth a text stands for a value in scope. -/
def Free (v : Value) : Prop := v.Throughout fun
  | .string text => after? Key.reserved text = none
  | _ => True

end Value

/-- The values that a field puts in scope are free. -/
def BindsFree (entry : String × Value) : Prop :=
  entry.1 = Key.values → ∀ values, entry.2.dict? = some values → ∀ b ∈ values.entries, b.2.Free

theorem bindsFree_string (name text : String) : BindsFree (name, .string text) := by
  rintro - values ⟨⟩

theorem bindsFree_iff {name : String} {d : Dict Value} :
    BindsFree (name, .dict d) ↔ (name = Key.values → ∀ b ∈ d.entries, b.2.Free) := by
  rw [BindsFree]
  exact forall_congr' fun _ => ⟨fun h => h d rfl, fun h values hvalues => Option.some.inj hvalues ▸ h⟩

/-- So are all values that are put in scope, at every depth. -/
def Value.BindsFree (v : Value) : Prop := v.Dicts fun d => ∀ entry ∈ d.entries, AssetPack.BindsFree entry

/-- The values that a field puts in scope are free, and if it names a template or a file, it is one of `names`. -/
structure FitField (names : Finset String) (entry : String × Value) : Prop where
  binds : BindsFree entry
  names : entry.1 ∈ [Key.imported, Key.template, Key.base] → ∀ text, entry.2 = .string text → text ∈ names

theorem FitField.of_not_directive {names : Finset String} {entry : String × Value} (h : entry.1 ∉ Key.directives) :
    FitField names entry := by
  refine ⟨fun hkey => (h ?_).elim, fun hkey => (h ?_).elim⟩
  · rw [hkey]
    decide
  · exact List.mem_append_left [Key.values] hkey

/-- Every field at every depth is so. -/
def Value.Fit (names : Finset String) (v : Value) : Prop := v.Dicts fun d => ∀ entry ∈ d.entries, FitField names entry

namespace Value
variable {names : Finset String} {v : Value} {b d : Dict Value}

theorem bindsFree_atom (a : Atom) : (atom a).BindsFree := throughout_atom.mpr trivial

/-- What holds of all fields holds of those of the dictionary and of all inside its entries. -/
theorem dicts_entries {P : String × Value → Prop} : (dict d).Dicts (fun e => ∀ entry ∈ e.entries, P entry) ↔
    ∀ entry ∈ d.entries, P entry ∧ entry.2.Dicts fun e => ∀ entry ∈ e.entries, P entry := by
  refine throughout_dict.trans ⟨fun h entry hentry => ⟨h.1 entry hentry, h.2 entry hentry⟩, fun h => ⟨?_, ?_⟩⟩
  · exact fun entry hentry => (h entry hentry).1
  · exact fun entry hentry => (h entry hentry).2

theorem bindsFree_dict : (dict d).BindsFree ↔ ∀ entry ∈ d.entries, AssetPack.BindsFree entry ∧ entry.2.BindsFree :=
  dicts_entries

theorem free_dict : (dict d).Free ↔ ∀ entry ∈ d.entries, entry.2.Free := throughout_dict.trans (and_iff_right trivial)

theorem fit_dict : (dict d).Fit names ↔ ∀ entry ∈ d.entries, FitField names entry ∧ entry.2.Fit names := dicts_entries

theorem Fit.merge (hb : (dict b).Fit names) (hd : (dict d).Fit names) : (dict (b.merge d)).Fit names :=
  fit_dict.mpr fun entry hentry => (Dict.mem_setAll hentry).elim (fit_dict.mp hb entry) (fit_dict.mp hd entry)

theorem Fit.erase (hd : (dict d).Fit names) (key : String) : (dict (d.erase key)).Fit names :=
  fit_dict.mpr fun entry hentry => fit_dict.mp hd entry (List.mem_of_mem_filter hentry)

theorem Inert.fit (h : v.Inert) : v.Fit names := by
  intro u hu
  have hhere := h u hu
  cases u with
  | dict d => exact fun entry hentry => .of_not_directive (hhere _ (List.mem_map_of_mem hentry))
  | _ => trivial

theorem Free.within {u : Value} (h : v.Free) (hu : u.Within v) : u.Free := fun w hw => h w (hw.trans hu)

theorem Fit.within {u : Value} (h : v.Fit names) (hu : u.Within v) : u.Fit names := fun w hw => h w (hw.trans hu)

/-- What is put in scope over free values gives free values. -/
theorem Free.merge (hb : (dict b).Free) (hd : ∀ entry ∈ d.entries, entry.2.Free) : (dict (b.merge d)).Free :=
  throughout_dict.mpr ⟨trivial, fun entry hentry =>
    (Dict.mem_setAll hentry).elim ((throughout_dict.mp hb).2 entry) (hd entry)⟩

end Value

/-! ## Room for templates and imports -/

/-- Each is one of the things in `s`, and none stands twice. -/
def DrawnFrom {α : Type} (s : Finset α) (as : List α) : Prop := as.Nodup ∧ ∀ a ∈ as, a ∈ s

namespace DrawnFrom
variable {α : Type} {s : Finset α} {as : List α} {a : α}

theorem nil (s : Finset α) : DrawnFrom s [] := ⟨List.nodup_nil, List.forall_mem_nil _⟩

/-- If something is left to be drawn, they are fewer. -/
theorem length_lt [DecidableEq α] (h : DrawnFrom s as) (ha : a ∈ s) (hnew : a ∉ as) : as.length < s.card := by
  have hsubset : (a :: as).toFinset ⊆ s := fun b hb => by
    rcases List.mem_cons.mp (List.mem_toFinset.mp hb) with rfl | hb
    · exact ha
    · exact h.2 b hb
  have hcard := Finset.card_le_card hsubset
  rwa [List.toFinset_card_of_nodup (List.nodup_cons.mpr ⟨hnew, h.1⟩)] at hcard

theorem concat (h : DrawnFrom s as) (ha : a ∈ s) (hnew : a ∉ as) : DrawnFrom s (as ++ [a]) := by
  refine ⟨List.nodup_append.mpr ⟨h.1, List.nodup_singleton a, fun b hb c hc hbc => ?_⟩, fun b hb => ?_⟩
  · exact hnew (List.mem_singleton.mp hc ▸ hbc ▸ hb)
  · rcases List.mem_append.mp hb with hb | hb
    · exact h.2 b hb
    · exact List.mem_singleton.mp hb ▸ ha

end DrawnFrom

/-- What an expansion can be in: templates of these names and files at these paths, where relative paths start from
`base`. -/
structure Reach where
  names : Finset String
  paths : Finset Path
  base : Path

namespace Expansion
variable {e e' : Expansion} {r : Reach}

/-- What is in scope is free, and the expansion is in templates and imports that it can reach, each once. -/
structure Sound (r : Reach) (e : Expansion) : Prop where
  scopes : ∀ scope ∈ e.scopes, (Value.dict scope).Free ∧ (Value.dict scope).Fit r.names
  templates : DrawnFrom r.names e.templates
  imports : DrawnFrom r.paths e.imports
  base : e.context.base = r.base

/-- How many templates and imports the expansion is not in. -/
def room (r : Reach) (e : Expansion) : Nat :=
  (r.names.card - e.templates.length) + (r.paths.card - e.imports.length)

theorem Same.room (h : e.Same e') : e'.room r = e.room r := by
  rw [Expansion.room, Expansion.room, h.templates, h.imports]

namespace Sound
variable (h : e.Sound r)
include h

theorem same (hsame : e.Same e') : e'.Sound r where
  scopes := hsame.scopes ▸ h.scopes
  templates := hsame.templates ▸ h.templates
  imports := hsame.imports ▸ h.imports
  base := hsame.base.trans h.base

/-- In one more template there is less room. -/
theorem inTemplate {t : String} (ht : t ∈ r.names) (hnew : t ∉ e.templates) :
    Sound r { e with templates := e.templates ++ [t] } ∧
      room r { e with templates := e.templates ++ [t] } < e.room r := by
  refine ⟨⟨h.scopes, h.templates.concat ht hnew, h.imports, h.base⟩, ?_⟩
  have hlt := h.templates.length_lt ht hnew
  rw [room, room, List.length_append, List.length_singleton]
  dsimp only
  omega

theorem inImport {p : Path} (hp : p ∈ r.paths) (hnew : p ∉ e.imports) :
    Sound r { e with imports := e.imports ++ [p] } ∧ room r { e with imports := e.imports ++ [p] } < e.room r := by
  refine ⟨⟨h.scopes, h.templates, h.imports.concat hp hnew, h.base⟩, ?_⟩
  have hlt := h.imports.length_lt hp hnew
  rw [room, room, List.length_append, List.length_singleton]
  dsimp only
  omega

theorem inNewScope {values : Dict Value} (hfree : ∀ b ∈ values.entries, b.2.Free)
    (hfit : (Value.dict values).Fit r.names) :
    Sound r { e with scopes := (e.scopes.head?.getD ∅).merge values :: e.scopes } := by
  refine ⟨List.forall_mem_cons.mpr ⟨?_, h.scopes⟩, h.templates, h.imports, h.base⟩
  cases hscopes : e.scopes.head? with
  | none =>
    exact ⟨.merge (Value.free_dict.mpr (List.forall_mem_nil _)) hfree,
      .merge (Value.fit_dict.mpr (List.forall_mem_nil _)) hfit⟩
  | some scope =>
    obtain ⟨hscope, hscope'⟩ := h.scopes scope (List.mem_of_head? hscopes)
    exact ⟨hscope.merge hfree, hscope'.merge hfit⟩

theorem inScope {name : String} {v : Value} (hv : e.inScope? name = some v) : v.Free ∧ v.Fit r.names := by
  obtain ⟨scope, hscope, hfind⟩ := Option.bind_eq_some_iff.mp hv
  obtain ⟨hfree, hfit⟩ := h.scopes scope (List.mem_of_head? hscope)
  exact ⟨hfree.within (Value.within_of_find? hfind), hfit.within (Value.within_of_find? hfind)⟩

end Sound

end Expansion

/-! ## All that can be reached -/

def Job.Fit (names : Finset String) : Job → Prop
  | .dict d => (Value.dict d).Fit names
  | .value v => v.Fit names

/-- The root and every file that can be imported name only what can be reached, and what they put in scope is free.
Localized values lead nowhere. -/
structure Reach.Grounded (r : Reach) (fs : Files) (s : Setting) : Prop where
  root : (Value.dict s.root).Fit r.names
  files : ∀ path d, fs.dict? path = some d → (Value.dict d).Fit r.names
  paths : ∀ relative ∈ r.names, fs.settled r.base relative ∈ r.paths
  localized : ∀ name v, s.localize name = some v → v.Inert

namespace Expanding
variable {fs : Files} {s : Setting} {r : Reach} {e : Expansion}

/-- With less room every job ends. -/
def EndsBelow (fs : Files) (s : Setting) (r : Reach) (room : Nat) : Prop :=
  ∀ job e, job.Fit r.names → Expansion.Sound r e → e.room r < room → JobEnds fs s job e

section
variable (hg : r.Grounded fs s) (he : e.Sound r) (hless : EndsBelow fs s r (e.room r))
include hg he hless

theorem ends_importFile {relative : Path} (hrelative : relative ∈ r.names) :
    Ends fs (fun fuel => importFile (expandTo s fuel) relative) e fun found => ∀ d ∈ found, (Value.dict d).Inert := by
  have hpath : (Look.settle (Path.join e.context.base relative)).eval fs ∈ r.paths :=
    he.base ▸ hg.paths relative hrelative
  simp only [importFile]
  refine .ask (.look _ (.ask ?_))
  generalize (Look.settle (Path.join e.context.base relative)).eval fs = path at hpath ⊢
  by_cases hin : e.imports.any (Path.same path) = true
  · simp only [if_pos hin]
    exact .drop _
  · simp only [if_neg hin]
    refine .look _ ?_
    cases htext : (Look.readText path).eval fs with
    | error error => exact .drop _
    | ok text =>
      dsimp only
      cases hparsed : Json.parseDict text with
      | error fault => exact .drop _
      | ok parsed =>
        have hdict : fs.dict? path = some parsed := by
          rw [Files.dict?, htext]
          dsimp only
          rw [hparsed]
          rfl
        refine (Ends.addFile path).bind fun _ e' hsame _ => ?_
        have hnew : path ∉ e'.imports := by
          rw [hsame.imports]
          exact fun hmem => hin (List.any_eq_true.mpr ⟨path, hmem, decide_eq_true rfl⟩)
        obtain ⟨hsound, hroom⟩ := (he.same hsame).inImport hpath hnew
        have hends := hless (.dict parsed) _ (hg.files path parsed hdict) hsound (hsame.room ▸ hroom)
        refine (Ends.inImport path hends).bind fun answer _ _ hanswer => ?_
        cases hbase : answer.bind Value.dict? with
        | none => exact .drop _
        | some base =>
          obtain ⟨v, hv, hdict⟩ := Option.bind_eq_some_iff.mp hbase
          refine .pure fun d hd => ?_
          cases hd
          exact (hanswer v hv).within (Value.within_of_dict? hdict)

/-- Set over what it imports, a dictionary has its own entries and others that lead nowhere. -/
theorem ends_imported {d : Dict Value} (hd : (Value.dict d).Fit r.names) :
    Ends fs (fun fuel => imported (expandTo s fuel) d) e fun whole => ∀ w ∈ whole, Key.imported ∉ w.names ∧
      ∀ entry ∈ w.entries, entry ∈ d.entries ∨ entry.1 ∉ Key.directives ∧ entry.2.Inert := by
  simp only [imported]
  cases hfield : d.get? Key.imported with
  | none =>
    refine .pure fun w hw => ?_
    cases hw
    exact ⟨Dict.get?_eq_none_iff.mp hfield, fun entry hentry => .inl hentry⟩
  | some v =>
    cases v with
    | atom a =>
      cases a with
      | string relative =>
        have hrelative : relative ∈ r.names :=
          (Value.fit_dict.mp hd _ (Dict.mem_of_get? hfield)).1.names List.mem_cons_self relative rfl
        refine (ends_importFile hg he hless hrelative).bind fun found _ _ hfound => ?_
        cases found with
        | none => exact .nothing
        | some base =>
          obtain ⟨hnames, hentries⟩ := Value.inert_dict.mp (hfound base rfl)
          refine .pure fun w hw => ?_
          cases hw
          refine ⟨fun hmem => ?_, fun entry hentry => ?_⟩
          · exact (Dict.mem_names_merge hmem).elim (fun h => hnames _ h (by decide)) (Dict.not_mem_names_erase _ _)
          · rcases Dict.mem_setAll hentry with hentry | hentry
            · exact .inr ⟨hnames _ (List.mem_map_of_mem hentry), hentries entry hentry⟩
            · exact .inl (List.mem_of_mem_filter hentry)
      | _ => exact .ask (.drop _)
    | _ => exact .ask (.drop _)

/-- A dictionary set over its template is expanded in one more template. -/
theorem ends_overTemplate {template : String} (htemplate : template ∈ r.names) {d : Dict Value}
    (hd : (Value.dict d).Fit r.names) :
    Ends fs (fun fuel => overTemplate (expandTo s fuel) s template d) e fun answer => ∀ v ∈ answer, v.Inert := by
  simp only [overTemplate]
  refine .ask ?_
  by_cases hin : template ∈ e.templates
  · simp only [if_pos hin]
    exact .drop _
  · simp only [if_neg hin]
    obtain ⟨hsound, hroom⟩ := he.inTemplate htemplate hin
    cases hfound : (e.inScope? template).orElse fun _ => s.root.find? template with
    | none => exact .drop _
    | some found =>
      have hfit : found.Fit r.names := by
        rw [Option.orElse_eq_or, Option.or_eq_some_iff] at hfound
        rcases hfound with hscope | ⟨_, hroot⟩
        · exact (he.inScope hscope).2
        · exact hg.root.within (Value.within_of_find? hroot)
      refine .inTemplate template ?_
      cases hbase : found.dictValue?.bind Value.dict? with
      | some base => exact hless (.dict _) _ ((hfit.within (.of_opened hbase .self)).merge hd) hsound hroom
      | none =>
        by_cases hempty : d.isEmpty
        · simp only [if_pos hempty]
          exact hless (.value found) _ hfit hsound hroom
        · simp only [if_neg hempty]
          exact .drop _

theorem ends_plain {d : Dict Value} (hd : (Value.dict d).Fit r.names) (hvalues : Key.values ∉ d.names)
    (hentries : ∀ entry ∈ d.entries, ∀ e', e.Same e' → JobEnds fs s (.value entry.2) e') :
    Ends fs (fun fuel => plain (expandTo s fuel) s d) e fun answer => ∀ v ∈ answer, v.Inert := by
  refine (ends_imported hg he hless hd).bind fun whole e' hsame hwhole => ?_
  cases whole with
  | none => exact .nothing
  | some w =>
    obtain ⟨himported, hover⟩ := hwhole w rfl
    have hw : (Value.dict w).Fit r.names := Value.fit_dict.mpr fun entry hentry =>
      (hover entry hentry).elim (Value.fit_dict.mp hd entry) fun h => ⟨.of_not_directive h.1, h.2.fit⟩
    dsimp only
    cases htemplate : w.get? (templateKey w) with
    | none =>
      obtain ⟨hnotemplate, hnobase⟩ := Dict.template?_eq_none_iff.mp htemplate
      refine ends_dict_entries (fun name hname hkey => ?_) fun entry hentry e'' hsame' => ?_
      · obtain ⟨entry, hentry, rfl⟩ := List.mem_map.mp hname
        rcases hover entry hentry with hentry | ⟨hnone, _⟩
        · simp only [Key.directives, List.mem_cons, List.not_mem_nil, or_false] at hkey
          rcases hkey with hkey | hkey | hkey | hkey
          · exact himported (hkey ▸ hname)
          · exact hnotemplate (hkey ▸ hname)
          · exact hnobase (hkey ▸ hname)
          · exact hvalues (hkey ▸ List.mem_map_of_mem hentry)
        · exact hnone hkey
      · rcases hover entry hentry with hentry | ⟨_, hinert⟩
        · exact hentries entry hentry e'' (hsame.trans hsame')
        · exact jobEnds_of_inert hg.localized hinert e''
    | some v =>
      cases v with
      | atom a =>
        cases a with
        | string template =>
          have hmem : templateKey w ∈ [Key.imported, Key.template, Key.base] := by
            rcases Dict.templateKey_cases w with ⟨hkey, _⟩ | ⟨hkey, _⟩ <;> rw [hkey] <;> decide
          have hnames := (Value.fit_dict.mp hw _ (Dict.mem_of_get? htemplate)).1.names hmem template rfl
          exact ends_overTemplate hg (he.same hsame) (hsame.room ▸ hless) hnames (hw.erase _)
        | _ => exact .ask (.drop _)
      | _ => exact .ask (.drop _)

end

section
variable (hg : r.Grounded fs s)
include hg

/-- A dictionary ends where its entries do. -/
theorem jobEnds_dict (he : e.Sound r) (hless : EndsBelow fs s r (e.room r)) {d : Dict Value}
    (hd : (Value.dict d).Fit r.names)
    (hentries : ∀ entry ∈ d.entries, ∀ e', e'.Sound r → e'.room r = e.room r → JobEnds fs s (.value entry.2) e') :
    JobEnds fs s (.dict d) e := by
  refine .of_level ?_
  simp only [expandTo, dict]
  cases hvalues : d.get? Key.values with
  | none =>
    exact ends_plain hg he hless hd (Dict.get?_eq_none_iff.mp hvalues) fun entry hentry e' hsame =>
      hentries entry hentry e' (he.same hsame) hsame.room
  | some values =>
    dsimp only
    cases hopen : values.dict? with
    | none => exact .ask (.drop _)
    | some bound =>
      have hfield := Value.fit_dict.mp hd _ (Dict.mem_of_get? hvalues)
      have hsound := he.inNewScope (hfield.1.binds rfl bound hopen) (hfield.2.within (Value.within_of_dict? hopen))
      refine .ask (.inNewScope _ ?_)
      refine ends_plain hg hsound hless (hd.erase _) (Dict.not_mem_names_erase _ _) fun entry hentry e' hsame => ?_
      exact hentries entry (List.mem_of_mem_filter hentry) e' (hsound.same hsame) hsame.room

/-- A value ends if all free values do in states with as much room, or if it is free itself. -/
theorem jobEnds_of_fit {room : Nat} (hless : EndsBelow fs s r room) {v : Value} (hv : v.Fit r.names)
    (hscope : v.Free ∨ ∀ u : Value, u.Free → u.Fit r.names → ∀ e, Expansion.Sound r e → e.room r = room →
      JobEnds fs s (.value u) e) (e : Expansion) (he : e.Sound r) (hroom : e.room r = room) :
    JobEnds fs s (.value v) e ∧ ∀ d, v.opened? = some d → JobEnds fs s (.dict d) e := by
  induction v using Value.induction_carried generalizing e with
  | list items ih =>
    refine ⟨jobEnds_list hg.localized fun u hu e' hsame => ?_, fun d hd => by cases hd⟩
    have hwithin : u.Within (.list items) := .item hu .self
    exact (ih u hu (hv.within hwithin) (hscope.imp_left (·.within hwithin)) e' (he.same hsame)
      (hsame.room.trans hroom)).1
  | dict v d hd ih =>
    have hdict : JobEnds fs s (.dict d) e := by
      refine jobEnds_dict hg he (hroom ▸ hless) (hv.within (.of_opened hd .self)) fun entry hentry e' he' hroom' => ?_
      have hwithin : entry.2.Within v := .of_opened hd (.entry hentry .self)
      exact (ih entry hentry (hv.within hwithin) (hscope.imp_left (·.within hwithin)) e' he' (hroom'.trans hroom)).1
    refine ⟨jobEnds_carrier hg.localized hd hdict, fun d' hd' => ?_⟩
    cases hd.symm.trans hd'
    exact hdict
  | other v hlist hd =>
    refine ⟨?_, fun d hd' => by cases hd.symm.trans hd'⟩
    by_cases htext : ∃ text, v = .string text
    · obtain ⟨text, rfl⟩ := htext
      refine jobEnds_string hg.localized fun name hname u hu => ?_
      obtain ⟨hfree, hfit⟩ := he.inScope hu
      rcases hscope with hnone | hall
      · cases Eq.trans hnone.here.symm hname
      · exact hall u hfree hfit e he hroom
    · exact jobEnds_other hg.localized hlist hd (Value.inert_of_other hlist hd fun text h => htext ⟨text, h⟩)

theorem endsBelow (room : Nat) : EndsBelow fs s r room := by
  induction room with
  | zero => exact fun _ _ _ _ hlt => (Nat.not_lt_zero _ hlt).elim
  | succ room ih =>
    intro job e hjob he hlt
    rcases Nat.lt_succ_iff_lt_or_eq.mp hlt with hlt | hroom
    · exact ih job e hjob he hlt
    · have hfree (u : Value) (hu : u.Free) (hfit : u.Fit r.names) (e : Expansion) (he : e.Sound r)
          (hroom : e.room r = room) : JobEnds fs s (.value u) e := (jobEnds_of_fit hg ih hfit (.inl hu) e he hroom).1
      cases job with
      | dict d => exact (jobEnds_of_fit hg ih (v := .dict d) hjob (.inr hfree) e he hroom).2 d rfl
      | value v => exact (jobEnds_of_fit hg ih hjob (.inr hfree) e he hroom).1

end
end Expanding

/-! ## Finitely many files -/

theorem Value.finite_texts (v : Value) : {text | (Value.string text).Within v}.Finite := by
  induction v using Value.induction_opened with
  | atom a =>
    refine Set.Subsingleton.finite fun text htext other hother => ?_
    cases htext
    cases hother
    rfl
  | list items ih =>
    refine (items.finite_toSet.biUnion ih).subset fun text htext => ?_
    cases htext with
    | item hmem hwithin => exact Set.mem_biUnion hmem hwithin
  | dict d ih =>
    refine (d.entries.finite_toSet.biUnion ih).subset fun text htext => ?_
    cases htext with
    | entry hmem hwithin => exact Set.mem_biUnion hmem hwithin
  | block b ih =>
    cases hload : b.load with
    | ok d =>
      refine (ih d hload).subset fun text htext => ?_
      cases htext with
      | block hload' hwithin =>
        cases hload.symm.trans hload'
        exact hwithin
    | error f =>
      refine Set.finite_empty.subset fun text htext => ?_
      cases htext with
      | block hload' _ => cases hload.symm.trans hload'
  | saved p ih =>
    cases hload : p.loadDict with
    | ok d =>
      by_cases hp : p.content = .dict
      · refine (ih hp d hload).subset fun text htext => ?_
        cases htext with
        | saved _ hload' hwithin =>
          cases hload.symm.trans hload'
          exact hwithin
      · refine Set.finite_empty.subset fun text htext => ?_
        cases htext with
        | saved hp' _ _ => exact (hp hp').elim
    | error f =>
      refine Set.finite_empty.subset fun text htext => ?_
      cases htext with
      | saved _ hload' _ => cases hload.symm.trans hload'

namespace Files
variable {fs : Files}

theorem exists_of_dict? {path : Path} {d : Dict Value} (h : fs.dict? path = some d) :
    ∃ bs text, fs.read path = .ok bs ∧ bs.toString? = some text ∧ Json.parseDict text = .ok d := by
  rw [dict?, Look.eval_readText] at h
  cases hread : fs.read path with
  | error e =>
    rw [hread] at h
    cases h
  | ok bs =>
    rw [hread] at h
    dsimp only at h
    cases htext : bs.toString? with
    | none =>
      rw [htext] at h
      cases h
    | some text =>
      rw [htext] at h
      dsimp only at h
      cases hparsed : Json.parseDict text with
      | error fault =>
        rw [hparsed] at h
        cases h
      | ok parsed =>
        rw [hparsed] at h
        cases h
        exact ⟨bs, text, rfl, htext, hparsed⟩

/-- What files hold of which there are finitely many contents is finitely many dictionaries. -/
theorem finite_dicts (h : {bs | ∃ path, fs.read path = .ok bs}.Finite) :
    {d | ∃ path, fs.dict? path = some d}.Finite := by
  refine ((h.image fun bs => bs.toString?.bind fun text => (Json.parseDict text).toOption).preimage
    (Option.some_injective _).injOn).subset ?_
  rintro d ⟨path, hd⟩
  obtain ⟨bs, text, hread, htext, hparsed⟩ := exists_of_dict? hd
  refine ⟨bs, ⟨path, hread⟩, ?_⟩
  dsimp only
  rw [htext, Option.bind_some, hparsed]
  rfl

end Files

theorem Disk.mem_contents (disk : Disk) {path : Path} {bs : Bytes} (h : disk.files.read path = .ok bs) :
    bs ∈ disk.entries.filterMap (·.2.bytes) := by
  obtain ⟨place, _, hread⟩ := exists_of_read h
  rw [readAt, find?] at hread
  cases hlookup : disk.entries.lookup place with
  | none =>
    rw [hlookup] at hread
    by_cases hroot : place.isEmpty
    · simp only [if_pos hroot] at hread
      cases hread
    · simp only [if_neg hroot] at hread
      cases hread
  | some e =>
    obtain ⟨before, after, hentries, _⟩ := List.lookup_eq_some_iff.mp hlookup
    rw [hlookup] at hread
    obtain ⟨_ | bytes, time⟩ := e
    · cases hread
    · cases hread
      refine List.mem_filterMap.mpr ⟨(place, ⟨some bs, time⟩), ?_, rfl⟩
      rw [hentries]
      exact List.mem_append_right _ List.mem_cons_self

/-- On a disk are finitely many contents of files. -/
theorem Disk.finite_contents (disk : Disk) : {bs | ∃ path, disk.files.read path = .ok bs}.Finite :=
  (List.finite_toSet _).subset fun _ h => h.elim fun _ h => disk.mem_contents h

theorem Value.BindsFree.fit {names : Finset String} {v : Value} (h : v.BindsFree)
    (hnames : ∀ text, (Value.string text).Within v → text ∈ names) : v.Fit names := by
  intro u hu
  have hhere := h u hu
  cases u with
  | dict d =>
    exact fun entry hentry => ⟨hhere entry hentry, fun _ text htext =>
      hnames text ((Value.Within.entry hentry (htext ▸ .self)).trans hu)⟩
  | _ => trivial

/-- With finitely many contents of files finitely much can be reached. -/
theorem Reach.exists_grounded {fs : Files} {s : Setting} (hfinite : {bs | ∃ path, fs.read path = .ok bs}.Finite)
    (hroot : (Value.dict s.root).BindsFree)
    (hfiles : ∀ path parsed, fs.dict? path = some parsed → (Value.dict parsed).BindsFree)
    (hlocal : ∀ name v, s.localize name = some v → v.Inert) (base : Path) :
    ∃ r : Reach, r.base = base ∧ r.Grounded fs s := by
  have htexts : ({text | (Value.string text).Within (.dict s.root)} ∪
      ⋃ d ∈ {d | ∃ path, fs.dict? path = some d}, {text | (Value.string text).Within (.dict d)}).Finite :=
    (Value.finite_texts _).union ((Files.finite_dicts hfinite).biUnion fun d _ => Value.finite_texts _)
  refine ⟨⟨htexts.toFinset, htexts.toFinset.image (fs.settled base), base⟩, rfl, ?_, ?_, ?_, hlocal⟩
  · exact hroot.fit fun text htext => htexts.mem_toFinset.mpr (.inl htext)
  · exact fun path d hd => (hfiles path d hd).fit fun text htext =>
      htexts.mem_toFinset.mpr (.inr (Set.mem_biUnion ⟨path, hd⟩ htext))
  · exact fun relative hrelative => Finset.mem_image_of_mem _ hrelative

/-- A file that imports another one and has an entry set over a template. -/
def circleFile (other : String) : Dict Json :=
  ⟨[("res:import", .string other), ("u", .object ⟨[("res:template", .string "d")]⟩)]⟩

def circleText (other : String) : String := String.ofList ((circleFile other).writeObject 0 ['\n'])

/-- Two files that import each other. -/
def circleDisk : Disk :=
  ⟨[(["x"], ⟨some (Bytes.ofString (circleText "y")), 0⟩), (["y"], ⟨some (Bytes.ofString (circleText "x")), 0⟩)], [],
    "/tmp", 0⟩

/-- Two entries are each other's template, one has the whole description as its template, and one imports a file that
has this one as a template again, which is also the template of a value in scope. -/
def circles : Dict Value :=
  ⟨[("a", .dict ⟨[(Key.template, .string "b")]⟩), ("b", .dict ⟨[(Key.base, .string "a")]⟩),
    ("c", .dict ⟨[(Key.template, .string "/")]⟩), ("d", .dict ⟨[(Key.imported, .string "x")]⟩),
    ("e", .dict ⟨[(Key.values, .dict ⟨[("k", .dict ⟨[(Key.template, .string "d")]⟩)]⟩), ("f", .string "res:k")]⟩)]⟩

theorem parseDict_circleText (other : String) :
    Json.parseDict (circleText other) = .ok (circleFile other).jsonValue := by
  have hsound : (circleFile other).Sound :=
    ⟨(by decide : ["res:import", "u"].Nodup), trivial, ⟨List.nodup_singleton _, trivial, trivial⟩, trivial⟩
  have hdepth : (circleFile other).depth ≤ Json.deepestContainer := by
    simp only [circleFile, Dict.depth, depthMembers, Json.depth, Json.deepestContainer]
    decide
  rw [Json.parseDict, circleText, Json.parse_writeObject hsound hdepth]

theorem bindsFree_circleFile (other : String) : (Value.dict (circleFile other).jsonValue).BindsFree := by
  have hvalue : (circleFile other).jsonValue =
      ⟨[(Key.imported, .string other), ("u", .dict ⟨[(Key.template, .string "d")]⟩)]⟩ := rfl
  simp [hvalue, Value.bindsFree_dict, bindsFree_iff, bindsFree_string, Value.bindsFree_atom, Key.values,
    List.forall_mem_cons, -List.mem_cons]

theorem bindsFree_circles : (Value.dict circles).BindsFree := by
  have hfree : (Value.string "d").Free := Value.throughout_atom.mpr (by decide)
  simp [circles, Value.bindsFree_dict, bindsFree_iff, bindsFree_string, Value.bindsFree_atom, Value.free_dict, hfree,
    Key.values, List.forall_mem_cons, -List.mem_cons]

/-- A dictionary that imports a file. -/
def importing : Dict Value := ⟨[(Key.imported, .string "f")]⟩

/-- What is in the file: a text that is localized. -/
def localizedFile : Dict Json := ⟨[("k", .string "loc:x")]⟩

def localizedDisk : Disk :=
  ⟨[(["f"], ⟨some (Bytes.ofString (String.ofList (localizedFile.writeObject 0 ['\n']))), 0⟩)], [], "/tmp", 0⟩

/-- The description imports the file, and so does its localized value. -/
def leadingBack : Setting := ⟨importing, fun _ => some (.dict importing)⟩

namespace Expanding
variable {e : Expansion}

theorem eval_localizedFile (e : Expansion) :
    eval localizedDisk.files (expandTo leadingBack 3 (.dict localizedFile.jsonValue)) e =
      some (some (.dict ⟨[("k", .dict importing)]⟩), e) := by
  rfl

/-- What is imported has the localized value in it. -/
theorem of_importFile_leadingBack {n : Nat} {found : Option (Dict Value)} {e' : Expansion} (himports : e.imports = [])
    (hbase : e.context.base = "/")
    (h : eval localizedDisk.files (importFile (expandTo leadingBack n) "f") e = some (found, e')) :
    found = some ⟨[("k", .dict importing)]⟩ ∧ e'.imports = [] ∧ e'.context.base = "/" := by
  have hpath : (Look.settle (Path.join "/" "f")).eval localizedDisk.files = "/f" := by decide +kernel
  have hread : (Look.readText "/f").eval localizedDisk.files =
      .ok (String.ofList (localizedFile.writeObject 0 ['\n'])) := by decide +kernel
  have hparsed :
      Json.parseDict (String.ofList (localizedFile.writeObject 0 ['\n'])) = .ok localizedFile.jsonValue := by
    have hsound : localizedFile.Sound := ⟨List.nodup_singleton _, trivial, trivial⟩
    rw [Json.parseDict, Json.parse_writeObject hsound (by decide)]
  rw [importFile, eval_get_bind, hbase, eval_look_bind, hpath, eval_get_bind, himports, List.any_nil,
    if_neg Bool.false_ne_true, eval_look_bind, hread] at h
  dsimp only at h
  rw [hparsed] at h
  dsimp only at h
  rw [eval_bind_of (eval_addFile _ _)] at h
  obtain ⟨answer, inner, himport, hanswer⟩ := exists_of_eval_bind h
  rw [inImport, eval_around] at himport
  obtain ⟨r, hinner, hback⟩ := Option.map_eq_some_iff.mp himport
  -- With enough fuel the answer inside the import is known, and so it is with any fuel that suffices.
  have hsame := (extends_expandTo leadingBack (le_max_left n 3) _ _ _ hinner).symm.trans
    (extends_expandTo leadingBack (le_max_right n 3) _ _ _ (eval_localizedFile _))
  cases hsame
  cases hback
  cases hanswer
  refine ⟨rfl, (congrArg (fun imports => (imports ++ ["/f"]).dropLast) himports).trans rfl, ?_⟩
  rw [← hbase, Context.addFile, Look.eval_bind]
  rfl

/-- What is imported is expanded again, outside of the import, and leads back into it. -/
theorem eval_leadingBack (fuel : Nat) (himports : e.imports = []) (hbase : e.context.base = "/") :
    eval localizedDisk.files (expandTo leadingBack fuel (.dict importing)) e = none := by
  induction fuel using Nat.strong_induction_on generalizing e with
  | h fuel ih =>
    cases fuel with
    | zero => rfl
    | succ n =>
      refine Option.eq_none_iff_forall_ne_some.mpr fun r hr => ?_
      have hplain : expandTo leadingBack (n + 1) (.dict importing) =
          plain (expandTo leadingBack n) leadingBack importing := rfl
      rw [hplain] at hr
      obtain ⟨whole, e₁, hwhole, hrest⟩ := exists_of_eval_bind hr
      obtain ⟨found, e₂, hfound, hmerged⟩ := exists_of_eval_bind hwhole
      obtain ⟨rfl, himports', hbase'⟩ := of_importFile_leadingBack himports hbase hfound
      cases hmerged
      obtain ⟨out, e₃, hentries, -⟩ := exists_of_eval_bind hrest
      obtain ⟨w, e₄, hentry, -⟩ := exists_of_eval_bind hentries
      rw [eval_within] at hentry
      obtain ⟨r', hvalue, -⟩ := Option.map_eq_some_iff.mp hentry
      cases n with
      | zero => cases hvalue
      | succ m =>
        obtain ⟨answer, e₅, hdict, -⟩ := exists_of_eval_bind hvalue
        have hnone : eval localizedDisk.files (expandTo leadingBack m (.dict importing))
            { e₁ with trail := .name "k" :: e₁.trail } = none := ih m (by omega) himports' hbase'
        cases hnone.symm.trans hdict

end Expanding

/-- If a localized value leads back, here to a file with the text that it stands for, the expansion does not end. -/
theorem not_expand_ends_of_localized (fuel : Nat) (debug : Bool) :
    (importing.expand fuel (fun _ => some (.dict importing)) (.start "/" debug)).run.eval localizedDisk.files =
      none := by
  rw [Dict.eval_expand]
  exact congrArg _ (Expanding.eval_leadingBack fuel rfl rfl)

end AssetPack
