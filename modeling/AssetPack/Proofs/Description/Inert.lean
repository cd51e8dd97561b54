import AssetPack.Proofs.Description.Inlining
import Mathlib.Order.Filter.AtTopBot.Basic

/-!
# Values that lead nowhere

An expansion that ends has one answer with all fuel that is enough, and leaves the scopes, templates and imports as
they were. A value ends where what is inside it does, and what it stands for. So one without directives, and without
texts that stand for values in scope, ends at any place; and only such values are ever answered.
-/
namespace AssetPack

namespace Value
variable {v : Value} {d : Dict Value}

/-- At no depth is a directive, nor a text that stands for a value in scope. -/
def Inert (v : Value) : Prop := v.Throughout fun
  | .string text => after? Key.reserved text = none
  | .dict d => ∀ name ∈ d.names, name ∉ Key.directives
  | _ => True

theorem inert_dict : (dict d).Inert ↔ (∀ name ∈ d.names, name ∉ Key.directives) ∧ ∀ entry ∈ d.entries, entry.2.Inert :=
  throughout_dict

/-- So is what is no text and has nothing inside. -/
theorem inert_of_other (hlist : v.list? = none) (h : v.opened? = none) (htext : ∀ text, v ≠ .string text) : v.Inert := by
  intro u hu
  cases hu with
  | self =>
    cases v with
    | atom a =>
      cases a with
      | string text => exact (htext text rfl).elim
      | _ => trivial
    | dict d => cases h
    | _ => trivial
  | item _ _ => cases hlist
  | entry _ _ => cases h
  | block hload _ => cases h.symm.trans (opened?_of_load hload)
  | saved hp hload _ => cases h.symm.trans (opened?_of_loadDict hp hload)

theorem Inert.within {u : Value} (h : v.Inert) (hu : u.Within v) : u.Inert := fun w hw => h w (hw.trans hu)

end Value

/-! ## Runs that end -/

namespace Expansion
variable {e e' e'' : Expansion}

/-- Two states are at the same scopes, templates and imports, and paths start from the same directory. -/
structure Same (e e' : Expansion) : Prop where
  scopes : e'.scopes = e.scopes
  templates : e'.templates = e.templates
  imports : e'.imports = e.imports
  base : e'.context.base = e.context.base

theorem Same.refl (e : Expansion) : e.Same e := ⟨rfl, rfl, rfl, rfl⟩

theorem Same.trans (h : e.Same e') (h' : e'.Same e'') : e.Same e'' :=
  ⟨h'.scopes.trans h.scopes, h'.templates.trans h.templates, h'.imports.trans h.imports, h'.base.trans h.base⟩

end Expansion

namespace Expanding
variable {α β : Type} {fs : Files} {e : Expansion} {x : Nat → Expanding α} {P Q : α → Prop} {R : β → Prop}

/-- With enough fuel there is one answer, which has the property `Q`. The scopes, templates and imports are then the
same as before. -/
def Ends (fs : Files) (x : Nat → Expanding α) (e : Expansion) (Q : α → Prop) : Prop :=
  ∃ a e', (∀ᶠ fuel in Filter.atTop, eval fs (x fuel) e = some (a, e')) ∧ e.Same e' ∧ Q a

namespace Ends

theorem pure {a : α} (h : Q a) : Ends fs (fun _ => Pure.pure a) e Q := ⟨a, e, .of_forall fun _ => rfl, .refl e, h⟩

theorem bind {f : Nat → α → Expanding β} (hx : Ends fs x e P)
    (hf : ∀ a e', e.Same e' → P a → Ends fs (fun fuel => f fuel a) e' R) :
    Ends fs (fun fuel => x fuel >>= f fuel) e R := by
  obtain ⟨a, e', hx, hsame, ha⟩ := hx
  obtain ⟨b, e'', hf, hsame', hb⟩ := hf a e' hsame ha
  exact ⟨b, e'', (hx.and hf).mono fun fuel h => (eval_bind_of h.1).trans h.2, hsame.trans hsame', hb⟩

/-- Whatever an answer must be is so where there is none. -/
theorem drop {P : α → Prop} (i : Issue) : Ends fs (fun _ => drop i) e fun answer => ∀ a ∈ answer, P a :=
  ⟨none, _, .of_forall fun _ => rfl, ⟨rfl, rfl, rfl, rfl⟩, fun a ha => (Option.not_mem_none a ha).elim⟩

theorem nothing {P : α → Prop} : Ends fs (fun _ => Pure.pure none) e fun answer => ∀ a ∈ answer, P a :=
  pure fun a ha => (Option.not_mem_none a ha).elim

theorem ask {f : Nat → Expansion → Expanding α} (h : Ends fs (fun fuel => f fuel e) e Q) :
    Ends fs (fun fuel => get >>= f fuel) e Q := h

theorem look (q : Look β) {f : Nat → β → Expanding α} (h : Ends fs (fun fuel => f fuel (q.eval fs)) e Q) :
    Ends fs (fun fuel => liftM q >>= f fuel) e Q := by
  simp only [Ends, eval_look_bind]
  exact h

theorem around {f g : Expansion → Expansion} (hback : ∀ e', (f e).Same e' → e.Same (g e')) (h : Ends fs x (f e) Q) :
    Ends fs (fun fuel => do modify f; let a ← x fuel; modify g; return a) e Q := by
  obtain ⟨a, e', hx, hsame, ha⟩ := h
  refine ⟨a, g e', hx.mono fun fuel hrun => ?_, hback e' hsame, ha⟩
  rw [eval_around, hrun, Option.map_some]

theorem within (step : Step) (h : ∀ e', e.Same e' → Ends fs x e' Q) : Ends fs (fun fuel => within step (x fuel)) e Q :=
  around (fun _ h => ⟨h.scopes, h.templates, h.imports, h.base⟩) (h _ ⟨rfl, rfl, rfl, rfl⟩)

theorem inNewScope (scope : Dict Value) (h : Ends fs x { e with scopes := scope :: e.scopes } Q) :
    Ends fs (fun fuel => inNewScope scope (x fuel)) e Q :=
  around (fun _ h => ⟨congrArg (List.drop 1) h.scopes, h.templates, h.imports, h.base⟩) h

theorem inTemplate (name : String) (h : Ends fs x { e with templates := e.templates ++ [name] } Q) :
    Ends fs (fun fuel => inTemplate name (x fuel)) e Q :=
  around (fun _ h => ⟨h.scopes, (congrArg List.dropLast h.templates).trans List.dropLast_concat, h.imports, h.base⟩) h

theorem inImport (path : Path) (h : Ends fs x { e with imports := e.imports ++ [path] } Q) :
    Ends fs (fun fuel => inImport path (x fuel)) e Q :=
  around (fun _ h => ⟨h.scopes, h.templates, (congrArg List.dropLast h.imports).trans List.dropLast_concat, h.base⟩) h

theorem addFile (path : Path) : Ends fs (fun _ => addFile path) e fun _ => True := by
  refine ⟨(), _, .of_forall fun _ => eval_addFile path e, ⟨rfl, rfl, rfl, ?_⟩, trivial⟩
  rw [Context.addFile, Look.eval_bind]
  rfl

/-- One level of what is given fuel takes one unit of it. -/
theorem of_level (h : Ends fs (fun fuel => x (fuel + 1)) e Q) : Ends fs x e Q := by
  obtain ⟨a, e', hx, hrest⟩ := h
  refine ⟨a, e', ?_, hrest⟩
  rw [← Filter.map_add_atTop_eq_nat 1]
  exact Filter.eventually_map.mpr hx

end Ends

/-- The expansion of the job ends. In what it answers is then nothing left to be put in place. -/
def JobEnds (fs : Files) (s : Setting) (job : Job) (e : Expansion) : Prop :=
  Ends fs (fun fuel => expandTo s fuel job) e fun answer => ∀ v ∈ answer, v.Inert

/-! ### One level -/

/-- A value without items and without a dictionary is left as it is, or is broken. -/
theorem inside_of_other {v : Value} (hlist : v.list? = none) (h : v.opened? = none) :
    (∀ next, inside next v = pure (some v)) ∨
      ∃ issue : Expansion → Issue, ∀ next, inside next v = get >>= fun e => drop (issue e) := by
  cases v with
  | atom a => exact .inl fun _ => rfl
  | list items => cases hlist
  | dict d => cases h
  | block b =>
    cases hload : b.load with
    | ok d => cases h.symm.trans (Value.opened?_of_load hload)
    | error f => exact .inr ⟨fun e => .brokenDict e.place, fun _ => by rw [inside, hload]⟩
  | saved p =>
    by_cases hp : p.content = .dict
    · cases hload : p.loadDict with
      | ok d => cases h.symm.trans (Value.opened?_of_loadDict hp hload)
      | error f => exact .inr ⟨fun e => .brokenPayload e.place, fun _ => by rw [inside, if_pos hp, hload]⟩
    · exact .inl fun _ => if_neg hp

section
variable {s : Setting}

theorem ends_entries {es : List (String × Value)}
    (h : ∀ entry ∈ es, ∀ e', e.Same e' → JobEnds fs s (.value entry.2) e') :
    Ends fs (fun fuel => entries (expandTo s fuel) es) e fun out =>
      ∀ entry ∈ out, entry.1 ∈ es.map (·.1) ∧ entry.2.Inert := by
  induction es generalizing e with
  | nil => exact .pure (List.forall_mem_nil _)
  | cons entry rest ih =>
    obtain ⟨hentry, hrest⟩ := List.forall_mem_cons.mp h
    refine (Ends.within _ hentry).bind fun w e' hsame hw => ?_
    refine (ih fun entry hentry e'' hsame' => hrest entry hentry e'' (hsame.trans hsame')).bind fun out _ _ hout => ?_
    have hlater : ∀ other ∈ out, other.1 ∈ (entry :: rest).map (·.1) ∧ other.2.Inert :=
      fun other hother => ⟨List.mem_cons_of_mem _ (hout other hother).1, (hout other hother).2⟩
    cases w with
    | none => exact .pure hlater
    | some w => exact .pure (List.forall_mem_cons.mpr ⟨⟨List.mem_cons_self, hw w rfl⟩, hlater⟩)

theorem ends_items {vs : List Value} (h : ∀ v ∈ vs, ∀ e', e.Same e' → JobEnds fs s (.value v) e') (index : Nat) :
    Ends fs (fun fuel => items (expandTo s fuel) index vs) e fun ws => ∀ w ∈ ws, w.Inert := by
  induction vs generalizing e index with
  | nil => exact .pure (List.forall_mem_nil _)
  | cons v rest ih =>
    obtain ⟨hv, hrest⟩ := List.forall_mem_cons.mp h
    refine (Ends.within _ hv).bind fun w e' hsame hw => ?_
    refine (ih (fun v hv e'' hsame' => hrest v hv e'' (hsame.trans hsame')) (index + 1)).bind fun ws _ _ hws => ?_
    refine .pure (List.forall_mem_cons.mpr ⟨?_, hws⟩)
    cases w with
    | none => exact Value.throughout_atom.mpr trivial
    | some w => exact hw w rfl

/-- What is expanded entry by entry has no directives if there were none before. -/
theorem ends_dict_entries {d : Dict Value} (hd : ∀ name ∈ d.names, name ∉ Key.directives)
    (h : ∀ entry ∈ d.entries, ∀ e', e.Same e' → JobEnds fs s (.value entry.2) e') :
    Ends fs (fun fuel => do return some (Value.dict ⟨← entries (expandTo s fuel) d.entries⟩)) e
      fun answer => ∀ v ∈ answer, v.Inert := by
  refine (ends_entries h).bind fun out _ _ hout => .pure fun v hv => ?_
  cases hv
  refine Value.inert_dict.mpr ⟨fun name hname => ?_, fun entry hentry => (hout entry hentry).2⟩
  obtain ⟨entry, hentry, rfl⟩ := List.mem_map.mp hname
  exact hd _ (hout entry hentry).1

section
variable (hlocal : ∀ name v, s.localize name = some v → v.Inert)
include hlocal

/-- What a text stands for, where every value in scope that it may stand for is expanded. -/
theorem ends_named {text : String}
    (hscope : ∀ name, after? Key.reserved text = some name →
      ∀ v, e.inScope? name = some v → JobEnds fs s (.value v) e) :
    Ends fs (fun fuel => named (expandTo s fuel) s text) e fun answer => ∀ v ∈ answer, v.Inert := by
  simp only [named]
  cases hreserved : after? Key.reserved text with
  | some name =>
    refine .ask ?_
    cases hv : e.inScope? name with
    | some v => exact hscope name hreserved v hv
    | none => exact .drop _
  | none =>
    dsimp only
    cases after? Key.localized text with
    | some name =>
      dsimp only
      cases hv : s.localize name with
      | some v =>
        refine .pure fun w hw => ?_
        cases hw
        exact hlocal name v hv
      | none => exact .drop _
    | none =>
      refine .pure fun w hw => ?_
      cases hw
      exact Value.throughout_atom.mpr hreserved

theorem jobEnds_string {text : String}
    (hscope : ∀ name, after? Key.reserved text = some name →
      ∀ v, e.inScope? name = some v → JobEnds fs s (.value v) e) :
    JobEnds fs s (.value (.string text)) e := .of_level (ends_named hlocal hscope)

/-- A value that is no text ends with what is inside it; what comes of that stands for no value in scope. -/
theorem jobEnds_value {v : Value}
    (h : Ends fs (fun fuel => inside (expandTo s fuel) v) e fun answer => ∀ w ∈ answer, w.Inert) :
    JobEnds fs s (.value v) e := by
  refine .of_level (h.bind fun answer e' _ hanswer => ?_)
  cases answer with
  | none => exact .nothing
  | some w =>
    cases w with
    | atom a =>
      cases a with
      | string text =>
        have hfree : after? Key.reserved text = none := Value.throughout_atom.mp (hanswer _ rfl)
        exact ends_named hlocal fun name hname => by cases hfree.symm.trans hname
      | _ => exact .pure hanswer
    | _ => exact .pure hanswer

theorem jobEnds_list {items : List Value} (h : ∀ v ∈ items, ∀ e', e.Same e' → JobEnds fs s (.value v) e') :
    JobEnds fs s (.value (.list items)) e := by
  refine jobEnds_value hlocal ((ends_items h 0).bind fun ws _ _ hws => .pure fun w hw => ?_)
  cases hw
  exact Value.throughout_list.mpr ⟨trivial, hws⟩

/-- A value that carries a dictionary ends where the dictionary does. -/
theorem jobEnds_carrier {v : Value} {d : Dict Value} (hd : v.opened? = some d) (h : JobEnds fs s (.dict d) e) :
    JobEnds fs s (.value v) e := by
  refine jobEnds_value hlocal ?_
  simp only [inside_of_opened hd]
  exact h

theorem jobEnds_other {v : Value} (hlist : v.list? = none) (hd : v.opened? = none) (hv : v.Inert) :
    JobEnds fs s (.value v) e := by
  refine jobEnds_value hlocal ?_
  rcases inside_of_other hlist hd with hinside | ⟨issue, hinside⟩
  · simp only [hinside]
    refine .pure fun w hw => ?_
    cases hw
    exact hv
  · simp only [hinside]
    exact .ask (.drop _)

/-- A value that leads nowhere is expanded at any place. -/
theorem jobEnds_of_inert {v : Value} (hv : v.Inert) (e : Expansion) : JobEnds fs s (.value v) e := by
  induction v using Value.induction_carried generalizing e with
  | list items ih => exact jobEnds_list hlocal fun u hu e' _ => ih u hu ((Value.throughout_list.mp hv).2 u hu) e'
  | dict v d hd ih =>
    obtain ⟨hnames, hentries⟩ := Value.inert_dict.mp (hv.opened hd)
    refine jobEnds_carrier hlocal hd (.of_level ?_)
    simp only [expandTo, dict_of_bare hnames]
    exact ends_dict_entries hnames fun entry hentry e' _ => ih entry hentry (hentries entry hentry) e'
  | other v hlist hd => exact jobEnds_other hlocal hlist hd hv

end
end

end Expanding

end AssetPack
