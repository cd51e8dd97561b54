import AssetPack.Proofs.Description.Templates
import AssetPack.Proofs.Description.Told

/-!
# Fields of a template chain

Where nothing is imported and there are no values in scope, to expand a dictionary is to look up each field along its
template chain: it has all fields of the chain, and for each the expansion of what the nearest member has. The
pass takes one member at a time, and takes the dictionary over its template as the dictionary that is to be expanded.
So the proof is by induction on the fuel, with the chain of that one in place of the whole chain.
-/
namespace AssetPack
open Expanding

/-- `w` is what becomes of `v` if nothing is reported. Of a dictionary it has the fields of the chain, each expanded
from what the nearest member of the chain has. -/
inductive Value.Expands (root : Dict Value) : Value → Value → Prop
  | atom (a : Atom) : Expands root (.atom a) (.atom a)
  | blob {p : Payload} : p.content ≠ .dict → Expands root (.saved p) (.saved p)
  | list {items done : List Value} : items.length = done.length →
      (∀ (i : Nat) v w, items[i]? = some v → done[i]? = some w → Expands root v w) →
      Expands root (.list items) (.list done)
  | dict {v : Value} {d out : Dict Value} {members : List (Dict Value)} :
      v.opened? = some d → Dict.Chain root d members → out.Distinct → out.names = Dict.chainNames members →
      (∀ name u w, Dict.nearest? members name = some u → out.get? name = some w → Expands root u w) →
      Expands root v (.dict out)

/-- The dictionary or the value that is to be expanded, as a value. -/
def Job.source : Job → Value
  | .dict d => .dict d
  | .value v => v

/-! ## Entries side by side -/

namespace Dict
variable {α β : Type} {R : α → β → Prop} {es : List (String × α)} {fs : List (String × β)}

theorem names_of_forall₂ (h : List.Forall₂ (fun e f => e.1 = f.1 ∧ R e.2 f.2) es fs) :
    (⟨fs⟩ : Dict β).names = (⟨es⟩ : Dict α).names := by
  induction h with
  | nil => rfl
  | cons hentry _ ih =>
    simp only [names] at ih
    rw [names, names, List.map_cons, List.map_cons, ih, hentry.1]

/-- The entries of a name are in the relation. -/
theorem rel_of_forall₂ (h : List.Forall₂ (fun e f => e.1 = f.1 ∧ R e.2 f.2) es fs) {name : String} {a : α} {b : β}
    (ha : (⟨es⟩ : Dict α).get? name = some a) (hb : (⟨fs⟩ : Dict β).get? name = some b) : R a b := by
  induction h with
  | nil => cases ha
  | @cons e f _ _ hentry _ ih =>
    obtain ⟨key, a'⟩ := e
    obtain ⟨_, b'⟩ := f
    obtain ⟨rfl, hrel⟩ := hentry
    simp only [get?, List.lookup_cons] at ha hb ih
    cases hkey : name == key with
    | true =>
      rw [hkey] at ha hb
      cases ha
      cases hb
      exact hrel
    | false =>
      rw [hkey] at ha hb
      exact ih ha hb

end Dict

namespace Value
variable {root : Dict Value}

/-- What a dictionary is expanded to. -/
theorem Expands.exists_chain {v w : Value} (h : v.Expands root w) {d : Dict Value} (hd : v.opened? = some d) :
    ∃ members out, w = .dict out ∧ Dict.Chain root d members ∧ out.Distinct ∧ out.names = Dict.chainNames members ∧
      ∀ name u w, Dict.nearest? members name = some u → out.get? name = some w → u.Expands root w := by
  cases h with
  | atom a => cases hd
  | blob hp =>
    rw [opened?_saved, if_neg hp] at hd
    cases hd
  | list _ _ => cases hd
  | dict hopened hchain hdistinct hnames hfields =>
    obtain rfl := Option.some.inj (hd.symm.trans hopened)
    exact ⟨_, _, rfl, hchain, hdistinct, hnames, hfields⟩

/-- A dictionary without a template has its own fields. -/
theorem Expands.of_entries {d : Dict Value} {done : List (String × Value)} (hd : root.Single d)
    (hnone : d.template? = none)
    (h : List.Forall₂ (fun entry done => entry.1 = done.1 ∧ entry.2.Expands root done.2) d.entries done) :
    (Value.dict d).Expands root (.dict ⟨done⟩) := by
  obtain ⟨htemplate, hbase⟩ := Dict.template?_eq_none_iff.mp hnone
  have hfields : d.names.filter (fun name => name ∉ Key.directives ∧ name ∉ Dict.chainNames []) = d.names := by
    refine List.filter_eq_self.mpr fun name hname => decide_eq_true ⟨fun hdirective => ?_, List.not_mem_nil⟩
    simp only [Key.directives, List.mem_cons, List.not_mem_nil, or_false] at hdirective
    rcases hdirective with rfl | rfl | rfl | rfl
    · exact hd.noImport hname
    · exact htemplate hname
    · exact hbase hname
    · exact hd.noValues hname
  have hnames := Dict.names_of_forall₂ h
  refine .dict rfl (.last hnone) ?_ ?_ fun name u w hu hw => ?_
  · rw [Dict.Distinct, hnames]
    exact hd.distinct
  · rw [hnames, Dict.chainNames, hfields]
    rfl
  · rw [Dict.nearest?, List.findSome?_cons] at hu
    cases hget : d.get? name with
    | none =>
      rw [hget] at hu
      cases hu
    | some u' =>
      rw [hget] at hu
      cases hu
      exact Dict.rel_of_forall₂ h hget hw

/-- A dictionary over its template is expanded as the dictionary is. -/
theorem Expands.of_merge {d b : Dict Value} {name : String} {w : Value} (hd : root.Single d)
    (hname : d.template? = some (.string name)) (hcarries : root.Carries name b)
    (h : (Value.dict (b.merge (d.erase (templateKey d)))).Expands root w) : (Value.dict d).Expands root w := by
  obtain ⟨members, out, rfl, hchain, hdistinct, hnames, hfields⟩ := h.exists_chain rfl
  have hkey : templateKey d ∈ Key.directives := mem_directives_templateKey d
  obtain ⟨rest, rfl, hrest⟩ := hchain.of_template? (Dict.template?_merge_erase hd.distinct hd.one)
  rw [Dict.chainNames_merge_erase hd.distinct hkey] at hnames
  refine .dict rfl (.onto hname hcarries hrest) hdistinct hnames fun n u w hu hw => hfields n u w ?_ hw
  have hn : n ∈ Dict.chainNames (d :: b :: rest) := by
    rw [← hnames]
    exact Dict.mem_names_of_get? hw
  have hne : n ≠ templateKey d := ne_of_not_directive (Dict.mem_chainNames.mp hn).1 hkey
  rw [Dict.nearest?_merge_erase hd.distinct rest hne]
  exact hu

theorem Expands.of_opened {v w : Value} {d : Dict Value} (hv : v.opened? = some d)
    (h : (Value.dict d).Expands root w) : v.Expands root w := by
  obtain ⟨members, out, rfl, hchain, hdistinct, hnames, hfields⟩ := h.exists_chain rfl
  exact .dict hv hchain hdistinct hnames hfields

end Value

/-! ## What an expansion without issues shows -/

namespace Expanding
variable {fs : Files} {α β : Type} {x : Expanding α} {Q R : α → Prop}

/-- With no values in scope, `x` leaves none and only adds to the issues. If it adds no issue, its answer is as
stated. -/
def Shows (fs : Files) (x : Expanding α) (Q : α → Prop) : Prop :=
  ∀ e a e', (Answers.files fs).option.May (x.run e) (a, e') → e.scopes = [] →
    e'.scopes = [] ∧ e.issues <+: e'.issues ∧ (e'.issues = e.issues → Q a)

namespace Shows

theorem pure {a : α} (h : Q a) : Shows fs (Pure.pure a) Q := by
  intro e b e' hmay hscopes
  cases (Answers.files fs).option.eq_of_pure hmay
  exact ⟨hscopes, List.prefix_rfl, fun _ => h⟩

theorem bind {f : α → Expanding β} {T : β → Prop} (hx : Shows fs x Q)
    (hf : ∀ a, Shows fs (f a) fun b => Q a → T b) : Shows fs (x >>= f) T := by
  intro e b e'' hmay hscopes
  rw [StateT.run_bind] at hmay
  obtain ⟨⟨a, e'⟩, hx', hf'⟩ := (Answers.files fs).option.of_bind hmay
  obtain ⟨hscopes', hfirst, ha⟩ := hx e a e' hx' hscopes
  obtain ⟨hscopes'', hsecond, hb⟩ := hf a e' b e'' hf' hscopes'
  refine ⟨hscopes'', hfirst.trans hsecond, fun heq => ?_⟩
  -- what is between two lists that are the same is the same
  have hmiddle : e'.issues = e.issues := (hfirst.eq_of_length_le (heq ▸ hsecond.length_le)).symm
  exact hb (heq.trans hmiddle.symm) (ha hmiddle)

theorem mono (hx : Shows fs x Q) (h : ∀ a, Q a → R a) : Shows fs x R := by
  intro e a e' hmay hscopes
  obtain ⟨hscopes', hgrown, ha⟩ := hx e a e' hmay hscopes
  exact ⟨hscopes', hgrown, fun heq => h a (ha heq)⟩

/-- After a look at the state it is known that nothing is in scope. -/
theorem ask {f : Expansion → Expanding β} {T : β → Prop} (hf : ∀ e, e.scopes = [] → Shows fs (f e) T) :
    Shows fs (get >>= f) T := by
  intro e b e' hmay hscopes
  rw [StateT.run_bind] at hmay
  obtain ⟨⟨e₁, e₂⟩, hget, hf'⟩ := (Answers.files fs).option.of_bind hmay
  cases (Answers.files fs).option.eq_of_pure hget
  exact hf e hscopes e b e' hf' hscopes

theorem change {f : Expansion → Expansion} (h : ∀ e, (f e).scopes = e.scopes ∧ (f e).issues = e.issues) :
    Shows fs (modify f : Expanding PUnit) fun _ => True := by
  intro e a e' hmay hscopes
  cases (Answers.files fs).option.eq_of_pure hmay
  refine ⟨(h e).1.trans hscopes, ?_, fun _ => trivial⟩
  rw [(h e).2]

theorem drop {i : Issue} {Q : Option α → Prop} (hi : i.Own) : Shows fs (drop i) Q := by
  intro e a e' hmay hscopes
  rw [Expanding.drop, StateT.run_bind] at hmay
  obtain ⟨⟨_, e₁⟩, hmodify, hdone⟩ := (Answers.files fs).option.of_bind hmay
  cases (Answers.files fs).option.eq_of_pure hmodify
  cases (Answers.files fs).option.eq_of_pure hdone
  rw [Issue.audible_of_own hi]
  refine ⟨hscopes, List.prefix_append _ _, fun heq => ?_⟩
  exact absurd (List.append_right_eq_self.mp heq) (List.cons_ne_nil i [])

/-- `x` between two changes of what does not matter here. -/
theorem around {f g : Expansion → Expansion} (hf : ∀ e, (f e).scopes = e.scopes ∧ (f e).issues = e.issues)
    (hg : ∀ e, (g e).scopes = e.scopes ∧ (g e).issues = e.issues) (h : Shows fs x Q) :
    Shows fs (do modify f; let a ← x; modify g; return a) Q :=
  (change hf).bind fun _ => (h.bind fun _ => (change hg).bind fun _ => pure fun _ ha => ha).mono fun _ ha _ => ha

theorem within (step : Step) (h : Shows fs x Q) : Shows fs (within step x) Q :=
  around (fun _ => ⟨rfl, rfl⟩) (fun _ => ⟨rfl, rfl⟩) h

theorem inTemplate (name : String) (h : Shows fs x Q) : Shows fs (inTemplate name x) Q :=
  around (fun _ => ⟨rfl, rfl⟩) (fun _ => ⟨rfl, rfl⟩) h

end Shows

/-! ## One level of the pass -/

variable {root : Dict Value} {next : Job → Expanding (Option Value)}

/-- A job is answered with an expansion. -/
def Shown (root : Dict Value) (job : Job) (answer : Option Value) : Prop :=
  ∃ w, answer = some w ∧ job.source.Expands root w

section
variable (hnext : ∀ job : Job, job.source.Dicts root.Single → Shows fs (next job) (Shown root job))
include hnext

theorem shows_entries {es : List (String × Value)} (hes : ∀ entry ∈ es, entry.2.Dicts root.Single) :
    Shows fs (entries next es)
      (List.Forall₂ (fun entry done => entry.1 = done.1 ∧ entry.2.Expands root done.2) es) := by
  induction es with
  | nil => exact .pure .nil
  | cons entry rest ih =>
    obtain ⟨hentry, hrest⟩ := List.forall_mem_cons.mp hes
    refine ((hnext (.value entry.2) hentry).within _).bind fun w => ((ih hrest).bind fun done => .pure ?_)
    rintro hdone ⟨w, rfl, hw⟩
    exact .cons ⟨rfl, hw⟩ hdone

theorem shows_items {vs : List Value} (hvs : ∀ v ∈ vs, v.Dicts root.Single) (index : Nat) :
    Shows fs (items next index vs) (List.Forall₂ (Value.Expands root) vs) := by
  induction vs generalizing index with
  | nil => exact .pure .nil
  | cons v rest ih =>
    obtain ⟨hv, hrest⟩ := List.forall_mem_cons.mp hvs
    refine ((hnext (.value v) hv).within _).bind fun w => ((ih hrest (index + 1)).bind fun done => .pure ?_)
    rintro hdone ⟨w, rfl, hw⟩
    exact .cons hw hdone

/-- A dictionary is set over the template that is carried. -/
theorem shows_overTemplate {s : Setting} (hs : s.root = root) {d b : Dict Value} {name : String}
    (hd : (Value.dict d).Dicts root.Single) (hname : d.template? = some (.string name)) (hcarries : root.Carries name b)
    (hroot : (Value.dict root).Dicts root.Single) :
    Shows fs (overTemplate next s name (d.erase (templateKey d))) (Shown root (.dict d)) := by
  have hsingle : root.Single d := hd.here
  obtain ⟨v, hget, hfind, hopened⟩ := hcarries.exists_find
  refine .ask fun e hscopes => ?_
  rw [e.inScope?_eq_none hscopes, hs, hfind]
  split
  · exact .drop trivial
  · refine Shows.inTemplate name ?_
    have hmatch : v.dictValue?.bind Value.dict? = some b := hopened
    simp only [hmatch]
    have hmerged : (Value.dict (b.merge (d.erase (templateKey d)))).Dicts root.Single := by
      have hb := (hroot.get? hget).opened hopened
      exact hb.merge_erase hd (hb.here.merge_erase hsingle)
    refine (hnext (.dict _) hmerged).mono fun a ha => ?_
    obtain ⟨w, rfl, hw⟩ := ha
    exact ⟨w, rfl, hw.of_merge hsingle hname hcarries⟩

theorem shows_dict {s : Setting} (hs : s.root = root) {d : Dict Value} (hd : (Value.dict d).Dicts root.Single)
    (hroot : (Value.dict root).Dicts root.Single) : Shows fs (dict next s d) (Shown root (.dict d)) := by
  have hsingle : root.Single d := hd.here
  rw [dict_of_tame hsingle.toTame]
  split
  · rename_i hnone
    refine (shows_entries hnext (Value.throughout_dict.mp hd).2).bind fun done => .pure fun hdone => ⟨_, rfl, ?_⟩
    exact .of_entries hsingle hnone hdone
  · rename_i name hname
    obtain ⟨b, hcarries⟩ := hsingle.carries hname
    exact shows_overTemplate hnext hs hd hname hcarries hroot
  · exact .ask fun _ _ => .drop trivial

theorem shows_inside {v : Value} (hv : v.Dicts root.Single) : Shows fs (inside next v) (Shown root (.value v)) := by
  cases v with
  | atom a => exact .pure ⟨_, rfl, .atom a⟩
  | list vs =>
    refine (shows_items hnext (Value.throughout_list.mp hv).2 0).bind fun done => .pure fun hdone => ⟨_, rfl, ?_⟩
    refine .list hdone.length_eq fun i u w hu hw => ?_
    obtain ⟨hlt, rfl⟩ := List.getElem?_eq_some_iff.mp hu
    obtain ⟨hlt', rfl⟩ := List.getElem?_eq_some_iff.mp hw
    exact hdone.get hlt hlt'
  | dict d => exact hnext (.dict d) hv
  | block b =>
    rw [inside]
    cases hload : b.load with
    | ok d =>
      have hopened := Value.opened?_of_load hload
      refine (hnext (.dict d) (hv.opened hopened)).mono fun a ha => ?_
      obtain ⟨w, rfl, hw⟩ := ha
      exact ⟨w, rfl, hw.of_opened hopened⟩
    | error f => exact .ask fun _ _ => .drop trivial
  | saved p =>
    rw [inside]
    split
    · rename_i hp
      cases hload : p.loadDict with
      | ok d =>
        have hopened := Value.opened?_of_loadDict hp hload
        refine (hnext (.dict d) (hv.opened hopened)).mono fun a ha => ?_
        obtain ⟨w, rfl, hw⟩ := ha
        exact ⟨w, rfl, hw.of_opened hopened⟩
      | error f => exact .ask fun _ _ => .drop trivial
    · rename_i hp
      exact .pure ⟨_, rfl, .blob hp⟩

omit hnext in
/-- With nothing in scope and no localized values, a text stands for itself. -/
theorem shows_named {s : Setting} (hs : ∀ name, s.localize name = none) (text : String) :
    Shows fs (named next s text) fun answer => answer = some (.string text) := by
  unfold named
  split
  · refine .ask fun e hscopes => ?_
    rw [e.inScope?_eq_none hscopes]
    exact .drop trivial
  · split
    · rw [hs]
      exact .drop trivial
    · exact .pure rfl

theorem shows_value {s : Setting} (hs : ∀ name, s.localize name = none) {v : Value} (hv : v.Dicts root.Single) :
    Shows fs (value next s v) (Shown root (.value v)) := by
  refine (shows_inside hnext hv).bind fun answer => ?_
  split
  · refine (shows_named hs _).mono fun answer hanswer hshown => ?_
    rw [hanswer]
    exact hshown
  · exact .pure id

end

theorem shows_expandTo {localize : String → Option Value} (hlocalize : ∀ name, localize name = none)
    (hroot : (Value.dict root).Dicts root.Single) (fuel : Nat) {job : Job} (hjob : job.source.Dicts root.Single) :
    Shows fs (expandTo ⟨root, localize⟩ fuel job) (Shown root job) := by
  induction fuel generalizing job with
  | zero =>
    intro e a e' hmay
    exact ((Answers.files fs).not_may_failure _ hmay).elim
  | succ fuel ih =>
    cases job with
    | dict d => exact shows_dict (fun _ h => ih h) rfl hjob hroot
    | value v => exact shows_value (fun _ h => ih h) hlocalize hjob

end Expanding

/-! ## One expansion -/

theorem Dict.Chain.unique {root d : Dict Value} {members members' : List (Dict Value)} (h : root.Chain d members)
    (h' : root.Chain d members') : members = members' := by
  induction h generalizing members' with
  | last hnone =>
    cases h' with
    | last _ => rfl
    | onto hsome _ _ =>
      rw [hnone] at hsome
      cases hsome
  | onto hsome hcarries _ ih =>
    cases h' with
    | last hnone =>
      rw [hsome] at hnone
      cases hnone
    | onto hsome' hcarries' hrest =>
      rw [hsome] at hsome'
      cases hsome'
      obtain rfl := Option.some.inj (hcarries.2.symm.trans hcarries'.2)
      exact congrArg _ (ih hrest)

/-- Nothing is expanded in two ways. -/
theorem Value.Expands.unique {root : Dict Value} {v w w' : Value} (h : v.Expands root w) (h' : v.Expands root w') :
    w = w' := by
  induction h generalizing w' with
  | atom a =>
    cases h' with
    | atom _ => rfl
    | dict hopened _ _ _ _ => cases hopened
  | blob hp =>
    cases h' with
    | blob _ => rfl
    | dict hopened _ _ _ _ =>
      rw [opened?_saved, if_neg hp] at hopened
      cases hopened
  | @list items done hlength _ ih =>
    cases h' with
    | @list _ done' hlength' hall =>
      refine congrArg Value.list (List.ext_getElem (hlength.symm.trans hlength') fun i hi hi' => ?_)
      have hv := List.getElem?_eq_getElem (hlength.symm ▸ hi)
      exact ih i _ _ hv (List.getElem?_eq_getElem hi) (hall i _ _ hv (List.getElem?_eq_getElem hi'))
    | dict hopened _ _ _ _ => cases hopened
  | @dict v d out members hopened hchain hdistinct hnames _ ih =>
    obtain ⟨members', out', rfl, hchain', hdistinct', hnames', hfields'⟩ := h'.exists_chain hopened
    obtain rfl := hchain.unique hchain'
    refine congrArg Value.dict (Dict.eq_of_get? hdistinct hdistinct' (hnames.trans hnames'.symm) fun name hname => ?_)
    obtain ⟨u, hu⟩ := Dict.exists_nearest (hnames ▸ hname)
    obtain ⟨w, hw⟩ := Dict.exists_get? hname
    have hname' : name ∈ out'.names := hnames' ▸ hnames ▸ hname
    obtain ⟨w', hw'⟩ := Dict.exists_get? hname'
    rw [hw, hw', ih name u w hu hw (hfields' name u w' hu hw')]

theorem Value.Expands.iff_eq {root : Dict Value} {v w w' : Value} (h : v.Expands root w) :
    v.Expands root w' ↔ w' = w := ⟨fun h' => h'.unique h, fun heq => heq ▸ h⟩

/-! ## Dictionaries at every place -/

namespace Dict
variable {root d : Dict Value} {members : List (Dict Value)}

theorem Chain.exists_cons (h : Chain root d members) : ∃ rest, members = d :: rest := by
  cases h with
  | last _ => exact ⟨[], rfl⟩
  | onto _ _ _ => exact ⟨_, rfl⟩

/-- The value under a directive is the name of the template. -/
theorem Chain.eq_string (h : Chain root d members) (hd : root.Single d) {name : String} {v : Value}
    (hv : d.get? name = some v) (hname : name ∈ Key.directives) : ∃ text, v = .string text := by
  have hmem : name ∈ d.names := mem_names_of_get? hv
  have hkey : Expanding.templateKey d = name := by
    simp only [Key.directives, List.mem_cons, List.not_mem_nil, or_false] at hname
    rcases hname with rfl | rfl | rfl | rfl
    · exact absurd hmem hd.noImport
    · exact if_pos (contains_iff.mpr hmem)
    · exact if_neg fun h => hd.one ⟨contains_iff.mp h, hmem⟩
    · exact absurd hmem hd.noValues
  have htemplate : d.template? = some v := by rw [template?, hkey, hv]
  cases h with
  | last hnone =>
    rw [hnone] at htemplate
    cases htemplate
  | onto hsome _ _ =>
    rw [hsome] at htemplate
    cases htemplate
    exact ⟨_, rfl⟩

end Dict

namespace Value
variable {root : Dict Value}

/-- No dictionary stands within an atom. -/
theorem not_opened_of_at?_atom {a : Atom} {steps : List Step} {u : Value} (hu : (atom a).at? steps = some u)
    {d : Dict Value} : u.opened? ≠ some d := by
  cases steps with
  | nil =>
    cases hu
    exact nofun
  | cons step steps => cases step <;> cases hu

/-- The field of a dictionary that is no directive is expanded under its name. -/
theorem Expands.get? {v w : Value} (h : v.Expands root w) {d : Dict Value} (hd : v.opened? = some d) {name : String}
    {x : Value} (hx : d.get? name = some x) (hname : name ∉ Key.directives) :
    ∃ y, w.next? (.name name) = some y ∧ x.Expands root y := by
  obtain ⟨members, out, rfl, hchain, _, hnames, hfields⟩ := h.exists_chain hd
  obtain ⟨rest, rfl⟩ := hchain.exists_cons
  have hmem : name ∈ d.names := Dict.mem_names_of_get? hx
  have hout : name ∈ out.names := by
    rw [hnames]
    exact Dict.mem_chainNames.mpr ⟨hname, d, List.mem_cons_self, hmem⟩
  obtain ⟨y, hy⟩ := Dict.exists_get? hout
  have hnearest : Dict.nearest? (d :: rest) name = some x := by
    rw [Dict.nearest?, List.findSome?_cons, hx]
  exact ⟨y, hy, hfields name x y hnearest hy⟩

theorem Expands.item? {v w : Value} (h : v.Expands root w) {index : Nat} {x : Value} (hx : v.item? index = some x) :
    ∃ y, w.item? index = some y ∧ x.Expands root y := by
  obtain ⟨items, hitems, hx⟩ := Option.bind_eq_some_iff.mp hx
  cases v with
  | list vs =>
    cases hitems
    cases h with
    | list hlength hall =>
      obtain ⟨hlt, _⟩ := List.getElem?_eq_some_iff.mp hx
      have hy := List.getElem?_eq_getElem (hlength ▸ hlt)
      exact ⟨_, hy, hall index x _ hx hy⟩
    | dict hopened _ _ _ _ => cases hopened
  | _ => cases hitems

/-- A dictionary at any place is expanded in its place. -/
theorem Expands.at? {v w : Value} (h : v.Expands root w) (hv : v.Dicts root.Single) {steps : List Step} {u : Value}
    (hu : v.at? steps = some u) {d : Dict Value} (hd : u.opened? = some d) :
    ∃ w', w.at? steps = some w' ∧ u.Expands root w' := by
  induction steps generalizing v w with
  | nil =>
    cases hu
    exact ⟨w, rfl, h⟩
  | cons step steps ih =>
    obtain ⟨x, hx, hu⟩ := Option.bind_eq_some_iff.mp hu
    have hstep : ∃ y, w.next? step = some y ∧ x.Expands root y ∧ x.Dicts root.Single := by
      cases step with
      | index n =>
        obtain ⟨y, hy, hxy⟩ := h.item? hx
        obtain ⟨items, hitems, hmem⟩ := Option.bind_eq_some_iff.mp hx
        cases v with
        | list vs =>
          cases hitems
          exact ⟨y, hy, hxy, (throughout_list.mp hv).2 _ (List.mem_of_getElem? hmem)⟩
        | _ => cases hitems
      | name name =>
        obtain ⟨e, he, hx⟩ := Option.bind_eq_some_iff.mp hx
        by_cases hname : name ∈ Key.directives
        · -- the name of a template is no way to a dictionary
          obtain ⟨_, _, _, hchain, _⟩ := h.exists_chain he
          obtain ⟨text, rfl⟩ := hchain.eq_string ((hv.opened he).here) hx hname
          exact absurd hd (not_opened_of_at?_atom hu)
        · obtain ⟨y, hy, hxy⟩ := h.get? he hx hname
          exact ⟨y, hy, hxy, (hv.opened he).get? hx⟩
    obtain ⟨y, hy, hxy, hdicts⟩ := hstep
    obtain ⟨w', hw', huw⟩ := ih hxy hdicts hu
    exact ⟨w', Option.bind_eq_some_iff.mpr ⟨y, hy, hw'⟩, huw⟩

end Value

/-- Where an expansion reports nothing, it makes the one expansion of the description. In it each dictionary is expanded
in its place: it has the names of its template chain, and under each name the expansion of what the nearest member of
the chain has. -/
theorem Dict.expand_nearest {fs : Files} {localize : String → Option Value} (hlocalize : ∀ name, localize name = none)
    {d : Dict Value} (hd : ∀ e, (Value.dict e).Within (.dict d) → d.Single e) {fuel : Nat}
    {context context' : Context} {visited : Visited}
    (h : (d.expand fuel localize context).run.eval fs = some (visited, context')) (hissues : visited.issues = []) :
    ∃ done, visited.dict = some done ∧ (∀ w, (Value.dict d).Expands d w ↔ w = .dict done) ∧
      ∀ steps v e, (Value.dict d).at? steps = some v → v.opened? = some e →
        ∃ members out, d.Chain e members ∧ (Value.dict done).at? steps = some (.dict out) ∧
          out.names = chainNames members ∧ ∀ name ∈ out.names, ∃ u w,
            nearest? members name = some u ∧ out.get? name = some w ∧ ∀ w', u.Expands d w' ↔ w' = w := by
  obtain ⟨answer, e, hrun, rfl, rfl⟩ := exists_expandTo h
  have hdicts : (Value.dict d).Dicts d.Single := Value.dicts_iff.mpr hd
  have hshows : Shows fs (expandTo ⟨d, localize⟩ fuel (.dict d)) (Shown d (.dict d)) :=
    shows_expandTo hlocalize hdicts fuel hdicts
  obtain ⟨_, _, hshown⟩ := hshows _ _ _ hrun rfl
  obtain ⟨w, rfl, hw⟩ := hshown hissues
  obtain ⟨_, done, rfl, _⟩ := hw.exists_chain rfl
  refine ⟨done, rfl, fun w => hw.iff_eq, fun steps v e hv he => ?_⟩
  obtain ⟨w, hat, hvw⟩ := hw.at? hdicts hv he
  obtain ⟨members, out, rfl, hchain, _, hnames, hfields⟩ := hvw.exists_chain he
  refine ⟨members, out, hchain, hat, hnames, fun name hname => ?_⟩
  obtain ⟨u, hu⟩ := exists_nearest (hnames ▸ hname)
  obtain ⟨w, hw⟩ := exists_get? hname
  exact ⟨u, w, hu, hw, fun w' => (hfields name u w hu hw).iff_eq⟩

/-- A dictionary over a template, with another template in its list. -/
def inheritingItem : Dict Value :=
  ⟨[("n", .int 7), (Key.template, .string "mid"), ("w", .list [.dict ⟨[(Key.template, .string "other")]⟩])]⟩

/-- The item with its templates, one of which has a template itself. -/
def inheriting : Dict Value :=
  ⟨[("plain", .dict ⟨[("w", .int 1), ("h", .int 2)]⟩),
    ("mid", .dict ⟨[("k", .bool true), (Key.base, .string "plain"), ("h", .int 5)]⟩),
    ("other", .dict ⟨[("x", .null)]⟩),
    ("item", .dict inheritingItem)]⟩

theorem dicts_inheriting : (Value.dict inheriting).Dicts inheriting.Single := by
  refine Value.throughout_dict.mpr ⟨(by decide : inheriting.Single inheriting), ?_⟩
  simp only [inheriting, inheritingItem, Value.throughout_dict, Value.throughout_list, Value.throughout_atom,
    Value.OfDict, List.forall_mem_cons, List.not_mem_nil, false_implies, implies_true, and_true, true_and]
  decide

theorem Dict.expand_nearest_inheriting :
    ∃ (done : Dict Value) (members : List (Dict Value)) (out : Dict Value),
      (∀ w, (Value.dict inheriting).Expands inheriting w ↔ w = .dict done) ∧
        (Value.dict done).at? [.name "item"] = some (.dict out) ∧ inheriting.Chain inheritingItem members ∧
          out.names = ["w", "h", "k", "n"] ∧ out.names = chainNames members ∧ ∀ name ∈ out.names, ∃ u w,
            nearest? members name = some u ∧ out.get? name = some w ∧ ∀ w', u.Expands inheriting w' ↔ w' = w := by
  obtain ⟨visited, context', hrun, hissues, hout⟩ : ∃ visited context',
      (inheriting.expand 12 (fun _ => none) (.start "" false)).run.eval
        ⟨fun _ => .error .missing, fun _ => .error .missing, fun _ => none⟩ = some (visited, context') ∧
      visited.issues = [] ∧
      (visited.dict.bind fun done => ((Value.dict done).at? [.name "item"]).bind Value.opened?).map Dict.names =
        some ["w", "h", "k", "n"] :=
    ⟨_, _, rfl, rfl, rfl⟩
  obtain ⟨done, hdone, hunique, hat⟩ :=
    expand_nearest (fun _ => rfl) (Value.dicts_iff.mp dicts_inheriting) hrun hissues
  obtain ⟨members, out, hchain, hitem, hnames, hfields⟩ := hat [.name "item"] _ _ rfl rfl
  refine ⟨done, members, out, hunique, hitem, hchain, ?_, hnames, hfields⟩
  rw [hdone, Option.bind_some, hitem] at hout
  exact Option.some.inj hout

end AssetPack
