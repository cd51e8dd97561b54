import AssetPack.Description.Keys
import AssetPack.Proofs.Description.Marks
import AssetPack.Proofs.Value.Opened
import Mathlib.Data.Fintype.List
import Mathlib.Data.Set.Card
import Mathlib.Data.Set.Finite.Lattice
import Mathlib.Data.Set.List
import Mathlib.Logic.Relation

/-!
# Values in scope

Each dictionary with `res:values` sets them over the values in scope around it, and a text `res:name` stands for the
value of that name in the scope at its place. That value is taken to the place of the text, and what it looks up is
looked up there. All scopes of a description are made of entries of its dictionaries, so they are finitely many. If no
look-up leads back to itself, to follow the look-ups therefore comes to an end.
-/
namespace AssetPack

/-- The values in scope at a place. Where no `res:values` encloses the place nothing is in scope, for no name and no
selector. -/
abbrev Scope := Option (Dict Value)

namespace Scope

/-- The value of a name or a selector in scope. -/
def find? (σ : Scope) (name : String) : Option Value := σ.bind (·.find? name)

/-- The scope within a dictionary: its `res:values`, if it has them, over the values in scope around it. -/
def inside (σ : Scope) (d : Dict Value) : Scope :=
  match (d.get? Key.values).bind Value.dict? with
  | some values => some ((σ.getD ∅).merge values)
  | none => σ

end Scope

/-- A name or a selector that is looked up, and the scope at the place where it is. -/
structure LookUp where
  scope : Scope
  name : String

namespace LookUp

def value? (l : LookUp) : Option Value := Scope.find? l.scope l.name

end LookUp

namespace Value

/-- What is looked up in a value by itself, whose place is in the scope. Nothing is in its `res:values`. -/
inductive LooksUp : Scope → Value → LookUp → Prop
  | text {σ : Scope} {text name : String} : after? Key.reserved text = some name → LooksUp σ (.string text) ⟨σ, name⟩
  | item {σ : Scope} {items : List Value} {v : Value} {l : LookUp} :
      v ∈ items → LooksUp σ v l → LooksUp σ (.list items) l
  | entry {σ : Scope} {d : Dict Value} {entry : String × Value} {l : LookUp} :
      entry ∈ d.entries → entry.1 ≠ Key.values → LooksUp (Scope.inside σ d) entry.2 l → LooksUp σ (.dict d) l

end Value

/-- What is looked up in the value that is found, at the place of the look-up. -/
def LookUp.Leads (l m : LookUp) : Prop := ∃ v, l.value? = some v ∧ v.LooksUp l.scope m

namespace Value

/-- What is met from a value: what is looked up in it, and in the values that are found. -/
def Meets (σ : Scope) (v : Value) (l : LookUp) : Prop :=
  ∃ first, v.LooksUp σ first ∧ Relation.ReflTransGen LookUp.Leads first l

/-- Everything that is met has a value. -/
def Bound (σ : Scope) (v : Value) : Prop := ∀ l, v.Meets σ l → l.value?.isSome = true

/-- `w` is `v` without `res:values`, and with the values in scope in place of the texts that stand for them, each
taken to the place of the text. -/
inductive Substituted : Scope → Value → Value → Prop
  | atom {σ : Scope} {a : Atom} : (∀ text, a = .string text → after? Key.reserved text = none) →
      Substituted σ (.atom a) (.atom a)
  | text {σ : Scope} {text name : String} {v w : Value} : after? Key.reserved text = some name →
      Scope.find? σ name = some v → Substituted σ v w → Substituted σ (.string text) w
  | list {σ : Scope} {items done : List Value} : items.length = done.length →
      (∀ (i : Nat) v w, items[i]? = some v → done[i]? = some w → Substituted σ v w) →
      Substituted σ (.list items) (.list done)
  | dict {σ : Scope} {d out : Dict Value} : out.Distinct → out.names = (d.erase Key.values).names →
      (∀ name v w, (d.erase Key.values).get? name = some v → out.get? name = some w →
        Substituted (Scope.inside σ d) v w) → Substituted σ (.dict d) (.dict out)

/-! ## What is met -/

variable {σ : Scope} {l : LookUp}

theorem looksUp_text {text name : String} (h : after? Key.reserved text = some name) :
    (string text).LooksUp σ l ↔ l = ⟨σ, name⟩ := by
  constructor
  · intro hl
    cases hl with
    | text h' =>
      cases h.symm.trans h'
      rfl
  · rintro rfl
    exact .text h

theorem not_looksUp_atom {a : Atom} (h : ∀ text, a = .string text → after? Key.reserved text = none) :
    ¬(atom a).LooksUp σ l := by
  intro hl
  cases hl with
  | text h' => cases (h _ rfl).symm.trans h'

@[simp] theorem looksUp_list {items : List Value} : (list items).LooksUp σ l ↔ ∃ v ∈ items, v.LooksUp σ l := by
  constructor
  · intro h
    cases h with
    | item hv hl => exact ⟨_, hv, hl⟩
  · rintro ⟨v, hv, hl⟩
    exact .item hv hl

@[simp] theorem looksUp_dict {d : Dict Value} : (dict d).LooksUp σ l ↔
    ∃ entry ∈ (d.erase Key.values).entries, entry.2.LooksUp (Scope.inside σ d) l := by
  constructor
  · intro h
    cases h with
    | entry hentry hne hl => exact ⟨_, List.mem_filter.mpr ⟨hentry, decide_eq_true hne⟩, hl⟩
  · rintro ⟨entry, hentry, hl⟩
    obtain ⟨hentry, hne⟩ := List.mem_filter.mp hentry
    exact .entry hentry (of_decide_eq_true hne) hl

theorem Meets.tail {v : Value} {m : LookUp} (h : v.Meets σ l) (hlm : l.Leads m) : v.Meets σ m := by
  obtain ⟨first, hfirst, hl⟩ := h
  exact ⟨first, hfirst, hl.tail hlm⟩

/-- A text is bound if it has a value and that one is bound at the place of the text. -/
theorem bound_text {text name : String} (h : after? Key.reserved text = some name) :
    (string text).Bound σ ↔ ∃ v, Scope.find? σ name = some v ∧ v.Bound σ := by
  constructor
  · intro hbound
    obtain ⟨v, hv⟩ := Option.isSome_iff_exists.mp (hbound ⟨σ, name⟩ ⟨_, .text h, .refl⟩)
    refine ⟨v, hv, fun l hl => ?_⟩
    obtain ⟨first, hfirst, hl⟩ := hl
    exact hbound l ⟨_, .text h, .head ⟨v, hv, hfirst⟩ hl⟩
  · rintro ⟨v, hv, hbound⟩ l ⟨first, hfirst, hl⟩
    rw [looksUp_text h] at hfirst
    subst hfirst
    rcases hl.cases_head with rfl | ⟨next, ⟨v', hv', hnext⟩, hl⟩
    · exact Option.isSome_iff_exists.mpr ⟨v, hv⟩
    · cases hv.symm.trans hv'
      exact hbound l ⟨next, hnext, hl⟩

theorem bound_atom {a : Atom} (h : ∀ text, a = .string text → after? Key.reserved text = none) : (atom a).Bound σ := by
  rintro l ⟨first, hfirst, -⟩
  exact absurd hfirst (not_looksUp_atom h)

@[simp] theorem bound_list {items : List Value} : (list items).Bound σ ↔ ∀ v ∈ items, v.Bound σ := by
  constructor
  · rintro h v hv l ⟨first, hfirst, hl⟩
    exact h l ⟨first, looksUp_list.mpr ⟨v, hv, hfirst⟩, hl⟩
  · rintro h l ⟨first, hfirst, hl⟩
    obtain ⟨v, hv, hfirst⟩ := looksUp_list.mp hfirst
    exact h v hv l ⟨first, hfirst, hl⟩

@[simp] theorem bound_dict {d : Dict Value} :
    (dict d).Bound σ ↔ ∀ entry ∈ (d.erase Key.values).entries, entry.2.Bound (Scope.inside σ d) := by
  constructor
  · rintro h entry hentry l ⟨first, hfirst, hl⟩
    exact h l ⟨first, looksUp_dict.mpr ⟨entry, hentry, hfirst⟩, hl⟩
  · rintro h l ⟨first, hfirst, hl⟩
    obtain ⟨entry, hentry, hfirst⟩ := looksUp_dict.mp hfirst
    exact h entry hentry l ⟨first, hfirst, hl⟩

/-- Look-ups that only lead down do not lead back. -/
theorem acyclic_of_rank {v : Value} (rank : LookUp → Nat)
    (h : ∀ l m, v.Meets σ l → l.Leads m → rank m < rank l) (hl : v.Meets σ l) :
    ¬Relation.TransGen LookUp.Leads l l := by
  have hlt {m : LookUp} (hm : Relation.TransGen LookUp.Leads l m) : v.Meets σ m ∧ rank m < rank l := by
    induction hm with
    | single hm => exact ⟨hl.tail hm, h l _ hl hm⟩
    | tail _ hm ih => exact ⟨ih.1.tail hm, (h _ _ ih.1 hm).trans ih.2⟩
  exact fun hcycle => (hlt hcycle).2.ne rfl

/-- Nothing is substituted in two ways. -/
theorem Substituted.unique {v w w' : Value} (h : v.Substituted σ w) (h' : v.Substituted σ w') : w = w' := by
  induction h generalizing w' with
  | @atom σ a hnone =>
    cases h' with
    | atom _ => rfl
    | text hsome _ _ => cases (hnone _ rfl).symm.trans hsome
  | text hsome hv _ ih =>
    cases h' with
    | atom hnone => cases (hnone _ rfl).symm.trans hsome
    | text hsome' hv' hw' =>
      cases hsome.symm.trans hsome'
      cases hv.symm.trans hv'
      exact ih hw'
  | @list σ items done hlength _ ih =>
    cases h' with
    | @list _ _ done' hlength' hall =>
      refine congrArg Value.list (List.ext_getElem (hlength.symm.trans hlength') fun i hi hi' => ?_)
      have hv := List.getElem?_eq_getElem (hlength.symm ▸ hi)
      exact ih i _ _ hv (List.getElem?_eq_getElem hi) (hall i _ _ hv (List.getElem?_eq_getElem hi'))
  | @dict σ d out hdistinct hnames _ ih =>
    cases h' with
    | @dict _ _ out' hdistinct' hnames' hall =>
      refine congrArg Value.dict (Dict.eq_of_get? hdistinct hdistinct' (hnames.trans hnames'.symm) fun name hname => ?_)
      obtain ⟨v, hv⟩ := Dict.exists_get? (hnames ▸ hname)
      obtain ⟨w, hw⟩ := Dict.exists_get? hname
      have hname' : name ∈ out'.names := hnames' ▸ hnames ▸ hname
      obtain ⟨w', hw'⟩ := Dict.exists_get? hname'
      rw [hw, hw', ih name v w hv hw (hall name v w' hv hw')]

end Value

/-! ## What a description comes to -/

instance (v : Value) : Decidable (∃ d, v = .dict d) :=
  match v with
  | .dict d => isTrue ⟨d, rfl⟩
  | .atom _ | .list _ | .block _ | .saved _ => isFalse nofun

/-- The value itself has nothing put in place but values in scope, and `res:values` that it has are a dictionary. -/
def Value.Scoping : Value → Prop
  | .dict d => d.Distinct ∧ (∀ name ∈ d.names, name ∉ [Key.imported, Key.template, Key.base]) ∧
      ∀ v ∈ d.get? Key.values, ∃ values, v = .dict values
  | .string text => after? Key.localized text = none
  | .block _ => False
  | .saved _ => False
  | _ => True

/-- The entries are entries of dictionaries in the description. -/
structure Dict.Composed (root s : Dict Value) : Prop where
  distinct : s.Distinct
  entries : ∀ entry ∈ s.entries, ∃ d, (Value.dict d).Within (.dict root) ∧ entry ∈ d.entries

/-- The values in scope, if there are, are composed of entries of the description. -/
def Scope.Composed (root : Dict Value) (σ : Scope) : Prop := ∀ s, σ = some s → root.Composed s

/-- The value stands in the description, or it is a dictionary composed of entries of it. -/
def Value.Occurs (root : Dict Value) (v : Value) : Prop :=
  v.Within (.dict root) ∨ ∃ s, v = .dict s ∧ root.Composed s

/-- The values in scope are composed of entries of the description, and what is looked up stands in it. -/
structure LookUp.Occurs (root : Dict Value) (l : LookUp) : Prop where
  scope : Scope.Composed root l.scope
  name : ∃ text, (Value.string text).Within (.dict root) ∧ after? Key.reserved text = some l.name

namespace Dict
variable {root s : Dict Value}

theorem Composed.within_entry (h : root.Composed s) {entry : String × Value} (hentry : entry ∈ s.entries) :
    entry.2.Within (.dict root) := by
  obtain ⟨d, hd, hmem⟩ := h.entries entry hentry
  exact Value.Within.trans (.entry hmem .self) hd

theorem Composed.occurs (h : root.Composed s) {v : Value} (hv : v.Within (.dict s)) : v.Occurs root := by
  cases hv with
  | self => exact .inr ⟨s, rfl, h⟩
  | entry hentry hv => exact .inl (hv.trans (h.within_entry hentry))

end Dict

theorem LookUp.Occurs.found {root : Dict Value} {l : LookUp} (h : l.Occurs root) {v : Value} (hv : l.value? = some v) :
    v.Occurs root := by
  obtain ⟨s, hs, hfind⟩ := Option.bind_eq_some_iff.mp hv
  exact (h.scope s hs).occurs (Value.within_of_find? hfind)

section
variable {root : Dict Value} (hroot : (Value.dict root).Throughout Value.Scoping)
include hroot

theorem Dict.Composed.of_within {d : Dict Value} (h : (Value.dict d).Within (.dict root)) : root.Composed d :=
  ⟨(hroot _ h).1, fun _ hentry => ⟨d, h, hentry⟩⟩

theorem Value.Occurs.composed {d : Dict Value} (h : (Value.dict d).Occurs root) : root.Composed d := by
  rcases h with h | ⟨s, heq, hs⟩
  · exact .of_within hroot h
  · cases heq
    exact hs

/-- What is composed of its entries keeps to what holds of the description. -/
theorem Dict.Composed.scoping {s : Dict Value} (h : root.Composed s) : (Value.dict s).Scoping := by
  refine ⟨h.distinct, fun name hname => ?_, fun v hv => ?_⟩
  · obtain ⟨entry, hentry, rfl⟩ := List.mem_map.mp hname
    obtain ⟨d, hd, hmem⟩ := h.entries entry hentry
    exact (hroot _ hd).2.1 entry.1 (List.mem_map_of_mem hmem)
  · obtain ⟨d, hd, hmem⟩ := h.entries _ (Dict.mem_of_get? hv)
    have hdict := hroot _ hd
    exact hdict.2.2 v (Dict.get?_of_mem hdict.1 hmem)

theorem Value.Occurs.scoping {v : Value} (h : v.Occurs root) : v.Scoping := by
  rcases h with h | ⟨s, rfl, hs⟩
  · exact hroot v h
  · exact hs.scoping hroot

theorem Scope.Composed.inside {σ : Scope} (hσ : Scope.Composed root σ) {d : Dict Value} (hd : root.Composed d) :
    Scope.Composed root (Scope.inside σ d) := by
  rw [Scope.inside]
  split
  · rename_i values hvalues
    obtain ⟨v, hv, hdict⟩ := Option.bind_eq_some_iff.mp hvalues
    obtain ⟨_, rfl⟩ := (hd.scoping hroot).2.2 v hv
    cases hdict
    have hvalues : root.Composed values := .of_within hroot (hd.within_entry (Dict.mem_of_get? hv))
    have houter : root.Composed (σ.getD ∅) := by
      cases σ with
      | none => exact ⟨.nil, fun _ hentry => (List.not_mem_nil hentry).elim⟩
      | some s => exact hσ s rfl
    rintro _ ⟨⟩
    constructor
    · exact Dict.distinct_merge houter.distinct values
    · intro entry hentry
      exact (Dict.mem_setAll hentry).elim (houter.entries entry) (hvalues.entries entry)
  · exact hσ

/-- What is looked up at a place of the description occurs in it. -/
theorem Value.LooksUp.occurs {σ : Scope} {v : Value} {l : LookUp} (h : v.LooksUp σ l) (hv : v.Occurs root)
    (hσ : Scope.Composed root σ) : l.Occurs root := by
  induction h with
  | text htext =>
    rcases hv with hv | ⟨_, ⟨⟩, -⟩
    exact ⟨hσ, _, hv, htext⟩
  | item hmem _ ih =>
    rcases hv with hv | ⟨_, ⟨⟩, -⟩
    exact ih (.inl (Value.Within.trans (.item hmem .self) hv)) hσ
  | entry hmem _ _ ih =>
    have hd := hv.composed hroot
    exact ih (.inl (hd.within_entry hmem)) (hσ.inside hroot hd)

theorem LookUp.Occurs.leads {l m : LookUp} (h : l.Occurs root) (hlm : l.Leads m) : m.Occurs root := by
  obtain ⟨v, hv, hm⟩ := hlm
  exact hm.occurs hroot (h.found hv) h.scope

end

/-! ## Only finitely many look-ups -/

theorem Value.finite_within {v : Value} (h : v.Throughout Value.Scoping) : {u : Value | u.Within v}.Finite := by
  induction v with
  | atom a =>
    refine (Set.finite_singleton (Value.atom a)).subset fun u hu => ?_
    cases hu
    rfl
  | list items ih =>
    have hitems := items.finite_toSet.biUnion fun v hv => ih v hv ((throughout_list.mp h).2 v hv)
    refine (hitems.insert (Value.list items)).subset fun u hu => ?_
    cases hu with
    | self => exact .inl rfl
    | item hv hu => exact .inr (Set.mem_biUnion hv hu)
  | dict d ih =>
    have hentries := d.entries.finite_toSet.biUnion fun entry hentry =>
      ih entry hentry ((throughout_dict.mp h).2 entry hentry)
    refine (hentries.insert (Value.dict d)).subset fun u hu => ?_
    cases hu with
    | self => exact .inl rfl
    | entry hentry hu => exact .inr (Set.mem_biUnion hentry hu)
  | block b => exact h.here.elim
  | saved p => exact h.here.elim

theorem finite_nodup_lists {α : Type} {S : Set α} (hS : S.Finite) : {l : List α | l.Nodup ∧ ∀ a ∈ l, a ∈ S}.Finite := by
  classical
  have := hS.fintype
  refine (Set.finite_range fun l : {l : List S // l.Nodup} => l.1.map Subtype.val).subset fun l hl => ?_
  obtain ⟨hnodup, hmem⟩ := hl
  have hlift : l ∈ Set.range (List.map ((↑) : S → α)) := by
    rw [Set.range_list_map_coe]
    exact hmem
  obtain ⟨l', rfl⟩ := hlift
  exact ⟨⟨l', hnodup.of_map _⟩, rfl⟩

theorem Dict.finite_composed {root : Dict Value} (hroot : (Value.dict root).Throughout Value.Scoping) :
    {s | root.Composed s}.Finite := by
  have hpool : {entry : String × Value | ∃ d, (Value.dict d).Within (.dict root) ∧ entry ∈ d.entries}.Finite := by
    have hfields (u : Value) : {entry : String × Value | ∃ d, u = .dict d ∧ entry ∈ d.entries}.Finite := by
      cases u with
      | dict d =>
        refine d.entries.finite_toSet.subset fun entry hentry => ?_
        obtain ⟨_, ⟨⟩, hmem⟩ := hentry
        exact hmem
      | _ =>
        refine Set.finite_empty.subset fun entry hentry => ?_
        obtain ⟨_, ⟨⟩, -⟩ := hentry
    refine ((Value.finite_within hroot).biUnion fun u _ => hfields u).subset fun entry hentry => ?_
    obtain ⟨d, hd, hmem⟩ := hentry
    exact Set.mem_biUnion hd ⟨d, rfl, hmem⟩
  refine ((finite_nodup_lists hpool).image Dict.mk).subset fun s hs => ?_
  exact ⟨s.entries, ⟨List.Nodup.of_map _ hs.distinct, hs.entries⟩, rfl⟩

theorem LookUp.finite_occurs {root : Dict Value} (hroot : (Value.dict root).Throughout Value.Scoping) :
    {l : LookUp | l.Occurs root}.Finite := by
  have hscopes : {σ | Scope.Composed root σ}.Finite := by
    refine (((Dict.finite_composed hroot).image some).insert none).subset fun σ hσ => ?_
    cases σ with
    | none => exact .inl rfl
    | some s => exact .inr ⟨s, hσ s rfl, rfl⟩
  have hnames : {name | ∃ text, (Value.string text).Within (.dict root) ∧
      after? Key.reserved text = some name}.Finite := by
    refine ((Value.finite_within hroot).image fun u =>
      (u.string?.bind (after? Key.reserved)).getD "").subset fun name hname => ?_
    obtain ⟨text, htext, hafter⟩ := hname
    refine ⟨_, htext, ?_⟩
    simp [Value.string?, hafter]
  refine (hscopes.image2 LookUp.mk hnames).subset fun l hl => ?_
  exact ⟨l.scope, hl.scope, l.name, hl.name, rfl⟩

/-- Where only finitely much is reached and nothing on the way is reached from itself, every way ends. -/
theorem acc_of_finite {α : Type} {r : α → α → Prop} {a : α} (hfinite : {b | Relation.ReflTransGen r a b}.Finite)
    (hacyclic : ∀ b, Relation.ReflTransGen r a b → ¬Relation.TransGen r b b) : Acc (fun b a => r a b) a := by
  induction hn : {b | Relation.ReflTransGen r a b}.ncard using Nat.strong_induction_on generalizing a with
  | _ n ih =>
    refine Acc.intro a fun b hb => ?_
    have hfewer : {c | Relation.ReflTransGen r b c} ⊂ {c | Relation.ReflTransGen r a c} := by
      constructor
      · exact fun c hc => .head hb hc
      · exact fun hback => hacyclic a .refl (.head' hb (hback .refl))
    refine ih _ ?_ (hfinite.subset hfewer.1) (fun c hc => hacyclic c (.head hb hc)) rfl
    rw [← hn]
    exact Set.ncard_lt_ncard hfewer hfinite

/-- If no look-up that is met leads back to itself, to follow the look-ups comes to an end. -/
theorem LookUp.Occurs.acc {root : Dict Value} (hroot : (Value.dict root).Throughout Value.Scoping) {l : LookUp}
    (hl : l.Occurs root)
    (hacyclic : ∀ m, Relation.ReflTransGen LookUp.Leads l m → ¬Relation.TransGen LookUp.Leads m m) :
    Acc (fun m l => LookUp.Leads l m) l := by
  apply acc_of_finite _ hacyclic
  refine (LookUp.finite_occurs hroot).subset fun m hm => ?_
  induction hm with
  | refl => exact hl
  | tail _ hlast ih => exact LookUp.Occurs.leads hroot ih hlast

end AssetPack
