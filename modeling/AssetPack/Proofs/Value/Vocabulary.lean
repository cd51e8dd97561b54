import AssetPack.Proofs.Dict
import AssetPack.Selector
import AssetPack.Value

/-!
# Vocabularies

A vocabulary tells which atoms, names and payloads may stand in a value. It is a property of all parts of the value,
so whatever rebuilds values part by part stays in it.
-/
namespace AssetPack

/-!
## Parts of a value

The parts of a value are the value itself and, from there on, the items of lists and the entries of
dictionaries. Blocks and payloads stay closed. A property that every part of a value has is kept by
everything that rebuilds values part by part.
-/

namespace Value

/-- Induction over a value by its items and entries. -/
@[induction_eliminator, elab_as_elim]
theorem induction_inside {motive : Value → Prop}
    (atom : ∀ a, motive (.atom a))
    (list : ∀ items, (∀ v ∈ items, motive v) → motive (.list items))
    (dict : ∀ d : Dict Value, (∀ entry ∈ d.entries, motive entry.2) → motive (.dict d))
    (block : ∀ b, motive (.block b))
    (saved : ∀ p, motive (.saved p)) (v : Value) : motive v := by
  cases v with
  | atom a => exact atom a
  | list items =>
    exact list items fun v h => induction_inside atom list dict block saved v
  | dict d =>
    exact dict d fun entry h => induction_inside atom list dict block saved entry.2
  | block b => exact block b
  | saved p => exact saved p
termination_by sizeOf v
decreasing_by
  · have := List.sizeOf_lt_of_mem h
    simp only [Value.list.sizeOf_spec]
    omega
  · have hmem := List.sizeOf_lt_of_mem h
    have hentry : sizeOf entry = 1 + sizeOf entry.1 + sizeOf entry.2 := by cases entry; rfl
    have hdict : sizeOf d = 1 + sizeOf d.entries := by cases d; rfl
    simp only [Value.dict.sizeOf_spec]
    omega

/-- `u` is the value itself or stands in it, with no block or payload opened on the way. -/
inductive Part (u : Value) : Value → Prop
  | self : Part u u
  | item {items : List Value} {v : Value} : v ∈ items → Part u v → Part u (.list items)
  | entry {d : Dict Value} {entry : String × Value} :
      entry ∈ d.entries → Part u entry.2 → Part u (.dict d)

/-- Every part has the property `P`. -/
def Each (P : Value → Prop) (v : Value) : Prop := ∀ u, Part u v → P u

variable {P Q : Value → Prop}

theorem Each.here {v : Value} (h : v.Each P) : P v := h v .self

theorem Each.mono {v : Value} (h : v.Each P) (hpq : ∀ u, P u → Q u) : v.Each Q :=
  fun u hu => hpq u (h u hu)

@[simp] theorem each_atom (a : Atom) : (atom a).Each P ↔ P (.atom a) := by
  constructor
  · exact Each.here
  · intro h u hu
    cases hu
    exact h

@[simp] theorem each_block (b : Block) : (block b).Each P ↔ P (.block b) := by
  constructor
  · exact Each.here
  · intro h u hu
    cases hu
    exact h

@[simp] theorem each_saved (p : Payload) : (saved p).Each P ↔ P (.saved p) := by
  constructor
  · exact Each.here
  · intro h u hu
    cases hu
    exact h

@[simp] theorem each_list (items : List Value) :
    (list items).Each P ↔ P (.list items) ∧ ∀ v ∈ items, v.Each P := by
  constructor
  · intro h
    exact ⟨h.here, fun v hv u hu => h u (.item hv hu)⟩
  · rintro ⟨hhere, hitems⟩ u hu
    cases hu with
    | self => exact hhere
    | item hv hu => exact hitems _ hv u hu

@[simp] theorem each_dict (d : Dict Value) :
    (dict d).Each P ↔ P (.dict d) ∧ ∀ entry ∈ d.entries, entry.2.Each P := by
  constructor
  · intro h
    exact ⟨h.here, fun entry he u hu => h u (.entry he hu)⟩
  · rintro ⟨hhere, hentries⟩ u hu
    cases hu with
    | self => exact hhere
    | entry he hu => exact hentries _ he u hu

end Value

/-!
## Vocabularies

A vocabulary tells which atoms, names and payloads may stand in a value. A value of a vocabulary has no
closed blocks and no dictionary with a name twice. Whatever takes a value apart or puts dictionaries
together stays in the vocabulary.
-/

/-- What may stand in a value. -/
structure Vocabulary where
  atom : Atom → Prop
  name : String → Prop
  payload : Payload → Prop

namespace Value
variable {V W : Vocabulary}

/-- Every part of the value is of the vocabulary. -/
def Of (V : Vocabulary) (v : Value) : Prop :=
  v.Each fun
    | .atom a => V.atom a
    | .list _ => True
    | .dict d => d.Distinct ∧ ∀ name ∈ d.names, V.name name
    | .block _ => False
    | .saved p => V.payload p

@[simp] theorem of_atom {a : Atom} : (atom a).Of V ↔ V.atom a := each_atom a

@[simp] theorem of_list {items : List Value} : (list items).Of V ↔ ∀ v ∈ items, v.Of V :=
  (each_list items).trans (and_iff_right trivial)

theorem of_dict {d : Dict Value} : (dict d).Of V ↔
    (d.Distinct ∧ ∀ name ∈ d.names, V.name name) ∧ ∀ entry ∈ d.entries, entry.2.Of V := each_dict d

@[simp] theorem not_of_block {b : Block} : ¬(block b).Of V := fun h => (each_block b).mp h

@[simp] theorem of_saved {p : Payload} : (saved p).Of V ↔ V.payload p := each_saved p

theorem Of.mono {v : Value} (h : v.Of V) (hatom : ∀ a, V.atom a → W.atom a)
    (hname : ∀ name, V.name name → W.name name) (hpayload : ∀ p, V.payload p → W.payload p) : v.Of W := by
  refine Each.mono h fun u hu => ?_
  cases u with
  | atom a => exact hatom a hu
  | list items => trivial
  | dict d => exact ⟨hu.1, fun name hname' => hname name (hu.2 name hname')⟩
  | block b => exact hu
  | saved p => exact hpayload p hu

/-- A dictionary of the vocabulary is open. -/
theorem Of.eq_dict {v : Value} (h : v.Of V) {d : Dict Value} (hd : v.dict? = some d) : v = .dict d := by
  cases v with
  | dict e =>
    cases hd
    rfl
  | block b => exact (not_of_block h).elim
  | _ => cases hd

end Value

namespace Dict
variable {V : Vocabulary} {d e : Dict Value}

/-- The dictionary is of the vocabulary. -/
def Of (V : Vocabulary) (d : Dict Value) : Prop := (Value.dict d).Of V

theorem Of.distinct (h : d.Of V) : d.Distinct := (Value.of_dict.mp h).1.1

theorem Of.name (h : d.Of V) {name : String} (hname : name ∈ d.names) : V.name name :=
  (Value.of_dict.mp h).1.2 name hname

theorem Of.entry (h : d.Of V) {entry : String × Value} (he : entry ∈ d.entries) : entry.2.Of V :=
  (Value.of_dict.mp h).2 entry he

theorem mem_names {entry : String × Value} (h : entry ∈ d.entries) : entry.1 ∈ d.names :=
  List.mem_map_of_mem h

theorem of_intro (hdistinct : d.Distinct)
    (h : ∀ entry ∈ d.entries, V.name entry.1 ∧ entry.2.Of V) : d.Of V := by
  refine Value.of_dict.mpr ⟨⟨hdistinct, fun name hname => ?_⟩, fun entry he => (h entry he).2⟩
  obtain ⟨entry, he, rfl⟩ := List.mem_map.mp hname
  exact (h entry he).1

theorem of_empty : (∅ : Dict Value).Of V := of_intro List.nodup_nil (by simp)

theorem Of.get? (h : d.Of V) {name : String} {v : Value} (hv : d.get? name = some v) :
    V.name name ∧ v.Of V :=
  ⟨h.name (mem_names (mem_of_get? hv)), h.entry (mem_of_get? hv)⟩

theorem Of.set (h : d.Of V) {name : String} {v : Value} (hname : V.name name) (hv : v.Of V) :
    (d.set name v).Of V := by
  refine of_intro (distinct_set h.distinct name v) fun entry he => ?_
  rcases mem_set he with rfl | he
  · exact ⟨hname, hv⟩
  · exact ⟨h.name (mem_names he), h.entry he⟩

theorem Of.setAll (h : d.Of V) {entries : List (String × Value)}
    (hentries : ∀ entry ∈ entries, V.name entry.1 ∧ entry.2.Of V) : (d.setAll entries).Of V := by
  refine of_intro (distinct_setAll h.distinct entries) fun entry he => ?_
  rcases mem_setAll he with he | he
  · exact ⟨h.name (mem_names he), h.entry he⟩
  · exact hentries entry he

theorem of_ofList {entries : List (String × Value)}
    (hentries : ∀ entry ∈ entries, V.name entry.1 ∧ entry.2.Of V) : (ofList entries).Of V :=
  of_empty.setAll hentries

theorem Of.merge (h : d.Of V) (he : e.Of V) : (d.merge e).Of V :=
  h.setAll fun _ hentry => ⟨he.name (mem_names hentry), he.entry hentry⟩

theorem Of.filter (h : d.Of V) (keep : String × Value → Bool) : (⟨d.entries.filter keep⟩ : Dict Value).Of V := by
  refine of_intro ?_ fun entry he => ?_
  · exact h.distinct.sublist (List.filter_sublist.map _)
  · have he := (List.mem_filter.mp he).1
    exact ⟨h.name (mem_names he), h.entry he⟩

theorem Of.erase (h : d.Of V) (name : String) : (d.erase name).Of V := h.filter _

end Dict

/-! ### Looking into a value -/

theorem Value.Of.dictValue? {V : Vocabulary} (hplain : ∀ p, ¬V.payload p) {v : Value} (h : v.Of V) {w : Value}
    (hw : v.dictValue? = some w) : v = w := by
  cases v with
  | dict d =>
    cases hw
    rfl
  | block b => exact (not_of_block h).elim
  | saved p => exact (hplain p (of_saved.mp h)).elim
  | _ => cases hw

theorem Value.Of.step? {V : Vocabulary} (hplain : ∀ p, ¬V.payload p) {v : Value} (h : v.Of V) {step : Step}
    {w : Value} (hw : Selector.step? v step = some w) : w.Of V := by
  cases step with
  | name name =>
    rw [Selector.step?] at hw
    split at hw
    · rwa [← h.dictValue? hplain hw]
    · obtain ⟨u, hu, hw⟩ := Option.bind_eq_some_iff.mp hw
      obtain rfl := h.dictValue? hplain hu
      obtain ⟨d, hd, hw⟩ := Option.bind_eq_some_iff.mp hw
      obtain rfl := h.eq_dict hd
      exact (Dict.Of.get? h hw).2
  | index n =>
    obtain ⟨items, hitems, hw⟩ := Option.bind_eq_some_iff.mp hw
    cases v with
    | list items' =>
      cases hitems
      exact of_list.mp h w (List.mem_of_getElem? hw)
    | _ => cases hitems

theorem Value.Of.follow? {V : Vocabulary} (hplain : ∀ p, ¬V.payload p) {steps : List Step} {v : Value}
    (h : v.Of V) {w : Value} (hw : Selector.follow? v steps = some w) : w.Of V := by
  induction steps generalizing v with
  | nil =>
    cases hw
    exact h
  | cons step steps ih =>
    rw [Selector.follow?, List.foldlM_cons] at hw
    obtain ⟨u, hu, hw⟩ := Option.bind_eq_some_iff.mp hw
    exact ih (h.step? hplain hu) hw

/-- What is found in a dictionary is of its vocabulary. -/
theorem Dict.Of.find? {V : Vocabulary} (hplain : ∀ p, ¬V.payload p) {d : Dict Value} (h : d.Of V)
    {name : String} {v : Value} (hv : d.find? name = some v) : v.Of V := by
  rw [Dict.find?] at hv
  split at hv
  · obtain ⟨steps, _, hv⟩ := Option.bind_eq_some_iff.mp hv
    cases steps with
    | nil => cases hv
    | cons step steps =>
      cases step with
      | name name =>
        obtain ⟨u, hu, hv⟩ := Option.bind_eq_some_iff.mp hv
        have hof : u.Of V := by
          split at hu
          · cases hu
            exact h
          · exact (h.get? hu).2
        exact hof.follow? hplain hv
      | index n => cases hv
  · exact (h.get? hv).2

end AssetPack
