import AssetPack.Codec.Decode
import AssetPack.Proofs.Codec.Form
import AssetPack.Proofs.Tree.Opening
import AssetPack.Proofs.Value.Vocabulary
import AssetPack.Selector

/-!
# Values at every depth

Forms hold dictionaries, and these hold values again. What is said of a value at every depth goes through the forms.
-/
namespace AssetPack

/-!
## Values at every depth

What lies within a value when everything in it is opened, the blocks and the payloads that hold
dictionaries too.
-/

namespace Value
variable {V : Vocabulary}

/-- `u` is the value itself or lies in it at some depth. -/
inductive Within (u : Value) : Value → Prop
  | self : Within u u
  | item {items : List Value} {v : Value} : v ∈ items → Within u v → Within u (.list items)
  | entry {d : Dict Value} {entry : String × Value} :
      entry ∈ d.entries → Within u entry.2 → Within u (.dict d)
  | block {b : Block} {d : Dict Value} : b.load = .ok d → Within u (.dict d) → Within u (.block b)
  | saved {p : Payload} {d : Dict Value} :
      p.content = .dict → p.loadDict = .ok d → Within u (.dict d) → Within u (.saved p)

/-- What the value itself says is of the vocabulary: the atom that it is, or its names. -/
def Speaks (V : Vocabulary) : Value → Prop
  | .atom a => V.atom a
  | .dict d => ∀ name ∈ d.names, V.name name
  | _ => True

theorem Of.speaks {v : Value} (h : v.Of V) : v.Speaks V := by
  cases v with
  | atom a => exact of_atom.mp h
  | dict d => exact (of_dict.mp h).1.2
  | _ => trivial

/-- If that is so within the payloads of the vocabulary, it is so at every depth of its values. -/
theorem Of.speaks_within (hpayload : ∀ p, V.payload p → ∀ u, Within u (.saved p) → u.Speaks V) {v u : Value}
    (h : v.Of V) (hu : Within u v) : u.Speaks V := by
  induction hu with
  | self => exact h.speaks
  | item hmem _ ih => exact ih (of_list.mp h _ hmem)
  | entry hmem _ ih => exact ih (Dict.Of.entry h hmem)
  | block _ _ _ => exact (not_of_block h).elim
  | saved hcontent hload hu _ => exact hpayload _ (of_saved.mp h) _ (.saved hcontent hload hu)

end Value

theorem valueItems_eq (ts : List Tree) : valueItems ts = ts.map Tree.value := by
  induction ts with
  | nil => rfl
  | cons t ts ih => rw [valueItems, ih, List.map_cons]

theorem Dict.value_eq (d : Dict Tree) : d.value = d.map Tree.value := by
  have h (entries : List (String × Tree)) :
      valueEntries entries = entries.map fun entry => (entry.1, entry.2.value) := by
    induction entries with
    | nil => rfl
    | cons entry rest ih => rw [valueEntries, ih, List.map_cons]
  obtain ⟨entries⟩ := d
  rw [Dict.value, h]
  rfl

/-!
## Opening values

What holds of the dictionary that a form opens to, and induction that goes on inside the forms of a value. Steps
lead to values at every depth, through whatever form a dictionary is in.
-/

namespace Value

/-- Induction over a value by its items and entries and by what its forms open to. -/
@[elab_as_elim]
theorem induction_opened {motive : Value → Prop}
    (atom : ∀ a, motive (.atom a))
    (list : ∀ items, (∀ v ∈ items, motive v) → motive (.list items))
    (dict : ∀ d : Dict Value, (∀ entry ∈ d.entries, motive entry.2) → motive (.dict d))
    (block : ∀ b, (∀ d, b.load = .ok d → motive (.dict d)) → motive (.block b))
    (saved : ∀ p, (p.content = .dict → ∀ d, p.loadDict = .ok d → motive (.dict d)) → motive (.saved p))
    (v : Value) : motive v := by
  cases v with
  | atom a => exact atom a
  | list items => exact list items fun v h => induction_opened atom list dict block saved v
  | dict d => exact dict d fun entry h => induction_opened atom list dict block saved entry.2
  | block b => exact block b fun d h => induction_opened atom list dict block saved (.dict d)
  | saved p => exact saved p fun hp d h => induction_opened atom list dict block saved (.dict d)
termination_by sizeOf v.tree
decreasing_by
  · have hlt := List.sizeOf_lt_of_mem (List.mem_map_of_mem (f := tree) h)
    rw [tree_list, Tree.list.sizeOf_spec]
    omega
  · have hmem := List.mem_map_of_mem (f := fun entry : String × Value => (entry.1, entry.2.tree)) h
    have hlt := List.sizeOf_lt_of_mem hmem
    have hdict : sizeOf d.tree = 1 + sizeOf (d.entries.map fun entry => (entry.1, entry.2.tree)) := by
      rw [Dict.tree_eq]
      rfl
    rw [tree_dict, Tree.dict.sizeOf_spec, hdict]
    rw [Prod.mk.sizeOf_spec] at hlt
    omega
  · rw [tree_block, h, tree_dict, Tree.dict.sizeOf_spec, Tree.dict.sizeOf_spec, Source.block.sizeOf_spec,
      Source.plain.sizeOf_spec]
    cases b
    rw [Block.mk.sizeOf_spec]
    omega
  · rw [tree_saved, if_pos hp, h, tree_dict, Tree.dict.sizeOf_spec, Tree.dict.sizeOf_spec,
      Source.payload.sizeOf_spec, Source.plain.sizeOf_spec]
    cases p
    rw [Payload.mk.sizeOf_spec]
    omega

/-- A tree is of the value that it was opened from. -/
theorem value_tree (v : Value) : v.tree.value = v := by
  induction v using Value.induction_opened with
  | atom a => rfl
  | list items ih =>
    rw [tree_list, Tree.value, valueItems_eq, List.map_map]
    exact congrArg Value.list ((List.map_congr_left ih).trans (List.map_id items))
  | dict d ih =>
    rw [tree_dict, Tree.value, Dict.tree_eq, Dict.value_eq]
    obtain ⟨entries⟩ := d
    have hentries : entries.map (fun entry : String × Value => (entry.1, entry.2.tree.value)) = entries := by
      refine (List.map_congr_left fun entry hentry => ?_).trans (List.map_id entries)
      rw [ih entry hentry]
      rfl
    exact congrArg (fun entries => Value.dict ⟨entries⟩) ((List.map_map ..).trans hentries)
  | block b ih =>
    rw [tree_block]
    split <;> rfl
  | saved p ih =>
    rw [tree_saved]
    split
    · split <;> rfl
    · rfl

theorem dict?_block_iff {b : Block} {d : Dict Value} : (block b).dict? = some d ↔ b.load = .ok d := by
  rw [dict?]
  cases b.load <;> simp [Except.toOption]

theorem dict?_of_closed {b : Block} {f : Fault} (h : b.load = .error f) : (block b).dict? = none := by
  rw [dict?, h]
  rfl

/-- The dictionary that a value carries, whatever its form. -/
def opened? (v : Value) : Option (Dict Value) := v.dictValue?.bind dict?

@[simp] theorem opened?_dict (d : Dict Value) : (dict d).opened? = some d := rfl

@[simp] theorem opened?_atom (a : Atom) : (atom a).opened? = none := rfl

@[simp] theorem opened?_list (items : List Value) : (list items).opened? = none := rfl

theorem opened?_block (b : Block) : (block b).opened? = b.load.toOption := rfl

theorem opened?_saved (p : Payload) :
    (saved p).opened? = if p.content = .dict then p.loadDict.toOption else none := by
  rw [opened?, dictValue?]
  split
  · cases p.loadDict <;> rfl
  · rfl

theorem opened?_block_iff {b : Block} {d : Dict Value} : (block b).opened? = some d ↔ b.load = .ok d := by
  rw [opened?_block]
  cases b.load <;> simp [Except.toOption]

theorem opened?_saved_iff {p : Payload} {d : Dict Value} :
    (saved p).opened? = some d ↔ p.content = .dict ∧ p.loadDict = .ok d := by
  rw [opened?_saved]
  split
  · cases p.loadDict <;> simp [Except.toOption, ‹p.content = .dict›]
  · simp [‹p.content ≠ .dict›]

theorem opened?_of_load {b : Block} {d : Dict Value} (h : b.load = .ok d) : (block b).opened? = some d :=
  opened?_block_iff.mpr h

theorem opened?_of_loadDict {p : Payload} {d : Dict Value} (hp : p.content = .dict) (h : p.loadDict = .ok d) :
    (saved p).opened? = some d := opened?_saved_iff.mpr ⟨hp, h⟩

/-- The form in which a value carries a dictionary stands in its tree beside what the dictionary is opened to. -/
theorem exists_tree_of_opened {v : Value} {d : Dict Value} (h : v.opened? = some d) :
    ∃ source, v.tree = .dict source d.tree := by
  cases v with
  | dict e =>
    cases h
    exact ⟨.plain, rfl⟩
  | block b => exact ⟨.block b, by rw [tree_block, opened?_block_iff.mp h]⟩
  | saved p =>
    obtain ⟨hp, hload⟩ := opened?_saved_iff.mp h
    exact ⟨.payload p, by rw [tree_saved, if_pos hp, hload]⟩
  | _ => cases h

/-- Induction over a value by its items and by the entries of the dictionary that it carries. -/
@[elab_as_elim]
theorem induction_carried {motive : Value → Prop}
    (list : ∀ items, (∀ v ∈ items, motive v) → motive (.list items))
    (dict : ∀ v d, v.opened? = some d → (∀ entry ∈ d.entries, motive entry.2) → motive v)
    (other : ∀ v, v.list? = none → v.opened? = none → motive v) (v : Value) : motive v := by
  suffices h : motive v ∧ ∀ d, v.opened? = some d → ∀ entry ∈ d.entries, motive entry.2 from h.1
  -- A value without items has the property by what it carries.
  have hcarried (v : Value) (hlist : v.list? = none)
      (hinside : ∀ d, v.opened? = some d → ∀ entry ∈ d.entries, motive entry.2) :
      motive v ∧ ∀ d, v.opened? = some d → ∀ entry ∈ d.entries, motive entry.2 := by
    refine ⟨?_, hinside⟩
    cases hd : v.opened? with
    | none => exact other v hlist hd
    | some d => exact dict v d hd (hinside d hd)
  induction v using induction_opened with
  | atom a => exact hcarried _ rfl nofun
  | list items ih => exact ⟨list items fun v hv => (ih v hv).1, nofun⟩
  | dict d ih =>
    refine hcarried _ rfl fun e he => ?_
    cases he
    exact fun entry hentry => (ih entry hentry).1
  | block b ih =>
    exact hcarried _ rfl fun d hd => (ih d (opened?_block_iff.mp hd)).2 d rfl
  | saved p ih =>
    refine hcarried _ rfl fun d hd => ?_
    obtain ⟨hp, hload⟩ := opened?_saved_iff.mp hd
    exact (ih hp d hload).2 d rfl

/-- What lies within the dictionary that a value carries lies within the value. -/
theorem Within.of_opened {u v : Value} {d : Dict Value} (h : v.opened? = some d) (hu : Within u (.dict d)) :
    Within u v := by
  cases v with
  | atom a => cases h
  | list items => cases h
  | dict e =>
    cases h
    exact hu
  | block b => exact .block (opened?_block_iff.mp h) hu
  | saved p =>
    obtain ⟨hp, hload⟩ := opened?_saved_iff.mp h
    exact .saved hp hload hu

theorem Within.trans {u v w : Value} (h : Within u v) (h' : Within v w) : Within u w := by
  induction h' with
  | self => exact h
  | item hmem _ ih => exact .item hmem ih
  | entry hmem _ ih => exact .entry hmem ih
  | block hload _ ih => exact .block hload ih
  | saved hp hload _ ih => exact .saved hp hload ih

/-! ### What is found lies within -/

theorem within_of_dictValue? {v w : Value} (h : v.dictValue? = some w) : Within w v := by
  cases v with
  | saved p =>
    rw [dictValue?] at h
    split at h
    · rename_i hp
      obtain ⟨d, hload, rfl⟩ := Option.map_eq_some_iff.mp h
      cases hresult : p.loadDict with
      | ok e =>
        rw [hresult] at hload
        cases hload
        exact .saved hp hresult .self
      | error f =>
        rw [hresult] at hload
        cases hload
    · cases h
  | dict d =>
    cases h
    exact .self
  | block b =>
    cases h
    exact .self
  | _ => cases h

theorem within_of_dict? {v : Value} {d : Dict Value} (h : v.dict? = some d) : Within (.dict d) v := by
  cases v with
  | dict e =>
    cases h
    exact .self
  | block b => exact .block (dict?_block_iff.mp h) .self
  | _ => cases h

theorem within_of_get? {d : Dict Value} {name : String} {v : Value} (h : d.get? name = some v) : Within v (.dict d) :=
  .entry (Dict.mem_of_get? h) .self

theorem within_of_step? {v w : Value} {step : Step} (h : Selector.step? v step = some w) : Within w v := by
  cases step with
  | name name =>
    rw [Selector.step?] at h
    split at h
    · exact within_of_dictValue? h
    · obtain ⟨u, hu, h⟩ := Option.bind_eq_some_iff.mp h
      obtain ⟨d, hd, h⟩ := Option.bind_eq_some_iff.mp h
      exact (within_of_get? h).trans ((within_of_dict? hd).trans (within_of_dictValue? hu))
  | index n =>
    obtain ⟨items, hitems, h⟩ := Option.bind_eq_some_iff.mp h
    cases v with
    | list items' =>
      cases hitems
      exact .item (List.mem_of_getElem? h) .self
    | _ => cases hitems

theorem within_of_follow? {steps : List Step} {v w : Value} (h : Selector.follow? v steps = some w) : Within w v := by
  induction steps generalizing v with
  | nil =>
    cases h
    exact .self
  | cons step steps ih =>
    rw [Selector.follow?, List.foldlM_cons] at h
    obtain ⟨u, hu, h⟩ := Option.bind_eq_some_iff.mp h
    exact (ih h).trans (within_of_step? hu)

/-- What is found in a dictionary, by a name or a selector, lies within it. -/
theorem within_of_find? {d : Dict Value} {name : String} {v : Value} (h : d.find? name = some v) :
    Within v (.dict d) := by
  rw [Dict.find?] at h
  split at h
  · obtain ⟨steps, _, h⟩ := Option.bind_eq_some_iff.mp h
    cases steps with
    | nil => cases h
    | cons step steps =>
      cases step with
      | index n => cases h
      | name name =>
        obtain ⟨u, hu, h⟩ := Option.bind_eq_some_iff.mp h
        refine (within_of_follow? h).trans ?_
        split at hu
        · cases hu
          exact .self
        · exact within_of_get? hu
  · exact within_of_get? h

/-- Every value within the value has the property `P`. -/
def Throughout (P : Value → Prop) (v : Value) : Prop := ∀ u, u.Within v → P u

section
variable {P : Value → Prop} {v : Value}

theorem Throughout.here (h : v.Throughout P) : P v := h v .self

theorem throughout_atom {a : Atom} : (atom a).Throughout P ↔ P (.atom a) := by
  constructor
  · exact Throughout.here
  · rintro h u (_ | _)
    exact h

theorem throughout_list {items : List Value} :
    (list items).Throughout P ↔ P (.list items) ∧ ∀ v ∈ items, v.Throughout P := by
  constructor
  · exact fun h => ⟨h.here, fun v hv u hu => h u (.item hv hu)⟩
  · rintro ⟨hhere, hitems⟩ u hu
    cases hu with
    | self => exact hhere
    | item hv hu => exact hitems _ hv u hu

theorem throughout_dict {d : Dict Value} :
    (dict d).Throughout P ↔ P (.dict d) ∧ ∀ entry ∈ d.entries, entry.2.Throughout P := by
  constructor
  · exact fun h => ⟨h.here, fun entry hentry u hu => h u (.entry hentry hu)⟩
  · rintro ⟨hhere, hentries⟩ u hu
    cases hu with
    | self => exact hhere
    | entry hentry hu => exact hentries _ hentry u hu

theorem throughout_block {b : Block} :
    (block b).Throughout P ↔ P (.block b) ∧ ∀ d, b.load = .ok d → (dict d).Throughout P := by
  constructor
  · exact fun h => ⟨h.here, fun d hload u hu => h u (.block hload hu)⟩
  · rintro ⟨hhere, hload⟩ u hu
    cases hu with
    | self => exact hhere
    | block h hu => exact hload _ h u hu

theorem throughout_saved {p : Payload} :
    (saved p).Throughout P ↔ P (.saved p) ∧ (p.content = .dict → ∀ d, p.loadDict = .ok d → (dict d).Throughout P) := by
  constructor
  · exact fun h => ⟨h.here, fun hp d hload u hu => h u (.saved hp hload hu)⟩
  · rintro ⟨hhere, hload⟩ u hu
    cases hu with
    | self => exact hhere
    | saved hp h hu => exact hload hp _ h u hu

theorem Throughout.opened (h : v.Throughout P) {d : Dict Value} (hd : v.opened? = some d) : (dict d).Throughout P :=
  fun u hu => h u (.of_opened hd hu)

theorem Throughout.get? {d : Dict Value} (h : (dict d).Throughout P) {name : String} {v : Value}
    (hv : d.get? name = some v) : v.Throughout P := (throughout_dict.mp h).2 (name, v) (Dict.mem_of_get? hv)

/-- What one dictionary set over another has inside was inside one of the two. -/
theorem Throughout.merge_erase {b d : Dict Value} (hb : (dict b).Throughout P) (hd : (dict d).Throughout P)
    {key : String} (hmerge : P (.dict (b.merge (d.erase key)))) :
    (dict (b.merge (d.erase key))).Throughout P := by
  refine throughout_dict.mpr ⟨hmerge, fun entry hentry => ?_⟩
  rcases Dict.mem_setAll hentry with hentry | hentry
  · exact (throughout_dict.mp hb).2 entry hentry
  · exact (throughout_dict.mp hd).2 entry (List.mem_of_mem_filter hentry)

end

/-- A property of dictionaries, which any other value has. -/
def OfDict (P : Dict Value → Prop) : Value → Prop
  | dict d => P d
  | _ => True

/-- Every dictionary within the value has the property `P`. -/
abbrev Dicts (P : Dict Value → Prop) (v : Value) : Prop := v.Throughout (OfDict P)

theorem dicts_iff {P : Dict Value → Prop} {v : Value} : v.Dicts P ↔ ∀ d, (Value.dict d).Within v → P d := by
  constructor
  · exact fun h d hd => h (.dict d) hd
  · intro h u hu
    cases u with
    | dict d => exact h d hu
    | _ => trivial

/-- The value one step inside. -/
def next? (v : Value) : Step → Option Value
  | .name name => v.opened?.bind (·.get? name)
  | .index n => v.item? n

/-- The value that steps lead to. -/
def at? (v : Value) : List Step → Option Value
  | [] => some v
  | step :: steps => (v.next? step).bind (·.at? steps)

end Value

/-- In the dictionary that a block opens to, no name stands twice and no other dictionary is open. -/
theorem Block.distinct_of_load {b : Block} {d : Dict Value} (h : b.load = .ok d) : (Value.dict d).Distinct := by
  obtain ⟨hdistinct, _, _, hforms⟩ := Block.forms_of_load h
  refine (Value.each_dict d).mpr ⟨hdistinct, fun entry hentry => (hforms entry hentry).mono fun u hu => ?_⟩
  cases u with
  | dict e => exact hu.elim
  | _ => trivial

theorem Payload.distinct_of_loadDict {p : Payload} {d : Dict Value} (h : p.loadDict = .ok d) :
    (Value.dict d).Distinct := by
  unfold Payload.loadDict at h
  split at h
  · exact Block.distinct_of_load h
  · cases h

end AssetPack
