import AssetPack.Description.Expansion
import AssetPack.Proofs.Description.Marks
import AssetPack.Proofs.Value.Opened

/-!
# Template chains

A dictionary, its template, the template of that one and so on are a chain. What a chain has for a name is found in
the first of its members that has it. To set a dictionary over its template makes the first two members of the
chain into one and changes nothing else.
-/
namespace AssetPack

namespace Dict

/-- What a dictionary names as its template. -/
def template? (d : Dict Value) : Option Value := d.get? (Expanding.templateKey d)

/-- The top-level entry of the name, which is no selector, carries the dictionary `b`. -/
def Carries (root : Dict Value) (name : String) (b : Dict Value) : Prop :=
  name.toList.head? ≠ some '/' ∧ (root.get? name).bind Value.opened? = some b

/-- Nothing is imported or put in scope, and every template that is named is a top-level dictionary. -/
structure Tame (root d : Dict Value) : Prop where
  distinct : d.Distinct
  noImport : Key.imported ∉ d.names
  noValues : Key.values ∉ d.names
  carried : ∀ key ∈ [Key.template, Key.base], ∀ name, d.get? key = some (.string name) → ∃ b, root.Carries name b

/-- The dictionary is tame and names at most one template. -/
structure Single (root d : Dict Value) : Prop extends Tame root d where
  one : ¬(Key.template ∈ d.names ∧ Key.base ∈ d.names)

/-- The members of the template chain of a dictionary, itself first. -/
inductive Chain (root : Dict Value) : Dict Value → List (Dict Value) → Prop
  | last {d : Dict Value} : d.template? = none → Chain root d [d]
  | onto {d b : Dict Value} {name : String} {members : List (Dict Value)} :
      d.template? = some (.string name) → root.Carries name b → Chain root b members → Chain root d (d :: members)

/-- The names of all fields that a chain has: those of its last member first, and then what each member has more. -/
def chainNames : List (Dict Value) → List String
  | [] => []
  | d :: members => chainNames members ++ d.names.filter fun name => name ∉ Key.directives ∧ name ∉ chainNames members

/-- What the first member of a chain that has the name has for it. -/
def nearest? (members : List (Dict Value)) (name : String) : Option Value := members.findSome? (·.get? name)

theorem mem_chainNames {members : List (Dict Value)} {name : String} :
    name ∈ chainNames members ↔ name ∉ Key.directives ∧ ∃ d ∈ members, name ∈ d.names := by
  induction members with
  | nil => simp [chainNames]
  | cons d members ih =>
    rw [chainNames, List.mem_append, List.mem_filter]
    simp only [decide_eq_true_eq, List.exists_mem_cons_iff]
    constructor
    · rintro (h | ⟨hd, hname, _⟩)
      · exact ⟨(ih.mp h).1, .inr (ih.mp h).2⟩
      · exact ⟨hname, .inl hd⟩
    · rintro ⟨hname, hd | hmembers⟩
      · by_cases h : name ∈ chainNames members
        · exact .inl h
        · exact .inr ⟨hd, hname, h⟩
      · exact .inl (ih.mpr ⟨hname, hmembers⟩)

/-- A chain has something for each name of its fields. -/
theorem exists_nearest {members : List (Dict Value)} {name : String} (h : name ∈ chainNames members) :
    ∃ v, nearest? members name = some v := by
  obtain ⟨_, d, hd, hname⟩ := mem_chainNames.mp h
  have hsome : (d.get? name).isSome := contains_iff.mpr hname
  have hfound : (nearest? members name).isSome := List.findSome?_isSome_iff.mpr ⟨d, hd, hsome⟩
  exact Option.isSome_iff_exists.mp hfound

/-! ## One dictionary over another -/

theorem template?_congr {d e : Dict Value} (htemplate : d.get? Key.template = e.get? Key.template)
    (hbase : d.get? Key.base = e.get? Key.base) : d.template? = e.template? := by
  have hkey : Expanding.templateKey d = Expanding.templateKey e := by
    rw [Expanding.templateKey, Expanding.templateKey, Dict.contains, Dict.contains, htemplate]
  rw [template?, template?, hkey, Expanding.templateKey]
  split
  · exact htemplate
  · exact hbase

theorem templateKey_cases (d : Dict Value) :
    Expanding.templateKey d = Key.template ∧ Key.template ∈ d.names ∨
      Expanding.templateKey d = Key.base ∧ Key.template ∉ d.names := by
  rw [Expanding.templateKey]
  split
  · exact .inl ⟨rfl, contains_iff.mp ‹_›⟩
  · exact .inr ⟨rfl, fun h => ‹¬_› (contains_iff.mpr h)⟩

theorem template?_eq_none_iff {d : Dict Value} : d.template? = none ↔ Key.template ∉ d.names ∧ Key.base ∉ d.names := by
  rw [template?, get?_eq_none_iff]
  rcases templateKey_cases d with ⟨hkey, hmem⟩ | ⟨hkey, hmem⟩
  · rw [hkey]
    exact iff_of_false (fun h => h hmem) fun h => h.1 hmem
  · rw [hkey]
    exact ⟨fun h => ⟨hmem, h⟩, fun h => h.2⟩

variable {root b d : Dict Value} {key : String}

theorem get?_merge_erase (hd : d.Distinct) (name : String) :
    (b.merge (d.erase key)).get? name = if name = key then b.get? name else (d.get? name).or (b.get? name) := by
  rw [get?_merge b (distinct_erase hd key), get?_erase]
  split <;> rfl

/-- A dictionary with one template names none when that is taken out. -/
theorem not_mem_erase_templateKey (hone : ¬(Key.template ∈ d.names ∧ Key.base ∈ d.names)) :
    Key.template ∉ (d.erase (Expanding.templateKey d)).names ∧
      Key.base ∉ (d.erase (Expanding.templateKey d)).names := by
  rcases templateKey_cases d with ⟨hkey, hmem⟩ | ⟨hkey, hmem⟩
  · rw [hkey]
    exact ⟨not_mem_names_erase _ _, fun h => hone ⟨hmem, names_erase_subset _ _ h⟩⟩
  · rw [hkey]
    exact ⟨fun h => hmem (names_erase_subset _ _ h), not_mem_names_erase _ _⟩

/-- Set over another, it then names what that one names. -/
theorem template?_merge_erase (hd : d.Distinct) (hone : ¬(Key.template ∈ d.names ∧ Key.base ∈ d.names)) :
    (b.merge (d.erase (Expanding.templateKey d))).template? = b.template? := by
  obtain ⟨htemplate, hbase⟩ := not_mem_erase_templateKey hone
  have hother {name : String} (h : name ∉ (d.erase (Expanding.templateKey d)).names) :
      (b.merge (d.erase (Expanding.templateKey d))).get? name = b.get? name := by
    rw [get?_merge b (distinct_erase hd _), get?_eq_none_iff.mpr h]
    rfl
  exact template?_congr (hother htemplate) (hother hbase)

theorem Chain.of_template? {e : Dict Value} (h : e.template? = b.template?) {members : List (Dict Value)}
    (hchain : Chain root e members) : ∃ rest, members = e :: rest ∧ Chain root b (b :: rest) := by
  cases hchain with
  | last hnone => exact ⟨[], rfl, .last (h ▸ hnone)⟩
  | onto hsome hcarries hrest => exact ⟨_, rfl, .onto (h ▸ hsome) hcarries hrest⟩

/-- The names of a chain stay as they are when its first two members become one. -/
theorem chainNames_merge_erase (hd : d.Distinct) (hkey : key ∈ Key.directives) (rest : List (Dict Value)) :
    chainNames (b.merge (d.erase key) :: rest) = chainNames (d :: b :: rest) := by
  rw [chainNames, names_merge b (distinct_erase hd key), names_erase, List.filter_append, ← List.append_assoc,
    chainNames, chainNames, List.filter_filter, List.filter_filter]
  congr 1
  refine List.filter_congr fun name _ => ?_
  have hne : name ∉ Key.directives → name ≠ key := fun h heq => h (heq ▸ hkey)
  by_cases hname : name ∈ Key.directives
  · simp [hname]
  · by_cases hrest : name ∈ chainNames rest <;> by_cases hb : name ∈ b.names <;> simp [hname, hne hname, hrest, hb]

theorem nearest?_merge_erase (hd : d.Distinct) (rest : List (Dict Value)) {name : String} (hname : name ≠ key) :
    nearest? (b.merge (d.erase key) :: rest) name = nearest? (d :: b :: rest) name := by
  rw [nearest?, nearest?, List.findSome?_cons, List.findSome?_cons, List.findSome?_cons, get?_merge_erase hd,
    if_neg hname]
  cases d.get? name <;> cases b.get? name <;> rfl

theorem Tame.merge_erase (hb : Tame root b) (hd : Tame root d) (key : String) :
    Tame root (b.merge (d.erase key)) where
  distinct := distinct_merge hb.distinct _
  noImport h := (mem_names_merge h).elim hb.noImport fun h => hd.noImport (names_erase_subset _ _ h)
  noValues h := (mem_names_merge h).elim hb.noValues fun h => hd.noValues (names_erase_subset _ _ h)
  carried other hother name hname := by
    rw [get?_merge_erase hd.distinct] at hname
    split at hname
    · exact hb.carried other hother name hname
    · rcases Option.or_eq_some_iff.mp hname with hname | ⟨_, hname⟩
      · exact hd.carried other hother name hname
      · exact hb.carried other hother name hname

theorem Single.merge_erase (hb : Single root b) (hd : Single root d) :
    Single root (b.merge (d.erase (Expanding.templateKey d))) where
  toTame := hb.toTame.merge_erase hd.toTame _
  one h := by
    obtain ⟨htemplate, hbase⟩ := not_mem_erase_templateKey hd.one
    exact hb.one ⟨(mem_names_merge h.1).resolve_right htemplate, (mem_names_merge h.2).resolve_right hbase⟩

theorem Tame.carries (h : Tame root d) {name : String} (hname : d.template? = some (.string name)) :
    ∃ b, root.Carries name b := by
  refine h.carried _ ?_ name hname
  rcases templateKey_cases d with ⟨hkey, _⟩ | ⟨hkey, _⟩ <;> rw [hkey] <;> decide

/-- Whether the template that is named under the key, if one is, is carried. -/
def carriesUnder (root d : Dict Value) (key : String) : Bool :=
  match d.get? key with
  | some (.string name) => name.toList.head? ≠ some '/' && ((root.get? name).bind Value.opened?).isSome
  | _ => true

theorem carriesUnder_iff :
    carriesUnder root d key = true ↔ ∀ name, d.get? key = some (.string name) → ∃ b, root.Carries name b := by
  unfold carriesUnder
  split
  · rename_i name hname
    rw [hname, Bool.and_eq_true, decide_eq_true_eq, Option.isSome_iff_exists]
    constructor
    · rintro ⟨hhead, b, hb⟩ _ heq
      cases heq
      exact ⟨b, hhead, hb⟩
    · intro h
      obtain ⟨b, hhead, hb⟩ := h name rfl
      exact ⟨hhead, b, hb⟩
  · rename_i hother
    exact iff_of_true rfl fun name hname => (hother name hname).elim

instance : Decidable (Tame root d) :=
  decidable_of_iff (d.Distinct ∧ Key.imported ∉ d.names ∧ Key.values ∉ d.names ∧
      ∀ key ∈ [Key.template, Key.base], carriesUnder root d key = true)
    ⟨fun ⟨hd, himport, hvalues, hcarries⟩ =>
        ⟨hd, himport, hvalues, fun key hkey => carriesUnder_iff.mp (hcarries key hkey)⟩,
      fun h => ⟨h.distinct, h.noImport, h.noValues, fun key hkey => carriesUnder_iff.mpr (h.carried key hkey)⟩⟩

instance : Decidable (Single root d) :=
  decidable_of_iff (Tame root d ∧ ¬(Key.template ∈ d.names ∧ Key.base ∈ d.names))
    ⟨fun h => ⟨h.1, h.2⟩, fun h => ⟨h.toTame, h.one⟩⟩

/-- What is carried is found. -/
theorem Carries.exists_find {name : String} (h : Carries root name b) :
    ∃ v, root.get? name = some v ∧ root.find? name = some v ∧ v.opened? = some b := by
  obtain ⟨v, hget, hopened⟩ := Option.bind_eq_some_iff.mp h.2
  exact ⟨v, hget, by rw [Dict.find?, if_neg h.1, hget], hopened⟩

end Dict

/-- Nothing is in scope without a scope. -/
theorem Expansion.inScope?_eq_none {e : Expansion} (h : e.scopes = []) (name : String) : e.inScope? name = none := by
  rw [inScope?, h]
  rfl

/-- The pass over a tame dictionary begins with its template. -/
theorem Expanding.dict_of_tame {root d : Dict Value} (hd : root.Tame d) (next : Job → Expanding (Option Value))
    (s : Setting) : dict next s d = (match d.template? with
      | none => do return some (.dict ⟨← entries next d.entries⟩)
      | some (.string name) => overTemplate next s name (d.erase (templateKey d))
      | some _ => do drop (.badTemplateName (← get).place)) := by
  have himported : imported next d = pure (some d) := by
    rw [imported, Dict.get?_eq_none_iff.mpr hd.noImport]
  rw [dict, Dict.get?_eq_none_iff.mpr hd.noValues]
  dsimp only
  rw [plain, himported, pure_bind]
  rfl

/-- What is inside a value that carries a dictionary is that dictionary, whatever form it is in. -/
theorem Expanding.inside_of_opened {next : Job → Expanding (Option Value)} {v : Value} {d : Dict Value}
    (h : v.opened? = some d) : inside next v = next (.dict d) := by
  cases v with
  | dict d' =>
    cases h
    rfl
  | block b => rw [inside, Value.opened?_block_iff.mp h]
  | saved p =>
    obtain ⟨hp, hload⟩ := Value.opened?_saved_iff.mp h
    rw [inside, if_pos hp, hload]
  | _ => cases h

end AssetPack
