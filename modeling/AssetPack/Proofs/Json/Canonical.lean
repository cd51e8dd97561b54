import AssetPack.Proofs.Double.Exact
import AssetPack.Proofs.Json.Parsed
import AssetPack.Proofs.Json.Written
import AssetPack.Proofs.Tree.Opening
import AssetPack.Proofs.Tree.Stored

/-!
# Canonical JSON

The value of JSON, written again, is its canonical form: names in order, numbers as they are
printed, and null for each number too large for a double. Making it canonical again changes nothing, and
what it stands for is the same value but for those numbers.
-/
namespace AssetPack

theorem jsonItems_eq (items : List Tree) : jsonItems items = items.map Tree.json := by
  induction items with
  | nil => rfl
  | cons t ts ih => rw [jsonItems, ih, List.map_cons]

theorem Dict.json_eq (d : Dict Tree) : d.json = ⟨(d.map Tree.json).sorted⟩ := by
  have h (entries : List (String × Tree)) :
      jsonEntries entries = entries.map fun entry => (entry.1, entry.2.json) := by
    induction entries with
    | nil => rfl
    | cons entry rest ih => rw [jsonEntries, ih, List.map_cons]
  obtain ⟨entries⟩ := d
  rw [Dict.json, h]
  rfl

/-- All doubles in a value are finite. -/
def Value.Finite (v : Value) : Prop :=
  v.Each fun
    | .double x => x.isFinite
    | _ => True

/-- The canonical form of JSON. -/
def Json.canonical (j : Json) : Json := j.value.tree.json

/-- The members of an object in canonical form, in the order of their names. -/
def Dict.canonical (members : Dict Json) : Dict Json := ⟨(members.map Json.canonical).sorted⟩

theorem Dict.json_jsonValue (members : Dict Json) : members.jsonValue.tree.json = members.canonical := by
  rw [Dict.jsonValue_eq, Dict.tree_eq, Dict.json_eq, Dict.canonical]
  simp only [Dict.map, List.map_map]
  rfl

namespace Json

theorem canonical_array (items : List Json) : (array items).canonical = .array (items.map canonical) := by
  rw [canonical, value, Value.tree_list, Tree.json, jsonItems_eq, jsonValues_eq, List.map_map, List.map_map]
  rfl

theorem canonical_object (members : Dict Json) : (object members).canonical = .object members.canonical := by
  rw [canonical, value, Value.tree_dict, Tree.json, Dict.json_jsonValue]

/-- What a numeral stands for: an integer, a double that is none, or nothing. -/
theorem numberValue_cases (numeral : String) : (∃ n, numberValue numeral = .int n) ∨
    (∃ d, numberValue numeral = .double d ∧ d.toInt32? = none) ∨ numberValue numeral = .null := by
  unfold numberValue
  split
  · rename_i d _
    cases h : d.toInt32? with
    | none => exact .inr (.inl ⟨d, rfl, h⟩)
    | some n => exact .inl ⟨n, rfl⟩
  · exact .inr (.inr rfl)

/-- The canonical form of a number is null or stands for the same number. -/
theorem canonical_number (numeral : String) :
    ((number numeral).canonical = .null ∧ ¬(numberValue numeral).Finite) ∨
    ((number numeral).canonical = .null ∧ numberValue numeral = .null) ∨
    ∃ numeral', (number numeral).canonical = .number numeral' ∧ IsNumeral numeral'.toList ∧
      numberValue numeral' = numberValue numeral ∧ (numberValue numeral).Finite := by
  have hjson : (number numeral).canonical = (numberValue numeral).tree.json := rfl
  rcases numberValue_cases numeral with ⟨n, h⟩ | ⟨d, h, hint⟩ | h
  · rw [hjson, h]
    exact .inr (.inr ⟨toString n.toInt, rfl, isNumeral_int _, numberValue_int n, (Value.each_atom _).mpr trivial⟩)
  · rw [hjson, h]
    by_cases hfinite : d.isFinite
    · refine .inr (.inr ⟨d.text, ?_, Double.isNumeral_text hfinite, numberValue_text hfinite hint, ?_⟩)
      · exact if_pos hfinite
      · exact (Value.each_atom _).mpr hfinite
    · refine .inl ⟨if_neg hfinite, fun h => hfinite ?_⟩
      exact (Value.each_atom _).mp h
  · rw [hjson, h]
    exact .inr (.inl ⟨rfl, rfl⟩)

/-- A canonical form is its own. -/
theorem canonical_canonical (j : Json) : j.canonical.canonical = j.canonical := by
  induction j with
  | null => rfl
  | bool b => rfl
  | string s => rfl
  | number numeral =>
    rcases canonical_number numeral with ⟨h, _⟩ | ⟨h, _⟩ | ⟨numeral', h, _, hvalue, _⟩
    · rw [h]
      rfl
    · rw [h]
      rfl
    · have hsame : (number numeral').canonical = (number numeral).canonical := by
        rw [canonical, canonical, value, value, hvalue]
      rw [h, hsame, h]
  | array items ih =>
    have hitems : (items.map canonical).map canonical = items.map canonical := by
      rw [List.map_map]
      exact List.map_congr_left fun j hj => ih j hj
    rw [canonical_array, canonical_array, hitems]
  | object members ih =>
    have hmembers : members.canonical.map canonical = members.canonical := by
      have hid : members.canonical.map canonical = members.canonical.map id := by
        refine Dict.map_congr fun m hm => ?_
        obtain ⟨m', hm', rfl⟩ := List.mem_map.mp (Dict.mem_sorted.mp hm)
        exact ih m' hm'
      rw [hid, Dict.map]
      simp only [id_eq, List.map_id']
    rw [canonical_object, canonical_object, Dict.canonical, hmembers]
    exact congrArg object (congrArg Dict.mk (Dict.sorted_sorted _))

/-- The canonical form is sound and no deeper. -/
theorem Sound.canonical {j : Json} (h : j.Sound) : j.canonical.Sound ∧ j.canonical.depth ≤ j.depth := by
  induction j with
  | null => exact ⟨trivial, Nat.le_refl _⟩
  | bool b => exact ⟨trivial, Nat.le_refl _⟩
  | string s => exact ⟨trivial, Nat.le_refl _⟩
  | number numeral =>
    rcases canonical_number numeral with ⟨h, _⟩ | ⟨h, _⟩ | ⟨numeral', h, hsound, _⟩
    · rw [h]
      exact ⟨trivial, Nat.le_refl _⟩
    · rw [h]
      exact ⟨trivial, Nat.le_refl _⟩
    · rw [h]
      exact ⟨hsound, Nat.le_refl _⟩
  | array items ih =>
    have hitems := soundItems_iff.mp h
    rw [canonical_array, Json.Sound, depth, depth, soundItems_iff, Nat.add_le_add_iff_right, depthItems_le_iff]
    refine ⟨fun j hj => ?_, fun j hj => ?_⟩ <;> obtain ⟨k, hk, rfl⟩ := List.mem_map.mp hj
    · exact (ih k hk (hitems k hk)).1
    · exact (ih k hk (hitems k hk)).2.trans (depthItems_le_iff.mp (Nat.le_refl _) k hk)
  | object members ih =>
    obtain ⟨hdistinct, hmembers⟩ := Dict.sound_iff.mp h
    have hcanonical : (members.map Json.canonical).Distinct := by
      rw [Dict.Distinct, Dict.names_map]
      exact hdistinct
    rw [canonical_object, Json.Sound, depth, depth, Dict.sound_iff, Nat.add_le_add_iff_right, Dict.depth_le_iff]
    refine ⟨⟨Dict.distinct_sorted hcanonical, fun m hm => ?_⟩, fun m hm => ?_⟩ <;>
      obtain ⟨m', hm', rfl⟩ := List.mem_map.mp (Dict.mem_sorted.mp hm)
    · exact (ih m' hm' (hmembers m' hm')).1
    · exact (ih m' hm' (hmembers m' hm')).2.trans (Dict.depth_le_iff.mp (Nat.le_refl _) m' hm')

theorem same_numberValue (numeral : String) :
    (numberValue numeral).same (numberValue numeral) = true := by
  rcases numberValue_cases numeral with ⟨n, h⟩ | ⟨d, h, _⟩ | h
  · rw [h]
    exact decide_eq_true rfl
  · rw [h]
    exact decide_eq_true rfl
  · rw [h]
    rfl

/-- Of all numbers only null is the same as null. -/
theorem finite_of_null_same {numeral : String} (h : Value.null.same (numberValue numeral) = true) :
    (numberValue numeral).Finite := by
  rcases numberValue_cases numeral with ⟨n, hn⟩ | ⟨d, hd, _⟩ | hn
  · rw [hn]
    exact (Value.each_atom _).mpr trivial
  · rw [hd] at h
    cases h
  · rw [hn]
    exact (Value.each_atom _).mpr trivial

/-- The members are compared one by one, whatever their order. -/
theorem same_canonical_members {members : Dict Json} (hdistinct : members.Distinct) :
    members.canonical.jsonValue.tree.same members.jsonValue.tree = true ↔
      ∀ m ∈ members.entries, m.2.canonical.value.same m.2.value = true := by
  have hfound : ∀ m ∈ members.entries, members.jsonValue.tree.get? m.1 = some m.2.value.tree := by
    intro m hm
    rw [Dict.jsonValue_eq, Dict.tree_eq]
    refine Dict.get?_of_mem ?_ (List.mem_map_of_mem (List.mem_map_of_mem hm))
    rw [Dict.Distinct, Dict.names_map, Dict.names_map]
    exact hdistinct
  have hmem (entry : String × Tree) : entry ∈ members.canonical.jsonValue.tree.entries ↔
      ∃ m ∈ members.entries, (m.1, m.2.canonical.value.tree) = entry := by
    rw [Dict.jsonValue_eq, Dict.tree_eq, Dict.canonical]
    simp only [Dict.map, List.mem_map, Dict.mem_sorted, exists_exists_and_eq_and]
  have hsize : members.canonical.jsonValue.tree.size = members.jsonValue.tree.size := by
    rw [Dict.jsonValue_eq, Dict.jsonValue_eq, Dict.tree_eq, Dict.tree_eq, Dict.size_map, Dict.size_map,
      Dict.size_map, Dict.size_map, Dict.canonical, Dict.size_mk, Dict.sorted, List.length_mergeSort]
    exact Dict.size_map _ _
  rw [Dict.same_iff]
  constructor
  · intro h m hm
    obtain ⟨u, hu, hsame⟩ := h.2 _ ((hmem _).mpr ⟨m, hm, rfl⟩)
    rw [hfound m hm] at hu
    cases hu
    exact hsame
  · intro h
    refine ⟨hsize, fun entry hentry => ?_⟩
    obtain ⟨m, hm, rfl⟩ := (hmem entry).mp hentry
    exact ⟨_, hfound m hm, h m hm⟩

/-- What the canonical form stands for is the same unless a number is too large. -/
theorem Sound.same_canonical {j : Json} (h : j.Sound) :
    j.canonical.value.same j.value = true ↔ j.value.Finite := by
  induction j with
  | null => exact iff_of_true rfl ((Value.each_atom _).mpr trivial)
  | bool b => exact iff_of_true (by cases b <;> rfl) ((Value.each_atom _).mpr trivial)
  | string s =>
    refine iff_of_true ?_ ((Value.each_atom _).mpr trivial)
    exact decide_eq_true rfl
  | number numeral =>
    rcases canonical_number numeral with ⟨h, hfinite⟩ | ⟨h, hvalue⟩ | ⟨numeral', h, _, hvalue, hfinite⟩
    · rw [h]
      exact iff_of_false (fun hsame => hfinite (finite_of_null_same hsame)) hfinite
    · rw [h, value, value, hvalue]
      exact iff_of_true rfl ((Value.each_atom _).mpr trivial)
    · rw [h, value, value, hvalue]
      exact iff_of_true (same_numberValue numeral) hfinite
  | array items ih =>
    have hitems := soundItems_iff.mp h
    have hsame : (array items).canonical.value.same (array items).value = true ↔
        ∀ j ∈ items, j.canonical.value.same j.value = true := by
      rw [canonical_array, value, value, jsonValues_eq, jsonValues_eq, Value.same, Value.tree_list,
        Value.tree_list, Tree.same, sameItems_iff, List.map_map, List.map_map, List.map_map,
        List.forall₂_map_left_iff, List.forall₂_map_right_iff, List.forall₂_same]
      rfl
    have hfinite : (array items).value.Finite ↔ ∀ j ∈ items, j.value.Finite := by
      rw [Value.Finite, value, Value.each_list, jsonValues_eq, List.forall_mem_map, true_and]
      rfl
    rw [hsame, hfinite]
    exact forall₂_congr fun j hj => ih j hj (hitems j hj)
  | object members ih =>
    obtain ⟨hdistinct, hmembers⟩ := Dict.sound_iff.mp h
    have hsame : (object members).canonical.value.same (object members).value =
        members.canonical.jsonValue.tree.same members.jsonValue.tree := by
      rw [canonical_object]
      rfl
    have hfinite : (object members).value.Finite ↔ ∀ m ∈ members.entries, m.2.value.Finite := by
      rw [Value.Finite, value, Value.each_dict, Dict.jsonValue_eq, Dict.map, List.forall_mem_map, true_and]
      rfl
    rw [hsame, same_canonical_members hdistinct, hfinite]
    exact forall₂_congr fun m hm => ih m hm (hmembers m hm)

/-- What a text describes is written as a text that is accepted and written the same again. It
describes the same dictionary unless a number was too large for a double: that is written as null. -/
theorem parseDict_jsonText {text : String} {d : Dict Value} (h : parseDict text = .ok d) :
    ∃ e, parseDict d.jsonText = .ok e ∧ e.jsonText = d.jsonText ∧
      (e.sameAs d = true ↔ (Value.dict d).Finite) := by
  unfold parseDict at h
  split at h
  · rename_i members hmembers
    cases h
    obtain ⟨hsound, hdepth⟩ := sound_of_parse hmembers
    have hobject : (object members).Sound := hsound
    have hcanonical := hobject.canonical
    rw [canonical_object, Json.Sound, depth, depth, Nat.add_le_add_iff_right] at hcanonical
    have hwritten := parse_writeObject hcanonical.1 (hcanonical.2.trans hdepth)
    have hagain : members.canonical.canonical = members.canonical := by
      have := canonical_canonical (object members)
      rw [canonical_object, canonical_object] at this
      exact object.inj this
    refine ⟨members.canonical.jsonValue, ?_, ?_, ?_⟩
    · rw [parseDict, Dict.jsonText, Dict.json_jsonValue, hwritten]
    · rw [Dict.jsonText, Dict.jsonText, Dict.json_jsonValue, Dict.json_jsonValue, hagain]
    · have hsame := hobject.same_canonical
      rw [canonical_object] at hsame
      exact hsame
  · cases h

/-- A text with commas behind the last members. -/
theorem parseDict_jsonText_commas : ∃ d e, parseDict "\x7b\"b\":[1,2.5,],\x7d" = .ok d ∧
    parseDict d.jsonText = .ok e ∧ e.jsonText = d.jsonText ∧ (e.sameAs d = true ↔ (Value.dict d).Finite) := by
  have haccepted : (parseDict "\x7b\"b\":[1,2.5,],\x7d").toOption.isSome = true := by decide +kernel
  cases h : parseDict "\x7b\"b\":[1,2.5,],\x7d" with
  | ok d =>
    obtain ⟨e, he⟩ := parseDict_jsonText h
    exact ⟨d, e, rfl, he⟩
  | error f =>
    rw [h] at haccepted
    cases haccepted

/-- A number too large for a double does not come back. -/
theorem not_sameAs_of_infinite : ¬∀ d, parseDict "\x7b\"a\":1e999\x7d" = .ok d →
    ∃ e, parseDict d.jsonText = .ok e ∧ e.sameAs d = true ∧ e.jsonText = d.jsonText := by
  intro hclaim
  have hsame : ((parseDict "\x7b\"a\":1e999\x7d").toOption.bind fun d =>
      (parseDict d.jsonText).toOption.map (·.sameAs d)) = some false := by decide +kernel
  cases h : parseDict "\x7b\"a\":1e999\x7d" with
  | ok d =>
    obtain ⟨e, he, htrue, _⟩ := hclaim d h
    rw [h] at hsame
    simp [Except.toOption, he, htrue] at hsame
  | error f =>
    rw [h] at hsame
    cases hsame

end Json
end AssetPack
