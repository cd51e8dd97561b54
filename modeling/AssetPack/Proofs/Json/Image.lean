import AssetPack.Proofs.Json.Canonical
import AssetPack.Proofs.Value.Opened

/-!
# The image of a value in JSON

JSON has no form for bytes, records, payloads of bytes and dictionaries that do not open: their image is null. The
image of a reference is its text, and that of a form that opens is the dictionary. All else is its own image, but
for doubles, which may be read back as integers. A value is written as its image is, and the text is read back as
the image.
-/
namespace AssetPack

/-- What JSON keeps of an atom that is no double. -/
def Atom.image : Atom → Value
  | .bytes _ => .null
  | .struct _ => .null
  | .ref name => .string (refText name)
  | a => .atom a

mutual

/-- What JSON keeps of a value. -/
def Tree.image : Tree → Value
  | .atom a => a.image
  | .list items => .list (imageItems items)
  | .dict _ d => .dict d.image
  | .blob _ => .null
  | .broken _ => .null
termination_by structural t => t

def imageItems : List Tree → List Value
  | [] => []
  | t :: ts => t.image :: imageItems ts
termination_by structural ts => ts

/-- What JSON keeps of a dictionary. -/
def Dict.image : Dict Tree → Dict Value
  | ⟨entries⟩ => ⟨imageEntries entries⟩
termination_by structural d => d

def imageEntries : List (String × Tree) → List (String × Value)
  | [] => []
  | (name, t) :: rest => (name, t.image) :: imageEntries rest
termination_by structural entries => entries

end

theorem imageItems_eq (items : List Tree) : imageItems items = items.map Tree.image := by
  induction items with
  | nil => rfl
  | cons t ts ih => rw [imageItems, ih, List.map_cons]

theorem Dict.image_eq (d : Dict Tree) : d.image = d.map Tree.image := by
  have h (entries : List (String × Tree)) :
      imageEntries entries = entries.map fun entry => (entry.1, entry.2.image) := by
    induction entries with
    | nil => rfl
    | cons entry rest ih => rw [imageEntries, ih, List.map_cons]
  obtain ⟨entries⟩ := d
  rw [Dict.image, h]
  rfl

theorem Dict.image_tree (d : Dict Value) : d.tree.image = d.map fun v => v.tree.image := by
  rw [Dict.image_eq, Dict.tree_eq, Dict.map, Dict.map, List.map_map]
  rfl

theorem Dict.json_tree (d : Dict Value) : d.tree.json = ⟨(d.map fun v => v.tree.json).sorted⟩ := by
  rw [Dict.json_eq, Dict.tree_eq, Dict.map, Dict.map, List.map_map]
  rfl

theorem Dict.mem_json_tree {d : Dict Value} {m : String × Json} :
    m ∈ d.tree.json.entries ↔ ∃ entry ∈ d.entries, (entry.1, entry.2.tree.json) = m := by
  rw [Dict.json_tree, Dict.mem_sorted, Dict.map, List.mem_map]

theorem Dict.depth_json_le_iff {d : Dict Value} {n : Nat} :
    d.tree.json.depth ≤ n ↔ ∀ entry ∈ d.entries, entry.2.tree.json.depth ≤ n := by
  rw [Dict.depth_le_iff]
  constructor
  · exact fun h entry hentry => h _ (Dict.mem_json_tree.mpr ⟨entry, hentry, rfl⟩)
  · intro h m hm
    obtain ⟨entry, hentry, rfl⟩ := Dict.mem_json_tree.mp hm
    exact h entry hentry

/-! ## The text of the image -/

theorem Atom.json_image (a : Atom) : a.image.tree.json = a.json := by cases a <;> rfl

theorem Dict.json_image {d : Dict Value} (h : ∀ entry ∈ d.entries, entry.2.tree.image.tree.json = entry.2.tree.json) :
    d.tree.image.tree.json = d.tree.json := by
  have hmap : d.tree.image.map (fun v => v.tree.json) = d.map fun v => v.tree.image.tree.json := by
    rw [Dict.image_tree, Dict.map, Dict.map, Dict.map, List.map_map]
    rfl
  rw [Dict.json_tree, Dict.json_tree, hmap, Dict.map_congr (g := fun v => v.tree.json) h]

/-- The image is written as the value is. -/
theorem Value.json_image (v : Value) : v.tree.image.tree.json = v.tree.json := by
  induction v using induction_opened with
  | atom a => exact a.json_image
  | list items ih =>
    have hitems : ((items.map tree).map Tree.image).map tree = items.map fun v => v.tree.image.tree := by
      rw [List.map_map, List.map_map]
      rfl
    rw [tree_list, Tree.image, imageItems_eq, tree_list, hitems, Tree.json, Tree.json, jsonItems_eq, jsonItems_eq,
      List.map_map, List.map_map]
    exact congrArg Json.array (List.map_congr_left fun v hv => ih v hv)
  | dict d ih => exact congrArg Json.object (Dict.json_image ih)
  | block b ih =>
    rw [tree_block]
    cases h : b.load with
    | ok d => exact ih d h
    | error f => rfl
  | saved p ih =>
    rw [tree_saved]
    split
    · rename_i hp
      cases h : p.loadDict with
      | ok d => exact ih hp d h
      | error f => rfl
    · rfl

/-! ## What is read back -/

theorem Atom.sound_json (a : Atom) : a.json.Sound := by
  cases a with
  | int n => exact Json.isNumeral_int _
  | double x =>
    rw [Atom.json]
    split
    · exact Double.isNumeral_text ‹_›
    · trivial
  | _ => trivial

theorem Value.sound_json {v : Value} (h : v.Distinct) : v.tree.json.Sound := by
  induction v using induction_opened with
  | atom a => exact a.sound_json
  | list items ih =>
    have hitems := ((each_list items).mp h).2
    rw [tree_list, Tree.json, Json.Sound, jsonItems_eq, soundItems_iff]
    intro j hj
    obtain ⟨t, ht, rfl⟩ := List.mem_map.mp hj
    obtain ⟨v, hv, rfl⟩ := List.mem_map.mp ht
    exact ih v hv (hitems v hv)
  | dict d ih =>
    obtain ⟨hdistinct, hentries⟩ := (each_dict d).mp h
    rw [tree_dict, Tree.json, Json.Sound, Dict.sound_iff]
    refine ⟨?_, fun m hm => ?_⟩
    · rw [Dict.json_tree]
      refine Dict.distinct_sorted ?_
      rw [Dict.Distinct, Dict.names_map]
      exact hdistinct
    · obtain ⟨entry, hentry, rfl⟩ := Dict.mem_json_tree.mp hm
      exact ih entry hentry (hentries entry hentry)
  | block b ih =>
    rw [tree_block]
    cases hload : b.load with
    | ok d => exact ih d hload (Block.distinct_of_load hload)
    | error f => trivial
  | saved p ih =>
    rw [tree_saved]
    split
    · rename_i hp
      cases hload : p.loadDict with
      | ok d => exact ih hp d hload (Payload.distinct_of_loadDict hload)
      | error f => trivial
    · trivial

theorem Atom.same_image {a : Atom} (h : ∀ x, a ≠ .double x) : a.json.value.same a.image = true := by
  cases a with
  | int n =>
    rw [Atom.json, Json.value, Json.numberValue_int]
    exact decide_eq_true rfl
  | double x => exact absurd rfl (h x)
  | bool b => cases b <;> rfl
  | string s => exact decide_eq_true rfl
  | ref name => exact decide_eq_true rfl
  | _ => rfl

/-- Entries are found under their names, whatever their order. -/
theorem Dict.same_image {d : Dict Value} (hdistinct : d.Distinct)
    (h : ∀ entry ∈ d.entries, entry.2.tree.json.value.same entry.2.tree.image = true) :
    d.tree.json.jsonValue.sameAs d.tree.image = true := by
  have himage : (d.map fun v => v.tree.image).Distinct := by
    rw [Dict.Distinct, Dict.names_map]
    exact hdistinct
  rw [Dict.sameAs, Dict.same_iff, Dict.image_tree, Dict.tree_eq d.tree.json.jsonValue, Dict.tree_eq (d.map _),
    Dict.jsonValue_eq]
  refine ⟨?_, fun entry hentry => ?_⟩
  · rw [Dict.size_map, Dict.size_map, Dict.size_map, Dict.size_map, Dict.json_tree, Dict.size_mk, Dict.sorted,
      List.length_mergeSort]
    exact Dict.size_map _ _
  · obtain ⟨_, hmiddle, rfl⟩ := List.mem_map.mp hentry
    obtain ⟨m, hm, rfl⟩ := List.mem_map.mp hmiddle
    obtain ⟨source, hsource, rfl⟩ := Dict.mem_json_tree.mp hm
    refine ⟨source.2.tree.image.tree, ?_, h source hsource⟩
    have hentry := List.mem_map_of_mem (f := fun entry : String × Value => (entry.1, entry.2.tree.image)) hsource
    rw [Dict.get?_map, Dict.get?_of_mem himage hentry]
    rfl

/-- The text of a value with no double in it is read back as the image. -/
theorem Value.same_image {v : Value} (h : v.Distinct) (hdouble : ∀ x, ¬(Value.double x).Within v) :
    v.tree.json.value.same v.tree.image = true := by
  induction v using induction_opened with
  | atom a =>
    refine a.same_image fun x hx => hdouble x ?_
    rw [hx]
    exact .self
  | list items ih =>
    have hitems := ((each_list items).mp h).2
    rw [tree_list, Tree.json, Json.value, jsonItems_eq, jsonValues_eq, Tree.image, imageItems_eq, same, tree_list,
      tree_list, Tree.same, sameItems_iff, List.map_map, List.map_map, List.map_map, List.map_map, List.map_map,
      List.forall₂_map_left_iff, List.forall₂_map_right_iff, List.forall₂_same]
    exact fun v hv => ih v hv (hitems v hv) fun x hx => hdouble x (.item hv hx)
  | dict d ih =>
    obtain ⟨hdistinct, hentries⟩ := (each_dict d).mp h
    exact Dict.same_image hdistinct fun entry hentry =>
      ih entry hentry (hentries entry hentry) fun x hx => hdouble x (.entry hentry hx)
  | block b ih =>
    rw [tree_block]
    cases hload : b.load with
    | ok d => exact ih d hload (Block.distinct_of_load hload) fun x hx => hdouble x (.block hload hx)
    | error f => rfl
  | saved p ih =>
    rw [tree_saved]
    split
    · rename_i hp
      cases hload : p.loadDict with
      | ok d => exact ih hp d hload (Payload.distinct_of_loadDict hload) fun x hx => hdouble x (.saved hp hload hx)
      | error f => rfl
    · rfl

/-- A dictionary with bytes, a record, a reference, a saved dictionary that opens and a block that does not. -/
def Json.degraded : Dict Value :=
  ⟨[("bytes", .bytes [1, 2]), ("é\"", .string "\\\n\u0001ß"), ("ref", .ref "target"),
    ("saved", .saved (.ofBytes .dict (⟨[("inner", .int 1)]⟩ : Dict Value).encode false)),
    ("list", .list [.null, .bool true, .struct [7], .block ⟨0, [1]⟩])]⟩

end AssetPack
