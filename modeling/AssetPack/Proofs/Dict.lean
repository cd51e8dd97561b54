import AssetPack.Dict
import Mathlib.Data.List.Basic
import Mathlib.Data.List.Induction

/-!
# Entries under their names

Where the names of a dictionary are distinct, the entry of a name is the one that stands under it.
Every operation that sets entries keeps what is known of all of them.
-/
namespace AssetPack.Dict
variable {α β : Type}

@[simp] theorem entries_empty : (∅ : Dict α).entries = [] := rfl

@[simp] theorem size_mk (entries : List (String × α)) : (⟨entries⟩ : Dict α).size = entries.length := rfl

/-- An entry found under a name stands there. -/
theorem mem_of_get? {d : Dict α} {name : String} {a : α} (h : d.get? name = some a) :
    (name, a) ∈ d.entries := by
  obtain ⟨entries⟩ := d
  simp only [get?] at h
  induction entries with
  | nil => cases h
  | cons entry rest ih =>
    obtain ⟨key, b⟩ := entry
    rw [List.lookup_cons] at h
    by_cases hkey : name = key
    · subst hkey
      simp only [beq_self_eq_true] at h
      cases h
      exact List.mem_cons_self
    · simp only [beq_eq_false_iff_ne.mpr hkey] at h
      exact List.mem_cons_of_mem _ (ih h)

/-- An entry is found under its name if no other stands there. -/
theorem get?_of_mem {d : Dict α} (hd : d.Distinct) {name : String} {a : α}
    (h : (name, a) ∈ d.entries) : d.get? name = some a := by
  obtain ⟨entries⟩ := d
  simp only [Distinct, names] at hd
  simp only [get?]
  induction entries with
  | nil => cases h
  | cons entry rest ih =>
    obtain ⟨key, b⟩ := entry
    rw [List.map_cons, List.nodup_cons] at hd
    rw [List.lookup_cons]
    rcases List.mem_cons.mp h with heq | hmem
    · cases heq
      simp only [beq_self_eq_true]
    · have hne : name ≠ key := by
        rintro rfl
        exact hd.1 (List.mem_map_of_mem (f := (·.1)) hmem)
      simp only [beq_eq_false_iff_ne.mpr hne]
      exact ih hd.2 hmem

theorem contains_iff {d : Dict α} {name : String} : d.contains name ↔ name ∈ d.names := by
  obtain ⟨entries⟩ := d
  simp only [contains, get?, names]
  induction entries with
  | nil => simp
  | cons entry rest ih =>
    obtain ⟨key, b⟩ := entry
    rw [List.lookup_cons, List.map_cons, List.mem_cons]
    by_cases hkey : name = key
    · simp [hkey]
    · simp only [beq_eq_false_iff_ne.mpr hkey, hkey, false_or]
      exact ih

theorem mem_names_of_get? {d : Dict α} {name : String} {a : α} (h : d.get? name = some a) : name ∈ d.names :=
  List.mem_map_of_mem (f := (·.1)) (mem_of_get? h)

theorem exists_get? {d : Dict α} {name : String} (h : name ∈ d.names) : ∃ a, d.get? name = some a :=
  Option.isSome_iff_exists.mp (contains_iff.mpr h)

theorem get?_eq_none_iff {d : Dict α} {name : String} : d.get? name = none ↔ name ∉ d.names := by
  rw [← contains_iff, contains, Bool.not_eq_true, Option.isSome_eq_false_iff, Option.isNone_iff_eq_none]

/-- What is left by name is found if its name is left. -/
theorem get?_filter (p : String → Bool) (d : Dict α) (name : String) :
    (⟨d.entries.filter fun entry => p entry.1⟩ : Dict α).get? name = if p name then d.get? name else none := by
  obtain ⟨entries⟩ := d
  simp only [get?]
  induction entries with
  | nil => simp
  | cons entry rest ih =>
    obtain ⟨key, a⟩ := entry
    by_cases hkey : name = key
    · subst hkey
      cases hp : p name <;> simp [hp, ih]
    · have hne : (name == key) = false := beq_eq_false_iff_ne.mpr hkey
      cases hp : p key <;> simp [List.lookup_cons, hp, hne, ih]

theorem mem_put {name : String} {a : α} {entries : List (String × α)} {entry : String × α}
    (h : entry ∈ put name a entries) : entry = (name, a) ∨ entry ∈ entries := by
  induction entries with
  | nil => exact .inl (List.mem_singleton.mp h)
  | cons first rest ih =>
    rw [put] at h
    split at h
    · rcases List.mem_cons.mp h with rfl | h
      · exact .inl rfl
      · exact .inr (List.mem_cons_of_mem _ h)
    · rcases List.mem_cons.mp h with rfl | h
      · exact .inr List.mem_cons_self
      · rcases ih h with h | h
        · exact .inl h
        · exact .inr (List.mem_cons_of_mem _ h)

theorem mem_set {d : Dict α} {name : String} {a : α} {entry : String × α}
    (h : entry ∈ (d.set name a).entries) : entry = (name, a) ∨ entry ∈ d.entries := mem_put h

theorem mem_setAll {d : Dict α} {entries : List (String × α)} {entry : String × α}
    (h : entry ∈ (d.setAll entries).entries) : entry ∈ d.entries ∨ entry ∈ entries := by
  induction entries generalizing d with
  | nil => exact .inl h
  | cons first rest ih =>
    rcases ih (d := d.set first.1 first.2) h with h | h
    · rcases mem_set h with rfl | h
      · exact .inr List.mem_cons_self
      · exact .inl h
    · exact .inr (List.mem_cons_of_mem _ h)

theorem get?_setAll_of_not_mem {d : Dict α} {entries : List (String × α)} {name : String}
    (h : name ∉ entries.map (·.1)) : (d.setAll entries).get? name = d.get? name := by
  induction entries generalizing d with
  | nil => rfl
  | cons first rest ih =>
    rw [List.map_cons, List.mem_cons, not_or] at h
    have hstep : d.setAll (first :: rest) = (d.set first.1 first.2).setAll rest := rfl
    rw [hstep, ih h.2, get?_set, if_neg h.1]

/-- To set a name leaves the entries of all others. -/
theorem mem_set_of_ne {d : Dict α} {entry : String × α} (h : entry ∈ d.entries) {name : String} (hne : entry.1 ≠ name)
    (a : α) : entry ∈ (d.set name a).entries := by
  obtain ⟨entries⟩ := d
  change entry ∈ entries at h
  change entry ∈ put name a entries
  induction entries with
  | nil => cases h
  | cons first rest ih =>
    rw [put]
    rcases List.mem_cons.mp h with rfl | h
    · rw [if_neg hne]
      exact List.mem_cons_self
    · split
      · exact List.mem_cons_of_mem _ h
      · exact List.mem_cons_of_mem _ (ih h)

/-- What another dictionary does not have stays when that is set over this one. -/
theorem mem_merge_of_not_mem {d e : Dict α} {entry : String × α} (h : entry ∈ d.entries) (hnew : entry.1 ∉ e.names) :
    entry ∈ (d.merge e).entries := by
  obtain ⟨entries⟩ := e
  change entry ∈ (d.setAll entries).entries
  induction entries generalizing d with
  | nil => exact h
  | cons first rest ih =>
    have hnew : entry.1 ≠ first.1 ∧ entry.1 ∉ (⟨rest⟩ : Dict α).names := by
      simpa only [names, List.map_cons, List.mem_cons, not_or] using hnew
    exact ih (mem_set_of_ne h hnew.1 first.2) hnew.2

theorem mem_names_merge {d e : Dict α} {name : String} (h : name ∈ (d.merge e).names) :
    name ∈ d.names ∨ name ∈ e.names := by
  obtain ⟨entry, he, rfl⟩ := List.mem_map.mp h
  exact (mem_setAll he).imp List.mem_map_of_mem List.mem_map_of_mem

theorem names_subset_set (d : Dict α) (name : String) (a : α) : d.names ⊆ (d.set name a).names := by
  rw [names_set]
  split
  · exact List.Subset.refl _
  · exact List.subset_append_left _ _

theorem mem_names_set_self (d : Dict α) (name : String) (a : α) : name ∈ (d.set name a).names := by
  rw [names_set]
  split
  · assumption
  · exact List.mem_append_right _ (List.mem_singleton.mpr rfl)

theorem names_subset_merge (d e : Dict α) : e.names ⊆ (d.merge e).names := by
  have hall (entries : List (String × α)) (d : Dict α) :
      d.names ⊆ (d.setAll entries).names ∧ entries.map (·.1) ⊆ (d.setAll entries).names := by
    induction entries generalizing d with
    | nil => exact ⟨List.Subset.refl _, List.nil_subset _⟩
    | cons entry rest ih =>
      obtain ⟨hbefore, hrest⟩ := ih (d.set entry.1 entry.2)
      refine ⟨List.Subset.trans (names_subset_set d _ _) hbefore, List.cons_subset.mpr ⟨?_, hrest⟩⟩
      exact hbefore (mem_names_set_self d _ _)
  exact (hall e.entries d).2

theorem not_mem_names_erase (d : Dict α) (name : String) : name ∉ (d.erase name).names := by
  intro h
  obtain ⟨entry, he, rfl⟩ := List.mem_map.mp h
  simpa using (List.mem_filter.mp he).2

theorem names_erase_subset (d : Dict α) (name : String) : (d.erase name).names ⊆ d.names :=
  (List.filter_sublist.map _).subset

theorem mem_names_erase {d : Dict α} {name key : String} (h : name ∈ d.names) (hkey : name ≠ key) :
    name ∈ (d.erase key).names := by
  obtain ⟨entry, hentry, rfl⟩ := List.mem_map.mp h
  exact List.mem_map_of_mem (List.mem_filter.mpr ⟨hentry, decide_eq_true hkey⟩)

theorem names_erase (d : Dict α) (key : String) : (d.erase key).names = d.names.filter (· ≠ key) := by
  rw [names, erase, names, List.filter_map]
  rfl

theorem get?_erase (d : Dict α) (key name : String) :
    (d.erase key).get? name = if name = key then none else d.get? name := by
  rw [erase, d.get?_filter fun other => other ≠ key]
  by_cases hname : name = key <;> simp [hname]

theorem distinct_erase {d : Dict α} (h : d.Distinct) (key : String) : (d.erase key).Distinct := by
  rw [Distinct, names_erase]
  exact h.sublist List.filter_sublist

theorem erase_of_not_mem {d : Dict α} {name : String} (h : name ∉ d.names) : d.erase name = d := by
  have hentries : d.entries.filter (fun entry => decide (entry.1 ≠ name)) = d.entries := by
    refine List.filter_eq_self.mpr fun entry hentry => decide_eq_true fun heq => h ?_
    exact heq ▸ List.mem_map_of_mem hentry
  rw [erase, hentries]

theorem erase_comm (d : Dict α) (name key : String) : (d.erase name).erase key = (d.erase key).erase name := by
  simp only [erase, List.filter_filter, Bool.and_comm]

theorem erase_set_self (d : Dict α) (name : String) (a : α) : (d.set name a).erase name = d.erase name := by
  obtain ⟨entries⟩ := d
  simp only [set, erase, mk.injEq]
  induction entries with
  | nil => simp [put]
  | cons entry rest ih =>
    by_cases h : entry.1 = name
    · simp [put, h]
    · rw [put, if_neg h, List.filter_cons_of_pos (by simpa using h), List.filter_cons_of_pos (by simpa using h), ih]

theorem erase_set_of_ne (d : Dict α) {name key : String} (h : name ≠ key) (a : α) :
    (d.set name a).erase key = (d.erase key).set name a := by
  obtain ⟨entries⟩ := d
  simp only [set, erase, mk.injEq]
  induction entries with
  | nil => simp [put, h]
  | cons entry rest ih =>
    by_cases hname : entry.1 = name
    · simp [put, hname, h]
    · rw [put, if_neg hname]
      by_cases hkey : entry.1 = key
      · rw [List.filter_cons_of_neg (by simpa using hkey), List.filter_cons_of_neg (by simpa using hkey), ih]
      · rw [List.filter_cons_of_pos (by simpa using hkey), List.filter_cons_of_pos (by simpa using hkey), ih, put,
          if_neg hname]

/-- To set what is there already changes nothing. -/
theorem set_of_get? {d : Dict α} {name : String} {a : α} (h : d.get? name = some a) : d.set name a = d := by
  obtain ⟨entries⟩ := d
  simp only [set, get?, mk.injEq] at h ⊢
  induction entries with
  | nil => cases h
  | cons entry rest ih =>
    rw [List.lookup_cons] at h
    by_cases hname : entry.1 = name
    · obtain ⟨key, b⟩ := entry
      obtain rfl : key = name := hname
      rw [beq_self_eq_true] at h
      cases h
      rw [put, if_pos rfl]
    · have hne : (name == entry.1) = false := beq_eq_false_iff_ne.mpr fun heq => hname heq.symm
      rw [hne] at h
      rw [put, if_neg hname, ih h]

/-- What is left out of two dictionaries is left out of the one set over the other. -/
theorem erase_merge (d e : Dict α) (key : String) : (d.merge e).erase key = (d.erase key).merge (e.erase key) := by
  obtain ⟨entries⟩ := e
  simp only [merge, erase]
  induction entries generalizing d with
  | nil => rfl
  | cons entry rest ih =>
    have hstep : d.setAll (entry :: rest) = (d.set entry.1 entry.2).setAll rest := rfl
    have hfirst := ih (d.set entry.1 entry.2)
    rw [hstep]
    by_cases h : entry.1 = key
    · subst h
      have herase := erase_set_self d entry.1 entry.2
      simp only [erase] at herase
      rw [List.filter_cons_of_neg (by simp), hfirst, herase]
    · have herase := erase_set_of_ne d h entry.2
      simp only [erase] at herase
      rw [List.filter_cons_of_pos (by simpa using h), hfirst, herase]
      rfl

/-- The entry of a name is the one that is set over the other. -/
theorem get?_merge (d : Dict α) {e : Dict α} (he : e.Distinct) (name : String) :
    (d.merge e).get? name = (e.get? name).or (d.get? name) := by
  obtain ⟨entries⟩ := e
  simp only [Distinct, names] at he
  rw [merge]
  induction entries generalizing d with
  | nil => rfl
  | cons entry rest ih =>
    obtain ⟨key, a⟩ := entry
    rw [List.map_cons, List.nodup_cons] at he
    have hstep : d.setAll ((key, a) :: rest) = (d.set key a).setAll rest := rfl
    have hget : (⟨(key, a) :: rest⟩ : Dict α).get? name =
        if name = key then some a else (⟨rest⟩ : Dict α).get? name := by
      simp only [get?, List.lookup_cons]
      by_cases h : name = key
      · simp [h]
      · simp [h, beq_eq_false_iff_ne.mpr h]
    rw [hstep, ih _ he.2, get?_set, hget]
    by_cases h : name = key
    · have hrest : (⟨rest⟩ : Dict α).get? name = none := get?_eq_none_iff.mpr (h ▸ he.1)
      rw [if_pos h, if_pos h, hrest]
      rfl
    · rw [if_neg h, if_neg h]

/-- New names stand behind the others. -/
theorem names_merge (d : Dict α) {e : Dict α} (he : e.Distinct) :
    (d.merge e).names = d.names ++ e.names.filter (· ∉ d.names) := by
  obtain ⟨entries⟩ := e
  simp only [Distinct, names] at he
  rw [merge]
  induction entries generalizing d with
  | nil => exact (List.append_nil _).symm
  | cons entry rest ih =>
    obtain ⟨key, a⟩ := entry
    rw [List.map_cons, List.nodup_cons] at he
    have hstep : d.setAll ((key, a) :: rest) = (d.set key a).setAll rest := rfl
    have hcons : (⟨(key, a) :: rest⟩ : Dict α).names = key :: (⟨rest⟩ : Dict α).names := rfl
    rw [hstep, ih _ he.2, names_set, hcons]
    by_cases h : key ∈ d.names
    · rw [if_pos h, List.filter_cons_of_neg (by simpa using h)]
    · rw [if_neg h, List.filter_cons_of_pos (by simpa using h), List.append_assoc, List.singleton_append]
      congr 2
      refine List.filter_congr fun name hname => ?_
      have hne : name ≠ key := fun heq => he.1 (heq ▸ hname)
      simp [hne]

theorem distinct_merge {d : Dict α} (hd : d.Distinct) (e : Dict α) : (d.merge e).Distinct :=
  distinct_setAll hd e.entries

theorem mem_ofList {entries : List (String × α)} {entry : String × α}
    (h : entry ∈ (ofList entries).entries) : entry ∈ entries := by
  rcases mem_setAll h with h | h
  · cases h
  · exact h

@[simp] theorem names_map (f : α → β) (d : Dict α) : (d.map f).names = d.names := by
  rw [names, map, List.map_map]
  rfl

@[simp] theorem size_map (f : α → β) (d : Dict α) : (d.map f).size = d.size := by
  rw [size, map, List.length_map]
  rfl

theorem get?_map (f : α → β) (d : Dict α) (name : String) : (d.map f).get? name = (d.get? name).map f := by
  obtain ⟨entries⟩ := d
  simp only [get?, map]
  induction entries with
  | nil => rfl
  | cons entry rest ih =>
    rw [List.map_cons, List.lookup_cons, List.lookup_cons, ih]
    cases name == entry.1 <;> rfl

theorem map_congr {f g : α → β} {d : Dict α} (h : ∀ entry ∈ d.entries, f entry.2 = g entry.2) :
    d.map f = d.map g := by
  have hentries : d.entries.map (fun entry => (entry.1, f entry.2)) =
      d.entries.map fun entry => (entry.1, g entry.2) :=
    List.map_congr_left fun entry hentry => by rw [h entry hentry]
  rw [map, map, hentries]

/-- Setting commutes with replacing each entry in its place. -/
theorem map_set (f : α → β) (d : Dict α) (name : String) (a : α) :
    (d.set name a).map f = (d.map f).set name (f a) := by
  obtain ⟨entries⟩ := d
  simp only [set, map, mk.injEq]
  induction entries with
  | nil => rfl
  | cons entry rest ih =>
    simp only [put]
    split
    · simp only [List.map_cons, put, ‹entry.1 = name›, if_true]
    · simp only [List.map_cons, put, ‹¬entry.1 = name›, if_false, ih]

theorem map_setAll (f : α → β) (d : Dict α) (entries : List (String × α)) :
    (d.setAll entries).map f = (d.map f).setAll (entries.map fun entry => (entry.1, f entry.2)) := by
  induction entries generalizing d with
  | nil => rfl
  | cons entry rest ih =>
    have hstep : d.setAll (entry :: rest) = (d.set entry.1 entry.2).setAll rest := rfl
    rw [hstep, ih, map_set]
    rfl

theorem map_ofList (f : α → β) (entries : List (String × α)) :
    (ofList entries).map f = ofList (entries.map fun entry => (entry.1, f entry.2)) :=
  map_setAll f ∅ entries

/-- Every entry replaced in its place, with a look at its name. -/
def mapEntries (f : String → α → β) (d : Dict α) : Dict β := ⟨d.entries.map fun entry => (entry.1, f entry.1 entry.2)⟩

theorem names_mapEntries (f : String → α → β) (d : Dict α) : (d.mapEntries f).names = d.names := by
  rw [names, mapEntries, List.map_map]
  rfl

theorem get?_mapEntries (f : String → α → β) (d : Dict α) (name : String) :
    (d.mapEntries f).get? name = (d.get? name).map (f name) := by
  obtain ⟨entries⟩ := d
  simp only [get?, mapEntries]
  induction entries with
  | nil => rfl
  | cons entry rest ih =>
    rw [List.map_cons, List.lookup_cons, List.lookup_cons, ih]
    cases hname : name == entry.1 with
    | false => rfl
    | true => rw [beq_iff_eq.mp hname]; rfl

theorem mapEntries_set (f : String → α → β) (d : Dict α) (name : String) (a : α) :
    (d.set name a).mapEntries f = (d.mapEntries f).set name (f name a) := by
  obtain ⟨entries⟩ := d
  simp only [set, mapEntries, mk.injEq]
  induction entries with
  | nil => rfl
  | cons entry rest ih =>
    simp only [put]
    split
    · simp only [List.map_cons, put, ‹entry.1 = name›, if_true]
    · simp only [List.map_cons, put, ‹¬entry.1 = name›, if_false, ih]

/-! ## Entries set one by one -/

/-- Each name once, in the order of the first entries with it, and with its last entry. -/
def gathered (entries : List (String × α)) : Dict α :=
  ⟨(entries.map (·.1)).eraseDups.filterMap fun name => (entries.reverse.lookup name).map (name, ·)⟩

theorem ofList_concat (entries : List (String × α)) (entry : String × α) :
    ofList (entries ++ [entry]) = (ofList entries).set entry.1 entry.2 := List.foldl_append

theorem names_ofList (entries : List (String × α)) : (ofList entries).names = (entries.map (·.1)).eraseDups := by
  induction entries using List.reverseRecOn with
  | nil => rfl
  | append_singleton entries entry ih =>
    rw [ofList_concat, names_set, ih, List.map_append, List.eraseDups_append]
    by_cases h : entry.1 ∈ entries.map (·.1)
    · simp [h, List.removeAll]
    · simp only [List.map_cons, List.map_nil, List.mem_eraseDups, List.removeAll, h, if_false, List.elem_eq_mem,
        decide_false, Bool.not_false, List.filter_cons_of_pos, List.filter_nil]
      rfl

theorem get?_ofList (entries : List (String × α)) (name : String) :
    (ofList entries).get? name = entries.reverse.lookup name := by
  induction entries using List.reverseRecOn with
  | nil => rfl
  | append_singleton entries entry ih =>
    obtain ⟨key, a⟩ := entry
    rw [ofList_concat, get?_set, ih, List.reverse_append, List.reverse_singleton, List.singleton_append,
      List.lookup_cons]
    by_cases h : name = key
    · simp [h]
    · simp [h, beq_eq_false_iff_ne.mpr h]

theorem get?_ofList_map (f : String → α → β) (entries : List (String × α)) (name : String) :
    (ofList (entries.map fun entry => (entry.1, f entry.1 entry.2))).get? name =
      ((ofList entries).get? name).map (f name) := by
  rw [get?_ofList, get?_ofList, ← List.map_reverse]
  induction entries.reverse with
  | nil => rfl
  | cons entry rest ih =>
    rw [List.map_cons, List.lookup_cons, List.lookup_cons, ih]
    cases h : name == entry.1 with
    | true => rw [eq_of_beq h]; rfl
    | false => rfl

/-- Of a distinct dictionary, the names and what stands under each of them are all that there is. -/
theorem entries_eq_filterMap {d : Dict α} (h : d.Distinct) :
    d.entries = d.names.filterMap fun name => (d.get? name).map (name, ·) := by
  rw [names, List.filterMap_map]
  have hfound : ∀ entry ∈ d.entries,
      ((fun name => (d.get? name).map (name, ·)) ∘ fun entry : String × α => entry.1) entry = some entry := by
    intro entry hentry
    simp only [Function.comp_apply, get?_of_mem h hentry, Option.map_some]
  rw [List.filterMap_congr hfound, List.filterMap_some]

/-- Dictionaries with the same names in the same order and the same under each name are equal. -/
theorem eq_of_get? {d e : Dict α} (hd : d.Distinct) (he : e.Distinct) (hnames : d.names = e.names)
    (hget : ∀ name ∈ d.names, d.get? name = e.get? name) : d = e := by
  obtain ⟨entries⟩ := d
  obtain ⟨others⟩ := e
  have hentries := entries_eq_filterMap hd
  rw [List.filterMap_congr fun name hname => by rw [hget name hname], hnames, ← entries_eq_filterMap he] at hentries
  exact congrArg mk hentries

/-- What stood under a name does not matter when it is set. -/
theorem set_congr {d e : Dict α} (hd : d.Distinct) (he : e.Distinct) {name : String} (hnames : d.names = e.names)
    (hget : ∀ other, other ≠ name → d.get? other = e.get? other) (a : α) : d.set name a = e.set name a := by
  refine eq_of_get? (distinct_set hd name a) (distinct_set he name a) ?_ fun other _ => ?_
  · rw [names_set, names_set, hnames]
  · rw [get?_set, get?_set]
    split
    · rfl
    · exact hget other ‹_›

theorem ofList_eq_gathered (entries : List (String × α)) : ofList entries = gathered entries := by
  have hentries := entries_eq_filterMap (distinct_ofList entries)
  simp only [names_ofList, get?_ofList] at hentries
  rw [gathered, ← hentries]

/-! ## The order of names -/

theorem mem_sorted {d : Dict α} {entry : String × α} : entry ∈ d.sorted ↔ entry ∈ d.entries :=
  List.mem_mergeSort

theorem distinct_sorted {d : Dict α} (h : d.Distinct) : (⟨d.sorted⟩ : Dict α).Distinct := by
  have hperm : (d.sorted.map (·.1)).Perm d.names := (List.mergeSort_perm _ _).map _
  exact hperm.nodup_iff.mpr h

/-- Entries in the order of their names stay where they are. -/
theorem sorted_sorted (d : Dict α) : (⟨d.sorted⟩ : Dict α).sorted = d.sorted := by
  refine List.mergeSort_of_pairwise (List.pairwise_mergeSort ?_ ?_ _)
  · intro a b c hab hbc
    simp only [decide_eq_true_eq] at hab hbc ⊢
    exact String.le_trans hab hbc
  · intro a b
    simp only [Bool.or_eq_true, decide_eq_true_eq]
    exact String.le_total a.1 b.1

end AssetPack.Dict
