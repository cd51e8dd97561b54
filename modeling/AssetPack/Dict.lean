/-!
# Dictionaries

Named entries in the order in which their names were first set. Setting a name again keeps
its place. A dictionary is distinct if no name stands in it twice; every dictionary made
by setting entries is.
-/
namespace AssetPack

/-- Named entries in order. -/
structure Dict (α : Type) where
  entries : List (String × α)

namespace Dict
variable {α β : Type}

/-- The entries with `name` set: in its place if it has one, else at the end. -/
def put (name : String) (a : α) : List (String × α) → List (String × α)
  | [] => [(name, a)]
  | entry :: rest => if entry.1 = name then (name, a) :: rest else entry :: put name a rest

def empty : Dict α := ⟨[]⟩

instance : EmptyCollection (Dict α) := ⟨empty⟩
instance : Inhabited (Dict α) := ⟨empty⟩

instance [DecidableEq α] : DecidableEq (Dict α) := fun d e =>
  decidable_of_iff (d.entries = e.entries) (by cases d; cases e; simp)

def size (d : Dict α) : Nat := d.entries.length

def isEmpty (d : Dict α) : Bool := d.entries.isEmpty

/-- The names in order. -/
def names (d : Dict α) : List String := d.entries.map (·.1)

/-- The entry of a name. -/
def get? (d : Dict α) (name : String) : Option α := d.entries.lookup name

def contains (d : Dict α) (name : String) : Bool := (d.get? name).isSome

/-- Give `name` the entry `a`. -/
def set (d : Dict α) (name : String) (a : α) : Dict α := ⟨put name a d.entries⟩

/-- The entries of all other names. -/
def erase (d : Dict α) (name : String) : Dict α := ⟨d.entries.filter (·.1 ≠ name)⟩

/-- Set entries one by one. -/
def setAll (d : Dict α) (entries : List (String × α)) : Dict α :=
  entries.foldl (fun d entry => d.set entry.1 entry.2) d

def ofList (entries : List (String × α)) : Dict α := setAll ∅ entries

/-- The entries of `e` set over those of `d`. -/
def merge (d e : Dict α) : Dict α := d.setAll e.entries

/-- Each entry replaced in its place. -/
def map (f : α → β) (d : Dict α) : Dict β := ⟨d.entries.map fun entry => (entry.1, f entry.2)⟩

/-- The entries in the order of their names. -/
def sorted (d : Dict α) : List (String × α) := d.entries.mergeSort fun a b => a.1 ≤ b.1

/-- The names in order, or sorted. -/
def listNames (d : Dict α) (sort : Bool) : List String :=
  if sort then d.names.mergeSort (· ≤ ·) else d.names

/-- No name stands twice. -/
def Distinct (d : Dict α) : Prop := d.names.Nodup

instance (d : Dict α) : Decidable d.Distinct := inferInstanceAs (Decidable (List.Nodup _))

/-- A new name goes to the end; a known one moves nothing. -/
theorem names_set (d : Dict α) (name : String) (a : α) :
    (d.set name a).names = if name ∈ d.names then d.names else d.names ++ [name] := by
  obtain ⟨entries⟩ := d
  induction entries with
  | nil => simp [set, put, names]
  | cons entry rest ih =>
    by_cases h : entry.1 = name
    · simp [set, put, names, h]
    · have h' : ¬name = entry.1 := fun e => h e.symm
      simp only [set, names] at ih
      simp only [set, put, names, h, if_false, List.map_cons, List.mem_cons, h', false_or, ih]
      by_cases hm : name ∈ List.map (fun x => x.1) rest <;> simp [hm]

theorem distinct_set {d : Dict α} (h : d.Distinct) (name : String) (a : α) :
    (d.set name a).Distinct := by
  rw [Distinct, names_set]
  split
  · exact h
  · rename_i hn
    exact List.nodup_append.2 ⟨h, by simp, by
      intro x hx y hy
      simp only [List.mem_singleton] at hy
      subst hy
      exact fun e => hn (e ▸ hx)⟩

theorem distinct_setAll {d : Dict α} (h : d.Distinct) (entries : List (String × α)) :
    (d.setAll entries).Distinct := by
  induction entries generalizing d with
  | nil => exact h
  | cons entry rest ih => exact ih (distinct_set h entry.1 entry.2)

theorem distinct_ofList (entries : List (String × α)) : (ofList entries).Distinct :=
  distinct_setAll (by simp [Distinct, names, EmptyCollection.emptyCollection, empty]) entries

theorem put_of_not_mem {name : String} {entries : List (String × α)} (a : α)
    (h : name ∉ entries.map (·.1)) : put name a entries = entries ++ [(name, a)] := by
  induction entries with
  | nil => rfl
  | cons entry rest ih =>
    have hne : ¬entry.1 = name := fun e => h (e ▸ List.mem_cons_self)
    have hrest : name ∉ rest.map (·.1) := fun hm => h (List.mem_cons_of_mem _ hm)
    simp only [put, hne, if_false, ih hrest, List.cons_append]

/-- Entries of new names are lined up behind the others. -/
theorem setAll_of_nodup {d : Dict α} {entries : List (String × α)}
    (h : (d.names ++ entries.map (·.1)).Nodup) : d.setAll entries = ⟨d.entries ++ entries⟩ := by
  induction entries generalizing d with
  | nil => simp [setAll]
  | cons entry rest ih =>
    rw [List.map_cons, List.nodup_append] at h
    obtain ⟨hd, hrest, hdisjoint⟩ := h
    have hnew : entry.1 ∉ d.names := fun hm => hdisjoint _ hm _ List.mem_cons_self rfl
    have hset : d.set entry.1 entry.2 = ⟨d.entries ++ [entry]⟩ := by
      rw [set, put_of_not_mem _ hnew]
    have hstep : d.setAll (entry :: rest) = (d.set entry.1 entry.2).setAll rest := rfl
    rw [hstep, hset, ih, List.append_assoc, List.singleton_append]
    have hnodup : (d.names ++ (entry :: rest).map (·.1)).Nodup := by
      rw [List.map_cons]
      exact List.nodup_append.mpr ⟨hd, hrest, hdisjoint⟩
    simpa [names] using hnodup

/-- Entries of different names are lined up. -/
theorem ofList_of_nodup {entries : List (String × α)} (h : (entries.map (·.1)).Nodup) :
    ofList entries = ⟨entries⟩ := by
  simpa [EmptyCollection.emptyCollection, empty, ofList] using setAll_of_nodup (d := ∅) (by
    simpa [names, EmptyCollection.emptyCollection, empty] using h)

theorem get?_set (d : Dict α) (name other : String) (a : α) :
    (d.set name a).get? other = if other = name then some a else d.get? other := by
  obtain ⟨entries⟩ := d
  induction entries with
  | nil =>
    by_cases h : other = name
    · simp [set, put, get?, h]
    · simp [set, put, get?, List.lookup_cons, h, beq_eq_false_iff_ne.mpr h]
  | cons entry rest ih =>
    obtain ⟨key, b⟩ := entry
    simp only [set, get?] at ih
    by_cases h : key = name
    · by_cases h' : other = name
      · simp [set, put, get?, h, h']
      · simp [set, put, get?, List.lookup_cons, h, h', beq_eq_false_iff_ne.mpr h']
    · by_cases h' : other = key
      · simp [set, put, get?, h, h']
      · simp [set, put, get?, List.lookup_cons, h, ih, beq_eq_false_iff_ne.mpr h']

end Dict
end AssetPack
