import AssetPack.Proofs.Codec.Reading
import AssetPack.Proofs.Value.Vocabulary

/-!
# The form in which a value is read back

Counts and the lengths of texts and records take four bytes, so a value fits the format if none
of them needs more. Read back is a value in which every dictionary that stands in lists only is
a block, placed where it was written; all else is as it was. Writing the stored form again gives
the same bytes.
-/
namespace AssetPack

/-- Counts and the lengths of texts and records are below this. -/
def countLimit : Nat := 0x100000000

/-- All other lengths are below this. -/
def lengthLimit : Nat := 0x10000000000000000

/-- The text has a length that can be written. -/
def TextFits (s : String) : Prop := (Bytes.ofString s).length < countLimit

instance (s : String) : Decidable (TextFits s) := inferInstanceAs (Decidable (_ < _))

/-- The length in front of the content of an atom can be written. -/
def Atom.Fits : Atom → Prop
  | .string s => TextFits s
  | .ref name => TextFits name
  | .struct bs => bs.length < countLimit
  | .bytes bs => bs.length < lengthLimit
  | _ => True

namespace Value

/-- What the value itself says of counts and lengths can be written. -/
def FitsHere : Value → Prop
  | .string s => TextFits s
  | .ref name => TextFits name
  | .struct bs => bs.length < countLimit
  | .list items => items.length < countLimit
  | .dict d => d.size < countLimit ∧ ∀ name ∈ d.names, TextFits name
  | _ => True

/-- The counts and lengths in a value can be written. -/
def Fits (v : Value) : Prop := v.Each FitsHere

/-- No dictionary in the value has a name twice. -/
def Distinct (v : Value) : Prop := v.Each fun | .dict d => d.Distinct | _ => True

end Value

/-- The length of a byte string fits where all that is written does. -/
theorem Atom.fits_of_fitsHere {a : Atom} (h : Value.FitsHere (.atom a))
    (hlen : a.encode.length < lengthLimit) : a.Fits := by
  cases a with
  | bytes bs =>
    simp only [Atom.encode, encodeLong, List.length_append] at hlen
    simp only [Fits]
    omega
  | _ => exact h

mutual

/-- The greatest number of lists that stand around one value, all of them in the same block. -/
def Value.lists : Value → Nat
  | .list items => listsAround items
  | _ => 0
termination_by structural v => v

/-- The greatest number of lists around one of these items or around a value in its lists. -/
def listsAround : List Value → Nat
  | [] => 0
  | v :: vs => max (v.lists + 1) (listsAround vs)
termination_by structural vs => vs

end

/-- In the block of every dictionary in the value, at most `deepest` lists stand around a value. -/
def Value.Shallow (v : Value) : Prop :=
  v.Each fun | .dict d => ∀ entry ∈ d.entries, entry.2.lists ≤ deepest | _ => True

mutual

/-- The value that is read back where this one was written at `place`. -/
def Value.stored (place : Nat) : Value → Value
  | .atom a => .atom a
  | .list items => .list (storedItems (place + 5) items)
  | .dict d => .block ⟨place + 9, d.encode⟩
  | .block b => .block ⟨place + 9, b.bytes⟩
  | .saved p => .saved p
termination_by structural v => v

/-- The items that are read back from `place` on. -/
def storedItems (place : Nat) : List Value → List Value
  | [] => []
  | v :: vs => v.stored place :: storedItems (place + v.encode.length) vs
termination_by structural vs => vs

end

/-- An entry as it is written. -/
def encodeEntry (entry : String × Value) : Bytes := encodeText entry.1 ++ entry.2.encode

/-- The entry that is read back where this one was written at `place`. -/
def storedEntry (place : Nat) (entry : String × Value) : String × Value :=
  (entry.1, entry.2.stored (place + (encodeText entry.1).length))

/-- The dictionary that is read back from a block written at `place`. -/
def Dict.stored (place : Nat) (d : Dict Value) : Dict Value :=
  ⟨Reader.placed encodeEntry storedEntry (place + 8) d.entries⟩

theorem storedItems_eq (place : Nat) (items : List Value) :
    storedItems place items = Reader.placed Value.encode Value.stored place items := by
  induction items generalizing place with
  | nil => rfl
  | cons v vs ih => simp only [storedItems, Reader.placed, ih]

theorem encodeItems_eq (items : List Value) : encodeItems items = items.flatMap Value.encode := by
  induction items with
  | nil => rfl
  | cons v vs ih => simp only [encodeItems, List.flatMap_cons, ih]

theorem encodeEntries_eq (entries : List (String × Value)) :
    encodeEntries entries = entries.flatMap encodeEntry := by
  induction entries with
  | nil => rfl
  | cons entry rest ih => simp only [encodeEntries, encodeEntry, List.flatMap_cons, ih]

@[simp] theorem length_storedItems (place : Nat) (items : List Value) :
    (storedItems place items).length = items.length := by
  induction items generalizing place with
  | nil => rfl
  | cons v vs ih => simp only [storedItems, List.length_cons, ih]

@[simp] theorem Value.kind_stored (v : Value) (place : Nat) : (v.stored place).kind = v.kind := by
  cases v <;> rfl

theorem encodeItems_stored {items : List Value}
    (h : ∀ v ∈ items, ∀ place, (v.stored place).encode = v.encode) (place : Nat) :
    encodeItems (storedItems place items) = encodeItems items := by
  induction items generalizing place with
  | nil => rfl
  | cons v vs ih =>
    have hv := h v List.mem_cons_self
    have hvs := ih fun u hu => h u (List.mem_cons_of_mem v hu)
    simp only [storedItems, encodeItems, hv, hvs]

/-- What is read back is written the same. -/
theorem Value.encode_stored (v : Value) (place : Nat) : (v.stored place).encode = v.encode := by
  induction v generalizing place with
  | atom a => rfl
  | list items ih =>
    simp only [Value.stored, Value.encode, length_storedItems, encodeItems_stored ih]
  | dict d ih => rfl
  | block b => rfl
  | saved p => rfl

theorem encodeEntries_stored (entries : List (String × Value)) (place : Nat) :
    encodeEntries (Reader.placed encodeEntry storedEntry place entries) = encodeEntries entries := by
  induction entries generalizing place with
  | nil => rfl
  | cons entry rest ih =>
    simp only [Reader.placed, storedEntry, encodeEntries, Value.encode_stored, ih]

/-- The names stay in their order. -/
@[simp] theorem Dict.names_stored (d : Dict Value) (place : Nat) : (d.stored place).names = d.names := by
  have h (entries : List (String × Value)) (place : Nat) :
      (Reader.placed encodeEntry storedEntry place entries).map (·.1) = entries.map (·.1) := by
    induction entries generalizing place with
    | nil => rfl
    | cons entry rest ih => simp only [Reader.placed, storedEntry, List.map_cons, ih]
  exact h d.entries (place + 8)

/-- An item of a list has fewer lists around its values than the list. -/
theorem lists_lt_listsAround {items : List Value} {v : Value} (h : v ∈ items) :
    v.lists < listsAround items := by
  induction items with
  | nil => cases h
  | cons u us ih =>
    simp only [listsAround]
    rcases List.mem_cons.mp h with rfl | h
    · omega
    · have := ih h
      omega

/-- The bound is reached by an item. -/
theorem exists_listsAround {items : List Value} (h : 0 < listsAround items) :
    ∃ v ∈ items, v.lists + 1 = listsAround items := by
  induction items with
  | nil => simp only [listsAround, Nat.lt_irrefl] at h
  | cons u us ih =>
    simp only [listsAround] at h ⊢
    by_cases hu : listsAround us ≤ u.lists + 1
    · exact ⟨u, List.mem_cons_self, by omega⟩
    · obtain ⟨v, hv, heq⟩ := ih (by omega)
      exact ⟨v, List.mem_cons_of_mem u hv, by omega⟩

/-! ## Lengths of what is written -/

theorem length_le_length_flatMap {α : Type} {f : α → Bytes} {xs : List α} {x : α} (h : x ∈ xs) :
    (f x).length ≤ (xs.flatMap f).length := by
  induction xs with
  | nil => cases h
  | cons y ys ih =>
    rw [List.flatMap_cons, List.length_append]
    rcases List.mem_cons.mp h with rfl | h
    · omega
    · have := ih h
      omega

theorem length_encode_le_of_mem {items : List Value} {v : Value} (h : v ∈ items) :
    v.encode.length ≤ (encodeItems items).length := by
  rw [encodeItems_eq]
  exact length_le_length_flatMap h

theorem length_encode_le_of_mem_entries {entries : List (String × Value)} {entry : String × Value}
    (h : entry ∈ entries) : entry.2.encode.length ≤ (encodeEntries entries).length := by
  have hentry := length_le_length_flatMap (f := encodeEntry) h
  rw [encodeEntry, List.length_append] at hentry
  rw [encodeEntries_eq]
  omega

theorem length_encode_list (items : List Value) :
    (Value.list items).encode.length = 5 + (encodeItems items).length := by
  simp only [Value.encode, List.length_append, Bytes.length_ofNat]

theorem length_encode_dict (d : Dict Value) :
    (Value.dict d).encode.length = 9 + d.encode.length := by
  simp only [Value.encode, encodeLong, List.length_append, Bytes.length_ofNat]
  omega

theorem Dict.encode_eq (d : Dict Value) :
    d.encode = Bytes.ofNat 4 blockMagic ++ Bytes.ofNat 4 d.size ++ encodeEntries d.entries := by
  cases d
  rfl

theorem Dict.length_encode (d : Dict Value) : d.encode.length = 8 + (encodeEntries d.entries).length := by
  simp only [Dict.encode_eq, List.length_append, Bytes.length_ofNat]

mutual

/-- How many bytes a value is written with. -/
def Value.width : Value → Nat
  | .atom a => 1 + a.encode.length
  | .list items => 5 + widthItems items
  | .dict d => 9 + d.width
  | .block b => 9 + b.bytes.length
  | .saved p => 1 + p.encode.length
termination_by structural v => v

def widthItems : List Value → Nat
  | [] => 0
  | v :: vs => v.width + widthItems vs
termination_by structural vs => vs

def Dict.width : Dict Value → Nat
  | ⟨entries⟩ => 8 + widthEntries entries
termination_by structural d => d

def widthEntries : List (String × Value) → Nat
  | [] => 0
  | (name, v) :: rest => (encodeText name).length + v.width + widthEntries rest
termination_by structural entries => entries

end

/-- The bytes are counted part by part. -/
theorem Value.length_encode (v : Value) : v.encode.length = v.width := by
  induction v with
  | atom a => rw [encode, List.length_append, Bytes.length_ofNat, width]
  | list items ih =>
    have hitems : (encodeItems items).length = widthItems items := by
      induction items with
      | nil => rfl
      | cons v vs ihs =>
        obtain ⟨hv, hvs⟩ := List.forall_mem_cons.mp ih
        rw [encodeItems, List.length_append, widthItems, hv, ihs hvs]
    rw [length_encode_list, width, hitems]
  | dict d ih =>
    obtain ⟨entries⟩ := d
    have hentries : (encodeEntries entries).length = widthEntries entries := by
      induction entries with
      | nil => rfl
      | cons entry rest ihs =>
        obtain ⟨hv, hrest⟩ := List.forall_mem_cons.mp ih
        rw [encodeEntries, List.length_append, List.length_append, widthEntries, hv, ihs hrest]
    rw [length_encode_dict, Dict.length_encode, width, Dict.width, hentries]
  | block b =>
    simp only [encode, encodeLong, List.length_append, Bytes.length_ofNat, width]
    omega
  | saved p => rw [encode, List.length_append, Bytes.length_ofNat, width]

end AssetPack
