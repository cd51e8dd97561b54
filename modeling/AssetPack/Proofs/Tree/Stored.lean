import Mathlib.Data.List.Forall2
import AssetPack.Proofs.Codec.RoundTrip
import AssetPack.Proofs.Codec.Saved
import AssetPack.Proofs.Codec.Shift
import AssetPack.Proofs.Dict
import AssetPack.Proofs.Tree.Opening
import AssetPack.Tree.Same

/-!
# What comes back of a stored value

A value that was written and read back is compared with the one that was written, item by item and at every depth. It
is the same if all of its blocks open.
-/
namespace AssetPack

/-!
## Sameness item by item

Lists are the same item by item. Dictionaries are the same if they are of one size and each entry of
the first is found in the second.
-/

theorem sameItems_iff {ts us : List Tree} :
    sameItems ts us = true ↔ List.Forall₂ (fun t u => t.same u = true) ts us := by
  induction ts generalizing us with
  | nil => cases us <;> simp [sameItems]
  | cons t ts ih =>
    cases us with
    | nil => simp [sameItems]
    | cons u us => rw [sameItems, List.forall₂_cons, Bool.and_eq_true, ih]

theorem sameEntries_iff {entries : List (String × Tree)} {e : Dict Tree} : sameEntries entries e = true ↔
    ∀ entry ∈ entries, ∃ u, e.get? entry.1 = some u ∧ entry.2.same u = true := by
  induction entries with
  | nil => simp [sameEntries]
  | cons entry rest ih =>
    rw [sameEntries, Bool.and_eq_true, ih, List.forall_mem_cons]
    refine and_congr_left fun _ => ?_
    cases e.get? entry.1 <;> simp

theorem Dict.same_iff {d e : Dict Tree} : d.same e = true ↔
    d.size = e.size ∧ ∀ entry ∈ d.entries, ∃ u, e.get? entry.1 = some u ∧ entry.2.same u = true := by
  obtain ⟨entries⟩ := d
  rw [Dict.same, Bool.and_eq_true, beq_iff_eq, sameEntries_iff]
  rfl

/-!
## The stored form is the same value

A value that was written and read back differs from itself only in the forms of its dictionaries:
each is a block now, which opens to the stored form of the dictionary. So the two values are the
same at every depth, provided that each of the blocks can be read.
-/

/-- Blocks of the same bytes are the same, whether they open or not. -/
theorem Value.same_block (place place' : Nat) (bs : Bytes) :
    (Value.block ⟨place, bs⟩).same (.block ⟨place', bs⟩) = true := by
  have hok := Block.load_isOk place place' bs
  rw [same, tree_block, tree_block]
  cases h : Block.load ⟨place, bs⟩ with
  | ok d =>
    cases h' : Block.load ⟨place', bs⟩ with
    | ok d' => simp [Tree.same, Source.same?]
    | error f =>
      rw [h, h'] at hok
      cases hok
  | error f =>
    cases h' : Block.load ⟨place', bs⟩ with
    | ok d' =>
      rw [h, h'] at hok
      cases hok
    | error f' => simp [Tree.same, Source.same?]

theorem Value.same_saved (p : Payload) : (Value.saved p).same (.saved p) = true := by
  rw [same, tree_saved]
  split
  · cases p.loadDict <;> simp [Tree.same, Source.same?]
  · simp [Tree.same]

theorem sameItems_stored {items : List Value}
    (h : ∀ v ∈ items, ∀ place, (v.stored place).same v = true) (place : Nat) :
    sameItems ((storedItems place items).map Value.tree) (items.map Value.tree) = true := by
  induction items generalizing place with
  | nil => rfl
  | cons v vs ih =>
    have hv : (v.stored place).tree.same v.tree = true := h v List.mem_cons_self place
    have hvs := ih (fun u hu => h u (List.mem_cons_of_mem v hu)) (place + v.encode.length)
    rw [storedItems, List.map_cons, List.map_cons, sameItems, hv, hvs]
    rfl

/-- The entries of a stored dictionary stand under the same names with the same values. -/
theorem sameEntries_stored {entries : List (String × Value)} {e : Dict Tree}
    (hget : ∀ entry ∈ entries, e.get? entry.1 = some entry.2.tree)
    (hsame : ∀ entry ∈ entries, ∀ place, (entry.2.stored place).same entry.2 = true) (place : Nat) :
    sameEntries ((Reader.placed encodeEntry storedEntry place entries).map fun entry =>
      (entry.1, entry.2.tree)) e = true := by
  induction entries generalizing place with
  | nil => rfl
  | cons entry rest ih =>
    have hhead := hget entry List.mem_cons_self
    have hfirst : (entry.2.stored (place + (encodeText entry.1).length)).tree.same entry.2.tree = true :=
      hsame entry List.mem_cons_self _
    have hrest := ih (fun other h => hget other (List.mem_cons_of_mem entry h))
      (fun other h => hsame other (List.mem_cons_of_mem entry h)) (place + (encodeEntry entry).length)
    rw [Reader.placed, List.map_cons, sameEntries]
    simp only [storedEntry, hhead, hfirst, hrest, Bool.and_self]

theorem Dict.same_stored {d : Dict Value} (hd : d.Distinct)
    (h : ∀ entry ∈ d.entries, ∀ place, (entry.2.stored place).same entry.2 = true) (place : Nat) :
    (d.stored place).sameAs d = true := by
  have hget : ∀ entry ∈ d.entries, d.tree.get? entry.1 = some entry.2.tree := by
    intro entry hentry
    refine Dict.get?_of_mem ?_ ?_
    · rw [Dict.tree_eq, Dict.Distinct, Dict.names_map]
      exact hd
    · rw [Dict.tree_eq]
      exact List.mem_map_of_mem (f := fun entry : String × Value => (entry.1, entry.2.tree)) hentry
  have hsize : (d.stored place).entries.length = d.tree.size := by
    rw [Dict.tree_eq, Dict.size_map, Dict.stored, Reader.length_placed]
    rfl
  have hentries := sameEntries_stored hget h (place + 8)
  rw [Dict.sameAs, Dict.tree_eq (d.stored place), Dict.map, Dict.same]
  rw [List.length_map, hsize, beq_self_eq_true, Bool.true_and]
  exact hentries

/-- A value is the same as its stored form if all blocks in it can be read. -/
theorem Value.same_stored {v : Value} (hfits : v.Fits) (hlen : v.encode.length < lengthLimit)
    (hdistinct : v.Distinct) (hshallow : v.Shallow) (place : Nat) :
    (v.stored place).same v = true := by
  induction v generalizing place with
  | atom a => simp [same, stored, Tree.same]
  | list items ih =>
    rw [length_encode_list] at hlen
    have hitems : ∀ v ∈ items, ∀ place, (v.stored place).same v = true := by
      intro v hv
      have hle := length_encode_le_of_mem hv
      exact ih v hv (((each_list items).mp hfits).2 v hv) (by omega)
        (((each_list items).mp hdistinct).2 v hv) (((each_list items).mp hshallow).2 v hv)
    rw [same, stored, tree_list, tree_list, Tree.same]
    exact sameItems_stored hitems (place + 5)
  | dict d ih =>
    rw [length_encode_dict] at hlen
    have hshort : d.encode.length < lengthLimit := by omega
    have hentries : ∀ entry ∈ d.entries, ∀ place, (entry.2.stored place).same entry.2 = true := by
      intro entry hentry
      obtain ⟨_, hvalue, hlen⟩ := Block.entry_fits hfits hshort hentry
      exact ih entry hentry hvalue hlen (((each_dict d).mp hdistinct).2 entry hentry)
        (((each_dict d).mp hshallow).2 entry hentry)
    have hload := Block.load_encode_of_lists_le hfits hshort hdistinct.here hshallow.here (place + 9)
    rw [same, stored, tree_block, hload, tree_dict, Tree.same]
    exact Dict.same_stored hdistinct.here hentries (place + 9)
  | block b => exact same_block _ _ _
  | saved p => exact same_saved p

/-- Writing a value and reading it back. Counts and the lengths of texts and records must fit their
four bytes, all other lengths an address, and no dictionary has a name twice. If at most `deepest`
lists stand around a value in its block, the value comes back as the same one, of the same kind, and
is written the same again. If more of them stand around a value outside all nested blocks, the
reading ends with that fault. -/
theorem Value.decode_encode {v : Value} (hfits : v.Fits) (hdistinct : v.Distinct)
    (hlen : v.encode.length < lengthLimit) :
    (v.lists ≤ deepest → v.Shallow → ∃ w, Value.decode v.encode = .ok w ∧ w.kind = v.kind ∧
      w.same v = true ∧ w.encode = v.encode) ∧
    (deepest < v.lists → ∃ offset, Value.decode v.encode = .error (.tooDeep deepest offset)) := by
  constructor
  · intro hlists hshallow
    exact ⟨v.stored 0, decode_encode_of_lists_le hfits hlen hlists, kind_stored v 0,
      same_stored hfits hlen hdistinct hshallow 0, encode_stored v 0⟩
  · intro hlists
    obtain ⟨_, ⟨offset, rfl⟩, hdecode⟩ := decode_encode_of_lt_lists hfits hlen hlists
    exact ⟨offset, hdecode⟩

/-- A list of a dictionary with a list in it, and of a text. -/
def Value.listedDict : Value := .list [.dict ⟨[("a", .list [.int 1])]⟩, .string "b"]

theorem Value.decode_encode_listedDict : listedDict.Fits ∧ listedDict.Distinct ∧
    listedDict.encode.length < lengthLimit ∧ listedDict.lists ≤ deepest ∧ listedDict.Shallow ∧
    ∃ w, Value.decode listedDict.encode = .ok w ∧ w.kind = .list ∧ w.same listedDict = true ∧
      w.encode = listedDict.encode := by
  have hfits : listedDict.Fits := by
    simp [Fits, listedDict, FitsHere, Dict.names, countLimit]
    decide
  have hdistinct : listedDict.Distinct := by
    simp [Value.Distinct, listedDict, Dict.Distinct, Dict.names]
  have hshallow : listedDict.Shallow := by
    simp [Shallow, listedDict, lists, listsAround, deepest]
  have hlen : listedDict.encode.length < lengthLimit := by decide
  have hlists : listedDict.lists ≤ deepest := by decide
  exact ⟨hfits, hdistinct, hlen, hlists, hshallow,
    (decode_encode hfits hdistinct hlen).1 hlists hshallow⟩

/-!
## Dictionaries that come back

A dictionary without closed blocks comes back the same just if every block of it can be read: a block
that does not open is the same as no dictionary.
-/

section
variable {V : Vocabulary}

theorem Value.Of.distinct {v : Value} (h : v.Of V) : v.Distinct := by
  refine Each.mono h fun u hu => ?_
  cases u with
  | dict d => exact hu.1
  | _ => trivial

theorem same_stored_of_sameItems {items : List Value} {place : Nat}
    (h : sameItems ((storedItems place items).map Value.tree) (items.map Value.tree) = true) :
    ∀ v ∈ items, ∃ place, (v.stored place).same v = true := by
  induction items generalizing place with
  | nil => simp
  | cons v vs ih =>
    rw [storedItems, List.map_cons, List.map_cons, sameItems, Bool.and_eq_true] at h
    exact List.forall_mem_cons.mpr ⟨⟨place, h.1⟩, ih h.2⟩

theorem exists_mem_placed {entries : List (String × Value)} {entry : String × Value} (h : entry ∈ entries)
    (place : Nat) :
    ∃ place', (entry.1, entry.2.stored place') ∈ Reader.placed encodeEntry storedEntry place entries := by
  induction entries generalizing place with
  | nil => cases h
  | cons first rest ih =>
    rw [Reader.placed]
    rcases List.mem_cons.mp h with rfl | h
    · exact ⟨_, List.mem_cons_self⟩
    · obtain ⟨place', hmem⟩ := ih h (place + (encodeEntry first).length)
      exact ⟨place', List.mem_cons_of_mem _ hmem⟩

/-- If what is left by name of a dictionary and of its stored form is the same, so is each value in it. -/
theorem same_stored_of_sameAs_filter {d : Dict Value} (hdistinct : d.Distinct) {place : Nat} (p : String → Bool)
    (h : (⟨(d.stored place).entries.filter fun entry => p entry.1⟩ : Dict Value).sameAs
      ⟨d.entries.filter fun entry => p entry.1⟩ = true) :
    ∀ entry ∈ d.entries, p entry.1 = true → ∃ place, (entry.2.stored place).same entry.2 = true := by
  intro entry hentry hname
  obtain ⟨place', hmem⟩ := exists_mem_placed hentry (place + 8)
  have hstored : (entry.1, entry.2.stored place') ∈ (d.stored place).entries.filter fun entry => p entry.1 :=
    List.mem_filter.mpr ⟨hmem, hname⟩
  rw [Dict.sameAs, Dict.same_iff, Dict.tree_eq, Dict.tree_eq] at h
  obtain ⟨u, hget, hsame⟩ := h.2 _ (List.mem_map_of_mem hstored)
  rw [Dict.get?_map, d.get?_filter, if_pos hname, Dict.get?_of_mem hdistinct hentry] at hget
  cases hget
  exact ⟨place', hsame⟩

theorem same_stored_of_sameAs {d : Dict Value} (hdistinct : d.Distinct) {place : Nat}
    (h : (d.stored place).sameAs d = true) :
    ∀ entry ∈ d.entries, ∃ place, (entry.2.stored place).same entry.2 = true := by
  have hall : (⟨(d.stored place).entries.filter fun _ => true⟩ : Dict Value).sameAs
      ⟨d.entries.filter fun _ => true⟩ = true := by rwa [List.filter_true, List.filter_true]
  exact fun entry hentry => same_stored_of_sameAs_filter hdistinct (fun _ => true) hall entry hentry rfl

/-- A value that is the same as its stored form has no block that cannot be read. -/
theorem Value.shallow_of_same {v : Value} (hfits : v.Fits) (hlen : v.encode.length < lengthLimit) (hof : v.Of V)
    {place : Nat} (hsame : (v.stored place).same v = true) : v.Shallow := by
  induction v generalizing place with
  | atom a => exact (each_atom _).mpr trivial
  | list items ih =>
    rw [length_encode_list] at hlen
    rw [same, stored, tree_list, tree_list, Tree.same] at hsame
    refine (each_list items).mpr ⟨trivial, fun v hv => ?_⟩
    obtain ⟨place', hsame⟩ := same_stored_of_sameItems hsame v hv
    have hle := length_encode_le_of_mem hv
    exact ih v hv (((each_list items).mp hfits).2 v hv) (by omega) (of_list.mp hof v hv) hsame
  | dict d ih =>
    rw [length_encode_dict] at hlen
    have hshort : d.encode.length < lengthLimit := by omega
    have hdistinct := Dict.Of.distinct hof
    rw [same, stored, tree_block, tree_dict] at hsame
    cases hload : Block.load ⟨place + 9, d.encode⟩ with
    | error f =>
      rw [hload] at hsame
      simp [Tree.same] at hsame
    | ok e =>
      obtain rfl := eq_stored_of_load hfits hshort hdistinct hload
      rw [hload, Tree.same] at hsame
      refine (each_dict d).mpr ⟨lists_le_of_load hfits hshort hload, fun entry hentry => ?_⟩
      obtain ⟨place', hsame⟩ := same_stored_of_sameAs hdistinct hsame entry hentry
      obtain ⟨_, hfits', hlen'⟩ := Block.entry_fits hfits hshort hentry
      exact ih entry hentry hfits' hlen' (Dict.Of.entry hof hentry) hsame
  | block b => exact (not_of_block hof).elim
  | saved p => exact (each_saved p).mpr trivial

namespace Dict
variable {d : Dict Value}

/-- A dictionary that is written comes back the same just if not too many lists stand around any value. -/
theorem decode_encode_iff (hfits : (Value.dict d).Fits) (hlen : d.encode.length < lengthLimit) (hd : d.Of V) :
    (∃ e, Dict.decode d.encode = .ok e ∧ e.sameAs d = true) ↔ (Value.dict d).Shallow := by
  rw [Value.Shallow, Value.each_dict]
  constructor
  · rintro ⟨e, hload, hsame⟩
    obtain rfl := Value.eq_stored_of_load hfits hlen hd.distinct hload
    refine ⟨Value.lists_le_of_load hfits hlen hload, fun entry hentry => ?_⟩
    obtain ⟨place, hsame⟩ := same_stored_of_sameAs hd.distinct hsame entry hentry
    obtain ⟨_, hfits', hlen'⟩ := Block.entry_fits hfits hlen hentry
    exact Value.shallow_of_same hfits' hlen' (hd.entry hentry) hsame
  · rintro ⟨hlists, hshallow⟩
    refine ⟨_, Block.load_encode_of_lists_le hfits hlen hd.distinct hlists 0, ?_⟩
    refine Dict.same_stored hd.distinct (fun entry hentry place => ?_) 0
    obtain ⟨_, hfits', hlen'⟩ := Block.entry_fits hfits hlen hentry
    exact Value.same_stored hfits' hlen' (hd.entry hentry).distinct (hshallow entry hentry) place

/-- It cannot be read at all just if too many of them stand around a value outside all nested blocks. -/
theorem decode_encode_tooDeep_iff (hfits : (Value.dict d).Fits) (hlen : d.encode.length < lengthLimit)
    (hd : d.Distinct) : (∃ offset, Dict.decode d.encode = .error (.tooDeep deepest offset)) ↔
      ∃ entry ∈ d.entries, deepest < entry.2.lists := by
  constructor
  · rintro ⟨offset, hload⟩
    by_contra hnone
    have hlists : ∀ entry ∈ d.entries, entry.2.lists ≤ deepest := fun entry hentry =>
      Nat.le_of_not_lt fun hlt => hnone ⟨entry, hentry, hlt⟩
    rw [Dict.decode, Block.load_encode_of_lists_le hfits hlen hd hlists 0] at hload
    cases hload
  · rintro ⟨entry, hentry, hlt⟩
    obtain ⟨_, ⟨offset, rfl⟩, hload⟩ :=
      Block.load_encode_of_lt_lists hfits hlen ⟨entry, hentry, Nat.not_le.mpr hlt⟩ 0
    exact ⟨offset, hload⟩

end Dict

end

end AssetPack
