import AssetPack.Proofs.Codec.Saved
import AssetPack.Proofs.Description.Compiled
import AssetPack.Proofs.Dict.Reordered
import AssetPack.Proofs.Tree.Alike
import AssetPack.Proofs.Value.Opened
import AssetPack.Proofs.Visit

/-!
# What a value shows

Saved and plain forms of a dictionary show the same. Values are compared by what they show.
-/
namespace AssetPack

/-!
## What a value shows

With every form in it opened, a value shows its atoms, lists and dictionaries at every depth, whatever form a dictionary
is kept in. A form that does not open shows nothing. If all forms in it open, then a dictionary that was saved shows the
same as before.
-/

mutual

/-- The value that a tree shows, without the forms it was found in. -/
def Tree.revealed : Tree → Value
  | .atom a => .atom a
  | .list items => .list (revealedItems items)
  | .dict _ d => .dict d.revealed
  | .blob p => .saved p
  | .broken _ => .null
termination_by structural t => t

def revealedItems : List Tree → List Value
  | [] => []
  | t :: ts => t.revealed :: revealedItems ts
termination_by structural ts => ts

def Dict.revealed : Dict Tree → Dict Value
  | ⟨entries⟩ => ⟨revealedEntries entries⟩
termination_by structural d => d

def revealedEntries : List (String × Tree) → List (String × Value)
  | [] => []
  | (name, t) :: rest => (name, t.revealed) :: revealedEntries rest
termination_by structural entries => entries

end

theorem revealedItems_eq (ts : List Tree) : revealedItems ts = ts.map Tree.revealed := by
  induction ts with
  | nil => rfl
  | cons t ts ih => rw [revealedItems, ih, List.map_cons]

theorem Dict.revealed_eq (d : Dict Tree) : d.revealed = d.map Tree.revealed := by
  obtain ⟨entries⟩ := d
  rw [Dict.revealed, Dict.map]
  refine congrArg Dict.mk ?_
  induction entries with
  | nil => rfl
  | cons entry rest ih => rw [revealedEntries, ih, List.map_cons]

namespace Value

/-- The value with everything in it opened. -/
def revealed (v : Value) : Value := v.tree.revealed

@[simp] theorem revealed_atom (a : Atom) : (atom a).revealed = .atom a := rfl

theorem revealed_list (items : List Value) : (list items).revealed = .list (items.map revealed) := by
  rw [revealed, tree_list, Tree.revealed, revealedItems_eq, List.map_map]
  rfl

theorem revealed_dict (d : Dict Value) : (dict d).revealed = .dict (d.map revealed) := by
  rw [revealed, tree_dict, Tree.revealed, Dict.revealed_eq, Dict.tree_eq, Dict.map, Dict.map, List.map_map]
  rfl

theorem revealed_of_load {b : Block} {d : Dict Value} (h : b.load = .ok d) :
    (block b).revealed = (dict d).revealed := by
  rw [revealed, tree_block, h]
  rfl

theorem revealed_of_loadDict {p : Payload} {d : Dict Value} (hp : p.content = .dict) (h : p.loadDict = .ok d) :
    (saved p).revealed = (dict d).revealed := by
  rw [revealed, tree_saved, if_pos hp, h]
  rfl

theorem revealed_blob {p : Payload} (hp : p.content ≠ .dict) : (saved p).revealed = .saved p := by
  rw [revealed, tree_saved, if_neg hp]
  rfl

/-! ### Values that open -/

/-- If the value is a form of a dictionary, then it opens. -/
def OpensHere (v : Value) : Prop := v.form?.isSome = true → v.opened?.isSome = true

/-- Every form within the value opens. -/
def Opens (v : Value) : Prop := v.Throughout OpensHere

theorem opens_atom (a : Atom) : (atom a).Opens := throughout_atom.mpr (by rintro ⟨⟩)

theorem opens_list {items : List Value} : (list items).Opens ↔ ∀ v ∈ items, v.Opens :=
  throughout_list.trans (and_iff_right (by rintro ⟨⟩))

theorem opens_dict {d : Dict Value} : (dict d).Opens ↔ ∀ entry ∈ d.entries, entry.2.Opens :=
  throughout_dict.trans (and_iff_right (by rintro ⟨⟩))

theorem Opens.exists_load {b : Block} (h : (block b).Opens) : ∃ d, b.load = .ok d ∧ (dict d).Opens := by
  obtain ⟨hhere, hinside⟩ := throughout_block.mp h
  obtain ⟨d, hd⟩ := Option.isSome_iff_exists.mp (hhere rfl)
  have hload := opened?_block_iff.mp hd
  exact ⟨d, hload, hinside d hload⟩

theorem Opens.exists_loadDict {p : Payload} (hp : p.content = .dict) (h : (saved p).Opens) :
    ∃ d, p.loadDict = .ok d ∧ (dict d).Opens := by
  obtain ⟨hhere, hinside⟩ := throughout_saved.mp h
  obtain ⟨d, hd⟩ := Option.isSome_iff_exists.mp (hhere (by rw [form?, if_pos hp]; rfl))
  have hload := (opened?_saved_iff.mp hd).2
  exact ⟨d, hload, hinside hp d hload⟩

theorem opens_of_load {b : Block} {d : Dict Value} (hload : b.load = .ok d) (h : (dict d).Opens) : (block b).Opens := by
  refine throughout_block.mpr ⟨fun _ => Option.isSome_of_eq_some (opened?_of_load hload), fun e he => ?_⟩
  obtain rfl : d = e := Except.ok.inj (hload.symm.trans he)
  exact h

/-! ### Values without forms -/

/-- Every dictionary within the value is open, and it has no closed forms. -/
def Plain (v : Value) : Prop := v.Throughout fun u => u.form? = none

theorem Plain.opens {v : Value} (h : v.Plain) : v.Opens := by
  intro u hu hform
  rw [h u hu] at hform
  cases hform

theorem Plain.revealed_eq {v : Value} (h : v.Plain) : v.revealed = v := by
  induction v using induction_opened with
  | atom a => rfl
  | list items ih =>
    obtain ⟨-, hitems⟩ := throughout_list.mp h
    rw [revealed_list]
    exact congrArg list ((List.map_congr_left fun v hv => ih v hv (hitems v hv)).trans (List.map_id items))
  | dict d ih =>
    obtain ⟨-, hentries⟩ := throughout_dict.mp h
    have hmap : d.entries.map (fun entry => (entry.1, entry.2.revealed)) = d.entries := by
      conv_rhs => rw [← List.map_id d.entries]
      refine List.map_congr_left fun entry hentry => ?_
      rw [ih entry hentry (hentries entry hentry)]
      rfl
    rw [revealed_dict, Dict.map, hmap]
  | block b ih => cases h.here
  | saved p ih =>
    have hform := h.here
    rw [form?] at hform
    split at hform
    · cases hform
    · rename_i hp
      exact revealed_blob hp

/-- Without payloads in the vocabulary, nothing in a value is closed. -/
theorem Of.plain {V : Vocabulary} {v : Value} (h : v.Of V) (hpayload : ∀ p, ¬V.payload p) : v.Plain := by
  induction v with
  | atom a => exact throughout_atom.mpr rfl
  | list items ih => exact throughout_list.mpr ⟨rfl, fun v hv => ih v hv (of_list.mp h v hv)⟩
  | dict d ih => exact throughout_dict.mpr ⟨rfl, fun entry hentry => ih entry hentry (Dict.Of.entry h hentry)⟩
  | block b => exact (not_of_block h).elim
  | saved p => exact (hpayload p (of_saved.mp h)).elim

end Value

/-! ### What was saved -/

theorem Dict.related_stored (d : Dict Value) (place : Nat) :
    d.Related (fun v w => ∃ place, w = v.stored place) (d.stored place) := by
  have hplaced (entries : List (String × Value)) (place : Nat) :
      List.Forall₂ (fun a b => a.1 = b.1 ∧ ∃ place, b.2 = a.2.stored place) entries
        (Reader.placed encodeEntry storedEntry place entries) := by
    induction entries generalizing place with
    | nil => exact .nil
    | cons entry rest ih => exact .cons ⟨rfl, _, rfl⟩ (ih _)
  exact hplaced d.entries _

/-- A dictionary that was saved and is read back is stored, and it fits. -/
theorem Payload.eq_stored_of_loadDict {d e : Dict Value} (hd : d.Distinct)
    (h : (Payload.ofBytes .dict d.encode true).loadDict = .ok e) :
    e = d.stored 0 ∧ (Value.dict d).Fits ∧ d.encode.length < lengthLimit := by
  obtain ⟨hshort, hdecode⟩ := Payload.of_loadDict_ofBytes h
  rw [largestUnpacked] at hshort
  have hlen : (Value.dict d).encode.length < countLimit := by
    rw [length_encode_dict, countLimit]
    omega
  have hfits := Value.fits_of_length_encode hlen
  have hlimit := Value.length_encode_lt_lengthLimit hlen
  exact ⟨Value.eq_stored_of_load hfits hlimit hd hdecode, hfits, hlimit⟩

/-- A stored value that opens shows what the value shows, which opens as well. -/
def Value.ShowsStored (v : Value) : Prop :=
  ∀ place, (v.stored place).Opens → v.Opens ∧ (v.stored place).revealed = v.revealed

theorem Dict.showsStored_of_entries {d : Dict Value} (hentries : ∀ entry ∈ d.entries, entry.2.ShowsStored) {place : Nat}
    (h : (Value.dict (d.stored place)).Opens) :
    (Value.dict d).Opens ∧ (Value.dict (d.stored place)).revealed = (Value.dict d).revealed := by
  have hrelated := d.related_stored place
  rw [Value.opens_dict] at h ⊢
  rw [Value.revealed_dict, Value.revealed_dict, Dict.map, Dict.map]
  rw [Dict.Related] at hrelated
  generalize (d.stored place).entries = stored at hrelated h
  obtain ⟨entries⟩ := d
  dsimp only at hentries hrelated ⊢
  induction hrelated with
  | nil => exact ⟨fun _ hentry => absurd hentry List.not_mem_nil, rfl⟩
  | @cons a b rest rest' hab _ ih =>
    obtain ⟨hfirst, hrest⟩ := List.forall_mem_cons.mp hentries
    obtain ⟨hopen, hopens⟩ := List.forall_mem_cons.mp h
    obtain ⟨hname, place, hstored⟩ := hab
    rw [hstored] at hopen
    obtain ⟨ha, hsame⟩ := hfirst place hopen
    obtain ⟨hall, hmap⟩ := ih hopens hrest
    refine ⟨List.forall_mem_cons.mpr ⟨ha, hall⟩, ?_⟩
    rw [List.map_cons, List.map_cons, ← hname, hstored, hsame]
    exact congrArg (fun es => Value.dict ⟨(a.1, a.2.revealed) :: es⟩) (congrArg Dict.entries (Value.dict.inj hmap))

theorem Dict.opens_stored {d : Dict Value} (h : ∀ entry ∈ d.entries, ∀ place, (entry.2.stored place).Opens)
    (place : Nat) : (Value.dict (d.stored place)).Opens := by
  refine Value.opens_dict.mpr fun entry hentry => ?_
  obtain ⟨e, he, place', hstored⟩ := Value.exists_of_mem_stored hentry
  rw [hstored]
  exact h e he place'

namespace Value

theorem showsStored_of_items {items : List Value} (hitems : ∀ v ∈ items, v.ShowsStored) :
    (list items).ShowsStored := by
  have hstored (place : Nat) (h : ∀ v ∈ storedItems place items, v.Opens) :
      (∀ v ∈ items, v.Opens) ∧ (storedItems place items).map revealed = items.map revealed := by
    induction items generalizing place with
    | nil => exact ⟨nofun, rfl⟩
    | cons v rest ih =>
      obtain ⟨hfirst, hrest⟩ := List.forall_mem_cons.mp hitems
      obtain ⟨hopen, hopens⟩ := List.forall_mem_cons.mp h
      obtain ⟨hv, hsame⟩ := hfirst place hopen
      obtain ⟨hall, hmap⟩ := ih hrest _ hopens
      refine ⟨List.forall_mem_cons.mpr ⟨hv, hall⟩, ?_⟩
      rw [storedItems, List.map_cons, List.map_cons, hsame, hmap]
  intro place h
  rw [stored, opens_list] at h
  obtain ⟨hall, hmap⟩ := hstored _ h
  rw [stored, opens_list, revealed_list, revealed_list, hmap]
  exact ⟨hall, rfl⟩

theorem showsStored {v : Value} (hof : v.Of .open) (hfits : v.Fits) (hlen : v.encode.length < lengthLimit) :
    v.ShowsStored := by
  induction v with
  | atom a => exact fun _ _ => ⟨opens_atom a, rfl⟩
  | list items ih =>
    rw [length_encode_list] at hlen
    refine showsStored_of_items fun v hv => ih v hv (of_list.mp hof v hv) (((each_list items).mp hfits).2 v hv) ?_
    have := length_encode_le_of_mem hv
    omega
  | dict d ih =>
    rw [length_encode_dict] at hlen
    have hshort : d.encode.length < lengthLimit := by omega
    intro place h
    obtain ⟨e, hload, hopens⟩ := h.exists_load
    obtain rfl := eq_stored_of_load hfits hshort (Dict.Of.distinct hof) hload
    rw [stored, revealed_of_load hload]
    refine Dict.showsStored_of_entries (fun entry hentry => ?_) hopens
    obtain ⟨_, hfits', hlen'⟩ := Block.entry_fits hfits hshort hentry
    exact ih entry hentry (Dict.Of.entry hof hentry) hfits' hlen'
  | block b => exact (not_of_block hof).elim
  | saved p => exact fun _ h => ⟨h, rfl⟩

/-- What opens does so when it has been written and read back, unless there are too many lists in a block. -/
theorem Opens.stored {V : Vocabulary} {v : Value} (h : v.Opens) (hof : v.Of V) (hfits : v.Fits)
    (hlen : v.encode.length < lengthLimit) (hshallow : v.Shallow) (place : Nat) : (v.stored place).Opens := by
  induction v generalizing place with
  | atom a => exact h
  | list items ih =>
    rw [length_encode_list] at hlen
    rw [Value.stored, opens_list]
    intro w hw
    obtain ⟨v, hv, place', rfl⟩ := exists_of_mem_storedItems hw
    have hle := length_encode_le_of_mem hv
    exact ih v hv (opens_list.mp h v hv) (of_list.mp hof v hv) (((each_list items).mp hfits).2 v hv) (by omega)
      (((each_list items).mp hshallow).2 v hv) place'
  | dict d ih =>
    rw [length_encode_dict] at hlen
    have hshort : d.encode.length < lengthLimit := by omega
    have hdistinct := Dict.Of.distinct hof
    have hload := Block.load_encode_of_lists_le hfits hshort hdistinct hshallow.here (place + 9)
    refine opens_of_load hload (Dict.opens_stored (fun entry hentry place => ?_) _)
    obtain ⟨_, hvalue, hlen⟩ := Block.entry_fits hfits hshort hentry
    exact ih entry hentry (opens_dict.mp h entry hentry) (Dict.Of.entry hof hentry) hvalue hlen
      (((each_dict d).mp hshallow).2 entry hentry) place
  | block b => exact (not_of_block hof).elim
  | saved p => exact h

/-- A dictionary that was saved shows what it shows if it opens again, and it opens as well. -/
theorem Opens.of_saved {d : Dict Value} (hof : d.Of .open) (h : (saved (.ofBytes .dict d.encode true)).Opens) :
    (dict d).Opens ∧ (saved (.ofBytes .dict d.encode true)).revealed = (dict d).revealed := by
  obtain ⟨e, hload, hopens⟩ := h.exists_loadDict rfl
  obtain ⟨rfl, hfits, hlimit⟩ := Payload.eq_stored_of_loadDict hof.distinct hload
  rw [revealed_of_loadDict rfl hload]
  refine Dict.showsStored_of_entries (fun entry hentry => ?_) hopens
  obtain ⟨_, hfits', hlen'⟩ := Block.entry_fits hfits hlimit hentry
  exact showsStored (hof.entry hentry) hfits' hlen'

end Value

/-!
## Values that show the same

Open values match if they show the same as far as they open, and one is an atom just if the other is the same atom. A
dictionary may be saved on either side; what is put together of what matches matches.
-/

namespace Value

/-- Nothing but an atom shows a text or a truth value. -/
theorem shows_none_of_not_atom {v : Value} (h : ∀ a, v ≠ .atom a) :
    v.string? = none ∧ v.as? .string = none ∧ v.as? .bool = none := by
  cases v with
  | atom a => exact absurd rfl (h a)
  | _ => exact ⟨rfl, rfl, rfl⟩

/-- The two are open. They show the same if all in them opens, and are the same atom or neither is one. -/
structure Matches (v w : Value) : Prop where
  left : v.Of .open
  right : w.Of .open
  atom : ∀ a, v = .atom a ↔ w = .atom a
  revealed : v.Opens → w.Opens → v.revealed = w.revealed

namespace Matches
variable {v w : Value} {d e : Dict Value}

theorem refl (h : v.Of .open) : v.Matches v := ⟨h, h, fun _ => Iff.rfl, fun _ _ => rfl⟩

theorem symm (h : v.Matches w) : w.Matches v :=
  ⟨h.right, h.left, fun a => (h.atom a).symm, fun hw hv => (h.revealed hv hw).symm⟩

theorem list {vs ws : List Value} (h : List.Forall₂ Matches vs ws) : (list vs).Matches (.list ws) := by
  refine ⟨of_list.mpr fun v hv => ?_, of_list.mpr fun w hw => ?_, fun a => iff_of_false nofun nofun, fun hvs hws => ?_⟩
  · obtain ⟨w, _, hvw⟩ := exists_of_forall₂ (List.Forall₂.flip h) hv
    exact hvw.left
  · obtain ⟨v, _, hvw⟩ := exists_of_forall₂ h hw
    exact hvw.right
  · rw [opens_list] at hvs hws
    rw [revealed_list, revealed_list]
    refine congrArg Value.list ?_
    induction h with
    | nil => rfl
    | cons hvw _ ih =>
      obtain ⟨hv, hvs⟩ := List.forall_mem_cons.mp hvs
      obtain ⟨hw, hws⟩ := List.forall_mem_cons.mp hws
      rw [List.map_cons, List.map_cons, hvw.revealed hv hw, ih hvs hws]

theorem dict (hd : d.Distinct) (h : d.Related Matches e) : (dict d).Matches (.dict e) := by
  have hnames := h.names
  refine ⟨Dict.of_intro hd fun entry hentry => ⟨trivial, ?_⟩,
    Dict.of_intro (by rwa [Dict.Distinct, ← hnames]) fun entry hentry => ⟨trivial, ?_⟩,
    fun a => iff_of_false nofun nofun, fun hopens hopens' => ?_⟩
  · obtain ⟨w, hvw⟩ := h.exists_of_mem hentry
    exact hvw.left
  · obtain ⟨v, hvw⟩ := h.flip.exists_of_mem hentry
    exact hvw.right
  · rw [opens_dict] at hopens hopens'
    rw [revealed_dict, revealed_dict, Dict.map, Dict.map]
    refine congrArg (fun es => Value.dict ⟨es⟩) ?_
    rw [Dict.Related] at h
    clear hd hnames
    generalize d.entries = es at h hopens ⊢
    generalize e.entries = es' at h hopens' ⊢
    induction h with
    | nil => rfl
    | cons hvw _ ih =>
      obtain ⟨hv, hvs⟩ := List.forall_mem_cons.mp hopens
      obtain ⟨hw, hws⟩ := List.forall_mem_cons.mp hopens'
      rw [List.map_cons, List.map_cons, hvw.1, hvw.2.revealed hv hw, ih hvs hws]

theorem saved_left (h : (Value.dict d).Matches w) : (saved (.ofBytes .dict d.encode true)).Matches w := by
  refine ⟨of_saved.mpr trivial, h.right, fun a => iff_of_false nofun fun hw => ?_, fun hopens hw => ?_⟩
  · exact absurd ((h.atom a).mpr hw) nofun
  · obtain ⟨hd, hsame⟩ := hopens.of_saved h.left
    rw [hsame, h.revealed hd hw]

theorem saved_right (h : v.Matches (.dict e)) : v.Matches (.saved (.ofBytes .dict e.encode true)) :=
  h.symm.saved_left.symm

/-- As texts and truth values the two are the same. -/
theorem shows (h : v.Matches w) :
    v.string? = w.string? ∧ v.as? .string = w.as? .string ∧ v.as? .bool = w.as? .bool := by
  by_cases hv : ∃ a, v = .atom a
  · obtain ⟨a, rfl⟩ := hv
    rw [(h.atom a).mp rfl]
    exact ⟨rfl, rfl, rfl⟩
  · obtain ⟨hstring, htext, hbool⟩ := shows_none_of_not_atom (not_exists.mp hv)
    obtain ⟨hstring', htext', hbool'⟩ := shows_none_of_not_atom fun a hw => hv ⟨a, (h.atom a).mpr hw⟩
    rw [hstring, hstring', htext, htext', hbool, hbool']
    exact ⟨rfl, rfl, rfl⟩

end Matches
end Value

end AssetPack
