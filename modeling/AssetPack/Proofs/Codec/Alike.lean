import AssetPack.Proofs.Codec.Canonical
import AssetPack.Proofs.Value.Opened
import AssetPack.Proofs.Dict.Reordered

/-!
# Values that are read back alike

Two values are alike if they are read back the same once they are written at one place: they differ only in the forms
of their dictionaries and in where their blocks stand. A value is readable if each open dictionary in it can be read
back, as every dictionary is that was read itself. Twins are readable values that are alike; whatever they are opened
to is alike again.
-/
namespace AssetPack

/-! ## Reading back twice -/

theorem storedItems_storedItems {items : List Value}
    (h : ∀ v ∈ items, ∀ place place', (v.stored place).stored place' = v.stored place') (place place' : Nat) :
    storedItems place' (storedItems place items) = storedItems place' items := by
  induction items generalizing place place' with
  | nil => rfl
  | cons v vs ih =>
    obtain ⟨hv, hvs⟩ := List.forall_mem_cons.mp h
    rw [storedItems, storedItems, storedItems, hv, Value.encode_stored, ih hvs]

theorem Value.stored_stored (v : Value) (place place' : Nat) : (v.stored place).stored place' = v.stored place' := by
  induction v generalizing place place' with
  | list items ih => rw [stored, stored, stored, storedItems_storedItems ih]
  | _ => rfl

theorem placed_storedEntry_placed (entries : List (String × Value)) (place place' : Nat) :
    Reader.placed encodeEntry storedEntry place' (Reader.placed encodeEntry storedEntry place entries) =
      Reader.placed encodeEntry storedEntry place' entries := by
  induction entries generalizing place place' with
  | nil => rfl
  | cons entry rest ih =>
    have hentry : encodeEntry (storedEntry place entry) = encodeEntry entry := by
      rw [encodeEntry, storedEntry, Value.encode_stored, encodeEntry]
    have hstored : storedEntry place' (storedEntry place entry) = storedEntry place' entry := by
      rw [storedEntry, storedEntry, Value.stored_stored, storedEntry]
    rw [Reader.placed, Reader.placed, Reader.placed, hentry, hstored, ih]

theorem Dict.stored_stored (d : Dict Value) (place place' : Nat) : (d.stored place).stored place' = d.stored place' :=
  congrArg Dict.mk (placed_storedEntry_placed d.entries _ _)

theorem encodeItems_moved {items : List Value} {distance : Nat}
    (h : ∀ v ∈ items, (v.moved distance).encode = v.encode) :
    encodeItems (movedItems distance items) = encodeItems items := by
  induction items with
  | nil => rfl
  | cons v vs ih =>
    obtain ⟨hv, hvs⟩ := List.forall_mem_cons.mp h
    rw [movedItems, encodeItems, encodeItems, hv, ih hvs]

theorem encodeEntries_moved {entries : List (String × Value)} {distance : Nat}
    (h : ∀ entry ∈ entries, (entry.2.moved distance).encode = entry.2.encode) :
    encodeEntries (movedEntries distance entries) = encodeEntries entries := by
  induction entries with
  | nil => rfl
  | cons entry rest ih =>
    obtain ⟨hv, hrest⟩ := List.forall_mem_cons.mp h
    rw [movedEntries, encodeEntries, encodeEntries, hv, ih hrest]

theorem length_movedEntries (distance : Nat) (entries : List (String × Value)) :
    (movedEntries distance entries).length = entries.length := by
  induction entries with
  | nil => rfl
  | cons entry rest ih => rw [movedEntries, List.length_cons, ih, List.length_cons]

theorem Dict.encode_moved_of {d : Dict Value} {distance : Nat}
    (h : ∀ entry ∈ d.entries, (entry.2.moved distance).encode = entry.2.encode) :
    (d.moved distance).encode = d.encode := by
  obtain ⟨entries⟩ := d
  rw [Dict.moved, Dict.encode, Dict.encode, encodeEntries_moved h, length_movedEntries]

/-- Where blocks stand is not written. -/
theorem Value.encode_moved (v : Value) (distance : Nat) : (v.moved distance).encode = v.encode := by
  induction v with
  | list items ih =>
    rw [moved, encode, encode, encodeItems_moved ih, movedItems_eq, List.length_map]
  | dict d ih => rw [moved, encode, encode, Dict.encode_moved_of ih]
  | _ => rfl

theorem Dict.encode_moved (d : Dict Value) (distance : Nat) : (d.moved distance).encode = d.encode :=
  encode_moved_of fun entry _ => entry.2.encode_moved distance

theorem storedItems_moved {items : List Value} {distance : Nat}
    (h : ∀ v ∈ items, ∀ place, (v.moved distance).stored place = v.stored place) (place : Nat) :
    storedItems place (movedItems distance items) = storedItems place items := by
  induction items generalizing place with
  | nil => rfl
  | cons v vs ih =>
    obtain ⟨hv, hvs⟩ := List.forall_mem_cons.mp h
    rw [movedItems, storedItems, storedItems, hv, Value.encode_moved, ih hvs]

theorem Value.stored_moved (v : Value) (distance place : Nat) : (v.moved distance).stored place = v.stored place := by
  induction v generalizing place with
  | list items ih => rw [moved, stored, stored, storedItems_moved ih]
  | dict d => rw [moved, stored, stored, Dict.encode_moved]
  | _ => rfl

theorem Dict.stored_moved (d : Dict Value) (distance place : Nat) :
    (d.moved distance).stored place = d.stored place := by
  have h (entries : List (String × Value)) (place : Nat) :
      Reader.placed encodeEntry storedEntry place (movedEntries distance entries) =
        Reader.placed encodeEntry storedEntry place entries := by
    induction entries generalizing place with
    | nil => rfl
    | cons entry rest ih =>
      rw [movedEntries, Reader.placed, Reader.placed, ih, storedEntry, storedEntry, Value.stored_moved, encodeEntry,
        encodeEntry, Value.encode_moved]
  obtain ⟨entries⟩ := d
  exact congrArg Dict.mk (h entries _)

/-! ## Alike -/

/-- The values are read back the same. -/
def Value.Alike (v w : Value) : Prop := v.stored 0 = w.stored 0

/-- The dictionaries are read back the same. -/
def Dict.Alike (d e : Dict Value) : Prop := d.stored 0 = e.stored 0

namespace Value.Alike
variable {v w : Value}

theorem stored (h : v.Alike w) (place : Nat) : v.stored place = w.stored place := by
  rw [← v.stored_stored 0 place, h, w.stored_stored]

theorem encode (h : v.Alike w) : v.encode = w.encode := by rw [← v.encode_stored 0, h, w.encode_stored]

theorem kind (h : v.Alike w) : v.kind = w.kind := by rw [← v.kind_stored 0, h, w.kind_stored]

end Value.Alike

theorem Value.alike_stored (v : Value) (place : Nat) : v.Alike (v.stored place) := (v.stored_stored place 0).symm

theorem Dict.alike_stored (d : Dict Value) (place : Nat) : d.Alike (d.stored place) := (d.stored_stored place 0).symm

theorem Dict.alike_moved (d : Dict Value) (distance : Nat) : d.Alike (d.moved distance) :=
  (d.stored_moved distance 0).symm

theorem Dict.Alike.encode {d e : Dict Value} (h : d.Alike e) : d.encode = e.encode := by
  rw [← d.encode_stored 0, h, e.encode_stored]

theorem Dict.Alike.names {d e : Dict Value} (h : d.Alike e) : d.names = e.names := by
  rw [← d.names_stored 0, h, e.names_stored]

theorem alike_storedItems {items items' : List Value} {place : Nat} :
    storedItems place items = storedItems place items' ↔ List.Forall₂ Value.Alike items items' := by
  induction items generalizing items' place with
  | nil => cases items' <;> simp [storedItems]
  | cons v vs ih =>
    cases items' with
    | nil => simp [storedItems]
    | cons w ws =>
      rw [storedItems, storedItems, List.cons.injEq, List.forall₂_cons]
      constructor
      · rintro ⟨hhead, hrest⟩
        have hv : v.Alike w := by rw [Value.Alike, ← v.stored_stored place 0, hhead, w.stored_stored]
        rw [hv.encode] at hrest
        exact ⟨hv, ih.mp hrest⟩
      · rintro ⟨hv, hrest⟩
        rw [hv.encode]
        exact ⟨hv.stored place, ih.mpr hrest⟩

theorem alike_placed {entries entries' : List (String × Value)} {place : Nat} :
    Reader.placed encodeEntry storedEntry place entries = Reader.placed encodeEntry storedEntry place entries' ↔
      List.Forall₂ (fun a b => a.1 = b.1 ∧ a.2.Alike b.2) entries entries' := by
  induction entries generalizing entries' place with
  | nil => cases entries' <;> simp [Reader.placed]
  | cons a rest ih =>
    cases entries' with
    | nil => simp [Reader.placed]
    | cons b rest' =>
      obtain ⟨name, v⟩ := a
      obtain ⟨name', w⟩ := b
      rw [Reader.placed, Reader.placed, List.cons.injEq, List.forall₂_cons, storedEntry, storedEntry, Prod.mk.injEq]
      constructor
      · rintro ⟨⟨hname, hhead⟩, hrest⟩
        dsimp only at hname hhead
        subst hname
        have hv : v.Alike w := by rw [Value.Alike, ← v.stored_stored _ 0, hhead, w.stored_stored]
        rw [encodeEntry, encodeEntry, hv.encode] at hrest
        exact ⟨⟨rfl, hv⟩, ih.mp hrest⟩
      · rintro ⟨⟨hname, hv⟩, hrest⟩
        dsimp only at hname hv
        subst hname
        rw [encodeEntry, encodeEntry, hv.encode]
        exact ⟨⟨rfl, hv.stored _⟩, ih.mpr hrest⟩

/-- Dictionaries are alike entry by entry. -/
theorem Dict.alike_iff {d e : Dict Value} :
    d.Alike e ↔ d.Related Value.Alike e := by
  rw [Alike, Dict.stored, Dict.stored, Dict.mk.injEq, alike_placed, Related]

/-- The block of a dictionary value. -/
def Value.block? : Value → Option Bytes
  | .dict d => some d.encode
  | .block b => some b.bytes
  | _ => none

/-- Alike are equal atoms and payloads, lists item by item, and dictionaries of one block. -/
theorem Value.Alike.cases {v w : Value} (h : v.Alike w) :
    (∃ a, v = .atom a ∧ w = .atom a) ∨ (∃ p, v = .saved p ∧ w = .saved p) ∨
      (∃ items items', v = .list items ∧ w = .list items' ∧ List.Forall₂ Value.Alike items items') ∨
      ∃ bs, v.block? = some bs ∧ w.block? = some bs := by
  rw [Value.Alike] at h
  have hblock {place : Nat} {bs : Bytes} (hw : Value.block ⟨place, bs⟩ = w.stored 0) : w.block? = some bs := by
    cases w <;> cases hw <;> rfl
  cases v with
  | atom a =>
    cases w <;> cases h
    exact .inl ⟨a, rfl, rfl⟩
  | saved p =>
    cases w <;> cases h
    exact .inr (.inl ⟨p, rfl, rfl⟩)
  | list items =>
    cases w with
    | list items' =>
      rw [Value.stored, Value.stored, Value.list.injEq, alike_storedItems] at h
      exact .inr (.inr (.inl ⟨items, items', rfl, rfl, h⟩))
    | _ => cases h
  | dict d => exact .inr (.inr (.inr ⟨d.encode, rfl, hblock h⟩))
  | block b => exact .inr (.inr (.inr ⟨b.bytes, rfl, hblock h⟩))

theorem Value.Alike.block? {v w : Value} (h : v.Alike w) : v.block? = w.block? := by
  rcases h.cases with ⟨a, rfl, rfl⟩ | ⟨p, rfl, rfl⟩ | ⟨items, items', rfl, rfl, -⟩ | ⟨bs, hv, hw⟩
  · rfl
  · rfl
  · rfl
  · exact hv.trans hw.symm

/-! ## Readable -/

/-- The dictionary is read back. -/
def Dict.ReadsBack (d : Dict Value) : Prop := Dict.decode d.encode = .ok (d.stored 0)

/-- Each open dictionary in the value is read back. -/
def Value.Readable (v : Value) : Prop := v.Each (OfDict Dict.ReadsBack)

theorem Dict.ReadsBack.distinct {d : Dict Value} (h : d.ReadsBack) : d.Distinct := by
  rw [Dict.Distinct, ← d.names_stored 0]
  exact (Block.distinct_of_load h).here

/-- A block opens to what stands in its bytes, further on. -/
theorem Block.load_eq (b : Block) : b.load = match Dict.decode b.bytes with
    | .ok d => .ok (d.moved b.offset)
    | .error f => .error (f.shift b.offset) := by
  have hmoved := Block.load_moved 0 b.offset b.bytes
  rw [Nat.zero_add] at hmoved
  exact hmoved

/-- What was read is readable. -/
theorem Block.readable_of_load {b : Block} {d : Dict Value} (h : b.load = .ok d) : (Value.dict d).Readable := by
  obtain ⟨_, _, _, hforms⟩ := Block.forms_of_load h
  refine (Value.each_dict d).mpr ⟨?_, fun entry hentry => (hforms entry hentry).mono fun u hu => ?_⟩
  · rw [Block.load_eq] at h
    cases hx : Dict.decode b.bytes with
    | ok x =>
      rw [hx] at h
      cases h
      change Dict.decode (x.moved b.offset).encode = .ok ((x.moved b.offset).stored 0)
      rw [Dict.encode_moved, Dict.stored_moved]
      exact (Dict.decode_encode_of_decode hx).1
    | error f =>
      rw [hx] at h
      cases h
  · cases u with
    | dict e => exact hu.elim
    | _ => trivial

theorem Payload.readable_of_loadDict {p : Payload} {d : Dict Value} (h : p.loadDict = .ok d) :
    (Value.dict d).Readable := by
  unfold Payload.loadDict at h
  split at h
  · exact Block.readable_of_load h
  · cases h

/-- A value that fits the format is readable if at most `deepest` lists stand around any value in a block of it. -/
theorem Value.readable_of_shallow {v : Value} (hfits : v.Fits) (hlen : v.encode.length < lengthLimit)
    (hdistinct : v.Distinct) (hshallow : v.Shallow) : v.Readable := by
  induction v with
  | atom a => exact (each_atom a).mpr trivial
  | list items ih =>
    rw [length_encode_list] at hlen
    refine (each_list items).mpr ⟨trivial, fun v hv => ?_⟩
    have hle := length_encode_le_of_mem hv
    exact ih v hv (((each_list items).mp hfits).2 v hv) (by omega)
      (((each_list items).mp hdistinct).2 v hv) (((each_list items).mp hshallow).2 v hv)
  | dict d ih =>
    rw [length_encode_dict] at hlen
    have hshort : d.encode.length < lengthLimit := by omega
    refine (each_dict d).mpr ⟨Block.load_encode_of_lists_le hfits hshort hdistinct.here hshallow.here 0, ?_⟩
    intro entry hentry
    obtain ⟨_, hvalue, hlen⟩ := Block.entry_fits hfits hshort hentry
    exact ih entry hentry hvalue hlen (((each_dict d).mp hdistinct).2 entry hentry)
      (((each_dict d).mp hshallow).2 entry hentry)
  | block b => exact (each_block b).mpr trivial
  | saved p => exact (each_saved p).mpr trivial

theorem Dict.readable_of_shallow {d : Dict Value} (hfits : (Value.dict d).Fits) (hlen : d.encode.length < lengthLimit)
    (hdistinct : (Value.dict d).Distinct) (hshallow : (Value.dict d).Shallow) : (Value.dict d).Readable := by
  refine (Value.each_dict d).mpr ⟨Block.load_encode_of_lists_le hfits hlen hdistinct.here hshallow.here 0, ?_⟩
  intro entry hentry
  obtain ⟨_, hvalue, hshort⟩ := Block.entry_fits hfits hlen hentry
  exact Value.readable_of_shallow hvalue hshort (((Value.each_dict d).mp hdistinct).2 entry hentry)
    (((Value.each_dict d).mp hshallow).2 entry hentry)

/-! ## Twins -/

/-- Readable values that are alike. -/
structure Value.Twins (v w : Value) : Prop where
  alike : v.Alike w
  left : v.Readable
  right : w.Readable

/-- Readable dictionaries that are alike. -/
structure Dict.Twins (d e : Dict Value) : Prop where
  alike : d.Alike e
  left : (Value.dict d).Readable
  right : (Value.dict e).Readable

/-- The dictionary of a readable value is alike to what stands in its block. -/
theorem Value.Readable.dict? {v : Value} (h : v.Readable) {bs : Bytes} (hbs : v.block? = some bs) :
    match Dict.decode bs with
    | .ok x => ∃ d, v.dict? = some d ∧ x.Alike d ∧ (Value.dict d).Readable
    | .error _ => v.dict? = none := by
  cases v with
  | dict d =>
    cases hbs
    have hback : Dict.decode d.encode = .ok (d.stored 0) := h.here
    rw [hback]
    exact ⟨d, rfl, d.stored_stored 0 0, h⟩
  | block b =>
    cases hbs
    have hload := b.load_eq
    cases hx : Dict.decode b.bytes with
    | ok x =>
      rw [hx] at hload
      exact ⟨x.moved b.offset, Value.dict?_block_iff.mpr hload, x.alike_moved b.offset, Block.readable_of_load hload⟩
    | error f =>
      rw [hx] at hload
      exact Value.dict?_of_closed hload
  | _ => cases hbs

namespace Dict.Twins
variable {d e : Dict Value}

theorem refl (h : (Value.dict d).Readable) : d.Twins d := ⟨rfl, h, h⟩

theorem related (h : d.Twins e) : d.Related Value.Twins e := by
  have hentries := forall₂_and (Dict.alike_iff.mp h.alike) ((Value.each_dict d).mp h.left).2
    ((Value.each_dict e).mp h.right).2
  exact hentries.imp fun a b ⟨⟨hname, halike⟩, hleft, hright⟩ => ⟨hname, halike, hleft, hright⟩

theorem get? (h : d.Twins e) (name : String) : Option.Rel Value.Twins (d.get? name) (e.get? name) :=
  h.related.get? name

theorem names (h : d.Twins e) : d.names = e.names := h.alike.names

theorem encode (h : d.Twins e) : d.encode = e.encode := h.alike.encode

/-- As values they are twins as well. -/
theorem dict (h : d.Twins e) : (Value.dict d).Twins (.dict e) :=
  ⟨by rw [Value.Alike, Value.stored, Value.stored, h.encode], h.left, h.right⟩

end Dict.Twins

namespace Value.Twins
variable {v w : Value}

theorem refl (h : v.Readable) : v.Twins v := ⟨rfl, h, h⟩

/-- The dictionaries of twins are twins, or neither has one. -/
theorem dict? (h : v.Twins w) : Option.Rel Dict.Twins v.dict? w.dict? := by
  rcases h.alike.cases with ⟨a, rfl, rfl⟩ | ⟨p, rfl, rfl⟩ | ⟨items, items', rfl, rfl, -⟩ | ⟨bs, hv, hw⟩
  · exact .none
  · exact .none
  · exact .none
  · have hleft := h.left.dict? hv
    have hright := h.right.dict? hw
    cases hx : Dict.decode bs with
    | ok x =>
      rw [hx] at hleft hright
      obtain ⟨d, hd, hxd, hdr⟩ := hleft
      obtain ⟨e, he, hxe, her⟩ := hright
      rw [hd, he]
      exact .some ⟨hxd.symm.trans hxe, hdr, her⟩
    | error f =>
      rw [hx] at hleft hright
      dsimp only at hleft hright
      rw [hleft, hright]
      exact .none

theorem dict?_of_left (h : v.Twins w) {d : Dict Value} (hd : v.dict? = some d) :
    ∃ e, w.dict? = some e ∧ d.Twins e := by
  have hrel := h.dict?
  rw [hd] at hrel
  generalize he : w.dict? = e at hrel
  cases hrel with
  | some htwins => exact ⟨_, rfl, htwins⟩

theorem items {items items' : List Value} (h : (list items).Twins (list items'))
    (halike : List.Forall₂ Alike items items') : List.Forall₂ Value.Twins items items' :=
  (forall₂_and halike ((each_list items).mp h.left).2 ((each_list items').mp h.right).2).imp
    fun _ _ ⟨halike, hleft, hright⟩ => ⟨halike, hleft, hright⟩

/-- Induction over two values that are alike. Their dictionaries are compared once they are open, and then in the form
in which they were found. -/
theorem induction {P : Value → Value → Prop}
    (atom : ∀ a, P (.atom a) (.atom a))
    (saved : ∀ p, P (.saved p) (.saved p))
    (list : ∀ items items', List.Forall₂ P items items' → P (.list items) (.list items'))
    (dict : ∀ d e : Dict Value, d.Distinct → e.Distinct → d.Related P e → P (.dict d) (.dict e))
    (form : ∀ v w d e, v.block? = w.block? → v.dict? = some d → w.dict? = some e → P (.dict d) (.dict e) → P v w)
    (closed : ∀ b c : Block, b.bytes = c.bytes → b.load.toOption = none → c.load.toOption = none →
      P (.block b) (.block c))
    (h : v.Twins w) : P v w := by
  induction v using induction_opened generalizing w with
  | atom a =>
    rcases h.alike.cases with ⟨a, ⟨⟩, rfl⟩ | ⟨p, ⟨⟩, -⟩ | ⟨items, items', ⟨⟩, -⟩ | ⟨bs, ⟨⟩, -⟩
    exact atom _
  | saved p =>
    rcases h.alike.cases with ⟨a, ⟨⟩, -⟩ | ⟨p, ⟨⟩, rfl⟩ | ⟨items, items', ⟨⟩, -⟩ | ⟨bs, ⟨⟩, -⟩
    exact saved _
  | list items ih =>
    rcases h.alike.cases with ⟨a, ⟨⟩, -⟩ | ⟨p, ⟨⟩, -⟩ | ⟨_, items', ⟨⟩, rfl, halike⟩ | ⟨bs, ⟨⟩, -⟩
    have hitems := forall₂_and (h.items halike) ih fun _ _ => trivial
    exact list _ _ (hitems.imp fun u u' ⟨htwins, hu, _⟩ => hu htwins)
  | dict d ih =>
    obtain ⟨e, he, htwins⟩ := h.dict?_of_left (d := d) rfl
    have hentries := forall₂_and htwins.related ih fun _ _ => trivial
    refine form _ _ d e h.alike.block? rfl he ?_
    exact dict d e (Dict.ReadsBack.distinct htwins.left.here) (Dict.ReadsBack.distinct htwins.right.here)
      (hentries.imp fun a b ⟨⟨hname, htwins⟩, ha, _⟩ => ⟨hname, ha htwins⟩)
  | block b ih =>
    cases hload : b.load with
    | ok d =>
      have hd := Value.dict?_block_iff.mpr hload
      obtain ⟨e, he, htwins⟩ := h.dict?_of_left hd
      exact form _ _ d e h.alike.block? hd he (ih d hload htwins.dict)
    | error f =>
      have hnone := Value.dict?_of_closed hload
      have hrel := h.dict?
      have hblock := h.alike.block?
      rw [hnone] at hrel
      cases w with
      | block c =>
        generalize hc : (Value.block c).dict? = e at hrel
        cases hrel
        exact closed b c (Option.some.inj hblock) hnone hc
      | dict e => cases hrel
      | _ => cases hblock

end Value.Twins
end AssetPack
