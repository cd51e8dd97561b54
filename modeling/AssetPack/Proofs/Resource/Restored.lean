import AssetPack.Proofs.Description.Compiled
import AssetPack.Proofs.Resource.Stored

/-!
# Resources restored from a compiled description

A typed entry is made into a resource twice: from its description when it is compiled, and from the form that the pack
keeps when a container is asked for it. The second is of the same type and has the content of the first. A compressed
form must be readable for that, which the writer does not look after.
-/
namespace AssetPack
variable {σ : Type} {fs : Files}

/-! ## Asking a container -/

/-- A container of the dictionary in which nothing was made yet of the entry. -/
structure Container.Awaits (c : Container σ) (d : Dict Value) (name : String) : Prop where
  entries : c.entries = (Container.ofDict d c.registry).entries
  registry : c.registry = .builtin
  unmade : c.isLoaded name = false

theorem Container.awaits_ofDict (d : Dict Value) (name : String) :
    (Container.ofDict d .builtin : Container σ).Awaits d name := ⟨rfl, rfl, rfl⟩

namespace Container.Awaits
variable {c : Container σ} {d : Dict Value} {name : String}

theorem get?_entries (h : c.Awaits d name) (hname : Key.isReserved name = false) :
    c.entries.get? name = d.get? name := by
  rw [h.entries]
  exact DictResource.get?_fields hname

theorem get?_slots (h : c.Awaits d name) : c.slots.get? name = none := by
  have hunmade := h.unmade
  rw [Container.isLoaded, Dict.contains] at hunmade
  exact Option.not_isSome_iff_eq_none.mp (by rw [hunmade]; exact Bool.false_ne_true)

end Container.Awaits

namespace ContainerM
variable {c : Container σ} {d stored : Dict Value} {name t : String} {v : Value} {f : Factory σ} {r : Resource σ}
  {w : σ}

/-- Asked for an entry of which nothing was made yet, a container has its type make the resource. -/
theorem object_of_awaits (h : c.Awaits d name) (hname : Key.isReserved name = false) (hv : d.get? name = some v)
    (hopened : opened? v = some (.dict stored)) (htype : stored.get? Key.type = some (.string t))
    (hf : Registry.builtin.get? t = some f) (hr : (f.fromCache stored w).1 = some r) :
    (object name c w).1.1 = some (r, c.built + 1) := by
  have hnamed : (Value.dict stored).typeName? = some t := findAs?_type htype
  rw [object, bind_run, resolve_of_construct ((h.get?_entries hname).trans hv) h.get?_slots, construct_of_some hopened,
    makeObject_of_factory hnamed (h.registry ▸ hf) rfl, hr]
  rfl

/-- There is no resource of what does not open. -/
theorem object_of_unopened (h : c.Awaits d name) (hname : Key.isReserved name = false) (hv : d.get? name = some v)
    (hopened : opened? v = none) : (object name c w).1.1 = none := by
  rw [object, bind_run, resolve_of_construct ((h.get?_entries hname).trans hv) h.get?_slots, construct_of_none hopened]
  rfl

/-- There is none of what has a reserved name. -/
theorem object_of_isReserved (hname : Key.isReserved name = true) (d : Dict Value) (registry : Registry σ) (w : σ) :
    (object name (Container.ofDict d registry) w).1.1 = none := by
  have hnone : (Container.ofDict d registry).entries.get? name = none := by
    refine Dict.get?_eq_none_iff.mpr fun hmem => ?_
    obtain ⟨field, hfield, rfl⟩ := List.mem_map.mp hmem
    rw [DictResource.isReserved_of_mem_fields hfield] at hname
    cases hname
  rw [object, bind_run, resolve_of_none hnone]
  rfl

end ContainerM

/-! ## From a description and from a pack -/

/-- A file that a description names has the bytes that are read at its path. -/
theorem FileResource.read_of_fromSource {d : Dict Value} {f : FileResource} (h : (fromSource d).eval fs = .ok f) :
    ∃ path, d.findAs? "file" .string = some path ∧ fs.read path = .ok f.data ∧ f.extension = extensionOf path ∧
      f.compress = (d.findAs? "compress" .bool).getD (compressByDefault f.extension) := by
  rw [fromSource] at h
  cases hpath : d.findAs? "file" .string with
  | none =>
    rw [hpath] at h
    cases h
  | some path =>
    rw [hpath] at h
    obtain ⟨answer, hanswer, h⟩ := (Answers.files fs).of_bind h.symm
    cases answer with
    | error e => cases h
    | ok data =>
      cases h
      exact ⟨path, rfl, hanswer.symm, rfl, rfl⟩

/-- The resource is what the entry describes, and is saved with the fields with which it is stored. -/
structure Resource.Restores (fs : Files) (entry : Dict Value) (t : String) (stored : Dict Value) (r : Resource σ) :
    Prop where
  typeName : r.typeName = t
  file : t = "file" → ∃ f path, (FileResource.fromSource entry).eval fs = .ok f ∧
    entry.findAs? "file" .string = some path ∧ fs.read path = .ok f.data ∧ r.body = .file f.data f.extension f.compress
  dict : t = "dict" → ∃ fields, r.body = .fields fields ∧ (fields.sameAs (DictResource.ofDict entry).fields = true ↔
    (entry.isCompressed = true → ∀ field ∈ (DictResource.ofDict entry).fields.entries, field.2.Shallow))
  save : r.save ∅ = (true, (DictResource.ofDict stored).fields)

namespace DictResource
variable {d : Dict Value}

/-- Fields are read back the same just if each value in them can be read. -/
theorem sameAs_stored_iff (hd : d.Of .open) (hsmall : (Payload.ofBytes .dict d.encode true).IsSmall)
    (hlists : ∀ field ∈ d.entries, field.2.lists ≤ deepest) :
    (ofDict (d.stored 0)).fields.sameAs (ofDict d).fields = true ↔
      ∀ field ∈ (ofDict d).fields.entries, field.2.Shallow := by
  obtain ⟨hfits, hlen⟩ := Dict.fits_of_isSmall hsmall
  have hparts : ∀ field ∈ (ofDict d).fields.entries,
      field.2.Of .open ∧ field.2.Fits ∧ field.2.encode.length < lengthLimit := fun field hmem => by
    have hentry := (List.mem_filter.mp hmem).1
    obtain ⟨_, hfits, hlen⟩ := Block.entry_fits hfits hlen hentry
    exact ⟨hd.entry hentry, hfits, hlen⟩
  constructor
  · intro hsame field hmem
    obtain ⟨hentry, hname⟩ := List.mem_filter.mp hmem
    obtain ⟨place, hsame⟩ :=
      same_stored_of_sameAs_filter hd.distinct (fun name => !Key.isReserved name) hsame field hentry hname
    obtain ⟨hof, hfits, hlen⟩ := hparts field hmem
    exact Value.shallow_of_same hfits hlen hof hsame
  · intro hshallow
    have hreadable := Payload.readable_of_loadDict (Payload.loadDict_ofBytes_encode hd.distinct hsmall hlists)
    have halike : (ofDict (d.stored 0)).fields.Related Value.Alike (ofDict d).fields :=
      (Dict.alike_iff.mp (d.alike_stored 0).symm).filter fun name => !Key.isReserved name
    have hleft : ∀ field ∈ (ofDict (d.stored 0)).fields.entries, field.2.Readable := fun field hmem =>
      ((Value.each_dict _).mp hreadable).2 field (List.mem_filter.mp hmem).1
    have hright : ∀ field ∈ (ofDict d).fields.entries, field.2.Readable := fun field hmem => by
      obtain ⟨hof, hfits, hlen⟩ := hparts field hmem
      exact Value.readable_of_shallow hfits hlen hof.distinct (hshallow field hmem)
    refine Dict.Related.sameAs ((forall₂_and halike hleft hright).imp ?_) ?_
    · exact fun a b ⟨⟨hname, halike⟩, ha, hb⟩ => ⟨hname, Value.Twins.same ⟨halike, ha, hb⟩⟩
    · refine distinct_fields ?_
      rw [Dict.Distinct, Dict.names_stored]
      exact hd.distinct

end DictResource

namespace Dict.Describes
variable {entry : Dict Value} {t : String} {source : Resource σ} {v : Value}

/-- A stored value that can be opened is made into the resource that its entry describes. -/
theorem exists_restored (h : entry.Describes fs t source) (hopen : entry.Of .open)
    (hnoted : (source.form entry t).Noted v) (hsmall : v.PayloadsSmall) (hreads : source.FormReads entry t) :
    ∃ (stored : Dict Value) (f : Factory σ) (r : Resource σ), stored.get? Key.type = some (.string t) ∧
      ContainerM.opened? v = some (.dict stored) ∧ Registry.builtin.get? t = some f ∧
      (∀ w, (f.fromCache stored w).1 = some r) ∧ r.Restores fs entry t stored := by
  obtain ⟨stored, hstored, hopened, hcontained, hform⟩ := h.exists_stored hopen hnoted hsmall hreads
  cases h with
  | @file f hsource =>
    have hfields : (DictResource.ofDict stored).fields = ⟨f.parts⟩ :=
      FileResource.eq_parts_of_alike (f.save_empty ▸ hstored.fields)
    have hunpacks : f.compress = true → (Payload.ofBytes .bytes f.data true).IsSmall := by
      intro hcompress
      have hdata : stored.get? "data" = some (.saved (.ofBytes .bytes f.data true)) := by
        rw [← DictResource.get?_fields (by decide), hfields, FileResource.parts, if_pos hcompress]
        rfl
      exact ((hsmall.opened hopened).get? hdata).here _ rfl
    have hmade : FileResource.fromCache? stored = some f := FileResource.fromCache?_of_fields hfields hunpacks
    obtain ⟨path, hpath, hread, -⟩ := FileResource.read_of_fromSource hsource
    refine ⟨stored, FileResource.factory, f.toResource, hstored.type, hcontained, rfl, fun w => ?_, rfl, fun _ => ?_,
      fun heq => absurd heq (by decide), ?_⟩
    · exact congrArg (Option.map FileResource.toResource) hmade
    · exact ⟨f, path, hsource, hpath, hread, rfl⟩
    · rw [hfields, ← f.save_empty]
      rfl
  | dict =>
    refine ⟨stored, DictResource.factory, (DictResource.ofDict stored).toResource, hstored.type, hcontained, rfl,
      fun _ => rfl, rfl, fun heq => absurd heq (by decide), fun _ => ⟨_, rfl, ?_⟩, ?_⟩
    · have hdict : entry.Describes fs "dict" (DictResource.ofDict entry).toResource := .dict (σ := σ)
      have hfields := fields_dict (σ := σ) hopen.distinct
      split at hform
      · obtain ⟨rfl, hkept⟩ := hform
        have hsame := hdict.fields_kept hopen.distinct
        rw [hfields] at hsame
        rw [← hsame, DictResource.sameAs_stored_iff (hdict.kept_open hopen) hkept (hreads ‹_›)]
        exact ⟨fun hshallow _ => hshallow, fun hshallow => hshallow ‹_›⟩
      · have hof : (Value.dict (DictResource.ofDict entry).fields).Of .open := hopen.filter _
        rw [hform, hfields]
        exact iff_of_true (Dict.sameAs_self hof.distinct) fun hcompressed => absurd hcompressed ‹_›
    · exact DictResource.save_toResource (DictResource.distinct_fields hstored.distinct)

end Dict.Describes

/-- The payload that a value is. -/
def Value.payload? : Value → Option Payload
  | .saved p => some p
  | _ => none

theorem Value.eq_saved_of_payload? {v : Value} {p : Payload} (h : v.payload? = some p) : v = .saved p := by
  cases v with
  | saved q =>
    cases h
    rfl
  | _ => cases h

/-- An entry that is kept compressed. -/
def compressedEntry : Dict Value :=
  ⟨[("a", .dict ⟨[(Key.type, .string "dict"), (Key.compress, .bool true), ("x", .int 1)]⟩)]⟩

/-- What is kept of it. -/
def compressedForm : Dict Value := ⟨[(Key.type, .string "dict"), ("x", .int 1)]⟩

theorem payloadsSmall_compressedForm : (Value.saved (.ofBytes .dict compressedForm.encode true)).PayloadsSmall := by
  have hlen : compressedForm.encode.length ≤ largestUnpacked := by decide
  have hsmall : (Payload.ofBytes .dict compressedForm.encode true).IsSmall := Payload.isSmall_ofBytes_iff.mpr hlen
  have hlists : ∀ field ∈ compressedForm.entries, field.2.lists ≤ deepest := by decide
  have hatoms : ∀ field ∈ compressedForm.entries, ∃ a, field.2 = .atom a := by simp [compressedForm]
  refine Value.throughout_saved.mpr ⟨fun p hp => ?_, fun _ d hload => ?_⟩
  · cases hp
    exact hsmall
  · rw [Payload.loadDict_ofBytes_encode (by decide) hsmall hlists] at hload
    cases hload
    refine Value.throughout_dict.mpr ⟨by rintro _ ⟨⟩, fun field hfield => ?_⟩
    obtain ⟨kept, hkept, place, hstored⟩ := Value.exists_of_mem_stored hfield
    obtain ⟨a, ha⟩ := hatoms kept hkept
    rw [hstored, ha]
    exact Value.throughout_atom.mpr (by rintro _ ⟨⟩)

/-- A typed entry with a reserved name. -/
def reservedEntry : Dict Value := ⟨[("res:foo", .dict ⟨[(Key.type, .string "dict"), ("x", .int 1)]⟩)]⟩

/-- An entry that is kept compressed and takes in more lists than can be read. -/
def deepEntry : Dict Json :=
  ⟨[("res:values", .object ⟨[("y", Json.nested 128 .null), ("x", Json.nested 128 (.string "res:y"))]⟩),
    ("a", .object ⟨[("res:type", .string "dict"), ("res:compress", .bool true), ("v", .array [.string "res:x"])]⟩)]⟩

theorem distinct_deepEntry : (Value.dict deepEntry.jsonValue).Distinct := by
  have hnested (n : Nat) {j : Json} (hj : j.value.Distinct) : (Json.nested n j).value.Distinct := by
    induction n with
    | zero => exact hj
    | succ n ih => exact Value.distinct_list.mpr (List.forall_mem_singleton.mpr ih)
  have hatom (a : Atom) : (Value.atom a).Distinct := (Value.each_atom a).mpr trivial
  have hvalues :
      (Json.object ⟨[("y", Json.nested 128 .null), ("x", Json.nested 128 (.string "res:y"))]⟩).value.Distinct :=
    Value.distinct_dict.mpr ⟨by decide, List.forall_mem_cons.mpr ⟨hnested 128 (hatom _),
      List.forall_mem_singleton.mpr (hnested 128 (hatom _))⟩⟩
  have hentry : (Json.object ⟨[("res:type", .string "dict"), ("res:compress", .bool true),
      ("v", .array [.string "res:x"])]⟩).value.Distinct :=
    Value.distinct_dict.mpr ⟨by decide, List.forall_mem_cons.mpr ⟨hatom _, List.forall_mem_cons.mpr ⟨hatom _,
      List.forall_mem_singleton.mpr (hnested 1 (hatom _))⟩⟩⟩
  exact Value.distinct_dict.mpr ⟨by decide, List.forall_mem_cons.mpr ⟨hvalues, List.forall_mem_singleton.mpr hentry⟩⟩

end AssetPack
