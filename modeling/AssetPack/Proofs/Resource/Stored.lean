import AssetPack.Proofs.Description.Entries
import AssetPack.Proofs.Resource.Reloaded
import AssetPack.Proofs.Value.Sameness

/-!
# Stored resources

A pack keeps the fields of a built-in resource beside its type. Whatever stands there for an entry, as it is, compressed
or with the files that were consulted, opens to a dictionary of the same fields, as long as it can be unpacked and read.
From these fields a file is made as it was.
-/
namespace AssetPack
variable {σ : Type} {fs : Files}

/-! ## Fields that are not reserved -/

theorem Key.isReserved_type : isReserved type = true := by decide

namespace DictResource

/-- What stands under a reserved name is no field. -/
theorem ofDict_set {name : String} (hname : Key.isReserved name = true) (d : Dict Value) (v : Value) :
    ofDict (d.set name v) = ofDict d := by
  obtain ⟨entries⟩ := d
  rw [ofDict, ofDict, Dict.set]
  refine congrArg (fun es => DictResource.mk ⟨es⟩) ?_
  dsimp only
  induction entries with
  | nil => simp [Dict.put, hname]
  | cons entry rest ih =>
    rw [Dict.put]
    split
    · rename_i heq
      subst heq
      rw [List.filter_cons_of_neg (by simp [hname]), List.filter_cons_of_neg (by simp [hname])]
    · rw [List.filter_cons, List.filter_cons, ih]

/-- A field is found under its name. -/
theorem get?_fields {d : Dict Value} {name : String} (hname : Key.isReserved name = false) :
    (ofDict d).fields.get? name = d.get? name := by
  rw [ofDict, d.get?_filter fun name => !Key.isReserved name, hname]
  rfl

theorem isReserved_of_mem_fields {d : Dict Value} {field : String × Value} (h : field ∈ (ofDict d).fields.entries) :
    Key.isReserved field.1 = false := by
  simpa using (List.mem_filter.mp h).2

theorem distinct_fields {d : Dict Value} (hd : d.Distinct) : (ofDict d).fields.Distinct :=
  hd.sublist (List.filter_sublist.map _)

/-- A resource that is saved alone is saved as its fields. -/
theorem save_toResource {r : DictResource} (hr : r.fields.Distinct) :
    (r.toResource : Resource σ).save ∅ = (true, r.fields) :=
  congrArg (Prod.mk true) (Dict.ofList_of_nodup hr)

/-- With a type in front of them the fields are as they were. -/
theorem merge_fields {d : Dict Value} (hd : d.Distinct) (v : Value) :
    (Dict.ofList [(Key.type, v)]).merge (ofDict d).fields = ⟨(Key.type, v) :: (ofDict d).fields.entries⟩ := by
  refine Dict.setAll_of_nodup (List.nodup_cons.mpr ⟨fun hmem => ?_, distinct_fields hd⟩)
  obtain ⟨field, hfield, hname⟩ := List.mem_map.mp hmem
  have hfalse := isReserved_of_mem_fields hfield
  rw [hname, Key.isReserved_type] at hfalse
  cases hfalse

end DictResource

namespace FileResource

/-- What is kept of a file. -/
def parts (f : FileResource) : List (String × Value) :=
  [("data", if f.compress then .saved (.ofBytes .bytes f.data true) else .bytes f.data),
    ("extension", .string f.extension), ("compress", .bool f.compress)]

theorem save_empty (f : FileResource) : f.save ∅ = ⟨f.parts⟩ := by
  have hnodup : ((∅ : Dict Value).names ++ f.parts.map (·.1)).Nodup :=
    (by decide : ["data", "extension", "compress"].Nodup)
  exact Dict.setAll_of_nodup hnodup

theorem save_typed (f : FileResource) (v : Value) :
    f.save (Dict.ofList [(Key.type, v)]) = ⟨(Key.type, v) :: f.parts⟩ := by
  have hnodup : ((Dict.ofList [(Key.type, v)]).names ++ f.parts.map (·.1)).Nodup :=
    (by decide : [Key.type, "data", "extension", "compress"].Nodup)
  exact Dict.setAll_of_nodup hnodup

theorem isReserved_of_mem_parts (f : FileResource) :
    ∀ field ∈ f.parts, Key.isReserved field.1 = false := by
  have hnames : ∀ name ∈ ["data", "extension", "compress"], Key.isReserved name = false := by decide
  exact fun field hfield => hnames field.1 (List.mem_map_of_mem (f := (·.1)) hfield)

end FileResource

/-! ## What is kept of a resource -/

/-- What a resource adds to a dictionary in which it is kept. -/
def Resource.fields (r : Resource σ) : Dict Value := (r.save ∅).2

namespace Dict.Describes
variable {entry : Dict Value} {t : String} {r : Resource σ}

theorem eq_toResource (h : entry.Describes fs "dict" r) : r = (DictResource.ofDict entry).toResource := by
  generalize ht : "dict" = t at h
  cases h with
  | file _ => exact absurd ht (by decide)
  | dict => rfl

theorem fields_dict (hentry : entry.Distinct) :
    ((DictResource.ofDict entry).toResource : Resource σ).fields = (DictResource.ofDict entry).fields :=
  congrArg Prod.snd (DictResource.save_toResource (σ := σ) (DictResource.distinct_fields hentry))

theorem isReserved_of_mem_fields (h : entry.Describes fs t r) (hentry : entry.Distinct) :
    ∀ field ∈ r.fields.entries, Key.isReserved field.1 = false := by
  cases h with
  | @file f _ =>
    show ∀ field ∈ (f.save ∅).entries, Key.isReserved field.1 = false
    rw [f.save_empty]
    exact f.isReserved_of_mem_parts
  | dict =>
    rw [fields_dict hentry]
    exact fun field => DictResource.isReserved_of_mem_fields

theorem save_typed (h : entry.Describes fs t r) (hentry : entry.Distinct) (v : Value) :
    (r.save (Dict.ofList [(Key.type, v)])).2 = ⟨(Key.type, v) :: r.fields.entries⟩ := by
  cases h with
  | @file f _ =>
    show f.save _ = ⟨(Key.type, v) :: (f.save ∅).entries⟩
    rw [f.save_empty, f.save_typed]
  | dict =>
    rw [fields_dict hentry]
    exact DictResource.merge_fields hentry v

/-- The fields of the kept dictionary are those of the resource. -/
theorem fields_kept (h : entry.Describes fs t r) (hentry : entry.Distinct) :
    (DictResource.ofDict (r.kept entry t)).fields = r.fields := by
  have htyped : (DictResource.ofDict (r.save (Dict.ofList [(Key.type, .string t)])).2).fields = r.fields := by
    rw [h.save_typed hentry, DictResource.ofDict]
    refine congrArg Dict.mk ?_
    rw [List.filter_cons_of_neg (by simp [Key.isReserved_type])]
    exact List.filter_eq_self.mpr fun field hfield => by rw [h.isReserved_of_mem_fields hentry field hfield]; rfl
  rw [Resource.kept]
  split
  · rw [DictResource.ofDict_set (by decide)]
    exact htyped
  · exact htyped

/-- The kept dictionary has the type of the resource. -/
theorem type_kept (h : entry.Describes fs t r) (hentry : entry.Distinct) :
    (r.kept entry t).get? Key.type = some (.string t) := by
  have htyped : (r.save (Dict.ofList [(Key.type, .string t)])).2.get? Key.type = some (.string t) := by
    rw [h.save_typed hentry, Dict.get?]
    exact List.lookup_cons_self
  rw [Resource.kept]
  split
  · rw [Dict.get?_set, if_neg (by decide)]
    exact htyped
  · exact htyped

end Dict.Describes

/-! ## Payloads that can be unpacked -/

/-- No more bytes come out of the payload than may. -/
def Payload.IsSmall (p : Payload) : Prop :=
  p.compression = .zstd → ∀ bs, Frame.decode? p.stored = some bs → bs.length ≤ largestUnpacked

/-- So it is with all payloads within the value. -/
def Value.PayloadsSmall (v : Value) : Prop := v.Throughout fun u => ∀ p, u = .saved p → p.IsSmall

namespace Payload
variable {content : Content} {bs : Bytes}

theorem isSmall_ofBytes_iff : (ofBytes content bs true).IsSmall ↔ bs.length ≤ largestUnpacked := by
  simp [IsSmall, ofBytes, Frame.decode?_encode]

theorem unpack_ofBytes (h : (ofBytes content bs true).IsSmall) : (ofBytes content bs true).unpack = .ok bs := by
  have hle := isSmall_ofBytes_iff.mp h
  have hlength : (UInt64.ofNat bs.length).toNat = bs.length :=
    UInt64.toNat_ofNat_of_lt' (Nat.lt_of_le_of_lt hle (by decide))
  simp [unpack, ofBytes, Compression.decode, Frame.decode?_encode, Nat.not_lt.mpr hle, hlength]

end Payload

theorem Dict.fits_of_isSmall {d : Dict Value} (h : (Payload.ofBytes .dict d.encode true).IsSmall) :
    (Value.dict d).Fits ∧ d.encode.length < lengthLimit := by
  have hle := Payload.isSmall_ofBytes_iff.mp h
  have hlen : (Value.dict d).encode.length < countLimit := by
    rw [length_encode_dict, countLimit]
    rw [largestUnpacked] at hle
    omega
  exact ⟨Value.fits_of_length_encode hlen, Value.length_encode_lt_lengthLimit hlen⟩

/-! ## What a stored value opens to -/

namespace Value

theorem Alike.eq_atom {a : Atom} {v : Value} (h : (atom a).Alike v) : v = .atom a := by
  rcases h.cases with ⟨_, ⟨⟩, rfl⟩ | ⟨_, ⟨⟩, -⟩ | ⟨_, _, ⟨⟩, -⟩ | ⟨_, ⟨⟩, -⟩
  rfl

theorem Alike.eq_saved {p : Payload} {v : Value} (h : (saved p).Alike v) : v = .saved p := by
  rcases h.cases with ⟨_, ⟨⟩, -⟩ | ⟨_, ⟨⟩, rfl⟩ | ⟨_, _, ⟨⟩, -⟩ | ⟨_, ⟨⟩, -⟩
  rfl

theorem Noted.eq_saved {p : Payload} {v : Value} (h : (saved p).Noted v) : v = .saved p := by
  induction h with
  | same => rfl
  | files _ _ ih => cases ih

/-- What is recorded in a dictionary is no field. -/
theorem Noted.exists_dict {d : Dict Value} {v : Value} (h : (Value.dict d).Noted v) (hd : d.Distinct) :
    ∃ e, v = .dict e ∧ e.Distinct ∧ DictResource.ofDict e = DictResource.ofDict d ∧
      e.get? Key.type = d.get? Key.type := by
  induction h with
  | same => exact ⟨d, rfl, hd, rfl, rfl⟩
  | files files _ ih =>
    obtain ⟨e, heq, he, hfields, htype⟩ := ih
    cases heq
    refine ⟨_, rfl, Dict.distinct_set he _ _, ?_, ?_⟩
    · rw [DictResource.ofDict_set (by decide), hfields]
    · rw [Dict.get?_set, if_neg (by decide), htype]

end Value

/-- The form that a pack keeps can be read: it is not compressed, or in its block at most `deepest` lists stand around
a value. -/
def Resource.FormReads (r : Resource σ) (entry : Dict Value) (t : String) : Prop :=
  entry.isCompressed = true → ∀ field ∈ (r.kept entry t).entries, field.2.lists ≤ deepest

/-- A dictionary in which a resource of type `t` is stored. -/
structure Resource.Stored (r : Resource σ) (t : String) (stored : Dict Value) : Prop where
  distinct : stored.Distinct
  type : stored.get? Key.type = some (.string t)
  fields : (DictResource.ofDict stored).fields.Related Value.Alike r.fields

/-- A compressed dictionary is read back if its payload is small and its lists are not too many. -/
theorem Payload.loadDict_ofBytes_encode {d : Dict Value} (hd : d.Distinct)
    (hsmall : (ofBytes .dict d.encode true).IsSmall) (hlists : ∀ field ∈ d.entries, field.2.lists ≤ deepest) :
    (ofBytes .dict d.encode true).loadDict = .ok (d.stored 0) := by
  obtain ⟨hfits, hlen⟩ := Dict.fits_of_isSmall hsmall
  rw [loadDict, unpack_ofBytes hsmall]
  exact Block.load_encode_of_lists_le hfits hlen hd hlists 0

/-- If it is read back, its lists are not too many. -/
theorem Payload.lists_le_of_loadDict {d e : Dict Value} (hsmall : (ofBytes .dict d.encode true).IsSmall)
    (hload : (ofBytes .dict d.encode true).loadDict = .ok e) : ∀ field ∈ d.entries, field.2.lists ≤ deepest := by
  obtain ⟨hfits, hlen⟩ := Dict.fits_of_isSmall hsmall
  exact Value.lists_le_of_load hfits hlen (of_loadDict_ofBytes hload).2

section
variable {r : Resource σ} {entry : Dict Value} {t : String} {v : Value}

theorem Resource.not_formReads_iff : ¬r.FormReads entry t ↔
    entry.isCompressed = true ∧ ∃ field ∈ (r.kept entry t).entries, ¬field.2.lists ≤ deepest := by
  rw [Resource.FormReads, Classical.not_imp, not_forall₂]
  simp only [exists_prop]

/-- A form that cannot be read does not open. -/
theorem ContainerM.opened?_of_form (hnoted : (r.form entry t).Noted v) (hsmall : v.PayloadsSmall)
    (hreads : ¬r.FormReads entry t) : opened? v = none := by
  obtain ⟨hcompressed, field, hfield, hlists⟩ := Resource.not_formReads_iff.mp hreads
  rw [Resource.form, if_pos hcompressed] at hnoted
  obtain rfl := hnoted.eq_saved
  rw [opened?_saved_dict rfl]
  cases hload : (Payload.ofBytes .dict (r.kept entry t).encode true).loadDict with
  | error f => rfl
  | ok d => exact absurd (Payload.lists_le_of_loadDict (hsmall.here _ rfl) hload field hfield) hlists

/-- Nothing is within it but its payload. -/
theorem Resource.payloadsSmall_of_form (hnoted : (r.form entry t).Noted v) (hreads : ¬r.FormReads entry t)
    (hlen : (r.kept entry t).encode.length ≤ largestUnpacked) : v.PayloadsSmall := by
  obtain ⟨hcompressed, field, hfield, hlists⟩ := not_formReads_iff.mp hreads
  rw [form, if_pos hcompressed] at hnoted
  obtain rfl := hnoted.eq_saved
  have hsmall : (Payload.ofBytes .dict (r.kept entry t).encode true).IsSmall := Payload.isSmall_ofBytes_iff.mpr hlen
  refine Value.throughout_saved.mpr ⟨fun p hp => ?_, fun _ d hload => ?_⟩
  · cases hp
    exact hsmall
  · exact absurd (Payload.lists_le_of_loadDict hsmall hload field hfield) hlists

end

namespace Dict.Describes
variable {entry : Dict Value} {t : String} {r : Resource σ} {v : Value}

/-- A stored value opens to a dictionary of the resource if it can be unpacked and read. -/
theorem exists_stored (h : entry.Describes fs t r) (hopen : entry.Of .open) (hnoted : (r.form entry t).Noted v)
    (hsmall : v.PayloadsSmall) (hreads : r.FormReads entry t) :
    ∃ stored, r.Stored t stored ∧ v.opened? = some stored ∧ ContainerM.opened? v = some (.dict stored) ∧
      if entry.isCompressed then
        stored = (r.kept entry t).stored 0 ∧ (Payload.ofBytes .dict (r.kept entry t).encode true).IsSmall
      else (DictResource.ofDict stored).fields = r.fields := by
  have hkept := (h.kept_open hopen).distinct
  have hfields := h.fields_kept hopen.distinct
  have htype := h.type_kept hopen.distinct
  rw [Resource.form] at hnoted
  split at hnoted
  · rename_i hcompressed
    obtain rfl := hnoted.eq_saved
    have hsmall := hsmall.here _ rfl
    have hload := Payload.loadDict_ofBytes_encode hkept hsmall (hreads hcompressed)
    have halike := (r.kept entry t).alike_stored 0
    have hrelated := Dict.alike_iff.mp halike
    have hback := Dict.alike_iff.mp halike.symm
    refine ⟨(r.kept entry t).stored 0, ⟨?_, ?_, ?_⟩, Value.opened?_of_loadDict rfl hload, ?_, ?_⟩
    · rw [Dict.Distinct, Dict.names_stored]
      exact hkept
    · obtain ⟨u, hu, halike⟩ := exists_of_rel (htype ▸ hrelated.get? Key.type)
      rw [hu, halike.eq_atom]
    · rw [← hfields]
      exact hback.filter fun name => !Key.isReserved name
    · rw [ContainerM.opened?_saved_dict rfl, hload]
      rfl
    · rw [if_pos hcompressed]
      exact ⟨rfl, hsmall⟩
  · rename_i hplain
    obtain ⟨stored, rfl, hdistinct, hsame, hget⟩ := hnoted.exists_dict hkept
    have hstored : (DictResource.ofDict stored).fields = r.fields := by rw [hsame, hfields]
    refine ⟨stored, ⟨hdistinct, hget.trans htype, ?_⟩, rfl, rfl, ?_⟩
    · rw [hstored]
      exact List.forall₂_same.mpr fun _ _ => ⟨rfl, rfl⟩
    · rw [if_neg hplain]
      exact hstored

end Dict.Describes

/-! ## Files -/

namespace FileResource
variable {f : FileResource} {d : Dict Value}

/-- What is kept of a file holds no forms, so it is read back as it is. -/
theorem eq_parts_of_alike (h : d.Related Value.Alike ⟨f.parts⟩) : d = ⟨f.parts⟩ := by
  have hflat : ∀ part ∈ f.parts, ∀ v : Value, part.2.Alike v → v = part.2 := by
    refine List.forall_mem_cons.mpr ⟨fun v halike => ?_, List.forall_mem_cons.mpr ⟨fun v halike => halike.eq_atom,
      List.forall_mem_singleton.mpr fun v halike => halike.eq_atom⟩⟩
    dsimp only at halike ⊢
    split at halike
    · rw [if_pos ‹_›, halike.eq_saved]
    · rw [if_neg ‹_›, halike.eq_atom]
  have hsame := (forall₂_and h (fun _ _ => trivial) hflat).imp
    fun a b ⟨⟨hname, halike⟩, _, hb⟩ => Prod.ext hname (hb a.2 halike.symm)
  rw [List.forall₂_eq_eq_eq] at hsame
  exact congrArg Dict.mk hsame

/-- A file is made again from what is kept of it. -/
theorem fromCache?_of_fields (h : (DictResource.ofDict d).fields = ⟨f.parts⟩)
    (hsmall : f.compress = true → (Payload.ofBytes .bytes f.data true).IsSmall) : fromCache? d = some f := by
  have hfind {α : Type} (name : String) (view : View α) (hname : Key.isReserved name = false)
      (hhead : name.toList.head? ≠ some '/') :
      d.findAs? name view = ((⟨f.parts⟩ : Dict Value).get? name).bind (·.as? view) := by
    rw [Dict.findAs?, Dict.find?, if_neg hhead, ← h, DictResource.get?_fields hname]
  have hdata : (if f.compress then Value.saved (.ofBytes .bytes f.data true) else .bytes f.data).as? View.bytes =
      some f.data := by
    split
    · rename_i hcompress
      have hunpack := Payload.unpack_ofBytes (hsmall hcompress)
      have hconvert : (Value.saved (.ofBytes .bytes f.data true)).convert? .bytes =
          ((Payload.ofBytes .bytes f.data true).unpack.toOption).map Value.bytes := rfl
      rw [Value.as?, View.bytes, hconvert, hunpack]
      rfl
    · rfl
  rw [fromCache?, hfind "data" .bytes (by decide) (by decide), hfind "extension" .string (by decide) (by decide),
    hfind "compress" .bool (by decide) (by decide)]
  change ((if f.compress then Value.saved (.ofBytes .bytes f.data true) else .bytes f.data).as? View.bytes).map
    (fun data => (⟨data, f.extension, f.compress⟩ : FileResource)) = some f
  rw [hdata]
  rfl

end FileResource

end AssetPack
