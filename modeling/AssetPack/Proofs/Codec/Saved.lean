import AssetPack.Compression.RoundTrip
import AssetPack.Proofs.Codec.RoundTrip
import AssetPack.Proofs.Value.Opened

/-!
# Saved dictionaries

What is unpacked is short enough that every count and length in it fits its four bytes. So what a saved
dictionary opens to is its stored form, in which nothing is said that it did not say itself.
-/
namespace AssetPack

/-- What is unpacked are the bytes that were kept aside, if they are not too many. -/
theorem Payload.of_unpack_ofBytes {content : Content} {bs out : Bytes}
    (h : (ofBytes content bs true).unpack = .ok out) : out = bs ∧ bs.length ≤ largestUnpacked := by
  simp only [unpack, ofBytes, Compression.decode, if_true, Frame.decode?_encode] at h
  by_cases hlarge : largestUnpacked < bs.length
  · rw [if_pos hlarge] at h
    cases h
  · rw [if_neg hlarge] at h
    simp only at h
    split at h
    · cases h
      exact ⟨rfl, Nat.not_lt.mp hlarge⟩
    · cases h

theorem Payload.of_loadDict_ofBytes {content : Content} {bs : Bytes} {d : Dict Value}
    (h : (ofBytes content bs true).loadDict = .ok d) : bs.length ≤ largestUnpacked ∧ Dict.decode bs = .ok d := by
  rw [loadDict] at h
  split at h
  · obtain ⟨rfl, hle⟩ := of_unpack_ofBytes ‹_›
    exact ⟨hle, h⟩
  · cases h

namespace Value
variable {V : Vocabulary}

theorem length_encode_pos (v : Value) : 0 < v.encode.length := by
  cases v <;> simp only [encode, List.length_append, Bytes.length_ofNat] <;> omega

theorem length_le_length_encodeItems (items : List Value) : items.length ≤ (encodeItems items).length := by
  induction items with
  | nil => exact Nat.le_refl _
  | cons v vs ih =>
    have := length_encode_pos v
    rw [encodeItems, List.length_append, List.length_cons]
    omega

theorem length_le_length_encodeEntries (entries : List (String × Value)) :
    entries.length ≤ (encodeEntries entries).length := by
  induction entries with
  | nil => exact Nat.le_refl _
  | cons entry rest ih =>
    have := length_encode_pos entry.2
    rw [encodeEntries, List.length_append, List.length_append, List.length_cons]
    omega

theorem textFits_of_mem {entries : List (String × Value)} {entry : String × Value} (h : entry ∈ entries)
    (hlen : (encodeEntries entries).length < countLimit) : TextFits entry.1 := by
  have hle := length_le_length_flatMap (f := encodeEntry) h
  rw [← encodeEntries_eq, encodeEntry, List.length_append, encodeText, encodeRun, List.length_append] at hle
  show (Bytes.ofString entry.1).length < countLimit
  omega

/-- A value that is written with so few bytes fits the format. -/
theorem fits_of_length_encode {v : Value} (h : v.encode.length < countLimit) : v.Fits := by
  induction v with
  | atom a =>
    refine (each_atom _).mpr ?_
    rw [encode, List.length_append] at h
    cases a <;> simp only [FitsHere, TextFits, Atom.encode, encodeText, encodeRun, List.length_append] at h ⊢ <;>
      omega
  | list items ih =>
    rw [length_encode_list] at h
    refine (each_list _).mpr ⟨?_, fun v hv => ih v hv ?_⟩
    · have := length_le_length_encodeItems items
      show items.length < countLimit
      omega
    · have := length_encode_le_of_mem hv
      omega
  | dict d ih =>
    rw [length_encode_dict, Dict.length_encode] at h
    refine (each_dict _).mpr ⟨⟨?_, fun name hname => ?_⟩, fun entry hentry => ih entry hentry ?_⟩
    · have := length_le_length_encodeEntries d.entries
      show d.entries.length < countLimit
      omega
    · obtain ⟨entry, hentry, rfl⟩ := List.mem_map.mp hname
      exact textFits_of_mem hentry (by omega)
    · have := length_encode_le_of_mem_entries hentry
      omega
  | block b => exact (each_block b).mpr trivial
  | saved p => exact (each_saved p).mpr trivial

theorem length_encode_lt_lengthLimit {d : Dict Value} (h : (dict d).encode.length < countLimit) :
    d.encode.length < lengthLimit := by
  rw [length_encode_dict, countLimit] at h
  rw [lengthLimit]
  omega

theorem exists_of_mem_storedItems {items : List Value} {w : Value} {place : Nat}
    (h : w ∈ storedItems place items) : ∃ v ∈ items, ∃ place', w = v.stored place' := by
  induction items generalizing place with
  | nil => cases h
  | cons v vs ih =>
    rw [storedItems] at h
    rcases List.mem_cons.mp h with rfl | h
    · exact ⟨v, List.mem_cons_self, place, rfl⟩
    · obtain ⟨u, hu, hstored⟩ := ih h
      exact ⟨u, List.mem_cons_of_mem v hu, hstored⟩

theorem exists_of_mem_stored {d : Dict Value} {entry : String × Value} {place : Nat}
    (h : entry ∈ (d.stored place).entries) : ∃ e ∈ d.entries, ∃ place', entry.2 = e.2.stored place' := by
  have hplaced (entries : List (String × Value)) (place : Nat)
      (h : entry ∈ Reader.placed encodeEntry storedEntry place entries) :
      ∃ e ∈ entries, ∃ place', entry.2 = e.2.stored place' := by
    induction entries generalizing place with
    | nil => cases h
    | cons e rest ih =>
      rw [Reader.placed] at h
      rcases List.mem_cons.mp h with rfl | h
      · exact ⟨e, List.mem_cons_self, _, rfl⟩
      · obtain ⟨e', he', hstored⟩ := ih _ h
        exact ⟨e', List.mem_cons_of_mem e he', hstored⟩
  exact hplaced d.entries _ h

/-- If the block of a dictionary opens, there are not too many lists around the values in it. -/
theorem lists_le_of_load {d e : Dict Value} (hfits : (dict d).Fits) (hlen : d.encode.length < lengthLimit)
    {place : Nat} (h : Block.load ⟨place, d.encode⟩ = .ok e) : ∀ entry ∈ d.entries, entry.2.lists ≤ deepest := by
  intro entry hentry
  by_cases hlists : entry.2.lists ≤ deepest
  · exact hlists
  · obtain ⟨f, _, herror⟩ := Block.load_encode_of_lt_lists hfits hlen ⟨entry, hentry, hlists⟩ place
    rw [herror] at h
    cases h

/-- It opens to the stored form then. -/
theorem eq_stored_of_load {d e : Dict Value} (hfits : (dict d).Fits) (hlen : d.encode.length < lengthLimit)
    (hdistinct : d.Distinct) {place : Nat} (h : Block.load ⟨place, d.encode⟩ = .ok e) : e = d.stored place := by
  rw [Block.load_encode_of_lists_le hfits hlen hdistinct (lists_le_of_load hfits hlen h)] at h
  cases h
  rfl

theorem speaks_dict_stored {d : Dict Value} (hof : d.Of V)
    (hentries : ∀ e ∈ d.entries, ∀ place u, Within u (e.2.stored place) → u.Speaks V) {place : Nat} {u : Value}
    (hu : Within u (.dict (d.stored place))) : u.Speaks V := by
  cases hu with
  | self =>
    intro name hname
    rw [Dict.names_stored] at hname
    exact hof.name hname
  | entry hmem hu =>
    obtain ⟨e, he, place', heq⟩ := exists_of_mem_stored hmem
    rw [heq] at hu
    exact hentries e he place' u hu

/-- The stored form says no more than the value, at no depth. -/
theorem speaks_stored (hpayload : ∀ p, V.payload p → ∀ u, Within u (.saved p) → u.Speaks V) {v : Value}
    (hof : v.Of V) (hfits : v.Fits) (hlen : v.encode.length < lengthLimit) (place : Nat) (u : Value)
    (hu : Within u (v.stored place)) : u.Speaks V := by
  induction v generalizing place u with
  | atom a =>
    cases hu
    exact hof.speaks
  | list items ih =>
    rw [length_encode_list] at hlen
    cases hu with
    | self => trivial
    | item hmem hu =>
      obtain ⟨v, hv, place', rfl⟩ := exists_of_mem_storedItems hmem
      have := length_encode_le_of_mem hv
      exact ih v hv (of_list.mp hof v hv) (((each_list items).mp hfits).2 v hv) (by omega) place' u hu
  | dict d ih =>
    rw [length_encode_dict] at hlen
    have hshort : d.encode.length < lengthLimit := by omega
    cases hu with
    | self => trivial
    | block hload hu =>
      cases eq_stored_of_load hfits hshort (Dict.Of.distinct hof) hload
      refine speaks_dict_stored hof (fun e he place u hu => ?_) hu
      obtain ⟨_, hfits', hlen'⟩ := Block.entry_fits hfits hshort he
      exact ih e he (Dict.Of.entry hof he) hfits' hlen' place u hu
  | block b => exact (not_of_block hof).elim
  | saved p => exact hpayload p (of_saved.mp hof) u hu

/-- Nothing is said within a saved dictionary that it did not say when it was saved. -/
theorem speaks_saved (hpayload : ∀ p, V.payload p → ∀ u, Within u (.saved p) → u.Speaks V) {d : Dict Value}
    (hof : d.Of V) {u : Value} (hu : Within u (.saved (.ofBytes .dict d.encode true))) : u.Speaks V := by
  cases hu with
  | self => trivial
  | @saved _ e hcontent hload hu =>
    obtain ⟨hshort, hload⟩ := Payload.of_loadDict_ofBytes hload
    rw [largestUnpacked] at hshort
    have hlen : (dict d).encode.length < countLimit := by
      rw [length_encode_dict, countLimit]
      omega
    have hfits := fits_of_length_encode hlen
    have hlimit := length_encode_lt_lengthLimit hlen
    cases eq_stored_of_load hfits hlimit hof.distinct hload
    refine speaks_dict_stored hof (fun entry hentry place u hu => ?_) hu
    obtain ⟨_, hfits', hlen'⟩ := Block.entry_fits hfits hlimit hentry
    exact speaks_stored hpayload (hof.entry hentry) hfits' hlen' place u hu

end Value
end AssetPack
