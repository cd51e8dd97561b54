import AssetPack.Proofs.Description.Marks
import AssetPack.Proofs.Value.Revealed

/-!
# Descriptions in the form of a pack

What a text describes is as deep as containers may be open in the text. A block of a pack takes as many lists around a
value, and counts them anew within each dictionary. So all that is described can be written and read back, and every
dictionary in it opens.
-/
namespace AssetPack

/-! ## Lists in a description -/

namespace Json

/-- The lists around a value are open in its text. -/
theorem lists_value_le (j : Json) : j.value.lists ≤ j.depth := by
  induction j with
  | null | bool b | string s => exact Nat.zero_le _
  | number numeral =>
    rcases numberValue_cases numeral with ⟨n, h⟩ | ⟨d, h, -⟩ | h <;>
      · rw [value, h]
        exact Nat.zero_le _
  | array items ih =>
    rw [value, jsonValues_eq, Value.lists, depth]
    rcases Nat.eq_zero_or_pos (listsAround (items.map value)) with hzero | hpos
    · omega
    · obtain ⟨v, hv, hlists⟩ := exists_listsAround hpos
      obtain ⟨j, hj, rfl⟩ := List.mem_map.mp hv
      have hvalue := ih j hj
      have hdepth := depthItems_le_iff.mp (Nat.le_refl (depthItems items)) j hj
      omega
  | object members ih => exact Nat.zero_le _

theorem shallow_jsonValue {members : Dict Json} (h : ∀ m ∈ members.entries, m.2.depth ≤ deepest)
    (hshallow : ∀ m ∈ members.entries, m.2.value.Shallow) : (Value.dict members.jsonValue).Shallow := by
  refine (Value.each_dict _).mpr ⟨fun entry hentry => ?_, fun entry hentry => ?_⟩ <;>
    rw [Dict.jsonValue_eq] at hentry <;> obtain ⟨m, hm, rfl⟩ := List.mem_map.mp hentry
  · exact (lists_value_le m.2).trans (h m hm)
  · exact hshallow m hm

/-- A value with no more containers around each other than lists are read is not too deep for any block. -/
theorem shallow_value {j : Json} (h : j.depth ≤ deepest) : j.value.Shallow := by
  induction j with
  | null | bool b | string s => exact (Value.each_atom _).mpr trivial
  | number numeral =>
    rcases numberValue_cases numeral with ⟨n, h⟩ | ⟨d, h, -⟩ | h <;>
      · rw [value, h]
        exact (Value.each_atom _).mpr trivial
  | array items ih =>
    rw [depth] at h
    have hitems := depthItems_le_iff.mp (Nat.le_of_succ_le h)
    rw [value, jsonValues_eq, Value.Shallow, Value.each_list, List.forall_mem_map]
    exact ⟨trivial, fun j hj => ih j hj (hitems j hj)⟩
  | object members ih =>
    rw [depth] at h
    have hmembers := Dict.depth_le_iff.mp (Nat.le_of_succ_le h)
    exact shallow_jsonValue hmembers fun m hm => ih m hm (hmembers m hm)

theorem shallow_of_parseDict {text : String} {d : Dict Value} (h : parseDict text = .ok d) :
    (Value.dict d).Shallow := by
  rw [parseDict] at h
  split at h
  · cases h
    have hmembers := Dict.depth_le_iff.mp (sound_of_parse ‹_›).2
    exact shallow_jsonValue hmembers fun m hm => shallow_value (hmembers m hm)
  · cases h

/-- What a text describes is read back from its bytes as the same dictionary, with the names in their order. Every
dictionary inside opens when it is asked for, and once all are open nothing is different. -/
theorem decode_encode_of_parseDict {text : String} {d : Dict Value} (h : parseDict text = .ok d)
    (hfits : (Value.dict d).Fits) (hlen : d.encode.length < lengthLimit) :
    ∃ e, Dict.decode d.encode = .ok e ∧ e.sameAs d = true ∧ e.names = d.names ∧
      (∀ b, (Value.block b).Within (.dict e) → ∃ c, b.load = .ok c) ∧ (Value.dict e).revealed = .dict d := by
  have hof := of_parseDict h
  have hshallow := shallow_of_parseDict h
  have hplain : (Value.dict d).Plain := Value.Of.plain hof fun _ => id
  have hload : Dict.decode d.encode = .ok (d.stored 0) :=
    Block.load_encode_of_lists_le hfits hlen hof.distinct hshallow.here 0
  have hparts {entry : String × Value} (hentry : entry ∈ d.entries) :
      entry.2.Of .json ∧ entry.2.Fits ∧ entry.2.encode.length < lengthLimit :=
    ⟨hof.entry hentry, (Block.entry_fits hfits hlen hentry).2⟩
  have hopens : (Value.dict (d.stored 0)).Opens := by
    refine Dict.opens_stored (fun entry hentry place => ?_) 0
    obtain ⟨hof, hfits, hlen⟩ := hparts hentry
    have hentries := ((Value.each_dict d).mp hshallow).2
    exact (Value.opens_dict.mp hplain.opens entry hentry).stored hof hfits hlen (hentries entry hentry) place
  refine ⟨d.stored 0, hload, ?_, d.names_stored 0, fun b hb => ?_, ?_⟩
  · obtain ⟨e, he, hsame⟩ := (Dict.decode_encode_iff hfits hlen hof).mpr hshallow
    obtain rfl : d.stored 0 = e := Except.ok.inj (hload.symm.trans he)
    exact hsame
  · obtain ⟨c, hc, -⟩ := Value.Opens.exists_load fun u hu => hopens u (hu.trans hb)
    exact ⟨c, hc⟩
  · have hshows : (Value.dict (d.stored 0)).revealed = (Value.dict d).revealed := by
      refine (Dict.showsStored_of_entries (fun entry hentry => ?_) hopens).2
      obtain ⟨hof, hfits, hlen⟩ := hparts hentry
      exact Value.showsStored hof.open hfits hlen
    rw [hshows, hplain.revealed_eq]

/-- Lists and dictionaries in each other. -/
def nestedText : String := "\x7b\"b\":[[1,\x7b\"c\":\x7b\x7d\x7d]],\"a\":\x7b\"d\":[2.5,\x7b\x7d]\x7d\x7d"

theorem decode_encode_of_parseDict_nestedText : ∃ d, parseDict nestedText = .ok d ∧ (Value.dict d).Fits ∧
    d.encode.length < lengthLimit ∧ ∃ e, Dict.decode d.encode = .ok e ∧ e.sameAs d = true ∧ e.names = d.names ∧
      (∀ b, (Value.block b).Within (.dict e) → ∃ c, b.load = .ok c) ∧ (Value.dict e).revealed = .dict d := by
  have haccepted : (parseDict nestedText).toOption.any fun d => decide ((Value.dict d).width < countLimit) := by
    decide +kernel
  cases h : parseDict nestedText with
  | ok d =>
    have hlen : (Value.dict d).encode.length < countLimit := by
      rw [Value.length_encode]
      rw [h] at haccepted
      exact of_decide_eq_true haccepted
    have hfits := Value.fits_of_length_encode hlen
    have hlimit := Value.length_encode_lt_lengthLimit hlen
    exact ⟨d, rfl, hfits, hlimit, decode_encode_of_parseDict h hfits hlimit⟩
  | error f =>
    rw [h] at haccepted
    cases haccepted

end Json
end AssetPack
