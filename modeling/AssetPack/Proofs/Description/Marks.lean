import AssetPack.Description.Keys
import AssetPack.Proofs.Json.Canonical
import AssetPack.Proofs.Value.Vocabulary

/-!
# Marks and directives

A text with a mark in front and a dictionary with a directive stand for something else. Each pass over a
description narrows its vocabulary: first it is that of JSON, then no directives are left, then fewer and
fewer marks.
-/
namespace AssetPack

/-- An atom of JSON that is no text with one of these marks in front. -/
def Atom.Unmarked (marks : List String) : Atom → Prop
  | .string s => ∀ mark ∈ marks, after? mark s = none
  | .bytes _ => False
  | .struct _ => False
  | .ref _ => False
  | _ => True

/-- The names that stand for something to be put in place. -/
def Key.directives : List String := [Key.imported, Key.template, Key.base, Key.values]

namespace Vocabulary

/-- What a text of JSON stands for. -/
def json : Vocabulary := ⟨Atom.Unmarked [], fun _ => True, fun _ => False⟩

/-- No directives are left, nor texts with these marks. -/
def unmarked (marks : List String) : Vocabulary :=
  ⟨Atom.Unmarked marks, fun name => name ∉ Key.directives, fun _ => False⟩

end Vocabulary

theorem Atom.Unmarked.mono {marks fewer : List String} (h : fewer ⊆ marks) {a : Atom}
    (ha : a.Unmarked marks) : a.Unmarked fewer := by
  cases a with
  | string s => exact fun mark hmark => ha mark (h hmark)
  | _ => exact ha

theorem Value.Of.json {marks : List String} {v : Value} (h : v.Of (.unmarked marks)) : v.Of .json :=
  h.mono (fun _ ha => ha.mono (List.nil_subset _)) (fun _ _ => trivial) fun _ hp => hp

namespace Json

theorem of_numberValue (numeral : String) : (numberValue numeral).Of .json := by
  rcases numberValue_cases numeral with ⟨n, h⟩ | ⟨d, h, _⟩ | h <;> (rw [h]; exact Value.of_atom.mpr trivial)

theorem Sound.of_value {j : Json} (h : j.Sound) : j.value.Of .json := by
  induction j with
  | null => exact Value.of_atom.mpr trivial
  | bool b => exact Value.of_atom.mpr trivial
  | number numeral => exact of_numberValue numeral
  | string s => exact Value.of_atom.mpr fun _ hmark => absurd hmark List.not_mem_nil
  | array items ih =>
    rw [value, jsonValues_eq, Value.of_list, List.forall_mem_map]
    exact fun j hj => ih j hj (soundItems_iff.mp h j hj)
  | object members ih =>
    obtain ⟨hdistinct, hmembers⟩ := Dict.sound_iff.mp h
    rw [value, Dict.jsonValue_eq]
    refine Dict.of_intro ?_ fun entry hentry => ⟨trivial, ?_⟩
    · rw [Dict.Distinct, Dict.names_map]
      exact hdistinct
    · obtain ⟨m, hm, rfl⟩ := List.mem_map.mp hentry
      exact ih m hm (hmembers m hm)

/-- What a text describes is of the vocabulary of JSON. -/
theorem of_parseDict {text : String} {d : Dict Value} (h : parseDict text = .ok d) : d.Of .json := by
  rw [parseDict] at h
  split at h
  · cases h
    have hobject : (object _).Sound := (sound_of_parse ‹_›).1
    exact hobject.of_value
  · cases h

end Json
end AssetPack
