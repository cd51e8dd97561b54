import AssetPack.Proofs.Codec.Alike
import AssetPack.Proofs.Json.Canonical
import AssetPack.Proofs.Tree.Stored
import AssetPack.Tree.Refs

/-!
# Opened twins

Twins with everything in them opened are the same, refer to the same names and have the same JSON form.
-/
namespace AssetPack

/-! ## Trees by what was opened -/

theorem addRefsItems_eq (names : List String) (ts : List Tree) :
    addRefsItems names ts = ts.foldl Tree.addRefs names := by
  induction ts generalizing names with
  | nil => rfl
  | cons t ts ih => rw [addRefsItems, ih, List.foldl_cons]

theorem Dict.addRefs_eq (names : List String) (d : Dict Tree) :
    d.addRefs names = d.entries.foldl (fun names entry => entry.2.addRefs names) names := by
  obtain ⟨entries⟩ := d
  rw [Dict.addRefs]
  induction entries generalizing names with
  | nil => rfl
  | cons entry rest ih => rw [addRefsEntries, ih, List.foldl_cons]

theorem Tree.addRefs_dict {s : Source} (hs : ∀ p, s ≠ .payload p) (names : List String) (d : Dict Tree) :
    (Tree.dict s d).addRefs names = d.addRefs names := by
  cases s with
  | payload p => exact absurd rfl (hs p)
  | _ => rfl

namespace Dict.Related
variable {d e : Dict Value}

theorem addRefs (h : d.Related (fun v w => ∀ names, v.tree.addRefs names = w.tree.addRefs names) e)
    (names : List String) : d.tree.addRefs names = e.tree.addRefs names := by
  rw [Dict.addRefs_eq, Dict.addRefs_eq, Dict.tree_eq, Dict.tree_eq, Dict.map, Dict.map, List.foldl_map, List.foldl_map]
  obtain ⟨entries⟩ := d
  obtain ⟨entries'⟩ := e
  change List.Forall₂ _ entries entries' at h
  induction h generalizing names with
  | nil => rfl
  | cons hentry _ ih => rw [List.foldl_cons, List.foldl_cons, hentry.2, ih]

theorem json (h : d.Related (fun v w => v.tree.json = w.tree.json) e) : d.tree.json = e.tree.json := by
  have hmap : d.tree.map Tree.json = e.tree.map Tree.json := by
    rw [Dict.tree_eq, Dict.tree_eq, Dict.map, Dict.map, Dict.map, Dict.map, List.map_map, List.map_map]
    refine congrArg Dict.mk ?_
    obtain ⟨entries⟩ := d
    obtain ⟨entries'⟩ := e
    change List.Forall₂ _ entries entries' at h
    induction h with
    | nil => rfl
    | cons hentry _ ih => exact List.cons_eq_cons.mpr ⟨Prod.ext hentry.1 hentry.2, ih⟩
  rw [Dict.json_eq, Dict.json_eq, hmap]

theorem sameAs (h : d.Related (fun v w => v.same w = true) e) (hd : d.Distinct) : d.sameAs e = true := by
  rw [Dict.sameAs, Dict.same_iff, Dict.tree_eq, Dict.tree_eq, Dict.size_map, Dict.size_map]
  refine ⟨List.Forall₂.length_eq h, fun entry hentry => ?_⟩
  obtain ⟨a, ha, rfl⟩ := List.mem_map.mp hentry
  have hget := h.get? a.1
  rw [Dict.get?_of_mem hd ha] at hget
  rw [Dict.get?_map]
  generalize e.get? a.1 = b at hget
  cases hget with
  | some hsame => exact ⟨_, rfl, hsame⟩

end Dict.Related

namespace Value

/-- What a dictionary value opens to stands in its tree beside the form. -/
theorem tree_of_dict? {v : Value} {d : Dict Value} (h : v.dict? = some d) :
    ∃ s, v.tree = .dict s d.tree ∧ (∀ p, s ≠ .payload p) ∧ ∀ b, s = .block b → v.block? = some b.bytes := by
  cases v with
  | dict e =>
    cases h
    exact ⟨.plain, rfl, by rintro _ ⟨⟩, by rintro _ ⟨⟩⟩
  | block b =>
    refine ⟨.block b, by rw [tree_block, dict?_block_iff.mp h], by rintro _ ⟨⟩, ?_⟩
    rintro _ ⟨⟩
    rfl
  | _ => cases h

theorem tree_of_closed {b : Block} (h : b.load.toOption = none) : (Value.block b).tree = .broken (.block b) := by
  rw [tree_block]
  cases hload : b.load with
  | ok d =>
    rw [hload] at h
    cases h
  | error f => rfl

namespace Twins
variable {v w : Value}

theorem addRefs (h : v.Twins w) (names : List String) : v.tree.addRefs names = w.tree.addRefs names := by
  refine h.induction (P := fun v w => ∀ names, v.tree.addRefs names = w.tree.addRefs names) ?_ ?_ ?_ ?_ ?_ ?_ names
  · exact fun _ _ => rfl
  · exact fun _ _ => rfl
  · intro items items' hitems names
    rw [tree_list, tree_list, Tree.addRefs, Tree.addRefs, addRefsItems_eq, addRefsItems_eq, List.foldl_map, List.foldl_map]
    induction hitems generalizing names with
    | nil => rfl
    | cons hitem _ ih => rw [List.foldl_cons, List.foldl_cons, hitem, ih]
  · intro d e _ _ hentries names
    rw [tree_dict, tree_dict, Tree.addRefs_dict (by rintro _ ⟨⟩), Tree.addRefs_dict (by rintro _ ⟨⟩)]
    exact hentries.addRefs names
  · intro v w d e _ hd he hopen names
    obtain ⟨s, hv, hs, -⟩ := tree_of_dict? hd
    obtain ⟨s', hw, hs', -⟩ := tree_of_dict? he
    rw [hv, hw, Tree.addRefs_dict hs, Tree.addRefs_dict hs']
    exact hopen names
  · intro b c _ hb hc names
    rw [tree_of_closed hb, tree_of_closed hc]
    rfl

/-- Twins have the same JSON form. -/
theorem json (h : v.Twins w) : v.tree.json = w.tree.json := by
  refine h.induction (P := fun v w => v.tree.json = w.tree.json) ?_ ?_ ?_ ?_ ?_ ?_
  · exact fun _ => rfl
  · exact fun _ => rfl
  · intro items items' hitems
    rw [tree_list, tree_list, Tree.json, Tree.json, jsonItems_eq, jsonItems_eq, List.map_map, List.map_map]
    refine congrArg Json.array ?_
    induction hitems with
    | nil => rfl
    | cons hitem _ ih => exact List.cons_eq_cons.mpr ⟨hitem, ih⟩
  · intro d e _ _ hentries
    rw [tree_dict, tree_dict, Tree.json, Tree.json, hentries.json]
  · intro v w d e _ hd he hopen
    obtain ⟨s, hv, -⟩ := tree_of_dict? hd
    obtain ⟨s', hw, -⟩ := tree_of_dict? he
    rw [hv, hw]
    exact hopen
  · intro b c _ hb hc
    rw [tree_of_closed hb, tree_of_closed hc]
    rfl

/-- Twins are the same. -/
theorem same (h : v.Twins w) : v.same w = true := by
  refine h.induction (P := fun v w => v.same w = true) ?_ ?_ ?_ ?_ ?_ ?_
  · intro a
    rw [Value.same, tree_atom, Tree.same]
    exact decide_eq_true rfl
  · exact same_saved
  · intro items items' hitems
    rw [Value.same, tree_list, tree_list, Tree.same, sameItems_iff, List.forall₂_map_left_iff, List.forall₂_map_right_iff]
    exact hitems
  · intro d e hd _ hentries
    rw [Value.same, tree_dict, tree_dict, Tree.same]
    exact hentries.sameAs hd
  · intro v w d e hblock hd he hopen
    obtain ⟨s, hv, hs, hb⟩ := tree_of_dict? hd
    obtain ⟨s', hw, hs', hc⟩ := tree_of_dict? he
    rw [Value.same, hv, hw, Tree.same]
    cases s with
    | payload p => exact absurd rfl (hs p)
    | plain =>
      cases s' with
      | payload p => exact absurd rfl (hs' p)
      | _ => exact hopen
    | block b =>
      cases s' with
      | payload p => exact absurd rfl (hs' p)
      | plain => exact hopen
      | block c =>
        have hbytes : b.bytes = c.bytes := Option.some.inj ((hb b rfl).symm.trans (hblock.trans (hc c rfl)))
        rw [Source.same?, if_pos hbytes]
        rfl
  · intro b c hbytes _ _
    obtain ⟨place, bs⟩ := b
    obtain ⟨place', bs'⟩ := c
    cases hbytes
    exact same_block place place' bs

end Twins
end Value
end AssetPack
