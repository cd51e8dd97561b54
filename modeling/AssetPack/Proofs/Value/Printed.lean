import Mathlib
import AssetPack.Json.Write
import AssetPack.Proofs.Json.Canonical
import AssetPack.Proofs.Tree.Alike
import AssetPack.Proofs.Value.Sameness
import AssetPack.Tree.Show

/-!
# Printed forms

What is printed of a tree shows the names of entries in order, whatever their order in the dictionary, and shows a
dictionary by what it opens to, whatever form it is found in. So values that are the same are printed the same.
-/
namespace AssetPack

/-- The form is no payload: what it opens to is shown in its place. -/
def Source.Shown (s : Source) : Prop := ∀ p, s ≠ .payload p

/-- What `f` makes of a tree comes from what it makes of the trees inside. It does not show whether a dictionary was
open or a block, nor the order of its entries, nor which of the blocks it was that did not open. -/
structure Tree.Uniform {γ : Type} (f : Tree → γ) : Prop where
  list : ∀ ts us, ts.map f = us.map f → f (.list ts) = f (.list us)
  dict : ∀ s s' d e, s.Shown → s'.Shown → (d.map f).Reordered Eq (e.map f) → f (.dict s d) = f (.dict s' e)
  broken : ∀ b c, f (.broken (.block b)) = f (.broken (.block c))

/-! ## The same of the same values -/

theorem Dict.Reordered.map_tree {γ : Type} {f : Tree → γ} {d e : Dict Value}
    (h : d.Reordered (fun v w => f v.tree = f w.tree) e) : (d.tree.map f).Reordered Eq (e.tree.map f) := by
  have hmap (d : Dict Value) : d.tree.map f = d.map fun v => f v.tree := by
    rw [Dict.tree_eq, Dict.map, Dict.map, Dict.map, List.map_map]
    rfl
  rw [hmap, hmap]
  exact Dict.reordered_map_iff.mpr h

namespace Tree.Uniform
variable {γ : Type} {f : Tree → γ} {v w : Value} {d e : Dict Value}

theorem dict? (hf : Uniform f) (hd : v.dict? = some d) (he : w.dict? = some e)
    (h : d.Reordered (fun v w => f v.tree = f w.tree) e) : f v.tree = f w.tree := by
  obtain ⟨s, hv, hs, -⟩ := Value.tree_of_dict? hd
  obtain ⟨s', hw, hs', -⟩ := Value.tree_of_dict? he
  rw [hv, hw]
  exact hf.dict s s' d.tree e.tree hs hs' h.map_tree

theorem eq_of_same (hf : Uniform f) (hv : v.Distinct) (hw : w.Distinct) (h : v.same w = true) :
    f v.tree = f w.tree := by
  induction v using Value.induction_opened generalizing w with
  | atom a => rw [Value.same_atom_iff.mp h]
  | list items ih =>
    obtain ⟨items', rfl, hitems⟩ := Value.same_list_iff.mp h
    have hdistinct := ((Value.each_list items).mp hv).2
    have hdistinct' := ((Value.each_list items').mp hw).2
    rw [Value.tree_list, Value.tree_list]
    refine hf.list _ _ ?_
    rw [List.map_map, List.map_map, ← List.forall₂_eq_eq_eq, List.forall₂_map_left_iff, List.forall₂_map_right_iff]
    refine (forall₂_and hitems (fun _ => id) fun _ => id).imp fun v w ⟨hsame, hmem, hmem'⟩ => ?_
    exact ih v hmem (hdistinct v hmem) (hdistinct' w hmem') hsame
  | dict d ih =>
    obtain ⟨e, he, hsame⟩ := Value.same_dict_iff.mp h
    obtain ⟨hd, hentries⟩ := (Value.each_dict d).mp hv
    obtain ⟨he', hentries'⟩ := (Value.each_dict e).mp (hw.dict? he)
    have hreordered := (Dict.sameAs_iff hd he').mp hsame
    refine hf.dict? (v := .dict d) rfl he ⟨hd, he', hreordered.names, fun name v w hv hw => ?_⟩
    exact ih _ (Dict.mem_of_get? hv) (hentries _ (Dict.mem_of_get? hv)) (hentries' _ (Dict.mem_of_get? hw))
      (hreordered.entries name v w hv hw)
  | block b ih =>
    cases hload : b.load with
    | ok d =>
      -- the block is the same as what it opens to, and is printed as that
      have hd := Block.distinct_of_load hload
      have hsame : (Value.dict d).same w = true := by
        rw [Value.same_iff_normal_eq hd hw, ← Value.normal_of_load hload]
        exact (Value.same_iff_normal_eq hv hw).mp h
      have hself := hf.dict? (Value.dict?_block_iff.mpr hload) (w := .dict d) rfl (.refl hd.here fun _ _ => rfl)
      rw [hself]
      exact ih d hload hd hw hsame
    | error fault =>
      obtain ⟨c, rfl, hbytes⟩ := (Value.same_of_closed hload).mp h
      have hclosed : b.load.toOption = none := by rw [hload]; rfl
      have hclosed' : c.load.toOption = none := by
        have hok := Block.isOk_congr hbytes
        cases hc : c.load with
        | error fault' => rfl
        | ok d =>
          rw [hload, hc] at hok
          cases hok
      rw [Value.tree_of_closed hclosed, Value.tree_of_closed hclosed']
      exact hf.broken b c
  | saved p => rw [Value.same_saved_iff.mp h]

end Tree.Uniform

/-! ## What is printed -/

theorem Dict.Reordered.mapEntries {α β : Type} {d e : Dict α} (h : d.Reordered Eq e) (f : String → α → β) :
    (d.mapEntries f).Reordered Eq (e.mapEntries f) := by
  refine .of_get? ?_ ?_ fun name => ?_
  · rw [Dict.Distinct, Dict.names_mapEntries]
    exact h.distinct
  · rw [Dict.Distinct, Dict.names_mapEntries]
    exact h.distinct'
  · rw [Dict.get?_mapEntries, Dict.get?_mapEntries]
    rcases rel_cases (h.get? name) with ⟨ha, hb⟩ | ⟨a, b, ha, hb, rfl⟩
    · rw [ha, hb]
      exact .none
    · rw [ha, hb]
      exact .some rfl

theorem uniform_json : Tree.Uniform Tree.json where
  list ts us h := by rw [Tree.json, Tree.json, jsonItems_eq, jsonItems_eq, h]
  dict s s' d e _ _ h := by rw [Tree.json, Tree.json, Dict.json_eq, Dict.json_eq, h.sorted]
  broken _ _ := rfl

theorem brief_shown {s : Source} (hs : s.Shown) (size : String) : s.brief size = "<dict[" ++ size ++ "]>" := by
  cases s with
  | payload p => exact absurd rfl (hs p)
  | _ => rfl

theorem uniform_brief : Tree.Uniform Tree.brief where
  list ts us h := by
    have hlength := congrArg List.length h
    rw [List.length_map, List.length_map] at hlength
    rw [Tree.brief, Tree.brief, hlength]
  dict s s' d e hs hs' h := by
    have hsize := h.size_eq
    rw [Dict.size_map, Dict.size_map] at hsize
    rw [Tree.brief, Tree.brief, brief_shown hs, brief_shown hs', hsize]
  broken _ _ := rfl

/-- The lines of a tree, under any name and on any level. -/
def Tree.lines (t : Tree) (name : String) (level : Nat) : String := t.print name level

theorem printItems_congr {ts us : List Tree} (h : ts.map Tree.lines = us.map Tree.lines) (level index : Nat) :
    printItems level index ts = printItems level index us := by
  induction ts generalizing us index with
  | nil =>
    obtain rfl := List.map_eq_nil_iff.mp h.symm
    rfl
  | cons t ts ih =>
    cases us with
    | nil => cases h
    | cons u us =>
      obtain ⟨hfirst, hrest⟩ := List.cons_eq_cons.mp h
      have hlines : t.print s!"[{index}]" level = u.print s!"[{index}]" level := congrFun (congrFun hfirst _) _
      rw [printItems, printItems, hlines, ih hrest]

theorem Dict.print_eq (d : Dict Tree) (level : Nat) : d.print level =
    String.join (((d.map Tree.lines).mapEntries fun name lines => lines name level).sorted.map (·.2)) := by
  have h (entries : List (String × Tree)) :
      printEntries level entries = entries.map fun entry => (entry.1, entry.2.print entry.1 level) := by
    induction entries with
    | nil => rfl
    | cons entry rest ih => rw [printEntries, ih, List.map_cons]
  obtain ⟨entries⟩ := d
  rw [Dict.print, h, Dict.map, Dict.mapEntries, List.map_map]
  rfl

theorem Dict.print_of_reordered {d e : Dict Tree} (h : (d.map Tree.lines).Reordered Eq (e.map Tree.lines))
    (level : Nat) : d.print level = e.print level := by
  rw [Dict.print_eq, Dict.print_eq, (h.mapEntries _).sorted]

theorem lines_shown {s : Source} (hs : s.Shown) (d : Dict Tree) (name : String) (level : Nat) :
    (Tree.dict s d).lines name level = Tree.line name level (.dict s d) ++ d.print (level + 1) := by
  cases s with
  | payload p => exact absurd rfl (hs p)
  | _ => rfl

theorem uniform_lines : Tree.Uniform Tree.lines where
  list ts us h := by
    have hlength := congrArg List.length h
    rw [List.length_map, List.length_map] at hlength
    funext name level
    rw [Tree.lines, Tree.lines, Tree.print, Tree.print, printItems_congr h, Tree.line, Tree.line, Tree.brief,
      Tree.brief, hlength]
  dict s s' d e hs hs' h := by
    have hsize := h.size_eq
    rw [Dict.size_map, Dict.size_map] at hsize
    funext name level
    rw [lines_shown hs, lines_shown hs', Dict.print_of_reordered h, Tree.line, Tree.line, Tree.brief, Tree.brief,
      brief_shown hs, brief_shown hs', hsize]
  broken _ _ := rfl

namespace Dict
variable {d e : Dict Value}

/-- Under each name the same is shown. -/
theorem reordered_of_sameAs {γ : Type} {f : Tree → γ} (hf : Tree.Uniform f) (hd : (Value.dict d).Distinct)
    (he : (Value.dict e).Distinct) (h : d.sameAs e = true) : d.Reordered (fun v w => f v.tree = f w.tree) e := by
  obtain ⟨hnames, hentries⟩ := (Value.each_dict d).mp hd
  obtain ⟨hnames', hentries'⟩ := (Value.each_dict e).mp he
  have hsame := (sameAs_iff hnames hnames').mp h
  refine ⟨hnames, hnames', hsame.names, fun name v w hv hw => ?_⟩
  exact hf.eq_of_same (hentries _ (mem_of_get? hv)) (hentries' _ (mem_of_get? hw)) (hsame.entries name v w hv hw)

/-- A block that opens in front of a list with one that does not. -/
def aheadClosed : Dict Value :=
  ⟨[("b", .block ⟨5, Value.numberAndClosed.encode⟩), ("a", .list [.int 1, .block ⟨3, [7]⟩])]⟩

/-- The same the other way round, with the first block open. -/
def behindOpened : Dict Value := ⟨[("a", .list [.int 1, .block ⟨0, [7]⟩]),
  ("b", .dict ⟨[("y", .block ⟨41, [7]⟩), ("x", .double ⟨0x7FF8000000000001⟩)]⟩)]⟩

end Dict
end AssetPack
