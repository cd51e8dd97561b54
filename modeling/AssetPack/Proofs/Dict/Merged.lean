import Mathlib
import AssetPack.Proofs.Value.Sameness
import AssetPack.Tree.Merge

/-!
# Laws of merging

One dictionary set over another has the names of both, the new ones last, and of a name in both the entry that is set
over the other. Or, in a deep merge, what the two dictionaries under the name make. So plain merging is associative and
has an identity, and a dictionary that is merged over itself stays the same.
-/
namespace AssetPack

/-! ## Entries over entries -/

namespace Dict
section
variable {α : Type} {blend : α → α → α} {d e f m : Dict α}

/-- `m` has the names of `d` in their order and behind them the new ones of `e` in theirs. A name in one of the two has
the entry that it has there, and a name in both has what `blend` makes of its two entries. -/
structure MergedBy (blend : α → α → α) (d e m : Dict α) : Prop where
  names : m.names = d.names ++ e.names.filter (· ∉ d.names)
  mine : ∀ name a, d.get? name = some a → name ∉ e.names → m.get? name = some a
  theirs : ∀ name b, e.get? name = some b → name ∉ d.names → m.get? name = some b
  both : ∀ name a b, d.get? name = some a → e.get? name = some b → m.get? name = some (blend a b)

/-- The entries of `e` set over those of `d`, each after `blend` has put it over the one in its place. -/
def mergeWith (blend : α → α → α) (d e : Dict α) : Dict α :=
  d.merge (e.mapEntries fun name b => (d.get? name).elim b fun a => blend a b)

theorem mergedBy_mergeWith (he : e.Distinct) : MergedBy blend d e (d.mergeWith blend e) := by
  have hdistinct : (e.mapEntries fun name b => (d.get? name).elim b fun a => blend a b).Distinct := by
    rwa [Distinct, names_mapEntries]
  have hget (name : String) : (d.mergeWith blend e).get? name =
      ((e.get? name).map fun b => (d.get? name).elim b fun a => blend a b).or (d.get? name) := by
    rw [mergeWith, get?_merge d hdistinct, get?_mapEntries]
  refine ⟨?_, fun name a ha hb => ?_, fun name b hb ha => ?_, fun name a b ha hb => ?_⟩
  · rw [mergeWith, names_merge d hdistinct, names_mapEntries]
  · rw [hget, get?_eq_none_iff.mpr hb, ha]
    rfl
  · rw [hget, get?_eq_none_iff.mpr ha, hb]
    rfl
  · rw [hget, ha, hb]
    rfl

theorem mergeWith_second (d e : Dict α) : d.mergeWith (fun _ b => b) e = d.merge e := by
  have hsecond (name : String) (b : α) : ((d.get? name).elim b fun _ => b) = b := by cases d.get? name <;> rfl
  rw [mergeWith, mapEntries]
  simp only [hsecond, List.map_id']

theorem mergedBy_merge (d : Dict α) (he : e.Distinct) : MergedBy (fun _ b => b) d e (d.merge e) :=
  mergeWith_second d e ▸ mergedBy_mergeWith he

theorem merge_assoc (hd : d.Distinct) (he : e.Distinct) (hf : f.Distinct) :
    (d.merge e).merge f = d.merge (e.merge f) := by
  have hef := distinct_merge he f
  refine eq_of_get? (distinct_merge (distinct_merge hd e) f) (distinct_merge hd _) ?_ fun name _ => ?_
  · rw [names_merge _ hf, names_merge _ he, names_merge _ hef, names_merge _ hf, List.filter_append, List.append_assoc,
      List.filter_filter]
    congr 2
    refine List.filter_congr fun name _ => ?_
    -- a name of `f` is new to both just if it is new to `d`, and to those of `e` that are
    by_cases hname : name ∈ d.names <;> simp [hname]
  · rw [get?_merge _ hf, get?_merge _ he, get?_merge _ hef, get?_merge _ hf, Option.or_assoc]

theorem empty_merge (hd : d.Distinct) : (∅ : Dict α).merge d = d := ofList_of_nodup hd

theorem MergedBy.names_self (h : MergedBy blend d d m) : m.names = d.names := by
  have hnew : d.names.filter (· ∉ d.names) = [] := List.filter_eq_nil_iff.mpr fun name hname => by simp [hname]
  rw [h.names, hnew, List.append_nil]

theorem merge_self (hd : d.Distinct) : d.merge d = d := by
  refine eq_of_get? (distinct_merge hd d) hd (mergedBy_merge d hd).names_self fun name _ => ?_
  rw [get?_merge d hd, Option.or_self]

end
end Dict

/-! ## Deep merges -/

/-- The entries of a dictionary that is open or a block that opens. -/
def Tree.entries? : Tree → Option (Dict Tree)
  | .dict (.payload _) _ => none
  | .dict _ d => some d
  | _ => none

theorem Value.entries?_tree (v : Value) : v.tree.entries? = v.dict?.map Dict.tree := by
  cases v with
  | block b =>
    rw [tree_block, dict?]
    cases b.load <;> rfl
  | saved p => rcases tree_saved_cases p with h | h | ⟨d, h⟩ <;> rw [h] <;> rfl
  | _ => rfl

theorem Tree.mergeOver_eq (t : Tree) (mine : Option Tree) : t.mergeOver mine =
    match mine.bind entries?, t.entries? with
    | some e, some d => .dict .plain (Dict.mergeOver e d)
    | _, _ => t := by
  cases t with
  | dict s d =>
    cases mine with
    | none => cases s <;> rfl
    | some u =>
      cases u with
      | dict s' e => cases s <;> cases s' <;> rfl
      | _ => cases s <;> rfl
  | _ => cases mine.bind entries? <;> rfl

theorem Dict.mergeOver_eq (mine : Dict Tree) {d : Dict Tree} (hd : d.Distinct) : mine.mergeOver d =
    mine.setAll (d.entries.map fun entry => (entry.1, entry.2.mergeOver (mine.get? entry.1))) := by
  obtain ⟨entries⟩ := d
  rw [mergeOver]
  induction entries generalizing mine with
  | nil => rfl
  | cons entry rest ih =>
    obtain ⟨name, t⟩ := entry
    obtain ⟨hnew, hrest⟩ := List.nodup_cons.mp hd
    -- what is set first does not stand under the names of the rest
    have hmine : rest.map (fun entry => (entry.1, entry.2.mergeOver
        ((mine.set name (t.mergeOver (mine.get? name))).get? entry.1))) =
        rest.map fun entry => (entry.1, entry.2.mergeOver (mine.get? entry.1)) := by
      refine List.map_congr_left fun entry hentry => ?_
      have hne : entry.1 ≠ name := by
        rintro rfl
        exact hnew (List.mem_map_of_mem (f := (·.1)) hentry)
      rw [Dict.get?_set, if_neg hne]
    rw [mergeEntries, ih _ hrest, hmine]
    rfl

/-- `w` in the place of `v`: the deep merge of the two if both are dictionaries that open, and else `w`. -/
def Value.deepOver (v w : Value) : Value :=
  match v.dict?, w.dict? with
  | some d, some e => .dict (d.mergeDeep e)
  | _, _ => w

theorem Value.value_mergeOver (mine : Option Value) (w : Value) :
    (w.tree.mergeOver (mine.map tree)).value = mine.elim w (·.deepOver w) := by
  rw [Tree.mergeOver_eq, entries?_tree]
  cases mine with
  | none => exact w.value_tree
  | some v =>
    rw [Option.map_some, Option.bind_some, entries?_tree, Option.elim_some, deepOver]
    cases v.dict? with
    | none => exact w.value_tree
    | some d =>
      cases w.dict? with
      | none => exact w.value_tree
      | some e => rfl

namespace Dict
variable {e : Dict Value}

theorem mergeDeep_eq (he : e.Distinct) (d : Dict Value) : d.mergeDeep e = d.mergeWith Value.deepOver e := by
  have hnames : e.tree.Distinct := by
    rwa [tree_eq, Distinct, names_map]
  have hvalue : d.tree.map Tree.value = d := by
    rw [tree_eq, map, map, List.map_map]
    have hentry (entry : String × Value) : (entry.1, entry.2.tree.value) = entry := by rw [Value.value_tree]
    exact congrArg mk ((List.map_congr_left fun entry _ => hentry entry).trans (List.map_id _))
  rw [mergeDeep, value_eq, mergeOver_eq _ hnames, map_setAll, hvalue, List.map_map, mergeWith, merge]
  have htree : e.tree.entries = e.entries.map fun entry => (entry.1, entry.2.tree) := by
    rw [tree_eq]
    rfl
  congr 1
  rw [htree, List.map_map, mapEntries]
  refine List.map_congr_left fun entry _ => Prod.ext rfl ?_
  rw [← Value.value_mergeOver, ← get?_map, ← tree_eq]
  rfl

theorem mergedBy_mergeDeep (d : Dict Value) (he : e.Distinct) : MergedBy Value.deepOver d e (d.mergeDeep e) :=
  mergeDeep_eq he d ▸ mergedBy_mergeWith he

end Dict

theorem Value.deepOver_of_closed {v : Value} (h : v.dict? = none) (w : Value) : v.deepOver w = w := by
  rw [deepOver, h]

/-- A dictionary stays the same when it is merged over itself, and so do the dictionaries inside. -/
theorem Value.same_deepOver_self {v : Value} (h : v.Distinct) : (v.deepOver v).same v = true := by
  induction v using induction_opened with
  | dict d ih =>
    obtain ⟨hd, hentries⟩ := (each_dict d).mp h
    have hmerged := Dict.mergedBy_mergeDeep d hd
    refine same_dict_iff.mpr ⟨d, rfl, Dict.Reordered.sameAs (.of_get? ?_ hd fun name => ?_)⟩
    · rwa [Dict.Distinct, hmerged.names_self]
    · cases hget : d.get? name with
      | none =>
        rw [Dict.get?_eq_none_iff, ← hmerged.names_self, ← Dict.get?_eq_none_iff] at hget
        rw [hget]
        exact .none
      | some v =>
        rw [hmerged.both name v v hget hget]
        have hmem := Dict.mem_of_get? hget
        exact .some (ih _ hmem (hentries _ hmem))
  | block b ih =>
    cases hload : b.load with
    | ok d =>
      have hopened := dict?_block_iff.mpr hload
      have hdeep : (block b).deepOver (.block b) = .dict (d.mergeDeep d) := by rw [deepOver, hopened]
      obtain ⟨e, he, hsame⟩ := same_dict_iff.mp (ih d hload (Block.distinct_of_load hload))
      obtain rfl : d = e := Option.some.inj he
      rw [hdeep]
      exact same_dict_iff.mpr ⟨d, hopened, hsame⟩
    | error f =>
      rw [deepOver_of_closed (dict?_of_closed hload)]
      exact same_self h
  | _ =>
    rw [deepOver_of_closed rfl]
    exact same_self h

namespace Dict
variable {a b c : Dict Value}

/-- A merge has the names of both dictionaries, the new ones last. What only one has is kept. Of a name in both the
entry is that of the second one or, in a deep merge of two dictionaries that open, their deep merge. Plain merges are
associative with the empty dictionary as identity, and a dictionary stays the same when it is merged over itself. -/
theorem merge_laws (ha : (Value.dict a).Distinct) (hb : b.Distinct) (hc : c.Distinct) :
    MergedBy (fun _ w => w) a b (a.merge b) ∧ MergedBy Value.deepOver a b (a.mergeDeep b) ∧
      (a.merge b).merge c = a.merge (b.merge c) ∧ (∅ : Dict Value).merge a = a ∧ a.merge ∅ = a ∧
      (a.merge a).sameAs a = true ∧ (a.mergeDeep a).sameAs a = true := by
  have hself : (a.merge a).sameAs a = true := by
    rw [merge_self ha.here]
    exact sameAs_self ha
  exact ⟨mergedBy_merge a hb, mergedBy_mergeDeep a hb, merge_assoc ha.here hb hc, empty_merge ha.here, rfl, hself,
    Value.same_deepOver_self ha⟩

/-- A number in front of a dictionary in a block. -/
def packedBehind : Dict Value :=
  ⟨[("k", .int 1), ("child", .block ⟨5, (⟨[("x", .int 1), ("y", .int 2)]⟩ : Dict Value).encode⟩)]⟩

/-- A dictionary with one name more in front of a number. -/
def openAhead : Dict Value := ⟨[("child", .dict ⟨[("y", .int 3), ("z", .int 4)]⟩), ("k", .int 2)]⟩

theorem merge_laws_packedBehind : (Value.dict packedBehind).Distinct ∧ openAhead.Distinct ∧
    (MergedBy (fun _ w => w) packedBehind openAhead (packedBehind.merge openAhead) ∧
      MergedBy Value.deepOver packedBehind openAhead (packedBehind.mergeDeep openAhead) ∧
      (packedBehind.merge openAhead).merge packedBehind = packedBehind.merge (openAhead.merge packedBehind) ∧
      (∅ : Dict Value).merge packedBehind = packedBehind ∧ packedBehind.merge ∅ = packedBehind ∧
      (packedBehind.merge packedBehind).sameAs packedBehind = true ∧
      (packedBehind.mergeDeep packedBehind).sameAs packedBehind = true) ∧
    packedBehind.mergeDeep openAhead =
      ⟨[("k", .int 2), ("child", .dict ⟨[("x", .int 1), ("y", .int 3), ("z", .int 4)]⟩)]⟩ := by
  have ha : (Value.dict packedBehind).Distinct := by simp [Value.Distinct, packedBehind, Distinct, names]
  have hb : openAhead.Distinct := by decide
  exact ⟨ha, hb, merge_laws ha hb ha.here, by cbv⟩

end Dict
end AssetPack
