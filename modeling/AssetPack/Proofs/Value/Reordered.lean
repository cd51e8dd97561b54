import AssetPack.Proofs.Description.Closed
import AssetPack.Proofs.Dict.Reordered
import AssetPack.Proofs.Tree.Alike
import AssetPack.Proofs.Tree.Stored
import AssetPack.Proofs.Value.Revealed

/-!
# Values up to the order of entries

Two values that are the same but for the order in which the entries of their dictionaries stand, at every depth. What
a pack keeps as a payload is compared as the dictionary that it was made from, where that is asked for. What is looked
up, put over each other or left out in both is again the same but for such an order.
-/
namespace AssetPack

/-- The same but for the order of entries; where `packed` holds, also in payloads that dictionaries were put into. -/
inductive Value.Reordered (packed : Prop) : Value → Value → Prop
  | atom (a : Atom) : Reordered packed (.atom a) (.atom a)
  | list {vs ws : List Value} : List.Forall₂ (Reordered packed) vs ws → Reordered packed (.list vs) (.list ws)
  | entries {d e : Dict Value} : d.Distinct → e.Distinct → (∀ name, name ∈ d.names ↔ name ∈ e.names) →
      (∀ name v w, d.get? name = some v → e.get? name = some w → Reordered packed v w) →
        Reordered packed (.dict d) (.dict e)
  | block (b : Block) : Reordered packed (.block b) (.block b)
  | saved (p : Payload) : Reordered packed (.saved p) (.saved p)
  | encoded {d e : Dict Value} : packed → Reordered packed (.dict d) (.dict e) →
      Reordered packed (.saved (.ofBytes .dict d.encode true)) (.saved (.ofBytes .dict e.encode true))

namespace Value
variable {packed : Prop} {v w : Value} {d d' e e' : Dict Value}

theorem reordered_dict_iff : (dict d).Reordered packed (.dict e) ↔ d.Reordered (Value.Reordered packed) e := by
  constructor
  · intro h
    cases h with
    | entries hd he hnames hentries => exact ⟨hd, he, hnames, hentries⟩
  · exact fun h => .entries h.distinct h.distinct' h.names h.entries

namespace Reordered

protected theorem dict (h : d.Reordered (Value.Reordered packed) e) : (dict d).Reordered packed (.dict e) :=
  reordered_dict_iff.mpr h

theorem refl (h : v.Distinct) : v.Reordered packed v := by
  induction v with
  | atom a => exact .atom a
  | list items ih => exact .list (List.forall₂_same.mpr fun v hv => ih v hv (distinct_list.mp h v hv))
  | dict d ih =>
    obtain ⟨hd, hentries⟩ := distinct_dict.mp h
    exact .dict (.refl hd fun entry hentry => ih entry hentry (hentries entry hentry))
  | block b => exact .block b
  | saved p => exact .saved p

/-- An optional value without a name that stands twice. -/
theorem rel_refl {v : Option Value} (h : ∀ w, v = some w → w.Distinct) :
    Option.Rel (Value.Reordered packed) v v := by
  cases v with
  | none => exact .none
  | some w => exact .some (refl (h w rfl))

/-- What is the same but for the order in plain view is so in payloads as well. -/
theorem mono (h : v.Reordered False w) : v.Reordered packed w := by
  induction v generalizing w with
  | list items ih =>
    cases h with
    | list hitems =>
      refine .list ((forall₂_and hitems (fun v hv => hv) fun _ hw => hw).imp fun v w hvw => ih v hvw.2.1 hvw.1)
  | dict d ih =>
    cases h with
    | entries hd he hnames hentries =>
      exact .entries hd he hnames fun name v w hv hw => ih _ (Dict.mem_of_get? hv) (hentries name v w hv hw)
  | atom a =>
    cases h
    exact .atom a
  | block b =>
    cases h
    exact .block b
  | saved p =>
    cases h with
    | saved => exact .saved p
    | encoded hpacked => exact hpacked.elim

/-- No name stands twice in either. -/
theorem distinct (h : v.Reordered packed w) : v.Distinct := by
  induction v generalizing w with
  | atom a => exact (each_atom a).mpr trivial
  | list items ih =>
    cases h with
    | list hitems =>
      refine distinct_list.mpr fun v hv => ?_
      obtain ⟨_, _, hvw⟩ := (Reordered.of_forall₂ hitems).exists_of_mem hv
      exact ih v hv hvw
  | dict d ih =>
    cases h with
    | entries hd he hnames hentries =>
      refine distinct_dict.mpr ⟨hd, fun entry hentry => ?_⟩
      obtain ⟨w, hw⟩ := Dict.exists_get? ((hnames entry.1).mp (List.mem_map_of_mem hentry))
      exact ih entry hentry (hentries entry.1 entry.2 w (Dict.get?_of_mem hd hentry) hw)
  | block b => exact (each_block b).mpr trivial
  | saved p => exact (each_saved p).mpr trivial

theorem symm (h : v.Reordered packed w) : w.Reordered packed v :=
  @Reordered.rec packed (fun v w _ => w.Reordered packed v) (fun vs ws _ => List.Forall₂ (Reordered packed) ws vs)
    .atom (fun _ hitems => .list hitems)
    (fun hd he hnames _ hentries =>
      .entries he hd (fun name => (hnames name).symm) fun name w v hw hv => hentries name v w hv hw)
    .block .saved (fun hpacked _ h => .encoded hpacked h) .nil (fun _ _ hvw hrest => .cons hvw hrest) v w h

theorem get? (h : (dict d).Reordered packed (.dict e)) (name : String) :
    Option.Rel (Value.Reordered packed) (d.get? name) (e.get? name) := (reordered_dict_iff.mp h).get? name

theorem set (h : (dict d).Reordered packed (.dict e)) (hvw : v.Reordered packed w) (name : String) :
    (dict (d.set name v)).Reordered packed (.dict (e.set name w)) := .dict ((reordered_dict_iff.mp h).set hvw name)

theorem filter (h : (dict d).Reordered packed (.dict e)) (p : String → Bool) :
    (dict ⟨d.entries.filter fun entry => p entry.1⟩).Reordered packed
      (.dict ⟨e.entries.filter fun entry => p entry.1⟩) := .dict ((reordered_dict_iff.mp h).filter p)

theorem erase (h : (dict d).Reordered packed (.dict e)) (key : String) :
    (dict (d.erase key)).Reordered packed (.dict (e.erase key)) := h.filter (· ≠ key)

theorem merge (h : (dict d).Reordered packed (.dict e)) (h' : (dict d').Reordered packed (.dict e')) :
    (dict (d.merge d')).Reordered packed (.dict (e.merge e')) :=
  .dict ((reordered_dict_iff.mp h).merge (reordered_dict_iff.mp h'))

theorem empty : (dict ∅).Reordered packed (.dict ∅) := .dict (.empty _)

theorem contains (h : (dict d).Reordered packed (.dict e)) (name : String) : e.contains name = d.contains name :=
  (reordered_dict_iff.mp h).contains name

theorem isEmpty (h : (dict d).Reordered packed (.dict e)) : e.isEmpty = d.isEmpty := (reordered_dict_iff.mp h).isEmpty

/-- A dictionary whose entries were only put in another order. -/
theorem of_perm (hd : (dict d).Distinct) (h : d.entries.Perm e.entries) : (dict d).Reordered packed (.dict e) := by
  have hnames : d.names.Perm e.names := h.map Prod.fst
  refine .dict (.of_reordered_entries hd.here (hnames.nodup_iff.mp hd.here) (.of_perm h fun entry hentry => ⟨rfl, ?_⟩))
  exact refl ((distinct_dict.mp hd).2 entry (h.mem_iff.mpr hentry))

/-- As texts and truth values the two are the same. -/
theorem shows (h : v.Reordered packed w) :
    v.string? = w.string? ∧ v.as? .string = w.as? .string ∧ v.as? .bool = w.as? .bool := by
  cases h <;> exact ⟨rfl, rfl, rfl⟩

/-! ## Looking into values -/

theorem dict? (h : v.Reordered packed w) :
    Option.Rel (fun d e => (dict d).Reordered packed (.dict e)) v.dict? w.dict? := by
  cases h with
  | entries hd he hnames hentries => exact .some (.entries hd he hnames hentries)
  | block b =>
    cases hb : (Value.block b).dict? with
    | none => exact .none
    | some d => exact .some (refl (closed_distinct.dict? (v := .block b) ((each_block b).mpr trivial) hb))
  | _ => exact .none

theorem dictValue? (h : v.Reordered False w) :
    Option.Rel (Value.Reordered False) v.dictValue? w.dictValue? := by
  cases h with
  | atom a => exact .none
  | list _ => exact .none
  | entries hd he hnames hentries => exact .some (.entries hd he hnames hentries)
  | block b => exact .some (.block b)
  | saved p => exact rel_refl fun _ hw => closed_distinct.dictValue? (v := .saved p) ((each_saved p).mpr trivial) hw
  | encoded hpacked => exact hpacked.elim

theorem opened (h : v.Reordered False w) :
    Option.Rel (fun d e => (dict d).Reordered False (.dict e)) (v.dictValue?.bind Value.dict?)
      (w.dictValue?.bind Value.dict?) := by
  have hrel := h.dictValue?
  generalize v.dictValue? = x at hrel
  generalize w.dictValue? = y at hrel
  cases hrel with
  | none => exact .none
  | some h => exact h.dict?

theorem step? (h : v.Reordered False w) (step : Step) :
    Option.Rel (Value.Reordered False) (Selector.step? v step) (Selector.step? w step) := by
  cases step with
  | name name =>
    rw [Selector.step?, Selector.step?]
    split
    · exact h.dictValue?
    · have hopened := h.opened
      rw [← Option.bind_assoc, ← Option.bind_assoc]
      generalize v.dictValue?.bind Value.dict? = x at hopened
      generalize w.dictValue?.bind Value.dict? = y at hopened
      cases hopened with
      | none => exact .none
      | some h => exact h.get? name
  | index n =>
    cases h with
    | list h =>
      rw [Selector.step?, Selector.step?, item?, item?]
      simp only [list?, Option.bind_some]
      induction h generalizing n with
      | nil => exact .none
      | cons hvw _ ih =>
        cases n with
        | zero => exact .some hvw
        | succ n => exact ih n
    | encoded hpacked => exact hpacked.elim
    | _ => exact .none

theorem follow? (h : v.Reordered False w) (steps : List Step) :
    Option.Rel (Value.Reordered False) (Selector.follow? v steps) (Selector.follow? w steps) := by
  induction steps generalizing v w with
  | nil => exact .some h
  | cons step steps ih =>
    have hstep := h.step? step
    rw [Selector.follow?, Selector.follow?, List.foldlM_cons, List.foldlM_cons]
    generalize Selector.step? v step = x at hstep
    generalize Selector.step? w step = y at hstep
    cases hstep with
    | none => exact .none
    | some h => exact ih h

/-- What a name or a selector leads to. -/
theorem find? (h : (dict d).Reordered False (.dict e)) (name : String) :
    Option.Rel (Value.Reordered False) (d.find? name) (e.find? name) := by
  rw [Dict.find?, Dict.find?]
  split
  · rw [Dict.selectText?, Dict.selectText?]
    cases Selector.parse? name with
    | none => exact .none
    | some steps =>
      cases steps with
      | nil => exact .none
      | cons step steps =>
        cases step with
        | index n => exact .none
        | name key =>
          rw [Option.bind_some, Option.bind_some, Dict.select?, Dict.select?]
          have hfirst : Option.Rel (Value.Reordered False) (if key = "" then some (.dict d) else d.get? key)
              (if key = "" then some (.dict e) else e.get? key) := by
            split
            · exact .some h
            · exact h.get? key
          generalize (if key = "" then some (.dict d) else d.get? key) = x at hfirst
          generalize (if key = "" then some (.dict e) else e.get? key) = y at hfirst
          cases hfirst with
          | none => exact .none
          | some h => exact h.follow? steps
  · exact h.get? name

/-! ## Sameness -/

/-- Where no payload holds a dictionary, values up to the order of their entries are the same. -/
theorem same (h : v.Reordered packed w) (hplain : ∀ p, (Value.saved p).Within v → p.content ≠ .dict) :
    v.same w = true := by
  induction v generalizing w with
  | atom a =>
    cases h
    exact decide_eq_true rfl
  | list items ih =>
    cases h with
    | @list _ ws hitems =>
      rw [Value.same, tree_list, tree_list, Tree.same, sameItems_iff, List.forall₂_map_left_iff,
        List.forall₂_map_right_iff]
      refine (forall₂_and hitems (fun v hv => hv) fun _ hw => hw).imp fun v w hvw => ?_
      exact ih v hvw.2.1 hvw.1 fun p hp => hplain p (.item hvw.2.1 hp)
  | dict d ih =>
    have hw : ∃ e, w = .dict e := by
      cases h with
      | entries _ _ _ _ => exact ⟨_, rfl⟩
    obtain ⟨e, rfl⟩ := hw
    have h := reordered_dict_iff.mp h
    have hsize : d.tree.size = e.tree.size := by
      have hlength := h.perm_names.length_eq
      rw [Dict.names, Dict.names, List.length_map, List.length_map] at hlength
      rw [Dict.tree_eq, Dict.tree_eq, Dict.size, Dict.size, Dict.map, Dict.map, List.length_map, List.length_map,
        hlength]
    have hsame : d.tree.same e.tree = true := by
      refine Dict.same_iff.mpr ⟨hsize, fun entry hentry => ?_⟩
      rw [Dict.tree_eq, Dict.map] at hentry
      obtain ⟨⟨name, v⟩, hmem, rfl⟩ := List.mem_map.mp hentry
      have hrel := h.get? name
      rw [Dict.get?_of_mem h.distinct hmem] at hrel
      obtain ⟨w, hw, hvw⟩ := exists_of_rel hrel
      refine ⟨w.tree, ?_, ih _ hmem hvw fun p hp => hplain p (.entry hmem hp)⟩
      rw [Dict.tree_eq, Dict.get?_map, hw]
      rfl
    exact hsame
  | block b =>
    cases h
    rw [Value.same, tree_block]
    cases b.load <;> simp [Tree.same, Source.same?]
  | saved p =>
    have hcontent : p.content ≠ .dict := hplain p .self
    cases h with
    | saved =>
      rw [Value.same, tree_saved, if_neg hcontent]
      exact decide_eq_true rfl
    | encoded _ _ => exact absurd rfl hcontent

end Reordered
end Value

/-!
## The names that a value refers to

A value refers to the names that its items and entries refer to, and in whatever order these stand the names are the
same. Payloads refer to nothing.
-/

theorem mem_addName {names : List String} {name other : String} :
    other ∈ addName names name ↔ other ∈ names ∨ other = name := by
  rw [addName]
  split
  · rename_i hmem
    exact ⟨.inl, fun h => h.elim id fun heq => heq ▸ hmem⟩
  · rw [List.mem_append, List.mem_singleton]

/-- Steps that each add the names of a set add those of all. -/
theorem mem_foldl_add {α : Type} {step : List String → α → List String} {P : α → String → Prop} {as : List α}
    (h : ∀ a ∈ as, ∀ names name, name ∈ step names a ↔ name ∈ names ∨ P a name) (names : List String)
    (name : String) : name ∈ as.foldl step names ↔ name ∈ names ∨ ∃ a ∈ as, P a name := by
  induction as generalizing names with
  | nil => simp
  | cons a rest ih =>
    obtain ⟨ha, hrest⟩ := List.forall_mem_cons.mp h
    rw [List.foldl_cons, ih hrest, ha, or_assoc, List.exists_mem_cons_iff]

namespace Value

/-- What refers to nothing adds no name. -/
theorem mem_addRefs_of_eq {v : Value} (h : ∀ names, v.tree.addRefs names = names) (names : List String) (name : String) :
    name ∈ v.tree.addRefs names ↔ name ∈ names ∨ name ∈ v.refs := by
  rw [refs, h, h]
  simp

theorem addRefs_saved (p : Payload) (names : List String) : (saved p).tree.addRefs names = names := by
  rw [tree_saved]
  split
  · cases p.loadDict <;> rfl
  · rfl

theorem addRefs_list (items : List Value) (names : List String) :
    (list items).tree.addRefs names = items.foldl (fun names v => v.tree.addRefs names) names := by
  rw [tree_list, Tree.addRefs, addRefsItems_eq, List.foldl_map]

theorem addRefs_dict (d : Dict Value) (names : List String) :
    (dict d).tree.addRefs names = d.entries.foldl (fun names entry => entry.2.tree.addRefs names) names := by
  rw [tree_dict, Tree.addRefs_dict (by rintro _ ⟨⟩), Dict.addRefs_eq, Dict.tree_eq, Dict.map, List.foldl_map]

/-- A value adds the names that it refers to. -/
theorem mem_addRefs (v : Value) (names : List String) (name : String) :
    name ∈ v.tree.addRefs names ↔ name ∈ names ∨ name ∈ v.refs := by
  induction v using Value.induction_opened generalizing names name with
  | atom a =>
    cases a with
    | ref other =>
      have hrefs : (ref other).refs = addName [] other := rfl
      have hadd : (ref other).tree.addRefs names = addName names other := rfl
      rw [hrefs, hadd, mem_addName, mem_addName]
      simp
    | _ => exact mem_addRefs_of_eq (fun _ => rfl) names name
  | list items ih =>
    rw [refs, addRefs_list, addRefs_list, mem_foldl_add ih, mem_foldl_add ih]
    simp
  | dict d ih =>
    rw [refs, addRefs_dict, addRefs_dict, mem_foldl_add ih, mem_foldl_add ih]
    simp
  | block b ih =>
    cases hload : b.load with
    | ok d =>
      have hadd (names : List String) : (block b).tree.addRefs names = (dict d).tree.addRefs names := by
        rw [tree_block, hload, tree_dict, Tree.addRefs_dict (by rintro _ ⟨⟩), Tree.addRefs_dict (by rintro _ ⟨⟩)]
      rw [refs, hadd, hadd, ih d hload]
      rfl
    | error f =>
      refine mem_addRefs_of_eq (fun names => ?_) names name
      rw [tree_block, hload]
      rfl
  | saved p ih => exact mem_addRefs_of_eq (addRefs_saved p) names name

theorem mem_refs_list {items : List Value} {name : String} :
    name ∈ (list items).refs ↔ ∃ v ∈ items, name ∈ v.refs := by
  rw [refs, addRefs_list, mem_foldl_add fun v _ names name => mem_addRefs v names name]
  simp

theorem mem_refs_dict {d : Dict Value} {name : String} :
    name ∈ (dict d).refs ↔ ∃ entry ∈ d.entries, name ∈ entry.2.refs := by
  rw [refs, addRefs_dict, mem_foldl_add fun entry _ names name => mem_addRefs entry.2 names name]
  simp

/-- The order of entries does not matter to the names that are referred to. -/
theorem Reordered.mem_refs {packed : Prop} {v w : Value} (h : v.Reordered packed w) {name : String}
    (hname : name ∈ v.refs) : name ∈ w.refs := by
  induction v generalizing w with
  | atom a =>
    cases h
    exact hname
  | list items ih =>
    cases h with
    | list hitems =>
      obtain ⟨v, hv, hname⟩ := mem_refs_list.mp hname
      obtain ⟨w, hw, hvw⟩ := (AssetPack.Reordered.of_forall₂ hitems).exists_of_mem hv
      exact mem_refs_list.mpr ⟨w, hw, ih v hv hvw hname⟩
  | dict d ih =>
    have hentries : ∃ e, w = .dict e := by
      cases h with
      | entries => exact ⟨_, rfl⟩
    obtain ⟨e, rfl⟩ := hentries
    obtain ⟨entry, hentry, hname⟩ := mem_refs_dict.mp hname
    obtain ⟨other, hother, _, hvw⟩ := (reordered_dict_iff.mp h).reordered_entries.exists_of_mem hentry
    exact mem_refs_dict.mpr ⟨other, hother, ih entry hentry hvw hname⟩
  | block b =>
    cases h
    exact hname
  | saved p =>
    rw [refs, addRefs_saved] at hname
    cases hname

/-! ### What is referred to inside payloads -/

/-- What holds no reference refers to nothing, even if all in it is opened. -/
theorem addRefs_revealed_of_noRef {v : Value} (h : v.Opens) (hnone : ∀ name, ¬(ref name).Within v)
    (names : List String) : v.revealed.tree.addRefs names = names := by
  induction v using induction_opened generalizing names with
  | atom a =>
    cases a with
    | ref name => exact absurd .self (hnone name)
    | _ => rfl
  | list items ih =>
    have hopens := opens_list.mp h
    rw [revealed_list, addRefs_list, List.foldl_map]
    refine (List.foldl_ext _ (fun names _ => names) _ fun names v hv => ?_).trans (List.foldl_fixed items)
    exact ih v hv (hopens v hv) (fun name hname => hnone name (.item hv hname)) names
  | dict d ih =>
    have hopens := opens_dict.mp h
    rw [revealed_dict, addRefs_dict, Dict.map, List.foldl_map]
    refine (List.foldl_ext _ (fun names _ => names) _ fun names entry hentry => ?_).trans (List.foldl_fixed d.entries)
    exact ih entry hentry (hopens _ hentry) (fun name hname => hnone name (.entry hentry hname)) names
  | block b ih =>
    obtain ⟨d, hload, hopens⟩ := h.exists_load
    rw [revealed_of_load hload]
    exact ih d hload hopens (fun name hname => hnone name (.block hload hname)) names
  | saved p ih =>
    by_cases hp : p.content = .dict
    · obtain ⟨d, hload, hopens⟩ := h.exists_loadDict hp
      rw [revealed_of_loadDict hp hload]
      exact ih hp d hload hopens (fun name hname => hnone name (.saved hp hload hname)) names
    · rw [revealed_blob hp, addRefs_saved]

/-- No payload within the value holds a reference. -/
def HidesNoRef (v : Value) : Prop := v.Throughout fun u => ∀ p, u = .saved p → ∀ name, ¬(ref name).Within u

/-- A value that hides no reference refers to what it refers to when all in it is opened. -/
theorem addRefs_revealed {v : Value} (h : v.Opens) (hhides : v.HidesNoRef) (names : List String) :
    v.revealed.tree.addRefs names = v.tree.addRefs names := by
  induction v using induction_opened generalizing names with
  | atom a => rfl
  | list items ih =>
    have hopens := opens_list.mp h
    have hinside := (throughout_list.mp hhides).2
    rw [revealed_list, addRefs_list, addRefs_list, List.foldl_map]
    exact List.foldl_ext _ _ _ fun names v hv => ih v hv (hopens v hv) (hinside v hv) names
  | dict d ih =>
    have hopens := opens_dict.mp h
    have hinside := (throughout_dict.mp hhides).2
    rw [revealed_dict, addRefs_dict, addRefs_dict, Dict.map, List.foldl_map]
    exact List.foldl_ext _ _ _ fun names entry hentry => ih entry hentry (hopens _ hentry) (hinside _ hentry) names
  | block b ih =>
    obtain ⟨d, hload, hopens⟩ := h.exists_load
    rw [revealed_of_load hload, ih d hload hopens ((throughout_block.mp hhides).2 d hload), tree_block, hload]
    rfl
  | saved p ih => rw [addRefs_saved, addRefs_revealed_of_noRef h (hhides.here p rfl)]

end Value
end AssetPack
