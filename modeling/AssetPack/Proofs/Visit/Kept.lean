import Mathlib
import AssetPack.Proofs.Value.Revealed
import AssetPack.Proofs.Value.Sameness
import AssetPack.Proofs.Visit.Traversed

/-!
# What is kept

Hooks that keep everything leave what opens in a dictionary, opened. What does not open is reported, and it is dropped
from a dictionary and null in a list. Where everything is open already, nothing changes.
-/
namespace AssetPack

mutual

/-- What hooks that keep everything leave of a tree. -/
def Tree.kept : Tree → Option Value
  | .atom a => some (.atom a)
  | .list items => some (.list (keptItems items))
  | .dict _ d => some (.dict d.kept)
  | .blob p => some (.saved p)
  | .broken _ => none
termination_by structural t => t

/-- What does not open is null in a list. -/
def keptItems : List Tree → List Value
  | [] => []
  | t :: ts => t.kept.getD .null :: keptItems ts
termination_by structural ts => ts

def Dict.kept : Dict Tree → Dict Value
  | ⟨entries⟩ => ⟨keptEntries entries⟩
termination_by structural d => d

/-- What does not open is no entry any more. -/
def keptEntries : List (String × Tree) → List (String × Value)
  | [] => []
  | (name, t) :: rest =>
    match t.kept with
    | some v => (name, v) :: keptEntries rest
    | none => keptEntries rest
termination_by structural entries => entries

end

theorem keptItems_eq (ts : List Tree) : keptItems ts = ts.map fun t => t.kept.getD .null := by
  induction ts with
  | nil => rfl
  | cons t ts ih => rw [keptItems, ih, List.map_cons]

theorem keptEntries_eq (entries : List (String × Tree)) :
    keptEntries entries = entries.filterMap fun entry => entry.2.kept.map (entry.1, ·) := by
  induction entries with
  | nil => rfl
  | cons entry rest ih =>
    rw [keptEntries, ih, List.filterMap_cons]
    cases entry.2.kept <;> rfl

/-! ## The visit -/

/-- The issues that are owed. -/
def Due.issues (dues : List Due) : List Issue := dues.filterMap Due.issue?

section
variable {m : Type → Type} [Monad m]

namespace Visiting
variable {α β : Type} {dues dues' : List Due}

/-- The part of a visit gives this and adds the issues that are owed. -/
def Gives (dues : List Due) (x : Visiting m α) (a : α) : Prop :=
  ∀ issues, x.run issues = Pure.pure (a, issues ++ Due.issues dues)

namespace Gives

theorem pure (a : α) : Gives [] (Pure.pure a : Visiting m α) a := by
  intro issues
  rw [Due.issues, List.filterMap_nil, List.append_nil]
  rfl

theorem report (source : Source) (place : String) :
    Gives [.report (source.issue place)] (report (source.issue place) : Visiting m Unit) () := by
  intro issues
  simp [Visiting.report, Issue.audible_of_own source.own_issue, Due.issues, Due.issue?]

variable [LawfulMonad m]

theorem bind {x : Visiting m α} {f : α → Visiting m β} {a : α} {b : β} (hx : Gives dues x a)
    (hf : Gives dues' (f a) b) : Gives (dues ++ dues') (x >>= f) b := by
  intro issues
  have hissues : Due.issues (dues ++ dues') = Due.issues dues ++ Due.issues dues' := List.filterMap_append
  rw [StateT.run_bind, hx, pure_bind, hf, hissues, List.append_assoc]

theorem map {x : Visiting m α} {a : α} (hx : Gives dues x a) (f : α → β) :
    Gives dues (x >>= fun a => Pure.pure (f a)) (f a) := by
  have hbind := hx.bind (f := fun a => Pure.pure (f a)) (.pure (f a))
  rwa [List.append_nil] at hbind

theorem call {hook : Spot → α → m Reply} {trail : List Step} {a : α} {v : Value} (c : Call)
    (h : ∀ spot, hook spot a = Pure.pure (.keep v)) : Gives [.call c] (call hook trail a) (some v) := by
  intro issues
  have hnone : Due.issues [.call c] = [] := rfl
  simp [Visiting.call, h, Reply.keep, Issue.audible, hnone]

end Gives
end Visiting

variable [LawfulMonad m]

mutual

/-- A visit that keeps everything gives what is kept, with the issues that are owed. -/
theorem Tree.gives_visit (trail : List Step) : (t : Tree) →
    Visiting.Gives ((t.stops trail).map Stop.due) (t.visit (Hooks.keep : Hooks m) trail) t.kept
  | .atom a => .call _ fun _ => rfl
  | .list items => by
    rw [Tree.stops, List.map_append]
    exact (gives_visitItems trail 0 items).bind (.call _ fun _ => rfl)
  | .dict source d => by
    rw [Tree.stops, List.map_append]
    exact d.gives_visit trail
  | .blob p => .call _ fun _ => rfl
  | .broken source => (Visiting.Gives.report source _).bind (.pure none)
termination_by structural t => t

theorem gives_visitItems (trail : List Step) (index : Nat) : (ts : List Tree) →
    Visiting.Gives ((stopsItems trail index ts).map Stop.due) (visitItems (Hooks.keep : Hooks m) trail index ts)
      (keptItems ts)
  | [] => .pure []
  | t :: ts => by
    rw [stopsItems, List.map_append]
    exact (t.gives_visit (.index index :: trail)).bind ((gives_visitItems trail (index + 1) ts).map _)
termination_by structural ts => ts

theorem Dict.gives_visit (trail : List Step) : (d : Dict Tree) →
    Visiting.Gives ((d.stops trail).map Stop.due ++ [.call (.dict trail)]) (d.visit (Hooks.keep : Hooks m) trail)
      (some (.dict d.kept))
  | ⟨entries⟩ => (gives_visitEntries trail entries).bind (.call _ fun _ => rfl)
termination_by structural d => d

theorem gives_visitEntries (trail : List Step) : (entries : List (String × Tree)) →
    Visiting.Gives ((stopsEntries trail entries).map Stop.due) (visitEntries (Hooks.keep : Hooks m) trail entries)
      (keptEntries entries)
  | [] => .pure []
  | (name, t) :: rest => by
    rw [stopsEntries, List.map_append, keptEntries]
    exact (t.gives_visit (.name name :: trail)).bind ((gives_visitEntries trail rest).map _)
termination_by structural entries => entries

end

theorem Dict.visitRoot_keep_eq (d : Dict Value) : d.visitRoot (Hooks.keep : Hooks m) =
    pure ⟨some d.tree.kept, Due.issues ((Value.dict d).places.map Node.due)⟩ := by
  have hvisit : Visiting.Gives _ _ _ := (Value.dict d).tree.gives_visit (m := m) []
  rw [Value.map_due_stops, Value.tree_dict, Tree.visit] at hvisit
  rw [visitRoot, hvisit, pure_bind, List.nil_append]
  rfl

end

/-! ## What is kept, case by case -/

namespace Value
variable {v w : Value} {d : Dict Value}

/-- What hooks that keep everything leave of a value. -/
def kept (v : Value) : Option Value := v.tree.kept

/-- What is left of values: what opens is left with what is left of its entries, what does not open is not left and is
null in a list, and the rest is left as it is. -/
structure Leaves (left : Value → Option Value) : Prop where
  list : ∀ items, left (.list items) = some (.list (items.map fun v => (left v).getD .null))
  opened : ∀ v d, v.opened? = some d →
    left v = some (.dict ⟨d.entries.filterMap fun entry => (left entry.2).map (entry.1, ·)⟩)
  closed : ∀ v, v.opened? = none → v.form?.isSome = true → left v = none
  other : ∀ v, v.list? = none → v.opened? = none → v.form? = none → left v = some v

theorem kept_tree (d : Dict Value) :
    d.tree.kept = ⟨d.entries.filterMap fun entry => entry.2.kept.map (entry.1, ·)⟩ := by
  rw [Dict.tree_eq, Dict.map, Dict.kept, keptEntries_eq, List.filterMap_map]
  rfl

theorem leaves_kept : Leaves kept where
  list items := by
    rw [kept, tree_list, Tree.kept, keptItems_eq, List.map_map]
    rfl
  opened v d h := by
    obtain ⟨source, htree⟩ := exists_tree_of_opened h
    rw [kept, htree, Tree.kept, kept_tree]
  closed v hopened hform := by
    cases v with
    | block b =>
      rw [opened?_block] at hopened
      cases hload : b.load with
      | ok d => simp [hload, Except.toOption] at hopened
      | error f => simp [kept, tree_block, hload, Tree.kept]
    | saved p =>
      by_cases hp : p.content = .dict
      · rw [opened?_saved, if_pos hp] at hopened
        cases hload : p.loadDict with
        | ok d => simp [hload, Except.toOption] at hopened
        | error f => simp [kept, tree_saved, hp, hload, Tree.kept]
      · simp [form?, hp] at hform
    | _ => cases hform
  other v hlist hopened hform := by
    cases v with
    | atom a => rfl
    | saved p =>
      have hp : p.content ≠ .dict := by
        intro hp
        simp [form?, hp] at hform
      simp [kept, tree_saved, hp, Tree.kept]
    | list items => cases hlist
    | dict d => cases hopened
    | block b => cases hform

/-! ### Where everything opens -/

theorem kept_of_opens (h : v.Opens) : v.kept = some v.revealed := by
  induction v using induction_opened with
  | atom a => rfl
  | list items ih =>
    rw [leaves_kept.list, revealed_list]
    refine congrArg (fun items => some (list items)) (List.map_congr_left fun v hv => ?_)
    rw [ih v hv (opens_list.mp h v hv), Option.getD_some]
  | dict d ih =>
    have hentries : d.entries.filterMap (fun entry => entry.2.kept.map (entry.1, ·)) =
        d.entries.map fun entry => (entry.1, entry.2.revealed) := by
      rw [← List.filterMap_eq_map]
      refine List.filterMap_congr fun entry hentry => ?_
      rw [ih entry hentry (opens_dict.mp h entry hentry)]
      rfl
    rw [leaves_kept.opened _ d rfl, revealed_dict, hentries]
    rfl
  | block b ih =>
    obtain ⟨d, hload, hd⟩ := h.exists_load
    rw [revealed_of_load hload, ← ih d hload hd, leaves_kept.opened _ d (opened?_of_load hload),
      leaves_kept.opened _ d rfl]
  | saved p ih =>
    by_cases hp : p.content = .dict
    · obtain ⟨d, hload, hd⟩ := h.exists_loadDict hp
      rw [revealed_of_loadDict hp hload, ← ih hp d hload hd, leaves_kept.opened _ d (opened?_of_loadDict hp hload),
        leaves_kept.opened _ d rfl]
    · rw [revealed_blob hp, leaves_kept.other _ rfl (by rw [opened?_saved, if_neg hp]) (by rw [form?, if_neg hp])]

theorem normal_revealed (h : v.Opens) (hplain : ∀ p, (saved p).Within v → p.content ≠ .dict) :
    v.revealed.normal = v.normal := by
  induction v using induction_opened with
  | atom a => rfl
  | list items ih =>
    rw [revealed_list, normal_list, normal_list, List.map_map]
    exact congrArg list (List.map_congr_left fun v hv =>
      ih v hv (opens_list.mp h v hv) fun p hp => hplain p (.item hv hp))
  | dict d ih =>
    have hmap : (d.map revealed).map normal = d.map normal := by
      rw [Dict.map, Dict.map, Dict.map, List.map_map]
      exact congrArg Dict.mk (List.map_congr_left fun entry hentry => Prod.ext rfl
        (ih entry hentry (opens_dict.mp h entry hentry) fun p hp => hplain p (.entry hentry hp)))
    rw [revealed_dict, normal_dict, normal_dict, hmap]
  | block b ih =>
    obtain ⟨d, hload, hd⟩ := h.exists_load
    rw [revealed_of_load hload, normal_of_load hload]
    exact ih d hload hd fun p hp => hplain p (.block hload hp)
  | saved p ih => rw [revealed_blob (hplain p .self)]

/-! ### What is left is open -/

theorem plain_of_kept (h : v.kept = some w) : w.Plain := by
  induction v using induction_carried generalizing w with
  | list items ih =>
    rw [leaves_kept.list, Option.some.injEq] at h
    refine h ▸ throughout_list.mpr ⟨rfl, fun u hu => ?_⟩
    obtain ⟨v, hv, rfl⟩ := List.mem_map.mp hu
    cases hkept : v.kept with
    | none => exact throughout_atom.mpr rfl
    | some u => exact ih v hv hkept
  | dict v d hd ih =>
    rw [leaves_kept.opened v d hd, Option.some.injEq] at h
    refine h ▸ throughout_dict.mpr ⟨rfl, fun entry hentry => ?_⟩
    obtain ⟨entry, hmem, hmap⟩ := List.mem_filterMap.mp hentry
    obtain ⟨u, hu, rfl⟩ := Option.map_eq_some_iff.mp hmap
    exact ih entry hmem hu
  | other v hlist hopened =>
    cases hform : v.form? with
    | some source =>
      rw [leaves_kept.closed v hopened (by rw [hform]; rfl)] at h
      cases h
    | none =>
      rw [leaves_kept.other v hlist hopened hform, Option.some.injEq] at h
      subst h
      cases v with
      | atom a => exact throughout_atom.mpr rfl
      | saved p =>
        refine throughout_saved.mpr ⟨hform, fun hp => ?_⟩
        rw [form?, if_pos hp] at hform
        cases hform
      | list items => cases hlist
      | dict d => cases hopened
      | block b => cases hform

theorem names_kept_sublist (entries : List (String × Value)) :
    ((entries.filterMap fun entry => entry.2.kept.map (entry.1, ·)).map (·.1)).Sublist (entries.map (·.1)) := by
  induction entries with
  | nil => exact .slnil
  | cons entry rest ih =>
    rw [List.filterMap_cons]
    cases entry.2.kept with
    | none => exact .cons _ ih
    | some w => exact .cons_cons _ ih

/-- What is left of a value of a closed class is of that class. -/
theorem Closed.kept {K : Value → Prop} (hK : Closed K) (hv : K v) (h : v.kept = some w) : K w := by
  induction v using induction_carried generalizing w with
  | list items ih =>
    rw [leaves_kept.list, Option.some.injEq] at h
    refine h ▸ (hK.list _).mpr fun u hu => ?_
    obtain ⟨v, hmem, rfl⟩ := List.mem_map.mp hu
    cases hkept : v.kept with
    | none => exact hK.atom .null
    | some u => exact ih v hmem ((hK.list items).mp hv v hmem) hkept
  | dict v d hd ih =>
    obtain ⟨u, hu, hdict⟩ := Option.bind_eq_some_iff.mp hd
    have hopened : K (.dict d) := hK.dict? (hK.dictValue? hv hu) hdict
    rw [leaves_kept.opened v d hd, Option.some.injEq] at h
    refine h ▸ hK.fewer d _ hopened (names_kept_sublist d.entries) fun entry hentry => ?_
    obtain ⟨entry, hmem, hmap⟩ := List.mem_filterMap.mp hentry
    obtain ⟨u, hu, rfl⟩ := Option.map_eq_some_iff.mp hmap
    exact ih entry hmem (hK.entry d entry hopened hmem) hu
  | other v hlist hopened =>
    cases hform : v.form? with
    | some source =>
      rw [leaves_kept.closed v hopened (by rw [hform]; rfl)] at h
      cases h
    | none =>
      rw [leaves_kept.other v hlist hopened hform, Option.some.injEq] at h
      exact h ▸ hv

/-! ### Issues -/

theorem within_of_mem_children {child : Step × Value} (h : child ∈ v.children) : child.2.Within v := by
  cases hd : v.opened? with
  | some d =>
    rw [children_of_opened hd] at h
    obtain ⟨entry, hentry, rfl⟩ := List.mem_map.mp h
    exact .of_opened hd (.entry hentry .self)
  | none =>
    cases v with
    | list items =>
      obtain ⟨item, hitem, rfl⟩ := List.mem_map.mp h
      exact .item (List.fst_mem_of_mem_zipIdx hitem) .self
    | _ =>
      rw [children_eq_nil rfl hd] at h
      cases h

theorem within_of_mem_places {node : Node} (h : node ∈ v.places) : node.value.Within v := by
  induction v using induction_children generalizing node with
  | h v ih =>
    rw [places_eq, List.mem_append, List.mem_flatMap, List.mem_singleton] at h
    rcases h with ⟨child, hchild, hnode⟩ | rfl
    · obtain ⟨inner, hinner, rfl⟩ := List.mem_map.mp hnode
      exact (ih child hchild hinner).trans (within_of_mem_children hchild)
    · exact .self

/-- Where everything opens no issue is owed. -/
theorem issues_eq_nil (h : v.Opens) : Due.issues (v.places.map Node.due) = [] := by
  rw [Due.issues, List.filterMap_map, List.filterMap_eq_nil_iff]
  intro node hnode
  have hhere : node.value.OpensHere := h _ (within_of_mem_places hnode)
  rw [Function.comp_apply, Node.due]
  cases hopened : node.value.opened? with
  | some d => rfl
  | none =>
    cases hform : node.value.form? with
    | none => rfl
    | some source =>
      rw [OpensHere, hform, hopened] at hhere
      cases hhere rfl

end Value

namespace Dict
variable {m : Type → Type} [Monad m] [LawfulMonad m] {d : Dict Value}

/-- Blocks and payloads in a list and beside it, some of which do not open. -/
def partlyClosed : Dict Value := ⟨[
  ("a", .list [.block ⟨0, [7]⟩, .saved (.ofBytes .dict (⟨[("c", .int 3)]⟩ : Dict Value).encode false)]),
  ("b", .block ⟨0, [7]⟩), ("c", .block ⟨0, (⟨[("x", .int 1)]⟩ : Dict Value).encode⟩)]⟩

/-- What is left of it. -/
def partlyLeft : Dict Value := ⟨[("a", .list [.null, .dict ⟨[("c", .int 3)]⟩]), ("c", .dict ⟨[("x", .int 1)]⟩)]⟩

end Dict
end AssetPack
