import Mathlib
import AssetPack.Proofs.Description.Closed
import AssetPack.Proofs.Selector
import AssetPack.Proofs.Visit.Followed

/-!
# The places of a visit

A visit comes to each place once, whatever its hooks answer, and the selector of a place leads back: it is read as the
steps to the place, and what they select is what stands there. Names must be ones that a selector can say.
-/
namespace AssetPack

/-! ## What selectors can say -/

namespace Selector

/-- A selector can say the name. -/
def IsSayable (name : String) : Prop := name ≠ "" ∧ ∀ c ∈ name.toList, inName c = true

instance (name : String) : Decidable (IsSayable name) :=
  @instDecidableAnd _ _ inferInstance (List.decidableBAll _ name.toList)

/-- A selector can say the step. -/
def Says : Step → Prop
  | .name name => IsSayable name
  | .index n => n < indexLimit

theorem Says.writable {step : Step} (h : Says step) : Writable step := by
  cases step with
  | name name => exact fun c hc => inName_iff.mp (h.2 c hc)
  | index n => exact h

end Selector

/-! ## The calls of a visit -/

section
variable {m : Type → Type} [Monad m]

/-- The hooks, with a record of their calls. -/
def Hooks.recorded (h : Hooks m) : Hooks (StateT (List Call) m) where
  onValue spot v log := (·, log ++ [.value spot.trail]) <$> h.onValue spot v
  onDict spot d log := (·, log ++ [.dict spot.trail]) <$> h.onDict spot d

namespace Visiting
variable {α β : Type} {calls calls' : List Call}

/-- The first part of a visit does what the second one does and records just these calls. -/
def Records (calls : List Call) (x : Visiting (StateT (List Call) m) α) (y : Visiting m α) : Prop :=
  ∀ issues log, (x.run issues).run log = (fun result => (result, log ++ calls)) <$> y.run issues

variable [LawfulMonad m]

theorem Records.pure (a : α) : Records [] (Pure.pure a : Visiting (StateT (List Call) m) α) (Pure.pure a) := by
  intro issues log
  simp

theorem Records.bind {x : Visiting (StateT (List Call) m) α} {y : Visiting m α}
    {f : α → Visiting (StateT (List Call) m) β} {g : α → Visiting m β} (hx : Records calls x y)
    (hf : ∀ a, Records calls' (f a) (g a)) : Records (calls ++ calls') (x >>= f) (y >>= g) := by
  intro issues log
  rw [StateT.run_bind, StateT.run_bind, StateT.run_bind, hx, bind_map_left, map_bind]
  exact bind_congr fun result => by rw [hf, List.append_assoc]

/-- A visit with a record beside one without. -/
def Records.tally : Tally (StateT (List Call) m) m where
  Rel dues x y := Records (dues.filterMap Due.call?) x y
  pure := .pure
  bind hx hf := by
    rw [List.filterMap_append]
    exact hx.bind hf

theorem records_report (i : Issue) :
    Records [] (report i : Visiting (StateT (List Call) m) Unit) (report i) := by
  intro issues log
  simp [report]

theorem records_call {α : Type} {hook : Spot → α → m Reply} {hook' : Spot → α → StateT (List Call) m Reply}
    {trail : List Step} {c : Call} {a : α}
    (h : ∀ issues log, (hook' ⟨trail, issues⟩ a).run log = (·, log ++ [c]) <$> hook ⟨trail, issues⟩ a) :
    Records [c] (call hook' trail a) (call hook trail a) := by
  intro issues log
  simp [call, h]

end Visiting

variable [LawfulMonad m]

theorem Hooks.tallied_recorded (h : Hooks m) : h.recorded.Tallied Visiting.Records.tally h where
  report _ _ := Visiting.records_report _
  onValue _ _ := Visiting.records_call fun _ _ => rfl
  onDict _ _ := Visiting.records_call fun _ _ => rfl

/-- The calls of a visit are those of its stops, whatever the hooks answer. -/
theorem Tree.records_visit (h : Hooks m) (trail : List Step) (t : Tree) :
    Visiting.Records (t.calls trail) (t.visit h.recorded trail) (t.visit h trail) := by
  have hvisit : Visiting.Records _ _ _ := h.tallied_recorded.visit trail t
  rwa [List.filterMap_map, show Due.call? ∘ Stop.due = Stop.call? from funext Stop.call?_due] at hvisit

/-- What a visit makes of a dictionary does not depend on the record, and the record not on the hooks. -/
theorem Dict.visitRoot_recorded (h : Hooks m) (d : Dict Value) (log : List Call) :
    (d.visitRoot h.recorded).run log = (·, log ++ (Value.dict d).tree.calls []) <$> d.visitRoot h := by
  have hvisit := (Value.dict d).tree.records_visit h [] [] log
  rw [Value.tree_dict, Tree.visit, Tree.visit] at hvisit
  simp [Dict.visitRoot, hvisit]

end

/-! ## What stands at a stop -/

theorem exists_item_of_mem_stops {ts : List Tree} {trail : List Step} {index : Nat} {stop : Stop}
    (h : stop ∈ stopsItems trail index ts) :
    ∃ (n : Nat) (t : Tree), ts[n]? = some t ∧ stop ∈ t.stops (.index (index + n) :: trail) := by
  induction ts generalizing index with
  | nil => cases h
  | cons t ts ih =>
    rw [stopsItems, List.mem_append] at h
    rcases h with h | h
    · exact ⟨0, t, rfl, h⟩
    · obtain ⟨n, u, hu, hstop⟩ := ih h
      refine ⟨n + 1, u, hu, ?_⟩
      rwa [Nat.add_assoc, Nat.add_comm 1 n] at hstop

theorem Dict.exists_entry_of_mem_stops {d : Dict Value} {trail : List Step} {stop : Stop}
    (h : stop ∈ d.tree.stops trail) : ∃ entry ∈ d.entries, stop ∈ entry.2.tree.stops (.name entry.1 :: trail) := by
  rw [Dict.tree_eq] at h
  obtain ⟨entries⟩ := d
  change stop ∈ stopsEntries trail (entries.map fun entry => (entry.1, entry.2.tree)) at h
  induction entries with
  | nil => cases h
  | cons entry rest ih =>
    rw [List.map_cons, stopsEntries, List.mem_append] at h
    rcases h with h | h
    · exact ⟨entry, List.mem_cons_self, h⟩
    · obtain ⟨entry', hentry', hstop⟩ := ih h
      exact ⟨entry', List.mem_cons_of_mem entry hentry', hstop⟩

theorem Value.stops_of_opened_eq_none {v : Value} {trail : List Step} (hlist : v.list? = none)
    (hopened : v.opened? = none) : v.tree.stops trail = [⟨trail, v.tree⟩] := by
  cases v with
  | atom a => rfl
  | list items => cases hlist
  | dict d => cases hopened
  | block b =>
    rw [tree_block]
    cases hload : b.load with
    | ok d =>
      rw [opened?_of_load hload] at hopened
      cases hopened
    | error f => rfl
  | saved p =>
    rw [tree_saved]
    split
    · rename_i hp
      cases hload : p.loadDict with
      | ok d =>
        rw [opened?_of_loadDict hp hload] at hopened
        cases hopened
      | error f => rfl
    · rfl

/-- Each item of a list has an index. -/
def Value.Indexable : Value → Prop
  | .list items => items.length ≤ Selector.indexLimit
  | _ => True

namespace Selector
variable {trail : List Step} {v : Value} {stop : Stop}

theorem step?_name {name : String} (h : name ≠ "") (v : Value) :
    step? v (.name name) = v.opened?.bind (·.get? name) := by
  rw [step?, if_neg h, Value.opened?, Option.bind_assoc]

/-- Steps that a selector can say lead from a value to a stop in it. -/
def Reaches (v : Value) (trail : List Step) (stop : Stop) : Prop :=
  ∃ steps, stop.trail = steps.reverse ++ trail ∧ follow? v steps = some stop.node.value ∧ ∀ step ∈ steps, Says step

theorem reaches_here {t : Tree} (h : t.value = v) : Reaches v trail ⟨trail, t⟩ :=
  ⟨[], rfl, congrArg some h.symm, nofun⟩

theorem Reaches.step {u : Value} {step : Step} (hstep : step? v step = some u) (hspeak : Says step)
    (h : Reaches u (step :: trail) stop) : Reaches v trail stop := by
  obtain ⟨steps, htrail, hfollow, hall⟩ := h
  refine ⟨step :: steps, by rw [htrail, List.reverse_cons, List.append_assoc, List.singleton_append], ?_,
    List.forall_mem_cons.mpr ⟨hspeak, hall⟩⟩
  rw [follow?, List.foldlM_cons, hstep]
  exact hfollow

/-- Selectors lead to every stop below a value with names they can say. -/
theorem reaches_of_mem_stops (hspelled : v.Spelled IsSayable) (hlists : v.Throughout Value.Indexable)
    (h : stop ∈ v.tree.stops trail) : Reaches v trail stop := by
  induction v using Value.induction_carried generalizing trail stop with
  | list items ih =>
    rw [Value.tree_list, Tree.stops, List.mem_append] at h
    rcases h with h | h
    · obtain ⟨n, t, ht, hstop⟩ := exists_item_of_mem_stops h
      rw [List.getElem?_map, Option.map_eq_some_iff] at ht
      obtain ⟨u, hu, rfl⟩ := ht
      have hmem := List.mem_of_getElem? hu
      obtain ⟨hlength, hinside⟩ := Value.throughout_list.mp hlists
      obtain ⟨hn, -⟩ := List.getElem?_eq_some_iff.mp hu
      have hstep : step? (.list items) (.index n) = some u := hu
      have hspeak : Says (.index n) := Nat.lt_of_lt_of_le hn hlength
      rw [Nat.zero_add] at hstop
      exact (ih u hmem (Value.spelled_list.mp hspelled u hmem) (hinside u hmem) hstop).step hstep hspeak
    · obtain rfl := List.mem_singleton.mp h
      rw [← Value.tree_list]
      exact reaches_here (Value.value_tree _)
  | dict v d hd ih =>
    obtain ⟨source, htree⟩ := Value.exists_tree_of_opened hd
    obtain ⟨w, hw, hdict⟩ := Option.bind_eq_some_iff.mp hd
    have hclosed := Value.closed_spelled IsSayable
    obtain ⟨hdistinct, hnames, hinside⟩ := Value.spelled_dict.mp (hclosed.dict? (hclosed.dictValue? hspelled hw) hdict)
    rw [htree, Tree.stops, List.mem_append] at h
    rcases h with h | h
    · obtain ⟨entry, hentry, hstop⟩ := Dict.exists_entry_of_mem_stops h
      have hname := hnames entry.1 (Dict.mem_names hentry)
      have hstep : step? v (.name entry.1) = some entry.2 := by
        rw [step?_name hname.1, hd]
        exact Dict.get?_of_mem hdistinct hentry
      have hlists := (Value.throughout_dict.mp (hlists.opened hd)).2 entry hentry
      exact (ih entry hentry (hinside entry hentry) hlists hstop).step hstep hname
    · obtain rfl := List.mem_singleton.mp h
      rw [← htree]
      exact reaches_here v.value_tree
  | other v hlist hopened =>
    rw [Value.stops_of_opened_eq_none hlist hopened] at h
    obtain rfl := List.mem_singleton.mp h
    exact reaches_here v.value_tree

end Selector

/-! ## Selectors of stops -/

namespace Dict
variable {d : Dict Value}

theorem select?_eq_follow? {name : String} (h : name ≠ "") (steps : List Step) :
    d.select? (.name name :: steps) = Selector.follow? (.dict d) (.name name :: steps) := by
  rw [Selector.follow?, List.foldlM_cons, Selector.step?_name h, select?, if_neg h]
  rfl

theorem follow?_eq_at? {v : Value} {steps : List Step} (h : ∀ step ∈ steps, Selector.Says step) :
    Selector.follow? v steps = v.at? steps := by
  induction steps generalizing v with
  | nil => rfl
  | cons step steps ih =>
    obtain ⟨hstep, hsteps⟩ := List.forall_mem_cons.mp h
    have hnext : Selector.step? v step = v.next? step := by
      cases step with
      | name name => exact Selector.step?_name hstep.1 v
      | index n => rfl
    rw [Selector.follow?, List.foldlM_cons, hnext, Value.at?]
    exact Option.bind_congr fun u _ => ih hsteps

/-- A dictionary in a payload in a list. -/
def listedPayload : Dict Value :=
  ⟨[("a", .list [.saved (.ofBytes .dict (⟨[("c", .int 3)]⟩ : Dict Value).encode false)])]⟩

end Dict
end AssetPack
