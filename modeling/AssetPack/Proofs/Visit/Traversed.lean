import Mathlib
import AssetPack.Proofs.Visit.Placed

/-!
# The order of a visit

A visit comes to each place in a dictionary once: to what is inside a value before the value itself, and to items and
entries in their order. At each place that opens it calls one hook, at one that does not open it reports an issue
itself. Neither depends on what the hooks answer, and the issues of a visit are those of its places in this order.
-/
namespace AssetPack

/-! ## Places in order -/

/-- A place in a value, by the steps that lead to it, and what stands there. -/
structure Node where
  steps : List Step
  value : Value

namespace Node

/-- The place, seen from one step outside. -/
def under (step : Step) (node : Node) : Node := ⟨step :: node.steps, node.value⟩

/-- What a visit owes to a place: the call of a hook, or the issue of a form that does not open. -/
def due (node : Node) : Due :=
  match node.value.opened?, node.value.form? with
  | some _, _ => .call (.dict node.steps.reverse)
  | none, some source => .report (source.issue (Selector.render node.steps))
  | none, none => .call (.value node.steps.reverse)

end Node

namespace Value

/-- What stands one step inside a value, in its order: items by their indices, entries by their names. -/
def children (v : Value) : List (Step × Value) :=
  match v.list?, v.opened? with
  | some items, _ => items.zipIdx.map fun item => (.index item.2, item.1)
  | none, some d => d.entries.map fun entry => (.name entry.1, entry.2)
  | none, none => []

/-- The order of places: what is inside comes before what it is in, and neighbours come in their order. -/
inductive Before : Value → List Step → List Step → Prop
  | inside {v : Value} {step : Step} {steps : List Step} : Before v (step :: steps) []
  | beside {v : Value} {step step' : Step} {steps steps' : List Step} :
      [step, step'].Sublist (v.children.map Prod.fst) → Before v (step :: steps) (step' :: steps')
  | step {v u : Value} {step : Step} {steps steps' : List Step} :
      v.next? step = some u → Before u steps steps' → Before v (step :: steps) (step :: steps')

/-- These are the places in a value, each of them once, in the order of a visit. -/
structure Toured (v : Value) (nodes : List Node) : Prop where
  mem_iff : ∀ node, node ∈ nodes ↔ v.at? node.steps = some node.value
  ordered : nodes.Pairwise fun a b => v.Before a.steps b.steps
  once : (nodes.map Node.steps).Nodup

end Value

/-! ## Stops from outside and from inside -/

/-- The stop, seen from outside at the end of a trail. -/
def Stop.under (trail : List Step) (stop : Stop) : Stop := ⟨stop.trail ++ trail, stop.node⟩

theorem Stop.map_under (trail trail' : List Step) (stops : List Stop) :
    (stops.map (under trail)).map (under trail') = stops.map (under (trail ++ trail')) := by
  rw [List.map_map]
  exact List.map_congr_left fun stop _ => by simp [under]

mutual

theorem Tree.stops_eq (trail : List Step) : (t : Tree) → t.stops trail = (t.stops []).map (Stop.under trail)
  | .atom a => rfl
  | .list items => by
    rw [Tree.stops, Tree.stops, stopsItems_eq_map trail 0 items, List.map_append]
    rfl
  | .dict source d => by
    rw [Tree.stops, Tree.stops, d.stops_eq trail, List.map_append]
    rfl
  | .blob p => rfl
  | .broken source => rfl
termination_by structural t => t

theorem stopsItems_eq_map (trail : List Step) (index : Nat) : (ts : List Tree) →
    stopsItems trail index ts = (stopsItems [] index ts).map (Stop.under trail)
  | [] => rfl
  | t :: ts => by
    rw [stopsItems, stopsItems, t.stops_eq (_ :: trail), t.stops_eq [_], stopsItems_eq_map trail (index + 1) ts,
      List.map_append, Stop.map_under, List.singleton_append]
termination_by structural ts => ts

theorem Dict.stops_eq (trail : List Step) : (d : Dict Tree) → d.stops trail = (d.stops []).map (Stop.under trail)
  | ⟨entries⟩ => stopsEntries_eq_map trail entries
termination_by structural d => d

theorem stopsEntries_eq_map (trail : List Step) : (entries : List (String × Tree)) →
    stopsEntries trail entries = (stopsEntries [] entries).map (Stop.under trail)
  | [] => rfl
  | (name, t) :: rest => by
    rw [stopsEntries, stopsEntries, t.stops_eq (_ :: trail), t.stops_eq [_], stopsEntries_eq_map trail rest,
      List.map_append, Stop.map_under, List.singleton_append]
termination_by structural entries => entries

end

theorem stopsItems_eq_flatMap (index : Nat) (ts : List Tree) : stopsItems [] index ts =
    (ts.zipIdx index).flatMap fun t => (t.1.stops []).map (Stop.under [.index t.2]) := by
  induction ts generalizing index with
  | nil => rfl
  | cons t ts ih => rw [stopsItems, ih, List.zipIdx_cons, List.flatMap_cons, t.stops_eq [_]]

theorem stopsEntries_eq_flatMap (entries : List (String × Tree)) : stopsEntries [] entries =
    entries.flatMap fun entry => (entry.2.stops []).map (Stop.under [.name entry.1]) := by
  induction entries with
  | nil => rfl
  | cons entry rest ih => rw [stopsEntries, ih, List.flatMap_cons, entry.2.stops_eq [_]]

/-! ## The places of a value -/

/-- The place of a stop. -/
def Stop.place (stop : Stop) : Node := ⟨stop.trail.reverse, stop.node.value⟩

theorem Stop.place_under (step : Step) (stop : Stop) : (stop.under [step]).place = stop.place.under step := by
  simp [place, under, Node.under]

namespace Value
variable {v : Value} {d : Dict Value}

/-- The places in a value, in the order of a visit. -/
def places (v : Value) : List Node := (v.tree.stops []).map Stop.place

theorem places_list (items : List Value) : (list items).places =
    (items.zipIdx.flatMap fun item => item.1.places.map (.under (.index item.2))) ++ [⟨[], list items⟩] := by
  have hvalue := value_tree (list items)
  rw [tree_list] at hvalue
  rw [places, tree_list, Tree.stops, stopsItems_eq_flatMap, List.zipIdx_map, List.flatMap_map, List.map_append,
    List.map_flatMap, List.map_singleton, Stop.place, hvalue]
  simp only [places, List.map_map]
  exact congrArg (· ++ _) (List.flatMap_congr fun item _ => List.map_congr_left fun stop _ => Stop.place_under _ stop)

theorem places_of_opened (h : v.opened? = some d) : v.places =
    (d.entries.flatMap fun entry => entry.2.places.map (.under (.name entry.1))) ++ [⟨[], v⟩] := by
  obtain ⟨source, htree⟩ := exists_tree_of_opened h
  have hvalue := value_tree v
  rw [htree] at hvalue
  have hstops : d.tree.stops [] =
      d.entries.flatMap fun entry => (entry.2.tree.stops []).map (Stop.under [.name entry.1]) := by
    rw [Dict.tree_eq, Dict.map, Dict.stops, stopsEntries_eq_flatMap, List.flatMap_map]
  rw [places, htree, Tree.stops, hstops, List.map_append, List.map_flatMap, List.map_singleton, Stop.place, hvalue]
  simp only [places, List.map_map]
  exact congrArg (· ++ _) (List.flatMap_congr fun entry _ => List.map_congr_left fun stop _ => Stop.place_under _ stop)

theorem places_of_opened_eq_none (hlist : v.list? = none) (hopened : v.opened? = none) : v.places = [⟨[], v⟩] := by
  rw [places, stops_of_opened_eq_none hlist hopened, List.map_singleton, Stop.place, value_tree]
  rfl

theorem Distinct.opened (h : v.Distinct) (hd : v.opened? = some d) : (dict d).Distinct := by
  obtain ⟨w, hw, hdict⟩ := Option.bind_eq_some_iff.mp hd
  exact closed_distinct.dict? (closed_distinct.dictValue? h hw) hdict

/-! ### One step inside -/

theorem list?_of_opened (h : v.opened? = some d) : v.list? = none := by
  cases v with
  | list items => cases h
  | _ => rfl

theorem children_list (items : List Value) :
    (list items).children = items.zipIdx.map fun item => (.index item.2, item.1) := rfl

theorem children_of_opened (h : v.opened? = some d) :
    v.children = d.entries.map fun entry => (.name entry.1, entry.2) := by
  rw [children, list?_of_opened h, h]

theorem children_eq_nil (hlist : v.list? = none) (hopened : v.opened? = none) : v.children = [] := by
  rw [children, hlist, hopened]

/-- Induction over a value by what stands one step inside. -/
@[elab_as_elim]
theorem induction_children {motive : Value → Prop} (h : ∀ v, (∀ child ∈ v.children, motive child.2) → motive v)
    (v : Value) : motive v := by
  induction v using induction_carried with
  | list items ih =>
    refine h _ fun child hchild => ?_
    obtain ⟨item, hitem, rfl⟩ := List.mem_map.mp hchild
    exact ih item.1 (List.fst_mem_of_mem_zipIdx hitem)
  | dict v d hd ih =>
    refine h v fun child hchild => ?_
    rw [children_of_opened hd] at hchild
    obtain ⟨entry, hentry, rfl⟩ := List.mem_map.mp hchild
    exact ih entry hentry
  | other v hlist hopened =>
    refine h v fun child hchild => ?_
    rw [children_eq_nil hlist hopened] at hchild
    cases hchild

/-- There are no steps into a value that carries nothing. -/
theorem next?_eq_none (hlist : v.list? = none) (hopened : v.opened? = none) (step : Step) : v.next? step = none := by
  cases step with
  | name name => rw [next?, hopened, Option.bind_none]
  | index n => rw [next?, item?, hlist, Option.bind_none]

theorem mem_children_iff (hv : v.Distinct) {step : Step} {u : Value} :
    (step, u) ∈ v.children ↔ v.next? step = some u := by
  cases hd : v.opened? with
  | some d =>
    have hdistinct := (distinct_dict.mp (hv.opened hd)).1
    rw [children_of_opened hd, List.mem_map]
    cases step with
    | name name =>
      rw [next?, hd, Option.bind_some]
      constructor
      · rintro ⟨entry, hentry, heq⟩
        cases heq
        exact Dict.get?_of_mem hdistinct hentry
      · exact fun h => ⟨(name, u), Dict.mem_of_get? h, rfl⟩
    | index n => simp [next?, item?, list?_of_opened hd]
  | none =>
    cases v with
    | list items =>
      rw [children_list, List.mem_map]
      cases step with
      | name name => simp [next?]
      | index n => simp [next?, item?, list?, List.mem_zipIdx_iff_getElem?]
    | _ =>
      rw [children_eq_nil rfl hd, next?_eq_none rfl hd]
      simp

theorem Distinct.child (h : v.Distinct) {child : Step × Value} (hchild : child ∈ v.children) : child.2.Distinct := by
  cases hd : v.opened? with
  | some d =>
    rw [children_of_opened hd] at hchild
    obtain ⟨entry, hentry, rfl⟩ := List.mem_map.mp hchild
    exact (distinct_dict.mp (h.opened hd)).2 entry hentry
  | none =>
    cases v with
    | list items =>
      obtain ⟨item, hitem, rfl⟩ := List.mem_map.mp hchild
      exact distinct_list.mp h item.1 (List.fst_mem_of_mem_zipIdx hitem)
    | _ =>
      rw [children_eq_nil rfl hd] at hchild
      cases hchild

theorem Distinct.nodup_children (h : v.Distinct) : (v.children.map Prod.fst).Nodup := by
  cases hd : v.opened? with
  | some d =>
    have hnames : d.names.Nodup := (distinct_dict.mp (h.opened hd)).1
    rw [children_of_opened hd, List.map_map]
    have hmap := hnames.map (f := Step.name) fun _ _ => Step.name.inj
    rwa [Dict.names, List.map_map] at hmap
  | none =>
    cases v with
    | list items =>
      have hindices : (items.zipIdx.map Prod.snd).Nodup := by
        rw [List.zipIdx_map_snd]
        exact List.nodup_range' 
      have hmap := hindices.map (f := Step.index) fun _ _ => Step.index.inj
      rw [children_list, List.map_map]
      rwa [List.map_map] at hmap
    | _ =>
      rw [children_eq_nil rfl hd]
      exact List.nodup_nil

theorem Before.ne (hv : v.Distinct) {steps steps' : List Step} (h : v.Before steps steps') : steps ≠ steps' := by
  induction h with
  | inside => exact List.cons_ne_nil _ _
  | beside hsub =>
    intro heq
    obtain ⟨rfl, -⟩ := List.cons.inj heq
    have hnodup := hv.nodup_children.sublist hsub
    simp at hnodup
  | step hnext _ ih =>
    intro heq
    exact ih (hv.child ((mem_children_iff hv).mpr hnext)) (List.cons.inj heq).2

/-! ### All places -/

theorem places_eq (v : Value) :
    v.places = (v.children.flatMap fun child => child.2.places.map (.under child.1)) ++ [⟨[], v⟩] := by
  cases hd : v.opened? with
  | some d => rw [places_of_opened hd, children_of_opened hd, List.flatMap_map]
  | none =>
    cases v with
    | list items => rw [places_list, children_list, List.flatMap_map]
    | _ => rw [places_of_opened_eq_none rfl hd, children_eq_nil rfl hd, List.flatMap_nil, List.nil_append]

theorem mem_places_iff (hv : v.Distinct) {node : Node} : node ∈ v.places ↔ v.at? node.steps = some node.value := by
  induction v using induction_children generalizing node with
  | h v ih =>
    obtain ⟨steps, u⟩ := node
    rw [places_eq, List.mem_append, List.mem_flatMap, List.mem_singleton]
    cases steps with
    | nil =>
      rw [at?, Option.some.injEq]
      constructor
      · rintro (⟨child, -, hnode⟩ | heq)
        · obtain ⟨inner, -, heq⟩ := List.mem_map.mp hnode
          cases heq
        · exact (congrArg Node.value heq).symm
      · rintro rfl
        exact .inr rfl
    | cons step steps =>
      -- the first step tells which child it is
      rw [at?, Option.bind_eq_some_iff]
      constructor
      · rintro (⟨⟨step', w⟩, hchild, hnode⟩ | heq)
        · obtain ⟨inner, hinner, heq⟩ := List.mem_map.mp hnode
          cases heq
          exact ⟨w, (mem_children_iff hv).mp hchild, (ih _ hchild (hv.child hchild)).mp hinner⟩
        · cases heq
      · rintro ⟨w, hw, hu⟩
        have hchild := (mem_children_iff hv).mpr hw
        have hinner : ⟨steps, u⟩ ∈ w.places := (ih _ hchild (hv.child hchild)).mpr hu
        exact .inl ⟨(step, w), hchild, List.mem_map.mpr ⟨_, hinner, rfl⟩⟩

theorem ordered_places (hv : v.Distinct) : v.places.Pairwise fun a b => v.Before a.steps b.steps := by
  induction v using induction_children with
  | h v ih =>
    rw [places_eq]
    -- places in one child, places in two children, and the value itself behind them all
    refine List.pairwise_append.mpr ⟨List.pairwise_flatMap.mpr ⟨fun child hchild => ?_, ?_⟩,
      List.pairwise_singleton _ _, fun a ha b hb => ?_⟩
    · have hnext := (mem_children_iff hv).mp hchild
      exact List.pairwise_map.mpr ((ih child hchild (hv.child hchild)).imp fun h => .step hnext h)
    · refine List.pairwise_iff_forall_sublist.mpr fun hsub a ha b hb => ?_
      obtain ⟨_, -, rfl⟩ := List.mem_map.mp ha
      obtain ⟨_, -, rfl⟩ := List.mem_map.mp hb
      exact .beside (hsub.map Prod.fst)
    · obtain ⟨child, -, ha⟩ := List.mem_flatMap.mp ha
      obtain ⟨_, -, rfl⟩ := List.mem_map.mp ha
      obtain rfl := List.mem_singleton.mp hb
      exact .inside

/-- A visit comes to every place once, in this order. -/
theorem toured_places (hv : v.Distinct) : v.Toured v.places where
  mem_iff _ := mem_places_iff hv
  ordered := ordered_places hv
  once := List.pairwise_map.mpr ((ordered_places hv).imp fun h => h.ne hv)

/-! ### What is owed to the places -/

theorem due_tree (v : Value) (trail : List Step) : Stop.due ⟨trail, v.tree⟩ = Node.due ⟨trail.reverse, v⟩ := by
  cases v with
  | block b =>
    cases hload : b.load <;>
      simp [Stop.due, Node.due, tree_block, opened?_block, form?, hload, Except.toOption, Selector.renderTrail]
  | saved p =>
    by_cases hp : p.content = .dict
    · cases hload : p.loadDict <;>
        simp [Stop.due, Node.due, tree_saved, opened?_saved, form?, hp, hload, Except.toOption, Selector.renderTrail]
    · simp [Stop.due, Node.due, tree_saved, opened?_saved, form?, hp]
  | _ => simp [Stop.due, Node.due, form?]

/-- What stands at a stop is open. -/
theorem tree_value_of_mem_stops {trail : List Step} {stop : Stop} (h : stop ∈ v.tree.stops trail) :
    stop.node.value.tree = stop.node := by
  induction v using induction_carried generalizing trail with
  | list items ih =>
    have hhere := value_tree (list items)
    rw [tree_list] at h hhere
    rw [Tree.stops, List.mem_append, List.mem_singleton] at h
    rcases h with h | rfl
    · obtain ⟨n, t, ht, hstop⟩ := exists_item_of_mem_stops h
      obtain ⟨u, hu, rfl⟩ := List.mem_map.mp (List.mem_of_getElem? ht)
      exact ih u hu hstop
    · exact (congrArg tree hhere).trans (tree_list items)
  | dict v d hd ih =>
    obtain ⟨source, htree⟩ := exists_tree_of_opened hd
    have hhere := value_tree v
    rw [htree] at h hhere
    rw [Tree.stops, List.mem_append, List.mem_singleton] at h
    rcases h with h | rfl
    · obtain ⟨entry, hentry, hstop⟩ := Dict.exists_entry_of_mem_stops h
      exact ih entry hentry hstop
    · exact (congrArg tree hhere).trans htree
  | other v hlist hopened =>
    rw [stops_of_opened_eq_none hlist hopened, List.mem_singleton] at h
    rw [h, value_tree]

theorem map_due_stops (v : Value) : (v.tree.stops []).map Stop.due = v.places.map Node.due := by
  rw [places, List.map_map]
  refine List.map_congr_left fun stop hstop => ?_
  have hdue := due_tree stop.node.value stop.trail
  rwa [tree_value_of_mem_stops hstop] at hdue

end Value

/-! ## What a visit does at the places -/

/-- A call of a hook, noted with the issues of its answer. -/
structure Called where
  call : Call
  issues : List Issue

/-- The books of a visit: each call that is owed is made, in order, and the issues are those of the answers and those
that are owed, in order as well. -/
inductive Ledger : List Due → List Called → List Issue → Prop
  | nil : Ledger [] [] []
  | call {c : Call} {told : List Issue} {dues : List Due} {notes : List Called} {issues : List Issue} :
      Ledger dues notes issues → Ledger (.call c :: dues) (⟨c, told⟩ :: notes) (Issue.audible told ++ issues)
  | report {i : Issue} {dues : List Due} {notes : List Called} {issues : List Issue} :
      Ledger dues notes issues → Ledger (.report i :: dues) notes (i :: issues)

namespace Ledger
variable {dues dues' : List Due} {notes notes' : List Called} {issues issues' : List Issue}

theorem append (h : Ledger dues notes issues) (h' : Ledger dues' notes' issues') :
    Ledger (dues ++ dues') (notes ++ notes') (issues ++ issues') := by
  induction h with
  | nil => exact h'
  | call _ ih =>
    rw [List.append_assoc]
    exact .call ih
  | report _ ih => exact .report ih

/-- The calls are those that are owed. -/
theorem calls (h : Ledger dues notes issues) : notes.map Called.call = dues.filterMap Due.call? := by
  induction h with
  | nil => rfl
  | call _ ih => exact congrArg (_ :: ·) ih
  | report _ ih => exact ih

end Ledger

section
variable {σ : Type}

/-- The hooks, with notes of their calls. -/
def Hooks.noted (h : Hooks (StateM σ)) : Hooks (StateT (List Called) (StateM σ)) where
  onValue spot v log := (fun reply => (reply, log ++ [⟨.value spot.trail, reply.issues⟩])) <$> h.onValue spot v
  onDict spot d log := (fun reply => (reply, log ++ [⟨.dict spot.trail, reply.issues⟩])) <$> h.onDict spot d

namespace Visiting
variable {α β : Type} {dues dues' : List Due}

/-- The first part of a visit does what the second one does, and its notes and issues are in order. -/
def Books (dues : List Due) (x : Visiting (StateT (List Called) (StateM σ)) α) (y : Visiting (StateM σ) α) : Prop :=
  ∀ issues log s, ∃ a notes told s', (y.run issues).run s = ((a, issues ++ told), s') ∧
    ((x.run issues).run log).run s = (((a, issues ++ told), log ++ notes), s') ∧ Ledger dues notes told

namespace Books
variable {x : Visiting (StateT (List Called) (StateM σ)) α} {y : Visiting (StateM σ) α}

theorem pure (a : α) : Books (σ := σ) [] (Pure.pure a) (Pure.pure a) := by
  intro issues log s
  refine ⟨a, [], [], s, ?_, ?_, .nil⟩
  · rw [List.append_nil]
    rfl
  · rw [List.append_nil, List.append_nil]
    rfl

theorem bind {f : α → Visiting (StateT (List Called) (StateM σ)) β} {g : α → Visiting (StateM σ) β}
    (hx : Books dues x y) (hf : ∀ a, Books dues' (f a) (g a)) : Books (dues ++ dues') (x >>= f) (y >>= g) := by
  intro issues log s
  obtain ⟨a, notes, told, s', hy, hx, hledger⟩ := hx issues log s
  obtain ⟨b, notes', told', s'', hg, hf, hledger'⟩ := hf a (issues ++ told) (log ++ notes) s'
  refine ⟨b, notes ++ notes', told ++ told', s'', ?_, ?_, hledger.append hledger'⟩
  · rw [StateT.run_bind, StateT.run_bind, hy, ← List.append_assoc, ← hg]
    rfl
  · rw [StateT.run_bind, StateT.run_bind, StateT.run_bind, hx, ← List.append_assoc, ← List.append_assoc, ← hf]
    rfl

/-- A visit with notes beside one without. -/
def tally : Tally (StateT (List Called) (StateM σ)) (StateM σ) := ⟨Books, pure, bind⟩

theorem report (source : Source) (place : String) :
    Books (σ := σ) [.report (source.issue place)] (report (source.issue place)) (report (source.issue place)) := by
  intro issues log s
  refine ⟨(), [], [source.issue place], s, ?_, ?_, .report .nil⟩
  · rw [← Issue.audible_of_own source.own_issue]
    rfl
  · rw [← Issue.audible_of_own source.own_issue, List.append_nil]
    rfl

theorem call {hook : Spot → α → StateM σ Reply} {hook' : Spot → α → StateT (List Called) (StateM σ) Reply}
    {trail : List Step} {c : Call} {a : α}
    (h : ∀ issues log, (hook' ⟨trail, issues⟩ a).run log =
      (fun reply => (reply, log ++ [⟨c, reply.issues⟩])) <$> hook ⟨trail, issues⟩ a) :
    Books [.call c] (call hook' trail a) (call hook trail a) := by
  intro issues log s
  let reply := ((hook ⟨trail, issues⟩ a).run s).1
  refine ⟨reply.value, [⟨c, reply.issues⟩], Issue.audible reply.issues ++ [], ((hook ⟨trail, issues⟩ a).run s).2, ?_, ?_,
    .call .nil⟩
  · rw [List.append_nil]
    rfl
  · rw [List.append_nil]
    have hrun : ((AssetPack.Visiting.call hook' trail a).run issues).run log = (fun r : Reply × List Called =>
        ((r.1.value, issues ++ Issue.audible r.1.issues), r.2)) <$> (hook' ⟨trail, issues⟩ a).run log := by
      simp [AssetPack.Visiting.call]
    rw [hrun, h]
    rfl

end Books

end Visiting

theorem Hooks.tallied_noted (h : Hooks (StateM σ)) : h.noted.Tallied Visiting.Books.tally h where
  report := Visiting.Books.report
  onValue _ _ := Visiting.Books.call fun _ _ => rfl
  onDict _ _ := Visiting.Books.call fun _ _ => rfl

/-- The notes of a visit with hooks that start in a state. -/
def Dict.notes (h : Hooks (StateM σ)) (s : σ) (d : Dict Value) : List Called :=
  (((d.visitRoot h.noted).run []).run s).1.2

/-- A visit with notes does what it does without, and its notes and issues are in order. -/
theorem Dict.visitRoot_noted (h : Hooks (StateM σ)) (s : σ) (d : Dict Value) :
    ((d.visitRoot h.noted).run []).run s = ((((d.visitRoot h).run s).1, d.notes h s), ((d.visitRoot h).run s).2) ∧
      Ledger ((Value.dict d).places.map Node.due) (d.notes h s) ((d.visitRoot h).run s).1.issues := by
  have hvisit : Visiting.Books _ _ _ := h.tallied_noted.visit [] (Value.dict d).tree
  obtain ⟨v, notes, issues, s', hplain, hnoted, hledger⟩ := hvisit [] [] s
  rw [Value.map_due_stops] at hledger
  rw [Value.tree_dict, Tree.visit, List.nil_append] at hplain hnoted
  have hrun : (d.visitRoot h).run s = (⟨(v.bind Value.dictValue?).bind Value.dict?, issues⟩, s') := by
    rw [visitRoot, StateT.run_bind, hplain]
    rfl
  have hrun' : ((d.visitRoot h.noted).run []).run s =
      ((⟨(v.bind Value.dictValue?).bind Value.dict?, issues⟩, notes), s') := by
    rw [visitRoot, StateT.run_bind, StateT.run_bind, hnoted]
    rfl
  have hnotes : d.notes h s = notes := by rw [Dict.notes, hrun']
  rw [hrun, hrun', hnotes]
  exact ⟨rfl, hledger⟩

end

/-! ## The calls of all places -/

/-- The steps to the place of a call, the last one first. -/
def Call.trail : Call → List Step
  | value trail => trail
  | dict trail => trail

namespace Node
variable {node : Node} {trail : List Step}

theorem due_eq_dict_iff : node.due.call? = some (.dict trail) ↔
    (∃ d, node.value.opened? = some d) ∧ node.steps = trail.reverse := by
  rw [due]
  cases node.value.opened? <;> cases node.value.form? <;> simp [Due.call?, List.reverse_eq_iff]

theorem due_eq_value_iff : node.due.call? = some (.value trail) ↔
    (node.value.opened? = none ∧ node.value.form? = none) ∧ node.steps = trail.reverse := by
  rw [due]
  cases node.value.opened? <;> cases node.value.form? <;> simp [Due.call?, List.reverse_eq_iff]

/-- A call is made where it is owed. -/
theorem steps_of_due {c : Call} (h : node.due.call? = some c) : node.steps = c.trail.reverse := by
  cases c with
  | value trail => exact (due_eq_value_iff.mp h).2
  | dict trail => exact (due_eq_dict_iff.mp h).2

end Node

namespace Value
variable {v : Value} {nodes : List Node}

/-- What a visit of a value calls, in the order of its places: the hook for dictionaries once for each place with a
dictionary that opens, the hook for values once for each place with what is no form of a dictionary. -/
structure Calls (v : Value) (nodes : List Node) (calls : List Call) : Prop where
  listed : calls = nodes.filterMap fun node => node.due.call?
  once : calls.Nodup
  dict_mem : ∀ trail, .dict trail ∈ calls ↔ ∃ u, v.at? trail.reverse = some u ∧ ∃ d, u.opened? = some d
  value_mem : ∀ trail, .value trail ∈ calls ↔
    ∃ u, v.at? trail.reverse = some u ∧ u.opened? = none ∧ u.form? = none

namespace Toured

/-- What is called at the places that steps lead to. -/
theorem mem_calls_iff (h : v.Toured nodes) {c : Call} {P : Value → Prop}
    (hc : ∀ node : Node, node.due.call? = some c ↔ P node.value ∧ node.steps = c.trail.reverse) :
    c ∈ nodes.filterMap (fun node => node.due.call?) ↔ ∃ u, v.at? c.trail.reverse = some u ∧ P u := by
  rw [List.mem_filterMap]
  constructor
  · rintro ⟨node, hnode, hdue⟩
    obtain ⟨hP, hsteps⟩ := (hc node).mp hdue
    exact ⟨node.value, hsteps ▸ (h.mem_iff node).mp hnode, hP⟩
  · rintro ⟨u, hu, hP⟩
    exact ⟨⟨c.trail.reverse, u⟩, (h.mem_iff _).mpr hu, (hc _).mpr ⟨hP, rfl⟩⟩

theorem calls (h : v.Toured nodes) : v.Calls nodes (nodes.filterMap fun node => node.due.call?) where
  listed := rfl
  once := by
    refine List.pairwise_filterMap.mpr ((List.pairwise_map.mp h.once).imp fun {a b} hne c hc c' hc' heq => hne ?_)
    rw [Node.steps_of_due hc, Node.steps_of_due hc', heq]
  dict_mem trail := h.mem_calls_iff (c := .dict trail) fun _ => Node.due_eq_dict_iff
  value_mem trail := h.mem_calls_iff (c := .value trail) fun _ => Node.due_eq_value_iff

end Toured
end Value

namespace Dict
variable {d : Dict Value}

/-- A dictionary in a payload in a list, beside a block that does not open. -/
def listedAndClosed : Dict Value := ⟨listedPayload.entries ++ [("b", .block ⟨0, [7]⟩)]⟩

/-- Hooks that count their calls, and drop everything with words. -/
def dropping : Hooks (StateM Nat) :=
  ⟨fun spot _ count => (.drop (.badImport spot.place), count + 1),
    fun spot _ count => (.drop (.valuesNotDict spot.place), count + 1)⟩

end Dict
end AssetPack
