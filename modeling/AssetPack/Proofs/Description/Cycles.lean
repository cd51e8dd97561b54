import AssetPack.Description.References
import AssetPack.Proofs.Dict
import Mathlib.Data.List.Chain
import Mathlib.Data.List.Nodup
import Mathlib.Data.List.Perm.Subperm
import Mathlib.Data.List.Rotate
import Mathlib.Logic.Relation

/-!
# The search for cycles

A search that finds no cycle ends with each name after all those it refers to. So the names it has
ended with stand in an order in which every reference goes one way, and no name comes back to itself.
-/
namespace AssetPack

/-! ## Orders in which a relation goes one way -/

section
variable {r : String → String → Prop}

/-- Names that are related only to names behind them. -/
def Settled (r : String → String → Prop) : List String → Prop
  | [] => True
  | name :: rest => (∀ b, r name b → b ∈ rest) ∧ Settled r rest

theorem Settled.closed {names : List String} (h : Settled r names) {a b : String} (ha : a ∈ names)
    (hab : r a b) : b ∈ names := by
  induction names with
  | nil => cases ha
  | cons name rest ih =>
    rcases List.mem_cons.mp ha with rfl | ha
    · exact List.mem_cons_of_mem _ (h.1 b hab)
    · exact List.mem_cons_of_mem _ (ih h.2 ha)

theorem Settled.mem_of_reaches {names : List String} (h : Settled r names) {a b : String}
    (ha : a ∈ names) (hab : Relation.ReflTransGen r a b) : b ∈ names := by
  induction hab with
  | refl => exact ha
  | tail _ hstep ih => exact h.closed ih hstep

theorem Settled.not_cyclic {names : List String} (h : Settled r names) {a : String} (ha : a ∈ names) :
    ¬Relation.TransGen r a a := by
  induction names with
  | nil => cases ha
  | cons name rest ih =>
    by_cases hrest : a ∈ rest
    · exact ih h.2 hrest
    · -- what the first name leads to stands behind it, so the way back would have to end there
      obtain rfl : a = name := (List.mem_cons.mp ha).resolve_right hrest
      intro hcycle
      obtain ⟨b, hab, hba⟩ := Relation.TransGen.head'_iff.mp hcycle
      exact hrest (h.2.mem_of_reaches (h.1 b hab) hba)

end

namespace Graph
variable {g : Graph}

def Refers (g : Graph) (a b : String) : Prop := (a, b) ∈ g.edges

/-! ## The names of a graph -/

theorem mem_sortNames {names : List String} {name : String} : name ∈ sortNames names ↔ name ∈ names := by
  rw [sortNames, List.mem_eraseDups, List.mem_mergeSort]

theorem mem_targets {a b : String} : b ∈ g.targets a ↔ g.Refers a b := by
  rw [targets, mem_sortNames, List.mem_map]
  constructor
  · rintro ⟨⟨a', b'⟩, hmem, rfl⟩
    obtain ⟨hedge, ha⟩ := List.mem_filter.mp hmem
    obtain rfl : a' = a := by simpa using ha
    exact hedge
  · intro hab
    exact ⟨(a, b), List.mem_filter.mpr ⟨hab, decide_eq_true rfl⟩, rfl⟩

theorem mem_nodes {a b : String} (hab : g.Refers a b) : a ∈ g.nodes ∧ b ∈ g.nodes := by
  rw [nodes, mem_sortNames, mem_sortNames, List.mem_append, List.mem_append]
  exact ⟨.inl (List.mem_map_of_mem (f := (·.1)) hab), .inr (List.mem_map_of_mem (f := (·.2)) hab)⟩

/-! ## The search -/

/-- Unless it found a cycle, a search has gone on from `s` to `s'` and ended with these names. -/
def Ends (g : Graph) (s : Search) (names : List String) (s' : Search) : Prop :=
  s'.cycles = [] → s.cycles = [] ∧
    (Settled g.Refers s.done → Settled g.Refers s'.done ∧ s.done ⊆ s'.done ∧ names ⊆ s'.done)

theorem Ends.foldl {f : Search → String → Search} {names : List String}
    (hf : ∀ s, ∀ name ∈ names, g.Ends s [name] (f s name)) (s : Search) :
    g.Ends s names (names.foldl f s) := by
  induction names generalizing s with
  | nil => exact fun h => ⟨h, fun hs => ⟨hs, List.Subset.refl _, List.nil_subset _⟩⟩
  | cons name rest ih =>
    intro h
    obtain ⟨hfirst, hrest⟩ := ih (fun s n hn => hf s n (List.mem_cons_of_mem _ hn)) (f s name) h
    obtain ⟨hs, hname⟩ := hf s name List.mem_cons_self hfirst
    refine ⟨hs, fun hsettled => ?_⟩
    obtain ⟨hsettled₁, hdone₁, hname₁⟩ := hname hsettled
    obtain ⟨hsettled₂, hdone₂, hrest₂⟩ := hrest hsettled₁
    refine ⟨hsettled₂, List.Subset.trans hdone₁ hdone₂, ?_⟩
    exact List.cons_subset.mpr ⟨hdone₂ (hname₁ List.mem_cons_self), hrest₂⟩

/-- The names on the trail are different ones of the graph, so fuel for all of them does not run out. -/
theorem ends_searchFrom {fuel : Nat} {trail : List String} {s : Search} {name : String}
    (hfuel : g.nodes.length < fuel + trail.length) (hnodup : trail.Nodup) (htrail : trail ⊆ g.nodes)
    (hname : name ∈ g.nodes) : g.Ends s [name] (searchFrom g fuel trail s name) := by
  induction fuel generalizing trail s name with
  | zero =>
    have hle := (hnodup.subperm htrail).length_le
    omega
  | succ fuel ih =>
    rw [searchFrom]
    split
    · rename_i hdone
      exact fun h => ⟨h, fun hs => ⟨hs, List.Subset.refl _, by simpa using hdone⟩⟩
    · split
      · intro h
        exact absurd h (List.append_ne_nil_of_right_ne_nil _ (List.cons_ne_nil _ _))
      · rename_i hnew
        have hlonger : (trail ++ [name]).Nodup :=
          List.nodup_append.mpr ⟨hnodup, List.nodup_singleton name, fun a ha b hb hab =>
            hnew (List.mem_singleton.mp hb ▸ hab ▸ ha)⟩
        have hinside : trail ++ [name] ⊆ g.nodes :=
          List.append_subset.mpr ⟨htrail, by simpa using hname⟩
        have hroom : g.nodes.length < fuel + (trail ++ [name]).length := by
          rw [List.length_append, List.length_singleton]
          omega
        have htargets : g.Ends s (g.targets name)
            ((g.targets name).foldl (searchFrom g fuel (trail ++ [name])) s) :=
          Ends.foldl (fun s b hb => ih hroom hlonger hinside (mem_nodes (mem_targets.mp hb)).2) s
        intro h
        obtain ⟨hs, hsearch⟩ := htargets h
        refine ⟨hs, fun hsettled => ?_⟩
        obtain ⟨hsettled', hdone, hall⟩ := hsearch hsettled
        refine ⟨⟨fun b hb => hall (mem_targets.mpr hb), hsettled'⟩, ?_, ?_⟩
        · exact fun n hn => List.mem_cons_of_mem _ (hdone hn)
        · simp

/-- Where the search finds no cycle there is none. -/
theorem not_cyclic_of_cycles (h : g.cycles = []) (a : String) : ¬Relation.TransGen g.Refers a a := by
  have hsources : ∀ s, ∀ name ∈ g.sources, g.Ends s [name] (searchFrom g (g.nodes.length + 1) [] s name) := by
    intro s name hname
    obtain ⟨⟨_, b⟩, hedge, rfl⟩ := List.mem_map.mp (mem_sortNames.mp hname)
    exact ends_searchFrom (by simp) List.nodup_nil (List.nil_subset _) (mem_nodes hedge).1
  obtain ⟨_, hsettled⟩ := Ends.foldl hsources ⟨[], []⟩ h
  obtain ⟨hsettled, _, hall⟩ := hsettled trivial
  intro hcycle
  obtain ⟨b, hab, _⟩ := Relation.TransGen.head'_iff.mp hcycle
  have ha : a ∈ g.sources := mem_sortNames.mpr (List.mem_map_of_mem (f := (·.1)) hab)
  exact hsettled.not_cyclic (hall ha) hcycle

end Graph

/-!
## The cycles that are reported

A reported cycle is the end of the trail, from a name to the one that refers back to it. Since a name that was
searched to the end is never searched again, two reports that come one after the other differ: what the first one
holds is done before the second begins, or the second goes on to a name beyond it, or both close at the same end of
the trail and begin at different names. So a cycle is reported once, in one of its rotations.
-/
namespace Graph
variable {g : Graph}

/-- Names that lead from one to the next and back to the first. On the way no name comes twice. -/
structure IsCycle (g : Graph) (names : List String) : Prop where
  long : 2 ≤ names.length
  refers : names.IsChain g.Refers
  closed : names.head? = names.getLast?
  simple : names.dropLast.Nodup

theorem nodup_sortNames (names : List String) : (sortNames names).Nodup := by
  have hnames : (Dict.ofList ((names.mergeSort (· ≤ ·)).map fun name => (name, ()))).names = sortNames names := by
    rw [Dict.names_ofList, List.map_map, sortNames]
    exact congrArg List.eraseDups (List.map_id _)
  rw [← hnames]
  exact Dict.distinct_ofList _

/-- A name of a cycle leads back to itself. -/
theorem IsCycle.exists_cyclic {names : List String} (h : g.IsCycle names) :
    ∃ name, Relation.TransGen g.Refers name name := by
  obtain ⟨hlong, hrefers, hclosed, -⟩ := h
  cases names with
  | nil => simp at hlong
  | cons first rest =>
    cases rest with
    | nil => simp at hlong
    | cons second rest =>
      have hback : (second :: rest).getLast (List.cons_ne_nil _ _) = first := by
        simpa [List.getLast?_eq_some_getLast] using hclosed.symm
      refine ⟨first, .head' (List.isChain_cons_cons.mp hrefers).1 ?_⟩
      exact List.relationReflTransGen_of_exists_isChain_cons rest (List.isChain_cons_cons.mp hrefers).2 hback

/-- The last name of a cycle is the first one again. -/
theorem IsCycle.mem_iff {names : List String} (h : g.IsCycle names) {name : String} :
    name ∈ names ↔ name ∈ names.dropLast := by
  constructor
  · intro hname
    obtain ⟨hlong, -, hclosed, -⟩ := h
    rcases names.eq_nil_or_concat with rfl | ⟨front, last, rfl⟩
    · simp at hlong
    · rw [List.concat_eq_append] at hlong hclosed hname ⊢
      cases front with
      | nil => simp at hlong
      | cons first rest =>
        rw [List.getLast?_concat] at hclosed
        obtain rfl : first = last := Option.some.inj hclosed
        rw [List.dropLast_concat]
        simpa [or_comm] using hname
  · exact fun hname => List.mem_of_mem_dropLast hname

/-! ### The end of a trail -/

/-- The trail from the name on, and back to it. -/
def closing (trail : List String) (name : String) : List String := trail.dropWhile (· ≠ name) ++ [name]

theorem exists_closing {trail : List String} {name : String} (h : name ∈ trail) :
    ∃ front back, trail = front ++ name :: back ∧ closing trail name = name :: back ++ [name] := by
  obtain ⟨front, back, rfl, hfront⟩ := List.eq_append_cons_of_mem h
  refine ⟨front, back, rfl, ?_⟩
  have hpass : ∀ other ∈ front, decide (other ≠ name) = true := by
    intro other hother
    simpa using fun heq : other = name => hfront (heq ▸ hother)
  rw [closing, List.dropWhile_append_of_pos hpass]
  simp

theorem closing_subset {trail : List String} {name : String} (h : name ∈ trail) : closing trail name ⊆ trail := by
  obtain ⟨front, back, rfl, hclosing⟩ := exists_closing h
  rw [hclosing]
  simp

/-- The last name of the trail is in what closes. -/
theorem mem_closing_concat {trail : List String} {name other : String} (h : other ∈ trail ++ [name]) :
    name ∈ closing (trail ++ [name]) other := by
  obtain ⟨front, back, heq, hclosing⟩ := exists_closing h
  have hlast : (other :: back).getLast? = some name := by
    rw [← List.getLast?_append_of_ne_nil front (List.cons_ne_nil other back), ← heq, List.getLast?_concat]
  rw [hclosing]
  exact List.mem_append_left _ (List.mem_of_getLast? hlast)

/-- On a trail without repetition, of two names only the one that stands first leads to the other. -/
theorem eq_of_mem_closing {trail : List String} (hnodup : trail.Nodup) {a b : String} (ha : a ∈ trail)
    (hb : b ∈ trail) (hab : a ∈ closing trail b) (hba : b ∈ closing trail a) : a = b := by
  obtain ⟨front, back, rfl, hclosing⟩ := exists_closing ha
  rw [hclosing] at hba
  by_contra hne
  have hback : b ∈ back := by simpa [Ne.symm hne] using hba
  obtain ⟨middle, rest, rfl⟩ := List.append_of_mem hback
  have hpass : ∀ other ∈ front ++ a :: middle, decide (other ≠ b) = true := by
    intro other hother
    rw [decide_eq_true_iff]
    rintro rfl
    rw [← List.cons_append, ← List.append_assoc] at hnodup
    exact (List.nodup_append.mp hnodup).2.2 other hother other List.mem_cons_self rfl
  rw [closing, ← List.cons_append, ← List.append_assoc, List.dropWhile_append_of_pos hpass] at hab
  have hrest : a ∈ rest := by simpa [hne] using hab
  rw [List.nodup_append, List.nodup_cons] at hnodup
  exact hnodup.2.1.1 (by simp [hrest])

theorem isCycle_closing {trail : List String} {name : String} (hchain : (trail ++ [name]).IsChain g.Refers)
    (hnodup : trail.Nodup) (h : name ∈ trail) : g.IsCycle (closing trail name) := by
  obtain ⟨front, back, rfl, hclosing⟩ := exists_closing h
  rw [hclosing]
  constructor
  · simp
  · rw [List.append_assoc] at hchain
    exact hchain.right_of_append
  · rw [List.getLast?_concat]
    rfl
  · rw [List.dropLast_concat]
    exact (List.nodup_append.mp hnodup).2.1

/-! ### What a search finds -/

/-- A search along the trail has gone from `s` to `s'` and found these cycles. Their names were not done before. By now
one name of each is done, or the cycle closes the trail itself at one of the names `ends`. -/
structure Finds (g : Graph) (trail ends : List String) (s : Search) (found : List (List String)) (s' : Search) :
    Prop where
  cycles : s'.cycles = s.cycles ++ found
  done : s.done ⊆ s'.done
  apart : ∀ name ∈ trail, name ∉ s.done → name ∉ s'.done
  real : ∀ names ∈ found, g.IsCycle names
  fresh : ∀ names ∈ found, ∀ name ∈ names, name ∉ s.done
  ended : ∀ names ∈ found, (∃ name ∈ names, name ∈ s'.done) ∨ ∃ name ∈ ends, name ∈ trail ∧ names = closing trail name
  once : found.Pairwise fun names others => ¬∀ name, name ∈ names ↔ name ∈ others

namespace Finds
variable {trail ends ends' : List String} {s s' s'' : Search} {found found' : List (List String)}

theorem refl (g : Graph) (trail ends : List String) (s : Search) : g.Finds trail ends s [] s := by
  constructor <;> simp

theorem mono (h : g.Finds trail ends s found s') (hsub : ends ⊆ ends') : g.Finds trail ends' s found s' := by
  refine { h with ended := fun names hnames => ?_ }
  exact (h.ended names hnames).imp id fun ⟨name, hname, hclosing⟩ => ⟨name, hsub hname, hclosing⟩

/-- What is found later differs from what was found before. -/
theorem differ (h : g.Finds trail ends s found s') (h' : g.Finds trail ends' s' found' s'') (hnodup : trail.Nodup)
    (hopen : ∀ name ∈ trail, name ∉ s.done) (hends : ∀ name ∈ ends, name ∉ ends') {names others : List String}
    (hnames : names ∈ found) (hothers : others ∈ found') : ¬∀ name, name ∈ names ↔ name ∈ others := by
  intro hsame
  rcases h.ended names hnames with ⟨name, hname, hdone⟩ | ⟨a, ha, hatrail, rfl⟩
  · exact h'.fresh others hothers name ((hsame name).mp hname) hdone
  rcases h'.ended others hothers with ⟨name, hname, hdone⟩ | ⟨b, hb, hbtrail, rfl⟩
  · -- the later one goes on to a name that is done by now, and none of the trail is
    have htrail : name ∈ trail := closing_subset hatrail ((hsame name).mpr hname)
    exact h'.apart name htrail (h.apart name htrail (hopen name htrail)) hdone
  · have hself (name : String) : name ∈ closing trail name := by simp [closing]
    have hab : a = b :=
      eq_of_mem_closing hnodup hatrail hbtrail ((hsame a).mp (hself a)) ((hsame b).mpr (hself b))
    exact hends a ha (hab ▸ hb)

theorem trans (h : g.Finds trail ends s found s') (h' : g.Finds trail ends' s' found' s'') (hnodup : trail.Nodup)
    (hopen : ∀ name ∈ trail, name ∉ s.done) (hends : ∀ name ∈ ends, name ∉ ends') :
    g.Finds trail (ends ++ ends') s (found ++ found') s'' := by
  constructor
  · rw [h'.cycles, h.cycles, List.append_assoc]
  · exact List.Subset.trans h.done h'.done
  · exact fun name hname hnot => h'.apart name hname (h.apart name hname hnot)
  · intro names hnames
    exact (List.mem_append.mp hnames).elim (h.real names) (h'.real names)
  · intro names hnames name hname
    rcases List.mem_append.mp hnames with hnames | hnames
    · exact h.fresh names hnames name hname
    · exact fun hdone => h'.fresh names hnames name hname (h.done hdone)
  · intro names hnames
    rcases List.mem_append.mp hnames with hnames | hnames
    · rcases h.ended names hnames with ⟨name, hname, hdone⟩ | ⟨name, hname, hclosing⟩
      · exact .inl ⟨name, hname, h'.done hdone⟩
      · exact .inr ⟨name, List.mem_append_left _ hname, hclosing⟩
    · rcases h'.ended names hnames with hdone | ⟨name, hname, hclosing⟩
      · exact .inl hdone
      · exact .inr ⟨name, List.mem_append_right _ hname, hclosing⟩
  · rw [List.pairwise_append]
    exact ⟨h.once, h'.once, fun names hnames others hothers => h.differ h' hnodup hopen hends hnames hothers⟩

/-- A search of one name after the other. -/
theorem foldl {step : Search → String → Search} {names : List String} (hnodup : trail.Nodup) (hnames : names.Nodup)
    (hstep : ∀ s, (∀ name ∈ trail, name ∉ s.done) → ∀ name ∈ names, ∃ found, g.Finds trail [name] s found (step s name))
    (hopen : ∀ name ∈ trail, name ∉ s.done) : ∃ found, g.Finds trail names s found (names.foldl step s) := by
  induction names generalizing s with
  | nil => exact ⟨[], refl g trail [] s⟩
  | cons name rest ih =>
    rw [List.nodup_cons] at hnames
    obtain ⟨found, hfirst⟩ := hstep s hopen name List.mem_cons_self
    have hopen' : ∀ other ∈ trail, other ∉ (step s name).done := by
      intro other hother
      exact hfirst.apart other hother (hopen other hother)
    obtain ⟨found', hrest⟩ :=
      ih hnames.2 (fun s hs n hn => hstep s hs n (List.mem_cons_of_mem _ hn)) hopen'
    refine ⟨found ++ found', hfirst.trans hrest hnodup hopen ?_⟩
    simpa using hnames.1

end Finds

theorem finds_searchFrom {fuel : Nat} {trail : List String} {s : Search} {name : String} (hnodup : trail.Nodup)
    (hopen : ∀ name ∈ trail, name ∉ s.done) (hchain : (trail ++ [name]).IsChain g.Refers) :
    ∃ found, g.Finds trail [name] s found (searchFrom g fuel trail s name) := by
  induction fuel generalizing trail s name with
  | zero => exact ⟨[], .refl g trail [name] s⟩
  | succ fuel ih =>
    rw [searchFrom]
    split
    · exact ⟨[], .refl g trail [name] s⟩
    · rename_i hundone
      split
      · rename_i hmem
        have hcycle : g.IsCycle (closing trail name) := isCycle_closing hchain hnodup hmem
        have hfresh : ∀ other ∈ closing trail name, other ∉ s.done := fun other hother =>
          hopen other (closing_subset hmem hother)
        refine ⟨[closing trail name], ?_⟩
        constructor
        · rfl
        · exact List.Subset.refl _
        · exact fun _ _ => id
        · simpa using hcycle
        · simpa using hfresh
        · simpa using Or.inr hmem
        · simp
      · rename_i hnew
        have hlonger : (trail ++ [name]).Nodup := by
          rw [List.nodup_append]
          refine ⟨hnodup, List.nodup_singleton name, ?_⟩
          rintro other hother _ hsame rfl
          exact hnew (List.mem_singleton.mp hsame ▸ hother)
        have hopen' : ∀ other ∈ trail ++ [name], other ∉ s.done := by
          simpa [or_imp, forall_and] using And.intro hopen hundone
        have hinside : ∃ found, g.Finds (trail ++ [name]) (g.targets name) s found
            ((g.targets name).foldl (searchFrom g fuel (trail ++ [name])) s) := by
          refine Finds.foldl hlonger (nodup_sortNames _) (fun s hs b hb => ?_) hopen'
          exact ih hlonger hs (hchain.append (.singleton b) (by simpa using mem_targets.mp hb))
        obtain ⟨found, h⟩ := hinside
        generalize (g.targets name).foldl _ s = after at h
        refine ⟨found, ?_⟩
        constructor
        · exact h.cycles
        · exact List.subset_cons_of_subset _ h.done
        · intro other hother hnot
          have hne : other ≠ name := fun heq => hnew (heq ▸ hother)
          simpa [hne] using h.apart other (List.mem_append_left _ hother) hnot
        · exact h.real
        · exact h.fresh
        · -- the name itself is done now, and every cycle that closes the longer trail holds it
          intro names hnames
          rcases h.ended names hnames with ⟨other, hother, hdone⟩ | ⟨other, -, hother, rfl⟩
          · exact .inl ⟨other, hother, List.mem_cons_of_mem _ hdone⟩
          · exact .inl ⟨name, mem_closing_concat hother, List.mem_cons_self⟩
        · exact h.once

/-- The whole search finds the cycles that are reported. -/
theorem finds_cycles (g : Graph) : ∃ s, g.Finds [] g.sources ⟨[], []⟩ g.cycles s := by
  have hnone : ∀ name ∈ [], name ∉ (⟨[], []⟩ : Search).done := by simp
  obtain ⟨found, h⟩ : ∃ found, g.Finds [] g.sources ⟨[], []⟩ found
      (g.sources.foldl (searchFrom g (g.nodes.length + 1) []) ⟨[], []⟩) := by
    refine Finds.foldl .nil (nodup_sortNames _) (fun s hs name _ => ?_) hnone
    exact finds_searchFrom .nil hs (.singleton name)
  have hfound : g.cycles = found := h.cycles
  exact ⟨_, hfound ▸ h⟩

/-- The search reports something if and only if some name leads back to itself. What it reports are cycles, and
none is a rotation of another one. -/
theorem cycles_reported_once (g : Graph) :
    (g.cycles = [] ↔ ∀ name, ¬Relation.TransGen g.Refers name name) ∧
      (∀ names ∈ g.cycles, g.IsCycle names) ∧
      g.cycles.Pairwise fun names others => ¬names.dropLast.IsRotated others.dropLast := by
  obtain ⟨s, h⟩ := g.finds_cycles
  refine ⟨⟨not_cyclic_of_cycles, fun hacyclic => ?_⟩, h.real, ?_⟩
  · rw [List.eq_nil_iff_forall_not_mem]
    intro names hnames
    obtain ⟨name, hcyclic⟩ := (h.real names hnames).exists_cyclic
    exact hacyclic name hcyclic
  · refine h.once.imp_of_mem fun hnames hothers hdiffer hrotated => hdiffer fun name => ?_
    rw [(h.real _ hnames).mem_iff, (h.real _ hothers).mem_iff]
    exact hrotated.mem_iff

end Graph
end AssetPack
