import AssetPack.Proofs.Resource.Dependents
import AssetPack.Proofs.Resource.Flushed
import Mathlib.Logic.Relation

/-!
# The order of a flush

A flush reads every entry once, in the order in which a search through all entries leaves them. The search passes over
what is on its trail, and whatever is on the trail leads to the entry that is searched. So of two entries that depend
on one another only one way the one that the other depends on comes first.
-/
namespace AssetPack
variable {σ : Type}

namespace Container
variable {c : Container σ} {s s' : Search} {trail names : List String} {name : String}

/-- An entry needs another one that it is known to depend on. -/
def Needs (c : Container σ) (entry other : String) : Prop := c.contains other = true ∧ c.Knows entry other

theorem mem_needed {other : String} : other ∈ (c.knownDependencies name).filter c.contains ↔ c.Needs name other := by
  rw [List.mem_filter, mem_knownDependencies, Needs, and_comm]

/-- In order each entry stands behind the others that it needs, if they do not lead back to it. -/
def Search.Ordered (c : Container σ) (s : Search) : Prop :=
  ∀ entry ∈ s.order, ∀ other, c.Needs entry other → ¬Relation.ReflTransGen c.Needs other entry →
    [other, entry].Sublist s.order

/-- Entries that lead to the name, no one twice. -/
structure Trail (c : Container σ) (trail : List String) (name : String) : Prop where
  nodup : trail.Nodup
  entries : ∀ n ∈ trail, c.contains n = true
  leads : ∀ n ∈ trail, Relation.ReflTransGen c.Needs n name

theorem Trail.cons (h : c.Trail trail name) (hname : c.contains name = true) (hoff : name ∉ trail) {other : String}
    (hneeds : c.Needs name other) : c.Trail (name :: trail) other := by
  constructor
  · exact List.nodup_cons.mpr ⟨hoff, h.nodup⟩
  · exact List.forall_mem_cons.mpr ⟨hname, h.entries⟩
  · refine List.forall_mem_cons.mpr ⟨.single hneeds, fun n hn => ?_⟩
    exact (h.leads n hn).tail hneeds

/-- A search of these names along the trail keeps the order, and by now each of them is in it or on the trail. -/
structure Search.Orders (c : Container σ) (trail names : List String) (s s' : Search) : Prop where
  goes : Goes c trail s s'
  ordered : s'.Ordered c
  reached : ∀ n ∈ names, n ∈ s'.order ∨ n ∈ trail

/-- A search of one name after the other. -/
theorem Search.Orders.foldl {step : Search → String → Search} (hs : s.Sound c) (ho : s.Ordered c)
    (hstep : ∀ s, s.Sound c → s.Ordered c → ∀ n ∈ names, Orders c trail [n] s (step s n)) :
    Orders c trail names s (names.foldl step s) := by
  induction names generalizing s with
  | nil => exact ⟨.refl hs, ho, fun _ hn => (List.not_mem_nil hn).elim⟩
  | cons name rest ih =>
    have hfirst := hstep s hs ho name List.mem_cons_self
    have hrest := ih hfirst.goes.sound hfirst.ordered fun s hs ho n hn => hstep s hs ho n (List.mem_cons_of_mem _ hn)
    constructor
    · exact hfirst.goes.trans hrest.goes
    · exact hrest.ordered
    · refine List.forall_mem_cons.mpr ⟨?_, hrest.reached⟩
      exact (hfirst.reached name List.mem_cons_self).imp (fun hin => hrest.goes.kept hin) id

theorem orders_searchFrom {fuel : Nat} (hs : s.Sound c) (ho : s.Ordered c) (hname : c.contains name = true)
    (htrail : c.Trail trail name) (hfuel : c.names.length < fuel + trail.length) :
    Search.Orders c trail [name] s (c.searchFrom fuel trail s name) := by
  induction fuel generalizing s name trail with
  | zero =>
    have hle := length_le_names htrail.nodup htrail.entries
    omega
  | succ fuel ih =>
    have hgoes : Search.Goes c trail s (c.searchFrom (fuel + 1) trail s name) := goes_searchFrom (fuel + 1) hs hname
    rw [searchFrom] at hgoes ⊢
    split at hgoes <;> rename_i hmet
    · rw [if_pos hmet]
      refine ⟨hgoes, ho, fun n hn => ?_⟩
      rw [List.mem_singleton.mp hn]
      exact hmet.imp (hs.done name).mp id
    · obtain ⟨-, hoff⟩ := not_or.mp hmet
      have hinside : Search.Orders c (name :: trail) ((c.knownDependencies name).filter c.contains) s
          (((c.knownDependencies name).filter c.contains).foldl (c.searchFrom fuel (name :: trail)) s) := by
        refine .foldl hs ho fun s hs ho other hother => ?_
        have hneeds := mem_needed.mp hother
        apply ih hs ho hneeds.1 (htrail.cons hname hoff hneeds)
        rw [List.length_cons]
        omega
      rw [if_neg hmet]
      generalize ((c.knownDependencies name).filter c.contains).foldl _ s = after at hinside hgoes ⊢
      refine ⟨hgoes, fun entry hentry other hneeds hback => ?_, fun n hn => ?_⟩
      · rcases List.mem_append.mp hentry with hentry | hentry
        · exact (hinside.ordered entry hentry other hneeds hback).trans (List.sublist_append_left _ _)
        · obtain rfl := List.mem_singleton.mp hentry
          -- what is needed is in order already: if it were on the trail it would lead back
          have hother : other ∈ after.order := by
            refine (hinside.reached other (mem_needed.mpr hneeds)).resolve_right fun hon => hback ?_
            rcases List.mem_cons.mp hon with rfl | hon
            · exact .refl
            · exact htrail.leads other hon
          exact (List.singleton_sublist.mpr hother).append (List.Sublist.refl [entry])
      · exact .inl (List.mem_append_right _ hn)

/-- The search through all entries orders them. -/
theorem orders_dependencyOrder (c : Container σ) : ∃ s, Search.Orders c [] c.names ⟨[], []⟩ s ∧
    s.order = c.dependencyOrder := by
  refine ⟨_, ?_, rfl⟩
  have hempty : Search.Ordered c ⟨[], []⟩ := fun entry hentry => (List.not_mem_nil hentry).elim
  refine .foldl c.sound_empty hempty fun s hs ho name hname => ?_
  apply orders_searchFrom hs ho ((c.contains_iff_mem_names name).mpr hname)
  · constructor <;> simp
  · simp

end Container

namespace ContainerM
open Container

/-- A flush leaves what the readings of its entries leave. -/
theorem flushNames_run (names : List String) (c : Container σ) (w : σ) :
    (flushNames names c w).1.2 = (names.mapM resolve c w).1.2 ∧
      (flushNames names c w).2 = (names.mapM resolve c w).2 := by
  induction names generalizing c w with
  | nil => exact ⟨rfl, rfl⟩
  | cons name rest ih =>
    rw [List.mapM_cons]
    exact ih (resolve name c w).1.2 (resolve name c w).2

/-- Of different entries a flush makes those that were not loaded, in their order. -/
theorem flushNames_made (names : List String) (c : Container σ) (w : σ) (hnodup : names.Nodup)
    (hnames : ∀ name ∈ names, c.contains name = true) :
    ∃ made, Grows (fun _ => True) c w made (flushNames names c w).1.2 (flushNames names c w).2 ∧
      made.map (·.1) = names.filter fun name => !c.isLoaded name := by
  induction names generalizing c w with
  | nil => exact ⟨[], .refl _ c w, rfl⟩
  | cons name rest ih =>
    rw [List.nodup_cons] at hnodup
    obtain ⟨hname, hrest⟩ := List.forall_mem_cons.mp hnames
    obtain ⟨v, hv⟩ := Option.isSome_iff_exists.mp hname
    have hfirst : ∃ made, Grows (· = name) c w made (resolve name c w).1.2 (resolve name c w).2 ∧
        made.map (·.1) = [name].filter fun name => !c.isLoaded name := by
      cases hslot : c.slots.get? name with
      | some slot =>
        rw [resolve_of_slot hv hslot]
        refine ⟨[], .refl _ c w, ?_⟩
        simp [isLoaded, Dict.contains, hslot]
      | none =>
        rw [resolve_of_construct hv hslot]
        refine ⟨_, construct_grows hv hslot, ?_⟩
        simp [isLoaded, Dict.contains, hslot]
    obtain ⟨made, hmade, hnames⟩ := hfirst
    have hcontains : ∀ other ∈ rest, (resolve name c w).1.2.contains other = true := fun other hother =>
      (hmade.contains other).trans (hrest other hother)
    obtain ⟨more, hmore, hmores⟩ := ih (resolve name c w).1.2 (resolve name c w).2 hnodup.2 hcontains
    refine ⟨made ++ more, (hmade.mono fun _ _ => trivial).trans hmore, ?_⟩
    have hsame : rest.filter (fun other => !(resolve name c w).1.2.isLoaded other) =
        rest.filter fun other => !c.isLoaded other := by
      refine List.filter_congr fun other hother => congrArg _ ?_
      rw [Bool.eq_iff_iff, hmade.isLoaded, or_iff_left]
      intro hin
      rw [hnames] at hin
      exact hnodup.1 (List.mem_singleton.mp (List.mem_of_mem_filter hin) ▸ hother)
    rw [List.map_append, hnames, hmores, hsame, ← List.filter_append, List.singleton_append]

end ContainerM
end AssetPack
