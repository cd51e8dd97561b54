import AssetPack.Proofs.Resource.Memoized
import AssetPack.Proofs.Value.Reordered
import Mathlib.Data.List.Perm.Subperm
import Mathlib.Order.Bounds.Basic

/-!
# What depends on an entry

An entry is known to depend on the names it cites, also inside a payload that it consists of, and on those that its
resource declares once that was made. An invalidation follows this back from a name. What it lists is the least set of
entries with that name in it that no entry outside depends on, and only the slots of these entries are emptied.
-/
namespace AssetPack
variable {σ : Type}

namespace Value
variable {name : String}

/-- A reference to the name stands in the value. Blocks are looked into and payloads are not. -/
inductive Cites (name : String) : Value → Prop
  | ref : Cites name (.ref name)
  | item {items : List Value} {v : Value} : v ∈ items → Cites name v → Cites name (.list items)
  | entry {d : Dict Value} {entry : String × Value} :
      entry ∈ d.entries → Cites name entry.2 → Cites name (.dict d)
  | block {b : Block} {d : Dict Value} : b.load = .ok d → Cites name (.dict d) → Cites name (.block b)

@[simp] theorem cites_list {items : List Value} : (list items).Cites name ↔ ∃ v ∈ items, v.Cites name := by
  constructor
  · rintro ⟨⟩
    exact ⟨_, ‹_›, ‹_›⟩
  · rintro ⟨v, hv, hname⟩
    exact .item hv hname

@[simp] theorem cites_dict {d : Dict Value} : (dict d).Cites name ↔ ∃ entry ∈ d.entries, entry.2.Cites name := by
  constructor
  · rintro ⟨⟩
    exact ⟨_, ‹_›, ‹_›⟩
  · rintro ⟨entry, hentry, hname⟩
    exact .entry hentry hname

/-- The names that a value refers to are those it cites. -/
theorem mem_refs_iff (v : Value) : name ∈ v.refs ↔ v.Cites name := by
  induction v using induction_opened with
  | atom a =>
    cases a with
    | ref other =>
      have hrefs : (ref other).refs = [other] := rfl
      rw [hrefs, List.mem_singleton]
      constructor
      · rintro rfl
        exact .ref
      · rintro ⟨⟩
        rfl
    | _ =>
      apply iff_of_false List.not_mem_nil
      intro hcites
      cases hcites
  | list items ih =>
    rw [mem_refs_list, cites_list]
    exact exists_congr fun v => and_congr_right fun hv => ih v hv
  | dict d ih =>
    rw [mem_refs_dict, cites_dict]
    exact exists_congr fun entry => and_congr_right fun hentry => ih entry hentry
  | block b ih =>
    cases hload : b.load with
    | ok d =>
      have hrefs : (block b).refs = (dict d).refs := by
        rw [refs, refs, tree_block, hload, tree_dict, Tree.addRefs_dict (by rintro _ ⟨⟩),
          Tree.addRefs_dict (by rintro _ ⟨⟩)]
      rw [hrefs, ih d hload]
      constructor
      · exact .block hload
      · intro hcites
        cases hcites with
        | block hload' hname =>
          cases hload.symm.trans hload'
          exact hname
    | error f =>
      have hrefs : (block b).refs = [] := by
        rw [refs, tree_block, hload]
        rfl
      rw [hrefs]
      constructor
      · simp
      · intro hcites
        cases hcites with
        | block hload' => cases hload.symm.trans hload'
  | saved p ih =>
    rw [refs, addRefs_saved]
    apply iff_of_false List.not_mem_nil
    intro hcites
    cases hcites

/-- An entry that is a payload refers to what the dictionary in it cites. -/
theorem mem_entryRefs {v : Value} : name ∈ v.entryRefs ↔ v.Cites name ∨
    ∃ p d, v = .saved p ∧ p.content = .dict ∧ p.loadDict = .ok d ∧ (dict d).Cites name := by
  cases v with
  | saved p =>
    have hnone : ¬(saved p).Cites name := nofun
    rw [entryRefs, dictValue?]
    split
    · rename_i d hd
      split at hd
      · rename_i hcontent
        cases hload : p.loadDict with
        | ok e =>
          rw [hload] at hd
          cases hd
          rw [mem_refs_iff]
          simp [hnone, hcontent, hload]
        | error f => simp [hload, Except.toOption] at hd
      · cases hd
    · rename_i hd
      simp only [List.not_mem_nil, hnone, false_or, false_iff]
      rintro ⟨_, d, ⟨⟩, hcontent, hload, -⟩
      simp [hcontent, hload, Except.toOption] at hd
  | _ => simp [entryRefs, mem_refs_iff]

end Value

namespace Container
variable {c : Container σ} {entry name : String}

/-- The entry is known to depend on the name: it cites it, or is a payload with a dictionary that does, or its resource
was made and declares it. -/
inductive Knows (c : Container σ) (entry name : String) : Prop
  | cited {v : Value} : c.entries.get? entry = some v → v.Cites name → Knows c entry name
  | saved {p : Payload} {d : Dict Value} : c.entries.get? entry = some (.saved p) → p.content = .dict →
      p.loadDict = .ok d → (Value.dict d).Cites name → Knows c entry name
  | declared {slot : Slot σ} {r : Resource σ} : c.slots.get? entry = some slot → slot.object = some r →
      name ∈ r.dependencies → Knows c entry name

theorem mem_knownDependencies : name ∈ c.knownDependencies entry ↔ c.Knows entry name := by
  rw [knownDependencies, mem_foldl_add (P := fun other n => n = other) fun _ _ _ _ => mem_addName]
  constructor
  · rintro (hcited | ⟨_, hdeclared, rfl⟩)
    · cases hv : c.entries.get? entry with
      | none => simp [hv] at hcited
      | some v =>
        rw [hv] at hcited
        rcases Value.mem_entryRefs.mp hcited with hname | ⟨p, d, rfl, hcontent, hload, hname⟩
        · exact .cited hv hname
        · exact .saved hv hcontent hload hname
    · split at hdeclared
      · rename_i r hr
        obtain ⟨slot, hslot, hobject⟩ := Option.bind_eq_some_iff.mp hr
        exact .declared hslot hobject hdeclared
      · cases hdeclared
  · intro h
    cases h with
    | cited hv hname =>
      apply Or.inl
      simpa [hv] using Value.mem_entryRefs.mpr (.inl hname)
    | saved hv hcontent hload hname =>
      apply Or.inl
      simpa [hv] using Value.mem_entryRefs.mpr (.inr ⟨_, _, rfl, hcontent, hload, hname⟩)
    | declared hslot hobject hname =>
      apply Or.inr
      simpa [hslot, hobject] using hname

theorem mem_dependents : entry ∈ c.dependents name ↔ c.contains entry = true ∧ c.Knows entry name := by
  simp [dependents, mem_knownDependencies, contains, Dict.contains_iff, names]

/-! ## The closure -/

/-- Entries with the name among them, and with every entry that is known to depend on one of them. -/
structure HoldsDependents (c : Container σ) (name : String) (S : Set String) : Prop where
  self : name ∈ S
  entries : ∀ n ∈ S, c.contains n = true
  closed : ∀ entry n, c.contains entry = true → c.Knows entry n → n ∈ S → entry ∈ S

/-- What holds while the closure of a name is on its way. -/
structure Spreads (c : Container σ) (name : String) (seen queue : List String) : Prop where
  first : seen.head? = some name
  nodup : seen.Nodup
  entries : ∀ n ∈ seen, c.contains n = true
  queued : queue ⊆ seen
  /-- nothing is in it but what must be -/
  needed : ∀ S, c.HoldsDependents name S → ∀ n ∈ seen, n ∈ S
  /-- what is not queued any more has brought in its dependents -/
  spread : ∀ entry n, c.contains entry = true → c.Knows entry n → n ∈ seen → n ∉ queue → entry ∈ seen

theorem Spreads.start (h : c.contains name = true) : c.Spreads name [name] [name] := by
  constructor
  · rfl
  · exact List.nodup_singleton name
  · simpa using h
  · exact List.Subset.refl _
  · intro S hS n hn
    exact List.mem_singleton.mp hn ▸ hS.self
  · exact fun _ _ _ _ hseen hnot => absurd hseen hnot

theorem Spreads.step {next : String} {seen queue : List String} (h : c.Spreads name seen (next :: queue))
    (hc : c.names.Nodup) :
    c.Spreads name (seen ++ (c.dependents next).filter (· ∉ seen))
      (queue ++ (c.dependents next).filter (· ∉ seen)) := by
  have hnew {n : String} : n ∈ (c.dependents next).filter (· ∉ seen) ↔
      (c.contains n = true ∧ c.Knows n next) ∧ n ∉ seen := by
    rw [List.mem_filter, mem_dependents, decide_eq_true_iff]
  have hnext : next ∈ seen := h.queued List.mem_cons_self
  constructor
  · rw [List.head?_append, h.first, Option.some_or]
  · rw [List.nodup_append]
    refine ⟨h.nodup, (hc.filter _).filter _, ?_⟩
    rintro n hn _ hn' rfl
    exact (hnew.mp hn').2 hn
  · intro n hn
    exact (List.mem_append.mp hn).elim (h.entries n) fun hn => (hnew.mp hn).1.1
  · intro n hn
    rcases List.mem_append.mp hn with hn | hn
    · exact List.mem_append_left _ (h.queued (List.mem_cons_of_mem _ hn))
    · exact List.mem_append_right _ hn
  · intro S hS n hn
    rcases List.mem_append.mp hn with hn | hn
    · exact h.needed S hS n hn
    · obtain ⟨⟨hin, hknows⟩, -⟩ := hnew.mp hn
      exact hS.closed n next hin hknows (h.needed S hS next hnext)
  · intro entry n hin hknows hn hnot
    rw [List.mem_append, not_or] at hnot
    have hseen : n ∈ seen := (List.mem_append.mp hn).resolve_right hnot.2
    by_cases hentry : entry ∈ seen
    · exact List.mem_append_left _ hentry
    by_cases hsame : n = next
    · subst hsame
      exact List.mem_append_right _ (hnew.mpr ⟨⟨hin, hknows⟩, hentry⟩)
    · exact absurd (h.spread entry n hin hknows hseen (by simp [hsame, hnot.1])) hentry

/-- Names of entries, all different, are no more than the entries. -/
theorem length_le_names {names : List String} (hnodup : names.Nodup) (h : ∀ n ∈ names, c.contains n = true) :
    names.length ≤ c.names.length := by
  apply List.Subperm.length_le
  apply hnodup.subperm
  intro n hn
  exact Dict.contains_iff.mp (h n hn)

/-- Each step takes one name off the queue, and what it adds there it adds to what is seen. -/
theorem spreads_closure {fuel : Nat} {seen queue : List String} (hc : c.names.Nodup) (h : c.Spreads name seen queue)
    (hfuel : c.names.length + queue.length < fuel + seen.length) : c.Spreads name (c.closure fuel seen queue) [] := by
  induction fuel generalizing seen queue with
  | zero =>
    have hle := length_le_names h.nodup h.entries
    omega
  | succ fuel ih =>
    cases queue with
    | nil => exact h
    | cons next queue =>
      rw [closure]
      apply ih (h.step hc)
      simp only [List.length_append, List.length_cons] at hfuel ⊢
      omega

theorem spreads_listed (hc : c.names.Nodup) (h : c.contains name = true) : c.Spreads name (c.listed name) [] := by
  rw [listed, if_pos h]
  apply spreads_closure hc (.start h)
  simp

theorem Spreads.isLeast {seen : List String} (h : c.Spreads name seen []) :
    IsLeast {S | c.HoldsDependents name S} {n | n ∈ seen} := by
  constructor
  · constructor
    · exact List.mem_of_mem_head? h.first
    · exact h.entries
    · intro entry n hin hknows hn
      exact h.spread entry n hin hknows hn List.not_mem_nil
  · exact fun S hS n hn => h.needed S hS n hn

/-- An invalidated entry is not loaded. -/
theorem isLoaded_forget_of_mem {names : List String} (h : name ∈ names) : (c.forget names).isLoaded name = false := by
  rw [← Bool.not_eq_true, isLoaded_forget]
  exact fun hloaded => hloaded.2 h

end Container

namespace Session
variable {c₀ : Container σ} {w₀ : σ} {s : Session σ}

theorem Sound.nodup_names (h : s.Sound c₀ w₀) (hc : c₀.names.Nodup) : s.container.names.Nodup := by
  rwa [Container.names, h.entries]

end Session

theorem Container.nodup_names_ofDict {d : Dict Value} (hd : d.Distinct) (registry : Registry σ) :
    (Container.ofDict d registry).names.Nodup :=
  hd.sublist (List.filter_sublist.map _)

end AssetPack
