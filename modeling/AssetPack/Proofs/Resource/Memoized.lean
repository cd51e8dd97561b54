import AssetPack.Proofs.Resource.Made
import Mathlib.Data.List.Nodup

/-!
# What is made once

Of an entry at most one resource is made, and one more for every invalidation that lists it. The balance behind this
counts for each entry what was made, what may yet be made for a slot that was taken away, and the slot that is still
empty: each invalidation adds one, and nothing else changes the sum.
-/
namespace AssetPack
variable {σ : Type}

/-- Whether an operation asks what an entry stands for. -/
def Operation.Resolves (name : String) : Operation → Prop
  | .object other => name = other
  | .value other => name = other
  | .dependencies other => name = other
  | .flush => True
  | _ => False

def Container.Event.Resolves (name : String) : Container.Event → Prop
  | .ask o => o.Resolves name
  | .read other => name = other
  | .finish _ => False

namespace ContainerM
open Container

/-- What an operation leaves: it makes what it resolves, or takes away what it lists, or takes the issues. -/
theorem perform_cases (o : Operation) (c : Container σ) (w : σ) :
    (∃ made, Grows o.Resolves c w made (perform o c w).1.2 (perform o c w).2 ∧
      (perform o c w).1.1.invalid = [] ∧ (perform o c w).1.1.taken = []) ∨
    (∃ name, o = .invalidate name ∧
      perform o c w = ((.invalidated (c.listed name), c.forget (c.listed name)), w)) ∨
    (o = .takeIssues ∧ perform o c w = ((.issues c.issues, { c with issues := [] }), w)) := by
  cases o with
  | names => exact .inl ⟨[], .refl _ c w, rfl, rfl⟩
  | contains name => exact .inl ⟨[], .refl _ c w, rfl, rfl⟩
  | descriptor name => exact .inl ⟨[], .refl _ c w, rfl, rfl⟩
  | isLoaded name => exact .inl ⟨[], .refl _ c w, rfl, rfl⟩
  | prefetch name => exact .inl ⟨[], .refl _ c w, rfl, rfl⟩
  | object name =>
    obtain ⟨made, h⟩ := resolve_grows name c w
    exact .inl ⟨made, h.mono fun _ => id, rfl, rfl⟩
  | value name =>
    obtain ⟨made, h⟩ := resolve_grows name c w
    exact .inl ⟨made, h.mono fun _ => id, rfl, rfl⟩
  | dependencies name =>
    obtain ⟨made, h⟩ := resolve_grows name c w
    rw [perform, bind_run, dependencies_run]
    exact .inl ⟨made, h.mono fun _ => id, rfl, rfl⟩
  | flush =>
    obtain ⟨made, h⟩ := flushNames_grows c.dependencyOrder c w
    exact .inl ⟨made, h, rfl, rfl⟩
  | invalidate name =>
    refine .inr (.inl ⟨name, rfl, ?_⟩)
    rw [perform, bind_run, invalidate_run]
    rfl
  | takeIssues => exact .inr (.inr ⟨rfl, rfl⟩)

end ContainerM
namespace Container

/-- 1 for a slot that is empty. -/
def vacancy (c : Container σ) (name : String) : Nat := if c.isLoaded name then 0 else 1

theorem vacancy_forget (c : Container σ) (names : List String) (name : String) :
    (c.forget names).vacancy name = if name ∈ names then 1 else c.vacancy name := by
  have hloaded := c.isLoaded_forget names name
  rw [vacancy, vacancy]
  by_cases hlisted : name ∈ names
  · rw [if_neg fun h => (hloaded.mp h).2 hlisted, if_pos hlisted]
  · rw [if_neg hlisted]
    by_cases hbefore : c.isLoaded name = true
    · rw [if_pos (hloaded.mpr ⟨hbefore, hlisted⟩), if_pos hbefore]
    · rw [if_neg fun h => hbefore (hloaded.mp h).1, if_neg hbefore]

/-- What is made of a name fills its empty slot. -/
theorem Grows.vacancy {P : String → Prop} {c c' : Container σ} {w w' : σ} {made : List (String × Slot σ)}
    (h : Grows P c w made c' w') (name : String) :
    (made.map (·.1)).count name + c'.vacancy name = c.vacancy name := by
  have hloaded := h.isLoaded name
  rw [Container.vacancy, Container.vacancy]
  by_cases hmade : name ∈ made.map (·.1)
  · obtain ⟨entry, hentry, rfl⟩ := List.mem_map.mp hmade
    rw [List.count_eq_one_of_mem h.nodup hmade, if_pos (hloaded.mpr (.inr hmade)), (h.named entry hentry).2.2]
    rfl
  · rw [List.count_eq_zero_of_not_mem hmade, Nat.zero_add]
    by_cases hbefore : c.isLoaded name = true
    · rw [if_pos (hloaded.mpr (.inl hbefore)), if_pos hbefore]
    · rw [if_neg fun h => (hloaded.mp h).elim hbefore hmade, if_neg hbefore]

/-- Slots of higher numbers stand behind the others. -/
theorem Grows.madeAfter {P : String → Prop} {c c' : Container σ} {w w' : σ} {made : List (String × Slot σ)}
    (h : Grows P c w made c' w') (hc : ∀ entry ∈ c.slots.entries, entry.2.serial ≤ c.built) :
    c'.madeAfter c.built = made := by
  have hold : c.slots.entries.filter (fun entry => decide (c.built < entry.2.serial)) = [] := by
    refine List.filter_eq_nil_iff.mpr fun entry hentry => ?_
    rw [decide_eq_true_iff, Nat.not_lt]
    exact hc entry hentry
  have hnew : made.filter (fun entry => decide (c.built < entry.2.serial)) = made := by
    refine List.filter_eq_self.mpr fun entry hentry => ?_
    have hserial : entry.2.serial ∈ List.range' (c.built + 1) made.length :=
      h.numbered ▸ List.mem_map_of_mem (f := (·.2.serial)) hentry
    rw [decide_eq_true_iff]
    exact (List.mem_range'_1.mp hserial).1
  rw [Container.madeAfter, h.slots, List.filter_append, hold, hnew, List.nil_append]

end Container

namespace Session
variable {c₀ : Container σ} {w₀ : σ} {s : Session σ}

/-- What holds of a session at any time, `c₀` and `w₀` being the container and the world at its start. -/
structure Sound (c₀ : Container σ) (w₀ : σ) (s : Session σ) : Prop where
  entries : s.container.entries = c₀.entries
  registry : s.container.registry = c₀.registry
  stored : ∀ entry ∈ s.container.slots.entries, entry ∈ s.made
  built : s.container.built = s.made.length
  numbered : s.made.map (·.2.serial) = List.range' 1 s.made.length
  named : ∀ entry ∈ s.made, c₀.contains entry.1 = true
  balance : ∀ name, c₀.contains name = true →
    s.count name + s.abandoned name + s.container.vacancy name = 1 + s.invalidations name
  issues : s.taken ++ s.container.issues = s.made.filterMap c₀.failure?
  calls : ∀ calls, c₀.registry.Records calls → calls s.world = calls w₀ ++ s.made.filterMap c₀.call?

/-- A slot that is taken away was empty, or is empty from now on. -/
theorem abandon_add_vacancy (s : Session σ) (names : List String) (name : String) :
    s.abandon names name + (s.container.forget names).vacancy name =
      s.abandoned name + s.container.vacancy name + if name ∈ names then 1 else 0 := by
  rw [abandon, Container.vacancy_forget, Container.vacancy]
  by_cases hlisted : name ∈ names
  · cases s.container.isLoaded name <;> simp [hlisted]
  · simp [hlisted]

theorem countP_invalid_concat (answers : List (Answer σ)) (a : Answer σ) (name : String) :
    (answers ++ [a]).countP (fun a => decide (name ∈ a.invalid)) =
      answers.countP (fun a => decide (name ∈ a.invalid)) + if name ∈ a.invalid then 1 else 0 := by
  rw [List.countP_append, List.countP_singleton]
  simp only [decide_eq_true_iff]

theorem Sound.start (d : Dict Value) (registry : Registry σ) (w : σ) :
    (Session.start (.ofDict d registry) w).Sound (.ofDict d registry) w where
  entries := rfl
  registry := rfl
  stored _ h := nomatch h
  built := rfl
  numbered := rfl
  named _ h := nomatch h
  balance _ _ := rfl
  issues := rfl
  calls _ _ := (List.append_nil _).symm

namespace Sound

theorem serial_le (h : s.Sound c₀ w₀) : ∀ entry ∈ s.container.slots.entries, entry.2.serial ≤ s.container.built := by
  intro entry hentry
  have hserial : entry.2.serial ∈ List.range' 1 s.made.length :=
    h.numbered ▸ List.mem_map_of_mem (f := (·.2.serial)) (h.stored entry hentry)
  rw [h.built]
  have := List.mem_range'_1.mp hserial
  omega

theorem contains (h : s.Sound c₀ w₀) (name : String) : s.container.contains name = c₀.contains name := by
  rw [Container.contains, h.entries, Container.contains]

theorem failure? (h : s.Sound c₀ w₀) : s.container.failure? = c₀.failure? := by
  funext entry
  rw [Container.failure?, h.entries, h.registry, Container.failure?]

theorem call? (h : s.Sound c₀ w₀) : s.container.call? = c₀.call? := by
  funext entry
  rw [Container.call?, h.entries, h.registry, Container.call?]

/-- After a reading, with an answer that neither invalidates nor hands over issues. -/
theorem grows (h : s.Sound c₀ w₀) {P : String → Prop} {made : List (String × Slot σ)} {c' : Container σ} {w' : σ}
    (hg : Container.Grows P s.container s.world made c' w') (answers : List (Answer σ))
    (hinvalid : ∀ a ∈ answers, a.invalid = []) (htaken : ∀ a ∈ answers, a.taken = []) :
    Session.Sound c₀ w₀ ⟨c', w', s.answers ++ answers, s.made ++ c'.madeAfter s.container.built, s.abandoned⟩ := by
  rw [hg.madeAfter h.serial_le]
  refine ⟨hg.entries.trans h.entries, hg.registry.trans h.registry, ?_, ?_, ?_, ?_, ?_, ?_, ?_⟩
  · intro entry hentry
    rw [hg.slots] at hentry
    exact (List.mem_append.mp hentry).elim (fun hold => List.mem_append_left _ (h.stored entry hold))
      (List.mem_append_right _)
  · rw [hg.built, h.built, List.length_append]
  · rw [List.map_append, h.numbered, hg.numbered, h.built, List.length_append, Nat.add_comm s.made.length 1,
      List.range'_append_1]
  · intro entry hentry
    rcases List.mem_append.mp hentry with hentry | hentry
    · exact h.named entry hentry
    · exact h.contains entry.1 ▸ (hg.named entry hentry).2.1
  · intro name hname
    have hbalance := h.balance name hname
    have hvacancy := hg.vacancy name
    have hnone : answers.countP (fun a => decide (name ∈ a.invalid)) = 0 := by
      refine List.countP_eq_zero.mpr fun a ha => ?_
      rw [hinvalid a ha, decide_eq_true_iff]
      exact List.not_mem_nil
    simp only [count, invalidations, List.map_append, List.count_append, List.countP_append, hnone] at hbalance ⊢
    omega
  · have hnone : answers.flatMap Answer.taken = [] := List.flatMap_eq_nil_iff.mpr htaken
    simp only [taken, List.flatMap_append, hnone, List.append_nil, List.filterMap_append]
    rw [hg.issues, ← List.append_assoc, h.failure?]
    exact congrArg (· ++ _) h.issues
  · intro calls hcalls
    rw [hg.calls calls (h.registry ▸ hcalls), h.calls calls hcalls, h.call?, List.filterMap_append, List.append_assoc]

/-- No slot is new if none was made. -/
theorem madeAfter_of_subset (h : s.Sound c₀ w₀) {c : Container σ}
    (hc : ∀ entry ∈ c.slots.entries, entry ∈ s.container.slots.entries) : c.madeAfter s.container.built = [] := by
  refine List.filter_eq_nil_iff.mpr fun entry hentry => ?_
  rw [decide_eq_true_iff, Nat.not_lt]
  exact h.serial_le entry (hc entry hentry)

theorem invalidate (h : s.Sound c₀ w₀) (name : String) : (s.step (.ask (.invalidate name))).Sound c₀ w₀ := by
  have hrun : ContainerM.perform (.invalidate name) s.container s.world =
      ((.invalidated (s.container.listed name), s.container.forget (s.container.listed name)), s.world) := by
    rw [ContainerM.perform, ContainerM.bind_run, ContainerM.invalidate_run]
    rfl
  have hkept : ∀ entry ∈ (s.container.forget (s.container.listed name)).slots.entries,
      entry ∈ s.container.slots.entries := fun entry hentry => List.mem_of_mem_filter hentry
  simp only [Session.step, did, hrun, h.madeAfter_of_subset hkept, List.append_nil]
  refine ⟨h.entries, h.registry, fun entry hentry => h.stored entry (hkept entry hentry), h.built, h.numbered, h.named,
    fun other hother => ?_, ?_, h.calls⟩
  · have hbalance := h.balance other hother
    have hmoved : s.abandon (Answer.invalidated (s.container.listed name) : Answer σ).invalid other +
        (s.container.forget (s.container.listed name)).vacancy other = s.abandoned other + s.container.vacancy other +
          if other ∈ (Answer.invalidated (s.container.listed name) : Answer σ).invalid then 1 else 0 :=
      s.abandon_add_vacancy (s.container.listed name) other
    rw [invalidations, countP_invalid_concat]
    simp only [count, invalidations] at hbalance ⊢
    omega
  · simp only [taken, List.flatMap_append, List.flatMap_cons, List.flatMap_nil, Answer.taken, List.append_nil]
    exact h.issues

theorem takeIssues (h : s.Sound c₀ w₀) : (s.step (.ask .takeIssues)).Sound c₀ w₀ := by
  have hrun : ContainerM.perform .takeIssues s.container s.world =
      ((.issues s.container.issues, { s.container with issues := [] }), s.world) := rfl
  have hmade : ({ s.container with issues := [] } : Container σ).madeAfter s.container.built = [] :=
    h.madeAfter_of_subset fun _ => id
  simp only [Session.step, did, hrun, hmade, List.append_nil]
  refine ⟨h.entries, h.registry, h.stored, h.built, h.numbered, h.named, fun other hother => ?_, ?_, h.calls⟩
  · have habandoned : s.abandon [] other = s.abandoned other := if_neg fun hlisted => List.not_mem_nil hlisted.1
    rw [invalidations, countP_invalid_concat]
    simp only [Answer.invalid, habandoned, List.not_mem_nil, if_false]
    exact h.balance other hother
  · simp only [taken, List.flatMap_append, List.flatMap_cons, List.flatMap_nil, Answer.taken, List.append_nil]
    exact h.issues

theorem ask (h : s.Sound c₀ w₀) (o : Operation) : (s.step (.ask o)).Sound c₀ w₀ := by
  rcases ContainerM.perform_cases o s.container s.world with
    ⟨made, hg, hinvalid, htaken⟩ | ⟨name, rfl, -⟩ | ⟨rfl, -⟩
  · have hstep := h.grows hg [(ContainerM.perform o s.container s.world).1.1]
      (fun a ha => List.mem_singleton.mp ha ▸ hinvalid) (fun a ha => List.mem_singleton.mp ha ▸ htaken)
    have habandoned : (s.step (.ask o)).abandoned = s.abandoned := by
      funext name
      exact if_neg fun hlisted => List.not_mem_nil (hinvalid ▸ hlisted.1)
    rwa [← habandoned] at hstep
  · exact h.invalidate name
  · exact h.takeIssues

theorem read (h : s.Sound c₀ w₀) (name : String) : (s.step (.read name)).Sound c₀ w₀ := by
  obtain ⟨made, hg⟩ := ContainerM.resolve_grows name s.container s.world
  have hstep := h.grows hg [] (fun _ ha => nomatch ha) (fun _ ha => nomatch ha)
  rwa [List.append_nil] at hstep

theorem finish (h : s.Sound c₀ w₀) (name : String) : (s.step (.finish name)).Sound c₀ w₀ := by
  rw [Session.step]
  split
  · rename_i v n hv hn
    obtain ⟨hserial, hleft, hcalls⟩ := ContainerM.construct_spec name v s.container s.world
    rcases hrun : ContainerM.construct name v s.container s.world with ⟨⟨slot, c'⟩, w'⟩
    rw [hrun] at hserial hleft hcalls
    dsimp only at hserial hleft hcalls
    subst hleft
    have hone {β : Type} (f : String × Slot σ → Option β) (entry : String × Slot σ) :
        [entry].filterMap f = (f entry).toList := rfl
    have hv' : c₀.entries.get? name = some v := h.entries ▸ hv
    have hfailure : c₀.failure? (name, slot) = s.container.registry.failure? name v slot.object := by
      rw [Container.failure?, hv', h.registry]
      rfl
    have hcall : c₀.call? (name, slot) = s.container.registry.call? v := by
      rw [Container.call?, hv', h.registry]
      rfl
    refine ⟨h.entries, h.registry, ?_, ?_, ?_, ?_, ?_, ?_, ?_⟩
    · exact fun entry hentry => List.mem_append_left _ (h.stored entry hentry)
    · rw [List.length_append, ← h.built]
      rfl
    · rw [List.map_append, h.numbered, List.map_singleton, hserial, h.built, List.length_append, List.length_singleton,
        List.range'_concat, Nat.one_mul, Nat.add_comm 1]
    · intro entry hentry
      rcases List.mem_append.mp hentry with hentry | hentry
      · exact h.named entry hentry
      · rw [List.mem_singleton.mp hentry, Container.contains, Dict.contains, hv']
        rfl
    · intro other hother
      have hbalance := h.balance other hother
      change _ + _ + s.container.vacancy other = _
      simp only [count, invalidations, List.map_append, List.map_singleton, List.count_append, List.count_singleton]
        at hbalance ⊢
      by_cases heq : other = name
      · subst heq
        rw [hn] at hbalance
        simp only [beq_self_eq_true, if_true]
        omega
      · simp only [heq, if_false, beq_eq_false_iff_ne.mpr (Ne.symm heq), Bool.false_eq_true]
        exact hbalance
    · rw [List.filterMap_append, ← h.issues, List.append_assoc, hone, hfailure]
      rfl
    · intro calls hrecords
      rw [hcalls calls (h.registry ▸ hrecords), h.calls calls hrecords, List.filterMap_append, List.append_assoc, hone,
        hcall]
  · exact h

theorem step (h : s.Sound c₀ w₀) (e : Container.Event) : (s.step e).Sound c₀ w₀ := by
  cases e with
  | ask o => exact h.ask o
  | read name => exact h.read name
  | finish name => exact h.finish name

theorem after (h : s.Sound c₀ w₀) (events : List Container.Event) : (s.after events).Sound c₀ w₀ := by
  induction events generalizing s with
  | nil => exact h
  | cons e rest ih => exact ih (h.step e)

end Sound
variable {name : String}

theorem Sound.count_le (h : s.Sound c₀ w₀) (name : String) : s.count name ≤ 1 + s.invalidations name := by
  by_cases hname : c₀.contains name = true
  · have hbalance := h.balance name hname
    omega
  · have hnone : s.count name = 0 := by
      refine List.count_eq_zero_of_not_mem fun hmade => ?_
      obtain ⟨entry, hentry, rfl⟩ := List.mem_map.mp hmade
      exact hname (h.named entry hentry)
    omega

/-! ## What an event changes of a slot -/

/-- What an event does to the slots: it fills some, or an invalidation takes some away. -/
theorem step_cases (s : Session σ) (e : Container.Event) :
    (∃ made, Container.Grows e.Resolves s.container s.world made (s.step e).container (s.step e).world) ∨
      (∃ other, e = .ask (.invalidate other) ∧ (s.ask (.invalidate other)).invalid = s.container.listed other ∧
        (s.step e).container = s.container.forget (s.container.listed other)) ∨
      (s.step e).container.slots = s.container.slots := by
  cases e with
  | ask o =>
    rcases ContainerM.perform_cases o s.container s.world with ⟨made, hg, -⟩ | ⟨other, rfl, heq⟩ | ⟨rfl, heq⟩
    · exact .inl ⟨made, hg⟩
    · refine .inr (.inl ⟨other, rfl, ?_, ?_⟩)
      · rw [Session.ask, heq, Answer.invalid]
      · simp only [step, did, heq]
    · exact .inr (.inr rfl)
  | read name =>
    obtain ⟨made, hg⟩ := ContainerM.resolve_grows name s.container s.world
    exact .inl ⟨made, hg⟩
  | finish name =>
    refine .inr (.inr ?_)
    rw [step]
    split
    · rename_i v n _ _
      change (ContainerM.construct name v s.container s.world).1.2.slots = _
      rw [(ContainerM.construct_spec name v s.container s.world).2.1]
    · rfl

/-- A slot is filled by what resolves its name. -/
theorem resolves_of_isLoaded {e : Container.Event} (hbefore : s.container.isLoaded name = false)
    (hafter : (s.step e).container.isLoaded name = true) : e.Resolves name := by
  rcases s.step_cases e with ⟨made, hg⟩ | ⟨other, -, -, heq⟩ | heq
  · rcases (hg.isLoaded name).mp hafter with hloaded | hmade
    · exact absurd hloaded (hbefore ▸ Bool.false_ne_true)
    · obtain ⟨entry, hentry, rfl⟩ := List.mem_map.mp hmade
      exact (hg.named entry hentry).1
  · rw [heq] at hafter
    exact absurd ((s.container.isLoaded_forget _ name).mp hafter).1 (hbefore ▸ Bool.false_ne_true)
  · rw [Container.isLoaded, heq] at hafter
    exact Bool.noConfusion (hbefore.symm.trans hafter)

/-- A slot is taken away by an invalidation that lists its name, and by nothing else. -/
theorem slot_step (e : Container.Event) {slot : Slot σ} (hslot : s.container.slots.get? name = some slot) :
    (∃ other, e = .ask (.invalidate other) ∧ name ∈ (s.ask (.invalidate other)).invalid) ∨
      (s.step e).container.slots.get? name = some slot := by
  rcases s.step_cases e with ⟨made, hg⟩ | ⟨other, rfl, hinvalid, heq⟩ | heq
  · exact .inr (hg.get?_slots hslot)
  · by_cases hlisted : name ∈ s.container.listed other
    · exact .inl ⟨other, rfl, hinvalid ▸ hlisted⟩
    · rw [heq, Container.get?_forget _ hlisted]
      exact .inr hslot
  · rw [heq]
    exact .inr hslot

theorem isLoaded_iff_slot {c : Container σ} : c.isLoaded name = true ↔ ∃ slot, c.slots.get? name = some slot :=
  Option.isSome_iff_exists

theorem invalidated_of_not_isLoaded {e : Container.Event} (hbefore : s.container.isLoaded name = true)
    (hafter : (s.step e).container.isLoaded name = false) :
    ∃ other, e = .ask (.invalidate other) ∧ name ∈ (s.ask (.invalidate other)).invalid := by
  obtain ⟨slot, hslot⟩ := isLoaded_iff_slot.mp hbefore
  refine (slot_step e hslot).resolve_right fun hkept => ?_
  rw [isLoaded_iff_slot.mpr ⟨slot, hkept⟩] at hafter
  cases hafter

/-! ## What is found again -/

theorem invalidations_step (s : Session σ) (e : Container.Event) (name : String) :
    s.invalidations name ≤ (s.step e).invalidations name := by
  cases e with
  | ask o =>
    change s.invalidations name ≤ List.countP _ (_ ++ [_])
    rw [countP_invalid_concat]
    exact Nat.le_add_right _ _
  | read other => exact Nat.le_refl _
  | finish other =>
    rw [step]
    split <;> exact Nat.le_refl _

theorem invalidations_after (s : Session σ) (events : List Container.Event) (name : String) :
    s.invalidations name ≤ (s.after events).invalidations name := by
  induction events generalizing s with
  | nil => exact Nat.le_refl _
  | cons e rest ih => exact Nat.le_trans (s.invalidations_step e name) (ih (s.step e))

/-- An invalidation that lists a name counts. -/
theorem invalidations_lt {other : String} (h : name ∈ (s.ask (.invalidate other)).invalid) :
    s.invalidations name < (s.step (.ask (.invalidate other))).invalidations name := by
  change s.invalidations name < List.countP _ (_ ++ [s.ask (.invalidate other)])
  rw [countP_invalid_concat, if_pos h]
  exact Nat.lt_succ_self _

/-- Until an invalidation lists its name a slot stays. -/
theorem slot_after {slot : Slot σ} (hslot : s.container.slots.get? name = some slot) (events : List Container.Event)
    (hnone : (s.after events).invalidations name = s.invalidations name) :
    (s.after events).container.slots.get? name = some slot := by
  induction events generalizing s with
  | nil => exact hslot
  | cons e rest ih =>
    have hafter : (s.step e).invalidations name ≤ (s.after (e :: rest)).invalidations name :=
      (s.step e).invalidations_after rest name
    rcases slot_step e hslot with ⟨other, rfl, hlisted⟩ | hkept
    · have hlt := invalidations_lt hlisted
      omega
    · have hstep := s.invalidations_step e name
      exact ih hkept (Nat.le_antisymm (hnone ▸ hstep) hafter)

/-- Until an invalidation lists it a name stands for the same resource. -/
theorem Sound.object_again (h : s.Sound c₀ w₀) (name : String) (events : List Container.Event)
    (hnone : ((s.step (.ask (.object name))).after events).invalidations name =
      (s.step (.ask (.object name))).invalidations name) :
    ((s.step (.ask (.object name))).after events).ask (.object name) = s.ask (.object name) := by
  have hafter : ((s.step (.ask (.object name))).after events).container.entries = s.container.entries :=
    (((h.step _).after events).entries).trans h.entries.symm
  have hask (t : Session σ) : t.ask (.object name) = .object
      ((ContainerM.resolve name t.container t.world).1.1.bind fun slot => slot.object.map fun r => (r, slot.serial)) :=
    rfl
  cases hentry : s.container.entries.get? name with
  | none => rw [hask, hask, ContainerM.resolve_of_none hentry, ContainerM.resolve_of_none (hafter ▸ hentry)]
  | some v =>
    obtain ⟨slot, hfound, hslot⟩ := ContainerM.resolve_of_entry hentry s.world
    have hkept := slot_after (s := s.step (.ask (.object name))) hslot events hnone
    rw [hask, hask, hfound, ContainerM.resolve_of_slot (hafter ▸ hentry) hkept]

end Session

/-- What an entry stands for is made once, and once more for each invalidation that lists it. Constructions are numbered
in order, and the calls of the resource types are those that the constructions bring about. Until an invalidation
lists a name its resource is the same one, by its number. A slot is filled by an event that resolves its name, and taken away by
an invalidation that lists it. The issues, taken or not, are one for each construction that failed. -/
theorem Session.memoized (d : Dict Value) (registry : Registry σ) (w : σ) (events : List Container.Event) :
    let s := (Session.start (.ofDict d registry) w).after events
    (∀ name, s.count name ≤ 1 + s.invalidations name) ∧
      s.made.map (·.2.serial) = List.range' 1 s.made.length ∧
      (∀ calls, registry.Records calls →
        calls s.world = calls w ++ s.made.filterMap (Container.ofDict d registry).call?) ∧
      (∀ name more, ((s.step (.ask (.object name))).after more).invalidations name =
          (s.step (.ask (.object name))).invalidations name →
        ((s.step (.ask (.object name))).after more).ask (.object name) = s.ask (.object name)) ∧
      (∀ name e, s.container.isLoaded name = false → (s.step e).container.isLoaded name = true → e.Resolves name) ∧
      (∀ name e, s.container.isLoaded name = true → (s.step e).container.isLoaded name = false →
        ∃ other, e = .ask (.invalidate other) ∧ name ∈ (s.ask (.invalidate other)).invalid) ∧
      s.taken ++ s.container.issues = s.made.filterMap (Container.ofDict d registry).failure? := by
  intro s
  have h : s.Sound (.ofDict d registry) w := (Session.Sound.start d registry w).after events
  exact ⟨h.count_le, h.numbered, h.calls, h.object_again, fun _ _ => s.resolves_of_isLoaded,
    fun _ _ => s.invalidated_of_not_isLoaded, h.issues⟩

/-- A type that notes what it is asked to make. -/
def Factory.noting (t : String) : Factory (List (String × Dict Value)) where
  fromSource := fun _ _ => return (none, [])
  fromCache := fun d => do
    modify (· ++ [(t, d)])
    return some (.simple t .other fun e => (true, e))

theorem Registry.records_noting (t : String) : (⟨⟨[(t, .noting t)]⟩⟩ : Registry _).Records fun calls => calls := by
  intro t' f hf d w
  obtain ⟨rfl, rfl⟩ : t' = t ∧ f = .noting t := by
    simpa using Dict.mem_of_get? hf
  rfl

/-- A dictionary of that type, and an entry that refers to it. -/
def notedPack : Dict Value :=
  ⟨[("a", .dict ⟨[(Key.type, .string "noted")]⟩), ("b", .list [.atom (.ref "a")])]⟩

theorem Session.memoized_notedPack :
    let c : Container (List (String × Dict Value)) := .ofDict notedPack ⟨⟨[("noted", .noting "noted")]⟩⟩
    let s := (Session.start c []).after
      [.ask (.object "a"), .read "a", .ask .flush, .ask (.invalidate "a"), .ask (.object "a")]
    s.world.length = 2 ∧ s.invalidations "a" = 1 ∧ s.count "a" ≤ 1 + s.invalidations "a" ∧
      s.world = s.made.filterMap c.call? := by
  intro c s
  obtain ⟨hcount, -, hcalls, -⟩ := Session.memoized notedPack ⟨⟨[("noted", .noting "noted")]⟩⟩ []
    [.ask (.object "a"), .read "a", .ask .flush, .ask (.invalidate "a"), .ask (.object "a")]
  have hcounts : s.world.length = 2 ∧ s.invalidations "a" = 1 := by decide +kernel
  exact ⟨hcounts.1, hcounts.2, hcount "a",
    (hcalls (fun calls => calls) (Registry.records_noting "noted")).trans (List.nil_append _)⟩

end AssetPack
