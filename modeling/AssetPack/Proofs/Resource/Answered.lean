import AssetPack.Proofs.Resource.Flushed
import AssetPack.Proofs.Resource.Memoized

/-!
# What a container answers

What was made of an entry depends on nothing but the entry if the types are the built-in ones. So at any time a
container gives the value of an entry, and what that needs, as if it was asked for the first time.
-/
namespace AssetPack
variable {σ : Type} {c : Container σ} {name : String} {v : Value} {w : σ}

/-! ## What all slots have -/

/-- The types of the container are those of the registry, and each slot stands in the relation to its entry. -/
structure Container.Keeps (registry : Registry σ) (P : Value → Slot σ → Prop) (c : Container σ) : Prop where
  registry : c.registry = registry
  slots : c.Holds P

section
variable {registry : Registry σ} {P : Value → Slot σ → Prop}

/-- Whatever is made with the types of the registry stands in the relation to its entry. -/
def Registry.Makes (registry : Registry σ) (P : Value → Slot σ → Prop) : Prop :=
  ∀ name v (c : Container σ) w, c.registry = registry → P v (ContainerM.construct name v c w).1.1

theorem Container.keeps_ofDict (d : Dict Value) : (ofDict d registry).Keeps registry P :=
  ⟨rfl, fun _ _ _ _ h => nomatch h⟩

theorem Container.Keeps.forget (h : c.Keeps registry P) (names : List String) : (c.forget names).Keeps registry P := by
  refine ⟨h.registry, fun name v slot hv hslot => ?_⟩
  rw [Container.forget, c.slots.get?_filter fun name => name ∉ names] at hslot
  split at hslot
  · exact h.slots name v slot hv hslot
  · cases hslot

namespace ContainerM

theorem keeps_resolve (hmakes : registry.Makes P) (h : c.Keeps registry P) (name : String) (w : σ) :
    (resolve name c w).1.2.Keeps registry P := by
  obtain ⟨_, hgrows⟩ := resolve_grows name c w
  exact ⟨hgrows.registry.trans h.registry, holds_resolve h.slots fun v _ => hmakes name v c w h.registry⟩

theorem keeps_flushNames (hmakes : registry.Makes P) (names : List String) (h : c.Keeps registry P) (w : σ) :
    (flushNames names c w).1.2.Keeps registry P := by
  induction names generalizing c w with
  | nil => exact h
  | cons name rest ih =>
    rw [(flushNames_cons name rest c w).2]
    exact ih (keeps_resolve hmakes h name w) _

theorem keeps_perform (hmakes : registry.Makes P) (h : c.Keeps registry P) (o : Operation) (w : σ) :
    (perform o c w).1.2.Keeps registry P := by
  cases o with
  | object name => exact keeps_resolve hmakes h name w
  | value name => exact keeps_resolve hmakes h name w
  | dependencies name =>
    rw [perform, bind_run, dependencies_run]
    exact keeps_resolve hmakes h name w
  | flush => exact keeps_flushNames hmakes c.dependencyOrder h w
  | invalidate name =>
    rw [perform, bind_run, invalidate_run]
    exact h.forget _
  | takeIssues => exact ⟨h.registry, h.slots⟩
  | _ => exact h

/-- What is found for a name stands in the relation to the entry. -/
theorem resolve_of_keeps (hmakes : registry.Makes P) (h : c.Keeps registry P) (hv : c.entries.get? name = some v) :
    ∃ slot, (resolve name c w).1.1 = some slot ∧ P v slot := by
  obtain ⟨slot, hfound, hslot⟩ := resolve_of_entry hv w
  obtain ⟨_, hgrows⟩ := resolve_grows name c w
  exact ⟨slot, hfound, (keeps_resolve hmakes h name w).slots name v slot (hgrows.entries ▸ hv) hslot⟩

end ContainerM

namespace Session

theorem keeps_step (hmakes : registry.Makes P) {s : Session σ} (h : s.container.Keeps registry P)
    (e : Container.Event) : (s.step e).container.Keeps registry P := by
  cases e with
  | ask o => exact ContainerM.keeps_perform hmakes h o s.world
  | read name => exact ContainerM.keeps_resolve hmakes h name s.world
  | finish name =>
    rw [step]
    split
    · rename_i v n _ _
      change (ContainerM.construct name v s.container s.world).1.2.Keeps registry P
      rw [(ContainerM.construct_spec name v s.container s.world).2.1]
      exact ⟨h.registry, h.slots⟩
    · exact h

theorem keeps_after (hmakes : registry.Makes P) {s : Session σ} (h : s.container.Keeps registry P)
    (events : List Container.Event) : (s.after events).container.Keeps registry P := by
  induction events generalizing s with
  | nil => exact h
  | cons e rest ih => exact ih (keeps_step hmakes h e)

end Session
end

/-! ## With the built-in types -/

/-- What an opened value needs: a dictionary resource what its fields refer to, a file resource nothing, and any other
value what it refers to. -/
def Value.needs (u : Value) : List String :=
  if u.typeName? = some "dict" then (u.dict?.map fun d => (DictResource.ofDict d).refs).getD []
  else if u.typeName? = some "file" ∧ (u.dict?.bind FileResource.fromCache?).isSome = true then []
  else u.entryRefs

/-- The value that is given for an entry: what it opens to, if it opens. -/
def Value.given (v : Value) : Value := (ContainerM.opened? v).getD v

/-- What an entry needs, which is looked for in what it opens to. -/
def Value.entryNeeds (v : Value) : List String := ((ContainerM.opened? v).map Value.needs).getD v.entryRefs

/-- The slot has the value of its entry and what that needs. -/
structure Slot.StandsFor (v : Value) (slot : Slot σ) : Prop where
  value : slot.value = v.given
  dependencies : slot.dependencies = v.entryNeeds

theorem Registry.builtin_makes : (Registry.builtin : Registry σ).Makes Slot.StandsFor := by
  intro name v c w hc
  refine ⟨ContainerM.construct_value name v c w, ?_⟩
  rw [Value.entryNeeds]
  cases hu : ContainerM.opened? v with
  | none =>
    rw [ContainerM.construct_of_none hu]
    rfl
  | some u =>
    rw [ContainerM.construct_of_some hu, Option.map_some, Option.getD_some, Value.needs, Slot.dependencies]
    generalize hc' : ({ c with built := c.built + 1 } : Container σ) = c'
    have hregistry : c'.registry = .builtin := by rw [← hc', ← hc]
    cases htype : u.typeName? with
    | none =>
      rw [ContainerM.makeObject_of_untyped htype, if_neg nofun, if_neg (by simp)]
    | some t =>
      cases hf : c'.registry.get? t with
      | none =>
        have hunknown (known : String) (hknown : (Registry.builtin : Registry σ).get? known ≠ none) : t ≠ known := by
          rintro rfl
          exact hknown (hregistry ▸ hf)
        rw [ContainerM.makeObject_of_unknown htype hf, if_neg, if_neg]
        · exact fun h => hunknown "file" nofun (Option.some.inj h.1)
        · exact fun h => hunknown "dict" nofun (Option.some.inj h)
      | some f =>
        obtain ⟨d, hd⟩ := ContainerM.exists_dict htype
        rw [ContainerM.makeObject_of_factory htype hf hd, hd]
        dsimp only
        rw [hregistry] at hf
        rcases List.mem_cons.mp (Dict.mem_of_get? hf) with heq | hmem
        · cases heq
          rw [if_neg (by decide)]
          have hmade : (FileResource.factory.fromCache d w : Option (Resource σ) × σ).1 =
              (FileResource.fromCache? d).map FileResource.toResource := rfl
          rw [hmade, Option.bind_some]
          cases FileResource.fromCache? d with
          | none => rw [if_neg (by simp)]; rfl
          | some f => rw [if_pos ⟨rfl, rfl⟩]; rfl
        · cases List.mem_singleton.mp hmem
          rw [if_pos rfl]
          rfl

namespace Session

/-- The value that is given for a name. -/
def valueOf (s : Session σ) (name : String) : Option Value := (ContainerM.value name s.container s.world).1.1

/-- The dependencies that are given for a name. -/
def dependenciesOf (s : Session σ) (name : String) : List String :=
  (ContainerM.dependencies name s.container s.world).1.1

/-- The session is one with a container over the dictionary, with the built-in types. -/
def Over (e : Dict Value) (s : Session σ) : Prop :=
  ∃ w events, s = (Session.start (Container.ofDict e .builtin) w).after events

namespace Over
variable {e : Dict Value} {s : Session σ}

theorem start (e : Dict Value) (w : σ) : (Session.start (Container.ofDict e .builtin) w).Over e := ⟨w, [], rfl⟩

theorem entries (h : s.Over e) : s.container.entries = (DictResource.ofDict e).fields := by
  obtain ⟨w, events, rfl⟩ := h
  exact ((Sound.start e .builtin w).after events).entries

theorem keeps (h : s.Over e) : s.container.Keeps .builtin Slot.StandsFor := by
  obtain ⟨w, events, rfl⟩ := h
  exact keeps_after Registry.builtin_makes (Container.keeps_ofDict e) events

/-- At any time the value of an entry is what it opens to, and its dependencies are what that needs. -/
theorem answers (h : s.Over e) (name : String) :
    s.valueOf name = ((DictResource.ofDict e).fields.get? name).map Value.given ∧
      s.dependenciesOf name = (((DictResource.ofDict e).fields.get? name).map Value.entryNeeds).getD [] := by
  have hvalue : s.valueOf name = (ContainerM.resolve name s.container s.world).1.1.map (·.value) := rfl
  rw [hvalue, dependenciesOf, ContainerM.dependencies_run, ← h.entries]
  cases hv : s.container.entries.get? name with
  | none =>
    rw [ContainerM.resolve_of_none hv]
    exact ⟨rfl, rfl⟩
  | some v =>
    obtain ⟨slot, hfound, hslot⟩ := ContainerM.resolve_of_keeps Registry.builtin_makes h.keeps hv (w := s.world)
    rw [hfound]
    exact ⟨congrArg some hslot.value, hslot.dependencies⟩

end Over
end Session
end AssetPack
