import AssetPack.Proofs.Dict
import AssetPack.Resource.Container

/-!
# Sessions, and what readings make

A reading makes what an entry stands for if that was not made yet, and otherwise only looks. What it makes is put
behind what is there, gets the next number, brings one call of a resource type at most and one issue at most. A flush
is one reading after another, so what holds of a reading holds of all that a container does but invalidating.
-/
namespace AssetPack

/-!
## Sessions

What a container goes through: operations one after another, and readings in the background. A prefetch only
starts such a reading, which may come at any later time; one that has found its slot empty before an invalidation took
that slot away makes the resource all the same, and nobody gets to see it. A session keeps the answers and
what was made for them.
-/

section
variable {σ : Type}

/-- What a container may be asked. -/
inductive Operation where
  | names
  | contains (name : String)
  /-- the entry as the pack has it -/
  | descriptor (name : String)
  | isLoaded (name : String)
  | object (name : String)
  | value (name : String)
  | dependencies (name : String)
  | flush
  | prefetch (name : String)
  | invalidate (name : String)
  | takeIssues

inductive Answer (σ : Type) where
  | names (names : List String)
  | flag (b : Bool)
  | value (v : Option Value)
  | object (r : Option (Resource σ × Nat))
  | flushed (issues : List Issue)
  | invalidated (names : List String)
  | issues (issues : List Issue)
  /-- that a reading was started -/
  | started

namespace ContainerM

/-- Answer what is asked. -/
def perform : Operation → ContainerM σ (Answer σ)
  | .names => return .names (← get).names
  | .contains name => return .flag ((← get).contains name)
  | .descriptor name => return .value ((← get).entries.get? name)
  | .isLoaded name => return .flag ((← get).isLoaded name)
  | .object name => return .object (← object name)
  | .value name => return .value (← value name)
  | .dependencies name => return .names (← dependencies name)
  | .flush => return .flushed (← flush)
  | .prefetch _ => return .started
  | .invalidate name => return .invalidated (← invalidate name)
  | .takeIssues => return .issues (← takeIssues)

end ContainerM

/-- The names that an answer lists as invalidated. -/
def Answer.invalid : Answer σ → List String
  | .invalidated listed => listed
  | _ => []

/-- The issues that an answer hands over. -/
def Answer.taken : Answer σ → List Issue
  | .issues given => given
  | _ => []

/-- What may happen to a container next. -/
inductive Container.Event where
  | ask (o : Operation)
  /-- a reading in the background -/
  | read (name : String)
  /-- the end of such a reading whose slot was taken away meanwhile -/
  | finish (name : String)

/-- A container with the answers it gave and what it made. -/
structure Session (σ : Type) where
  container : Container σ
  world : σ
  answers : List (Answer σ)
  /-- the slots that were made, each with the name of its entry -/
  made : List (String × Slot σ)
  /-- how many slots of a name were taken away while they were empty and may yet be filled -/
  abandoned : String → Nat

namespace Container

/-- The slots that were made after so many. -/
def madeAfter (c : Container σ) (n : Nat) : List (String × Slot σ) :=
  c.slots.entries.filter fun entry => n < entry.2.serial

end Container

namespace Session

def start (c : Container σ) (world : σ) : Session σ := ⟨c, world, [], [], fun _ => 0⟩

/-- The session after something was done to its container. -/
def did (s : Session σ) (c : Container σ) (world : σ) : Session σ :=
  { s with container := c, world := world, made := s.made ++ c.madeAfter s.container.built }

/-- Ask something; the answer. -/
def ask (s : Session σ) (o : Operation) : Answer σ := (ContainerM.perform o s.container s.world).1.1

/-- The slots of these names are taken away. -/
def abandon (s : Session σ) (names : List String) (name : String) : Nat :=
  if name ∈ names ∧ s.container.isLoaded name = false then s.abandoned name + 1 else s.abandoned name

def step (s : Session σ) : Container.Event → Session σ
  | .ask o =>
    let r := ContainerM.perform o s.container s.world
    { s.did r.1.2 r.2 with
      answers := s.answers ++ [r.1.1]
      abandoned := s.abandon r.1.1.invalid }
  | .read name =>
    let r := ContainerM.resolve name s.container s.world
    s.did r.1.2 r.2
  | .finish name =>
    match s.container.entries.get? name, s.abandoned name with
    | some v, n + 1 =>
      let r := ContainerM.construct name v s.container s.world
      { s with
        container := r.1.2
        world := r.2
        made := s.made ++ [(name, r.1.1)]
        abandoned := fun other => if other = name then n else s.abandoned other }
    | _, _ => s

/-- The session after these events. -/
def after (s : Session σ) (events : List Container.Event) : Session σ := events.foldl step s

/-- How often something was made of an entry. -/
def count (s : Session σ) (name : String) : Nat := (s.made.map (·.1)).count name

/-- How many invalidations listed a name. -/
def invalidations (s : Session σ) (name : String) : Nat := s.answers.countP fun a => name ∈ a.invalid

/-- The issues that were taken. -/
def taken (s : Session σ) : List Issue := s.answers.flatMap Answer.taken

end Session

end

/-! ## What a reading does -/

variable {σ α β : Type}

/-- What a slot depends on: what its resource declares, or else what its value refers to. -/
def Slot.dependencies (slot : Slot σ) : List String :=
  match slot.object with
  | some r => r.dependencies
  | none => slot.value.entryRefs

namespace Registry

/-- The call of a resource type that the making of an entry brings about. -/
def call? (r : Registry σ) (v : Value) : Option (String × Dict Value) :=
  (ContainerM.opened? v).bind fun u => u.typeName?.bind fun t => (r.get? t).bind fun _ => u.dict?.map fun d => (t, d)

/-- The issue with the resource of a value, if that was to be made. -/
def refusal? (r : Registry σ) (name : String) (u : Value) (object : Option (Resource σ)) : Option Issue :=
  match u.typeName? with
  | none => none
  | some t => match r.get? t with
    | none => some (.unknownType t name)
    | some _ => if object.isNone then some (.notRestored t name) else none

/-- The issue with what was made of an entry. -/
def failure? (r : Registry σ) (name : String) (v : Value) (object : Option (Resource σ)) : Option Issue :=
  match ContainerM.opened? v with
  | none => some (.undecodable name)
  | some u => r.refusal? name u object

/-- The state keeps the calls of all resource types. -/
def Records (r : Registry σ) (calls : σ → List (String × Dict Value)) : Prop :=
  ∀ t f, r.get? t = some f → ∀ d w, calls (f.fromCache d w).2 = calls w ++ [(t, d)]

end Registry

namespace ContainerM
variable {c : Container σ} {name : String} {v u : Value} {w : σ}

theorem bind_run (m : ContainerM σ α) (f : α → ContainerM σ β) (c : Container σ) (w : σ) :
    (m >>= f) c w = f (m c w).1.1 (m c w).1.2 (m c w).2 := rfl

theorem get_run (c : Container σ) (w : σ) : (get : ContainerM σ _) c w = ((c, c), w) := rfl

theorem lift_run (m : StateM σ α) (c : Container σ) (w : σ) :
    (liftM m : ContainerM σ α) c w = (((m w).1, c), (m w).2) := rfl

theorem makeObject_of_untyped (h : u.typeName? = none) : makeObject name u c w = ((none, c), w) := by
  rw [makeObject, h]
  rfl

theorem makeObject_of_unknown {t : String} (h : u.typeName? = some t) (hf : c.registry.get? t = none) :
    makeObject name u c w = ((none, { c with issues := c.issues ++ [.unknownType t name] }), w) := by
  rw [makeObject, h]
  dsimp only
  rw [bind_run, get_run]
  dsimp only
  rw [hf]
  rfl

theorem makeObject_of_factory {t : String} {d : Dict Value} {f : Factory σ} (h : u.typeName? = some t)
    (hf : c.registry.get? t = some f) (hd : u.dict? = some d) :
    makeObject name u c w = (((f.fromCache d w).1, { c with
      issues := c.issues ++ if (f.fromCache d w).1.isNone then [.notRestored t name] else [] }),
      (f.fromCache d w).2) := by
  rw [makeObject, h]
  dsimp only
  rw [bind_run, get_run]
  dsimp only
  rw [hf]
  dsimp only
  rw [hd]
  dsimp only
  rw [bind_run, lift_run]
  dsimp only
  cases (f.fromCache d w).1 with
  | none => rfl
  | some r =>
    rw [Option.isNone_some, if_neg Bool.false_ne_true, if_neg Bool.false_ne_true, List.append_nil]
    rfl

/-- The type of a value is that of a dictionary. -/
theorem exists_dict {t : String} (h : u.typeName? = some t) : ∃ d, u.dict? = some d := by
  rw [Value.typeName?, Option.bind_eq_some_iff] at h
  exact h.imp fun _ h => h.1

/-- What the making of a resource leaves. -/
theorem makeObject_spec (name : String) (u : Value) (c : Container σ) (w : σ) :
    (makeObject name u c w).1.2 = { c with
        issues := c.issues ++ (c.registry.refusal? name u (makeObject name u c w).1.1).toList } ∧
      ∀ calls, c.registry.Records calls → calls (makeObject name u c w).2 = calls w ++
        (u.typeName?.bind fun t => (c.registry.get? t).bind fun _ => u.dict?.map fun d => (t, d)).toList := by
  cases ht : u.typeName? with
  | none =>
    rw [makeObject_of_untyped ht, Registry.refusal?, ht]
    simp
  | some t =>
    cases hf : c.registry.get? t with
    | none =>
      rw [makeObject_of_unknown ht hf, Registry.refusal?, ht]
      simp [hf]
    | some f =>
      obtain ⟨d, hd⟩ := exists_dict ht
      rw [makeObject_of_factory ht hf hd, Registry.refusal?, ht]
      refine ⟨?_, fun calls hcalls => ?_⟩
      · simp only [hf]
        cases (f.fromCache d w).1 <;> rfl
      · rw [hcalls t f hf d w]
        simp [hf, hd]

theorem construct_of_none (hu : opened? v = none) : construct name v c w = ((⟨v, none, c.built + 1⟩,
    { c with built := c.built + 1, issues := c.issues ++ [.undecodable name] }), w) := by
  rw [construct, hu]
  rfl

theorem construct_of_some (hu : opened? v = some u) : construct name v c w =
    ((⟨u, (makeObject name u { c with built := c.built + 1 } w).1.1, c.built + 1⟩,
      (makeObject name u { c with built := c.built + 1 } w).1.2),
      (makeObject name u { c with built := c.built + 1 } w).2) := by
  rw [construct, hu]
  rfl

/-- What the making of an entry leaves. -/
theorem construct_spec (name : String) (v : Value) (c : Container σ) (w : σ) :
    (construct name v c w).1.1.serial = c.built + 1 ∧
      (construct name v c w).1.2 = { c with
        built := c.built + 1
        issues := c.issues ++ (c.registry.failure? name v (construct name v c w).1.1.object).toList } ∧
      ∀ calls, c.registry.Records calls →
        calls (construct name v c w).2 = calls w ++ (c.registry.call? v).toList := by
  cases hu : opened? v with
  | none =>
    rw [construct_of_none hu, Registry.failure?, Registry.call?, hu]
    exact ⟨rfl, rfl, fun calls _ => (List.append_nil _).symm⟩
  | some u =>
    obtain ⟨hleft, hcalls⟩ := makeObject_spec name u { c with built := c.built + 1 } w
    rw [construct_of_some hu, Registry.failure?, Registry.call?, hu]
    exact ⟨rfl, hleft, hcalls⟩

theorem resolve_of_none (h : c.entries.get? name = none) : resolve name c w = ((none, c), w) := by
  rw [resolve, bind_run, get_run]
  dsimp only
  rw [h]
  rfl

theorem resolve_of_slot {slot : Slot σ} (h : c.entries.get? name = some v) (hs : c.slots.get? name = some slot) :
    resolve name c w = ((some slot, c), w) := by
  rw [resolve, bind_run, get_run]
  dsimp only
  rw [h]
  dsimp only
  rw [hs]
  rfl

theorem resolve_of_construct (h : c.entries.get? name = some v) (hs : c.slots.get? name = none) :
    resolve name c w = ((some (construct name v c w).1.1, { (construct name v c w).1.2 with
      slots := (construct name v c w).1.2.slots.set name (construct name v c w).1.1 }),
      (construct name v c w).2) := by
  rw [resolve, bind_run, get_run]
  dsimp only
  rw [h]
  dsimp only
  rw [hs]
  rfl

end ContainerM

namespace Container

/-- The issue with a slot. -/
def failure? (c : Container σ) (made : String × Slot σ) : Option Issue :=
  (c.entries.get? made.1).bind fun v => c.registry.failure? made.1 v made.2.object

/-- The call of a resource type for a slot. -/
def call? (c : Container σ) (made : String × Slot σ) : Option (String × Dict Value) :=
  (c.entries.get? made.1).bind c.registry.call?

/-- A container and its world after these slots were made, for names that `P` holds of. -/
structure Grows (P : String → Prop) (c : Container σ) (w : σ) (made : List (String × Slot σ)) (c' : Container σ)
    (w' : σ) : Prop where
  entries : c'.entries = c.entries
  registry : c'.registry = c.registry
  slots : c'.slots.entries = c.slots.entries ++ made
  built : c'.built = c.built + made.length
  numbered : made.map (·.2.serial) = List.range' (c.built + 1) made.length
  issues : c'.issues = c.issues ++ made.filterMap c.failure?
  named : ∀ entry ∈ made, P entry.1 ∧ c.contains entry.1 = true ∧ c.isLoaded entry.1 = false
  nodup : (made.map (·.1)).Nodup
  calls : ∀ calls, c.registry.Records calls → calls w' = calls w ++ made.filterMap c.call?

namespace Grows
variable {P : String → Prop} {c c' c'' : Container σ} {w w' w'' : σ} {made made' : List (String × Slot σ)}

theorem refl (P : String → Prop) (c : Container σ) (w : σ) : Grows P c w [] c w where
  entries := rfl
  registry := rfl
  slots := (List.append_nil _).symm
  built := rfl
  numbered := rfl
  issues := (List.append_nil _).symm
  named _ h := nomatch h
  nodup := .nil
  calls _ _ := (List.append_nil _).symm

theorem isLoaded (h : Grows P c w made c' w') (name : String) :
    c'.isLoaded name = true ↔ c.isLoaded name = true ∨ name ∈ made.map (·.1) := by
  rw [Container.isLoaded, Container.isLoaded, Dict.contains_iff, Dict.contains_iff, Dict.names, Dict.names, h.slots,
    List.map_append, List.mem_append]

/-- A slot that is there stays. -/
theorem get?_slots (h : Grows P c w made c' w') {name : String} {slot : Slot σ} (hs : c.slots.get? name = some slot) :
    c'.slots.get? name = some slot := by
  rw [Dict.get?] at hs ⊢
  rw [h.slots, List.lookup_append, hs]
  rfl

theorem contains (h : Grows P c w made c' w') (name : String) : c'.contains name = c.contains name := by
  rw [Container.contains, h.entries, Container.contains]

theorem trans (h : Grows P c w made c' w') (h' : Grows P c' w' made' c'' w'') :
    Grows P c w (made ++ made') c'' w'' := by
  have hfailure : c'.failure? = c.failure? := by
    funext entry
    rw [Container.failure?, h.entries, h.registry, Container.failure?]
  have hcall : c'.call? = c.call? := by
    funext entry
    rw [Container.call?, h.entries, h.registry, Container.call?]
  have hlater (name : String) (hname : name ∈ made'.map (·.1)) : ¬(c.isLoaded name = true ∨ name ∈ made.map (·.1)) := by
    obtain ⟨entry, hentry, rfl⟩ := List.mem_map.mp hname
    rw [← h.isLoaded, (h'.named entry hentry).2.2]
    exact Bool.false_ne_true
  refine ⟨h'.entries.trans h.entries, h'.registry.trans h.registry, ?_, ?_, ?_, ?_, ?_, ?_, ?_⟩
  · rw [h'.slots, h.slots, List.append_assoc]
  · rw [h'.built, h.built, List.length_append, Nat.add_assoc]
  · rw [List.map_append, h.numbered, h'.numbered, h.built, List.length_append, Nat.add_right_comm,
      List.range'_append_1]
  · rw [h'.issues, h.issues, hfailure, List.filterMap_append, List.append_assoc]
  · intro entry hentry
    rcases List.mem_append.mp hentry with hentry | hentry
    · exact h.named entry hentry
    · obtain ⟨hp, hin, -⟩ := h'.named entry hentry
      have hout : c.isLoaded entry.1 ≠ true := fun hloaded => hlater _ (List.mem_map_of_mem hentry) (.inl hloaded)
      exact ⟨hp, h.contains entry.1 ▸ hin, Bool.not_eq_true _ ▸ hout⟩
  · rw [List.map_append]
    refine List.nodup_append.mpr ⟨h.nodup, h'.nodup, ?_⟩
    rintro name hname _ hname' rfl
    exact hlater name hname' (.inr hname)
  · intro calls hcalls
    rw [h'.calls calls (h.registry ▸ hcalls), h.calls calls hcalls, hcall, List.filterMap_append, List.append_assoc]

theorem mono {Q : String → Prop} (h : Grows P c w made c' w') (hpq : ∀ name, P name → Q name) :
    Grows Q c w made c' w' :=
  { h with named := fun entry hentry => (h.named entry hentry).imp (hpq _) id }

end Grows
end Container

namespace ContainerM
open Container
variable {c : Container σ} {name : String} {v : Value} {w : σ}

theorem construct_grows (h : c.entries.get? name = some v) (hs : c.slots.get? name = none) :
    Grows (· = name) c w [(name, (construct name v c w).1.1)] { (construct name v c w).1.2 with
      slots := (construct name v c w).1.2.slots.set name (construct name v c w).1.1 } (construct name v c w).2 := by
  obtain ⟨hserial, hleft, hcalls⟩ := construct_spec name v c w
  have hone {β : Type} (f : String × Slot σ → Option β) (entry : String × Slot σ) :
      [entry].filterMap f = (f entry).toList := rfl
  rw [hleft]
  refine ⟨rfl, rfl, ?_, rfl, ?_, ?_, ?_, ?_, ?_⟩
  · exact Dict.put_of_not_mem _ (Dict.get?_eq_none_iff.mp hs)
  · rw [List.map_singleton, hserial]
    rfl
  · rw [hone, Container.failure?, h]
    rfl
  · intro entry hentry
    rw [List.mem_singleton.mp hentry]
    refine ⟨rfl, ?_, ?_⟩
    · rw [Container.contains, Dict.contains, h]
      rfl
    · rw [Container.isLoaded, Dict.contains, hs]
      rfl
  · exact List.nodup_cons.mpr ⟨List.not_mem_nil, .nil⟩
  · intro calls hrecords
    rw [hcalls calls hrecords, hone, Container.call?, h]
    rfl

/-- A reading makes its own entry or nothing. -/
theorem resolve_grows (name : String) (c : Container σ) (w : σ) :
    ∃ made, Grows (· = name) c w made (resolve name c w).1.2 (resolve name c w).2 := by
  cases h : c.entries.get? name with
  | none =>
    rw [resolve_of_none h]
    exact ⟨[], .refl _ c w⟩
  | some v =>
    cases hs : c.slots.get? name with
    | some slot =>
      rw [resolve_of_slot h hs]
      exact ⟨[], .refl _ c w⟩
    | none =>
      rw [resolve_of_construct h hs]
      exact ⟨_, construct_grows h hs⟩

/-- What a reading finds is there from then on. -/
theorem resolve_of_entry (h : c.entries.get? name = some v) (w : σ) :
    ∃ slot, (resolve name c w).1.1 = some slot ∧ (resolve name c w).1.2.slots.get? name = some slot := by
  cases hs : c.slots.get? name with
  | some slot =>
    rw [resolve_of_slot h hs]
    exact ⟨slot, rfl, hs⟩
  | none =>
    rw [resolve_of_construct h hs]
    exact ⟨_, rfl, (Dict.get?_set _ _ _ _).trans (if_pos rfl)⟩

theorem dependencies_run (name : String) (c : Container σ) (w : σ) : dependencies name c w =
    ((((resolve name c w).1.1.map Slot.dependencies).getD [], (resolve name c w).1.2), (resolve name c w).2) := by
  rw [dependencies, bind_run]
  cases (resolve name c w).1.1 <;> rfl

theorem flushNames_grows (names : List String) (c : Container σ) (w : σ) :
    ∃ made, Grows (fun _ => True) c w made (flushNames names c w).1.2 (flushNames names c w).2 := by
  induction names generalizing c w with
  | nil => exact ⟨[], .refl _ c w⟩
  | cons name rest ih =>
    obtain ⟨made, h⟩ := resolve_grows name c w
    obtain ⟨made', h'⟩ := ih (resolve name c w).1.2 (resolve name c w).2
    exact ⟨made ++ made', (h.mono fun _ _ => trivial).trans h'⟩

end ContainerM

/-! ## Invalidations -/

namespace Container

/-- The names that an invalidation lists. -/
def listed (c : Container σ) (name : String) : List String :=
  if c.contains name then c.closure (c.names.length + 1) [name] [name] else []

/-- The container without the slots of these names. -/
def forget (c : Container σ) (names : List String) : Container σ :=
  { c with slots := ⟨c.slots.entries.filter (·.1 ∉ names)⟩ }

theorem isLoaded_forget (c : Container σ) (names : List String) (name : String) :
    (c.forget names).isLoaded name = true ↔ c.isLoaded name = true ∧ name ∉ names := by
  simp only [isLoaded, Dict.contains_iff, Dict.names, forget, List.mem_map, List.mem_filter, decide_eq_true_iff]
  constructor
  · rintro ⟨entry, ⟨hentry, hname⟩, rfl⟩
    exact ⟨⟨entry, hentry, rfl⟩, hname⟩
  · rintro ⟨⟨entry, hentry, rfl⟩, hname⟩
    exact ⟨entry, ⟨hentry, hname⟩, rfl⟩

theorem get?_forget (c : Container σ) {names : List String} {name : String} (h : name ∉ names) :
    (c.forget names).slots.get? name = c.slots.get? name := by
  rw [forget, c.slots.get?_filter fun name => name ∉ names, if_pos (decide_eq_true h)]

end Container

namespace ContainerM
open Container

theorem invalidate_run (name : String) (c : Container σ) (w : σ) :
    invalidate name c w = ((c.listed name, c.forget (c.listed name)), w) := by
  rw [invalidate, bind_run, get_run, listed]
  dsimp only
  cases c.contains name with
  | false =>
    have hall : c.slots.entries.filter (·.1 ∉ ([] : List String)) = c.slots.entries :=
      List.filter_eq_self.mpr fun _ _ => decide_eq_true List.not_mem_nil
    simp only [Bool.false_eq_true, if_false, forget, hall]
    rfl
  | true => rfl

end ContainerM
end AssetPack
