import AssetPack.Proofs.Resource.Made
import AssetPack.Resource.Builtin

/-!
# What a flush names

A flush searches all entries, so it makes what each of them stands for, and it names those whose decoded value has a
type and that have no resource. An entry that does not decode has no type, so a flush does not name it.
-/
namespace AssetPack
variable {σ : Type}

/-- The value of an entry, out of the block or the payload that it was kept in. -/
def Value.decoded? : Value → Option Value
  | .block b => b.load.toOption.map .dict
  | v => ContainerM.opened? v

/-- What does not decode has no type. -/
theorem Value.typeName?_of_opened (v : Value) :
    ((ContainerM.opened? v).getD v).typeName? = v.decoded?.bind Value.typeName? := by
  cases v with
  | block b =>
    change (b.load.toOption.bind fun d => d.findAs? Key.type .string) = (b.load.toOption.map Value.dict).bind typeName?
    cases b.load <;> rfl
  | saved p =>
    change _ = (ContainerM.opened? (.saved p)).bind typeName?
    cases ContainerM.opened? (.saved p) <;> rfl
  | _ => rfl

namespace Container
variable {c : Container σ} {s s' s'' : Search} {trail : List String} {name : String}

/-! ## The search through the entries -/

/-- What is in order is done, once, and is an entry. -/
structure Search.Sound (c : Container σ) (s : Search) : Prop where
  done : ∀ name, name ∈ s.done ↔ name ∈ s.order
  nodup : s.order.Nodup
  entries : ∀ name ∈ s.order, c.contains name = true

/-- A search along `trail` keeps what is in order and adds none of the names on the trail. -/
structure Search.Goes (c : Container σ) (trail : List String) (s s' : Search) : Prop where
  sound : s'.Sound c
  kept : s.order ⊆ s'.order
  apart : ∀ name ∈ trail, name ∈ s'.order → name ∈ s.order

namespace Search.Goes

theorem refl (h : s.Sound c) : Goes c trail s s := ⟨h, List.Subset.refl _, fun _ _ => id⟩

theorem trans (h : Goes c trail s s') (h' : Goes c trail s' s'') : Goes c trail s s'' :=
  ⟨h'.sound, List.Subset.trans h.kept h'.kept, fun name ht hn => h.apart name ht (h'.apart name ht hn)⟩

theorem foldl {step : Search → String → Search} {names : List String} (hs : s.Sound c)
    (h : ∀ s name, s.Sound c → name ∈ names → Goes c trail s (step s name)) : Goes c trail s (names.foldl step s) := by
  induction names generalizing s with
  | nil => exact refl hs
  | cons name rest ih =>
    have hfirst := h s name hs List.mem_cons_self
    exact hfirst.trans (ih hfirst.sound fun s n hs hn => h s n hs (List.mem_cons_of_mem _ hn))

end Search.Goes

theorem goes_searchFrom (fuel : Nat) (hs : s.Sound c) (hname : c.contains name = true) :
    Search.Goes c trail s (c.searchFrom fuel trail s name) := by
  induction fuel generalizing s name trail with
  | zero => exact .refl hs
  | succ fuel ih =>
    rw [searchFrom]
    split
    · exact .refl hs
    · rename_i hnew
      obtain ⟨hundone, hoff⟩ := not_or.mp hnew
      have hinside : Search.Goes c (name :: trail) s
          (((c.knownDependencies name).filter c.contains).foldl (c.searchFrom fuel (name :: trail)) s) :=
        .foldl hs fun s other hs hother => ih hs (List.mem_filter.mp hother).2
      generalize ((c.knownDependencies name).filter c.contains).foldl _ s = after at hinside
      -- the name is on the trail while what it depends on is searched, so it is still not in order
      have hout : name ∉ after.order := fun hin =>
        hundone ((hs.done name).mpr (hinside.apart name List.mem_cons_self hin))
      refine ⟨⟨fun n => ?_, ?_, fun n hn => ?_⟩, fun n hn => ?_, fun n hn hin => ?_⟩
      · simp only [List.mem_cons, List.mem_append, hinside.sound.done n, List.not_mem_nil, or_false]
        exact or_comm
      · rw [List.nodup_append]
        refine ⟨hinside.sound.nodup, List.nodup_cons.mpr ⟨List.not_mem_nil, .nil⟩, ?_⟩
        rintro n hn _ hsame rfl
        exact hout (List.mem_singleton.mp hsame ▸ hn)
      · rcases List.mem_append.mp hn with hn | hn
        · exact hinside.sound.entries n hn
        · exact List.mem_singleton.mp hn ▸ hname
      · exact List.mem_append_left _ (hinside.kept hn)
      · rcases List.mem_append.mp hin with hin | hin
        · exact hinside.apart n (List.mem_cons_of_mem _ hn) hin
        · exact absurd (List.mem_singleton.mp hin ▸ hn) hoff

/-- From the empty trail a name comes into order. -/
theorem mem_searchFrom (fuel : Nat) (hs : s.Sound c) : name ∈ (c.searchFrom (fuel + 1) [] s name).order := by
  rw [searchFrom]
  split
  · rename_i hdone
    exact (hs.done name).mp (hdone.resolve_right List.not_mem_nil)
  · exact List.mem_append_right _ (List.mem_singleton_self name)

theorem sound_empty (c : Container σ) : Search.Sound c ⟨[], []⟩ where
  done _ := Iff.rfl
  nodup := .nil
  entries _ h := nomatch h

theorem contains_iff_mem_names (c : Container σ) (name : String) : c.contains name = true ↔ name ∈ c.names :=
  Dict.contains_iff

/-- A search through all entries goes on from one to the next. -/
theorem goes_search (names : List String) (hs : s.Sound c) (hnames : ∀ name ∈ names, c.contains name = true) :
    Search.Goes c [] s (names.foldl (c.searchFrom (c.names.length + 1) []) s) ∧
      ∀ name ∈ names, name ∈ (names.foldl (c.searchFrom (c.names.length + 1) []) s).order := by
  induction names generalizing s with
  | nil => exact ⟨.refl hs, fun _ h => nomatch h⟩
  | cons name rest ih =>
    obtain ⟨hname, hrest⟩ := List.forall_mem_cons.mp hnames
    have hfirst : Search.Goes c [] s _ := goes_searchFrom (c.names.length + 1) hs hname
    obtain ⟨hgoes, hall⟩ := ih hfirst.sound hrest
    refine ⟨hfirst.trans hgoes, List.forall_mem_cons.mpr ⟨?_, hall⟩⟩
    exact hgoes.kept (mem_searchFrom _ hs)

theorem mem_dependencyOrder (c : Container σ) (name : String) : name ∈ c.dependencyOrder ↔ c.contains name = true := by
  obtain ⟨hgoes, hall⟩ := goes_search c.names c.sound_empty fun name => (c.contains_iff_mem_names name).mpr
  constructor
  · exact hgoes.sound.entries name
  · intro hname
    exact hall name ((c.contains_iff_mem_names name).mp hname)

theorem nodup_dependencyOrder (c : Container σ) : c.dependencyOrder.Nodup :=
  (goes_search c.names c.sound_empty fun name => (c.contains_iff_mem_names name).mpr).1.sound.nodup

/-! ## What is made -/

/-- Each slot stands in the relation to its entry. -/
def Holds (P : Value → Slot σ → Prop) (c : Container σ) : Prop :=
  ∀ name v slot, c.entries.get? name = some v → c.slots.get? name = some slot → P v slot

/-- Each slot has the opened value of its entry. -/
def Filled (c : Container σ) : Prop :=
  ∀ name v slot, c.entries.get? name = some v → c.slots.get? name = some slot →
    slot.value = (ContainerM.opened? v).getD v

end Container

namespace ContainerM
open Container
variable {c : Container σ} {w : σ} {name : String} {v : Value}

theorem construct_value (name : String) (v : Value) (c : Container σ) (w : σ) :
    (construct name v c w).1.1.value = (opened? v).getD v := by
  cases hu : opened? v with
  | none => rw [construct_of_none hu]; rfl
  | some u => rw [construct_of_some hu]; rfl

/-- If what is made of the entry stands in the relation to it, so do all slots after a reading. -/
theorem holds_resolve {P : Value → Slot σ → Prop} (h : c.Holds P)
    (hmade : ∀ v, c.entries.get? name = some v → P v (construct name v c w).1.1) : (resolve name c w).1.2.Holds P := by
  cases hv : c.entries.get? name with
  | none => rwa [resolve_of_none hv]
  | some v =>
    cases hs : c.slots.get? name with
    | some slot => rwa [resolve_of_slot hv hs]
    | none =>
      rw [resolve_of_construct hv hs]
      intro other u slot hu hslot
      obtain ⟨-, hleft, -⟩ := construct_spec name v c w
      rw [hleft] at hu hslot
      dsimp only at hu hslot
      rw [Dict.get?_set] at hslot
      split at hslot
      · rename_i hsame
        subst hsame
        cases hslot
        cases hv.symm.trans hu
        exact hmade v hv
      · exact h other u slot hu hslot

theorem filled_resolve (h : c.Filled) (name : String) (w : σ) : (resolve name c w).1.2.Filled :=
  holds_resolve h fun v _ => construct_value name v c w

theorem lacksObject_iff {slot : Slot σ} :
    lacksObject slot = true ↔ slot.object = none ∧ slot.value.typeName?.isSome := by
  simp [lacksObject]

theorem flushNames_cons (name : String) (rest : List String) (c : Container σ) (w : σ) :
    (flushNames (name :: rest) c w).1.1 =
        (if (resolve name c w).1.1.any lacksObject then [.notConstructed name] else []) ++
          (flushNames rest (resolve name c w).1.2 (resolve name c w).2).1.1 ∧
      (flushNames (name :: rest) c w).1.2 = (flushNames rest (resolve name c w).1.2 (resolve name c w).2).1.2 := by
  constructor
  · change (if (resolve name c w).1.1.any lacksObject then _ else _) = _
    split <;> rfl
  · rfl

/-- A flush of these entries has made them all, and names those that lack their resource in the end. -/
theorem flushNames_spec (names : List String) (c : Container σ) (w : σ) (hc : c.Filled)
    (hnames : ∀ name ∈ names, c.contains name = true) :
    (flushNames names c w).1.2.Filled ∧
      (∀ name ∈ names, (flushNames names c w).1.2.isLoaded name = true) ∧
      (flushNames names c w).1.1 = (names.filter fun name =>
        ((flushNames names c w).1.2.slots.get? name).any lacksObject).map .notConstructed := by
  induction names generalizing c w with
  | nil => exact ⟨hc, fun _ h => (nomatch h), rfl⟩
  | cons name rest ih =>
    obtain ⟨hname, hrest⟩ := List.forall_mem_cons.mp hnames
    obtain ⟨v, hv⟩ := Option.isSome_iff_exists.mp hname
    obtain ⟨slot, hfound, hslot⟩ := resolve_of_entry hv w
    obtain ⟨made, hmade⟩ := resolve_grows name c w
    obtain ⟨issues, left⟩ := flushNames_cons name rest c w
    have hcontains : ∀ other ∈ rest, (resolve name c w).1.2.contains other = true := fun other hother =>
      (hmade.contains other).trans (hrest other hother)
    obtain ⟨hfilled, hloaded, hissues⟩ :=
      ih (resolve name c w).1.2 (resolve name c w).2 (filled_resolve hc name w) hcontains
    obtain ⟨later, hlater⟩ := flushNames_grows rest (resolve name c w).1.2 (resolve name c w).2
    have hkept := hlater.get?_slots hslot
    rw [left, issues, hfound]
    refine ⟨hfilled, List.forall_mem_cons.mpr ⟨?_, hloaded⟩, ?_⟩
    · rw [Container.isLoaded, Dict.contains, hkept]
      rfl
    · rw [List.filter_cons, hkept, hissues]
      simp only [Option.any_some]
      split <;> rfl

theorem object_run (name : String) (c : Container σ) (w : σ) : (object name c w).1.1 =
    (resolve name c w).1.1.bind fun slot => slot.object.map fun r => (r, slot.serial) := rfl

end ContainerM

namespace Container

theorem filled_ofDict (d : Dict Value) (registry : Registry σ) : (Container.ofDict d registry).Filled :=
  fun _ _ _ _ h => nomatch h

end Container

namespace ContainerM
open Container

/-- A flush of the container of a pack names each entry once that decodes to a value with a type and has no resource.
It names no other entry. -/
theorem flush_ofDict (d : Dict Value) (registry : Registry σ) (w : σ) : ∃ failing : List String,
    (flush (Container.ofDict d registry) w).1.1 = failing.map .notConstructed ∧ failing.Nodup ∧
      ∀ name, name ∈ failing ↔ ∃ v, (Container.ofDict d registry).entries.get? name = some v ∧
        (v.decoded?.bind Value.typeName?).isSome ∧
        (object name (flush (Container.ofDict d registry) w).1.2 (flush (Container.ofDict d registry) w).2).1.1 =
          none := by
  generalize hc : Container.ofDict d registry = c
  have hflush : flush c w = flushNames c.dependencyOrder c w := rfl
  obtain ⟨hfilled, hloaded, hissues⟩ := flushNames_spec c.dependencyOrder c w (hc ▸ filled_ofDict d registry)
    fun name => (c.mem_dependencyOrder name).mp
  obtain ⟨made, hmade⟩ := flushNames_grows c.dependencyOrder c w
  rw [hflush]
  generalize flushNames c.dependencyOrder c w = left at hfilled hloaded hissues hmade
  refine ⟨_, hissues, c.nodup_dependencyOrder.filter _, fun name => ?_⟩
  rw [List.mem_filter, mem_dependencyOrder, Option.any_eq_true]
  -- an entry in the container has a slot by now, and asking for its object only looks at that
  have hslot (v : Value) (hv : c.entries.get? name = some v) : ∃ slot, left.1.2.slots.get? name = some slot ∧
      slot.value.typeName? = v.decoded?.bind Value.typeName? ∧
      ((object name left.1.2 left.2).1.1 = none ↔ slot.object = none) := by
    have hin : c.contains name = true := Option.isSome_iff_exists.mpr ⟨v, hv⟩
    obtain ⟨slot, hslot⟩ := Option.isSome_iff_exists.mp (hloaded name ((c.mem_dependencyOrder name).mpr hin))
    have hkept : left.1.2.entries.get? name = some v := by rw [hmade.entries, hv]
    refine ⟨slot, hslot, ?_, ?_⟩
    · rw [hfilled name v slot hkept hslot, Value.typeName?_of_opened]
    · rw [object_run, resolve_of_slot hkept hslot]
      simp
  constructor
  · rintro ⟨hin, slot, hsome, hlacks⟩
    obtain ⟨v, hv⟩ := Option.isSome_iff_exists.mp hin
    obtain ⟨_, hslot, htype, hobject⟩ := hslot v hv
    cases hsome.symm.trans hslot
    obtain ⟨hnone, htyped⟩ := lacksObject_iff.mp hlacks
    exact ⟨v, hv, htype ▸ htyped, hobject.mpr hnone⟩
  · rintro ⟨v, hv, htyped, hnone⟩
    obtain ⟨slot, hslot, htype, hobject⟩ := hslot v hv
    refine ⟨Option.isSome_iff_exists.mpr ⟨v, hv⟩, slot, hslot, lacksObject_iff.mpr ⟨hobject.mp hnone, ?_⟩⟩
    rw [htype, htyped]

/-- A pack with a payload and a block that cannot be read. -/
def brokenPack : Dict Value :=
  .ofList [("payload", .saved ⟨.dict, .none, 3, [0, 0, 0]⟩), ("block", .block ⟨0, [0]⟩)]

/-- Neither entry of the broken pack decodes, and yet a flush names none. -/
theorem not_named_of_brokenPack :
    (∀ name ∈ ["payload", "block"], ∃ v, (Container.ofDict brokenPack (.builtin : Registry Unit)).entries.get? name =
        some v ∧ v.decoded?.isNone) ∧
      (flush (Container.ofDict brokenPack (.builtin : Registry Unit)) ()).1.1 = [] := by
  constructor
  · intro name hname
    rcases List.mem_cons.mp hname with rfl | hname
    · exact ⟨_, rfl, by decide⟩
    · cases List.mem_singleton.mp hname
      exact ⟨_, rfl, by decide⟩
  · rfl

end ContainerM
end AssetPack
