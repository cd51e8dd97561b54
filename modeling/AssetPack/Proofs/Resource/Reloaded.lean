import AssetPack.Proofs.Resource.Made
import AssetPack.Proofs.Tree.Alike
import AssetPack.Resource.Builtin

/-!
# Containers of a pack that was written and read

The entries of a pack and of the same pack written and read back are twins. What a container makes of twins are
twins, and it comes to depend on the same names. So two such containers go through every session side by side.
-/
namespace AssetPack
variable {σ : Type}

/-! ## What resource types look at -/

namespace Value.Twins
variable {v w : Value}

/-- Twins are converted to the same atom, or both to none. -/
theorem convert? (h : v.Twins w) {k : Kind} (hk : k ∉ [.list, .dict, .saved]) : v.convert? k = w.convert? k := by
  have hne (other : Kind) (hother : other ∈ [.list, .dict, .saved]) : k ≠ other := fun heq => hk (heq ▸ hother)
  have hlist := hne .list (by decide)
  have hdict := hne .dict (by decide)
  have hsaved := hne .saved (by decide)
  rcases h.alike.cases with ⟨a, rfl, rfl⟩ | ⟨p, rfl, rfl⟩ | ⟨items, items', rfl, rfl, -⟩ | ⟨bs, hv, hw⟩
  · rfl
  · rfl
  · cases k <;> first | rfl | exact absurd rfl hlist
  · have hblock (u : Value) (hu : u.block? = some bs) : u.convert? k = if k = .bytes then some (.bytes bs) else none := by
      cases u <;> cases hu <;> cases k <;> first | rfl | exact absurd rfl hdict | exact absurd rfl hsaved
    rw [hblock v hv, hblock w hw]

theorem as? {α : Type} (h : v.Twins w) (view : View α) (hview : view.kind ∉ [.list, .dict, .saved]) :
    v.as? view = w.as? view := by
  rw [Value.as?, Value.as?, h.convert? hview]

end Value.Twins

namespace Dict

theorem Related.findAs? {α : Type} {d e : Dict Value} (h : d.Related Value.Twins e) {name : String}
    (hname : name.toList.head? ≠ some '/') (view : View α) (hview : view.kind ∉ [.list, .dict, .saved]) :
    d.findAs? name view = e.findAs? name view := by
  have hget := h.get? name
  rw [Dict.findAs?, Dict.findAs?, Dict.find?, Dict.find?, if_neg hname, if_neg hname]
  generalize d.get? name = v at hget
  generalize e.get? name = w at hget
  cases hget with
  | none => rfl
  | some htwins => exact htwins.as? view hview

end Dict

theorem Value.Twins.typeName? {v w : Value} (h : v.Twins w) : v.typeName? = w.typeName? := by
  have hdict := h.dict?
  rw [Value.typeName?, Value.typeName?]
  generalize v.dict? = d at hdict
  generalize w.dict? = e at hdict
  cases hdict with
  | none => rfl
  | some htwins => exact htwins.related.findAs? (by decide) .string (by decide)

theorem Value.Twins.entryRefs {v w : Value} (h : v.Twins w) : v.entryRefs = w.entryRefs := by
  have hrefs : v.refs = w.refs := h.addRefs []
  rcases h.alike.cases with ⟨a, rfl, rfl⟩ | ⟨p, rfl, rfl⟩ | ⟨items, items', rfl, rfl, -⟩ | ⟨bs, hv, hw⟩
  · rfl
  · rfl
  · exact hrefs
  · have hblock (u : Value) (hu : u.block? = some bs) : u.entryRefs = u.refs := by
      cases u <;> cases hu <;> rfl
    rw [hblock v hv, hblock w hw, hrefs]

theorem ContainerM.opened?_saved_dict {p : Payload} (h : p.content = .dict) :
    opened? (.saved p) = p.loadDict.toOption.map .dict := by
  rw [opened?, if_pos h]
  change (Value.saved p).dictOf?.map Value.dict = _
  rw [Value.dictOf?, if_pos h]

theorem ContainerM.opened?_saved_bytes {p : Payload} (h : p.content = .bytes) :
    opened? (.saved p) = p.unpack.toOption.map Value.bytes := by
  rw [opened?, if_neg (by rw [h]; decide)]
  change (Value.saved p).bytesOf?.map Value.bytes = _
  rw [Value.bytesOf?, if_pos h]

/-- What a payload opens to is readable. -/
theorem ContainerM.readable_of_opened? {p : Payload} {u : Value} (h : opened? (.saved p) = some u) : u.Readable := by
  cases hcontent : p.content with
  | dict =>
    rw [opened?_saved_dict hcontent] at h
    cases hload : p.loadDict with
    | ok d =>
      rw [hload] at h
      cases h
      exact Payload.readable_of_loadDict hload
    | error f =>
      rw [hload] at h
      cases h
  | bytes =>
    rw [opened?_saved_bytes hcontent] at h
    obtain ⟨bs, -, rfl⟩ := Option.map_eq_some_iff.mp h
    exact (Value.each_atom _).mpr trivial

/-- Twins open to twins, or neither opens. -/
theorem Value.Twins.opened? {v w : Value} (h : v.Twins w) :
    Option.Rel Value.Twins (ContainerM.opened? v) (ContainerM.opened? w) := by
  rcases h.alike.cases with ⟨a, rfl, rfl⟩ | ⟨p, rfl, rfl⟩ | ⟨items, items', rfl, rfl, -⟩ | ⟨bs, hv, hw⟩
  · exact .some h
  · cases hu : ContainerM.opened? (.saved p) with
    | none => exact .none
    | some u => exact .some (.refl (ContainerM.readable_of_opened? hu))
  · exact .some h
  · have hblock (u : Value) (hu : u.block? = some bs) : ContainerM.opened? u = some u := by
      cases u <;> cases hu <;> rfl
    rw [hblock v hv, hblock w hw]
    exact .some h

theorem FileResource.fromCache?_of_twins {d e : Dict Value} (h : d.Twins e) : fromCache? d = fromCache? e := by
  rw [fromCache?, fromCache?, h.related.findAs? (by decide) .bytes (by decide),
    h.related.findAs? (by decide) .string (by decide), h.related.findAs? (by decide) .bool (by decide)]

/-! ## Twin resources -/

/-- Resources that were made of twins. -/
inductive Resource.Twins : Resource σ → Resource σ → Prop
  | file (f : FileResource) : Twins f.toResource f.toResource
  | dict {r s : DictResource} : r.fields.Related Value.Twins s.fields → r.fields.Distinct →
      Twins r.toResource s.toResource

theorem Resource.Twins.dependencies {r s : Resource σ} (h : r.Twins s) : r.dependencies = s.dependencies := by
  cases h with
  | file f => rfl
  | dict hfields _ => exact (hfields.mono fun _ _ htwins => htwins.addRefs).addRefs []

/-- The built-in types make twins of twins, and leave the world. -/
theorem Registry.builtin_fromCache {t : String} {f : Factory σ} (hf : Registry.builtin.get? t = some f)
    {d e : Dict Value} (h : d.Twins e) (w : σ) :
    Option.Rel Resource.Twins (f.fromCache d w).1 (f.fromCache e w).1 ∧ (f.fromCache d w).2 = w ∧
      (f.fromCache e w).2 = w := by
  have hmem := Dict.mem_of_get? hf
  rcases List.mem_cons.mp hmem with heq | hmem
  · cases heq
    refine ⟨?_, rfl, rfl⟩
    have hfile (d : Dict Value) : (FileResource.factory.fromCache d w : Option (Resource σ) × σ).1 =
        (FileResource.fromCache? d).map FileResource.toResource := rfl
    rw [hfile, hfile, FileResource.fromCache?_of_twins h]
    cases FileResource.fromCache? e with
    | none => exact .none
    | some f => exact .some (.file f)
  · cases List.mem_singleton.mp hmem
    refine ⟨.some (.dict ?_ ?_), rfl, rfl⟩
    · exact h.related.filter fun name => !Key.isReserved name
    · exact List.Nodup.sublist (List.filter_sublist.map _) (Dict.ReadsBack.distinct h.left.here)

/-! ## Twin containers -/

/-- What was made of twins. -/
structure Slot.Twins (s t : Slot σ) : Prop where
  value : s.value.Twins t.value
  object : Option.Rel Resource.Twins s.object t.object
  serial : s.serial = t.serial

theorem Slot.Twins.dependencies {s t : Slot σ} (h : s.Twins t) : s.dependencies = t.dependencies := by
  obtain ⟨hvalue, hobject, -⟩ := h
  rw [Slot.dependencies, Slot.dependencies, hvalue.entryRefs]
  generalize s.object = r at hobject
  generalize t.object = r' at hobject
  cases hobject with
  | none => rfl
  | some htwins => exact htwins.dependencies

/-- Containers of the built-in types, with twins under the same names. -/
structure Container.Twins (c c' : Container σ) : Prop where
  entries : c.entries.Related Value.Twins c'.entries
  left : c.registry = .builtin
  right : c'.registry = .builtin
  slots : c.slots.Related Slot.Twins c'.slots
  issues : c.issues = c'.issues
  built : c.built = c'.built

namespace Container.Twins
variable {c c' : Container σ}

theorem ofDict {d e : Dict Value} (h : d.Twins e) :
    (Container.ofDict d .builtin : Container σ).Twins (.ofDict e .builtin) where
  entries := h.related.filter fun name => !Key.isReserved name
  left := rfl
  right := rfl
  slots := .empty _
  issues := rfl
  built := rfl

theorem names (h : c.Twins c') : c.names = c'.names := h.entries.names

theorem contains (h : c.Twins c') : c.contains = c'.contains := funext h.entries.contains

theorem isLoaded (h : c.Twins c') (name : String) : c.isLoaded name = c'.isLoaded name := h.slots.contains name

theorem knownDependencies (h : c.Twins c') : c.knownDependencies = c'.knownDependencies := by
  funext name
  have hrefs : (c.entries.get? name).map Value.entryRefs = (c'.entries.get? name).map Value.entryRefs := by
    have hget := h.entries.get? name
    generalize c.entries.get? name = v at hget
    generalize c'.entries.get? name = w at hget
    cases hget with
    | none => rfl
    | some htwins => exact congrArg some htwins.entryRefs
  have hobject : Option.Rel Resource.Twins ((c.slots.get? name).bind (·.object)) ((c'.slots.get? name).bind (·.object)) := by
    have hget := h.slots.get? name
    generalize c.slots.get? name = s at hget
    generalize c'.slots.get? name = t at hget
    cases hget with
    | none => exact .none
    | some htwins => exact htwins.object
  rw [Container.knownDependencies, Container.knownDependencies, hrefs]
  generalize (c.slots.get? name).bind (·.object) = r at hobject
  generalize (c'.slots.get? name).bind (·.object) = s at hobject
  cases hobject with
  | none => rfl
  | some htwins => simp only [htwins.dependencies]

theorem dependents (h : c.Twins c') : c.dependents = c'.dependents := by
  funext name
  rw [Container.dependents, Container.dependents, h.names, h.knownDependencies]

theorem closure (h : c.Twins c') (fuel : Nat) (seen queue : List String) :
    c.closure fuel seen queue = c'.closure fuel seen queue := by
  induction fuel generalizing seen queue with
  | zero => rfl
  | succ fuel ih =>
    cases queue with
    | nil => rfl
    | cons name queue => rw [Container.closure, Container.closure, ih, h.dependents]

theorem searchFrom (h : c.Twins c') (fuel : Nat) (trail : List String) :
    c.searchFrom fuel trail = c'.searchFrom fuel trail := by
  induction fuel generalizing trail with
  | zero => rfl
  | succ fuel ih =>
    funext s name
    rw [Container.searchFrom, Container.searchFrom, ih, h.knownDependencies, h.contains]

theorem dependencyOrder (h : c.Twins c') : c.dependencyOrder = c'.dependencyOrder := by
  rw [Container.dependencyOrder, Container.dependencyOrder, h.names, h.searchFrom]

theorem listed (h : c.Twins c') (name : String) : c.listed name = c'.listed name := by
  rw [Container.listed, Container.listed, h.contains, h.names, h.closure]

theorem forget (h : c.Twins c') (names : List String) : (c.forget names).Twins (c'.forget names) :=
  { h with slots := h.slots.filter fun name => name ∉ names }

end Container.Twins
/-! ## Twin runs -/

/-- Operations on two containers that end alike: with related answers, twin containers and the same world. -/
structure ContainerM.TwinEnds {α β : Type} (R : α → β → Prop) (x : (α × Container σ) × σ) (y : (β × Container σ) × σ) :
    Prop where
  answer : R x.1.1 y.1.1
  container : x.1.2.Twins y.1.2
  world : x.2 = y.2

namespace ContainerM
variable {c c' : Container σ} {v v' : Value}

theorem makeObject_twins (h : c.Twins c') (hv : v.Twins v') (name : String) (w : σ) :
    TwinEnds (Option.Rel Resource.Twins) (makeObject name v c w) (makeObject name v' c' w) := by
  have htype := hv.typeName?
  cases ht : v.typeName? with
  | none =>
    rw [makeObject_of_untyped ht, makeObject_of_untyped (htype ▸ ht)]
    exact ⟨.none, h, rfl⟩
  | some t =>
    have ht' : v'.typeName? = some t := htype ▸ ht
    cases hf : Registry.builtin.get? t with
    | none =>
      rw [makeObject_of_unknown ht (h.left ▸ hf), makeObject_of_unknown ht' (h.right ▸ hf)]
      exact ⟨.none, { h with issues := congrArg (· ++ _) h.issues }, rfl⟩
    | some f =>
      obtain ⟨d, hd⟩ := exists_dict ht
      obtain ⟨e, he, htwins⟩ := hv.dict?_of_left hd
      obtain ⟨hobject, hworld, hworld'⟩ := Registry.builtin_fromCache hf htwins w
      rw [makeObject_of_factory ht (h.left ▸ hf) hd, makeObject_of_factory ht' (h.right ▸ hf) he, hworld, hworld']
      refine ⟨hobject, { h with issues := ?_ }, rfl⟩
      rw [h.issues]
      generalize (f.fromCache d w).1 = r at hobject
      generalize (f.fromCache e w).1 = s at hobject
      cases hobject <;> rfl

theorem construct_twins (h : c.Twins c') (hv : v.Twins v') (name : String) (w : σ) :
    TwinEnds Slot.Twins (construct name v c w) (construct name v' c' w) := by
  have hopened := hv.opened?
  cases hu : opened? v with
  | none =>
    rw [hu] at hopened
    rw [construct_of_none hu, construct_of_none (eq_none_of_rel hopened)]
    refine ⟨⟨hv, .none, congrArg (· + 1) h.built⟩, { h with issues := ?_, built := ?_ }, rfl⟩
    · exact congrArg (· ++ _) h.issues
    · exact congrArg (· + 1) h.built
  | some u =>
    rw [hu] at hopened
    obtain ⟨u', hu', htwins⟩ := exists_of_rel hopened
    have hcounted : ({ c with built := c.built + 1 } : Container σ).Twins { c' with built := c'.built + 1 } :=
      { h with built := congrArg (· + 1) h.built }
    obtain ⟨hobject, hleft, hworld⟩ := makeObject_twins hcounted htwins name w
    rw [construct_of_some hu, construct_of_some hu']
    exact ⟨⟨htwins, hobject, congrArg (· + 1) h.built⟩, hleft, hworld⟩

theorem resolve_twins (h : c.Twins c') (name : String) (w : σ) :
    TwinEnds (Option.Rel Slot.Twins) (resolve name c w) (resolve name c' w) := by
  have hentry := h.entries.get? name
  have hslot := h.slots.get? name
  cases hv : c.entries.get? name with
  | none =>
    rw [hv] at hentry
    rw [resolve_of_none hv, resolve_of_none (eq_none_of_rel hentry)]
    exact ⟨.none, h, rfl⟩
  | some v =>
    rw [hv] at hentry
    obtain ⟨v', hv', htwins⟩ := exists_of_rel hentry
    cases hs : c.slots.get? name with
    | some s =>
      rw [hs] at hslot
      obtain ⟨t, ht, hst⟩ := exists_of_rel hslot
      rw [resolve_of_slot hv hs, resolve_of_slot hv' ht]
      exact ⟨.some hst, h, rfl⟩
    | none =>
      rw [hs] at hslot
      obtain ⟨hmade, hleft, hworld⟩ := construct_twins h htwins name w
      rw [resolve_of_construct hv hs, resolve_of_construct hv' (eq_none_of_rel hslot)]
      exact ⟨.some hmade, { hleft with slots := hleft.slots.set hmade name }, hworld⟩

/-- A slot lacks its resource just if its twin does. -/
theorem lacksObject_twins {s t : Option (Slot σ)} (h : Option.Rel Slot.Twins s t) :
    s.any lacksObject = t.any lacksObject := by
  cases h with
  | none => rfl
  | @some s t h =>
    obtain ⟨hvalue, hobject, -⟩ := h
    rw [Option.any_some, Option.any_some, lacksObject, lacksObject, hvalue.typeName?]
    generalize s.object = r at hobject
    generalize t.object = r' at hobject
    cases hobject <;> rfl

theorem flushNames_twins (h : c.Twins c') (names : List String) (w : σ) :
    TwinEnds (· = ·) (flushNames names c w) (flushNames names c' w) := by
  induction names generalizing c c' w with
  | nil => exact ⟨rfl, h, rfl⟩
  | cons name rest ih =>
    obtain ⟨hslot, hleft, hworld⟩ := resolve_twins h name w
    have hrest := ih hleft (resolve name c w).2
    have hrun (c : Container σ) : flushNames (name :: rest) c w =
        ((if (resolve name c w).1.1.any lacksObject
            then .notConstructed name :: (flushNames rest (resolve name c w).1.2 (resolve name c w).2).1.1
            else (flushNames rest (resolve name c w).1.2 (resolve name c w).2).1.1,
          (flushNames rest (resolve name c w).1.2 (resolve name c w).2).1.2),
          (flushNames rest (resolve name c w).1.2 (resolve name c w).2).2) := rfl
    rw [hrun, hrun, ← lacksObject_twins hslot, ← hworld]
    refine ⟨?_, hrest.container, hrest.world⟩
    dsimp only
    rw [hrest.answer]

end ContainerM

/-! ## Answers that agree -/

/-- The values are the same, of the same kind, and written the same. -/
def Value.Agrees (v w : Value) : Prop := v.kind = w.kind ∧ v.same w = true ∧ v.encode = w.encode

/-- The dictionaries have the same names in the same order, are the same and are written the same. -/
def Dict.Agrees (d e : Dict Value) : Prop := d.names = e.names ∧ d.sameAs e = true ∧ d.encode = e.encode

def Body.Agrees : Body → Body → Prop
  | .fields d, .fields e => d.Agrees e
  | .file data extension compress, b => b = .file data extension compress
  | .other, b => b = .other
  | _, _ => False

/-- The resources have the same type and content and the same dependencies, go with the same entries and files, and
are kept in the same form. -/
structure Resource.Agrees (r s : Resource σ) : Prop where
  typeName : r.typeName = s.typeName
  body : r.body.Agrees s.body
  dependencies : r.dependencies = s.dependencies
  saves : (r.save ∅).1 = (s.save ∅).1
  save : (r.save ∅).2.Agrees (s.save ∅).2
  siblings : r.siblings = s.siblings
  toFile : r.toFile = s.toFile

def Answer.Agrees : Answer σ → Answer σ → Prop
  | .value v, .value w => Option.Rel Value.Agrees v w
  | .object r, .object s => Option.Rel (fun r s => r.1.Agrees s.1 ∧ r.2 = s.2) r s
  | .names ns, a => a = .names ns
  | .flag b, a => a = .flag b
  | .flushed is, a => a = .flushed is
  | .invalidated ns, a => a = .invalidated ns
  | .issues is, a => a = .issues is
  | .started, a => a = .started
  | _, _ => False

theorem Value.Twins.agrees {v w : Value} (h : v.Twins w) : v.Agrees w := ⟨h.alike.kind, h.same, h.alike.encode⟩

theorem Dict.Related.agrees {d e : Dict Value} (h : d.Related Value.Twins e) (hd : d.Distinct) : d.Agrees e := by
  refine ⟨h.names, Dict.Related.sameAs (h.mono fun _ _ htwins => htwins.same) hd, Dict.Alike.encode ?_⟩
  exact Dict.alike_iff.mpr (h.mono fun _ _ htwins => htwins.alike)

theorem Dict.agrees_self {d : Dict Value} (hread : ∀ entry ∈ d.entries, entry.2.Readable) (hd : d.Distinct) :
    d.Agrees d :=
  Dict.Related.agrees (List.forall₂_same.mpr fun entry hentry => ⟨rfl, .refl (hread entry hentry)⟩) hd

/-- What is kept of a file is readable. -/
theorem FileResource.agrees_save (f : FileResource) : (f.save ∅).Agrees (f.save ∅) := by
  refine Dict.agrees_self (fun entry hentry => ?_) ?_
  · rcases Dict.mem_set hentry with rfl | hentry
    · exact (Value.each_atom _).mpr trivial
    rcases Dict.mem_set hentry with rfl | hentry
    · exact (Value.each_atom _).mpr trivial
    rcases Dict.mem_set hentry with rfl | hentry
    · dsimp only
      split
      · exact (Value.each_saved _).mpr trivial
      · exact (Value.each_atom _).mpr trivial
    · cases hentry
  · exact Dict.distinct_set (Dict.distinct_set (Dict.distinct_set (Dict.distinct_ofList []) _ _) _ _) _ _

theorem Resource.Twins.agrees {r s : Resource σ} (h : r.Twins s) : r.Agrees s := by
  cases h with
  | file f => exact ⟨rfl, rfl, rfl, rfl, f.agrees_save, rfl, rfl⟩
  | @dict r s hfields hdistinct =>
    have hsaved : (∅ : Dict Value).merge r.fields |>.Related Value.Twins ((∅ : Dict Value).merge s.fields) :=
      Dict.Related.setAll (.empty _) hfields
    have htext : r.fields.jsonText = s.fields.jsonText := by
      rw [Dict.jsonText, Dict.jsonText, Dict.Related.json (hfields.mono fun _ _ htwins => htwins.json)]
    refine ⟨rfl, hfields.agrees hdistinct, (Resource.Twins.dict hfields hdistinct).dependencies, rfl, ?_, rfl, ?_⟩
    · exact hsaved.agrees (Dict.distinct_merge (Dict.distinct_ofList []) _)
    · funext dir name
      change writeInto dir (name ++ ".json") (Bytes.ofString r.fields.jsonText) = _
      rw [htext]
      rfl

namespace ContainerM
variable {c c' : Container σ}

theorem perform_twins (h : c.Twins c') (o : Operation) (w : σ) :
    TwinEnds Answer.Agrees (perform o c w) (perform o c' w) := by
  cases o with
  | names => exact ⟨congrArg Answer.names h.names.symm, h, rfl⟩
  | contains name => exact ⟨congrArg Answer.flag (congrFun h.contains name).symm, h, rfl⟩
  | descriptor name =>
    refine ⟨?_, h, rfl⟩
    have hentry := h.entries.get? name
    change Option.Rel Value.Agrees (c.entries.get? name) (c'.entries.get? name)
    generalize c.entries.get? name = v at hentry
    generalize c'.entries.get? name = v' at hentry
    cases hentry with
    | none => exact .none
    | some htwins => exact .some htwins.agrees
  | isLoaded name => exact ⟨congrArg Answer.flag (h.isLoaded name).symm, h, rfl⟩
  | object name =>
    obtain ⟨hslot, hleft, hworld⟩ := resolve_twins h name w
    refine ⟨?_, hleft, hworld⟩
    change Option.Rel _ ((resolve name c w).1.1.bind _) ((resolve name c' w).1.1.bind _)
    generalize (resolve name c w).1.1 = s at hslot
    generalize (resolve name c' w).1.1 = t at hslot
    cases hslot with
    | none => exact .none
    | @some s t hslot =>
      obtain ⟨-, hobject, hserial⟩ := hslot
      change Option.Rel _ (s.object.map _) (t.object.map _)
      generalize s.object = r at hobject
      generalize t.object = r' at hobject
      cases hobject with
      | none => exact .none
      | some htwins => exact .some ⟨htwins.agrees, hserial⟩
  | value name =>
    obtain ⟨hslot, hleft, hworld⟩ := resolve_twins h name w
    refine ⟨?_, hleft, hworld⟩
    change Option.Rel _ ((resolve name c w).1.1.map _) ((resolve name c' w).1.1.map _)
    generalize (resolve name c w).1.1 = s at hslot
    generalize (resolve name c' w).1.1 = t at hslot
    cases hslot with
    | none => exact .none
    | some hslot => exact .some hslot.value.agrees
  | dependencies name =>
    obtain ⟨hslot, hleft, hworld⟩ := resolve_twins h name w
    rw [perform, bind_run, bind_run, dependencies_run, dependencies_run]
    refine ⟨congrArg Answer.names ?_, hleft, hworld⟩
    generalize (resolve name c w).1.1 = s at hslot
    generalize (resolve name c' w).1.1 = t at hslot
    cases hslot with
    | none => rfl
    | some hslot => exact hslot.dependencies.symm
  | flush =>
    have hrun (c : Container σ) : perform .flush c w = ((.flushed (flushNames c.dependencyOrder c w).1.1,
      (flushNames c.dependencyOrder c w).1.2), (flushNames c.dependencyOrder c w).2) := rfl
    obtain ⟨hissues, hleft, hworld⟩ := flushNames_twins h c.dependencyOrder w
    rw [hrun, hrun, ← h.dependencyOrder]
    exact ⟨congrArg Answer.flushed hissues.symm, hleft, hworld⟩
  | prefetch name => exact ⟨rfl, h, rfl⟩
  | invalidate name =>
    rw [perform, bind_run, bind_run, invalidate_run, invalidate_run, h.listed]
    exact ⟨rfl, h.forget _, rfl⟩
  | takeIssues => exact ⟨congrArg Answer.issues h.issues.symm, { h with issues := rfl }, rfl⟩

end ContainerM
theorem Answer.Agrees.invalid {a b : Answer σ} (h : a.Agrees b) : a.invalid = b.invalid := by
  cases a <;> cases b <;> first | rfl | cases h <;> rfl

namespace Session

/-- Sessions that went side by side. -/
structure Twins (s t : Session σ) : Prop where
  container : s.container.Twins t.container
  world : s.world = t.world
  answers : List.Forall₂ Answer.Agrees s.answers t.answers
  abandoned : s.abandoned = t.abandoned

namespace Twins
variable {s t : Session σ}

theorem ask (h : s.Twins t) (o : Operation) : (s.step (.ask o)).Twins (t.step (.ask o)) := by
  obtain ⟨c', w', answers', made', abandoned'⟩ := t
  obtain ⟨hcontainer, hworld, hanswers, habandoned⟩ := h
  dsimp only at hcontainer hworld hanswers habandoned
  subst hworld habandoned
  have hends := ContainerM.perform_twins hcontainer o s.world
  refine ⟨hends.container, hends.world, List.rel_append hanswers (.cons hends.answer .nil), ?_⟩
  funext name
  change s.abandon _ name = Session.abandon _ _ name
  rw [Session.abandon, Session.abandon, hends.answer.invalid, hcontainer.isLoaded]

theorem read (h : s.Twins t) (name : String) : (s.step (.read name)).Twins (t.step (.read name)) := by
  obtain ⟨c', w', answers', made', abandoned'⟩ := t
  obtain ⟨hcontainer, hworld, hanswers, habandoned⟩ := h
  dsimp only at hcontainer hworld hanswers habandoned
  subst hworld habandoned
  have hends := ContainerM.resolve_twins hcontainer name s.world
  exact ⟨hends.container, hends.world, hanswers, rfl⟩

theorem finish (h : s.Twins t) (name : String) : (s.step (.finish name)).Twins (t.step (.finish name)) := by
  have hentry := h.container.entries.get? name
  rw [Session.step, Session.step, ← h.abandoned]
  cases hv : s.container.entries.get? name with
  | none =>
    rw [hv] at hentry
    rw [eq_none_of_rel hentry]
    exact h
  | some v =>
    rw [hv] at hentry
    obtain ⟨v', hv', htwins⟩ := exists_of_rel hentry
    rw [hv']
    cases s.abandoned name with
    | zero => exact h
    | succ n =>
      obtain ⟨c', w', answers', made', abandoned'⟩ := t
      obtain ⟨hcontainer, hworld, hanswers, habandoned⟩ := h
      dsimp only at hcontainer hworld hanswers habandoned
      subst hworld habandoned
      have hends := ContainerM.construct_twins hcontainer htwins name s.world
      exact ⟨hends.container, hends.world, hanswers, rfl⟩

theorem step (h : s.Twins t) (e : Container.Event) : (s.step e).Twins (t.step e) := by
  cases e with
  | ask o => exact h.ask o
  | read name => exact h.read name
  | finish name => exact h.finish name

theorem after (h : s.Twins t) (events : List Container.Event) : (s.after events).Twins (t.after events) := by
  induction events generalizing s t with
  | nil => exact h
  | cons e rest ih => exact ih (h.step e)

end Twins
end Session

/-- A dictionary that refers to a file from inside a list of dictionaries, and the file. -/
def referringPack : Dict Value :=
  ⟨[("a", .dict ⟨[(Key.type, .string "dict"), ("b", .list [.dict ⟨[("c", .ref "f")]⟩])]⟩),
    ("f", .dict ⟨[(Key.type, .string "file"), ("data", .saved (.ofBytes .bytes [1, 2] false)),
      ("extension", .string ".txt")]⟩)]⟩

end AssetPack
