import AssetPack.Proofs.Value.Opened
import AssetPack.Proofs.Visit.Asked

/-!
# Fields in a visit

The fields of a value are the atoms that stand in the dictionaries within it, each under its name. Hooks that only put
something in the place of atoms leave each field where it is. If hooks ask because of the fields of a dictionary that
they are called with, then the visit asks because of the fields of what it goes through.
-/
namespace AssetPack
variable {n : Type → Type} [Monad n] {A : Answers n} {S α β : Type} {J : S → Prop} {fs : Files}

/-- What an atom reads as where a text is wanted. -/
def Atom.text? (a : Atom) : Option String := (Value.atom a).as? .string

namespace Value

/-- Only an atom reads as a text. -/
theorem exists_atom_of_text {v : Value} {text : String} (h : v.as? .string = some text) :
    ∃ a, v = .atom a ∧ a.text? = some text := by
  cases v with
  | atom a => exact ⟨a, rfl, h⟩
  | _ => cases h

/-- A dictionary within the value has this entry. -/
def HasField (v : Value) (name : String) (a : Atom) : Prop :=
  ∃ d : Dict Value, (dict d).Within v ∧ (name, atom a) ∈ d.entries

variable {name : String} {a : Atom}

theorem HasField.within {u v : Value} (h : u.HasField name a) (hlift : ∀ w : Value, w.Within u → w.Within v) :
    v.HasField name a := by
  obtain ⟨d, hd, ha⟩ := h
  exact ⟨d, hlift _ hd, ha⟩

theorem not_hasField_atom {b : Atom} : ¬(atom b).HasField name a := by
  rintro ⟨d, ⟨⟩, -⟩

theorem hasField_list {items : List Value} : (list items).HasField name a ↔ ∃ v ∈ items, v.HasField name a := by
  constructor
  · rintro ⟨d, _ | ⟨hv, hd⟩, ha⟩
    exact ⟨_, hv, d, hd, ha⟩
  · rintro ⟨v, hv, hfield⟩
    exact hfield.within fun _ => .item hv

theorem hasField_dict {d : Dict Value} : (dict d).HasField name a ↔
    ∃ entry ∈ d.entries, entry = (name, atom a) ∨ entry.2.HasField name a := by
  constructor
  · rintro ⟨e, _ | _ | ⟨hentry, he⟩, ha⟩
    · exact ⟨_, ha, .inl rfl⟩
    · exact ⟨_, hentry, .inr ⟨e, he, ha⟩⟩
  · rintro ⟨entry, hentry, rfl | hfield⟩
    · exact ⟨d, .self, hentry⟩
    · exact hfield.within fun _ => .entry hentry

/-- What `u` has in the place of atoms and fields of `v` stands in the relation to them. -/
structure From (R : Atom → Atom → Prop) (u v : Value) : Prop where
  atom : ∀ b, u = .atom b → ∃ a, v = .atom a ∧ R a b
  field : ∀ name b, u.HasField name b → ∃ a, v.HasField name a ∧ R a b

namespace From
variable {R : Atom → Atom → Prop} {u v : Value}

theorem of_atom {a b : Atom} (h : R a b) : From R (.atom b) (.atom a) where
  atom := by
    rintro _ ⟨⟩
    exact ⟨a, rfl, h⟩
  field _ _ hfield := (not_hasField_atom hfield).elim

theorem of_saved {p q : Payload} (hp : p.content ≠ .dict) : From R (.saved p) (.saved q) where
  atom _ h := nomatch h
  field := by
    rintro name b ⟨d, _ | _ | _ | _ | ⟨hdict, _, _⟩, _⟩
    exact absurd hdict hp

theorem of_list {items done : List Value} (h : List.Forall₂ (fun v u => From R u v) items done) :
    From R (.list done) (.list items) where
  atom _ h := nomatch h
  field name b hfield := by
    obtain ⟨u, hu, hfield⟩ := hasField_list.mp hfield
    obtain ⟨v, hv, hfrom⟩ := exists_of_forall₂ h hu
    obtain ⟨a, ha, hR⟩ := hfrom.field name b hfield
    exact ⟨a, hasField_list.mpr ⟨v, hv, ha⟩, hR⟩

theorem of_dict {d : Dict Value} {done : List (String × Value)}
    (h : List.Forall₂ (fun e e' => e.1 = e'.1 ∧ From R e'.2 e.2) d.entries done) : From R (.dict ⟨done⟩) (.dict d) where
  atom _ h := nomatch h
  field name b hfield := by
    obtain ⟨entry', hentry', hhere⟩ := hasField_dict.mp hfield
    obtain ⟨⟨key, v⟩, hentry, hname, hfrom⟩ := exists_of_forall₂ h hentry'
    rcases hhere with rfl | hinside
    · obtain ⟨a, hv, hR⟩ := hfrom.atom b rfl
      exact ⟨a, hasField_dict.mpr ⟨_, hentry, .inl (Prod.ext hname hv)⟩, hR⟩
    · obtain ⟨a, ha, hR⟩ := hfrom.field name b hinside
      exact ⟨a, hasField_dict.mpr ⟨_, hentry, .inr ha⟩, hR⟩

/-- What comes from the dictionary in a form comes from the form. -/
theorem of_opened {d : Dict Value} (h : From R u (.dict d)) (hlift : ∀ w : Value, w.Within (.dict d) → w.Within v) :
    From R u v where
  atom b hu := by
    obtain ⟨_, hatom, _⟩ := h.atom b hu
    cases hatom
  field name b hfield := by
    obtain ⟨a, ha, hR⟩ := h.field name b hfield
    exact ⟨a, ha.within hlift, hR⟩

end From
end Value

/-! ## Hooks that put something in the place of atoms -/

/-- Hooks that answer an atom with one in the relation and keep everything else. -/
structure Hooks.Puts (A : Answers n) (J : S → Prop) (R : Atom → Atom → Prop) (h : Hooks (StateT S n)) : Prop where
  atom : ∀ spot a, Reply.Upholds A J (fun _ => True) True (h.onValue spot (.atom a))
    fun v => ∃ b, v = some (.atom b) ∧ R a b
  list : ∀ spot items, h.onValue spot (.list items) = pure (.keep (.list items))
  saved : ∀ spot p, h.onValue spot (.saved p) = pure (.keep (.saved p))
  dict : ∀ spot d, h.onDict spot d = pure (.keep (.dict d))

namespace Hooks.Puts
variable {R : Atom → Atom → Prop} {h : Hooks (StateT S n)}

theorem broken (source : Source) (trail : List Step) {Q : Option Value → Prop} :
    Visiting.Upholds A J (fun _ => True) True ((Tree.broken source).visit h trail) Q :=
  (Visiting.upholds_report source.own_issue (Q := fun _ => False)).bind fun _ => .pure fun hfalse => hfalse.elim

/-- What such hooks make of a value has its fields from there. -/
theorem visit (hh : h.Puts A J R) (v : Value) (trail : List Step) :
    Visiting.Upholds A J (fun _ => True) True (v.tree.visit h trail) fun w => ∃ u, w = some u ∧ u.From R v := by
  induction v using Value.induction_opened generalizing trail with
  | atom a =>
    refine (Visiting.upholds_call fun issues => hh.atom ⟨trail, issues⟩ a).mono ?_
    rintro _ ⟨b, rfl, hR⟩
    exact ⟨_, rfl, .of_atom hR⟩
  | list items ih =>
    rw [Value.tree_list, Tree.visit]
    refine (upholds_visitItems (fun v hv index => ih v hv (.index index :: trail)) 0).bind fun done =>
      Visiting.upholds_call fun issues => ?_
    rw [hh.list]
    exact Reply.upholds_pure fun _ hdone => ⟨_, rfl, .of_list hdone⟩
  | dict d ih =>
    rw [Value.tree_dict, Tree.visit, Dict.tree_eq, Dict.map, Dict.visit]
    have hentries := upholds_visitEntries (fun _ v u => u.From R v) fun e he => ih e he (.name e.1 :: trail)
    refine hentries.bind fun done => Visiting.upholds_call fun issues => ?_
    rw [hh.dict]
    exact Reply.upholds_pure fun _ hdone => ⟨_, rfl, .of_dict hdone⟩
  | block b ih =>
    rw [Value.tree_block]
    cases hload : b.load with
    | ok d =>
      refine (ih d hload trail).mono ?_
      rintro _ ⟨u, rfl, hfrom⟩
      exact ⟨u, rfl, hfrom.of_opened fun _ => .block hload⟩
    | error f => exact broken (.block b) trail
  | saved p ih =>
    rw [Value.tree_saved]
    split
    · rename_i hcontent
      cases hload : p.loadDict with
      | ok d =>
        refine (ih hcontent d hload trail).mono ?_
        rintro _ ⟨u, rfl, hfrom⟩
        exact ⟨u, rfl, hfrom.of_opened fun _ => .saved hcontent hload⟩
      | error f => exact broken (.payload p) trail
    · rename_i hcontent
      refine Visiting.upholds_call fun issues => ?_
      rw [hh.saved]
      exact Reply.upholds_pure fun _ _ => ⟨_, rfl, .of_saved hcontent⟩

theorem visitRoot (hh : h.Puts A J R) {d e : Dict Value} {s s' : S} {visited : Visited}
    (hmay : A.May ((d.visitRoot h).run s) (visited, s')) (hissues : visited.issues = []) (hJ : J s')
    (he : visited.dict = some e) : (Value.dict e).From R (.dict d) := by
  have hvisit := Dict.upholds_visitRoot_of_entry (I := fun _ => True) (fun _ v u => u.From R v)
    (fun issues d => hh.dict ⟨[], issues⟩ d) (fun entry _ => hh.visit entry.2 [.name entry.1]) hmay hissues hJ
  obtain ⟨-, done, hdone, hfrom⟩ := hvisit.2 trivial
  obtain rfl : e = ⟨done⟩ := Option.some.inj (he.symm.trans hdone)
  exact .of_dict hfrom

end Hooks.Puts

/-! ## What is asked, whatever there is before -/

/-- From any state, all that is asked is as stated, and so is the answer. -/
def Inquires (fs : Files) (G : Question → Prop) (x : StateT S Look α) (Q : α → Prop) : Prop :=
  ∀ s, (∀ q ∈ (x.run s).asked fs, G q) ∧ Q ((x.run s).eval fs).1

namespace Inquires
variable {G G' : Question → Prop} {x : StateT S Look α} {Q Q' : α → Prop}

theorem pure {a : α} (h : Q a) : Inquires fs G (Pure.pure a : StateT S Look α) Q :=
  fun _ => ⟨fun _ hq => (nomatch hq), h⟩

theorem bind {f : α → StateT S Look β} {R : β → Prop} (hx : Inquires fs G x Q)
    (hf : ∀ a, Q a → Inquires fs G (f a) R) : Inquires fs G (x >>= f) R := by
  intro s
  obtain ⟨hasked, hanswer⟩ := hx s
  obtain ⟨hasked', hanswer'⟩ := hf _ hanswer ((x.run s).eval fs).2
  rw [StateT.run_bind, Look.asked_bind, Look.eval_bind]
  exact ⟨fun q hq => (List.mem_append.mp hq).elim (hasked q) (hasked' q), hanswer'⟩

theorem mono (hx : Inquires fs G x Q) (hG : ∀ q, G q → G' q) (hQ : ∀ a, Q a → Q' a) : Inquires fs G' x Q' :=
  fun s => ⟨fun q hq => hG q ((hx s).1 q hq), hQ _ (hx s).2⟩

theorem ask : Inquires fs G (get : StateT S Look S) fun _ => True :=
  fun _ => ⟨fun _ hq => (nomatch hq), trivial⟩

theorem put (s : S) : Inquires fs G (set s : StateT S Look PUnit) fun _ => True :=
  fun _ => ⟨fun _ hq => (nomatch hq), trivial⟩

theorem change (f : S → S) : Inquires fs G (modify f : StateT S Look PUnit) fun _ => True :=
  fun _ => ⟨fun _ hq => (nomatch hq), trivial⟩

theorem lift {y : Look α} (hG : ∀ q ∈ y.asked fs, G q) (hQ : Q (y.eval fs)) :
    Inquires fs G (liftM y : StateT S Look α) Q := by
  intro s
  have hrun : (liftM y : StateT S Look α).run s = y >>= fun a => Pure.pure (a, s) := rfl
  rw [hrun, Look.asked_map, Look.eval_bind]
  exact ⟨hG, hQ⟩

end Inquires

/-- As something that is assured of a visit. -/
def Inquires.assurance (fs : Files) (G : Question → Prop) : Assurance (StateT S Look) :=
  ⟨Inquires fs G, Inquires.pure, Inquires.bind⟩

namespace Visiting

/-- The same for a part of a visit, from any issues. -/
abbrev Inquires (fs : Files) (G : Question → Prop) (x : Visiting (StateT S Look) α) (Q : α → Prop) : Prop :=
  Assured (Inquires.assurance fs G) x Q

theorem Inquires.mono {G G' : Question → Prop} {x : Visiting (StateT S Look) α} {Q Q' : α → Prop}
    (hx : Inquires fs G x Q) (hG : ∀ q, G q → G' q) (hQ : ∀ a, Q a → Q' a) : Inquires fs G' x Q' := by
  intro issues
  have hinquires : AssetPack.Inquires fs G (x.run issues) fun r => Q r.1 := hx issues
  exact hinquires.mono hG fun r => hQ r.1

theorem inquires_call {G : Question → Prop} {hook : Spot → α → StateT S Look Reply} {trail : List Step} {a : α}
    {Q : Option Value → Prop} (h : ∀ spot, AssetPack.Inquires fs G (hook spot a) fun reply => Q reply.value) :
    Inquires fs G (call hook trail a) Q :=
  Assured.call fun issues => h ⟨trail, issues⟩

end Visiting

/-! ## Hooks that ask because of fields -/

/-- Hooks that keep all but dictionaries, that ask because of fields of a dictionary, and that answer no atom for it. -/
structure Hooks.Inquire (fs : Files) (G : String → Atom → Question → Prop) (h : Hooks (StateT S Look)) : Prop where
  onValue : ∀ spot v, h.onValue spot v = pure (.keep v)
  onDict : ∀ spot d, Inquires fs (fun q => ∃ name a, (name, .atom a) ∈ d.entries ∧ G name a q) (h.onDict spot d)
    fun reply => ∀ b, reply.value ≠ some (.atom b)

namespace Hooks.Inquire
variable {G : String → Atom → Question → Prop} {h : Hooks (StateT S Look)}

/-- A visit with such hooks asks because of fields of the value. -/
theorem visit (hh : h.Inquire fs G) (v : Value) (trail : List Step) :
    Visiting.Inquires fs (fun q => ∃ name a, v.HasField name a ∧ G name a q) (v.tree.visit h trail)
      fun w => ∀ b, w = some (.atom b) → v = .atom b := by
  have hkept (v : Value) (trail : List Step) {G : Question → Prop} {Q : Option Value → Prop} (hQ : Q (some v)) :
      Visiting.Inquires fs G (Visiting.call h.onValue trail v) Q := by
    refine Visiting.inquires_call fun spot => ?_
    rw [hh.onValue]
    exact .pure hQ
  induction v using Value.induction_opened generalizing trail with
  | atom a => exact hkept (.atom a) trail fun b hb => Option.some.inj hb
  | list items ih =>
    rw [Value.tree_list, Tree.visit]
    refine (Visiting.Assured.visitItems (fun t ht trail => ?_) 0).bind fun done _ =>
      hkept (.list done) trail fun b hb => by cases hb
    obtain ⟨v, hv, rfl⟩ := List.mem_map.mp ht
    refine (ih v hv trail).mono ?_ fun _ _ => trivial
    rintro q ⟨name, a, hfield, hq⟩
    exact ⟨name, a, Value.hasField_list.mpr ⟨v, hv, hfield⟩, hq⟩
  | dict d ih =>
    rw [Value.tree_dict, Tree.visit, Dict.tree_eq, Dict.map, Dict.visit]
    refine (Visiting.Assured.visitEntries (Q := fun e w => ∀ b, w = some (.atom b) → (e.1, .atom b) ∈ d.entries)
      fun t ht trail => ?_).bind fun done hdone =>
        Visiting.inquires_call fun spot => (hh.onDict spot ⟨done⟩).mono ?_ ?_
    · obtain ⟨entry, hentry, rfl⟩ := List.mem_map.mp ht
      refine (ih entry hentry trail).mono ?_ fun w hw b hb => hw b hb ▸ hentry
      rintro q ⟨name, a, hfield, hq⟩
      exact ⟨name, a, Value.hasField_dict.mpr ⟨entry, hentry, .inr hfield⟩, hq⟩
    · rintro q ⟨name, a, ha, hq⟩
      obtain ⟨_, _, hname, hsame⟩ := hdone _ ha
      have hfield := hsame a rfl
      rw [← hname] at hfield
      exact ⟨name, a, Value.hasField_dict.mpr ⟨_, hfield, .inl rfl⟩, hq⟩
    · exact fun reply hreply b hb => (hreply b hb).elim
  | block b ih =>
    rw [Value.tree_block]
    cases hload : b.load with
    | ok d =>
      refine (ih d hload trail).mono ?_ fun w hw b hb => by cases hw b hb
      rintro q ⟨name, a, hfield, hq⟩
      exact ⟨name, a, hfield.within fun _ => .block hload, hq⟩
    | error f => exact .bind (.report _) fun _ _ => .pure fun _ h => by cases h
  | saved p ih =>
    rw [Value.tree_saved]
    split
    · rename_i hcontent
      cases hload : p.loadDict with
      | ok d =>
        refine (ih hcontent d hload trail).mono ?_ fun w hw b hb => by cases hw b hb
        rintro q ⟨name, a, hfield, hq⟩
        exact ⟨name, a, hfield.within fun _ => .saved hcontent hload, hq⟩
      | error f => exact .bind (.report _) fun _ _ => .pure fun _ h => by cases h
    · exact hkept (.saved p) trail fun b hb => by cases hb

/-- The whole visit, from the root. -/
theorem visitRoot (hh : h.Inquire fs G) (d : Dict Value) (s : S) : ∀ q ∈ ((d.visitRoot h).run s).asked fs,
    ∃ name a, (Value.dict d).HasField name a ∧ G name a q := by
  have hrun : (d.visitRoot h).run s = (((Value.dict d).tree.visit h []).run []).run s >>= fun r =>
      pure (⟨(r.1.1.bind Value.dictValue?).bind Value.dict?, r.1.2⟩, r.2) := rfl
  rw [hrun, Look.asked_map]
  exact (hh.visit (.dict d) [] [] s).1

end Hooks.Inquire
end AssetPack
