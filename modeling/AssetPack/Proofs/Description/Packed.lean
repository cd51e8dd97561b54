import AssetPack.Proofs.Description.Recast
import AssetPack.Proofs.Description.Resolved
import AssetPack.Proofs.Value.Revealed
import AssetPack.Proofs.Visit.Carried
import AssetPack.Proofs.Visit.Followed

/-!
# Passes up to flags

In descriptions that are the same but for flags, the same is made into resources. What is typed inside an entry is
replaced by a form that a pack keeps, which may be compressed on either side and shows the same. In a top-level entry
flags stay until it is saved.
-/
namespace AssetPack

/-!
## Files and references up to flags

A plain flag names no file and refers to nothing, and no reference may lead to one. So descriptions that are the same
but for flags have the same files and the same graph of references, and are the same but for flags once these are put
in place.
-/

section
variable {fs : Files} {P : Dict Value → Prop}

theorem Atom.Unmarked.bind_after? {a : Atom} (h : a.Unmarked Key.marks) {mark : String} (hmark : mark ∈ Key.marks) :
    (Value.atom a).string?.bind (after? mark) = none := by
  cases a with
  | string text => exact h mark hmark
  | _ => rfl

/-- Of a text that names a file the name of that file is put in place, or an issue is reported. -/
theorem carry_locate (fs : Files) (hP : Dict.Stable P) : Hooks.Carry ((Evaluation.files fs).execution Context) Eq P
    (·.Unmarked Key.marks) (fun _ => Value.ReflaggedIn P) { Hooks.keep with onValue := locate } := by
  refine Hooks.carry_of_atom hP (fun trail issues a ha => ?_) (fun trail a s hissues => ?_) fun _ _ => rfl
  · rw [locate, ha.bind_after? (by decide)]
  · change Issue.audible ((Evaluation.files fs).after (locate ⟨trail, []⟩ (.atom a)) s).1.issues = [] at hissues
    change ∃ b, ((Evaluation.files fs).after (locate ⟨trail, []⟩ (.atom a)) s).1.value = some (.atom b)
    unfold locate at hissues ⊢
    split
    · exact ⟨a, rfl⟩
    · rename_i relative hmark
      rw [hmark] at hissues
      dsimp only at hissues ⊢
      rw [Evaluation.after_bind, Evaluation.after_get, Evaluation.after_bind, Evaluation.after_lift] at hissues ⊢
      cases hfound : (Evaluation.files fs).run (Look.canonical (Path.join s.base relative)) with
      | ok path =>
        dsimp only
        rw [Evaluation.after_bind, Evaluation.after_lift, Evaluation.after_bind, Evaluation.after_set,
          Evaluation.after_pure]
        exact ⟨.string path, rfl⟩
      | error e =>
        rw [hfound] at hissues
        dsimp only at hissues
        rw [Evaluation.after_pure, Issue.audible_of_own (i := .fileNotFound _) trivial] at hissues
        cases hissues

/-- Descriptions that are the same but for flags are so when their files are located, and the same was consulted. -/
theorem Dict.locate_reflagged (hP : Stable P) {d d' : Dict Value} (h : (Value.dict d).ReflaggedIn P (.dict d'))
    {context context' : Context} {visited : Visited} (hrun : (d.locate context).eval fs = (visited, context'))
    (hissues : visited.issues = []) :
    ∃ visited', (d'.locate context).eval fs = (visited', context') ∧ visited'.issues = [] ∧
      Option.Rel (fun e e' => (Value.dict e).ReflaggedIn P (.dict e')) visited.dict visited'.dict := by
  obtain ⟨hvisited, hleft⟩ : ((d.locate context).eval fs).1 = visited ∧ ((d.locate context).eval fs).2 = context' := by
    rw [hrun]
    exact ⟨rfl, rfl⟩
  subst hvisited hleft
  obtain ⟨hissues', hcontext, v, w, hv, hw, hvw⟩ :=
    (carry_locate fs hP).visitRoot h.reflagged h.left h.right (rfl : context = context) hissues
  refine ⟨((d'.locate context).eval fs).1, Prod.ext rfl hcontext.symm, hissues', ?_⟩
  have hdict : ((d.locate context).eval fs).1.dict = v.opened? := hv
  have hdict' : ((d'.locate context).eval fs).1.dict = w.opened? := hw
  rw [hdict, hdict']
  exact hvw.opened?

theorem resolveRef_reflagged {d d' : Dict Value} (h : (Value.dict d).Reflagged (.dict d')) :
    resolveRef d = resolveRef d' := by
  have hoffers (name : String) :
      (Key.isReserved name || !d.contains name) = (Key.isReserved name || !d'.contains name) := by
    by_cases hname : name = Key.compress
    · subst hname
      rfl
    · rw [h.contains hname]
  funext spot v
  unfold resolveRef
  simp only [hoffers]

theorem carry_resolveRef (hP : Dict.Stable P) (root : Dict Value) : Hooks.Carry (Execution.plain Graph) Eq P
    (·.Unmarked Key.marks) (fun _ => Value.ReflaggedIn P) { Hooks.keep with onValue := resolveRef root } := by
  refine Hooks.carry_of_atom hP (fun trail issues a ha => ?_) (fun trail a s hissues => ?_) fun _ _ => rfl
  · rw [resolveRef, ha.bind_after? (by decide)]
  · unfold resolveRef at hissues ⊢
    split
    · exact ⟨a, rfl⟩
    · rename_i name hmark
      rw [hmark] at hissues
      dsimp only at hissues ⊢
      split
      · rename_i hmissing
        rw [if_pos hmissing] at hissues
        exact (Reply.not_own_of_drop hissues trivial).elim
      · split <;> exact ⟨.ref name, rfl⟩

/-- If all references are there and lead in no circle, then so it is in a description that is the same but for flags. -/
theorem Dict.resolveRefs_reflagged (hP : Stable P) {d d' : Dict Value} (h : (Value.dict d).ReflaggedIn P (.dict d'))
    (hissues : d.resolveRefs.issues = []) : d'.resolveRefs.issues = [] ∧
      Option.Rel (fun e e' => (Value.dict e).ReflaggedIn P (.dict e')) d.resolveRefs.dict d'.resolveRefs.dict := by
  have hrun (root d : Dict Value) : resolveRef root = resolveRef d →
      d.resolveRefs.issues = ((Execution.plain Graph).run
          (d.visitRoot { Hooks.keep with onValue := resolveRef root }) ⟨[]⟩).1.issues ++
        ((Execution.plain Graph).run
          (d.visitRoot { Hooks.keep with onValue := resolveRef root }) ⟨[]⟩).2.cycles.map .referenceCycle ∧
      d.resolveRefs.dict = ((Execution.plain Graph).run
        (d.visitRoot { Hooks.keep with onValue := resolveRef root }) ⟨[]⟩).1.dict := by
    intro heq
    rw [heq]
    exact ⟨rfl, rfl⟩
  obtain ⟨hleft, hdict⟩ := hrun d d rfl
  obtain ⟨hright, hdict'⟩ := hrun d d' (resolveRef_reflagged h.reflagged)
  rw [hleft] at hissues
  obtain ⟨hsilent, hcycles⟩ := List.append_eq_nil_iff.mp hissues
  obtain ⟨hsilent', hgraph, v, w, hv, hw, hvw⟩ :=
    (carry_resolveRef hP d).visitRoot h.reflagged h.left h.right (rfl : (⟨[]⟩ : Graph) = ⟨[]⟩) hsilent
  rw [hright, hdict, hdict', hsilent', ← hgraph, hcycles, hv, hw]
  exact ⟨rfl, hvw.opened?⟩

end

variable {σ : Type} {fs : Files} {d e : Dict Value}

/-! ## Entries with the same flags, and without flags -/

section
variable {R : Value → Value → Prop} {es es' : List (String × Value)}

namespace Dict

/-- Dictionaries with the same names are told by what stands under these. -/
theorem related_of_get? (hd : d.Distinct) (hnames : d.names = e.names)
    (h : ∀ name, Option.Rel R (d.get? name) (e.get? name)) : d.Related R e := by
  obtain ⟨entries⟩ := d
  obtain ⟨entries'⟩ := e
  induction entries generalizing entries' with
  | nil =>
    obtain rfl := List.map_eq_nil_iff.mp hnames.symm
    exact .nil
  | cons entry rest ih =>
    obtain ⟨name, v⟩ := entry
    cases entries' with
    | nil => cases hnames
    | cons entry' rest' =>
      obtain ⟨name', w⟩ := entry'
      obtain ⟨rfl, hrest⟩ := List.cons_eq_cons.mp hnames
      obtain ⟨hnew, hd⟩ := List.nodup_cons.mp hd
      have hfirst := h name
      rw [get?, get?, List.lookup_cons_self, List.lookup_cons_self] at hfirst
      refine .cons ⟨rfl, ?_⟩ (ih hd rest' hrest fun other => ?_)
      · cases hfirst with
        | some hvw => exact hvw
      · by_cases hother : other = name
        · subst hother
          have hnone : (⟨rest⟩ : Dict Value).get? other = none := get?_eq_none_iff.mpr hnew
          have hnone' : (⟨rest'⟩ : Dict Value).get? other = none :=
            get?_eq_none_iff.mpr fun hmem => hnew (hrest.symm ▸ hmem)
          rw [hnone, hnone']
          exact .none
        · have hboth := h other
          rw [get?, get?, List.lookup_cons, List.lookup_cons, beq_eq_false_iff_ne.mpr hother] at hboth
          exact hboth

theorem related_of_sameFlag (h : UpToFlags R d.entries e.entries) (hd : d.Distinct)
    (hsame : d.names = e.names ∧ d.get? Key.compress = e.get? Key.compress)
    (hatom : ∀ a, R (.atom a) (.atom a)) : d.Related R e := by
  refine related_of_get? hd hsame.1 fun name => ?_
  by_cases hname : name = Key.compress
  · subst hname
    rw [← hsame.2]
    cases hget : d.get? Key.compress with
    | none => exact .none
    | some v =>
      obtain ⟨a, rfl, _⟩ := h.plain_of_mem (mem_of_get? hget)
      exact .some (hatom a)
  · exact get?_upToFlags h hname

theorem related_of_noFlag (h : UpToFlags R d.entries e.entries) (hd : d.get? Key.compress = none)
    (he : e.get? Key.compress = none) : d.Related R e := by
  have hrelated := h.related
  rwa [erase_of_not_mem (get?_eq_none_iff.mp hd), erase_of_not_mem (get?_eq_none_iff.mp he)] at hrelated

/-- The flag is reserved, so it is no field. -/
theorem related_fields (h : UpToFlags R d.entries e.entries) :
    (DictResource.ofDict d).fields.Related R (DictResource.ofDict e).fields := by
  have hnone (d : Dict Value) : (DictResource.ofDict d).fields.get? Key.compress = none := by
    refine get?_eq_none_iff.mpr fun hmem => ?_
    obtain ⟨entry, hentry, hname⟩ := List.mem_map.mp hmem
    have hopen := (List.mem_filter.mp hentry).2
    rw [hname] at hopen
    exact absurd hopen (by decide)
  exact related_of_noFlag (h.filter fun name => !Key.isReserved name) (hnone d) (hnone e)

end Dict
end

/-! ## Forms of what is the same but for flags -/

/-- The dictionary, or its compressed form. -/
def Dict.packed (compressed : Bool) (d : Dict Value) : Value :=
  if compressed then .saved (.ofBytes .dict d.encode true) else .dict d

namespace Dict

theorem matches_packed (hd : d.Distinct) (h : d.Related Value.Matches e) (compressed compressed' : Bool) :
    (d.packed compressed).Matches (e.packed compressed') := by
  have hmatches := Value.Matches.dict hd h
  cases compressed <;> cases compressed'
  · exact hmatches
  · exact hmatches.saved_right
  · exact hmatches.saved_left
  · exact hmatches.saved_right.saved_left

section
variable (h : UpToFlags Value.Matches d.entries e.entries)
include h

theorem of_upToFlags (hd : d.Distinct) : d.Of .open := by
  have hopen := h.left_mem (P := Value.Of .open) (fun _ _ h => h.left) fun _ => Value.of_atom.mpr trivial
  exact of_intro hd fun entry hentry => ⟨trivial, hopen entry hentry⟩

theorem findAs?_upToFlags {key : String} (hflag : key ≠ Key.compress) (hkey : key.toList.head? ≠ some '/') :
    d.findAs? key .string = e.findAs? key .string ∧ d.findAs? key .bool = e.findAs? key .bool :=
  findAs?_of_rel (fun _ _ hvw => hvw.shows) (get?_upToFlags h hflag) hkey

theorem string?_upToFlags {key : String} (hflag : key ≠ Key.compress) :
    (d.get? key).bind Value.string? = (e.get? key).bind Value.string? :=
  string?_of_rel (fun _ _ hvw => hvw.shows.1) (get?_upToFlags h hflag)

theorem fromSource_upToFlags : FileResource.fromSource d = FileResource.fromSource e := by
  rw [FileResource.fromSource, FileResource.fromSource, (findAs?_upToFlags h (by decide) (by decide)).1,
    (findAs?_upToFlags h (by decide) (by decide)).2]

/-- The dictionaries that a pack keeps of both resources have the same names, and under these what shows the same. -/
theorem Describes.related_kept {t : String} {r r' : Resource σ} (hd : d.Distinct)
    (hr : d.Describes fs t r) (hr' : e.Describes fs t r') :
    (r.kept d t).Distinct ∧ (r.kept d t).Related Value.Matches (r'.kept e t) := by
  refine ⟨(hr.kept_open (of_upToFlags h hd)).distinct, ?_⟩
  have hstart : (Dict.ofList [(Key.type, .string t)]).Related Value.Matches (.ofList [(Key.type, .string t)]) :=
    (Related.empty _).set (.refl (Value.of_atom.mpr trivial)) _
  have hsave : (r.save (Dict.ofList [(Key.type, .string t)])).2.Related Value.Matches
      (r'.save (Dict.ofList [(Key.type, .string t)])).2 := by
    cases hr with
    | @file f hf =>
      obtain ⟨f', hf', rfl⟩ := hr'.exists_eq_file
      obtain rfl : f = f' := by
        rw [fromSource_upToFlags h, hf'] at hf
        exact (Except.ok.inj hf).symm
      refine ((hstart.set (.refl ?_) _).set (.refl (Value.of_atom.mpr trivial)) _).set
        (.refl (Value.of_atom.mpr trivial)) _
      split
      · exact Value.of_saved.mpr trivial
      · exact Value.of_atom.mpr trivial
    | dict =>
      obtain rfl := hr'.eq_dict
      exact hstart.setAll (related_fields h)
  have hlistener := get?_upToFlags h (by decide : Key.loadListener ≠ Key.compress)
  rw [Resource.kept, Resource.kept]
  generalize d.get? Key.loadListener = v at hlistener ⊢
  generalize e.get? Key.loadListener = w at hlistener ⊢
  cases hlistener with
  | none => exact hsave
  | some hvw => exact hsave.set hvw _

/-- What a pack keeps of both shows the same, compressed or not. -/
theorem Describes.matches_form {t : String} {r r' : Resource σ} (hd : d.Distinct)
    (hr : d.Describes fs t r) (hr' : e.Describes fs t r') : (r.form d t).Matches (r'.form e t) := by
  obtain ⟨hdistinct, hrelated⟩ := hr.related_kept h hd hr'
  exact matches_packed hdistinct hrelated d.isCompressed e.isCompressed

end
end Dict

/-! ## The hook -/

/-- If the dictionary has a flag, its type is a plain text, if it has one. -/
def Dict.TypedIfFlagged (d : Dict Value) : Prop :=
  d.contains Key.compress = true → ∀ v, d.get? Key.type = some v → ∃ t, v = .string t ∧ Unmarked t

theorem Dict.stable_typedIfFlagged : Stable fun d => d.Distinct ∧ d.TypedIfFlagged := by
  intro d done hd hkept
  refine ⟨?_, fun hflag v hv => ?_⟩
  · rw [Distinct, hkept.names]
    exact hd.1
  · rw [contains_of_names hkept.names] at hflag
    have hmem : Key.type ∈ d.names := hkept.names ▸ mem_names_of_get? hv
    obtain ⟨u, hu⟩ := exists_get? hmem
    obtain ⟨t, rfl, ht⟩ := hd.2 hflag u hu
    rw [hkept.get? (a := .string t) ht hu] at hv
    exact ⟨t, (Option.some.inj hv).symm, ht⟩

/-- Top-level entries that are the same but for flags, after everything in them was loaded. -/
inductive Value.LoadedAlike : Value → Value → Prop
  | atom (a : Atom) : LoadedAlike (.atom a) (.atom a)
  | list {vs ws : List Value} : List.Forall₂ Matches vs ws → LoadedAlike (.list vs) (.list ws)
  | untyped {d e : Dict Value} : (d.get? Key.type).bind string? = none → (e.get? Key.type).bind string? = none →
      d.Distinct → d.Related Matches e → LoadedAlike (.dict d) (.dict e)
  | typed {d e : Dict Value} {t : String} : d.get? Key.type = some (.string t) → e.get? Key.type = some (.string t) →
      d.Distinct → e.Distinct → UpToFlags Matches d.entries e.entries → LoadedAlike (.dict d) (.dict e)

/-- What both loadings made of values that stand like this. -/
def Standing.Loaded : Standing → Value → Value → Prop
  | root, v, w => Option.Rel (fun d e => d.Distinct ∧ e.Distinct ∧ UpToFlags Value.LoadedAlike d.entries e.entries)
      v.opened? w.opened?
  | entry, v, w => v.LoadedAlike w
  | inside, v, w => v.Matches w

/-- With the same context and in the same world. -/
structure Loading.Abreast (l l' : Loading σ) : Prop where
  context : l'.context = l.context
  world : l'.world = l.world

/-- When all in them is loaded, both dictionaries have a type or neither has one, and then the flag is the same too. -/
theorem Dict.loaded_cases (d' e' : Dict Value) (hde : (Value.dict d).Reflagged (.dict e))
    (hd : d.Distinct ∧ d.TypedIfFlagged) (he : e.Distinct ∧ e.TypedIfFlagged) (h : UpToFlags Value.Matches d'.entries e'.entries)
    (hleft : KeptEntries (fun _ => True) d.entries d'.entries)
    (hright : KeptEntries (fun _ => True) e.entries e'.entries) :
    d'.Distinct ∧ e'.Distinct ∧
      ((d'.get? Key.type).bind Value.string? = none → d'.Related Value.Matches e') := by
  have hd' : d'.Distinct := by
    rw [Distinct, hleft.names]
    exact hd.1
  have he' : e'.Distinct := by
    rw [Distinct, hright.names]
    exact he.1
  refine ⟨hd', he', fun huntyped => ?_⟩
  have hplain {d d' : Dict Value}
      (hplain : ∀ v, (Key.compress, v) ∈ d.entries → ∃ a : Atom, v = .atom a ∧ a.Unmarked Key.marks)
      (hkept : KeptEntries (fun _ => True) d.entries d'.entries) : d.SameFlag d' := hkept.sameFlag fun v hv => by
    obtain ⟨a, ha, _⟩ := hplain v hv
    exact ⟨a, ha, trivial⟩
  have hflag := hplain (fun v hv => hde.entries.plain_of_mem hv) hleft
  have hflag' := hplain (fun v hv => hde.flip.entries.plain_of_mem hv) hright
  rcases hde.balanced.of_sameFlag hflag hflag' with hsame | htype
  · exact related_of_sameFlag h hd' hsame fun a => .refl (Value.of_atom.mpr trivial)
  · -- a dictionary with a flag would still have its type, which is a text
    have hnone {d d' : Dict Value} (hd : d.TypedIfFlagged) (hkept : KeptEntries (fun _ => True) d.entries d'.entries)
        (hsame : d.SameFlag d') (htype : d'.contains Key.type = true)
        (huntyped : (d'.get? Key.type).bind Value.string? = none) : d'.get? Key.compress = none := by
      rw [hsame.2, ← Option.not_isSome_iff_eq_none]
      intro hflag
      obtain ⟨v, hv⟩ := exists_get? (contains_iff.mp ((contains_of_names hsame.1 _).symm.trans htype))
      obtain ⟨t, rfl, _⟩ := hd hflag v hv
      rw [hkept.get? trivial hv] at huntyped
      cases huntyped
    have hname : Key.type ≠ Key.compress := by decide
    refine related_of_noFlag h (hnone hd.2 hleft hflag htype huntyped) (hnone he.2 hright hflag' ?_ ?_)
    · rw [← contains_upToFlags h hname, htype]
    · rw [← string?_upToFlags h hname, huntyped]

namespace Loading
variable {α : Type}

theorem abreast_addSymbol (symbol name : String) (l l' : Loading σ) (h : l.Abreast l') :
    True ∧ ((Evaluation.files fs).after (addSymbol symbol name) l).2.Abreast
      ((Evaluation.files fs).after (addSymbol symbol name) l').2 := by
  refine ⟨trivial, ?_⟩
  unfold addSymbol
  split
  · rw [Evaluation.after_modify, Evaluation.after_modify]
    exact ⟨congrArg (·.addSymbol symbol name) h.context, h.world⟩
  · rw [Evaluation.after_pure, Evaluation.after_pure]
    exact h

theorem abreast_noting {x y : Context → StateT σ Look (α × List Note)} {a b : α} {notes : List Note}
    (hx : ∀ c w, (Evaluation.files fs).after (x c) w = ((a, notes), w))
    (hy : ∀ c w, (Evaluation.files fs).after (y c) w = ((b, notes), w)) (l l' : Loading σ) (h : l.Abreast l') :
    (((Evaluation.files fs).after (noting x) l).1 = a ∧ ((Evaluation.files fs).after (noting y) l').1 = b) ∧
      ((Evaluation.files fs).after (noting x) l).2.Abreast ((Evaluation.files fs).after (noting y) l').2 := by
  rw [after_noting, after_noting, hx, hy, h.context]
  exact ⟨⟨rfl, rfl⟩, rfl, h.world⟩

/-- Make a resource of a typed dictionary, and go on with it. -/
def making (registry : Registry σ) (place : String) (d : Dict Value) (next : String → Resource σ → LoadingM σ Reply) :
    LoadingM σ Reply :=
  match (d.get? Key.type).bind Value.string? with
  | none => return .keep (.dict d)
  | some t =>
    match registry.get? t with
    | none => return .drop (.noFactory t place)
    | some factory => do
      match ← noting (factory.fromSource d) with
      | none => return .drop (.notCreated t place)
      | some r => next t r

/-- Inside an entry the resource finishes, and is kept in its form. -/
def keeping (place : String) (d : Dict Value) (t : String) (r : Resource σ) : LoadingM σ Reply := do
  if !(← noting r.finish) then return .drop (.notFinished place)
  else
    match keptForm d t r with
    | some v => return .keep v
    | none => return .drop (.notSaved place)

theorem load_inside {registry : Registry σ} {trail : List Step} (htrail : Standing.of trail = .inside)
    (d : Dict Value) : load registry ⟨trail, []⟩ d =
      making registry (Selector.renderTrail trail) d (keeping (Selector.renderTrail trail) d) := by
  obtain _ | ⟨a, _ | ⟨b, rest⟩⟩ := trail
  · cases htrail
  · cases a with
    | name name => cases htrail
    | index n => rfl
  · cases a <;> rfl

theorem load_entry {registry : Registry σ} (name : String) (d : Dict Value) :
    load registry ⟨[.name name], []⟩ d = (do
      addSymbol (symbolFor name d) name
      making registry (Selector.renderTrail [.name name]) d fun _ r => do
        modify fun l => { l with roots := l.roots ++ [(name, r)] }
        return .keep (.dict d)) := rfl

/-- From the same context and in the same world both report nothing and answer in the relation. -/
abbrev Carries (fs : Files) (x y : LoadingM σ Reply) (Q : Value → Value → Prop) : Prop :=
  Reply.Carries ((Evaluation.files fs).execution (Loading σ)) Abreast x y Q

section
variable {Q : Value → Value → Prop} (h : UpToFlags Value.Matches d.entries e.entries)
include h

/-- Resources are made of both dictionaries or of neither. -/
theorem carries_making {place : String} {next next' : String → Resource σ → LoadingM σ Reply}
    (huntyped : (d.get? Key.type).bind Value.string? = none → Q (.dict d) (.dict e))
    (hnext : ∀ t r r', (d.get? Key.type).bind Value.string? = some t → d.Describes fs t r → e.Describes fs t r' →
      Carries fs (next t r) (next' t r') Q) :
    Carries fs (making .builtin place d next) (making .builtin place e next') Q := by
  have htypes : (d.get? Key.type).bind Value.string? = (e.get? Key.type).bind Value.string? :=
    Dict.string?_upToFlags h (by decide)
  unfold making
  rw [← htypes]
  cases htype : (d.get? Key.type).bind Value.string? with
  | none => exact Reply.carries_keep (huntyped htype)
  | some t =>
    dsimp only
    cases hfactory : Registry.builtin.get? t with
    | none => exact Reply.carries_drop (i := .noFactory t place) trivial
    | some factory =>
      obtain ⟨made, made', issues, hmade, hx, hy⟩ := Registry.rel_fromSource fs (Dict.fromSource_upToFlags h) hfactory
      refine Reply.Carries.after (T := fun a b => a = made ∧ b = made') (fun a b hab => ?_) (abreast_noting hx hy)
      obtain ⟨rfl, rfl⟩ := hab
      cases hmade with
      | none => exact Reply.carries_drop (i := .notCreated t place) trivial
      | some hr => exact hnext t _ _ htype hr.1 hr.2

/-- Inside an entry both are kept in forms that show the same. -/
theorem carries_load_inside {trail : List Step} (htrail : Standing.of trail = .inside) (hd : d.Distinct)
    (huntyped : (d.get? Key.type).bind Value.string? = none → d.Related Value.Matches e) :
    Carries (σ := σ) fs (load .builtin ⟨trail, []⟩ d) (load .builtin ⟨trail, []⟩ e) Value.Matches := by
  rw [load_inside htrail, load_inside htrail]
  refine carries_making h (fun htype => .dict hd (huntyped htype)) fun t r r' _ hr hr' => ?_
  have hfinish {r : Resource σ} (hr : r.FinishesAtOnce) (c : Context) (w : σ) :
      (Evaluation.files fs).after (r.finish c) w = ((true, []), w) := by
    rw [hr, Evaluation.after_pure]
  refine Reply.Carries.after (T := fun a b => a = true ∧ b = true) (fun a b hab => ?_)
    (abreast_noting (hfinish hr.finishesAtOnce) (hfinish hr'.finishesAtOnce))
  obtain ⟨rfl, rfl⟩ := hab
  rw [hr.keptForm_eq, hr'.keptForm_eq]
  exact Reply.carries_keep (hr.matches_form h hd hr')

/-- An entry waits as it is. -/
theorem carries_load_entry (name : String) (hd : d.Distinct) (he : e.Distinct)
    (huntyped : (d.get? Key.type).bind Value.string? = none → d.Related Value.Matches e) :
    Carries (σ := σ) fs (load .builtin ⟨[.name name], []⟩ d) (load .builtin ⟨[.name name], []⟩ e)
      Value.LoadedAlike := by
  have hsymbol : symbolFor name d = symbolFor name e := by
    rw [symbolFor, symbolFor, Dict.string?_upToFlags h (by decide)]
  rw [load_entry, load_entry, hsymbol]
  refine Reply.Carries.after (T := fun _ _ => True) (fun _ _ _ => ?_) (abreast_addSymbol _ name)
  have htype : (d.get? Key.type).bind Value.string? = (e.get? Key.type).bind Value.string? :=
    Dict.string?_upToFlags h (by decide)
  refine carries_making h (fun hnone => .untyped hnone (htype ▸ hnone) hd (huntyped hnone)) fun t r r' ht _ _ => ?_
  refine Reply.Carries.after (T := fun _ _ => True) (fun _ _ _ => Reply.carries_keep ?_) fun l l' hl => ?_
  · exact .typed (get?_of_type ht) (get?_of_type (htype ▸ ht)) hd he h
  · exact ⟨trivial, hl.context, hl.world⟩

end

/-- What becomes of dictionaries when objects are loaded. -/
theorem carry_load (fs : Files) : Hooks.Carry ((Evaluation.files fs).execution (Loading σ)) Abreast
    (fun d => d.Distinct ∧ d.TypedIfFlagged) (fun _ => True) Standing.Loaded
    { Hooks.keep with onDict := load .builtin } where
  kind _ _ := trivial
  keep _ _ _ _ := rfl
  atom trail a := Reply.carries_keep <| by
    cases Standing.of trail with
    | root => exact .none
    | entry => exact .atom a
    | inside => exact .refl (Value.of_atom.mpr trivial)
  list trail done done' hdone := Reply.carries_keep <| by
    cases Standing.of trail with
    | root => exact .none
    | entry => exact .list hdone
    | inside => exact .list hdone
  dict trail d e done done' hde hd he hdone hleft hright := by
    cases htrail : Standing.of trail with
    | root =>
      obtain rfl := Standing.eq_nil htrail
      have hdistinct {d : Dict Value} {done : List (String × Value)} (hd : d.Distinct)
          (hkept : KeptEntries (fun _ => True) d.entries done) : (⟨done⟩ : Dict Value).Distinct := by
        rw [Dict.Distinct, hkept.names]
        exact hd
      exact Reply.carries_keep (.some ⟨hdistinct hd.1 hleft, hdistinct he.1 hright, hdone⟩)
    | entry =>
      rw [htrail] at hdone
      obtain ⟨hdistinct, hdistinct', huntyped⟩ := Dict.loaded_cases ⟨done⟩ ⟨done'⟩ hde hd he hdone hleft hright
      obtain ⟨name, rfl⟩ := Standing.exists_eq_name htrail
      exact carries_load_entry hdone name hdistinct hdistinct' huntyped
    | inside =>
      rw [htrail] at hdone
      obtain ⟨hdistinct, _, huntyped⟩ := Dict.loaded_cases ⟨done⟩ ⟨done'⟩ hde hd he hdone hleft hright
      exact carries_load_inside hdone htrail hdistinct huntyped

end Loading

/-- If the objects of a description are loaded without issues, so are those of one that is the same but for flags, in
the same context and world. -/
theorem Dict.loadObjects_reflagged
    (h : (Value.dict d).ReflaggedIn (fun d => d.Distinct ∧ d.TypedIfFlagged) (.dict e)) {l l' l₁ : Loading σ}
    (hl : l.Abreast l') {visited : Visited} (hrun : ((d.loadObjects .builtin).run l).eval fs = (visited, l₁))
    (hissues : visited.issues = []) :
    ∃ visited' l₁', ((e.loadObjects .builtin).run l').eval fs = (visited', l₁') ∧ visited'.issues = [] ∧
      l₁.Abreast l₁' ∧ Option.Rel (fun d e => d.Distinct ∧ e.Distinct ∧ UpToFlags Value.LoadedAlike d.entries e.entries)
        visited.dict visited'.dict := by
  obtain ⟨rfl, rfl⟩ : (((d.loadObjects .builtin).run l).eval fs).1 = visited ∧
      (((d.loadObjects .builtin).run l).eval fs).2 = l₁ := by
    rw [hrun]
    exact ⟨rfl, rfl⟩
  obtain ⟨hissues', hafter, v, w, hv, hw, hvw⟩ :=
    (Loading.carry_load fs).visitRoot h.reflagged h.left h.right hl hissues
  refine ⟨(((e.loadObjects .builtin).run l').eval fs).1, (((e.loadObjects .builtin).run l').eval fs).2, rfl, hissues',
    hafter, ?_⟩
  have hdict : (((d.loadObjects .builtin).run l).eval fs).1.dict = v.opened? := hv
  have hdict' : (((e.loadObjects .builtin).run l').eval fs).1.dict = w.opened? := hw
  rw [hdict, hdict']
  exact hvw

end AssetPack
