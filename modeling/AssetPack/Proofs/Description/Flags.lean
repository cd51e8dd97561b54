import AssetPack.Proofs.Description.Resolved
import AssetPack.Proofs.Dict.Reordered
import AssetPack.Proofs.Value.Opened

/-!
# Flags of compression

Two descriptions may be the same but for the flags that ask for a compressed form. A flag is plain if it stands for
nothing else. It may be another one, and in a dictionary with a type of its own it may be missing. What a name or a
selector leads to is then the same but for flags again, unless it leads to a flag itself.
-/
namespace AssetPack

/-! ## Entries up to flags -/

/-- But for plain flags, wherever they stand, the same names in the same order, and related values. -/
inductive UpToFlags (R : Value → Value → Prop) : List (String × Value) → List (String × Value) → Prop
  | nil : UpToFlags R [] []
  | left {a : Atom} {es es' : List (String × Value)} :
      a.Unmarked Key.marks → UpToFlags R es es' → UpToFlags R ((Key.compress, .atom a) :: es) es'
  | right {a : Atom} {es es' : List (String × Value)} :
      a.Unmarked Key.marks → UpToFlags R es es' → UpToFlags R es ((Key.compress, .atom a) :: es')
  | both {name : String} {v w : Value} {es es' : List (String × Value)} :
      name ≠ Key.compress → R v w → UpToFlags R es es' → UpToFlags R ((name, v) :: es) ((name, w) :: es')

namespace UpToFlags
variable {R S : Value → Value → Prop} {es es' fs fs' : List (String × Value)}

theorem imp_mem (h : UpToFlags R es es') (hrs : ∀ entry ∈ es, ∀ w, R entry.2 w → S entry.2 w) :
    UpToFlags S es es' := by
  induction h with
  | nil => exact .nil
  | left ha _ ih => exact .left ha (ih (List.forall_mem_cons.mp hrs).2)
  | right ha _ ih => exact .right ha (ih hrs)
  | both hname hvw _ ih =>
    obtain ⟨hfirst, hrest⟩ := List.forall_mem_cons.mp hrs
    exact .both hname (hfirst _ hvw) (ih hrest)

theorem imp (h : UpToFlags R es es') (hrs : ∀ v w, R v w → S v w) : UpToFlags S es es' :=
  h.imp_mem fun _ _ => hrs _

theorem flip (h : UpToFlags R es es') : UpToFlags (fun w v => R v w) es' es := by
  induction h with
  | nil => exact .nil
  | left ha _ ih => exact .right ha ih
  | right ha _ ih => exact .left ha ih
  | both hname hvw _ ih => exact .both hname hvw ih

/-- With what holds of the entries on either side. -/
theorem and_mem {P Q : Value → Prop} (h : UpToFlags R es es') (hp : ∀ entry ∈ es, P entry.2)
    (hq : ∀ entry ∈ es', Q entry.2) : UpToFlags (fun v w => R v w ∧ P v ∧ Q w) es es' := by
  have hleft : UpToFlags (fun v w => R v w ∧ P v) es es' := h.imp_mem fun entry hentry _ hvw => ⟨hvw, hp entry hentry⟩
  exact (hleft.flip.imp_mem (S := fun w v => R v w ∧ P v ∧ Q w) fun entry hentry _ hvw =>
    ⟨hvw.1, hvw.2, hq entry hentry⟩).flip

/-- Entries whose flags are plain are the same as themselves. -/
theorem refl (hflags : ∀ v, (Key.compress, v) ∈ es → ∃ a : Atom, v = .atom a ∧ a.Unmarked Key.marks)
    (hrefl : ∀ entry ∈ es, R entry.2 entry.2) : UpToFlags R es es := by
  induction es with
  | nil => exact .nil
  | cons entry rest ih =>
    obtain ⟨name, v⟩ := entry
    obtain ⟨hfirst, hrest⟩ := List.forall_mem_cons.mp hrefl
    have ih := ih (fun v hv => hflags v (List.mem_cons_of_mem _ hv)) hrest
    by_cases hname : name = Key.compress
    · subst hname
      obtain ⟨a, rfl, ha⟩ := hflags v List.mem_cons_self
      exact .left ha (.right ha ih)
    · exact .both hname hfirst ih

theorem plain_of_mem (h : UpToFlags R es es') {v : Value} (hv : (Key.compress, v) ∈ es) :
    ∃ a : Atom, v = .atom a ∧ a.Unmarked Key.marks := by
  induction h with
  | nil => cases hv
  | left ha _ ih =>
    rcases List.mem_cons.mp hv with heq | hv
    · cases heq
      exact ⟨_, rfl, ha⟩
    · exact ih hv
  | right _ _ ih => exact ih hv
  | both hname _ _ ih =>
    rcases List.mem_cons.mp hv with heq | hv
    · cases heq
      exact absurd rfl hname
    · exact ih hv

/-- What holds of all atoms and of what is related to something holds of the entries on the left. -/
theorem left_mem {P : Value → Prop} (h : UpToFlags R es es') (hrel : ∀ v w, R v w → P v)
    (hatom : ∀ a, P (.atom a)) : ∀ entry ∈ es, P entry.2 := by
  induction h with
  | nil => exact nofun
  | left _ _ ih => exact List.forall_mem_cons.mpr ⟨hatom _, ih⟩
  | right _ _ ih => exact ih
  | both _ hvw _ ih => exact List.forall_mem_cons.mpr ⟨hrel _ _ hvw, ih⟩

theorem filter (h : UpToFlags R es es') (p : String → Bool) :
    UpToFlags R (es.filter fun entry => p entry.1) (es'.filter fun entry => p entry.1) := by
  induction h with
  | nil => exact .nil
  | left ha _ ih =>
    rw [List.filter_cons]
    split
    · exact .left ha ih
    · exact ih
  | right ha _ ih =>
    rw [List.filter_cons]
    split
    · exact .right ha ih
    · exact ih
  | both hname hvw _ ih =>
    rw [List.filter_cons, List.filter_cons]
    split
    · exact .both hname hvw ih
    · exact ih

/-- Without the flags the entries are related one to one. -/
theorem related (h : UpToFlags R es es') :
    Dict.Related R ((⟨es⟩ : Dict Value).erase Key.compress) ((⟨es'⟩ : Dict Value).erase Key.compress) := by
  rw [Dict.Related, Dict.erase, Dict.erase]
  induction h with
  | nil => exact .nil
  | left _ _ ih =>
    rw [List.filter_cons, if_neg (by simp)]
    exact ih
  | @right a _ es' _ _ ih =>
    have hdrop : (((Key.compress, Value.atom a) :: es').filter fun entry => entry.1 ≠ Key.compress) =
        es'.filter fun entry => entry.1 ≠ Key.compress := by
      rw [List.filter_cons, if_neg (by simp)]
    rw [hdrop]
    exact ih
  | both hname hvw _ ih =>
    rw [List.filter_cons, List.filter_cons, if_pos (decide_eq_true hname), if_pos (decide_eq_true hname)]
    exact .cons ⟨rfl, hvw⟩ ih

theorem put_left (h : UpToFlags R es es') {a : Atom} (ha : a.Unmarked Key.marks) :
    UpToFlags R (Dict.put Key.compress (.atom a) es) es' := by
  induction h with
  | nil => exact .left ha .nil
  | left _ hrest _ =>
    rw [Dict.put, if_pos rfl]
    exact .left ha hrest
  | right hb _ ih => exact .right hb ih
  | both hname hvw _ ih =>
    rw [Dict.put, if_neg hname]
    exact .both hname hvw ih

theorem put_right (h : UpToFlags R es es') {a : Atom} (ha : a.Unmarked Key.marks) :
    UpToFlags R es (Dict.put Key.compress (.atom a) es') := (h.flip.put_left ha).flip

theorem put (h : UpToFlags R es es') {name : String} (hname : name ≠ Key.compress) {v w : Value} (hvw : R v w) :
    UpToFlags R (Dict.put name v es) (Dict.put name w es') := by
  induction h with
  | nil => exact .both hname hvw .nil
  | left ha _ ih =>
    rw [Dict.put, if_neg hname.symm]
    exact .left ha ih
  | right ha _ ih =>
    rw [Dict.put.eq_2 name w, if_neg hname.symm]
    exact .right ha ih
  | @both other _ _ _ _ hother hrel hrest ih =>
    rw [Dict.put, Dict.put]
    dsimp only
    split
    · exact .both hname hvw hrest
    · exact .both hother hrel ih

theorem setAll (h : UpToFlags R fs fs') {d e : Dict Value} (hde : UpToFlags R d.entries e.entries) :
    UpToFlags R (d.setAll fs).entries (e.setAll fs').entries := by
  induction h generalizing d e with
  | nil => exact hde
  | left ha _ ih => exact ih (d := d.set Key.compress _) (hde.put_left ha)
  | right ha _ ih => exact ih (e := e.set Key.compress _) (hde.put_right ha)
  | both hname hvw _ ih => exact ih (d := d.set _ _) (e := e.set _ _) (hde.put hname hvw)

end UpToFlags

namespace Dict
variable {R : Value → Value → Prop} {d e d' e' : Dict Value}

theorem get?_upToFlags (h : UpToFlags R d.entries e.entries) {name : String} (hname : name ≠ Key.compress) :
    Option.Rel R (d.get? name) (e.get? name) := by
  have hget := h.related.get? name
  rwa [get?_erase, get?_erase, if_neg hname, if_neg hname] at hget

theorem contains_upToFlags (h : UpToFlags R d.entries e.entries) {name : String} (hname : name ≠ Key.compress) :
    d.contains name = e.contains name := by
  have hcontains := h.related.contains name
  rwa [contains, contains, get?_erase, get?_erase, if_neg hname, if_neg hname] at hcontains

theorem contains_merge (d e : Dict Value) (name : String) :
    (d.merge e).contains name = (d.contains name || e.contains name) := by
  rw [Bool.eq_iff_iff, Bool.or_eq_true, contains_iff, contains_iff, contains_iff]
  constructor
  · exact mem_names_merge
  · rintro (hd | he)
    · by_cases he : name ∈ e.names
      · exact names_subset_merge d e he
      · obtain ⟨entry, hentry, rfl⟩ := List.mem_map.mp hd
        exact mem_names (mem_merge_of_not_mem hentry he)
    · exact names_subset_merge d e he

theorem contains_erase_of_ne (d : Dict Value) {key name : String} (h : name ≠ key) :
    (d.erase key).contains name = d.contains name := by
  rw [contains, contains, get?_erase, if_neg h]

/-- The flag is the same and in the same place, or the dictionary has a type of its own. -/
def Balanced (d e : Dict Value) : Prop :=
  (d.names = e.names ∧ d.get? Key.compress = e.get? Key.compress) ∨ d.contains Key.type = true

/-- Names and flag are as they were. -/
def SameFlag (d d' : Dict Value) : Prop := d'.names = d.names ∧ d'.get? Key.compress = d.get? Key.compress

theorem SameFlag.cons {es done : List (String × Value)} (h : (⟨es⟩ : Dict Value).SameFlag ⟨done⟩) {name : String}
    {v w : Value} (hflag : name = Key.compress → w = v) :
    (⟨(name, v) :: es⟩ : Dict Value).SameFlag ⟨(name, w) :: done⟩ := by
  refine ⟨congrArg (name :: ·) h.1, ?_⟩
  have hrest := h.2
  rw [get?, get?] at hrest
  rw [get?, get?, List.lookup_cons, List.lookup_cons]
  by_cases hname : Key.compress = name
  · rw [hflag hname.symm, hname, beq_self_eq_true]
  · rw [beq_eq_false_iff_ne.mpr hname]
    exact hrest

theorem contains_of_names (h : d.names = e.names) (name : String) : d.contains name = e.contains name := by
  rw [Bool.eq_iff_iff, contains_iff, contains_iff, h]

theorem Balanced.of_sameFlag (h : d.Balanced e) (hd : d.SameFlag d') (he : e.SameFlag e') : d'.Balanced e' := by
  refine h.imp (fun hsame => ⟨?_, ?_⟩) fun htype => ?_
  · rw [hd.1, he.1, hsame.1]
  · rw [hd.2, he.2, hsame.2]
  · rw [contains_of_names hd.1, htype]

theorem Balanced.merge (h : d.Balanced e) (h' : d'.Balanced e') (hd : d'.Distinct) (he : e'.Distinct) :
    (d.merge d').Balanced (e.merge e') := by
  rw [Balanced, names_merge d hd, names_merge e he, get?_merge d hd, get?_merge e he, contains_merge, Bool.or_eq_true]
  rcases h with ⟨hnames, hflag⟩ | htype
  · rcases h' with ⟨hnames', hflag'⟩ | htype
    · rw [hnames, hnames', hflag, hflag']
      exact .inl ⟨rfl, rfl⟩
    · exact .inr (.inr htype)
  · exact .inr (.inl htype)

theorem Balanced.erase (h : d.Balanced e) {key : String} (htype : key ≠ Key.type) :
    (d.erase key).Balanced (e.erase key) := by
  rw [Balanced, names_erase, names_erase, get?_erase, get?_erase, contains_erase_of_ne _ htype.symm]
  refine h.imp_left fun hsame => ?_
  rw [hsame.1, hsame.2]
  exact ⟨rfl, rfl⟩

end Dict

/-! ## Values up to flags -/

/-- The same value but for plain flags in its dictionaries. -/
inductive Value.Reflagged : Value → Value → Prop
  | atom (a : Atom) : Reflagged (.atom a) (.atom a)
  | list {vs ws : List Value} : List.Forall₂ Reflagged vs ws → Reflagged (.list vs) (.list ws)
  | dict {d e : Dict Value} : UpToFlags Reflagged d.entries e.entries → d.Balanced e → Reflagged (.dict d) (.dict e)

/-- The flag of each dictionary within the value is plain. -/
def Value.PlainlyFlagged (v : Value) : Prop :=
  v.Dicts fun d => ∀ u, (Key.compress, u) ∈ d.entries → ∃ a : Atom, u = .atom a ∧ a.Unmarked Key.marks

namespace Value.Reflagged
variable {v w : Value} {d e d' e' : Dict Value}

theorem entries (h : (Value.dict d).Reflagged (.dict e)) : UpToFlags Reflagged d.entries e.entries := by
  cases h with
  | dict hentries _ => exact hentries

theorem balanced (h : (Value.dict d).Reflagged (.dict e)) : d.Balanced e := by
  cases h with
  | dict _ hbalanced => exact hbalanced

theorem get? (h : (Value.dict d).Reflagged (.dict e)) {name : String} (hname : name ≠ Key.compress) :
    Option.Rel Reflagged (d.get? name) (e.get? name) := Dict.get?_upToFlags h.entries hname

theorem contains (h : (Value.dict d).Reflagged (.dict e)) {name : String} (hname : name ≠ Key.compress) :
    d.contains name = e.contains name := Dict.contains_upToFlags h.entries hname

theorem merge (h : (Value.dict d).Reflagged (.dict e)) (h' : (Value.dict d').Reflagged (.dict e')) (hd : d'.Distinct)
    (he : e'.Distinct) : (Value.dict (d.merge d')).Reflagged (.dict (e.merge e')) :=
  .dict (h'.entries.setAll h.entries) (h.balanced.merge h'.balanced hd he)

theorem erase (h : (Value.dict d).Reflagged (.dict e)) {key : String} (htype : key ≠ Key.type) :
    (Value.dict (d.erase key)).Reflagged (.dict (e.erase key)) :=
  .dict (h.entries.filter fun name => name ≠ key) (h.balanced.erase htype)

theorem empty : (Value.dict ∅).Reflagged (.dict ∅) := .dict .nil (.inl ⟨rfl, rfl⟩)

/-- Where nothing is, nothing is on the other side, not even a flag. -/
theorem entries_eq_nil (h : (Value.dict d).Reflagged (.dict e)) (hd : d.entries = []) : e.entries = [] := by
  rcases h.balanced with ⟨hnames, _⟩ | htype
  · rw [Dict.names, Dict.names, hd] at hnames
    exact List.map_eq_nil_iff.mp hnames.symm
  · rw [Dict.contains, Dict.get?, hd] at htype
    cases htype

/-- What is open and has plain flags is the same as itself. -/
theorem refl (hv : v.Of .json) (hflags : v.PlainlyFlagged) : v.Reflagged v := by
  induction v with
  | atom a => exact .atom a
  | list items ih =>
    refine .list (List.forall₂_same.mpr fun v hmem => ?_)
    exact ih v hmem (of_list.mp hv v hmem) ((throughout_list.mp hflags).2 v hmem)
  | dict d ih =>
    refine .dict (.refl hflags.here fun entry hentry => ?_) (.inl ⟨rfl, rfl⟩)
    exact ih entry hentry (Dict.Of.entry hv hentry) ((throughout_dict.mp hflags).2 entry hentry)
  | block b => exact (not_of_block hv).elim
  | saved p => exact (of_saved.mp hv).elim

theorem plainlyFlagged (h : v.Reflagged w) : v.PlainlyFlagged := by
  induction v generalizing w with
  | atom a => exact throughout_atom.mpr trivial
  | list items ih =>
    cases h with
    | list hitems =>
      refine throughout_list.mpr ⟨trivial, fun v hv => ?_⟩
      obtain ⟨w, _, hvw⟩ := exists_of_forall₂ (List.Forall₂.flip hitems) hv
      exact ih v hv hvw
  | dict d ih =>
    cases h with
    | dict hentries _ =>
      refine throughout_dict.mpr ⟨fun u hu => hentries.plain_of_mem hu, fun entry hentry => ?_⟩
      by_cases hname : entry.1 = Key.compress
      · obtain ⟨name, v⟩ := entry
        subst hname
        obtain ⟨a, rfl, _⟩ := hentries.plain_of_mem hentry
        exact throughout_atom.mpr trivial
      · have hkept : entry ∈ (d.erase Key.compress).entries := List.mem_filter.mpr ⟨hentry, decide_eq_true hname⟩
        obtain ⟨w, hvw⟩ := hentries.related.exists_of_mem hkept
        exact ih entry hentry hvw
  | block b => cases h
  | saved p => cases h

theorem flip (h : v.Reflagged w) : w.Reflagged v := by
  induction v generalizing w with
  | atom a =>
    cases h
    exact .atom a
  | list items ih =>
    cases h with
    | list hitems =>
      refine .list (List.Forall₂.flip ?_)
      exact (forall₂_and hitems ih fun _ _ => trivial).imp fun _ _ ⟨hvw, hflip, _⟩ => hflip hvw
  | @dict d ih =>
    cases h with
    | dict hentries hbalanced =>
      refine .dict (hentries.imp_mem (S := fun v w => w.Reflagged v) fun entry hentry _ => ih entry hentry).flip ?_
      refine hbalanced.imp (fun hsame => ⟨hsame.1.symm, hsame.2.symm⟩) fun htype => ?_
      exact (Dict.contains_upToFlags hentries (by decide)).symm.trans htype
  | block b => cases h
  | saved p => cases h

theorem isEmpty (h : (Value.dict d).Reflagged (.dict e)) : d.isEmpty = e.isEmpty := by
  rw [Bool.eq_iff_iff, Dict.isEmpty, Dict.isEmpty, List.isEmpty_iff, List.isEmpty_iff]
  exact ⟨h.entries_eq_nil, h.flip.entries_eq_nil⟩

/-! ### What is looked up -/

theorem dict? (h : v.Reflagged w) : Option.Rel (fun d e => (Value.dict d).Reflagged (.dict e)) v.dict? w.dict? := by
  cases h with
  | dict hentries hbalanced => exact .some (.dict hentries hbalanced)
  | _ => exact .none

theorem dictValue? (h : v.Reflagged w) : Option.Rel Reflagged v.dictValue? w.dictValue? := by
  cases h with
  | dict hentries hbalanced => exact .some (.dict hentries hbalanced)
  | _ => exact .none

/-! ### What a name or a selector leads to -/

theorem step? (h : v.Reflagged w) {step : Step} (hstep : step ≠ .name Key.compress) :
    Option.Rel Reflagged (Selector.step? v step) (Selector.step? w step) := by
  cases step with
  | name name =>
    have hname : name ≠ Key.compress := fun heq => hstep (congrArg Step.name heq)
    rw [Selector.step?, Selector.step?]
    split
    · exact h.dictValue?
    · cases h with
      | dict hentries _ => exact Dict.get?_upToFlags hentries hname
      | _ => exact .none
  | index n =>
    cases h with
    | list hitems =>
      rw [Selector.step?, Selector.step?]
      change Option.Rel Reflagged _[n]? _[n]?
      induction hitems generalizing n with
      | nil => exact .none
      | cons hvw _ ih =>
        cases n with
        | zero => exact .some hvw
        | succ n => exact ih n (by simp)
    | _ => exact .none

/-- A plain flag leads no further. -/
theorem follow?_flag (hflags : ∀ u, (Key.compress, u) ∈ d.entries → ∃ a : Atom, u = .atom a ∧ a.Unmarked Key.marks)
    (step : Step) (rest : List Step) : (d.get? Key.compress).bind (Selector.follow? · (step :: rest)) = none := by
  cases hget : d.get? Key.compress with
  | none => rfl
  | some u =>
    obtain ⟨a, rfl, _⟩ := hflags u (Dict.mem_of_get? hget)
    have hnone : Selector.step? (.atom a) step = none := by
      cases step with
      | name name =>
        rw [Selector.step?]
        split <;> rfl
      | index n => rfl
    rw [Option.bind_some, Selector.follow?, List.foldlM_cons, hnone]
    rfl

theorem follow? (h : v.Reflagged w) {steps : List Step} (hsteps : steps.getLast? ≠ some (.name Key.compress)) :
    Option.Rel Reflagged (Selector.follow? v steps) (Selector.follow? w steps) := by
  induction steps generalizing v w with
  | nil => exact .some h
  | cons step rest ih =>
    by_cases hstep : step = .name Key.compress
    · subst hstep
      cases rest with
      | nil => exact absurd rfl hsteps
      | cons next rest =>
        have hnone {v w : Value} (h : v.Reflagged w) :
            Selector.follow? v (.name Key.compress :: next :: rest) = none := by
          cases h with
          | dict hentries _ => exact follow?_flag (fun u hu => hentries.plain_of_mem hu) next rest
          | _ => rfl
        rw [hnone h, hnone h.flip]
        exact .none
    · have hrest : rest.getLast? ≠ some (.name Key.compress) := by
        cases rest with
        | nil => exact fun heq => nomatch heq
        | cons next rest => rwa [List.getLast?_cons_cons] at hsteps
      have hfirst := h.step? hstep
      rw [Selector.follow?, Selector.follow?, List.foldlM_cons, List.foldlM_cons]
      generalize Selector.step? v step = x at hfirst
      generalize Selector.step? w step = y at hfirst
      cases hfirst with
      | none => exact .none
      | some hxy => exact ih hxy hrest

end Value.Reflagged

/-- The name of the flag, or a selector that ends at a flag. -/
def Key.LeadsToFlag (name : String) : Prop :=
  name = Key.compress ∨ ∃ steps, Selector.parse? name = some steps ∧ steps.getLast? = some (.name Key.compress)

theorem Value.Reflagged.find? {d e : Dict Value} (h : (Value.dict d).Reflagged (.dict e)) {name : String}
    (hname : ¬Key.LeadsToFlag name) : Option.Rel Reflagged (d.find? name) (e.find? name) := by
  obtain ⟨hflag, hselector⟩ := not_or.mp hname
  rw [Dict.find?, Dict.find?]
  split
  · rw [Dict.selectText?, Dict.selectText?]
    cases hparse : Selector.parse? name with
    | none => exact .none
    | some steps =>
      have hlast : steps.getLast? ≠ some (.name Key.compress) := fun heq => hselector ⟨steps, hparse, heq⟩
      -- the first step is taken from the dictionary itself
      have hfollow {d : Dict Value} (first : String) (rest : List Step) :
          d.select? (.name first :: rest) = Selector.follow? (.dict d) (.name first :: rest) := rfl
      cases steps with
      | nil => exact .none
      | cons step rest =>
        cases step with
        | name first =>
          rw [Option.bind_some, Option.bind_some, hfollow, hfollow]
          exact h.follow? hlast
        | index n => exact .none
  · exact h.get? hflag

end AssetPack
