import AssetPack.Proofs.Description.Compressed
import AssetPack.Proofs.Json.Lexing
import AssetPack.Proofs.Resource.Answered
import AssetPack.Proofs.Resource.Reloaded

/-!
# What containers show

Compression is transparent: if two descriptions are the same but for flags, then containers over what they compile to
give values that show the same, and the same dependencies.
-/
namespace AssetPack
variable {σ : Type} {fs : Files}

/-! ## A type by its text -/

theorem Json.not_isNumeral_file : ¬IsNumeral "file".toList := by
  intro h
  obtain ⟨c, rest, hlist, hc⟩ := h.head
  cases hlist
  exact absurd hc (by decide)

theorem Double.text_ne_file (x : Double) : x.text ≠ "file" := by
  by_cases hfinite : x.isFinite = true
  · exact fun h => Json.not_isNumeral_file (h ▸ isNumeral_text hfinite)
  · rw [text, toText]
    split
    · decide
    · rename_i hnan
      have hinfinite : x.isInfinite = true := by
        simp only [isFinite, isNaN, isInfinite, decide_eq_true_eq, beq_iff_eq] at hfinite hnan ⊢
        exact le_antisymm (not_lt.mp hnan) (not_lt.mp hfinite)
      rw [if_pos hinfinite]
      cases x.negative <;> decide

/-- No value but the text itself shows this text. -/
theorem Value.eq_string_of_as? {v : Value} (h : v.as? .string = some "file") : v = .string "file" := by
  cases v with
  | atom a =>
    cases a with
    | string s => exact congrArg Value.string (Option.some.inj h)
    | null => exact absurd (Option.some.inj h) (by decide)
    | bool b =>
      have htext : (if b then "true" else "false") = "file" := Option.some.inj h
      cases b <;> exact absurd htext (by decide)
    | int n =>
      have htext : toString n.toInt = "file" := Option.some.inj h
      exact absurd (htext ▸ Json.isNumeral_int n.toInt) Json.not_isNumeral_file
    | double x => exact absurd (Option.some.inj h) x.text_ne_file
    | ref name =>
      have htext : "ref:" ++ name = "file" := Option.some.inj h
      have hlist := congrArg String.toList htext
      rw [String.toList_append] at hlist
      cases hlist
    | _ => cases h
  | _ => cases h

/-! ## What is needed shows -/

namespace Value
variable {u v w : Value} {d : Dict Value}

/-- What opens shows an atom only if it is one. -/
theorem Opens.revealed_eq_atom (h : v.Opens) {a : Atom} (ha : v.revealed = .atom a) : v = .atom a := by
  cases v with
  | atom b => exact ha
  | list items =>
    rw [revealed_list] at ha
    cases ha
  | dict d =>
    rw [revealed_dict] at ha
    cases ha
  | block b =>
    obtain ⟨d, hload, _⟩ := h.exists_load
    rw [revealed_of_load hload, revealed_dict] at ha
    cases ha
  | saved p =>
    by_cases hp : p.content = .dict
    · obtain ⟨d, hload, _⟩ := h.exists_loadDict hp
      rw [revealed_of_loadDict hp hload, revealed_dict] at ha
      cases ha
    · rw [revealed_blob hp] at ha
      cases ha

theorem Opens.as?_string_revealed (h : v.Opens) : v.revealed.as? .string = v.as? .string := by
  by_cases hv : ∃ a, v = .atom a
  · obtain ⟨a, rfl⟩ := hv
    rfl
  · rw [(shows_none_of_not_atom (not_exists.mp hv)).2.1,
      (shows_none_of_not_atom fun a ha => hv ⟨a, h.revealed_eq_atom ha⟩).2.1]

/-- What opens and is no dictionary shows the bytes that it shows when everything in it is opened. -/
theorem Opens.as?_bytes_revealed (h : v.Opens) (hv : v.opened? = none) : v.revealed.as? .bytes = v.as? .bytes := by
  cases v with
  | atom a => rfl
  | list items =>
    rw [revealed_list]
    rfl
  | saved p =>
    rw [revealed_blob]
    intro hp
    have hopens := h.here (by rw [form?, if_pos hp]; rfl)
    rw [hv] at hopens
    cases hopens
  | dict d => cases hv
  | block b =>
    have hopens := h.here rfl
    rw [hv] at hopens
    cases hopens

theorem refs_revealed (h : v.Opens) (hhides : v.HidesNoRef) : v.revealed.refs = v.refs := addRefs_revealed h hhides []

theorem typeName?_revealed_dict (h : (dict d).Opens) : (dict d).revealed.typeName? = (dict d).typeName? := by
  have hget (d : Dict Value) : (dict d).typeName? = (d.get? Key.type).bind (·.as? .string) := rfl
  rw [revealed_dict, hget, hget, Dict.get?_map]
  cases hv : d.get? Key.type with
  | none => rfl
  | some v => exact Opens.as?_string_revealed (h.get? hv)

theorem needs_dict (d : Dict Value) : (dict d).needs =
    if (dict d).typeName? = some "dict" then (dict (DictResource.ofDict d).fields).refs
    else if (dict d).typeName? = some "file" ∧ (FileResource.fromCache? d).isSome = true then [] else (dict d).refs :=
  rfl

theorem fields_revealed (d : Dict Value) :
    (DictResource.ofDict (d.map revealed)).fields = (DictResource.ofDict d).fields.map revealed := by
  rw [DictResource.ofDict, DictResource.ofDict, Dict.map, Dict.map, List.filter_map]
  rfl

/-- The fields of a dictionary refer to what they refer to when everything in them is opened. -/
theorem refs_fields_revealed (h : (dict d).Opens) (hhides : (dict d).HidesNoRef) :
    (dict (DictResource.ofDict (d.map revealed)).fields).refs = (dict (DictResource.ofDict d).fields).refs := by
  rw [fields_revealed, ← revealed_dict]
  refine refs_revealed (opens_dict.mpr fun entry hentry => ?_) (throughout_dict.mpr ⟨nofun, fun entry hentry => ?_⟩)
  · exact opens_dict.mp h entry (List.mem_of_mem_filter hentry)
  · exact (throughout_dict.mp hhides).2 entry (List.mem_of_mem_filter hentry)

/-- A file that is kept is made just if it is made when everything in it is opened, if its data is no dictionary. -/
theorem isSome_fromCache?_revealed (h : (dict d).Opens) (hdata : ∀ v, d.get? "data" = some v → v.opened? = none) :
    (FileResource.fromCache? (d.map revealed)).isSome = (FileResource.fromCache? d).isSome := by
  have hbytes (d : Dict Value) : (FileResource.fromCache? d).isSome = ((d.get? "data").bind (·.as? .bytes)).isSome := by
    rw [FileResource.fromCache?, Option.isSome_map]
    rfl
  rw [hbytes, hbytes, Dict.get?_map]
  cases hv : d.get? "data" with
  | none => rfl
  | some v => exact congrArg Option.isSome (Opens.as?_bytes_revealed (h.get? hv) (hdata v hv))

/-- What a dictionary needs shows when everything in it is opened, if the data of a file is no dictionary. -/
theorem needs_revealed_dict (h : (dict d).Opens) (hhides : (dict d).HidesNoRef)
    (hdata : d.get? Key.type = some (.string "file") → ∀ v, d.get? "data" = some v → v.opened? = none) :
    (dict d).revealed.needs = (dict d).needs := by
  have htype := typeName?_revealed_dict h
  have hrefs := refs_revealed h hhides
  rw [revealed_dict] at htype hrefs ⊢
  rw [needs_dict, needs_dict, htype, hrefs, refs_fields_revealed h hhides]
  by_cases hfile : (dict d).typeName? = some "file"
  · obtain ⟨v, hv, htext⟩ := Option.bind_eq_some_iff.mp (show (d.get? Key.type).bind (·.as? .string) = _ from hfile)
    rw [isSome_fromCache?_revealed h (hdata (eq_string_of_as? htext ▸ hv))]
  · have hnone (e : Dict Value) : ¬((dict d).typeName? = some "file" ∧ (FileResource.fromCache? e).isSome = true) :=
      fun hboth => hfile hboth.1
    rw [if_neg (hnone _), if_neg (hnone _)]

/-! ## What an entry is given as -/

/-- A sound entry that is given as what opens shows what it is given as, and it needs what that shows. -/
theorem SoundEntry.given_cases (h : v.SoundEntry) (hof : v.Of .open) (hopens : v.given.Opens) :
    v.Opens ∧ v.given.revealed = v.revealed ∧ (v.given.HidesNoRef → v.entryNeeds = v.revealed.needs) := by
  cases v with
  | atom a => exact ⟨hopens, rfl, fun _ => rfl⟩
  | list items =>
    refine ⟨hopens, rfl, fun hhides => ?_⟩
    have hrefs := refs_revealed (v := .list items) hopens hhides
    rw [revealed_list] at hrefs ⊢
    exact hrefs.symm
  | dict d => exact ⟨hopens, rfl, fun hhides => (needs_revealed_dict hopens hhides (h.data d rfl)).symm⟩
  | block b => exact (not_of_block hof).elim
  | saved p =>
    have hp := h.payload p rfl
    cases hload : p.loadDict with
    | ok d =>
      have hopened : ContainerM.opened? (.saved p) = some (.dict d) := by
        rw [ContainerM.opened?_saved_dict hp, hload]
        rfl
      have hgiven : (saved p).given = .dict d := by rw [given, hopened, Option.getD_some]
      rw [hgiven] at hopens ⊢
      rw [entryNeeds, hopened, revealed_of_loadDict hp hload]
      refine ⟨throughout_saved.mpr ⟨fun _ => ?_, fun _ e he => ?_⟩, rfl, fun hhides => ?_⟩
      · rw [opened?_of_loadDict hp hload]
        rfl
      · cases hload.symm.trans he
        exact hopens
      · exact (needs_revealed_dict hopens hhides (h.data d (opened?_of_loadDict hp hload))).symm
    | error f =>
      have hgiven : (saved p).given = .saved p := by
        rw [given, ContainerM.opened?_saved_dict hp, hload]
        rfl
      rw [hgiven] at hopens
      obtain ⟨d, hd, _⟩ := hopens.exists_loadDict hp
      cases hload.symm.trans hd

/-- Entries that show the same are given as what shows the same, and need the same. -/
theorem SavedAlike.given_alike (h : v.SavedAlike w) (hv : v.given.Opens) (hw : w.given.Opens) :
    v.given.revealed = w.given.revealed ∧
      (v.given.HidesNoRef → w.given.HidesNoRef → v.entryNeeds = w.entryNeeds) := by
  obtain ⟨hopens, hshown, hneeds⟩ := h.left.given_cases h.shown.left hv
  obtain ⟨hopens', hshown', hneeds'⟩ := h.right.given_cases h.shown.right hw
  have hrevealed := h.shown.revealed hopens hopens'
  refine ⟨?_, fun hhides hhides' => ?_⟩
  · rw [hshown, hshown', hrevealed]
  · rw [hneeds hhides, hneeds' hhides', hrevealed]

end Value

/-! ## Containers that show the same -/

/-- The containers have the same names. The values of a name show the same if all in them opens, and the dependencies
are the same if besides no payload in the values hides a reference. -/
structure Session.Alike (s s' : Session σ) : Prop where
  names : s.container.names = s'.container.names
  values : ∀ name,
    Option.Rel (fun u u' => u.Opens → u'.Opens → u.revealed = u'.revealed) (s.valueOf name) (s'.valueOf name)
  dependencies : ∀ name, (∀ u, s.valueOf name = some u → u.Opens ∧ u.HidesNoRef) →
    (∀ u, s'.valueOf name = some u → u.Opens ∧ u.HidesNoRef) → s.dependenciesOf name = s'.dependenciesOf name

theorem Session.Over.alike {e e' : Dict Value} {s s' : Session σ} (h : s.Over e) (h' : s'.Over e')
    (hrelated : (DictResource.ofDict e).fields.Related Value.SavedAlike (DictResource.ofDict e').fields) :
    s.Alike s' := by
  have hentry (name : String) := hrelated.get? name
  refine ⟨?_, fun name => ?_, fun name hopens hopens' => ?_⟩
  · rw [Container.names, Container.names, h.entries, h'.entries, hrelated.names]
  · rw [(h.answers name).1, (h'.answers name).1]
    rcases rel_cases (hentry name) with ⟨hv, hw⟩ | ⟨v, w, hv, hw, hvw⟩
    · rw [hv, hw]
      exact .none
    · rw [hv, hw]
      exact .some fun hopens hopens' => (hvw.given_alike hopens hopens').1
  · rw [(h.answers name).1] at hopens
    rw [(h'.answers name).1] at hopens'
    rw [(h.answers name).2, (h'.answers name).2]
    rcases rel_cases (hentry name) with ⟨hv, hw⟩ | ⟨v, w, hv, hw, hvw⟩
    · rw [hv, hw]
    · rw [hv] at hopens ⊢
      rw [hw] at hopens' ⊢
      obtain ⟨hopen, hhides⟩ := hopens _ rfl
      obtain ⟨hopen', hhides'⟩ := hopens' _ rfl
      exact (hvw.given_alike hopen hopen').2 hhides hhides'

/-! ## Compression -/

/-- A typed dictionary with a flag. -/
def flaggedDict (flag : Bool) (fields : List (String × Value)) : Value :=
  .dict ⟨(Key.type, .string "dict") :: (Key.compress, .bool flag) :: fields⟩

section
variable {flag flag' : Bool} {fields fields' : List (String × Value)}

theorem of_flaggedDict
    (hdistinct : (⟨(Key.type, .string "dict") :: (Key.compress, .bool flag) :: fields⟩ : Dict Value).Distinct)
    (hfields : ∀ field ∈ fields, field.1 ∉ Key.directives ∧ field.2.Of .expanded) :
    (flaggedDict flag fields).Of .expanded := by
  have hnames : Key.type ∉ Key.directives ∧ Key.compress ∉ Key.directives := by decide
  have htype : (Value.string "dict").Of .expanded := after?_of_lookups (by decide) (by decide)
  have hflag : (Value.bool flag).Of .expanded := Value.of_atom.mpr trivial
  refine Dict.of_intro hdistinct (List.forall_mem_cons.mpr ⟨⟨hnames.1, htype⟩, ?_⟩)
  exact List.forall_mem_cons.mpr ⟨⟨hnames.2, hflag⟩, hfields⟩

theorem reflagged_flaggedDict (h : UpToFlags Value.Reflagged fields fields') :
    (flaggedDict flag fields).Reflagged (flaggedDict flag' fields') :=
  .dict (.both (by decide) (.atom _) (.left trivial (.right trivial h))) (.inr rfl)

theorem typedIfFlagged_flaggedDict (h : ∀ field ∈ fields, field.2.Dicts Dict.TypedIfFlagged) :
    (flaggedDict flag fields).Dicts Dict.TypedIfFlagged := by
  have hatom (a : Atom) : (Value.atom a).Dicts Dict.TypedIfFlagged := Value.throughout_atom.mpr trivial
  have hunmarked : Unmarked "dict" := by
    rw [Unmarked]
    decide
  refine Value.throughout_dict.mpr ⟨fun _ v hv => ?_, ?_⟩
  · cases hv
    exact ⟨"dict", rfl, hunmarked⟩
  · exact List.forall_mem_cons.mpr ⟨hatom _, List.forall_mem_cons.mpr ⟨hatom _, h⟩⟩

end

/-- A typed dictionary in another one. The inner one holds a reference if that is hidden, else the outer one does. -/
def heldReference (flag hidden : Bool) (a : Atom) : Dict Value :=
  let inner : List (String × Value) := if hidden then [("r", .atom a)] else []
  let outer : List (String × Value) := if hidden then [] else [("r", .atom a)]
  ⟨[("a", flaggedDict flag (("x", flaggedDict flag inner) :: outer)), ("b", .int 1)]⟩

section
variable (flag flag' hidden : Bool)

theorem expand_heldReference :
    ((heldReference flag hidden (.string "ref:b")).expand 16 (fun _ => none) (.start "" false)).run.eval noFiles =
      some (⟨some (heldReference flag hidden (.string "ref:b")), []⟩, .start "" false) := by
  cases flag <;> cases hidden <;> rfl

theorem locate_heldReference :
    ((heldReference flag hidden (.string "ref:b")).locate (.start "" false)).eval noFiles =
      (⟨some (heldReference flag hidden (.string "ref:b")), []⟩, .start "" false) := by
  cases flag <;> cases hidden <;> rfl

theorem Graph.cycles_of_edge : (⟨[("a", "b")]⟩ : Graph).cycles = [] := by
  have hsources : (⟨[("a", "b")]⟩ : Graph).sources = ["a"] := by decide +kernel
  have htargets : (⟨[("a", "b")]⟩ : Graph).targets "a" = ["b"] ∧ (⟨[("a", "b")]⟩ : Graph).targets "b" = [] := by
    decide +kernel
  rw [Graph.cycles, hsources]
  cases (⟨[("a", "b")]⟩ : Graph).nodes.length <;> simp [Graph.searchFrom, htargets]

theorem resolveRefs_heldReference : (heldReference flag hidden (.string "ref:b")).resolveRefs =
    ⟨some (heldReference flag hidden (.ref "b")), []⟩ := by
  have hrun : ((heldReference flag hidden (.string "ref:b")).visitRoot { (Hooks.keep : Hooks (StateM Graph)) with
      onValue := resolveRef (heldReference flag hidden (.string "ref:b")) }).run ⟨[]⟩ =
        (⟨some (heldReference flag hidden (.ref "b")), []⟩, ⟨[("a", "b")]⟩) := by
    cases flag <;> cases hidden <;> rfl
  rw [Dict.resolveRefs, hrun]
  dsimp only
  rw [Graph.cycles_of_edge]
  rfl

/-- The description compiles, and the outer dictionary depends on what is referred to unless that is saved in it. -/
theorem ends_heldReference : ∃ e w', Compiling.Ends noFiles
    ((heldReference flag hidden (.string "ref:b")).compile 16 ⟨false, .builtin, fun _ => none⟩ "") () e w' ∧
      (Session.start (Container.ofDict e .builtin) ()).dependenciesOf "a" = if flag && hidden then [] else ["b"] := by
  have hexpand := expand_heldReference flag hidden
  have hlocate := locate_heldReference flag hidden
  have hresolve := resolveRefs_heldReference flag hidden
  generalize hd : heldReference flag hidden (.string "ref:b") = d at hexpand hlocate hresolve ⊢
  generalize hresolved : heldReference flag hidden (.ref "b") = resolved at hresolve
  -- the passes up to the references are gone through by what they come to, the others are computed
  let located : Ended Unit := Pass.files.run noFiles .builtin ⟨some d, [], [], .start "" false, [], ()⟩ d
  let referred := Pass.references.run noFiles .builtin located d
  have hlocated : located.concluded = .ok d := by
    change Context.conclude ((d.locate (.start "" false)).eval noFiles).2
      ((d.locate (.start "" false)).eval noFiles).1.dict ((d.locate (.start "" false)).eval noFiles).1.issues = _
    rw [hlocate]
    rfl
  have hreferred : referred.concluded = .ok resolved := by
    change Context.conclude ((d.locate (.start "" false)).eval noFiles).2 d.resolveRefs.dict d.resolveRefs.issues = _
    rw [hlocate, hresolve]
    rfl
  have hends : (d.ends noFiles 16 ⟨false, .builtin, fun _ => none⟩ "" ()).getLast? =
      ((Pass.objects.run noFiles .builtin referred resolved).ends noFiles .builtin [.finishing, .saving]).getLast? := by
    rw [Dict.ends, hexpand]
    dsimp only
    rw [Pass.all, Ended.getLast?_ends_of_ok (d := d) rfl, Ended.getLast?_ends_of_ok hlocated,
      Ended.getLast?_ends_of_ok hreferred]
  have hmade : (((Pass.objects.run noFiles .builtin referred resolved).ends noFiles .builtin
      [.finishing, .saving]).getLast?.map Ended.outcome).any (fun r => r.1.toOption.any fun e => decide
        ((Session.start (Container.ofDict e .builtin) ()).dependenciesOf "a" = if flag && hidden then [] else ["b"])) =
          true := by
    subst hd hresolved
    cases flag <;> cases hidden <;> decide +kernel
  obtain ⟨⟨outcome, w'⟩, houtcome, hany⟩ := (Option.any_eq_true ..).mp hmade
  cases outcome with
  | error issues => cases hany
  | ok e =>
    refine ⟨e, w', ?_, of_decide_eq_true hany⟩
    change Compiling.eval noFiles _ () = _
    rw [Dict.eval_compile, hends, houtcome]

end

/-! ### What is shown is the same -/

theorem of_heldReference (flag : Bool) : (heldReference flag false (.string "ref:b")).Of .expanded := by
  have hnames : "x" ∉ Key.directives ∧ "r" ∉ Key.directives ∧ "a" ∉ Key.directives ∧ "b" ∉ Key.directives := by decide
  obtain ⟨hx, hr, ha, hb⟩ := hnames
  have hint : (Value.int 1).Of .expanded := Value.of_atom.mpr trivial
  have href : (Value.string "ref:b").Of .expanded := after?_of_lookups (by decide) (by decide)
  have hinner : (flaggedDict flag []).Of .expanded := of_flaggedDict (by simp [Dict.Distinct, Dict.names]; decide) nofun
  have houter : (flaggedDict flag [("x", flaggedDict flag []), ("r", .string "ref:b")]).Of .expanded :=
    of_flaggedDict (by simp [Dict.Distinct, Dict.names]; decide)
      (List.forall_mem_cons.mpr ⟨⟨hx, hinner⟩, List.forall_mem_singleton.mpr ⟨hr, href⟩⟩)
  have hdistinct : (heldReference flag false (.string "ref:b")).Distinct := by cases flag <;> decide
  exact Dict.of_intro hdistinct
    (List.forall_mem_cons.mpr ⟨⟨ha, houter⟩, List.forall_mem_singleton.mpr ⟨hb, hint⟩⟩)

theorem reflagged_heldReference (flag flag' : Bool) :
    (Value.dict (heldReference flag false (.string "ref:b"))).Reflagged
      (.dict (heldReference flag' false (.string "ref:b"))) := by
  have hnames : "a" ≠ Key.compress ∧ "b" ≠ Key.compress ∧ "r" ≠ Key.compress ∧ "x" ≠ Key.compress := by decide
  obtain ⟨ha, hb, hr, hx⟩ := hnames
  have hinner : (flaggedDict flag []).Reflagged (flaggedDict flag' []) := reflagged_flaggedDict .nil
  have houter : (flaggedDict flag [("x", flaggedDict flag []), ("r", .string "ref:b")]).Reflagged
      (flaggedDict flag' [("x", flaggedDict flag' []), ("r", .string "ref:b")]) :=
    reflagged_flaggedDict (.both hx hinner (.both hr (.atom _) .nil))
  exact .dict (.both ha houter (.both hb (.atom _) .nil)) (.inl ⟨rfl, rfl⟩)

theorem expandsTyped_heldReference (flag : Bool) : (heldReference flag false (.string "ref:b")).ExpandsTyped noFiles
    (⟨false, .builtin, fun _ => none⟩ : Options Unit) "" := by
  intro fuel e he
  have hexpanded : (heldReference flag false (.string "ref:b")).expanded? noFiles 16
      (⟨false, .builtin, fun _ => none⟩ : Options Unit) "" = some (heldReference flag false (.string "ref:b")) := by
    rw [Dict.expanded?, expand_heldReference]
    rfl
  obtain rfl := Dict.expanded?_unique hexpanded he
  have hatom (a : Atom) : (Value.atom a).Dicts Dict.TypedIfFlagged := Value.throughout_atom.mpr trivial
  have houter : (flaggedDict flag [("x", flaggedDict flag []), ("r", .string "ref:b")]).Dicts Dict.TypedIfFlagged :=
    typedIfFlagged_flaggedDict (List.forall_mem_cons.mpr
      ⟨typedIfFlagged_flaggedDict fun _ h => absurd h List.not_mem_nil, List.forall_mem_singleton.mpr (hatom _)⟩)
  have hroot : (heldReference flag false (.string "ref:b")).TypedIfFlagged :=
    fun hflag => absurd hflag Bool.false_ne_true
  exact Value.throughout_dict.mpr ⟨hroot, List.forall_mem_cons.mpr ⟨houter, List.forall_mem_singleton.mpr (hatom _)⟩⟩

theorem upToCompression_heldReference (flag flag' : Bool) : (heldReference flag false (.string "ref:b")).UpToCompression
    noFiles (⟨false, .builtin, fun _ => none⟩ : Options Unit) "" (heldReference flag' false (.string "ref:b")) where
  alongside := ⟨reflagged_heldReference flag flag',
    .of_expanded (of_heldReference flag) (reflagged_heldReference flag flag).plainlyFlagged,
    .of_expanded (of_heldReference flag') (reflagged_heldReference flag' flag').plainlyFlagged⟩
  typed := expandsTyped_heldReference flag
  typed' := expandsTyped_heldReference flag'

/-- The description compiles, and this holds of a session that starts with a container over the result. -/
def Dict.Gives (fs : Files) (fuel : Nat) (debug : Bool) (d : Dict Value) (P : Session Unit → Prop) : Prop :=
  ∃ e w', Compiling.Ends fs (d.compile fuel ⟨debug, .builtin, fun _ => none⟩ "") () e w' ∧
    P (Session.start (Container.ofDict e .builtin) ())

instance (fs : Files) (fuel : Nat) (debug : Bool) (d : Dict Value) (P : Session Unit → Prop) [DecidablePred P] :
    Decidable (d.Gives fs fuel debug P) :=
  inferInstanceAs (Decidable (∃ e w', Compiling.Ends fs (d.compile fuel ⟨debug, .builtin, fun _ => none⟩ "") () e w' ∧
    P (Session.start (Container.ofDict e .builtin) ())))

/-- A flag in a value, and a text that leads to it. -/
def shownFlag (flag : Bool) : Dict Value :=
  ⟨[(Key.values, .dict ⟨[("t", flaggedDict flag [])]⟩), ("b", .string "res:/t/res:compress")]⟩

/-- An entry with a type and a flag. -/
def flaggedEntry (type flag : Atom) : Dict Value :=
  ⟨[("a", .dict ⟨[(Key.type, .atom type), (Key.compress, .atom flag)]⟩)]⟩

/-- A typed dictionary that takes in more lists than can be read. -/
def deepDict (flag : Bool) : Dict Value :=
  ⟨[(Key.values, .dict ⟨[("y", (Json.nested 128 .null).value), ("x", (Json.nested 128 (.string "res:y")).value)]⟩),
    ("a", flaggedDict flag [("v", .list [.string "res:x"])])]⟩

/-- A typed dictionary with a file in it. -/
def heldFile (flag : Bool) : Dict Value :=
  ⟨[("a", flaggedDict flag [("f", .dict ⟨[(Key.type, .string "file"), ("file", .string "file:x")]⟩)])]⟩

theorem gives_deepDict :
    (deepDict true).Gives noFiles 400 false (fun s => ((s.valueOf "a").bind Value.dict?).isSome = false) ∧
      (deepDict false).Gives noFiles 400 false fun s => ((s.valueOf "a").bind Value.dict?).isSome = true := by
  decide +kernel

theorem not_ends_flaggedEntry : ¬∃ fuel e w', Compiling.Ends noFiles
    ((flaggedEntry (.string "dict") (.string "ref:b")).compile fuel ⟨false, .builtin, fun _ => none⟩ "") () e w' := by
  rintro ⟨fuel, e, w', h⟩
  have hanswered : (Compiling.eval noFiles ((flaggedEntry (.string "dict") (.string "ref:b")).compile 16
      ⟨false, .builtin, fun _ => none⟩ "") ()).isSome = true := by decide +kernel
  have hfails : ¬(flaggedEntry (.string "dict") (.string "ref:b")).Gives noFiles 16 false fun _ => True := by
    decide +kernel
  obtain ⟨r, hr⟩ := Option.isSome_iff_exists.mp hanswered
  obtain rfl := Dict.compile_unique hr h
  exact hfails ⟨e, w', hr, trivial⟩

end AssetPack
