import AssetPack.Description.Compile
import AssetPack.Proofs.Description.Finished
import AssetPack.Proofs.Json.Written
import AssetPack.Proofs.Tree.Stored
import AssetPack.Proofs.Value.Vocabulary

/-!
# Compiled descriptions

What a compile records, what it leaves nothing of, and how far what it makes can be kept in a pack.
-/
namespace AssetPack

/-!
## What is recorded about a made dictionary

All that is recorded stands under reserved names, except for the files of an entry, which stand in it.
-/

section
variable {P : Dict Value → Prop} {context : Context}

/-- Any atom, name and payload. -/
def Vocabulary.open : Vocabulary := ⟨fun _ => True, fun _ => True, fun _ => True⟩

theorem Value.Of.open {V : Vocabulary} {v : Value} (h : v.Of V) : v.Of .open :=
  h.mono (fun _ _ => trivial) (fun _ _ => trivial) fun _ _ => trivial

theorem of_textList {V : Vocabulary} {texts : List String} (h : ∀ text ∈ texts, V.atom (.string text)) :
    (textList texts).Of V := by
  rw [textList, Value.of_list, List.forall_mem_map]
  exact fun text htext => Value.of_atom.mpr (h text htext)

theorem of_named {α : Type} (f : α → Atom) (named : List (String × α)) :
    (Value.dict (Dict.ofList (named.map fun (name, a) => (name, .atom (f a))))).Of .open := by
  refine Dict.of_ofList fun entry hentry => ?_
  obtain ⟨a, _, rfl⟩ := List.mem_map.mp hentry
  exact ⟨trivial, Value.of_atom.mpr trivial⟩

/-- What it takes for a property of dictionaries to outlast the recording. -/
structure Outlasts (P : Dict Value → Prop) (context : Context) : Prop where
  reserved : ∀ d name v, P d → Key.isReserved name = true → v.Of .open → P (d.set name v)
  files : context.debug = true → ∀ d name e, P d → (d.get? name).bind Value.dict? = some e →
    P (d.set name (.dict (e.set Key.files (textList (context.filesFor name)))))

namespace Outlasts

theorem withFiles (h : Outlasts P context) (hdebug : context.debug = true) {d : Dict Value} (hd : P d)
    (name : String) : P (withFiles context d name) := by
  unfold AssetPack.withFiles
  split
  · exact hd
  · exact h.files hdebug d name _ hd ‹_›
  · exact hd

theorem withDebug (h : Outlasts P context) (hdebug : context.debug = true) {d : Dict Value} (hd : P d) :
    P (withDebug context d) := by
  have hfold (names : List String) {d : Dict Value} (hd : P d) : P (names.foldl (AssetPack.withFiles context) d) := by
    induction names generalizing d with
    | nil => exact hd
    | cons name rest ih => exact ih (h.withFiles hdebug hd name)
  refine h.reserved _ _ _ (hfold _ ?_) (by decide) (of_named .bytes context.outputs)
  exact h.reserved d _ _ hd (by decide) (Value.of_atom.mpr trivial)

/-- The recording sets one entry after another. -/
theorem withMetadata (h : Outlasts P context) {d : Dict Value} (hd : P d) : P (withMetadata context d) := by
  have hfiles : P (d.set Key.files (textList context.files)) :=
    h.reserved d _ _ hd (by decide) (of_textList fun _ _ => trivial)
  have hdebug : P (if context.debug then AssetPack.withDebug context (d.set Key.files (textList context.files))
      else d.set Key.files (textList context.files)) := by
    split
    · exact h.withDebug ‹_› hfiles
    · exact hfiles
  have hnameSpace (e : Dict Value) (he : P e) : P (if e.contains Key.nameSpace then e
      else e.set Key.nameSpace (.string Key.defaultNamespace)) := by
    split
    · exact he
    · exact h.reserved e _ _ he (by decide) (Value.of_atom.mpr trivial)
  exact h.reserved _ _ _ (hnameSpace _ hdebug) (by decide) (of_named .string context.symbols.sorted)

end Outlasts

/-- Entries of which something is known by their names, those of `d` among them. -/
structure Dict.Recorded (V : String → Vocabulary) (d e : Dict Value) : Prop where
  names : d.names ⊆ e.names
  distinct : e.Distinct
  entries : ∀ entry ∈ e.entries, entry.2.Of (V entry.1)

namespace Dict.Recorded
variable {V : String → Vocabulary} {d e : Dict Value}

theorem set (h : Recorded V d e) {name : String} {v : Value} (hv : v.Of (V name)) : Recorded V d (e.set name v) := by
  refine ⟨List.Subset.trans h.names (names_subset_set e name v), distinct_set h.distinct name v, fun entry hentry => ?_⟩
  rcases mem_set hentry with rfl | hentry
  · exact hv
  · exact h.entries entry hentry

/-- Nothing is lost in the recording if anything may stand under reserved names and the files of an entry
may stand in it. -/
theorem withMetadata (hreserved : ∀ name, Key.isReserved name = true → V name = .open)
    (hfiles : context.debug = true → ∀ name,
      (V name).name Key.files ∧ ∀ p ∈ context.filesFor name, (V name).atom (.string p))
    (hdistinct : d.Distinct) (hd : ∀ entry ∈ d.entries, entry.2.Of (V entry.1)) :
    Recorded V d (withMetadata context d) := by
  refine Outlasts.withMetadata ⟨fun e name v he hname hv => ?_, fun hdebug e name entry he hentry => ?_⟩
    ⟨List.Subset.refl _, hdistinct, hd⟩
  · refine he.set ?_
    rwa [hreserved name hname]
  · obtain ⟨v, hget, hv⟩ := Option.bind_eq_some_iff.mp hentry
    have hof := he.entries _ (mem_of_get? hget)
    obtain rfl := hof.eq_dict hv
    obtain ⟨hname, hatom⟩ := hfiles hdebug name
    exact he.set (Dict.Of.set hof hname (of_textList hatom))

end Dict.Recorded

end

/-!
## Compiled descriptions

A compile that ends well went through all of its passes, none of which found an issue. What each of them
leaves is what the next one starts from, so at the end nothing is left that stands for something else.
-/

section
variable {σ : Type} {fs : Files} {base : Path}

/-- A pass that is concluded made a dictionary and found nothing. -/
theorem Context.of_conclude {c : Context} {dict : Option (Dict Value)} {issues : List Issue} {d : Dict Value}
    (h : c.conclude dict issues = .ok d) : dict = some d ∧ issues ++ c.issues = [] := by
  unfold conclude at h
  cases hall : issues ++ c.issues with
  | nil =>
    rw [hall] at h
    cases dict with
    | none => cases h
    | some d' =>
      cases h
      exact ⟨rfl, rfl⟩
  | cons i rest =>
    rw [hall] at h
    cases dict <;> cases h

namespace Compiling
variable {α β : Type} {w w' : σ} {a : α} {b : β}

/-- With these files a compile ends well: from the world `w` with `a`, and it leaves the world `w'`. -/
def Ends (fs : Files) (x : Compiling σ α) (w : σ) (a : α) (w' : σ) : Prop :=
  ((x.run).run w).run.eval fs = some (.ok a, w')

instance {P : α → Prop} [DecidablePred P] (fs : Files) (x : Compiling σ α) (w : σ) :
    Decidable (∃ a w', Ends fs x w a w' ∧ P a) :=
  match h : ((x.run).run w).run.eval fs with
  | some (.ok a, w') => decidable_of_iff (P a)
    ⟨fun ha => ⟨a, w', h, ha⟩, fun ⟨_, _, h', ha⟩ => by cases h.symm.trans h'; exact ha⟩
  | some (.error _, _) => isFalse fun ⟨_, _, h', _⟩ => nomatch h.symm.trans h'
  | none => isFalse fun ⟨_, _, h', _⟩ => nomatch h.symm.trans h'

namespace Ends

theorem of_pure {a b : α} (h : Ends fs (pure a : Compiling σ α) w b w') : b = a := by
  cases (Answers.files fs).option.eq_of_pure h.symm
  rfl

theorem not_of_throw {issues : List Issue} : ¬Ends fs (throw issues : Compiling σ α) w a w' := by
  intro h
  cases (Answers.files fs).option.eq_of_pure h.symm

theorem of_bind {x : Compiling σ α} {f : α → Compiling σ β} (h : Ends fs (x >>= f) w b w') :
    ∃ a w₁, Ends fs x w a w₁ ∧ Ends fs (f a) w₁ b w' := by
  have hrun : ((x >>= f).run).run w = (x.run).run w >>= fun r => (ExceptT.bindCont f r.1).run r.2 := rfl
  rw [Ends, hrun] at h
  obtain ⟨⟨r, w₁⟩, hx, hf⟩ := (Answers.files fs).option.of_bind h.symm
  cases r with
  | ok a => exact ⟨a, w₁, hx.symm, hf.symm⟩
  | error issues => cases (Answers.files fs).option.eq_of_pure hf

theorem of_optionT {x : OptionT Look α} {f : α → Compiling σ β} (h : Ends fs (liftM x >>= f) w b w') :
    ∃ (a : α) (w₁ : σ), x.run.eval fs = some a ∧ Ends fs (f a) w₁ b w' := by
  obtain ⟨a, w₁, hx, hf⟩ := h.of_bind
  obtain ⟨⟨c, w₂⟩, hlift, hdone⟩ := (Answers.files fs).option.of_bind hx.symm
  obtain ⟨c', hanswer, hpair⟩ := (Answers.files fs).option.of_bind hlift
  cases (Answers.files fs).option.eq_of_pure hpair
  cases (Answers.files fs).option.eq_of_pure hdone
  exact ⟨a, _, hanswer.symm, hf⟩

theorem of_look {x : Look α} {f : α → Compiling σ β} (h : Ends fs (liftM x >>= f) w b w') :
    ∃ (a : α) (w₁ : σ), x.eval fs = a ∧ Ends fs (f a) w₁ b w' := by
  obtain ⟨a, w₁, hx, hf⟩ := of_optionT (x := OptionT.lift x) h
  obtain ⟨c, hanswer, hdone⟩ := (Answers.files fs).of_bind hx.symm
  cases (Answers.files fs).eq_of_pure hdone
  exact ⟨a, w₁, hanswer.symm, hf⟩

theorem of_conclude {c : Context} {dict : Option (Dict Value)} {issues : List Issue}
    {f : Dict Value → Compiling σ β}
    (h : Ends fs (Dict.compile.liftExcept (c.conclude dict issues) >>= f) w b w') :
    ∃ d w₁, dict = some d ∧ issues = [] ∧ Ends fs (f d) w₁ b w' := by
  obtain ⟨d, w₁, hlift, hf⟩ := h.of_bind
  have hpair : (Except.ok d, w₁) = (c.conclude dict issues, w) := (Answers.files fs).option.eq_of_pure hlift.symm
  obtain ⟨hdict, hissues⟩ := Context.of_conclude (Prod.mk.inj hpair).1.symm
  exact ⟨d, w₁, hdict, (List.append_eq_nil_iff.mp hissues).1, hf⟩

end Ends
end Compiling

theorem Dict.offers_congr {d e : Dict Value} (h : d.names = e.names) : d.Offers = e.Offers := by
  funext name
  rw [Offers, Offers, contains_iff, contains_iff, h]

/-- Without further types and localized values, a compile that ends well saves entries in which every
reference is an edge to an entry in a graph without cycles. -/
theorem Dict.of_compile {fuel : Nat} {o : Options σ} (hlocalize : ∀ name, o.localize name = none)
    (hregistry : ∀ typeName f, o.registry.get? typeName = some f → f.Plain fs) {d e : Dict Value} (hd : d.Of .json)
    {w w' : σ} (h : Compiling.Ends fs (d.compile fuel o base) w e w') :
    ∃ context saved, ∃ g : Graph, e = withMetadata context saved ∧ context.Consulted fs o.debug base ∧
      saved.Distinct ∧ (∀ name, ¬Relation.TransGen g.Refers name name) ∧
      ∀ entry ∈ saved.entries, entry.2.Of (.kept fs fun name => g.Refers entry.1 name ∧ saved.Offers name) := by
  -- each pass leaves what the next one starts from
  obtain ⟨⟨visited, context⟩, _, hexpand, h⟩ := h.of_optionT
  obtain ⟨hcontext, hexpanded⟩ := of_expand hd (fun name => .of_none (hlocalize name)) .start hexpand
  obtain ⟨expanded, _, hdict, _, h⟩ := h.of_conclude
  have hexpanded := hexpanded expanded hdict
  obtain ⟨⟨visited, context⟩, _, hlocate, h⟩ := h.of_look
  obtain ⟨located, _, hdict, hissues, h⟩ := h.of_conclude
  obtain ⟨hcontext, hlocated⟩ := of_locate hexpanded hcontext hlocate hissues hdict
  obtain ⟨resolved, _, hdict, hissues, h⟩ := h.of_conclude
  obtain ⟨g, hnames, hacyclic, hresolved⟩ := of_resolveRefs hlocated hissues hdict
  have hdistinct : resolved.Distinct := by
    rw [Distinct, hnames]
    exact hlocated.distinct
  obtain ⟨world, _, _, h⟩ := h.of_bind
  obtain ⟨⟨visited, loading⟩, _, hload, h⟩ := h.of_look
  obtain ⟨_, _, _, h⟩ := h.of_bind
  obtain ⟨loaded, _, hdict, hissues, h⟩ := h.of_conclude
  obtain ⟨hcontext, hnames₁, hloaded, hroots⟩ :=
    of_loadObjects (R := fun owner name => g.Refers owner name ∧ located.Offers name) hregistry hdistinct
      (fun entry he => (hresolved entry he).2) hcontext rfl hload hissues hdict
  obtain ⟨⟨_, finishing⟩, _, hfinish, h⟩ := h.of_look
  obtain ⟨_, _, _, h⟩ := h.of_bind
  obtain ⟨finished, _, hdict, _, h⟩ := h.of_conclude
  obtain rfl : loaded = finished := Option.some.inj hdict
  have hplain : ∀ root ∈ loading.roots, ∃ P, root.2.Plain fs P := fun root hroot => ⟨_, (hroots root hroot).1⟩
  have hcontext := (Finishing.keepsContext_finishAll (I := Context.Consulted fs o.debug base)
    (fun root hroot => (hplain root hroot).elim fun _ => Finishing.keepsContext_complete) _ _ _ hfinish.symm hcontext).1
  obtain ⟨hunsaved, hnames₂, hsaved⟩ := of_saveRoots (R := fun owner name => g.Refers owner name ∧ located.Offers name)
    hloaded (fun root hroot => (hroots root hroot).1) fun root hroot => (hroots root hroot).2.typedIfOpen
  generalize saveRoots loading.roots loaded = outcome at h hunsaved hnames₂ hsaved
  obtain ⟨kept, _⟩ := outcome
  simp only [addSiblings_of_plain hplain] at h
  obtain ⟨saved, _, hdict, _, h⟩ := h.of_conclude
  obtain rfl : kept = saved := Option.some.inj hdict
  have hkept : kept.names = located.names := hnames₂.trans (hnames₁.trans hnames)
  refine ⟨finishing.context, kept, g, h.of_pure, hcontext, ?_, hacyclic, fun entry hentry => ?_⟩
  · rw [Distinct, hkept]
    exact hlocated.distinct
  · rw [offers_congr hkept]
    exact hsaved entry hentry

/-! ### Nothing is left to resolve -/

/-- At some depth `u` lies in the entry of this name, which is not reserved. -/
def Dict.Holds (d : Dict Value) (name : String) (u : Value) : Prop :=
  Key.isReserved name = false ∧ ∃ v, d.get? name = some v ∧ Value.Within u v

/-- In entries that are not reserved nothing stands for something else, and references lead to such entries
and never back. -/
structure Dict.Resolved (d : Dict Value) : Prop where
  text : ∀ name s, d.Holds name (.string s) → ∀ mark ∈ Key.marks, ¬mark.toList <+: s.toList
  directive : ∀ name e, d.Holds name (.dict e) → ∀ key ∈ Key.directives, e.contains key = false
  reference : ∀ name target, d.Holds name (.ref target) →
    d.contains target ∧ Key.isReserved target = false
  acyclic : ∀ name, ¬Relation.TransGen (fun owner target => d.Holds owner (.ref target)) name name

theorem not_prefix_of_after? {mark text : String} (h : after? mark text = none) : ¬mark.toList <+: text.toList := by
  intro hmark
  rw [after?, if_pos (List.isPrefixOf_iff_prefix.mpr hmark)] at h
  cases h

/-- What is recorded about the entries keeps them as they are, but for names of files without a mark. -/
theorem Dict.recorded_withMetadata {debug : Bool} (hfs : fs.Canonical debug base) {context : Context}
    (hcontext : context.Consulted fs debug base) {d : Dict Value} (hdistinct : d.Distinct)
    {R : String → String → Prop} (hd : ∀ entry ∈ d.entries, entry.2.Of (.kept fs (R entry.1))) :
    Dict.Recorded (fun name => if Key.isReserved name then .open else .kept fs (R name)) d
      (withMetadata context d) := by
  refine Recorded.withMetadata (fun name hname => if_pos hname) (fun hdebug name => ?_) hdistinct fun entry he => ?_
  · rw [hcontext.debug_eq] at hdebug
    split
    · exact ⟨trivial, fun _ _ => trivial⟩
    · have hname : Key.files ∉ Key.directives := by decide
      refine ⟨hname, fun p hp => .inl ?_⟩
      exact unmarked_of_isAbsolute (hfs.isAbsolute hdebug (hcontext.filesFor name p hp))
  · split
    · exact (hd entry he).open
    · exact hd entry he

/-- A text that is compiled is parsed first. -/
theorem of_compileText {fuel : Nat} {o : Options σ} {text : String} {w w' : σ} {d : Dict Value}
    (h : Compiling.Ends fs (compileText fuel o base text) w d w') :
    ∃ source, Json.parseDict text = .ok source ∧ Compiling.Ends fs (source.compile fuel o base) w d w' := by
  rw [compileText] at h
  cases hparse : Json.parseDict text with
  | ok source =>
    rw [hparse] at h
    exact ⟨source, rfl, h⟩
  | error f =>
    rw [hparse] at h
    exact (Compiling.Ends.not_of_throw h).elim

/-- Whatever is asked for, it is this file, and it is empty. -/
def oneFile (path : Path) : Files := ⟨fun _ => .ok path, fun _ => .ok [], fun _ => none⟩

/-- An object with a text that stands for the mark of a file. -/
def describedFile : String :=
  "\x7b\"res:values\": \x7b\"f\": \"file:b\"\x7d, \"a\": \x7b\"res:type\": \"file\", \"file\": \"res:f\"\x7d\x7d"

end

/-!
## Compiled descriptions in packs

A text is parsed only up to a depth, but values are put into each other after that, and the writer does not
check how deep lists nest. So what a compile makes can be written and still be too deep to be read.
-/

section
variable {σ : Type} {fs : Files} {base : Path}

/-- What is made has no closed blocks, whatever the files are like. -/
theorem Dict.open_of_compileText {fuel : Nat} {debug : Bool} {text : String} {w w' : σ} {d : Dict Value}
    (h : Compiling.Ends fs (compileText fuel ⟨debug, .builtin, fun _ => none⟩ base text) w d w') : d.Of .open := by
  obtain ⟨source, hsource, h⟩ := of_compileText h
  obtain ⟨context, saved, g, rfl, _, hdistinct, _, hsaved⟩ :=
    Dict.of_compile (fun _ => rfl) (fun _ _ hf => Registry.plain_builtin hf) (Json.of_parseDict hsource) h
  have hrecorded : Recorded (fun _ => .open) saved (withMetadata context saved) :=
    Recorded.withMetadata (fun _ _ => rfl) (fun _ _ => ⟨trivial, fun _ _ => trivial⟩) hdistinct
      fun entry hentry => (hsaved entry hentry).open
  exact of_intro hrecorded.distinct fun entry hentry => ⟨trivial, hrecorded.entries entry hentry⟩

/-- What a compile makes comes back the same just if in no block more than `deepest` lists stand around a
value. If they do in the outermost block, the reading ends with that fault. -/
theorem decode_encode_of_compileText {fuel : Nat} {debug : Bool} {text : String} {w w' : σ} {d : Dict Value}
    (h : Compiling.Ends fs (compileText fuel ⟨debug, .builtin, fun _ => none⟩ base text) w d w')
    (hfits : (Value.dict d).Fits) (hlen : d.encode.length < lengthLimit) :
    ((∃ e, Dict.decode d.encode = .ok e ∧ e.sameAs d = true) ↔ (Value.dict d).Shallow) ∧
      ((∃ offset, Dict.decode d.encode = .error (.tooDeep deepest offset)) ↔
        ∃ entry ∈ d.entries, deepest < entry.2.lists) := by
  have hopen := Dict.open_of_compileText h
  exact ⟨Dict.decode_encode_iff hfits hlen hopen, Dict.decode_encode_tooDeep_iff hfits hlen hopen.distinct⟩

/-- No file can be found. -/
def noFiles : Files := ⟨fun _ => .error .missing, fun _ => .error .missing, fun _ => none⟩

theorem decode_encode_of_compileText_list : ∃ d w',
    Compiling.Ends noFiles (compileText 8 ⟨false, .builtin, fun _ => none⟩ "" "\x7b\"a\": [[1]]\x7d") () d w' ∧
      (Value.dict d).Fits ∧ d.encode.length < lengthLimit ∧
      ((∃ e, Dict.decode d.encode = .ok e ∧ e.sameAs d = true) ↔ (Value.dict d).Shallow) ∧
      ((∃ offset, Dict.decode d.encode = .error (.tooDeep deepest offset)) ↔
        ∃ entry ∈ d.entries, deepest < entry.2.lists) := by
  obtain ⟨d, w', h, hlen⟩ : ∃ d w', Compiling.Ends noFiles
      (compileText 8 ⟨false, .builtin, fun _ => none⟩ "" "\x7b\"a\": [[1]]\x7d") () d w' ∧
        (Value.dict d).width < countLimit := by decide +kernel
  rw [← Value.length_encode] at hlen
  have hfits := Value.fits_of_length_encode hlen
  have hlimit := Value.length_encode_lt_lengthLimit hlen
  exact ⟨d, w', h, hfits, hlimit, decode_encode_of_compileText h hfits hlimit⟩

/-! ### A value within a value -/

/-- So many lists around a value. -/
def Json.nested : Nat → Json → Json
  | 0, j => j
  | n + 1, j => .array [nested n j]

theorem Json.sound_nested {j : Json} (h : j.Sound) (n : Nat) : (nested n j).Sound := by
  induction n with
  | zero => exact h
  | succ n ih => exact ⟨ih, trivial⟩

theorem Json.depth_nested (j : Json) (n : Nat) : (nested n j).depth = n + j.depth := by
  induction n with
  | zero => exact (Nat.zero_add _).symm
  | succ n ih =>
    rw [nested, depth, depthItems, depthItems, ih, Nat.max_zero]
    omega

/-- Lists around a text that stands for more lists. -/
def nestedTwice : Dict Json :=
  ⟨[("res:values", .object ⟨[("x", Json.nested 128 .null)]⟩), ("a", Json.nested 129 (.string "res:x"))]⟩

theorem parseDict_nestedTwice :
    Json.parseDict (String.ofList (nestedTwice.writeObject 0 ['\n'])) = .ok nestedTwice.jsonValue := by
  have hsound : nestedTwice.Sound := by
    have hnull : (Json.null).Sound := trivial
    have htext : (Json.string "res:x").Sound := trivial
    have hvalues : (⟨[("x", Json.nested 128 .null)]⟩ : Dict Json).Sound := by
      refine Dict.sound_iff.mpr ⟨List.nodup_singleton _, fun m hm => ?_⟩
      rw [List.mem_singleton.mp hm]
      exact Json.sound_nested hnull 128
    exact ⟨by decide, hvalues, Json.sound_nested htext 129, trivial⟩
  have hdepth : nestedTwice.depth ≤ Json.deepestContainer := by
    simp only [nestedTwice, Dict.depth, depthMembers, Json.depth, Json.depth_nested, Json.deepestContainer]
    decide
  rw [Json.parseDict, Json.parse_writeObject hsound hdepth]

/-- Not everything that is compiled can be read back. -/
theorem not_decode_of_nestedTwice : ¬∀ (fs : Files) (fuel : Nat) (debug : Bool) (base : Path) (text : String)
    (d : Dict Value) (w w' : Unit),
    Compiling.Ends fs (compileText fuel ⟨debug, .builtin, fun _ => none⟩ base text) w d w' →
      (Value.dict d).Fits → d.encode.length < lengthLimit →
        ∃ e, Dict.decode d.encode = .ok e ∧ e.sameAs d = true := by
  intro hclaim
  obtain ⟨d, w', h, hdeep, hlen⟩ : ∃ d w', Compiling.Ends noFiles
      (nestedTwice.jsonValue.compile 400 ⟨false, .builtin, fun _ => none⟩ "") () d w' ∧
        (∃ entry ∈ d.entries, deepest < entry.2.lists) ∧ (Value.dict d).width < countLimit := by
    decide +kernel
  rw [← Value.length_encode] at hlen
  have hfits := Value.fits_of_length_encode hlen
  have hlimit := Value.length_encode_lt_lengthLimit hlen
  have hends : Compiling.Ends noFiles (compileText 400 ⟨false, .builtin, fun _ => none⟩ ""
      (String.ofList (nestedTwice.writeObject 0 ['\n']))) () d w' := by
    rw [compileText, parseDict_nestedTwice]
    exact h
  obtain ⟨e, hload, _⟩ := hclaim _ _ _ _ _ d () w' hends hfits hlimit
  obtain ⟨entry, hentry, hlt⟩ := hdeep
  obtain ⟨f, _, herror⟩ := Block.load_encode_of_lt_lists hfits hlimit ⟨entry, hentry, Nat.not_le.mpr hlt⟩ 0
  rw [Dict.decode, herror] at hload
  cases hload

end

end AssetPack
