import AssetPack.Proofs.Description.Compiled
import AssetPack.Proofs.Description.Rerecorded
import AssetPack.Proofs.Description.Resaved

/-!
# Descriptions in another order

The top-level entries of a description can stand in any order: each pass of a compile makes the same of them but for
that order, as long as no two of them ask for the same symbol. What a pack keeps compressed are bytes, and these do
tell in which order the entries of a dictionary stood.
-/
namespace AssetPack
variable {σ : Type} {fs : Files} {registry : Registry σ} {packed : Prop} {d e : Dict Value}

/-- Two compiles that both found issues, or that made dictionaries that are the same but for the order of entries.
These are equal, unless a dictionary was compressed. -/
inductive Outcome.Reordered : Outcome → Outcome → Prop
  | failed (issues issues' : List Issue) : Reordered (.error issues) (.error issues')
  | made {d e : Dict Value} : (Value.dict d).Reordered True (.dict e) →
      ((∀ p, (Value.saved p).Within (.dict d) → p.content ≠ .dict) → d.sameAs e = true) → Reordered (.ok d) (.ok e)

/-! ## One pass -/

/-- Both passes made dictionaries that are the same but for the order of entries, both found issues or neither did, and
they keep contexts that are alike. -/
structure Ended.Reordered (packed : Prop) (p p' : Ended σ) : Prop where
  dict : Dict.Rearranged packed p.dict p'.dict
  issues : p.issues = [] ↔ p'.issues = []
  context : p.context.Alike p'.context
  world : p'.world = p.world

theorem nil_iff_of_perm {α : Type} {as bs : List α} (h : as.Perm bs) : as = [] ↔ bs = [] := by
  rw [← List.length_eq_zero_iff, ← List.length_eq_zero_iff, h.length_eq]

/-- Resources that finish at once leave the context and the world as they are. -/
theorem Pass.finishing_stays (fs : Files) (registry : Registry σ) (d : Dict Value) {p : Ended σ}
    (hroots : ∀ root ∈ p.roots, root.2.FinishesAtOnce) :
    (finishing.run fs registry p d).context = p.context ∧ (finishing.run fs registry p d).world = p.world := by
  have hlevel := Finishing.level_finishAll fs hroots p.context p.context p.world p.world
  exact ⟨hlevel.context.1, hlevel.world.1⟩

theorem Pass.saving_context (registry : Registry σ) {p : Ended σ} (hroots : Rooted fs d.entries p.roots) :
    (saving.run fs registry p d).context = p.context := by
  simp only [run, addSiblings_of_empty hroots.siblings_eq]

namespace Ended.Reordered
variable {p p' : Ended σ}

/-- Both passes are concluded with such dictionaries, or neither is concluded with one. -/
theorem concluded (h : p.Reordered packed p') :
    (∃ d e, p.concluded = .ok d ∧ p'.concluded = .ok e ∧ (Value.dict d).Reordered packed (.dict e)) ∨
      ∃ issues issues', p.concluded = .error issues ∧ p'.concluded = .error issues' := by
  have hnone : p.issues ++ p.context.issues = [] ↔ p'.issues ++ p'.context.issues = [] := by
    rw [List.append_eq_nil_iff, List.append_eq_nil_iff, h.issues, nil_iff_of_perm h.context.issues]
  have hdict := h.dict
  unfold Ended.concluded Context.conclude
  generalize p.issues ++ p.context.issues = issues at hnone ⊢
  generalize p'.issues ++ p'.context.issues = issues' at hnone ⊢
  generalize p.dict = made at hdict ⊢
  generalize p'.dict = made' at hdict ⊢
  cases issues with
  | nil =>
    obtain rfl := hnone.mp rfl
    cases hdict with
    | none => exact .inr ⟨_, _, rfl, rfl⟩
    | some hde => exact .inl ⟨_, _, rfl, rfl, hde⟩
  | cons i rest =>
    cases issues' with
    | nil => cases hnone.mpr rfl
    | cons i' rest' => cases hdict <;> exact .inr ⟨_, _, rfl, rfl⟩

/-! ## The passes -/

theorem files (registry : Registry σ) (hfs : fs.Regular) (h : p.Reordered packed p')
    (hde : (Value.dict d).Reordered False (.dict e)) :
    (Pass.files.run fs registry p d).Reordered False (Pass.files.run fs registry p' e) := by
  obtain ⟨hdict, hissues, hcontext, _, _⟩ := Dict.rel_locate hfs hde h.context
  exact ⟨hdict, nil_iff_of_perm hissues, hcontext, h.world⟩

theorem references (fs : Files) (registry : Registry σ) (h : p.Reordered packed p')
    (hde : (Value.dict d).Reordered False (.dict e)) :
    (Pass.references.run fs registry p d).Reordered False (Pass.references.run fs registry p' e) := by
  obtain ⟨hdict, hissues⟩ := Dict.rel_resolveRefs hde
  exact ⟨hdict, nil_iff_of_perm hissues, h.context, h.world⟩

theorem objects (fs : Files) (h : p.Reordered packed p') (hde : (Value.dict d).Reordered False (.dict e)) :
    (Pass.objects.run fs .builtin p d).Reordered True (Pass.objects.run fs .builtin p' e) := by
  obtain ⟨hdict, hissues, hcontext, hworld, hworld'⟩ := Dict.rel_loadObjects hde ⟨p.context, [], p.world⟩
    ⟨p'.context, [], p'.world⟩ h.context h.world
  exact ⟨hdict, nil_iff_of_perm hissues, hcontext, hworld'.trans hworld.symm⟩

/-- The resources of both descriptions finish, or some of either do not. -/
theorem finishing (registry : Registry σ) (h : p.Reordered packed p') (hde : (Value.dict d).Reordered True (.dict e))
    (hroots : Rooted fs d.entries p.roots) (hroots' : Rooted fs e.entries p'.roots) :
    (Pass.finishing.run fs registry p d).Reordered True (Pass.finishing.run fs registry p' e) := by
  have hstays := Pass.finishing_stays fs registry d hroots.finishesAtOnce
  have hstays' := Pass.finishing_stays fs registry e hroots'.finishesAtOnce
  refine ⟨.some hde, Rooted.issues_finishAll hde hroots hroots', ?_, ?_⟩
  · rw [hstays.1, hstays'.1]
    exact h.context
  · rw [hstays.2, hstays'.2]
    exact h.world

/-- All resources of both descriptions are kept. -/
theorem saving (h : p.Reordered packed p') (hde : (Value.dict d).Reordered True (.dict e))
    (hroots : Rooted fs d.entries p.roots) (hroots' : Rooted fs e.entries p'.roots) :
    (Pass.saving.run fs registry p d).Reordered True (Pass.saving.run fs registry p' e) := by
  have hrel := Value.reordered_dict_iff.mp hde
  refine ⟨?_, ?_, ?_, h.world⟩
  · simp only [Pass.run, addSiblings_of_empty hroots.siblings_eq, addSiblings_of_empty hroots'.siblings_eq]
    exact .some (hroots.rel_saveRoots hde hroots')
  · simp only [Pass.run, addSiblings_of_empty hroots.siblings_eq, addSiblings_of_empty hroots'.siblings_eq,
      hroots.issues_saveRoots hrel.distinct, hroots'.issues_saveRoots hrel.distinct']
  · rw [Pass.saving_context registry hroots, Pass.saving_context registry hroots']
    exact h.context

/-! ## The chain -/

/-- Chains that end alike: both have no end, or both come to such results and leave the same world. -/
abbrev ToEnd (x y : Option (Ended σ)) : Prop :=
  Option.Rel (fun p q => Outcome.Reordered p.outcome.1 q.outcome.1 ∧ q.world = p.world) x y

/-- If the passes after these end alike, so do the chains from here on. -/
theorem toEnd_of_next (h : p.Reordered packed p') {pass : Pass} {rest : List Pass}
    (hnext : ∀ d e, p.concluded = .ok d → p'.concluded = .ok e → (Value.dict d).Reordered packed (.dict e) →
      ToEnd ((pass.run fs registry p d).ends fs registry rest).getLast?
        ((pass.run fs registry p' e).ends fs registry rest).getLast?) :
    ToEnd (p.ends fs registry (pass :: rest)).getLast? (p'.ends fs registry (pass :: rest)).getLast? := by
  rcases h.concluded with ⟨d, e, hd, he, hde⟩ | ⟨issues, issues', hd, he⟩
  · rw [getLast?_ends_of_ok hd, getLast?_ends_of_ok he]
    exact hnext d e hd he hde
  · rw [ends_of_error hd, ends_of_error he]
    refine .some ⟨?_, h.world⟩
    simp only [List.getLast_singleton, outcome, hd, he]
    exact .failed issues issues'

/-- Of the last passes the same is recorded. -/
theorem toEnd (h : p.Reordered True p') (hsymbols : Dict.Reordered Eq p.context.symbols p'.context.symbols) :
    ToEnd (p.ends fs registry []).getLast? (p'.ends fs registry []).getLast? := by
  refine .some ⟨?_, h.world⟩
  rcases h.concluded with ⟨d, e, hd, he, hde⟩ | ⟨issues, issues', hd, he⟩
  · simp only [List.getLast_singleton, outcome, hd, he]
    have hrecorded := hde.withMetadata h.context hsymbols
    exact .made hrecorded fun hplain => hrecorded.same hplain
  · simp only [List.getLast_singleton, outcome, hd, he]
    exact .failed issues issues'

end Ended.Reordered

/-- After the objects were loaded, the resources are those of the typed entries, and the symbols those of all. -/
theorem Pass.of_objects {p : Ended σ} (hd : (Value.dict d).Distinct) {loaded : Dict Value}
    (h : (objects.run fs .builtin p d).concluded = .ok loaded) :
    Rooted fs loaded.entries (objects.run fs .builtin p d).roots ∧
      (objects.run fs .builtin p d).context.symbols =
        (symbolsOf loaded.entries).foldl Dict.withSymbol p.context.symbols := by
  obtain ⟨hdict, hissues⟩ := Context.of_conclude h
  obtain ⟨_, ⟨roots, hroots, hrooted⟩, hsymbols⟩ :=
    Dict.adds_of_loadObjects hd (l := ⟨p.context, [], p.world⟩) rfl (List.append_eq_nil_iff.mp hissues).1 hdict
  refine ⟨?_, hsymbols⟩
  have hsame : (objects.run fs .builtin p d).roots = roots := hroots
  rwa [hsame]

/-- Objects are followed by what keeps the context. -/
theorem Pass.symbols_of_objects {p : Ended σ} (hd : (Value.dict d).Distinct) {loaded : Dict Value}
    (h : (objects.run fs .builtin p d).concluded = .ok loaded) :
    (saving.run fs .builtin (finishing.run fs .builtin (objects.run fs .builtin p d) loaded) loaded).context.symbols =
      (symbolsOf loaded.entries).foldl Dict.withSymbol p.context.symbols := by
  obtain ⟨hroots, hsymbols⟩ := of_objects hd h
  have hsaved := saving_context .builtin (p := finishing.run fs .builtin (objects.run fs .builtin p d) loaded) hroots
  rw [hsaved, (finishing_stays fs .builtin loaded hroots.finishesAtOnce).1, hsymbols]

/-- From the objects on both chains end alike, where the entries have different symbols. -/
theorem Ended.Reordered.toEnd_objects {p p' : Ended σ} (h : p.Reordered False p') (hsymbols : p.context.symbols = ∅)
    (hsymbols' : p'.context.symbols = ∅) (hde : (Value.dict d).Reordered False (.dict e))
    (hapart : ∀ loaded, (Pass.objects.run fs .builtin p d).dict = some loaded → SymbolsApart (symbolsOf loaded.entries)) :
    ToEnd ((Pass.objects.run fs .builtin p d).ends fs .builtin [.finishing, .saving]).getLast?
      ((Pass.objects.run fs .builtin p' e).ends fs .builtin [.finishing, .saving]).getLast? := by
  have hobjects := h.objects fs hde
  refine hobjects.toEnd_of_next fun loaded loaded' hloaded hloaded' hrel => ?_
  obtain ⟨hroots, _⟩ := Pass.of_objects hde.distinct hloaded
  obtain ⟨hroots', _⟩ := Pass.of_objects hde.symm.distinct hloaded'
  have hfinishing := hobjects.finishing .builtin hrel hroots hroots'
  refine hfinishing.toEnd_of_next fun finished finished' hfinished hfinished' _ => ?_
  cases (Context.of_conclude hfinished).1
  cases (Context.of_conclude hfinished').1
  refine (hfinishing.saving hrel hroots hroots').toEnd ?_
  rw [Pass.symbols_of_objects hde.distinct hloaded, Pass.symbols_of_objects hde.symm.distinct hloaded', hsymbols,
    hsymbols']
  exact hrel.symbols (hapart loaded (Context.of_conclude hloaded).1)

/-! ## The whole compile -/

theorem Expansion.Kept.symbols_foldl_tell (ts : List Told) (k : Kept) :
    (ts.foldl (tell fs) k).2.symbols = k.2.symbols := by
  induction ts generalizing k with
  | nil => rfl
  | cons t rest ih =>
    rw [List.foldl_cons, ih]
    cases t with
    | issue i => rfl
    | file owner path => exact Context.symbols_addFile k.2 owner path

section
variable {d' : Dict Value} {fuel : Nat} {o : Options σ} {base : Path} {w : σ}

/-- Descriptions that are the same but for the order of their entries compile alike, if their entries get different
symbols. -/
theorem Dict.rel_compile (hregistry : o.registry = .builtin) (hlocalize : ∀ name, AnswersDistinct (o.localize name))
    (hfs : fs.Regular) (hd : (Value.dict d).Reordered False (.dict d'))
    (hapart : ∀ loaded, d.resolved? fs fuel o base w = some loaded → SymbolsApart (symbolsOf loaded.entries)) :
    Option.Rel (fun r r' => Outcome.Reordered r.1 r'.1 ∧ r'.2 = r.2) (Compiling.eval fs (d.compile fuel o base) w)
      (Compiling.eval fs (d'.compile fuel o base) w) := by
  have hends : Ended.Reordered.ToEnd (d.ends fs fuel o base w).getLast? (d'.ends fs fuel o base w).getLast? := by
    have hexpand := rel_expand fs fuel hd hlocalize (.start base o.debug)
    rw [resolved?, ends] at hapart
    rw [ends, ends]
    generalize (d.expand fuel o.localize (.start base o.debug)).run.eval fs = r at hexpand hapart ⊢
    generalize (d'.expand fuel o.localize (.start base o.debug)).run.eval fs = r' at hexpand ⊢
    cases hexpand with
    | none => exact .none
    | @some r r' hr =>
      obtain ⟨visited, context⟩ := r
      obtain ⟨visited', context'⟩ := r'
      obtain ⟨hdict, ts, us, hperm, hfair, hkept, hkept'⟩ := hr
      have halike := Expansion.Kept.alike_foldl_tell hfs hperm hfair ([], .start base o.debug)
      rw [← hkept, ← hkept'] at halike
      have hsymbols : context.symbols = ∅ := (congrArg (·.2.symbols) hkept).trans (Expansion.Kept.symbols_foldl_tell _ _)
      have hsymbols' : context'.symbols = ∅ :=
        (congrArg (·.2.symbols) hkept').trans (Expansion.Kept.symbols_foldl_tell _ _)
      have hexpanded : Ended.Reordered (σ := σ) False ⟨visited.dict, visited.issues, [], context, [], w⟩
          ⟨visited'.dict, visited'.issues, [], context', [], w⟩ :=
        ⟨hdict, nil_iff_of_perm halike.issues, halike.context, rfl⟩
      dsimp only at hapart ⊢
      rw [hregistry, Pass.all] at hapart ⊢
      refine hexpanded.toEnd_of_next fun d d' hd hd' hdd => ?_
      rw [Ended.ends_of_ok hd] at hapart
      have hlocated := hexpanded.files .builtin hfs hdd
      refine hlocated.toEnd_of_next fun e e' he he' hee => ?_
      rw [Ended.ends_of_ok he] at hapart
      have hreferred := hlocated.references fs .builtin hee
      refine hreferred.toEnd_of_next fun f f' hf hf' hff => ?_
      rw [Ended.ends_of_ok hf] at hapart
      obtain ⟨_, _, _, hsame, hsame'⟩ := Dict.rel_locate hfs hdd halike.context
      exact hreferred.toEnd_objects (hsame.trans hsymbols) (hsame'.trans hsymbols') hff hapart
  rw [eval_compile, eval_compile]
  generalize (d.ends fs fuel o base w).getLast? = p at hends ⊢
  generalize (d'.ends fs fuel o base w).getLast? = p' at hends ⊢
  cases hends with
  | none => exact .none
  | some h => exact .some h

end

/-! ## An entry that holds a copy of all others -/

/-- An entry that is made of the root. -/
def rootCopy : Dict Value :=
  ⟨[(Key.template, .string "/"), ("a", .atom (.int 1)), (Key.type, .string "dict"), (Key.compress, .atom (.bool true))]⟩

def copiedRoot (b c : String) : Dict Value := ⟨[("a", .dict rootCopy), (b, .string b), (c, .string c)]⟩

def fileAndDict : List (String × Value) :=
  [("a", .dict ⟨[(Key.type, .string "file"), ("file", .string "file:x")]⟩),
    ("b", .dict ⟨[(Key.type, .string "dict"), ("y", .string "z")]⟩)]

theorem regular_oneFile (path : Path) : (oneFile path).Regular := by
  refine ⟨fun _ _ _ => ⟨path, rfl⟩, fun p p' q q' hq hq' _ => ?_⟩
  cases hq
  cases hq'
  rfl

end AssetPack
