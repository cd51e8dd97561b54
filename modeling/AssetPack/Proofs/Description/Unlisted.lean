import AssetPack.Proofs.Description.Beside

/-!
# Compiles that differ in the files they list

The passes behind the expansion only add to the files that were consulted, and do nothing else with them. So if no
type looks at them, two compiles that come to the same dictionary, but consulted other files for it, are the same
from there on, and what they make is the same apart from the lists of files.
-/
namespace AssetPack
variable {σ : Type} {fs : Files}

namespace Context

/-- All that a context gathers besides the files that were consulted. -/
def unlisted (c : Context) : Context := { c with files := [], entryFiles := ∅ }

theorem unlisted_eq_iff {c c' : Context} : c.unlisted = c'.unlisted ↔
    c.base = c'.base ∧ c.debug = c'.debug ∧ c.issues = c'.issues ∧ c.outputs = c'.outputs ∧ c.symbols = c'.symbols := by
  simp only [unlisted, mk.injEq, true_and]

theorem unlisted_addFile (c : Context) (owner : Option String) (path : Path) :
    ((c.addFile owner path).eval fs).unlisted = c.unlisted := by
  rw [addFile, Look.eval_bind, Look.eval_pure]
  rfl

theorem unlisted_addSymbol (c : Context) (symbol name : String) :
    (c.addSymbol symbol name).unlisted = c.unlisted.addSymbol symbol name := by
  have hsymbols : c.unlisted.symbols = c.symbols := rfl
  rw [addSymbol, addSymbol, hsymbols]
  split <;> rfl

theorem unlisted_add (c : Context) (note : Note) :
    ((c.add note).eval fs).unlisted = ((c.unlisted.add note).eval fs).unlisted := by
  cases note with
  | issue i => rfl
  | output name bytes =>
    show (c.addOutput name bytes).unlisted = (c.unlisted.addOutput name bytes).unlisted
    rw [addOutput, addOutput]
    split <;> rfl
  | file owner path =>
    show ((c.addFile owner path).eval fs).unlisted = ((c.unlisted.addFile owner path).eval fs).unlisted
    rw [unlisted_addFile, unlisted_addFile]
    rfl

theorem lasting_unlisted : Lasting fs fun c c' => c.unlisted = c'.unlisted where
  base _ _ h := (unlisted_eq_iff.mp h).1.symm
  issues _ _ h := (unlisted_eq_iff.mp h).2.2.1.symm
  addSymbol c c' symbol name h := by rw [unlisted_addSymbol, h, ← unlisted_addSymbol]
  add c c' note h := by rw [unlisted_add, h, ← unlisted_add]

end Context

/-! ## Types that do not look at the files -/

/-- The resource finishes without a look at the files that were consulted. -/
def Resource.Blind (r : Resource σ) : Prop := ∀ c, r.finish c = r.finish c.unlisted

/-- The type makes such resources, without a look at these files. -/
structure Factory.Blind (fs : Files) (f : Factory σ) : Prop where
  fromSource : ∀ d c, f.fromSource d c = f.fromSource d c.unlisted
  made : ∀ d c w r, ((Evaluation.files fs).after (f.fromSource d c) w).1.1 = some r → r.Blind

def Registry.Blind (fs : Files) (registry : Registry σ) : Prop :=
  ∀ typeName f, registry.get? typeName = some f → f.Blind fs

theorem Registry.Blind.blindTo {registry : Registry σ} (h : registry.Blind fs) :
    registry.BlindTo fs fun c c' => c.unlisted = c'.unlisted := by
  refine fun typeName f hf => ⟨fun d c c' hc => ?_, fun d c w r hr c₁ c₂ hc => ?_⟩
  · rw [(h typeName f hf).fromSource d c', ← hc, ← (h typeName f hf).fromSource]
  · have hblind := (h typeName f hf).made d c w r hr
    rw [hblind c₂, ← hc, ← hblind]

theorem Registry.blind_builtin (fs : Files) : (builtin : Registry σ).Blind fs := by
  intro typeName f hf
  obtain ⟨hsource, hmade⟩ := blindTo_builtin fs (fun c c' => c' = c.unlisted) typeName f hf
  exact ⟨fun d c => (hsource d c _ rfl).symm, fun d c w r hr c' => (hmade d c w r hr c' _ rfl).symm⟩

/-! ## What is recorded -/

/-- An entry without the list of files in it. -/
def Value.withoutFiles (v : Value) : Value :=
  match v.dict? with
  | some d => .dict (d.erase Key.files)
  | none => v

theorem Value.withoutFiles_of_dict? {v : Value} {d : Dict Value} (h : v.dict? = some d) :
    v.withoutFiles = .dict (d.erase Key.files) := by
  rw [withoutFiles, h]

/-- A made dictionary without the lists of files in it and in its entries. -/
def Dict.withoutFiles (d : Dict Value) : Dict Value := (d.erase Key.files).map Value.withoutFiles

namespace Dict

theorem withoutFiles_set (d : Dict Value) {name : String} (h : name ≠ Key.files) (v : Value) :
    (d.set name v).withoutFiles = d.withoutFiles.set name v.withoutFiles := by
  rw [withoutFiles, erase_set_of_ne d h, map_set, withoutFiles]

theorem withoutFiles_set_files (d : Dict Value) (v : Value) : (d.set Key.files v).withoutFiles = d.withoutFiles := by
  rw [withoutFiles, erase_set_self, withoutFiles]

theorem contains_withoutFiles (d : Dict Value) {name : String} (h : name ≠ Key.files) :
    d.withoutFiles.contains name = d.contains name := by
  rw [contains, contains, withoutFiles, get?_map, get?_erase, if_neg h, Option.isSome_map]

/-- The files of an entry are no more than a list of files in it. -/
theorem withoutFiles_withFiles (context : Context) (d : Dict Value) (name : String) :
    (withFiles context d name).withoutFiles = d.withoutFiles := by
  unfold withFiles
  split
  · rfl
  · rename_i entry hentry _
    obtain ⟨v, hget, hv⟩ := Option.bind_eq_some_iff.mp hentry
    by_cases hname : name = Key.files
    · rw [hname, withoutFiles_set_files]
    · have hsame : (Value.dict (entry.set Key.files (textList (context.filesFor name)))).withoutFiles =
          v.withoutFiles := by
        rw [Value.withoutFiles_of_dict? rfl, Value.withoutFiles_of_dict? hv, erase_set_self]
      rw [withoutFiles_set d hname, hsame]
      refine set_of_get? ?_
      rw [withoutFiles, get?_map, get?_erase, if_neg hname, hget]
      rfl
  · rfl

theorem withoutFiles_withDebug (context : Context) (d : Dict Value) : (withDebug context d).withoutFiles =
    (d.withoutFiles.set Key.debug (.bool true)).set Key.outputs
      (Value.withoutFiles (.dict (ofList (context.outputs.map fun (name, bs) => (name, .bytes bs))))) := by
  have hfold (names : List String) (e : Dict Value) :
      (names.foldl (withFiles context) e).withoutFiles = e.withoutFiles := by
    induction names generalizing e with
    | nil => rfl
    | cons name rest ih => rw [List.foldl_cons, ih, withoutFiles_withFiles]
  rw [withDebug, withoutFiles_set _ (by decide), hfold, withoutFiles_set _ (by decide)]
  rfl

/-- What is recorded is the same, whatever files were consulted. -/
theorem withoutFiles_withMetadata {c c' : Context} (h : c.unlisted = c'.unlisted) (d : Dict Value) :
    (withMetadata c d).withoutFiles = (withMetadata c' d).withoutFiles := by
  obtain ⟨_, hdebug, _, houtputs, hsymbols⟩ := Context.unlisted_eq_iff.mp h
  have hrecorded : (if c.debug then withDebug c (d.set Key.files (textList c.files))
        else d.set Key.files (textList c.files)).withoutFiles =
      (if c'.debug then withDebug c' (d.set Key.files (textList c'.files))
        else d.set Key.files (textList c'.files)).withoutFiles := by
    rw [hdebug]
    split
    · rw [withoutFiles_withDebug, withoutFiles_withDebug, withoutFiles_set_files, withoutFiles_set_files, houtputs]
    · rw [withoutFiles_set_files, withoutFiles_set_files]
  have hnamed {e e' : Dict Value} (he : e.withoutFiles = e'.withoutFiles) :
      (if e.contains Key.nameSpace then e else e.set Key.nameSpace (.string Key.defaultNamespace)).withoutFiles =
        (if e'.contains Key.nameSpace then e'
          else e'.set Key.nameSpace (.string Key.defaultNamespace)).withoutFiles := by
    rw [← contains_withoutFiles e (by decide), ← contains_withoutFiles e' (by decide), he]
    split
    · exact he
    · rw [withoutFiles_set _ (by decide), withoutFiles_set _ (by decide), he]
  rw [withMetadata, withMetadata, withoutFiles_set _ (by decide), withoutFiles_set _ (by decide), hsymbols,
    hnamed hrecorded]

end Dict

/-- Compiles that come to the same dictionary in their expansion make the same apart from the lists of files. -/
theorem Dict.ends_compile_beside {o : Options σ} (hregistry : o.registry.Blind fs) {base : Path} {d d' e : Dict Value}
    {fuel fuel' : Nat} {visited : Visited} {c c' : Context}
    (hd : (d.expand fuel o.localize (.start base o.debug)).run.eval fs = some (visited, c))
    (hd' : (d'.expand fuel' o.localize (.start base o.debug)).run.eval fs = some (visited, c'))
    (hc : c.unlisted = c'.unlisted) {w w' : σ} (h : Compiling.Ends fs (d.compile fuel o base) w e w') :
    ∃ e', Compiling.Ends fs (d'.compile fuel' o base) w e' w' ∧ e'.withoutFiles = e.withoutFiles := by
  have hends : (d.ends fs fuel o base w).getLast?.map Ended.outcome = some (.ok e, w') :=
    (eval_compile fuel o base d w).symm.trans h
  obtain ⟨last, hlast, houtcome⟩ := Option.map_eq_some_iff.mp hends
  rw [Dict.ends, hd] at hlast
  have hstart : (⟨visited.dict, visited.issues, [], c, [], w⟩ : Ended σ).Beside (fun c c' => c.unlisted = c'.unlisted)
      ⟨visited.dict, visited.issues, [], c', [], w⟩ := ⟨rfl, rfl, hc, rfl, rfl, List.forall_mem_nil _⟩
  have hlasting : Context.Lasting fs fun c c' => c.unlisted = c'.unlisted := Context.lasting_unlisted
  obtain ⟨last', hlast', hbeside⟩ := Ended.beside_ends hlasting hregistry.blindTo hstart hlast
  obtain ⟨made, hmade, rfl⟩ := Ended.of_outcome_ok (congrArg Prod.fst houtcome)
  refine ⟨withMetadata last'.context made, ?_, (withoutFiles_withMetadata hbeside.context made).symm⟩
  have heval : Compiling.eval fs (d'.compile fuel' o base) w = _ := eval_compile fuel' o base d' w
  rw [Dict.ends, hd'] at heval
  refine heval.trans ?_
  rw [hlast', Option.map_some, Ended.outcome, hbeside.concluded hlasting, hmade, hbeside.world]
  have hworld : last.world = w' := congrArg Prod.snd houtcome
  rw [hworld]
  rfl

end AssetPack
