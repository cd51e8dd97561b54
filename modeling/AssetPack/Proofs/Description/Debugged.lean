import AssetPack.Proofs.Description.Entries
import AssetPack.Proofs.Description.Rerecorded
import AssetPack.Proofs.Description.Unlisted

/-!
# What a debug compile adds

A debug compile goes through its passes as another one does, since no pass and no built-in type looks at whether it is
one. Only what is recorded at the end differs, and that can be taken out again, unless a value uses the names under
which it is recorded.
-/
namespace AssetPack
variable {σ : Type} {fs : Files}

/-! ## Both compiles -/

/-- The same context in a compile and in a debug compile. -/
def Context.Debugged (c c' : Context) : Prop := c.debug = false ∧ c' = { c with debug := true }

theorem Context.lasting_debugged : Lasting fs Debugged where
  base := by
    rintro c _ ⟨_, rfl⟩
    rfl
  issues := by
    rintro c _ ⟨_, rfl⟩
    rfl
  addSymbol := by
    rintro c _ symbol name ⟨hdebug, rfl⟩
    unfold Context.addSymbol
    dsimp only
    split <;> exact ⟨hdebug, rfl⟩
  add := by
    rintro c _ note ⟨hdebug, rfl⟩
    cases note with
    | issue i => exact ⟨hdebug, rfl⟩
    | output name bytes =>
      show (c.addOutput name bytes).Debugged ({ c with debug := true }.addOutput name bytes)
      unfold addOutput
      split <;> exact ⟨hdebug, rfl⟩
    | file owner path =>
      show ((c.addFile owner path).eval fs).Debugged (({ c with debug := true }.addFile owner path).eval fs)
      rw [addFile, addFile, Look.eval_bind, Look.eval_bind]
      exact ⟨hdebug, rfl⟩

section
variable {d : Dict Value} {fuel : Nat} {localize : String → Option Value} {base : Path} {w : σ}

/-- The expansion is the same in both. -/
theorem Dict.expand_debugged (fs : Files) (fuel : Nat) (base : Path) (hd : (Value.dict d).Distinct)
    (hlocalize : ∀ name, AnswersDistinct (localize name)) :
    Option.Rel (fun r r' => r'.1 = r.1 ∧ r.2.Debugged r'.2)
      ((d.expand fuel localize (.start base false)).run.eval fs)
      ((d.expand fuel localize (.start base true)).run.eval fs) := by
  have hbase : (Context.start base true).base = (Context.start base false).base := rfl
  have hexpand := rel_expand_self fs fuel hd hlocalize hbase
  generalize (d.expand fuel localize (.start base false)).run.eval fs = r at hexpand ⊢
  generalize (d.expand fuel localize (.start base true)).run.eval fs = r' at hexpand ⊢
  cases hexpand with
  | none => exact .none
  | @some r r' hr =>
    obtain ⟨⟨dict, issues⟩, c⟩ := r
    obtain ⟨⟨dict', issues'⟩, c'⟩ := r'
    obtain ⟨hdict, ts, hkept, hkept'⟩ := hr
    -- what is told one by one is kept in the same way
    have hfold := List.foldl_rel (l := ts) (f := Expansion.Kept.tell fs) (g := Expansion.Kept.tell fs)
      (r := fun k k' => k'.1 = k.1 ∧ k.2.Debugged k'.2) (a := ([], .start base false)) (b := ([], .start base true))
      ⟨rfl, rfl, rfl⟩ fun t _ k k' hk => by
        cases t with
        | issue i => exact ⟨congrArg (· ++ Issue.audible [i]) hk.1, hk.2⟩
        | file owner path => exact ⟨hk.1, Context.lasting_debugged.addFile hk.2 owner path⟩
    rw [← hkept, ← hkept'] at hfold
    dsimp only at hdict hfold
    rw [hdict, hfold.1]
    exact .some ⟨rfl, hfold.2⟩

/-- Both go through the same passes to the same end, or none has an end. -/
theorem Dict.ends_debugged (fs : Files) (fuel : Nat) (base : Path) (w : σ) (hd : (Value.dict d).Distinct)
    (hlocalize : ∀ name, AnswersDistinct (localize name)) :
    Option.Rel (Ended.Beside Context.Debugged) (d.ends fs fuel ⟨false, .builtin, localize⟩ base w).getLast?
      (d.ends fs fuel ⟨true, .builtin, localize⟩ base w).getLast? := by
  have hexpand := expand_debugged fs fuel base hd hlocalize
  rw [ends, ends]
  dsimp only
  generalize (d.expand fuel localize (.start base false)).run.eval fs = r at hexpand ⊢
  generalize (d.expand fuel localize (.start base true)).run.eval fs = r' at hexpand ⊢
  cases hexpand with
  | none => exact .none
  | @some r r' hr =>
    obtain ⟨_, c⟩ := r
    obtain ⟨visited, c'⟩ := r'
    obtain ⟨rfl, hcontext⟩ := hr
    have hstart : (⟨visited.dict, visited.issues, [], c, [], w⟩ : Ended σ).Beside Context.Debugged
        ⟨visited.dict, visited.issues, [], c', [], w⟩ := ⟨rfl, rfl, hcontext, rfl, rfl, List.forall_mem_nil _⟩
    have hregistry : (Registry.builtin : Registry σ).BlindTo fs Context.Debugged := Registry.blindTo_builtin fs _
    obtain ⟨last, hlast⟩ := Option.isSome_iff_exists.mp
      (List.getLast?_isSome.mpr (Ended.ends_ne_nil 
        ⟨visited.dict, visited.issues, [], c, [], w⟩ Pass.all))
    obtain ⟨last', hlast', hbeside⟩ := Ended.beside_ends Context.lasting_debugged hregistry hstart hlast
    dsimp only
    rw [hlast, hlast']
    exact .some hbeside

end

/-! ## What is recorded -/

/-- The names under which a compile lists files, and under which a debug compile records more. -/
def Key.debugging : List String := [Key.files, Key.debug, Key.outputs]

/-- An entry of a compiled description without the files that a debug compile lists in it. The table of symbols is no
entry of the description. -/
def Value.undebugged (name : String) (v : Value) : Value := if name = Key.symbols then v else v.withoutFiles

/-- A compiled description without what a debug compile adds to it. -/
def Dict.undebugged (d : Dict Value) : Dict Value :=
  ((d.erase Key.debug).erase Key.outputs).mapEntries Value.undebugged

theorem Value.withoutFiles_withFiles {v : Value} (hv : v.Of (.named (· ∉ Key.debugging))) (files : List Path) :
    (v.withFiles files).withoutFiles = v := by
  cases hdict : v.dict? with
  | none =>
    have hsame : v.withFiles files = v := by rw [withFiles, hdict]
    rw [hsame, withoutFiles, hdict]
  | some entry =>
    obtain rfl := hv.eq_dict hdict
    have hfiles : Key.files ∉ entry.names := fun hmem => Dict.Of.name hv hmem (by decide)
    have hsame : (dict entry).withFiles files =
        if files.isEmpty then .dict entry else .dict (entry.set Key.files (textList files)) := rfl
    rw [hsame]
    split
    · rw [withoutFiles_of_dict? rfl, Dict.erase_of_not_mem hfiles]
    · rw [withoutFiles_of_dict? rfl, Dict.erase_set_self, Dict.erase_of_not_mem hfiles]

namespace Dict
variable {d : Dict Value} {name : String}

theorem names_undebugged (d : Dict Value) : d.undebugged.names = ((d.erase Key.debug).erase Key.outputs).names :=
  names_mapEntries _ _

theorem get?_undebugged (d : Dict Value) (name : String) : d.undebugged.get? name =
    if name = Key.outputs ∨ name = Key.debug then none else (d.get? name).map (Value.undebugged name) := by
  rw [undebugged, get?_mapEntries, get?_erase, get?_erase]
  split <;> split <;> simp_all

theorem undebugged_set (d : Dict Value) (hdebug : name ≠ Key.debug) (houtputs : name ≠ Key.outputs) (v : Value) :
    (d.set name v).undebugged = d.undebugged.set name (v.undebugged name) := by
  rw [undebugged, erase_set_of_ne d hdebug, erase_set_of_ne _ houtputs, mapEntries_set, undebugged]

theorem undebugged_set_outputs (d : Dict Value) (v : Value) : (d.set Key.outputs v).undebugged = d.undebugged := by
  rw [undebugged, erase_set_of_ne d (by decide), erase_set_self, undebugged]

theorem contains_undebugged (d : Dict Value) (hdebug : name ≠ Key.debug) (houtputs : name ≠ Key.outputs) :
    d.undebugged.contains name = d.contains name := by
  rw [contains, contains, get?_undebugged, if_neg (not_or.mpr ⟨houtputs, hdebug⟩), Option.isSome_map]

section
variable {listed : Dict Value} (hdebug : Key.debug ∉ listed.names) (houtputs : Key.outputs ∉ listed.names)
include hdebug houtputs

/-- The same names are left. -/
theorem names_undebugged_withDebug (c : Context) : (withDebug c listed).undebugged.names = listed.names := by
  rw [withDebug, undebugged_set_outputs, names_undebugged, names_erase, names_erase, names_foldl_withFiles,
    ← names_erase, erase_set_self, erase_of_not_mem hdebug, ← names_erase, erase_of_not_mem houtputs]

/-- What stands under them is left, but for the table of symbols. -/
theorem get?_undebugged_withDebug (c : Context) (hlisted : listed.Distinct)
    (hnamed : ∀ entry ∈ listed.entries, entry.2.Of (.named (· ∉ Key.debugging))) (hname : name ≠ Key.symbols) :
    (withDebug c listed).undebugged.get? name = listed.get? name := by
  rw [withDebug, undebugged_set_outputs, get?_undebugged, get?_foldl_withFiles_names c (distinct_set hlisted _ _),
    get?_set]
  split
  · rename_i hrecorded
    rcases hrecorded with rfl | rfl
    · exact (get?_eq_none_iff.mpr houtputs).symm
    · exact (get?_eq_none_iff.mpr hdebug).symm
  · rename_i hrecorded
    rw [if_neg (not_or.mp hrecorded).2, Option.map_map]
    cases hget : listed.get? name with
    | none => rfl
    | some v =>
      refine congrArg some ?_
      rw [Function.comp_apply, Value.undebugged, if_neg hname]
      exact Value.withoutFiles_withFiles (hnamed _ (mem_of_get? hget)) _

end

/-- What a debug compile records in addition can be taken out again. -/
theorem undebugged_withMetadata {c c' : Context} (hc : c.Debugged c') (hd : d.Of (.named (· ∉ Key.debugging))) :
    (withMetadata c' d).undebugged = withMetadata c d := by
  obtain ⟨hdebug, rfl⟩ := hc
  have habsent {name : String} (hname : name ∈ Key.debugging) (hfiles : name ≠ Key.files) :
      name ∉ (d.set Key.files (textList c.files)).names := by
    refine get?_eq_none_iff.mp ?_
    rw [get?_set, if_neg hfiles]
    exact get?_eq_none_iff.mpr fun hmem => hd.name hmem hname
  have hlisted := distinct_set hd.distinct Key.files (textList c.files)
  have hnamed : ∀ entry ∈ (d.set Key.files (textList c.files)).entries, entry.2.Of (.named (· ∉ Key.debugging)) := by
    intro entry hentry
    rcases mem_set hentry with rfl | hentry
    · exact of_textList fun _ _ => trivial
    · exact hd.entry hentry
  have hnames := names_undebugged_withDebug (habsent (by decide) (by decide)) (habsent (by decide) (by decide))
    { c with debug := true }
  have hget {name : String} (hname : name ≠ Key.symbols) := get?_undebugged_withDebug
    (habsent (by decide) (by decide)) (habsent (by decide) (by decide)) { c with debug := true } hlisted hnamed hname
  rw [withMetadata, withMetadata, if_pos rfl, hdebug, if_neg Bool.false_ne_true, undebugged_set _ (by decide) (by decide)]
  dsimp only
  generalize d.set Key.files (textList c.files) = listed at hlisted hnames hget ⊢
  generalize withDebug { c with debug := true } listed = recorded at hnames hget ⊢
  have hrecorded : recorded.undebugged.Distinct := by
    rw [Distinct, hnames]
    exact hlisted
  have hcontains : recorded.contains Key.nameSpace = listed.contains Key.nameSpace := by
    rw [← contains_undebugged recorded (by decide) (by decide), contains, contains, hget (by decide)]
  rw [hcontains, Value.undebugged, if_pos rfl]
  split
  · exact set_congr hrecorded hlisted hnames (fun _ => hget) _
  · have hdefault : Value.undebugged Key.nameSpace (.string Key.defaultNamespace) = .string Key.defaultNamespace :=
      if_neg (by decide)
    rw [undebugged_set _ (by decide) (by decide), hdefault]
    refine set_congr (distinct_set hrecorded _ _) (distinct_set hlisted _ _) ?_ (fun other hother => ?_) _
    · rw [names_set, names_set, hnames]
    · rw [get?_set, get?_set, hget hother]

/-- What the passes leave in the end has only the names of the description and those that a pack adds. -/
theorem named_of_ends {d made : Dict Value} {fuel : Nat} {o : Options σ} {base : Path} {w : σ} {N : String → Prop}
    (hregistry : o.registry = .builtin) (hN : ∀ name ∈ Key.stored, N name) (hd : (Value.dict d).Spelled N)
    (hlocalize : ∀ name, AnswersIn (Value.Spelled N) (o.localize name))
    (hread : (d.expand fuel o.localize (.start base o.debug)).run.ReadsIn fs (Value.Spelled N)) {last : Ended σ}
    (hlast : (d.ends fs fuel o base w).getLast? = some last) (hmade : last.concluded = .ok made) :
    made.Of (.named N) := by
  cases hexpand : (d.expand fuel o.localize (.start base o.debug)).run.eval fs with
  | none =>
    rw [ends, hexpand] at hlast
    cases hlast
  | some r =>
    obtain ⟨visited, context⟩ := r
    rw [ends, hexpand, hregistry] at hlast
    have hspelled (e : Dict Value) (he : visited.dict = some e) : (Value.dict e).Spelled N :=
      (Value.closed_spelled N).of_expand_read hd hlocalize hread hexpand he
    obtain ⟨resolved, _, hresolved, roots, hrooted, rfl⟩ := Ended.exists_resolved hN hspelled hlast hmade
    exact hrooted.named_saveRoots hN hresolved

end Dict

/-! ## A file that is listed in its entry -/

/-- The entry of a file, and a localized one. -/
def fileAndText : Dict Value :=
  ⟨[("a", .dict ⟨[(Key.type, .string "file"), ("file", .string "file:x")]⟩), ("b", .string "loc:y")]⟩

/-- A compiled description without the names of a debug compile, and without lists of files in any of its entries. -/
def Dict.stripped (d : Dict Value) : Dict Value := ((d.erase Key.debug).erase Key.outputs).map Value.withoutFiles

end AssetPack
