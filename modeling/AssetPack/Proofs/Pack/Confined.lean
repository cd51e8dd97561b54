import AssetPack.Proofs.Files.Inside
import AssetPack.Proofs.Files.Systems
import AssetPack.Proofs.Pack.Extracted
import AssetPack.Proofs.Visit.Fields

/-!
# Where an extraction writes

The name of every file that an extraction writes is made of the place of a node and the extension of its resource.
The place is cleaned of slashes, but the extension is taken from the pack as it is there. So an extraction stays inside
its directory if no extension in the pack has a slash. If one has, whether the file is inside can be told from the name.
-/
namespace AssetPack
variable {σ S : Type} {dir : Path} {place extension : String}

/-! ## File names -/

theorem slash_not_mem_fileNameOf (place : String) : '/' ∉ (fileNameOf place).toList := by
  rw [fileNameOf]
  split
  · decide
  · rw [String.toList_ofList]
    intro hslash
    obtain ⟨c, -, hc⟩ := List.mem_map.mp hslash
    split at hc
    · rename_i hin
      rw [hc] at hin
      exact absurd hin (by decide)
    · exact absurd hc (by decide)

theorem fileNameOf_ne_nil (place : String) : (fileNameOf place).toList ≠ [] := by
  rw [fileNameOf]
  split
  · decide
  · rename_i hkept
    rw [String.toList_ofList]
    simpa using hkept

/-- Whatever the extension is, the name of a file is relative to the directory. -/
theorem isAbsolute_fileNameOf_append (place extension : String) :
    Path.isAbsolute (fileNameOf place ++ extension) = false := by
  have hslash := slash_not_mem_fileNameOf place
  obtain ⟨c, cs, hname⟩ := List.exists_cons_of_ne_nil (fileNameOf_ne_nil place)
  rw [hname] at hslash
  rw [Path.isAbsolute, String.toList_append, hname, List.cons_append, List.head?_cons]
  exact beq_eq_false_iff_ne.mpr fun hc => hslash (Option.some.inj hc ▸ List.mem_cons_self)

/-! ## Extensions -/

/-- The dictionary says that it is a file. -/
def Dict.SaysFile (e : Dict Value) : Prop := ∃ a : Atom, (Key.type, .atom a) ∈ e.entries ∧ a.text? = some "file"

/-- The extensions that an extraction of a value can meet with. -/
inductive Value.Extends (v : Value) : String → Prop
  /-- a dictionary is written as text -/
  | json : v.Extends ".json"
  /-- a file that has none -/
  | missing : v.Extends ""
  | shown {e : Dict Value} {a : Atom} {extension : String} : (dict e).Within v → e.SaysFile →
      ("extension", .atom a) ∈ e.entries → a.text? = some extension → v.Extends extension
  /-- what stood there was replaced before -/
  | replaced {e : Dict Value} {u : Value} {path : Path} : (dict e).Within v → e.SaysFile →
      ("extension", u) ∈ e.entries → (∀ a, u ≠ .atom a) → v.Extends (Key.file ++ path)

/-- The extensions of all files in the value are texts without a slash. -/
def Value.PlainExtensions (v : Value) : Prop := ∀ (e : Dict Value) (u : Value), (dict e).Within v → e.SaysFile →
  ("extension", u) ∈ e.entries → ∃ extension, u = .string extension ∧ '/' ∉ extension.toList

theorem Value.Extends.slash_not_mem {v : Value} (h : v.Extends extension) (hplain : v.PlainExtensions) :
    '/' ∉ extension.toList := by
  cases h with
  | json => decide
  | missing => exact List.not_mem_nil
  | shown he hfile hmem htext =>
    obtain ⟨extension', ha, hslash⟩ := hplain _ _ he hfile hmem
    cases ha
    cases htext
    exact hslash
  | replaced he hfile hmem hatom =>
    obtain ⟨extension', rfl, -⟩ := hplain _ _ he hfile hmem
    exact (hatom _ rfl).elim

/-! ## What is made of a value before its dictionary is written -/

/-- What an extraction can make of a value: an atom comes from that atom, or stands for a dictionary. -/
def Value.Marks (v : Value) (w : Option Value) : Prop :=
  ∀ b, w = some (.atom b) → v = .atom b ∨ (∀ a, v ≠ .atom a) ∧ ∃ path, b = .string (Key.file ++ path)

theorem Value.marks_self (v : Value) : v.Marks (some v) := fun _ hb => .inl (Option.some.inj hb)

theorem Value.Marks.of_dict {v : Value} {d : Dict Value} {w : Option Value} (h : (dict d).Marks w)
    (hv : ∀ a, v ≠ .atom a) : v.Marks w := by
  intro b hb
  rcases h b hb with hatom | ⟨-, hpath⟩
  · cases hatom
  · exact .inr ⟨hv, hpath⟩

theorem Value.marks_of_none {v : Value} : v.Marks none := fun _ hb => nomatch hb

/-- What is read as a text was an atom before, or stands for a dictionary. -/
theorem Value.Marks.text {v w : Value} {text : String} (h : v.Marks (some w)) (htext : w.as? .string = some text) :
    (∃ a, v = .atom a ∧ a.text? = some text) ∨ (∀ a, v ≠ .atom a) ∧ ∃ path, text = Key.file ++ path := by
  obtain ⟨b, rfl, hb⟩ := Value.exists_atom_of_text htext
  rcases h b rfl with rfl | ⟨hatom, path, rfl⟩
  · exact .inl ⟨b, rfl, hb⟩
  · exact .inr ⟨hatom, path, (Option.some.inj hb).symm⟩

/-- Every entry comes from one of that name. -/
def Dict.Marks (d : Dict Value) (done : List (String × Value)) : Prop :=
  ∀ e' ∈ done, ∃ e ∈ d.entries, e'.1 = e.1 ∧ e.2.Marks (some e'.2)

theorem Dict.Marks.text {d : Dict Value} {done : List (String × Value)} (h : d.Marks done) {name text : String}
    (hname : name.toList.head? ≠ some '/')
    (htext : (⟨done⟩ : Dict Value).findAs? name .string = some text) : ∃ v, (name, v) ∈ d.entries ∧
      ((∃ a, v = .atom a ∧ a.text? = some text) ∨ (∀ a, v ≠ .atom a) ∧ ∃ path, text = Key.file ++ path) := by
  obtain ⟨w, hw, htext⟩ := Option.bind_eq_some_iff.mp htext
  rw [Dict.find?, if_neg hname] at hw
  obtain ⟨⟨key, v⟩, hentry, heq, hmarks⟩ := h _ (Dict.mem_of_get? hw)
  cases heq
  exact ⟨v, hentry, hmarks.text htext⟩

theorem Dict.Marks.saysFile {d : Dict Value} {done : List (String × Value)} (h : d.Marks done)
    (htype : (⟨done⟩ : Dict Value).findAs? Key.type .string = some "file") : d.SaysFile := by
  obtain ⟨v, hv, ⟨a, rfl, ha⟩ | ⟨-, path, hpath⟩⟩ := h.text (by decide) htype
  · exact ⟨a, hv, ha⟩
  · -- a mark is longer than the name of the type
    have hlength := congrArg (fun text => text.toList.length) hpath
    simp only [Key.file, String.toList_append, List.length_append] at hlength
    have hfile : "file".toList.length = 4 ∧ "file:".toList.length = 5 := by decide
    omega

/-- The extension that the resource of a dictionary has when its entries were visited. -/
theorem Dict.Marks.extends {v : Value} {d : Dict Value} {done : List (String × Value)} (h : d.Marks done)
    (hd : (Value.dict d).Within v) {typeName : String} {factory : Factory σ}
    (htype : (⟨done⟩ : Dict Value).findAs? Key.type .string = some typeName)
    (hfactory : Registry.builtin.get? typeName = some factory) {w : σ} {r : Resource σ}
    (hmade : ((factory.fromCache ⟨done⟩).run w).1 = some r) {bs : Bytes} (hform : r.body.file? = some (extension, bs)) :
    v.Extends extension := by
  rcases List.mem_cons.mp (Dict.mem_of_get? hfactory) with heq | hmem
  · cases heq
    obtain ⟨f, hf, rfl⟩ := Option.map_eq_some_iff.mp hmade
    obtain ⟨data, -, rfl⟩ := Option.map_eq_some_iff.mp hf
    cases hform
    cases hextension : (⟨done⟩ : Dict Value).findAs? "extension" .string with
    | none => exact .missing
    | some extension =>
      obtain ⟨u, hu, ⟨a, rfl, ha⟩ | ⟨hatom, path, rfl⟩⟩ := h.text (by decide) hextension
      · exact .shown hd (h.saysFile htype) hu ha
      · exact .replaced hd (h.saysFile htype) hu hatom
  · cases List.mem_singleton.mp hmem
    cases hmade
    cases hform
    exact .json

/-! ## What is requested -/

/-- If a file is written, it is named after a place and has an extension that the value has. -/
def Action.Exports (dir : Path) (v : Value) : Action → Prop
  | write p _ => ∃ place extension, v.Extends extension ∧ p = Path.join dir (fileNameOf place ++ extension)
  | _ => True

theorem ensures_writeInto {P : Action → Prop} {name : String} {bs : Bytes} (hdirs : P (.makeDirs dir))
    (hwrite : P (.write (Path.join dir name) bs)) : (writeInto dir name bs).Ensures P fun _ => True := by
  refine ⟨hdirs, fun made => ?_⟩
  cases made with
  | error e => trivial
  | ok _ =>
    refine ⟨hwrite, fun written => ?_⟩
    cases written <;> trivial

theorem ensures_extractDict {v : Value} {d : Dict Value} {done : List (String × Value)} (hdone : d.Marks done)
    (hd : (Value.dict d).Within v) (spot : Spot) :
    Plan.EnsuresRun (Action.Exports dir v) (extractDict dir (.builtin : Registry σ) spot ⟨done⟩)
      fun reply => (Value.dict d).Marks reply.value := by
  intro w
  have hkeep : (Value.dict d).Marks (some (.dict ⟨done⟩)) := by rintro _ ⟨⟩
  cases hroot : spot.isRoot with
  | true =>
    simp only [extractDict, hroot, if_true]
    exact hkeep
  | false =>
    cases htype : (⟨done⟩ : Dict Value).findAs? Key.type .string with
    | none =>
      simp only [extractDict, hroot, Bool.false_eq_true, if_false, htype]
      exact hkeep
    | some typeName =>
      cases hfactory : (Registry.builtin : Registry σ).get? typeName with
      | none =>
        simp only [extractDict, hroot, Bool.false_eq_true, if_false, htype, hfactory]
        exact hkeep
      | some factory =>
        obtain ⟨⟨made, w₁⟩, hmade⟩ : ∃ result, (factory.fromCache ⟨done⟩).run w = result := ⟨_, rfl⟩
        cases made with
        | none =>
          rw [extractDict_none hroot htype hfactory hmade]
          exact hkeep
        | some r =>
          rw [extractDict_some hroot htype hfactory hmade]
          have hwrites := Registry.writesBodies_builtin typeName factory hfactory _ w r (by rw [hmade]) dir
            (fileNameOf spot.place)
          have hreply (written : Except Fault (Option Path)) :
              (Value.dict d).Marks (replyFor spot ⟨done⟩ written).value := by
            rcases written with f | _ | path
            · exact hkeep
            · exact hkeep
            · rintro b ⟨⟩
              refine .inr ⟨?_, path, rfl⟩
              rintro _ ⟨⟩
          rw [hwrites]
          cases hform : r.body.file? with
          | none => exact hkeep
          | some form =>
            have hextends := hdone.extends hd htype hfactory (by rw [hmade]) hform
            exact (ensures_writeInto trivial ⟨spot.place, form.1, hextends, rfl⟩).bind fun written _ => hreply written

section
variable {v root : Value}

theorem assured_keep (trail : List Step) {w : Value} (hw : v.Marks (some w)) :
    Visiting.Assured (Plan.ensured (Action.Exports dir root))
      (Visiting.call (fun _ w => pure (.keep w) : Spot → Value → StateT σ Script Reply) trail w) v.Marks :=
  .call fun _ _ => hw

theorem assured_broken {h : Hooks (StateT σ Script)} (trail : List Step) (source : Source) :
    Visiting.Assured (Plan.ensured (Action.Exports dir root)) ((Tree.broken source).visit h trail) v.Marks :=
  .bind (.report _) fun _ _ => .pure Value.marks_of_none

end

/-- What an extraction requests for a value, and what it makes of it. -/
theorem assured_extract {root : Value} (v : Value) (hv : ∀ u : Value, u.Within v → u.Within root) (trail : List Step) :
    Visiting.Assured (Plan.ensured (Action.Exports dir root))
      (v.tree.visit { Hooks.keep with onDict := extractDict dir (.builtin : Registry σ) } trail) v.Marks := by
  induction v using Value.induction_opened generalizing trail with
  | atom a => exact assured_keep trail (Value.marks_self _)
  | list items ih =>
    rw [Value.tree_list, Tree.visit]
    refine (Visiting.Assured.visitItems (fun t ht trail => ?_) 0).bind fun done _ => assured_keep trail ?_
    · obtain ⟨v, hmem, rfl⟩ := List.mem_map.mp ht
      exact (ih v hmem (fun u hu => hv u (.item hmem hu)) trail).mono fun _ _ => trivial
    · rintro _ ⟨⟩
  | dict d ih =>
    rw [Value.tree_dict, Tree.visit, Dict.tree_eq, Dict.map, Dict.visit]
    refine (Visiting.Assured.visitEntries (Q := fun e w => ∃ entry ∈ d.entries, e.1 = entry.1 ∧ entry.2.Marks w)
      fun t ht trail => ?_).bind fun done hdone => .call fun issues => ?_
    · obtain ⟨entry, hentry, rfl⟩ := List.mem_map.mp ht
      exact (ih entry hentry (fun u hu => hv u (.entry hentry hu)) trail).mono fun w hw => ⟨entry, hentry, rfl, hw⟩
    · refine ensures_extractDict (fun e' he' => ?_) (hv _ .self) _
      obtain ⟨_, _, hname, entry, hentry, hsame, hmarks⟩ := hdone e' he'
      exact ⟨entry, hentry, hname.trans hsame, hmarks⟩
  | block b ih =>
    rw [Value.tree_block]
    cases hload : b.load with
    | ok d =>
      exact (ih d hload (fun u hu => hv u (.block hload hu)) trail).mono fun w hw => hw.of_dict (by rintro _ ⟨⟩)
    | error f => exact assured_broken trail _
  | saved p ih =>
    rw [Value.tree_saved]
    split
    · rename_i hcontent
      cases hload : p.loadDict with
      | ok d =>
        exact (ih hcontent d hload (fun u hu => hv u (.saved hcontent hload hu)) trail).mono fun w hw =>
          hw.of_dict (by rintro _ ⟨⟩)
      | error f => exact assured_broken trail _
    · exact assured_keep trail (Value.marks_self _)

/-- Whatever is answered, each file is named after a place and has an extension that the pack has. -/
theorem Dict.asks_extract (dir : Path) (d : Dict Value) (w : σ) :
    ((d.extract dir .builtin).run w).Asks (Action.Exports dir (.dict d)) := by
  have hall : Plan.EnsuresRun (Action.Exports dir (.dict d)) (d.extract dir (.builtin : Registry σ)) fun _ => True :=
    Assurance.visitRoot (assured_extract (.dict d) (fun _ h => h) [])
  exact (hall w).asks

/-! ## Inside the directory -/

/-- Every file that an extraction writes is named after the place of a node and has an extension that the pack has, so
the name alone tells whether it is inside the directory: it is unless the extension leads up and not down again. If no
extension in the pack has a slash, all files are inside, but for a name of two points, which names no file. -/
theorem Dict.extract_inside (m : FileSystem S) (s : S) (home : Place) (dir : Path) (d : Dict Value) (w : σ) {p : Path}
    {bs : Bytes} (hwrite : .write p bs ∈ m.actions s ((d.extract dir .builtin).run w)) :
    ∃ place extension, (Value.dict d).Extends extension ∧ p = Path.join dir (fileNameOf place ++ extension) ∧
      (Path.Inside home dir p ↔
        (Path.target home dir).rtake (Path.course (fileNameOf place ++ extension)).ups <+:
          (Path.course (fileNameOf place ++ extension)).down) ∧
      ((Value.dict d).PlainExtensions → fileNameOf place ++ extension ≠ ".." → Path.Inside home dir p) := by
  obtain ⟨place, extension, hextends, rfl⟩ := FileSystem.of_mem_actions (asks_extract dir d w) _ hwrite
  refine ⟨place, extension, hextends, rfl, ?_, fun hplain hup => ?_⟩
  · exact Path.inside_join_iff home dir (isAbsolute_fileNameOf_append place extension)
  · refine Path.inside_join_of_name home dir ?_ hup
    rw [String.toList_append, List.mem_append, not_or]
    exact ⟨slash_not_mem_fileNameOf place, hextends.slash_not_mem hplain⟩

/-- A pack with one file in it, of one byte. -/
def packedFile (name extension : String) : Dict Value :=
  ⟨[(name, .dict ⟨[(Key.type, .string "file"), ("data", .bytes [0]), ("extension", .string extension)]⟩)]⟩

theorem plainExtensions_packedFile {name extension : String} (h : '/' ∉ extension.toList) :
    (Value.dict (packedFile name extension)).PlainExtensions := by
  rintro e u (_ | _ | ⟨hmem, he⟩) ⟨a, ha, -⟩ hu
  · -- the pack itself has no type
    cases List.mem_singleton.mp ha
  · rw [List.mem_singleton.mp hmem] at he
    cases he with
    | self => exact ⟨extension, by simpa [Key.type] using hu, h⟩
    | entry hfield he =>
      simp only [List.mem_cons, List.not_mem_nil, or_false] at hfield
      rcases hfield with rfl | rfl | rfl <;> cases he

/-- The actions of an extraction of one file into the directory `out` of an empty disk. -/
def extractOne (name extension : String) : List Action :=
  Disk.system.actions Command.blankDisk (((packedFile name extension).extract "out" .builtin).run ())

theorem Dict.extract_inside_packedFile :
    .write "out/a.txt" [0] ∈ extractOne "a" ".txt" ∧ Path.Inside [] "out" "out/a.txt" := by
  have hwrite : .write "out/a.txt" [0] ∈ extractOne "a" ".txt" := List.mem_of_getElem? (i := 1) (by rfl)
  obtain ⟨place, extension, -, hp, -, hinside⟩ := Dict.extract_inside Disk.system Command.blankDisk [] "out"
    (packedFile "a" ".txt") () hwrite
  refine ⟨hwrite, hinside (plainExtensions_packedFile (by decide)) fun hup => ?_⟩
  rw [hup] at hp
  exact absurd hp (by decide)

/-- An extension leads out of the directory, and the file is written there. -/
theorem Dict.not_extract_inside_of_extension :
    (∃ p bs, .write p bs ∈ extractOne ".." "/evil" ∧ ¬Path.Inside [] "out" p) ∧
      ((((packedFile ".." "/evil").extract "out" .builtin).run ()).runOn Command.blankDisk).2.files.read "evil" =
        .ok [0] :=
  ⟨⟨"out/../evil", [0], List.mem_of_getElem? (i := 1) (by rfl), by decide⟩, by decide +kernel⟩

end AssetPack
