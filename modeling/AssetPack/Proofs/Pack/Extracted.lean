import AssetPack.Pack.Extraction
import AssetPack.Proofs.Command.Transparent
import AssetPack.Proofs.Files.Inside
import AssetPack.Proofs.Files.Written
import AssetPack.Proofs.Visit.Followed
import AssetPack.Resource.Builtin

/-!
# The files of an extraction

What an extraction replaces, and the files that are to hold it, can be told without a disk. If the extraction reports
nothing, then every such file is there and holds what the last of the nodes wrote that go into it. The name of a file
is made of the place of its node, and different places can give the same name: then the earlier node is lost.
-/
namespace AssetPack
variable {σ : Type} {registry : Registry σ} {dir : Path} {d : Dict Value} {w : σ} {before after : Disk}

/-! ## What is to be written -/

/-- The file that stands for a resource: its extension and its bytes. -/
def Body.file? : Body → Option (String × Bytes)
  | .file data extension _ => some (extension, data)
  | .fields d => some (".json", Bytes.ofString d.jsonText)
  | .other => none

/-- The resource is written as what it is seen to be. -/
def Resource.WritesBody (r : Resource σ) : Prop :=
  ∀ dir name, r.toFile dir name = match r.body.file? with
    | some (extension, bs) => writeInto dir (name ++ extension) bs
    | none => return .ok none

/-- All resources that are restored are written as what they are seen to be. -/
def Registry.WritesBodies (registry : Registry σ) : Prop :=
  ∀ typeName factory, registry.get? typeName = some factory →
    ∀ d w r, ((factory.fromCache d).run w).1 = some r → r.WritesBody

theorem FileResource.writesBody (f : FileResource) : (f.toResource : Resource σ).WritesBody := fun _ _ => rfl

theorem DictResource.writesBody (r : DictResource) : (r.toResource : Resource σ).WritesBody := fun _ _ => rfl

theorem Registry.writesBodies_builtin : (builtin : Registry σ).WritesBodies := by
  intro typeName factory hfactory d w r hr
  rw [get?, Dict.get?, builtin, List.lookup_cons, List.lookup_cons] at hfactory
  split at hfactory
  · cases hfactory
    obtain ⟨f, -, rfl⟩ := Option.map_eq_some_iff.mp hr
    exact f.writesBody
  · split at hfactory
    · cases hfactory
      cases hr
      exact DictResource.writesBody _
    · cases hfactory

/-- A type may be added if its resources are written as what they are seen to be, such as those without a form of a
file. -/
theorem Registry.WritesBodies.register (h : registry.WritesBodies) {f : Factory σ}
    (hf : ∀ d w r, ((f.fromCache d).run w).1 = some r → r.WritesBody) (typeName : String) :
    (registry.register typeName f).2.WritesBodies := by
  intro other factory hfactory
  rw [Registry.register, get?, Dict.get?_set] at hfactory
  split at hfactory
  · cases hfactory
    exact hf
  · exact h other factory hfactory

/-- A node that is replaced: its place, and the extension and the bytes of the file that stands for it. -/
structure Extracted where
  place : String
  extension : String
  bytes : Bytes
  deriving DecidableEq

namespace Extracted

/-- The name of the file. -/
def name (e : Extracted) : String := fileNameOf e.place ++ e.extension

/-- The path of the file in a directory. -/
def path (dir : Path) (e : Extracted) : Path := Path.join dir e.name

end Extracted

/-- What takes the place of a dictionary if nothing goes wrong. What is to be written is noted. -/
def noteDict (dir : Path) (registry : Registry σ) (s : Spot) (d : Dict Value) :
    StateM (σ × List Extracted) Reply := do
  let keep := Reply.keep (.dict d)
  if s.isRoot then return keep
  else
    match (d.findAs? Key.type .string).bind registry.get? with
    | none => return keep
    | some factory =>
      let (w, noted) ← get
      let (made, w) := (factory.fromCache d).run w
      match made.bind (·.body.file?) with
      | none =>
        set (w, noted)
        return keep
      | some (extension, bs) =>
        let e : Extracted := ⟨s.place, extension, bs⟩
        set (w, noted ++ [e])
        return .keep (.string (Key.file ++ e.path dir))

/-- What an extraction makes of a dictionary if nothing goes wrong, and the nodes that it replaces, in order. -/
def Dict.extracted (dir : Path) (registry : Registry σ) (d : Dict Value) (w : σ) : Visited × List Extracted :=
  let hooks : Hooks (StateM (σ × List Extracted)) := { Hooks.keep with onDict := noteDict dir registry }
  let (visited, _, noted) := (d.visitRoot hooks).run (w, [])
  (visited, noted)

/-! ## What is written -/

/-- The disk is a part of the state. -/
def Execution.onDisk (σ : Type) : Execution (StateT σ Script) (σ × Disk) where
  run x s :=
    let ((a, w), d) := (x.run s.1).runOn s.2
    (a, w, d)
  run_pure _ _ := rfl
  run_bind x f s := by rw [StateT.run_bind, Script.runOn_bind]

theorem runOn_writeInto (dir : Path) (name : String) (bs : Bytes) (d : Disk) :
    (writeInto dir name bs).runOn d = match d.makeDirs dir with
      | (.error e, d) => (.error (.file e), d)
      | (.ok (), d) => match d.write (Path.join dir name) bs with
        | (.error e, d) => (.error (.file e), d)
        | (.ok (), d) => (.ok (some (Path.join dir name)), d) := by
  have hdirs : (Script.makeDirs dir).runOn d = d.makeDirs dir := rfl
  have hwrite (d : Disk) : (Script.write (Path.join dir name) bs).runOn d = d.write (Path.join dir name) bs := rfl
  rw [writeInto, Script.runOn_bind, hdirs]
  obtain ⟨made, d⟩ := d.makeDirs dir
  cases made with
  | error e => rfl
  | ok _ =>
    dsimp only
    rw [Script.runOn_bind, hwrite]
    obtain ⟨written, d⟩ := d.write (Path.join dir name) bs
    cases written <;> rfl

namespace Disk
variable {noted : List Extracted} {p q : Path} {bs : Bytes} {place : Place}

/-- The file of every node holds what was written for it, unless a later node goes into the same file. -/
def Holds (d : Disk) (dir : Path) : List Extracted → Prop
  | [] => True
  | e :: later => (d.files.read (e.path dir) = .ok e.bytes ∨ ∃ f ∈ later, d.SamePlace (e.path dir) (f.path dir)) ∧
      d.Holds dir later

theorem Later.samePlace (h : before.Later after) (hsame : before.SamePlace p q) : after.SamePlace p q := by
  obtain ⟨place, hp, hq⟩ := hsame
  exact ⟨place, h.resolve hp, h.resolve hq⟩

/-- As long as no file changes, nothing is lost. -/
theorem Holds.later (h : before.Holds dir noted) (hlater : before.Later after)
    (hkept : ∀ q bs, before.readAt q = .ok bs → after.readAt q = .ok bs) : after.Holds dir noted := by
  induction noted with
  | nil => trivial
  | cons e rest ih =>
    obtain ⟨hfirst, hrest⟩ := h
    refine ⟨?_, ih hrest⟩
    rcases hfirst with hread | ⟨f, hf, hsame⟩
    · obtain ⟨place, hplace, hread⟩ := exists_of_read hread
      exact .inl ((read_of_resolve (hlater.resolve hplace)).trans (hkept place _ hread))
    · exact .inr ⟨f, hf, hlater.samePlace hsame⟩

/-- One more file is written, in the place of an earlier one or not. -/
theorem Holds.wrote (h : before.Holds dir noted) (hlater : before.Later after) {e : Extracted}
    (hwrote : before.Wrote after (e.path dir) e.bytes place) : after.Holds dir (noted ++ [e]) := by
  induction noted with
  | nil => exact ⟨.inl ((read_of_resolve hwrote.resolve).trans hwrote.readAt), trivial⟩
  | cons e' rest ih =>
    obtain ⟨hfirst, hrest⟩ := h
    refine ⟨?_, ih hrest⟩
    rcases hfirst with hread | ⟨f, hf, hsame⟩
    · obtain ⟨q, hq, hread⟩ := exists_of_read hread
      by_cases hne : q = place
      · -- what was written there is lost, and `e` is the later node
        subst hne
        exact .inr ⟨e, List.mem_append_right _ (List.mem_singleton_self e), q, hlater.resolve hq, hwrote.resolve⟩
      · exact .inl ((read_of_resolve (hlater.resolve hq)).trans ((hwrote.readAt_of_ne q hne).trans hread))
    · exact .inr ⟨f, List.mem_append_left _ hf, hlater.samePlace hsame⟩

/-- A node goes into its file, or an error is reported. -/
theorem holds_writeInto (hd : before.Sound) (h : before.Holds dir noted) (e : Extracted)
    {written : Except Fault (Option Path)} (hrun : (writeInto dir e.name e.bytes).runOn before = (written, after)) :
    (∃ f, written = .error f) ∨
      written = .ok (some (e.path dir)) ∧ after.Sound ∧ after.Holds dir (noted ++ [e]) := by
  have hlater : before.Later (before.makeDirs dir).2 := later_makeDirsTo hd _ dir
  have hholds := h.later hlater fun q bs => readAt_makeDirsTo _ dir
  rw [runOn_writeInto] at hrun
  split at hrun
  · cases hrun
    exact .inl ⟨_, rfl⟩
  · rename_i d hmade
    rw [hmade] at hlater hholds
    have hlater' := later_write hlater.sound (e.path dir) e.bytes
    split at hrun
    · cases hrun
      exact .inl ⟨_, rfl⟩
    · rename_i d' hwritten
      cases hrun
      obtain ⟨place, hwrote⟩ := wrote_of_write hlater.sound hwritten
      rw [Extracted.path, hwritten] at hlater'
      exact .inr ⟨rfl, hlater'.sound, hholds.wrote hlater' hwrote⟩

/-- With plain names that are all different nothing is lost. -/
theorem Holds.read (h : after.Holds dir noted) (hplain : ∀ e ∈ noted, Path.Plain e.name)
    (hdistinct : (noted.map Extracted.name).Nodup) : ∀ e ∈ noted, after.files.read (e.path dir) = .ok e.bytes := by
  induction noted with
  | nil => exact fun _ he => nomatch he
  | cons e rest ih =>
    obtain ⟨hfirst, hrest⟩ := h
    obtain ⟨hnew, hdistinct⟩ := List.nodup_cons.mp hdistinct
    obtain ⟨hname, hplain⟩ := List.forall_mem_cons.mp hplain
    refine List.forall_mem_cons.mpr ⟨hfirst.resolve_right ?_, ih hrest hplain hdistinct⟩
    rintro ⟨f, hf, hsame⟩
    have hnames : e.name = f.name := hsame.name_eq hname (hplain f hf)
    exact hnew (hnames ▸ List.mem_map_of_mem hf)

end Disk

/-! ## The two visits -/

/-- The disk holds what was noted so far. -/
structure Noted (dir : Path) (s : σ × Disk) (t : σ × List Extracted) : Prop where
  world : t.1 = s.1
  sound : s.2.Sound
  holds : s.2.Holds dir t.2

/-- What takes the place of a dictionary once its resource was to be written. -/
def replyFor (spot : Spot) (d : Dict Value) : Except Fault (Option Path) → Reply
  | .ok (some path) => .keep (.string (Key.file ++ path))
  | .ok none => .keep (.dict d)
  | .error f => ⟨some (.dict d), [.notWritten spot.place f]⟩

section
variable {spot : Spot} {typeName : String} {factory : Factory σ} {w₁ : σ} {noted : List Extracted}

theorem extractDict_none (hroot : spot.isRoot = false) (htype : d.findAs? Key.type .string = some typeName)
    (hfactory : registry.get? typeName = some factory) (hmade : (factory.fromCache d).run w = (none, w₁)) :
    (extractDict dir registry spot d).run w = pure (⟨some (.dict d), [.notLoaded typeName spot.place]⟩, w₁) := by
  simp only [extractDict, hroot, Bool.false_eq_true, if_false, htype, hfactory, StateT.run_bind, StateT.run_get,
    pure_bind, hmade, StateT.run_set, StateT.run_pure, Reply.keep]

theorem extractDict_some (hroot : spot.isRoot = false) (htype : d.findAs? Key.type .string = some typeName)
    (hfactory : registry.get? typeName = some factory) {r : Resource σ}
    (hmade : (factory.fromCache d).run w = (some r, w₁)) : (extractDict dir registry spot d).run w =
      r.toFile dir (fileNameOf spot.place) >>= fun written => pure (replyFor spot d written, w₁) := by
  simp only [extractDict, hroot, Bool.false_eq_true, if_false, htype, hfactory, StateT.run_bind, StateT.run_get,
    pure_bind, hmade, StateT.run_set, StateT.run_monadLift, bind_assoc]
  refine congrArg (Plan.bind _) (funext fun written => ?_)
  match written with
  | .ok (some path) => rfl
  | .ok none => rfl
  | .error f => rfl

theorem run_extractDict_none (hroot : spot.isRoot = false) (htype : d.findAs? Key.type .string = some typeName)
    (hfactory : registry.get? typeName = some factory) (hmade : (factory.fromCache d).run w = (none, w₁)) :
    (Execution.onDisk σ).run (extractDict dir registry spot d) (w, before) =
      (⟨some (.dict d), [.notLoaded typeName spot.place]⟩, w₁, before) := by
  simp only [Execution.onDisk, extractDict_none hroot htype hfactory hmade]
  rfl

theorem run_extractDict_some (hroot : spot.isRoot = false) (htype : d.findAs? Key.type .string = some typeName)
    (hfactory : registry.get? typeName = some factory) {r : Resource σ}
    (hmade : (factory.fromCache d).run w = (some r, w₁)) :
    (Execution.onDisk σ).run (extractDict dir registry spot d) (w, before) =
      let written := (r.toFile dir (fileNameOf spot.place)).runOn before
      (replyFor spot d written.1, w₁, written.2) := by
  simp only [Execution.onDisk, extractDict_some hroot htype hfactory hmade, Script.runOn_bind]
  rfl

theorem run_noteDict (hroot : spot.isRoot = false) (htype : d.findAs? Key.type .string = some typeName)
    (hfactory : registry.get? typeName = some factory) {made : Option (Resource σ)}
    (hmade : (factory.fromCache d).run w = (made, w₁)) :
    (Execution.plain _).run (noteDict dir registry spot d) (w, noted) = match made.bind (·.body.file?) with
      | none => (.keep (.dict d), w₁, noted)
      | some (extension, bs) =>
        let e : Extracted := ⟨spot.place, extension, bs⟩
        (.keep (.string (Key.file ++ e.path dir)), w₁, noted ++ [e]) := by
  have hrun (next : σ × List Extracted → StateM (σ × List Extracted) Reply) :
      (Execution.plain _).run (get >>= next) (w, noted) = (next (w, noted)).run (w, noted) := rfl
  simp only [noteDict, hroot, Bool.false_eq_true, if_false, htype, hfactory, Option.bind_some]
  rw [hrun]
  simp only [hmade]
  cases made.bind (·.body.file?) <;> rfl

/-- A resource that was restored is noted when it was written. Else an issue is reported. -/
theorem mirrors_extractDict_of_factory (hregistry : registry.WritesBodies) (hroot : spot.isRoot = false)
    (htype : d.findAs? Key.type .string = some typeName) (hfactory : registry.get? typeName = some factory) :
    Reply.Mirrors (.onDisk σ) (.plain _) (Noted dir) (extractDict dir registry spot d)
      (noteDict dir registry spot d) := by
  rintro ⟨w, before⟩ ⟨w', noted⟩ ⟨hworld, hsound, hholds⟩ hissues
  obtain rfl : w = w' := hworld.symm
  obtain ⟨⟨made, w₁⟩, hmade⟩ : ∃ result, (factory.fromCache d).run w = result := ⟨_, rfl⟩
  rw [run_noteDict hroot htype hfactory hmade]
  cases made with
  | none =>
    rw [run_extractDict_none hroot htype hfactory hmade] at hissues
    cases (Issue.audible_of_own (i := .notLoaded typeName spot.place) trivial).symm.trans hissues
  | some r =>
    rw [run_extractDict_some hroot htype hfactory hmade] at hissues ⊢
    have hwrites := hregistry typeName factory hfactory d w r (by rw [hmade]) dir (fileNameOf spot.place)
    rw [Option.bind_some]
    cases hform : r.body.file? with
    | none =>
      rw [hform] at hwrites
      rw [hwrites]
      exact ⟨rfl, rfl, hsound, hholds⟩
    | some form =>
      let e : Extracted := ⟨spot.place, form.1, form.2⟩
      have hfile : r.toFile dir (fileNameOf spot.place) = writeInto dir e.name e.bytes := by
        rw [hwrites, hform]
        rfl
      rw [hfile] at hissues ⊢
      generalize hrun : (writeInto dir e.name e.bytes).runOn before = result at hissues ⊢
      obtain ⟨written, after⟩ := result
      rcases Disk.holds_writeInto hsound hholds e hrun with ⟨f, rfl⟩ | ⟨rfl, hsound', hholds'⟩
      · cases (Issue.audible_of_own (i := .notWritten e.place f) trivial).symm.trans hissues
      · exact ⟨rfl, rfl, hsound', hholds'⟩

theorem mirrors_extractDict (hregistry : registry.WritesBodies) (dir : Path) (spot : Spot) (d : Dict Value) :
    Reply.Mirrors (.onDisk σ) (.plain _) (Noted dir) (extractDict dir registry spot d)
      (noteDict dir registry spot d) := by
  have hkeep : Reply.Mirrors (.onDisk σ) (.plain _) (Noted dir) (pure (.keep (.dict d))) (pure (.keep (.dict d))) :=
    Reply.mirrors_pure (.keep (.dict d))
  cases hroot : spot.isRoot with
  | true => simpa only [extractDict, noteDict, hroot, if_true] using hkeep
  | false =>
    cases htype : d.findAs? Key.type .string with
    | none =>
      simpa only [extractDict, noteDict, hroot, Bool.false_eq_true, if_false, htype, Option.bind_none] using hkeep
    | some typeName =>
      cases hfactory : registry.get? typeName with
      | none =>
        simpa only [extractDict, noteDict, hroot, Bool.false_eq_true, if_false, htype, Option.bind_some, hfactory]
          using hkeep
      | some factory => exact mirrors_extractDict_of_factory hregistry hroot htype hfactory

end

/-- If an extraction reports nothing, it makes of the dictionary what was to be made of it. Then the file of each
node that it replaced holds what was written for that node, but for those that were written again for a later node;
so with plain names that are all different nothing is lost. -/
theorem Dict.extract_holds (hregistry : registry.WritesBodies) (hbefore : before.Sound) (dir : Path) (d : Dict Value)
    (w : σ) : let outcome := ((d.extract dir registry).run w).runOn before
    let noted := (d.extracted dir registry w).2
    outcome.1.1.issues = [] → outcome.1.1 = (d.extracted dir registry w).1 ∧ outcome.2.Holds dir noted ∧
      ((∀ e ∈ noted, Path.Plain e.name) → (noted.map Extracted.name).Nodup →
        ∀ e ∈ noted, outcome.2.files.read (e.path dir) = .ok e.bytes) := by
  intro outcome noted hissues
  have hhooks : Hooks.Mirror (.onDisk σ) (.plain _) (Noted dir)
      ({ Hooks.keep with onDict := extractDict dir registry } : Hooks (StateT σ Script))
      { Hooks.keep with onDict := noteDict dir registry } :=
    ⟨fun _ v => Reply.mirrors_pure (.keep v), fun _ => mirrors_extractDict hregistry dir _⟩
  obtain ⟨hvisited, hend⟩ := hhooks.visitRoot (s := (w, before)) (t := (w, [])) ⟨rfl, hbefore, trivial⟩ hissues
  have hholds : outcome.2.Holds dir noted := hend.holds
  exact ⟨hvisited.symm, hholds, hholds.read⟩

/-- Two dictionaries of the built-in type `dict`, of which each holds a number. -/
def twoDicts (name other : String) : Dict Value :=
  let node (n : Int32) : Value := .dict ⟨[(Key.type, .string "dict"), ("x", .int n)]⟩
  ⟨[(name, node 1), (other, node 2)]⟩

/-- An extraction into the directory `out` of an empty disk. -/
def extractTwo (name other : String) : (Visited × Unit) × Disk :=
  (((twoDicts name other).extract "out" .builtin).run ()).runOn Command.blankDisk

theorem Dict.extract_holds_twoDicts :
    (extractTwo "a" "b").1.1.issues = [] ∧
      (extractTwo "a" "b").1.1 = ((twoDicts "a" "b").extracted "out" .builtin ()).1 ∧
      ∀ e ∈ ((twoDicts "a" "b").extracted "out" .builtin ()).2,
        (extractTwo "a" "b").2.files.read (e.path "out") = .ok e.bytes := by
  have hissues : (extractTwo "a" "b").1.1.issues = [] := by decide +kernel
  have hnames : ∀ e ∈ ((twoDicts "a" "b").extracted "out" .builtin ()).2, '/' ∉ e.name.toList ∧
      e.name.toList ≠ [] ∧ e.name.toList ≠ ['.'] ∧ e.name.toList ≠ ['.', '.'] := by decide +kernel
  have hdistinct : (((twoDicts "a" "b").extracted "out" .builtin ()).2.map Extracted.name).Nodup := by decide +kernel
  have hholds := Dict.extract_holds Registry.writesBodies_builtin Command.sound_blankDisk "out" (twoDicts "a" "b") ()
  rw [extractTwo] at hissues ⊢
  obtain ⟨hvisited, -, hread⟩ := hholds hissues
  refine ⟨hissues, hvisited, hread (fun e he => ?_) hdistinct⟩
  obtain ⟨hslash, hnil, hhere, hup⟩ := hnames e he
  exact ⟨hslash, hnil, hhere, hup⟩

/-- Places that differ can give the same file name, and nothing is reported. -/
theorem Dict.not_extract_holds_of_names :
    (extractTwo "a b" "a_b").1.1.issues = [] ∧
      ¬∀ e ∈ ((twoDicts "a b" "a_b").extracted "out" .builtin ()).2,
        (extractTwo "a b" "a_b").2.files.read (e.path "out") = .ok e.bytes := by
  decide +kernel

end AssetPack
