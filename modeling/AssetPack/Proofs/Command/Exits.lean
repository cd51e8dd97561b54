import AssetPack.Proofs.Command.Executed
import AssetPack.Proofs.Command.Transparent
import AssetPack.Proofs.Pack.Current

/-!
# How a build ends

A build of a description that compiles, whose output can be written, ends well unless it finds nothing to do. Then it
reads its output, and it fails if a dictionary inside that is damaged: whether the output is current was told from
the outer dictionary alone.
-/
namespace AssetPack

instance Action.decidableDone : (a : Action) → (answer : a.Answer) → Decidable (a.Done answer)
  | .makeDirs _, answer => (inferInstance : DecidableEq (Except FileError Unit)) answer (.ok ())
  | .write _ _, answer => (inferInstance : DecidableEq (Except FileError Unit)) answer (.ok ())
  | .remove _, answer => (inferInstance : DecidableEq (Except FileError Unit)) answer (.ok ())
  | .look _, _ => inferInstanceAs (Decidable True)
  | .scratch, _ => inferInstanceAs (Decidable True)

instance FileSystem.decidableGrants {S : Type} (m : FileSystem S) :
    (s : S) → (actions : List Action) → Decidable (m.Grants s actions)
  | _, [] => inferInstanceAs (Decidable True)
  | s, a :: rest =>
    have := decidableGrants m (m.perform s a).2 rest
    inferInstanceAs (Decidable (_ ∧ _))

/-! ## What a command carries out -/

namespace Command
variable {S α β : Type} {m : FileSystem S} {actions more : List Action}

/-- If these actions are carried out, the command takes them and ends well, with this answer. -/
def Performs (m : FileSystem S) (x : Acting α) (actions : List Action) (a : α) : Prop :=
  ∀ s t, m.Grants s actions → ∃ t', exec m s x t = (some (.ok a, t'), m.after s actions)

namespace Performs

theorem pure (a : α) : Performs m (Pure.pure a) [] a := fun _ t _ => ⟨t, rfl⟩

theorem change (g : Transcript → Transcript) : Performs m (modify g) [] () := fun _ t _ => ⟨g t, rfl⟩

theorem bind {x : Acting α} {f : α → Acting β} {a : α} {b : β} (hx : Performs m x actions a)
    (hf : Performs m (f a) more b) : Performs m (x >>= f) (actions ++ more) b := by
  intro s t h
  obtain ⟨hfirst, hrest⟩ := FileSystem.grants_append.mp h
  obtain ⟨t', hx'⟩ := hx s t hfirst
  obtain ⟨t'', hf'⟩ := hf _ t' hrest
  refine ⟨t'', ?_⟩
  rw [exec_bind, hx', FileSystem.after_append]
  exact hf'

/-- What comes after takes no more actions. -/
theorem finish {x : Acting α} {f : α → Acting β} {a : α} {b : β} (hx : Performs m x actions a)
    (hf : Performs m (f a) [] b) : Performs m (x >>= f) actions b :=
  List.append_nil actions ▸ hx.bind hf

/-- One action, and what is done with its answer. -/
theorem action {a : Action} {f : a.Answer → Acting β} {b : β}
    (hf : ∀ answer, a.Done answer → Performs m (f answer) more b) :
    Performs m (liftM (.ask a .done : Script a.Answer) >>= f) (a :: more) b := by
  intro s t h
  have hrun : exec m s (liftM (.ask a .done : Script a.Answer)) t =
      (some (.ok (m.perform s a).1, t), (m.perform s a).2) :=
    exec_optionT (OptionT.lift (.ask a .done : Script a.Answer))
  rw [exec_bind, hrun]
  exact hf _ h.1 _ t h.2

theorem makeDirs {f : Except FileError Unit → Acting β} {b : β} (p : Path) (hf : Performs m (f (.ok ())) more b) :
    Performs m (liftM (Script.makeDirs p) >>= f) (.makeDirs p :: more) b := by
  refine action (a := .makeDirs p) fun answer hanswer => ?_
  rw [show answer = .ok () from hanswer]
  exact hf

theorem write {f : Except FileError Unit → Acting β} {b : β} (p : Path) (bs : Bytes)
    (hf : Performs m (f (.ok ())) more b) : Performs m (liftM (Script.write p bs) >>= f) (.write p bs :: more) b := by
  refine action (a := .write p bs) fun answer hanswer => ?_
  rw [show answer = .ok () from hanswer]
  exact hf

/-- A loop takes the actions for its items in order. -/
theorem forIn {γ : Type} (items : List γ) {f : γ → PUnit → Acting (ForInStep PUnit)} {g : γ → List Action}
    (h : ∀ a, Performs m (f a ⟨⟩) (g a) (.yield ⟨⟩)) :
    Performs m (ForIn.forIn items ⟨⟩ f) (items.flatMap g) ⟨⟩ := by
  induction items with
  | nil => exact .pure _
  | cons a rest ih =>
    rw [List.forIn_cons, List.flatMap_cons]
    exact (h a).bind ih

end Performs

theorem performs_prepareDirectory (p : Path) : Performs m (prepareDirectory p) [.makeDirs p] () :=
  .makeDirs p (.pure ())

/-- What is done to save a file. -/
def saving (p : Path) (bs : Bytes) : List Action :=
  (p.parent?.toList.filter (!·.isEmpty)).map .makeDirs ++ [.write p bs]

theorem performs_writeFile (p : Path) (bs : Bytes) : Performs m (writeFile p bs) (saving p bs) () := by
  unfold writeFile saving
  cases p.parent? with
  | none => exact .write p bs (.pure ())
  | some parent =>
    rw [Option.toList_some, List.filter_singleton]
    dsimp only
    cases parent.isEmpty with
    | true =>
      refine .write p bs ?_
      exact .pure ()
    | false =>
      refine (performs_prepareDirectory parent).bind ?_
      refine .write p bs ?_
      exact .pure ()

/-- What is done to save a text, if a path for it is given. -/
def savingText (p : Option Path) (text : String) : List Action := p.elim [] (saving · (Bytes.ofString text))

theorem performs_writeText? (p : Option Path) (text : String) :
    Performs m (writeText? p text) (savingText p text) () := by
  cases p with
  | none => exact .pure ()
  | some p => exact performs_writeFile p _

/-- What is done to save the side outputs of a pack. -/
def savingSides (dir : Path) (d : Dict Value) : List Action :=
  .makeDirs dir :: (((d.get? Key.outputs).bind Value.dict?).getD ∅).entries.flatMap fun (name, v) =>
    v.bytes?.elim [] (saving (Path.join dir name))

theorem performs_writeSideOutputs (dir : Path) (d : Dict Value) :
    Performs m (writeSideOutputs dir d) (savingSides dir d) () := by
  refine (performs_prepareDirectory dir).bind (Performs.finish (.forIn _ fun output => ?_) (.pure ()))
  obtain ⟨name, v⟩ := output
  dsimp only
  cases v.bytes? with
  | none => exact .pure _
  | some bs => exact (performs_writeFile _ bs).finish (.pure _)

namespace BuildRequest

/-- What is done to deliver a pack that was made. -/
def saving (r : BuildRequest) (pack : Dict Value) : List Action :=
  Command.saving r.outputPath pack.encode ++ (r.sideOutputs.elim [] (savingSides · pack) ++
    (savingText r.header (SourceText.ofBytes pack pack.encode pack.locations) ++
      savingText r.symbolHeader (SourceText.ofSymbols pack)))

theorem performs_announce (r : BuildRequest) (d : Dict Value) (current : Bool) :
    Performs m (r.announce d current) [] () := by
  unfold announce
  cases r.json with
  | true => exact .change _
  | false =>
    cases r.verbose with
    | true => exact Performs.bind (.change _) (.change _)
    | false => exact .pure ()

theorem performs_deliver (r : BuildRequest) (pack : Dict Value) : Performs m (r.deliver pack) (r.saving pack) () := by
  have hsources : Performs m (do writeSources pack r.header r.symbolHeader; r.announce pack false)
      (savingText r.header (SourceText.ofBytes pack pack.encode pack.locations) ++
        savingText r.symbolHeader (SourceText.ofSymbols pack)) () := by
    refine Performs.finish (a := ()) ?_ (performs_announce r pack false)
    exact (performs_writeText? r.header _).bind (performs_writeText? r.symbolHeader _)
  refine (performs_writeFile r.outputPath pack.encode).bind ?_
  dsimp only
  cases r.sideOutputs with
  | none => exact hsources
  | some dir => exact (performs_writeSideOutputs dir pack).bind hsources

/-! ## What a build ends with -/

/-- As far as the outer dictionary of the output tells, there is nothing to do, but a dictionary inside is damaged. -/
def Spoiled (fs : Files) (r : BuildRequest) : Prop :=
  r.isCurrent.eval fs = true ∧
    ∃ bs d f, fs.read r.outputPath = .ok bs ∧ Dict.decode bs = .ok d ∧ Pack.opened d = .error f

/-- A current output is a pack that can be read. -/
theorem exists_pack_of_isCurrent {fs : Files} {r : BuildRequest} (h : r.isCurrent.eval fs = true) :
    ∃ status bs d, fs.status r.outputPath = some status ∧ fs.read r.outputPath = .ok bs ∧ Dict.decode bs = .ok d := by
  obtain ⟨_, _, hupdated⟩ := (eval_isCurrent r).mp h
  obtain ⟨d, _, _, _, hload, -⟩ := (Cache.eval_isUpdated _ _).mp hupdated
  obtain ⟨status, bs, hstatus, hread, hdecode, -⟩ := (Cache.eval_load? _ _).mp hload
  exact ⟨status, bs, d, hstatus, hread, hdecode⟩

end BuildRequest

variable {s : S} {t : Transcript}

/-- What the report of a command says. -/
theorem run_report (x : Acting Unit) : m.run s x.report.run = match exec m s x .empty with
    | (some (.ok (), t), s') => (some ⟨0, t⟩, s')
    | (some (.error f, t), s') => (some ⟨f.exitCode, { t with errors := t.errors ++ ["error: " ++ f.message] }⟩, s')
    | (none, s') => (none, s') := by
  rw [Running.report, OptionT.run_bind, Option.elimM, m.run_bind, exec]
  generalize m.run s (x.run.run Transcript.empty).run = r
  rcases r with ⟨_ | ⟨_ | _, _⟩, _⟩ <;> rfl

theorem eval_running_bind {fs : Files} (x : Look α) (f : α → Running Look β) :
    ((liftM x >>= f : Running Look β).run.run t).eval fs = ((f (x.eval fs)).run.run t).eval fs := by
  have hrun : (liftM x >>= f : Running Look β).run.run t =
      ((x >>= fun a => pure (a, t)) >>= fun r => pure (.ok r.1, r.2)) >>= fun r =>
        (ExceptT.bindCont f r.1).run r.2 := rfl
  rw [hrun, Look.eval_bind, Look.eval_bind, Look.eval_bind]
  rfl

/-- A pack whose outer dictionary can be read is loaded if the dictionaries inside it can be. -/
theorem exec_loadPack {p : Path} {status : Status} {bs : Bytes} {d : Dict Value}
    (hstatus : (m.files s).status p = some status) (hread : (m.files s).read p = .ok bs)
    (hdecode : Dict.decode bs = .ok d) : exec m s (liftM (loadPack p) : Acting (Bytes × Dict Value)) t =
      match Pack.opened d with
      | .ok e => (some (.ok (bs, e), t), s)
      | .error f => (some (.error (.unreadableInside p f), t), s) := by
  have hthere : (Look.exists? p).eval (m.files s) = true := by
    rw [Look.exists?, Look.eval_bind, Look.eval_status, hstatus]
    rfl
  have hbytes : (Pack.readBytes p).eval (m.files s) = .ok bs := by
    rw [Pack.readBytes, Look.eval_bind, Look.eval_read, hread]
    rfl
  have hrun : exec m s (liftM (loadPack p) : Acting (Bytes × Dict Value)) t =
      (some (((loadPack p).run.run t).eval (m.files s)), s) := exec_running (loadPack p)
  rw [hrun, loadPack, eval_running_bind, hthere]
  refine (congrArg (fun r => (some r, s)) (eval_running_bind (Pack.readBytes p) _)).trans ?_
  rw [hbytes]
  dsimp only
  rw [hdecode]
  dsimp only
  cases Pack.opened d <;> rfl

/-- A build of a description that compiles, whose output can be written, ends well unless it finds nothing to do and
a dictionary inside the output is damaged. Then it fails and leaves everything as it is. -/
theorem build_exits (m : FileSystem S) (s : S) (r : BuildRequest) {pack : Dict Value}
    (hfile : (Look.isFile r.input).eval (m.files s) = true)
    (hcompiles : Compiling.Ends (m.files s) r.compiling () pack ()) (hgrants : m.Grants s (r.saving pack)) :
    ∃ report after, m.run s (build r).report.run = (some report, after) ∧
      (¬r.Spoiled (m.files s) → report.code = 0) ∧ (r.Spoiled (m.files s) → report.code = 9 ∧ after = s) := by
  rw [run_report, exec_build, if_pos hfile]
  cases hcurrent : r.isCurrent.eval (m.files s) with
  | false =>
    obtain ⟨t', hdelivered⟩ := r.performs_deliver pack s .empty hgrants
    rw [if_neg Bool.false_ne_true, r.exec_rebuild hcompiles]
    dsimp only
    rw [hdelivered]
    exact ⟨_, _, rfl, fun _ => rfl, fun h => by cases hcurrent.symm.trans h.1⟩
  | true =>
    obtain ⟨status, bs, d, hstatus, hread, hdecode⟩ := BuildRequest.exists_pack_of_isCurrent hcurrent
    have hloaded := exec_loadPack (t := .empty) hstatus hread hdecode
    rw [if_pos rfl, exec_bind, hloaded]
    cases hopened : Pack.opened d with
    | error f =>
      have hspoiled : r.Spoiled (m.files s) := ⟨hcurrent, bs, d, f, hread, hdecode, hopened⟩
      exact ⟨_, _, rfl, fun h => (h hspoiled).elim, fun _ => ⟨rfl, rfl⟩⟩
    | ok e =>
      obtain ⟨t', hannounced⟩ := r.performs_announce e true s .empty trivial
      dsimp only
      rw [hannounced]
      refine ⟨_, _, rfl, fun _ => rfl, ?_⟩
      rintro ⟨-, _, _, f, hread', hdecode', hbroken⟩
      cases hread.symm.trans hread'
      cases hdecode.symm.trans hdecode'
      cases hopened.symm.trans hbroken

/-- A disk with a description, and with these bytes at the output of its build. -/
def withOutput (bs : Bytes) : Disk :=
  history blankDisk [.write "a" (Bytes.ofString "\x7b\"x\": 1\x7d"), .write "o" bs]

/-- An output that cannot be read at all is written anew. -/
theorem build_exits_garbled : ∃ report after,
    Disk.system.run (withOutput [0]) (build (requestFor "a")).report.run = (some report, after) ∧ report.code = 0 := by
  obtain ⟨pack, ⟨⟩, hends, hgrants⟩ : ∃ pack w',
      Compiling.Ends (withOutput [0]).files (requestFor "a").compiling () pack w' ∧
        Disk.system.Grants (withOutput [0]) ((requestFor "a").saving pack) := by
    decide +kernel
  obtain ⟨report, after, hrun, hgood, -⟩ :=
    build_exits Disk.system (withOutput [0]) (requestFor "a") (by decide +kernel) hends hgrants
  have hcurrent : (requestFor "a").isCurrent.eval (withOutput [0]).files = false := by decide +kernel
  exact ⟨report, after, hrun, hgood fun h => Bool.false_ne_true (hcurrent.symm.trans h.1)⟩

/-- A pack that lists the description "a" and has an entry of one byte in the place of a dictionary. -/
def brokenInside : Dict Value := ⟨[(Key.files, .list [.string "/a"]), ("n", .block ⟨0, [0]⟩)]⟩

/-- With such a pack at its output the build fails, though it could write what it makes. -/
theorem not_build_exits_of_brokenInside : ∃ pack w',
    Compiling.Ends (withOutput brokenInside.encode).files (requestFor "a").compiling () pack w' ∧
      Disk.system.Grants (withOutput brokenInside.encode) ((requestFor "a").saving pack) ∧
      ∃ report ∈ (Disk.system.run (withOutput brokenInside.encode) (build (requestFor "a")).report.run).1,
        report.code ≠ 0 := by
  decide +kernel

end Command
end AssetPack
