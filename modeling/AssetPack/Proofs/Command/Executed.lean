import AssetPack.Command.Build
import AssetPack.Proofs.Description.Passes
import AssetPack.Proofs.Files.Systems

/-!
# Commands on a file system

What a command does to the state of a file system, and which commands leave all of it in place.
-/
namespace AssetPack

/-!
## What a command does

A command that is carried out on a file system prints, may fail and leaves another state. Its looks see the state as
it is when they come, and a build that finds something to do compiles the description from there.
-/

/-- Without a cache a compile of a file only looks. -/
theorem run_compileFile_none {σ : Type} (fuel : Nat) (o : Options σ) (p : Path) (w : σ) :
    ((compileFile fuel o p .none).run w).run = (((compileSource fuel o p).run).run w).run.toScript := by
  have hrun : (compileFile fuel o p .none).run w =
      OptionT.mk (((compileSource fuel o p).run).run w).run.toScript >>= fun r => pure (r.1, r.2) := by
    unfold compileFile
    simp only [pure_bind, StateT.run_bind]
    congr 1
    funext r
    obtain ⟨r, w⟩ := r
    cases r <;> rfl
  rw [hrun]
  exact bind_pure _

namespace Compiling.Ends
variable {σ : Type} {fs : Files} {fuel : Nat} {o : Options σ} {p p' q : Path} {w w' : σ} {d : Dict Value}

/-- A description that compiles can be read. -/
theorem exists_read (h : Ends fs (compileSource fuel o p) w d w') : ∃ bs, fs.read p = .ok bs := by
  change Compiling.eval fs _ w = _ at h
  rw [compileSource, eval_look_bind] at h
  cases htext : (Look.readText p).eval fs with
  | error e =>
    rw [htext] at h
    cases h
  | ok text => exact Look.read_of_readText fs htext

/-- A compile only needs to read the description and to know its canonical name. -/
theorem of_same (h : Ends fs (compileSource fuel o p) w d w') (hread : fs.read p' = fs.read p)
    (hq : fs.canonical p = .ok q) (hq' : fs.canonical p' = .ok q) : Ends fs (compileSource fuel o p') w d w' := by
  have hsame : (Look.readText p').eval fs = (Look.readText p).eval fs := by
    rw [Look.eval_readText, Look.eval_readText, hread]
  have hsettle : (Look.settle p').eval fs = (Look.settle p).eval fs := by
    rw [Look.eval_settle, Look.eval_settle, hq, hq']
  change Compiling.eval fs _ w = _ at h
  change Compiling.eval fs _ w = _
  rw [compileSource, eval_look_bind] at h ⊢
  rw [hsame]
  cases htext : (Look.readText p).eval fs with
  | error e =>
    rw [htext] at h
    cases h
  | ok text =>
    rw [htext] at h
    dsimp only at h ⊢
    rw [eval_look_bind] at h ⊢
    rw [hsettle]
    exact h

end Compiling.Ends

namespace Command
variable {S α β : Type}

/-- What a command in progress comes to on a file system, and the state after it. -/
def exec (m : FileSystem S) (s : S) (x : Acting α) (t : Transcript) : Option (Except Failure α × Transcript) × S :=
  m.run s (x.run.run t).run

variable {m : FileSystem S} {s : S} {t : Transcript}

theorem exec_bind (x : Acting α) (f : α → Acting β) : exec m s (x >>= f) t = match exec m s x t with
    | (some (.ok a, t'), s') => exec m s' (f a) t'
    | (some (.error e, t'), s') => (some (.error e, t'), s')
    | (none, s') => (none, s') := by
  have hrun : (x >>= f).run.run t = x.run.run t >>= fun r => (ExceptT.bindCont f r.1).run r.2 := rfl
  rw [exec, hrun, OptionT.run_bind, Option.elimM, m.run_bind, exec]
  generalize m.run s (x.run.run t).run = r
  match r with
  | (some (.ok a, t'), s') => rfl
  | (some (.error e, t'), s') => rfl
  | (none, s') => rfl

theorem exec_running (x : Running Look α) : exec m s x.toActing t = (some ((x.run.run t).eval (m.files s)), s) := by
  have hrun : (x.toActing.run.run t).run = (x.run.run t).toScript >>= fun r => pure (some r) := rfl
  rw [exec, hrun, m.run_bind, m.run_toScript]
  rfl

theorem exec_look_bind (x : Look α) (f : α → Acting β) :
    exec m s (liftM x >>= f) t = exec m s (f (x.eval (m.files s))) t := by
  have hlift : (liftM x : Acting α) = (liftM x : Running Look α).toActing := rfl
  have hrun : (liftM x : Running Look α).run.run t = (x >>= fun a => pure (a, t)) >>= fun r => pure (.ok r.1, r.2) := rfl
  rw [exec_bind, hlift, exec_running, hrun, Look.eval_bind, Look.eval_bind]
  rfl

theorem exec_optionT (y : OptionT Script α) : exec m s (liftM y : Acting α) t = match m.run s y.run with
    | (some a, s') => (some (.ok a, t), s')
    | (none, s') => (none, s') := by
  have hrun : (liftM y : Acting α).run.run t = (y >>= fun a => pure (a, t)) >>= fun r => pure (.ok r.1, r.2) := rfl
  rw [exec, hrun, OptionT.run_bind, OptionT.run_bind]
  simp only [Option.elimM, m.run_bind]
  generalize m.run s y.run = r
  match r with
  | (some a, s') => rfl
  | (none, s') => rfl

namespace BuildRequest

/-- The compile that a build makes. -/
abbrev compiling (r : BuildRequest) : Compiling Unit (Dict Value) := compileSource ample r.options r.input

/-- A build first compiles the description that it finds. -/
theorem exec_rebuild (r : BuildRequest) {outcome : Outcome}
    (h : Compiling.eval (m.files s) r.compiling () = some (outcome, ())) : exec m s r.rebuild t =
      exec m s (match outcome with
        | .error issues => do complain issues; throw (.notCompiled r.input issues.length)
        | .ok pack => r.deliver pack) t := by
  have hcompiled : exec m s (liftM ((compileFile ample r.options r.input .none).run ()) : Acting (Outcome × Unit)) t =
      (some (.ok (outcome, ()), t), s) := by
    rw [exec_optionT, run_compileFile_none, m.run_toScript]
    rw [Compiling.eval] at h
    rw [h]
  cases outcome <;> rw [rebuild, exec_bind, hcompiled]

theorem eval_isCurrent {fs : Files} (r : BuildRequest) : r.isCurrent.eval fs = true ↔ r.force = false ∧
    (allExist (r.header.toList ++ r.symbolHeader.toList)).eval fs = true ∧
      (Cache.isUpdated r.input r.outputPath).eval fs = true := by
  unfold isCurrent
  cases r.force with
  | true => exact ⟨(nomatch ·), fun h => (nomatch h.1)⟩
  | false =>
    rw [if_neg Bool.false_ne_true, Look.eval_bind]
    cases (allExist (r.header.toList ++ r.symbolHeader.toList)).eval fs with
    | true => simp
    | false => exact ⟨(nomatch ·), fun h => (nomatch h.2.1)⟩

end BuildRequest

/-- A build does nothing where it finds nothing to do. -/
theorem exec_build (r : BuildRequest) : exec m s (build r) t =
    if (Look.isFile r.input).eval (m.files s) then
      if r.isCurrent.eval (m.files s) then
        exec m s (do let (_, pack) ← (loadPack r.outputPath : Running Look _); r.announce pack true : Acting Unit) t
      else exec m s r.rebuild t
    else (some (.error (.missingInput r.input), t), s) := by
  rw [build, exec_look_bind]
  cases hthere : (Look.isFile r.input).eval (m.files s) with
  | false => rfl
  | true =>
    rw [if_pos rfl]
    refine (exec_look_bind r.isCurrent _).trans ?_
    cases r.isCurrent.eval (m.files s) <;> rfl

/-- A forced build of a description that compiles writes what was made at its output before all else. -/
theorem exec_build_of_force {r : BuildRequest} (hforce : r.force = true)
    (hfile : (Look.isFile r.input).eval (m.files s) = true) {pack : Dict Value}
    (h : Compiling.Ends (m.files s) r.compiling () pack ()) : exec m s (build r) t = exec m s (r.deliver pack) t := by
  have hcurrent : r.isCurrent.eval (m.files s) = false := by
    rw [Bool.eq_false_iff]
    intro hcurrent
    exact Bool.false_ne_true (((BuildRequest.eval_isCurrent r).mp hcurrent).1.symm.trans hforce)
  rw [exec_build, hfile, if_pos rfl, hcurrent, if_neg Bool.false_ne_true, BuildRequest.exec_rebuild r h]

end Command

/-!
## Commands that remove nothing

A build makes directories and writes files. It removes nothing.
-/

namespace Command
variable {α β : Type}

/-- A command in progress that removes nothing, whatever it has printed. -/
def Sparing (x : Acting α) : Prop := ∀ t, (x.run.run t).run.Asks Action.Sparing

namespace Sparing
variable {x : Acting α} {f : α → Acting β}

theorem pure (a : α) : Sparing (Pure.pure a) := fun _ => trivial

theorem throw (f : Failure) : Sparing (MonadExcept.throw f : Acting α) := fun _ => trivial

theorem bind (hx : Sparing x) (hf : ∀ a, Sparing (f a)) : Sparing (x >>= f) := by
  intro t
  refine Plan.Asks.bind (hx t) fun r => ?_
  match r with
  | none => trivial
  | some (.ok a, t) => exact hf a t
  | some (.error _, _) => trivial

theorem change (g : Transcript → Transcript) : Sparing (modify g : Acting Unit) := fun _ => trivial

theorem look (x : Running Look α) : Sparing x.toActing :=
  fun t => (Look.asks_toScript (x t)).bind fun _ => trivial

theorem lift {y : OptionT Script α} (h : y.run.Asks Action.Sparing) : Sparing (liftM y : Acting α) := by
  intro t
  refine Plan.Asks.bind (Plan.Asks.bind h fun r => ?_) fun r => ?_
  · cases r <;> trivial
  · cases r <;> trivial

theorem makeDirs (p : Path) : Sparing (liftM (Script.makeDirs p) : Acting (Except FileError Unit)) :=
  lift (y := OptionT.lift (Script.makeDirs p)) ⟨trivial, fun _ => trivial⟩

/-- A file is written, and the outcome is looked at. -/
theorem write_bind {f : Except FileError Unit → Acting α} (p : Path) (bs : Bytes) (hok : Sparing (f (.ok ())))
    (herror : ∀ e, Sparing (f (.error e))) : Sparing (liftM (Script.write p bs) >>= f) := by
  refine (lift (y := OptionT.lift (Script.write p bs)) ⟨trivial, fun _ => trivial⟩).bind fun written => ?_
  cases written with
  | ok _ => exact hok
  | error e => exact herror e

theorem forIn {γ δ : Type} (items : List γ) (init : δ) {f : γ → δ → Acting (ForInStep δ)}
    (h : ∀ a b, Sparing (f a b)) : Sparing (ForIn.forIn items init f) := by
  induction items generalizing init with
  | nil => exact .pure init
  | cons a rest ih =>
    rw [List.forIn_cons]
    refine (h a init).bind fun step => ?_
    cases step with
    | done b => exact .pure b
    | yield b => exact ih b

end Sparing

theorem sparing_say (lines : List String) : Sparing (say lines) := .change _

theorem sparing_prepareDirectory (p : Path) : Sparing (prepareDirectory p) := by
  refine (Sparing.makeDirs p).bind fun made => ?_
  cases made with
  | ok _ => exact .pure ()
  | error e => exact .throw _

theorem sparing_writeFile (p : Path) (bs : Bytes) : Sparing (writeFile p bs) := by
  unfold writeFile
  split
  · split
    · exact (sparing_prepareDirectory _).bind fun _ => .write_bind p bs (.pure ()) fun _ => .throw _
    · exact .write_bind p bs (.pure ()) fun _ => .throw _
  · exact .write_bind p bs (.pure ()) fun _ => .throw _

theorem sparing_writeText? (p : Option Path) (text : String) : Sparing (writeText? p text) := by
  cases p with
  | none => exact .pure ()
  | some p => exact sparing_writeFile p _

theorem sparing_writeSources (d : Dict Value) (header symbolHeader : Option Path) :
    Sparing (writeSources d header symbolHeader) :=
  (sparing_writeText? header _).bind fun _ => sparing_writeText? symbolHeader _

theorem sparing_writeSideOutputs (dir : Path) (d : Dict Value) : Sparing (writeSideOutputs dir d) := by
  refine (sparing_prepareDirectory dir).bind fun _ => Sparing.bind (.forIn _ _ fun output _ => ?_) fun _ => .pure ()
  obtain ⟨name, v⟩ := output
  dsimp only
  split
  · exact (sparing_writeFile _ _).bind fun _ => .pure _
  · exact .pure _

theorem sparing_announce (r : BuildRequest) (d : Dict Value) (current : Bool) : Sparing (r.announce d current) := by
  unfold BuildRequest.announce
  split
  · exact sparing_say _
  · split
    · exact (sparing_say _).bind fun _ => .change _
    · exact .pure ()

theorem sparing_deliver (r : BuildRequest) (d : Dict Value) : Sparing (r.deliver d) := by
  have hrest : Sparing (do writeSources d r.header r.symbolHeader; r.announce d false) :=
    (sparing_writeSources d _ _).bind fun _ => sparing_announce r d false
  refine (sparing_writeFile _ _).bind fun _ => ?_
  dsimp only
  split
  · exact (sparing_writeSideOutputs _ d).bind fun _ => hrest
  · exact hrest

theorem sparing_rebuild (r : BuildRequest) : Sparing r.rebuild := by
  refine (Sparing.lift ?_).bind fun made => ?_
  · rw [run_compileFile_none]
    exact Look.asks_toScript _
  · obtain ⟨outcome, _⟩ := made
    cases outcome with
    | error issues => exact (Sparing.change _).bind fun _ => .throw _
    | ok d => exact sparing_deliver r d

/-- A build removes nothing. -/
theorem sparing_build (r : BuildRequest) : Sparing (build r) := by
  refine (Sparing.look (liftM (Look.isFile r.input))).bind fun there => ?_
  cases there with
  | false => exact fun _ => trivial
  | true =>
    refine (Sparing.look (liftM r.isCurrent)).bind fun current => ?_
    cases current with
    | true => exact (Sparing.look (loadPack r.outputPath)).bind fun loaded => sparing_announce r loaded.2 true
    | false => exact sparing_rebuild r

end Command

end AssetPack
