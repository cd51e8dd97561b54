import AssetPack.Command.Run
import AssetPack.Proofs.Command.Exits
import AssetPack.Proofs.Pack.Sourced

/-!
# Failing without harm

A command looks before it writes. Once it has begun to write it fails only because a directory cannot be made, a file
cannot be written or resources cannot be extracted, so with any other failure every file is as it was.
-/
namespace AssetPack.Command
variable {S α β : Type} {m : FileSystem S} {s : S} {t : Transcript} {K : Failure → Prop}

/-- The failure to make a directory or to write a file. -/
def Failure.Writing (f : Failure) : Prop := f.exitCode ∈ [5, 11]

/-- A failure that comes only when files are being written. -/
def Failure.Late (f : Failure) : Prop := f.exitCode ∈ [5, 10, 11]

theorem Failure.Writing.late {f : Failure} (h : f.Writing) : f.Late := by
  rw [Writing, List.mem_cons, List.mem_singleton] at h
  rcases h with h | h <;> simp [Late, h]

/-! ## Commands that only look -/

/-- The command leaves every state as it is. -/
def Looks (m : FileSystem S) (x : Acting α) : Prop := ∀ s t, (exec m s x t).2 = s

namespace Looks

theorem running (x : Running Look α) : Looks m (liftM x : Acting α) := fun _ _ => congrArg Prod.snd (exec_running x)

theorem bind {x : Acting α} {f : α → Acting β} (hx : Looks m x) (hf : ∀ a, Looks m (f a)) : Looks m (x >>= f) := by
  intro s t
  have hs := hx s t
  rw [exec_bind]
  rcases hrun : exec m s x t with ⟨_ | ⟨_ | a, t'⟩, s'⟩
  · rwa [hrun] at hs
  · rwa [hrun] at hs
  · rw [hrun] at hs
    obtain rfl : s' = s := hs
    exact hf a s' t'

theorem forIn {γ : Type} (items : List γ) {f : γ → PUnit → Acting (ForInStep PUnit)} (h : ∀ a, Looks m (f a ⟨⟩)) :
    Looks m (ForIn.forIn items ⟨⟩ f) := by
  induction items with
  | nil => exact fun _ _ => rfl
  | cons a rest ih =>
    rw [List.forIn_cons]
    refine (h a).bind fun step => ?_
    cases step with
    | done b => exact fun _ _ => rfl
    | yield b => exact ih

end Looks

/-! ## Commands that fail in certain ways only -/

/-- The command ends, and it fails in a way of the kind `K` only. -/
def FailsBy (m : FileSystem S) (K : Failure → Prop) (x : Acting α) : Prop :=
  ∀ s t, ∃ r ∈ (exec m s x t).1, ∀ f, r.1 = .error f → K f

namespace FailsBy

theorem pure (a : α) : FailsBy m K (Pure.pure a) := fun _ _ => ⟨_, rfl, nofun⟩

theorem throw {f : Failure} (h : K f) : FailsBy m K (MonadExcept.throw f : Acting α) := by
  refine fun s t => ⟨(.error f, t), rfl, ?_⟩
  rintro _ ⟨⟩
  exact h

theorem change (g : Transcript → Transcript) : FailsBy m K (modify g) := fun _ _ => ⟨_, rfl, nofun⟩

theorem bind {x : Acting α} {f : α → Acting β} (hx : FailsBy m K x) (hf : ∀ a, FailsBy m K (f a)) :
    FailsBy m K (x >>= f) := by
  intro s t
  obtain ⟨⟨r, t'⟩, hmem, hr⟩ := hx s t
  rw [exec_bind]
  rcases hrun : exec m s x t with ⟨_ | ⟨_ | a, t''⟩, s'⟩
  · rw [hrun] at hmem
    cases hmem
  · rw [hrun] at hmem
    cases hmem
    refine ⟨_, rfl, ?_⟩
    rintro _ ⟨⟩
    exact hr _ rfl
  · exact hf a s' t''

theorem mono {L : Failure → Prop} {x : Acting α} (h : FailsBy m K x) (hkl : ∀ f, K f → L f) : FailsBy m L x := by
  intro s t
  obtain ⟨r, hmem, hr⟩ := h s t
  exact ⟨r, hmem, fun f hf => hkl f (hr f hf)⟩

theorem script (y : Script α) : FailsBy m K (liftM y : Acting α) := by
  intro s t
  have hrun : exec m s (liftM y : Acting α) t = _ := exec_optionT (OptionT.lift y)
  have hlift : m.run s (OptionT.lift y).run = (some (m.run s y).1, (m.run s y).2) := m.run_bind y _
  rw [hrun, hlift]
  exact ⟨_, rfl, nofun⟩

theorem forIn {γ : Type} (items : List γ) {f : γ → PUnit → Acting (ForInStep PUnit)} (h : ∀ a, FailsBy m K (f a ⟨⟩)) :
    FailsBy m K (ForIn.forIn items ⟨⟩ f) := by
  induction items with
  | nil => exact .pure _
  | cons a rest ih =>
    rw [List.forIn_cons]
    refine (h a).bind fun step => ?_
    cases step with
    | done b => exact .pure b
    | yield b => exact ih

end FailsBy

theorem writing_noDirectory (p : Path) (e : FileError) : (Failure.noDirectory p e).Writing := .head _

theorem writing_notWritten (p : Path) (e : FileError) : (Failure.notWritten p e).Writing := .tail _ (.head _)

theorem failsBy_say (lines : List String) : FailsBy m Failure.Writing (say lines) := .change _

theorem failsBy_prepareDirectory (p : Path) : FailsBy m Failure.Writing (prepareDirectory p) := by
  refine (FailsBy.script _).bind fun made => ?_
  cases made with
  | ok _ => exact .pure ()
  | error e => exact .throw (writing_noDirectory p e)

theorem failsBy_writeFile (p : Path) (bs : Bytes) : FailsBy m Failure.Writing (writeFile p bs) := by
  have hwrite {next : Except FileError Unit → Acting Unit} (hok : next (.ok ()) = pure ())
      (herror : ∀ e, next (.error e) = throw (.notWritten p e)) :
      FailsBy m Failure.Writing (liftM (Script.write p bs) >>= next) := by
    refine (FailsBy.script _).bind fun written => ?_
    cases written with
    | ok _ => exact hok ▸ .pure ()
    | error e => exact herror e ▸ .throw (writing_notWritten p e)
  unfold writeFile
  cases p.parent? with
  | none => exact hwrite rfl fun _ => rfl
  | some parent =>
    dsimp only
    cases parent.isEmpty with
    | true => exact hwrite rfl fun _ => rfl
    | false => exact (failsBy_prepareDirectory parent).bind fun _ => hwrite rfl fun _ => rfl

theorem failsBy_writeText? (p : Option Path) (text : String) : FailsBy m Failure.Writing (writeText? p text) := by
  cases p with
  | none => exact .pure ()
  | some p => exact failsBy_writeFile p _

theorem failsBy_writeSources (d : Dict Value) (header symbolHeader : Option Path) :
    FailsBy m Failure.Writing (writeSources d header symbolHeader) :=
  (failsBy_writeText? header _).bind fun _ => failsBy_writeText? symbolHeader _

theorem failsBy_writeSideOutputs (dir : Path) (d : Dict Value) : FailsBy m Failure.Writing (writeSideOutputs dir d) := by
  refine (failsBy_prepareDirectory dir).bind fun _ => (FailsBy.forIn _ fun output => ?_).bind fun _ => .pure ()
  obtain ⟨name, v⟩ := output
  dsimp only
  cases v.bytes? with
  | none => exact .pure _
  | some bs => exact (failsBy_writeFile _ bs).bind fun _ => .pure _

theorem BuildRequest.failsBy_announce (r : BuildRequest) (d : Dict Value) (current : Bool) :
    FailsBy m Failure.Writing (r.announce d current) := by
  unfold announce
  cases r.json with
  | true => exact failsBy_say _
  | false =>
    cases r.verbose with
    | true => exact (failsBy_say _).bind fun _ => .change _
    | false => exact .pure ()

theorem BuildRequest.failsBy_deliver (r : BuildRequest) (d : Dict Value) : FailsBy m Failure.Writing (r.deliver d) := by
  have hsources : FailsBy m Failure.Writing (do writeSources d r.header r.symbolHeader; r.announce d false) :=
    (failsBy_writeSources d _ _).bind fun _ => r.failsBy_announce d false
  refine (failsBy_writeFile _ _).bind fun _ => ?_
  cases r.sideOutputs with
  | none => exact hsources
  | some dir => exact (failsBy_writeSideOutputs dir d).bind fun _ => hsources

theorem CombineRequest.failsBy_announce (r : CombineRequest) (d : Dict Value) :
    FailsBy m Failure.Writing (r.announce d) := by
  unfold announce
  cases r.json with
  | true => exact failsBy_say _
  | false => exact failsBy_say _

/-- What a combined pack is followed by. -/
theorem CombineRequest.failsBy_rest (r : CombineRequest) (d : Dict Value) : FailsBy m Failure.Writing (do
    writeFile r.output d.encode
    writeSources d r.header r.symbolHeader
    r.announce d) :=
  (failsBy_writeFile _ _).bind fun _ => (failsBy_writeSources d _ _).bind fun _ => r.failsBy_announce d

/-! ## Commands that fail without harm -/

/-- If the command fails otherwise than late, or has no end, the state is as it was. -/
def Harmless (m : FileSystem S) (x : Acting α) : Prop := ∀ s t, match exec m s x t with
  | (some (.ok _, _), _) => True
  | (some (.error f, _), s') => f.Late ∨ s' = s
  | (none, s') => s' = s

namespace Harmless

theorem of_looks {x : Acting α} (h : Looks m x) : Harmless m x := by
  intro s t
  have hs := h s t
  rcases hrun : exec m s x t with ⟨_ | ⟨_ | a, t'⟩, s'⟩
  · rwa [hrun] at hs
  · rw [hrun] at hs
    exact .inr hs
  · trivial

theorem of_late {x : Acting α} (h : FailsBy m Failure.Late x) : Harmless m x := by
  intro s t
  obtain ⟨r, hmem, hr⟩ := h s t
  rcases hrun : exec m s x t with ⟨_ | ⟨_ | a, t'⟩, s'⟩
  · rw [hrun] at hmem
    cases hmem
  · rw [hrun] at hmem
    cases hmem
    exact .inl (hr _ rfl)
  · trivial

theorem of_writing {x : Acting α} (h : FailsBy m Failure.Writing x) : Harmless m x :=
  of_late (h.mono fun _ => Failure.Writing.late)

/-- What comes after looks alone. -/
theorem after {x : Acting α} {f : α → Acting β} (hx : Looks m x) (hf : ∀ a, Harmless m (f a)) :
    Harmless m (x >>= f) := by
  intro s t
  have hs := hx s t
  rw [exec_bind]
  rcases hrun : exec m s x t with ⟨_ | ⟨_ | a, t'⟩, s'⟩
  · rwa [hrun] at hs
  · rw [hrun] at hs
    exact .inr hs
  · rw [hrun] at hs
    obtain rfl : s' = s := hs
    exact hf a s' t'

end Harmless

theorem looks_compileFile (r : BuildRequest) :
    Looks m (liftM ((compileFile ample r.options r.input .none).run ()) : Acting (Outcome × Unit)) := by
  intro s t
  rw [exec_optionT, run_compileFile_none, m.run_toScript]
  cases (((compileSource ample r.options r.input).run).run ()).run.eval (m.files s) <;> rfl

theorem harmless_build (r : BuildRequest) : Harmless m (build r) := by
  have hrebuild : Harmless m r.rebuild := by
    refine .after (looks_compileFile r) fun made => ?_
    obtain ⟨issues | d, _⟩ := made
    · exact .of_looks fun _ _ => rfl
    · exact .of_writing (r.failsBy_deliver d)
  refine .after (.running (liftM (Look.isFile r.input))) fun there => ?_
  cases there with
  | false => exact .of_looks fun _ _ => rfl
  | true =>
    refine .after (.running (liftM r.isCurrent)) fun current => ?_
    cases current with
    | true => exact .after (.running _) fun pack => .of_writing (r.failsBy_announce pack.2 true)
    | false => exact hrebuild

/-- Loading packs one after the other. -/
theorem looks_loadPacks (inputs : List Path) : Looks m (ForIn.forIn inputs PUnit.unit fun p _ => do
    let _ ← (loadPack p : Running Look _)
    return .yield PUnit.unit : Acting PUnit) :=
  Looks.forIn inputs fun p => (Looks.running (loadPack p)).bind fun _ _ _ => rfl

theorem harmless_combine (r : CombineRequest) : Harmless m (combine r) := by
  refine .after (looks_loadPacks r.inputs) fun _ => ?_
  refine .after (.running (liftM (Pack.combine r.inputs))) fun combined => ?_
  cases combined with
  | error f => exact .of_looks fun _ _ => rfl
  | ok d => exact .of_writing (r.failsBy_rest d)

theorem harmless_extract (r : ExtractRequest) : Harmless m (extract r) := by
  have hlate : ∀ f, Failure.Writing f → f.Late := fun _ => Failure.Writing.late
  refine .after (.running (loadPack r.input)) fun pack => .of_late ?_
  refine (FailsBy.script _).bind fun scratch => ((failsBy_prepareDirectory _).mono hlate).bind fun _ =>
    (FailsBy.script _).bind fun extracted => FailsBy.bind (.change _) fun _ => ?_
  split
  · split
    · exact (failsBy_say _).mono hlate
    · exact ((failsBy_say _).mono hlate).bind fun _ => ((failsBy_say _).mono hlate).bind fun _ => .change _
  · exact .throw (.tail _ (.head _))

theorem Request.harmless_run (r : Request) : Harmless m r.run := by
  cases r with
  | build r => exact harmless_build r
  | combine r => exact harmless_combine r
  | dump r => exact .of_looks (.running (Command.dump r))
  | extract r => exact harmless_extract r

/-! ## Packs that can be loaded -/

/-- The pack in this file is loaded. -/
def Loads (fs : Files) (p : Path) : Prop := (((loadPack p).run.run .empty).eval fs).1.isOk = true

instance (fs : Files) (p : Path) : Decidable (Loads fs p) := inferInstanceAs (Decidable (_ = true))

/-- What loading a pack comes to. -/
def loaded (fs : Files) (p : Path) : Except Failure (Bytes × Dict Value) :=
  if (Look.exists? p).eval fs then
    match (Pack.readBytes p).eval fs with
    | .error f => .error (.notOpened p f)
    | .ok bs =>
      match Dict.decode bs with
      | .error f => .error (.unreadable p f)
      | .ok d =>
        match Pack.opened d with
        | .error f => .error (.unreadableInside p f)
        | .ok d => .ok (bs, d)
  else .error (.missingInput p)

theorem eval_loadPack (fs : Files) (p : Path) : ((loadPack p).run.run t).eval fs = (loaded fs p, t) := by
  rw [loadPack, eval_running_bind, loaded]
  cases (Look.exists? p).eval fs with
  | false => rfl
  | true =>
    refine (eval_running_bind (Pack.readBytes p) _).trans ?_
    rw [if_pos rfl]
    cases (Pack.readBytes p).eval fs with
    | error f => rfl
    | ok bs =>
      dsimp only
      cases Dict.decode bs with
      | error f => rfl
      | ok d =>
        dsimp only
        cases Pack.opened d <;> rfl

theorem loads_iff {fs : Files} {p : Path} : Loads fs p ↔ ∃ pack, loaded fs p = .ok pack := by
  rw [Loads, eval_loadPack]
  cases loaded fs p with
  | error f => exact ⟨nofun, nofun⟩
  | ok pack => exact ⟨fun _ => ⟨pack, rfl⟩, fun _ => rfl⟩

/-- What is loaded was read and opened. -/
theorem opened_of_loaded {fs : Files} {p : Path} {bs : Bytes} {e : Dict Value} (h : loaded fs p = .ok (bs, e)) :
    ∃ d, fs.read p = .ok bs ∧ Dict.decode bs = .ok d ∧ Pack.opened d = .ok e := by
  rw [loaded] at h
  split at h
  · rw [Pack.readBytes, Look.eval_bind, Look.eval_read] at h
    cases hread : fs.read p with
    | error f =>
      rw [hread] at h
      cases h
    | ok found =>
      rw [hread] at h
      change (match Dict.decode found with | .error f => _ | .ok d => _) = _ at h
      cases hdecode : Dict.decode found with
      | error f =>
        rw [hdecode] at h
        cases h
      | ok d =>
        rw [hdecode] at h
        dsimp only at h
        cases hopened : Pack.opened d with
        | error f =>
          rw [hopened] at h
          cases h
        | ok opened =>
          rw [hopened] at h
          cases h
          exact ⟨d, rfl, hdecode, hopened⟩
  · cases h

theorem Loads.exists_opened {fs : Files} {p : Path} (h : Loads fs p) :
    ∃ d e, (Pack.read p).eval fs = .ok d ∧ Pack.opened d = .ok e := by
  obtain ⟨⟨bs, e⟩, hpack⟩ := loads_iff.mp h
  obtain ⟨d, hread, hdecode, hopened⟩ := opened_of_loaded hpack
  refine ⟨d, e, ?_, hopened⟩
  rw [Cache.eval_readPack, hread]
  exact hdecode

/-- Packs that are loaded one by one are combined. -/
theorem exists_combined {fs : Files} {inputs : List Path} (h : ∀ p ∈ inputs, Loads fs p) (c : Pack.Combined) :
    ∃ d, (Pack.combineFrom c inputs).eval fs = .ok d := by
  induction inputs generalizing c with
  | nil => exact ⟨_, rfl⟩
  | cons p ps ih =>
    obtain ⟨hp, hps⟩ := List.forall_mem_cons.mp h
    obtain ⟨d, e, hread, hopened⟩ := hp.exists_opened
    obtain ⟨made, hmade⟩ := ih hps (c.add e)
    refine ⟨made, ?_⟩
    rw [Pack.combineFrom, Look.eval_bind, hread]
    dsimp only
    rw [hopened]
    exact hmade

theorem exec_loadPacks {inputs : List Path} (h : ∀ p ∈ inputs, Loads (m.files s) p) :
    exec m s (ForIn.forIn inputs PUnit.unit fun p _ => do
      let _ ← (loadPack p : Running Look _)
      return .yield PUnit.unit : Acting PUnit) t = (some (.ok PUnit.unit, t), s) := by
  induction inputs with
  | nil => rfl
  | cons p ps ih =>
    obtain ⟨hp, hps⟩ := List.forall_mem_cons.mp h
    obtain ⟨pack, hpack⟩ := loads_iff.mp hp
    have hload : exec m s (liftM (loadPack p) : Acting (Bytes × Dict Value)) t = (some (.ok pack, t), s) := by
      refine (exec_running (loadPack p)).trans ?_
      rw [eval_loadPack, hpack]
    rw [List.forIn_cons, exec_bind, exec_bind, hload]
    exact ih hps

theorem exec_bind_of_ok {x : Acting α} {f : α → Acting β} {a : α} {t' : Transcript} {s' : S}
    (h : exec m s x t = (some (.ok a, t'), s')) : exec m s (x >>= f) t = exec m s' (f a) t' := by
  rw [exec_bind, h]

/-- Packs that were loaded can be combined, so only writing can fail. -/
theorem exec_combine {r : CombineRequest} (h : ∀ p ∈ r.inputs, Loads (m.files s) p) :
    ∃ result ∈ (exec m s (combine r) t).1, ∀ f, result.1 = .error f → f.Writing := by
  obtain ⟨d, hd⟩ := exists_combined h .start
  have hrun : exec m s (combine r) t = exec m s (do
      writeFile r.output d.encode
      writeSources d r.header r.symbolHeader
      r.announce d) t := by
    refine (exec_bind_of_ok (exec_loadPacks h)).trans ((exec_look_bind (Pack.combine r.inputs) _).trans ?_)
    rw [Pack.combine, hd]
  rw [hrun]
  exact r.failsBy_rest d s t

/-! ## What failing leaves -/

/-- A compile that fails, or has no end, writes nothing. -/
theorem run_compileFile_of_error {σ : Type} (m : FileSystem S) (s : S) (fuel : Nat) (o : Options σ) (p : Path)
    (mode : CacheMode) (w : σ) : match m.run s ((compileFile fuel o p mode).run w).run with
      | (some (.ok _, _), _) => True
      | (some (.error _, _), after) => after = s
      | (none, after) => after = s := by
  rw [run_compileFile, m.run_bind, m.run_toScript]
  dsimp only
  cases mode.found.eval (m.files s) with
  | some d => trivial
  | none =>
    dsimp only
    rw [m.run_bind, m.run_toScript]
    dsimp only
    rcases (((compileSource fuel o p).run).run w).run.eval (m.files s) with _ | ⟨issues | d, w'⟩
    · rfl
    · rfl
    · dsimp only [CacheMode.keepOutcome]
      rw [m.run_bind]
      trivial

/-- A command line that ends with one of these exit codes, or has no end, changes nothing, and one that shows a pack
never does. Packs that were loaded can be combined: what can still fail is writing. A compile that fails changes
nothing, whatever cache it may use. -/
theorem run_spares (m : FileSystem S) (s : S) :
    (∀ words, match m.run s (run words).run with
      | (some report, after) =>
        report.code ∈ [2, 6, 7, 8, 9] ∨ (∃ r, Request.read words = .ok (.dump r)) → after = s
      | (none, after) => after = s) ∧
    (∀ r : CombineRequest, (∀ p ∈ r.inputs, Loads (m.files s) p) →
      ∃ result ∈ (exec m s (combine r) .empty).1, ∀ f, result.1 = .error f → f.exitCode ∈ [5, 11]) ∧
    ∀ {σ : Type} (fuel : Nat) (o : Options σ) (p : Path) (mode : CacheMode) (w : σ),
      match m.run s ((compileFile fuel o p mode).run w).run with
        | (some (.ok _, _), _) => True
        | (some (.error _, _), after) => after = s
        | (none, after) => after = s := by
  refine ⟨fun words => ?_, fun r hr => exec_combine hr, run_compileFile_of_error m s⟩
  rw [run]
  cases hread : Request.read words with
  | error refusal => cases refusal <;> exact fun _ => rfl
  | ok request =>
    dsimp only
    rw [run_report]
    have hlooks : (∃ r, Except.ok request = (.ok (.dump r) : Except Refusal Request)) →
        (exec m s request.run .empty).2 = s := by
      rintro ⟨r, ⟨⟩⟩
      exact Looks.running (Command.dump r) s .empty
    have hharmless : Harmless m request.run := request.harmless_run
    specialize hharmless s .empty
    rcases hrun : exec m s request.run .empty with ⟨_ | ⟨f | ⟨⟩, t⟩, after⟩
    · rwa [hrun] at hharmless
    · rw [hrun] at hharmless hlooks
      rintro (hcode | hdump)
      · refine hharmless.resolve_left fun hlate => ?_
        change f.exitCode ∈ [2, 6, 7, 8, 9] at hcode
        rw [Failure.Late] at hlate
        cases f <;> simp [Failure.exitCode] at hcode hlate
      · exact hlooks hdump
    · rw [hrun] at hlooks
      rintro (hcode | hdump)
      · simp at hcode
      · exact hlooks hdump

/-- A disk with a description that cannot be parsed, and with a pack. -/
def unparsable : Disk := history blankDisk [.write "a" (Bytes.ofString "["), .write "o" (∅ : Dict Value).encode]

/-- A build of that description fails with exit code 6, the pack is combined, and a compile by way of a cache fails. -/
theorem run_spares_unparsable :
    (∃ report after, Disk.system.run unparsable (run ["build", "--in", "a"]).run = (some report, after) ∧
      report.code = 6 ∧ after = unparsable) ∧
    (∃ result ∈ (exec Disk.system unparsable (combine ⟨["o"], "p", none, none, false⟩) .empty).1,
      ∀ f, result.1 = .error f → f.exitCode ∈ [5, 11]) ∧
    ∃ issues after, Disk.system.run unparsable ((compileFile ample (requestFor "a").options "a" (.use "c")).run ()).run =
      (some (.error issues, ()), after) ∧ after = unparsable := by
  obtain ⟨hwords, hcombine, hcompile⟩ := run_spares Disk.system unparsable
  specialize hwords ["build", "--in", "a"]
  specialize hcompile ample (requestFor "a").options "a" (.use "c") ()
  refine ⟨?_, hcombine _ (by decide +kernel), ?_⟩
  · have hreport : ∃ report ∈ (Disk.system.run unparsable (run ["build", "--in", "a"]).run).1, report.code = 6 := by
      decide +kernel
    obtain ⟨report, hmem, hcode⟩ := hreport
    rcases hrun : Disk.system.run unparsable (run ["build", "--in", "a"]).run with ⟨_, after⟩
    rw [hrun] at hmem hwords
    cases hmem
    exact ⟨report, after, rfl, hcode, hwords (.inl (by rw [hcode]; decide))⟩
  · have hfails : (Disk.system.run unparsable
        ((compileFile ample (requestFor "a").options "a" (.use "c")).run ()).run).1.map (·.1.isOk) = some false := by
      decide +kernel
    rcases hrun : Disk.system.run unparsable
      ((compileFile ample (requestFor "a").options "a" (.use "c")).run ()).run with ⟨_ | ⟨issues | d, ⟨⟩⟩, after⟩
    · rw [hrun] at hfails
      cases hfails
    · rw [hrun] at hcompile
      exact ⟨issues, after, rfl, hcompile⟩
    · rw [hrun] at hfails
      cases hfails

end AssetPack.Command
