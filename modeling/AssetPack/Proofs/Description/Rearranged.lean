import AssetPack.Proofs.Description.Noted
import AssetPack.Proofs.Description.Reordered
import AssetPack.Proofs.Description.Roots
import AssetPack.Proofs.Files.Places
import AssetPack.Proofs.Visit.Reordered

/-!
# Passes over descriptions in another order

The passes behind the expansion are told by what they see. In another order they are told the same in another order,
and what a context gathers does not depend on that, but for the order of issues.
-/
namespace AssetPack

/-!
## Contexts that were told the same

What a context gathers does not tell in which order it was gathered, but for the issues. Files are recorded under their
canonical names, and where each file has but one of these the lists of files come out the same.
-/

section
variable {fs : Files}

/-- Whatever can be read has a canonical name, and a canonical name is spelled in one way only. -/
structure Files.Regular (fs : Files) : Prop where
  readable : ∀ p bs, fs.read p = .ok bs → ∃ q, fs.canonical p = .ok q
  spelling : ∀ p p' q q', fs.canonical p = .ok q → fs.canonical p' = .ok q' → q.same q' = true → q = q'

/-- What was found is recorded under a canonical name. -/
theorem Files.Regular.exists_settle (hfs : fs.Regular) {path : Path} (h : fs.Found path) :
    ∃ p, fs.canonical p = .ok ((Look.settle path).eval fs) := by
  have hsettle : (Look.settle path).eval fs = (fs.canonical path).toOption.getD path := by
    show ((Look.canonical path) >>= _ : Look Path).eval fs = _
    rw [Look.eval_bind]
    have hcanonical : (Look.canonical path).eval fs = fs.canonical path := rfl
    rw [hcanonical]
    cases fs.canonical path <;> rfl
  rw [hsettle]
  cases hpath : fs.canonical path with
  | ok q => exact ⟨path, hpath⟩
  | error e =>
    rcases h with hcanonical | ⟨bs, hread⟩
    · exact hcanonical
    · obtain ⟨q, hq⟩ := hfs.readable path bs hread
      rw [hpath] at hq
      cases hq

namespace Context

theorem eval_addFile (c : Context) (owner : Option String) (path : Path) :
    (c.addFile owner path).eval fs = c.addSettled owner ((Look.settle path).eval fs) := by
  rw [addFile, Look.eval_bind, Look.eval_pure]

/-- The files of an entry after one more was added. -/
theorem filesFor_addSettled (c : Context) (owner : Option String) (path : Path) (name : String) :
    (c.addSettled owner path).filesFor name =
      if owner = some name ∧ name ≠ "" then Path.insertSorted path (c.filesFor name) else c.filesFor name := by
  cases owner with
  | none => rfl
  | some other =>
    by_cases hempty : other.isEmpty
    · have hname : ¬(some other = some name ∧ name ≠ "") := by
        rintro ⟨hsome, hname⟩
        cases hsome
        exact hname (String.isEmpty_iff.mp hempty)
      rw [if_neg hname, addSettled, filesFor]
      simp only [hempty, if_true]
      rfl
    · have hfiles : (c.addSettled (some other) path).filesFor name =
          ((c.entryFiles.set other (Path.insertSorted path (c.filesFor other))).get? name).getD [] := by
        rw [addSettled, filesFor]
        simp only [hempty]
        rfl
      rw [hfiles, Dict.get?_set]
      by_cases hname : name = other
      · subst hname
        rw [if_pos rfl, if_pos ⟨rfl, fun h => hempty (String.isEmpty_iff.mpr h)⟩]
        rfl
      · rw [if_neg hname, if_neg fun h => hname (Option.some.inj h.1).symm]
        rfl

/-- The same but for the order of issues and of the entries that have files, and for the symbols. -/
structure Alike (c c' : Context) : Prop where
  base : c'.base = c.base
  debug : c'.debug = c.debug
  outputs : c'.outputs = c.outputs
  files : c'.files = c.files
  filesFor : ∀ name, c'.filesFor name = c.filesFor name
  issues : c.issues.Perm c'.issues

namespace Alike
variable {c c' c'' : Context}

theorem refl (c : Context) : c.Alike c := ⟨rfl, rfl, rfl, rfl, fun _ => rfl, .refl _⟩

theorem trans (h : c.Alike c') (h' : c'.Alike c'') : c.Alike c'' where
  base := h'.base.trans h.base
  debug := h'.debug.trans h.debug
  outputs := h'.outputs.trans h.outputs
  files := h'.files.trans h.files
  filesFor name := (h'.filesFor name).trans (h.filesFor name)
  issues := h.issues.trans h'.issues

theorem addIssue (h : c.Alike c') (i : Issue) : (c.addIssue i).Alike (c'.addIssue i) :=
  { h with issues := h.issues.append_right _ }

theorem addIssue_comm (c : Context) (i j : Issue) : ((c.addIssue i).addIssue j).Alike ((c.addIssue j).addIssue i) := by
  refine { Alike.refl c with issues := ?_ }
  show ((c.issues ++ Issue.audible [i]) ++ Issue.audible [j]).Perm ((c.issues ++ Issue.audible [j]) ++ Issue.audible [i])
  rw [List.append_assoc, List.append_assoc]
  exact List.perm_append_comm.append_left _

theorem addFile (h : c.Alike c') (owner : Option String) (path : Path) :
    ((c.addFile owner path).eval fs).Alike ((c'.addFile owner path).eval fs) := by
  rw [eval_addFile, eval_addFile]
  refine ⟨h.base, h.debug, h.outputs, congrArg (Path.insertSorted _) h.files, fun name => ?_, h.issues⟩
  rw [filesFor_addSettled, filesFor_addSettled, h.filesFor]

/-- Files that were found can be added in either order. -/
theorem addFile_comm (hfs : fs.Regular) (c : Context) {path path' : Path} (hpath : fs.Found path)
    (hpath' : fs.Found path') (owner owner' : Option String) :
    ((((c.addFile owner path).eval fs).addFile owner' path').eval fs).Alike
      ((((c.addFile owner' path').eval fs).addFile owner path).eval fs) := by
  obtain ⟨p, hp⟩ := hfs.exists_settle hpath
  obtain ⟨p', hp'⟩ := hfs.exists_settle hpath'
  have hcomm (ps : List Path) := Path.insertSorted_comm (hfs.spelling p p' _ _ hp hp') ps
  simp only [eval_addFile]
  refine ⟨rfl, rfl, rfl, hcomm c.files, fun name => ?_, .refl _⟩
  simp only [filesFor_addSettled]
  split <;> split
  · exact hcomm _
  · rfl
  · rfl
  · rfl

end Alike
end Context

namespace Expansion.Kept

/-- The same but for the order in which it was told. -/
structure Alike (k k' : Kept) : Prop where
  issues : k.1.Perm k'.1
  context : k.2.Alike k'.2

/-- What an expansion tells in two orders comes to the same. -/
theorem alike_foldl_tell (hfs : fs.Regular) {ts us : List Told} (h : ts.Perm us) (hfair : ∀ t ∈ ts, t.Fair fs)
    (k : Kept) : (ts.foldl (tell fs) k).Alike (us.foldl (tell fs) k) := by
  refine foldl_of_perm (Told.Fair fs) (R := Alike) (fun k => ⟨.refl _, .refl _⟩)
    (fun h h' => ⟨h.issues.trans h'.issues, h.context.trans h'.context⟩) (fun {k k'} t hk => ?_) (fun k t u ht hu => ?_)
    h hfair ⟨.refl _, .refl _⟩
  · cases t with
    | issue i => exact ⟨hk.issues.append_right _, hk.context⟩
    | file owner path => exact ⟨hk.issues, hk.context.addFile owner path⟩
  · cases t with
    | issue i =>
      cases u with
      | issue j =>
        refine ⟨?_, .refl _⟩
        show ((k.1 ++ Issue.audible [i]) ++ Issue.audible [j]).Perm ((k.1 ++ Issue.audible [j]) ++ Issue.audible [i])
        rw [List.append_assoc, List.append_assoc]
        exact List.perm_append_comm.append_left _
      | file owner path => exact ⟨.refl _, .refl _⟩
    | file owner path =>
      cases u with
      | issue j => exact ⟨.refl _, .refl _⟩
      | file owner' path' => exact ⟨.refl _, .addFile_comm hfs k.2 ht hu owner owner'⟩

end Expansion.Kept

end

/-!
## Passes over descriptions in another order

The passes behind the expansion visit the description. What their hooks answer is told by what they see, so each of
them makes dictionaries that are the same but for the order of entries of such dictionaries, and finds the same issues
in some order. The forms that a pack keeps of what is typed inside an entry may be payloads. These are made of the
entries in their order, and are compared as the dictionaries that they hold.
-/

section
variable {σ : Type} {fs : Files}

section
variable {n : Type → Type} [Monad n] {S A V τ α : Type} {E : Evaluation n} {around : S → A} {view : S → V}
  {tell : V → τ → V} {fair : τ → Prop}

/-- How computations with a state go on, where each gives just one thing. -/
def Telling.following (E : Evaluation n) (around : S → A) (view : S → V) (tell : V → τ → V) (fair : τ → Prop) :
    Telling (StateT S n) S A V τ where
  run x s := some (E.after x s)
  run_pure a s := congrArg some (E.after_pure a s)
  run_bind x f s := congrArg some (E.after_bind x f s)
  around := around
  view := view
  tell := tell
  fair := fair

theorem Telling.gives_following {x : StateT S n α} {e : A} {a : α} {ts : List τ}
    (h : ∀ s, around s = e → (E.after x s).1 = a ∧ around (E.after x s).2 = e ∧
      view (E.after x s).2 = ts.foldl tell (view s)) (hfair : ∀ t ∈ ts, fair t) :
    (following E around view tell fair).Gives x e (some (a, ts)) := by
  intro s hs
  obtain ⟨hanswer, haround, hview⟩ := h s hs
  exact .some ⟨hanswer, haround, hview, hfair⟩

/-- Hooks that agree and keep the root make dictionaries that are the same but for the order of entries. -/
theorem Hooks.Agree.following {h h' : Hooks (StateT S n)} {near : A → A → Prop} {packed : Prop}
    (hh : h.Agree (.following E around view tell fair) near packed h')
    (hroot : ∀ d, h.onDict ⟨[], []⟩ d = pure (.keep (.dict d)))
    (hroot' : ∀ d, h'.onDict ⟨[], []⟩ d = pure (.keep (.dict d))) {d e : Dict Value}
    (hd : (Value.dict d).Reordered False (.dict e)) (s s' : S) (hs : near (around s) (around s')) :
    Dict.Rearranged packed (E.after (d.visitRoot h) s).1.dict (E.after (e.visitRoot h') s').1.dict ∧
      (E.after (d.visitRoot h) s).1.issues.Perm (E.after (e.visitRoot h') s').1.issues ∧
      around (E.after (d.visitRoot h) s).2 = around s ∧ around (E.after (e.visitRoot h') s').2 = around s' ∧
      ∃ ts us : List τ, ts.Perm us ∧ (∀ t ∈ ts, fair t) ∧
        view (E.after (d.visitRoot h) s).2 = ts.foldl tell (view s) ∧
        view (E.after (e.visitRoot h') s').2 = us.foldl tell (view s') := by
  have hrun := hh.visitRoot hroot hroot' hd hs
  change Option.Rel _ (some (E.after (d.visitRoot h) s)) (some (E.after (e.visitRoot h') s')) at hrun
  generalize E.after (d.visitRoot h) s = r at hrun ⊢
  generalize E.after (e.visitRoot h') s' = r' at hrun ⊢
  cases hrun with
  | some hr => exact hr

end

/-! ### Files -/

/-- The pass over files looks at the base directory, and tells the files that were found. -/
abbrev Telling.locating (fs : Files) : Telling (StateT Context Look) Context Path Context (Option String × Path) :=
  .following (.files fs) Context.base id (fun c t => (c.addFile t.1 t.2).eval fs) fun t => fs.Found t.2

theorem Context.base_addFile (c : Context) (owner : Option String) (path : Path) :
    ((c.addFile owner path).eval fs).base = c.base := by
  rw [eval_addFile]
  rfl

theorem Context.symbols_addFile (c : Context) (owner : Option String) (path : Path) :
    ((c.addFile owner path).eval fs).symbols = c.symbols := by
  rw [eval_addFile]
  rfl

theorem exists_string_of_bind {α : Type} {v : Value} {f : String → Option α} {a : α} (h : v.string?.bind f = some a) :
    ∃ text, v = .string text ∧ f text = some a := by
  obtain ⟨text, htext, ha⟩ := Option.bind_eq_some_iff.mp h
  refine ⟨text, ?_, ha⟩
  cases v with
  | atom b =>
    cases b with
    | string s =>
      cases htext
      rfl
    | _ => cases htext
  | _ => cases htext

/-- Another text takes the place of a text with the mark of a file. -/
theorem gives_locate (fs : Files) {text relative : String} (hmark : after? Key.file text = some relative)
    (trail : List Step) (base : Path) : ∃ text' issues ts,
      (Telling.locating fs).Gives (locate ⟨trail, []⟩ (.string text)) base (some (⟨some (.string text'), issues⟩, ts)) := by
  have hmark : (Value.string text).string?.bind (after? Key.file) = some relative := hmark
  cases hcanonical : fs.canonical (Path.join base relative) with
  | ok path =>
    refine ⟨path, [], [((Spot.mk trail []).root?, path)], ?_⟩
    refine Telling.gives_following (fun c hc => ?_) (List.forall_mem_singleton.mpr (.inl ⟨_, hcanonical⟩))
    have hfound : (Evaluation.files fs).run (Look.canonical (Path.join c.base relative)) = .ok path := by
      rw [hc]
      exact hcanonical
    have hafter : (Evaluation.files fs).after (locate ⟨trail, []⟩ (.string text)) c =
        (.keep (.string path), (c.addFile (Spot.mk trail []).root? path).eval fs) := by
      simp only [locate, hmark]
      rw [Evaluation.after_bind, Evaluation.after_get, Evaluation.after_bind, Evaluation.after_lift, hfound]
      dsimp only
      rw [Evaluation.after_bind, Evaluation.after_lift, Evaluation.after_bind, Evaluation.after_set,
        Evaluation.after_pure]
      rfl
    rw [hafter]
    exact ⟨rfl, (c.base_addFile _ _).trans hc, rfl⟩
  | error e =>
    refine ⟨Path.join base relative, [.fileNotFound (Path.join base relative)], [], ?_⟩
    refine Telling.gives_following (fun c hc => ?_) (List.forall_mem_nil _)
    have hfound : (Evaluation.files fs).run (Look.canonical (Path.join base relative)) = .error e := hcanonical
    have hafter : (Evaluation.files fs).after (locate ⟨trail, []⟩ (.string text)) c =
        (⟨some (.string (Path.join base relative)), [.fileNotFound (Path.join base relative)]⟩, c) := by
      simp only [locate, hmark]
      rw [Evaluation.after_bind, Evaluation.after_get, Evaluation.after_bind, Evaluation.after_lift, hc, hfound]
      dsimp only
      rw [Evaluation.after_pure]
    rw [hafter]
    exact ⟨rfl, hc, rfl⟩

theorem agree_locate (fs : Files) : Hooks.Agree (Telling.locating fs) Eq False
    { Hooks.keep with onValue := locate } { Hooks.keep with onValue := locate } where
  deafValue _ _ _ := rfl
  deafValue' _ _ _ := rfl
  deafDict _ _ _ := rfl
  deafDict' _ _ _ := rfl
  onValue trail v w hvw := by
    cases hmark : v.string?.bind (after? Key.file) with
    | none =>
      have hmark' : w.string?.bind (after? Key.file) = none := by rw [← hvw.shows.1, hmark]
      simp only [locate, hmark, hmark']
      exact .pure (.keep hvw)
    | some relative =>
      obtain ⟨text, rfl, hmark⟩ := exists_string_of_bind hmark
      cases hvw
      rintro base _ rfl
      obtain ⟨text', issues, ts, hgives⟩ := gives_locate fs hmark trail base
      exact ⟨_, _, hgives, hgives, .some ⟨⟨.some (.atom _), rfl⟩, .refl _⟩⟩
  onDict trail d e hde := .pure (.keep hde)

theorem Context.symbols_foldl_addFile (ts : List (Option String × Path)) (c : Context) :
    (ts.foldl (fun c t => (c.addFile t.1 t.2).eval fs) c).symbols = c.symbols := by
  induction ts generalizing c with
  | nil => rfl
  | cons t rest ih => rw [List.foldl_cons, ih, symbols_addFile]

/-- The files of both dictionaries are located alike. -/
theorem Dict.rel_locate (hfs : fs.Regular) {d e : Dict Value} (hd : (Value.dict d).Reordered False (.dict e))
    {c c' : Context} (hc : c.Alike c') :
    Dict.Rearranged False ((d.locate c).eval fs).1.dict ((e.locate c').eval fs).1.dict ∧
      ((d.locate c).eval fs).1.issues.Perm ((e.locate c').eval fs).1.issues ∧
      ((d.locate c).eval fs).2.Alike ((e.locate c').eval fs).2 ∧
      ((d.locate c).eval fs).2.symbols = c.symbols ∧ ((e.locate c').eval fs).2.symbols = c'.symbols := by
  obtain ⟨hdict, hissues, _, _, ts, us, hperm, hfair, hview, hview'⟩ :=
    (agree_locate fs).following (fun _ => rfl) (fun _ => rfl) hd c c' hc.base.symm
  replace hview : ((d.locate c).eval fs).2 = ts.foldl (fun c t => (c.addFile t.1 t.2).eval fs) c := hview
  replace hview' : ((e.locate c').eval fs).2 = us.foldl (fun c t => (c.addFile t.1 t.2).eval fs) c' := hview'
  refine ⟨hdict, hissues, ?_, ?_, ?_⟩
  · rw [hview, hview']
    exact foldl_of_perm (fun t => fs.Found t.2) .refl (fun h h' => h.trans h') (fun t h => h.addFile t.1 t.2)
      (fun c t u ht hu => .addFile_comm hfs c ht hu t.1 u.1) hperm hfair hc
  · rw [hview, Context.symbols_foldl_addFile]
  · rw [hview', Context.symbols_foldl_addFile]

/-! ### References -/

namespace Graph
variable {g g' : Graph}

theorem sortNames_of_perm {names names' : List String} (h : names.Perm names') : sortNames names = sortNames names' := by
  rw [sortNames, sortNames, sorted_congr h]

/-- The cycles are told by the edges in any order. -/
theorem cycles_of_perm (h : g.edges.Perm g'.edges) : g.cycles = g'.cycles := by
  have hsources : g.sources = g'.sources := sortNames_of_perm (h.map _)
  have hnodes : g.nodes = g'.nodes := sortNames_of_perm ((h.map _).append (h.map _))
  have htargets : g.targets = g'.targets := funext fun name => sortNames_of_perm ((h.filter _).map _)
  have hsearch (fuel : Nat) : searchFrom g fuel = searchFrom g' fuel := by
    induction fuel with
    | zero => rfl
    | succ fuel ih =>
      funext trail s name
      rw [searchFrom, searchFrom, htargets, ih]
  rw [cycles, cycles, hsources, hnodes, hsearch]

end Graph

/-- The pass over references looks at nothing besides, and tells which entry refers to which. -/
abbrev Telling.resolving : Telling (StateM Graph) Graph Unit (List (String × String)) (String × String) :=
  .following .plain (fun _ => ()) Graph.edges (fun edges edge => edges ++ [edge]) fun _ => True

theorem agree_addEdge (edge : String × String) :
    Telling.resolving.Agree Eq (modify fun g => ⟨g.edges ++ [edge]⟩ : StateM Graph PUnit)
      (modify fun g => ⟨g.edges ++ [edge]⟩) fun _ _ => True := by
  have hgives (u : Unit) : Telling.resolving.Gives (modify fun g => ⟨g.edges ++ [edge]⟩ : StateM Graph PUnit) u
      (some (⟨⟩, [edge])) :=
    Telling.gives_following (fun _ _ => ⟨rfl, rfl, rfl⟩) (List.forall_mem_singleton.mpr trivial)
  exact .of_gives hgives hgives trivial

theorem agree_resolveRef {root root' : Dict Value} (hroot : ∀ name, root'.contains name = root.contains name) :
    Hooks.Agree Telling.resolving Eq False { Hooks.keep with onValue := resolveRef root }
      { Hooks.keep with onValue := resolveRef root' } where
  deafValue _ _ _ := rfl
  deafValue' _ _ _ := rfl
  deafDict _ _ _ := rfl
  deafDict' _ _ _ := rfl
  onValue trail v w hvw := by
    have hmark : w.string?.bind (after? Key.reference) = v.string?.bind (after? Key.reference) := by rw [hvw.shows.1]
    simp only [resolveRef, hmark, hroot]
    split
    · exact .pure (.keep hvw)
    · rename_i name _
      split
      · exact .pure (.drop _)
      · cases (Spot.mk trail []).root? with
        | none => exact .pure (.keep (.atom _))
        | some owner => exact (agree_addEdge (owner, name)).bind fun _ _ _ => .pure (.keep (.atom _))
  onDict trail d e hde := .pure (.keep hde)

/-- The references of both dictionaries are resolved alike. -/
theorem Dict.rel_resolveRefs {d e : Dict Value} (hd : (Value.dict d).Reordered False (.dict e)) :
    Dict.Rearranged False d.resolveRefs.dict e.resolveRefs.dict ∧
      d.resolveRefs.issues.Perm e.resolveRefs.issues := by
  obtain ⟨hdict, hissues, _, _, ts, us, hperm, _, hview, hview'⟩ :=
    (agree_resolveRef hd.contains).following (fun _ => rfl) (fun _ => rfl) hd ⟨[]⟩ ⟨[]⟩ rfl
  have hedges (edges : List (String × String)) (before : List (String × String)) :
      edges.foldl (fun edges edge => edges ++ [edge]) before = before ++ edges := by
    induction edges generalizing before with
    | nil => exact (List.append_nil _).symm
    | cons edge rest ih => rw [List.foldl_cons, ih, List.append_assoc, List.singleton_append]
  have hresolve (d : Dict Value) : d.resolveRefs =
      ⟨(Evaluation.plain.after (d.visitRoot { Hooks.keep with onValue := resolveRef d }) ⟨[]⟩).1.dict,
        (Evaluation.plain.after (d.visitRoot { Hooks.keep with onValue := resolveRef d }) ⟨[]⟩).1.issues ++
          (Evaluation.plain.after (d.visitRoot { Hooks.keep with onValue := resolveRef d }) ⟨[]⟩).2.cycles.map
            .referenceCycle⟩ := rfl
  rw [hedges] at hview hview'
  rw [hresolve d, hresolve e]
  generalize Evaluation.plain.after (d.visitRoot _) _ = r at hdict hissues hview ⊢
  generalize Evaluation.plain.after (e.visitRoot _) _ = r' at hdict hissues hview' ⊢
  refine ⟨hdict, hissues.append (.of_eq ?_)⟩
  have hcycles : r.2.cycles = r'.2.cycles := by
    refine Graph.cycles_of_perm ?_
    rw [hview, hview']
    exact hperm
  rw [hcycles]

end

end AssetPack
