import AssetPack.Proofs.Description.Noted
import AssetPack.Proofs.Description.Passes
import AssetPack.Proofs.Description.Told

/-!
# Nothing is lost without words

A pass may leave something out only if it says so, and a compile that was told so makes nothing at all.
-/
namespace AssetPack

/-!
## No name is lost

The hooks of the passes never drop a value without words, and the passes behind the visits only set
entries. So a compile that ends well has every name of its description that does not stand for something
to be put in place.
-/

section
variable {n : Type → Type} [Monad n] {A : Answers n} {S : Type}

/-- The hooks keep the root, and they report what else they drop. -/
structure Hooks.Frank (A : Answers n) (h : Hooks (StateT S n)) : Prop where
  onValue : ∀ spot v, Reply.Upholds A (fun _ => True) (fun _ => True) True (h.onValue spot v) fun w => w.isSome
  onDict : ∀ spot d, Reply.Upholds A (fun _ => True) (fun _ => True) True (h.onDict spot d) fun w => w.isSome
  root : ∀ issues d, h.onDict ⟨[], issues⟩ d = pure (.keep (.dict d))

namespace Hooks.Frank
variable {h : Hooks (StateT S n)}

mutual

/-- What such hooks visit is still there, unless something was reported. -/
theorem visit (hh : h.Frank A) (trail : List Step) : (t : Tree) →
    Visiting.Upholds A (fun _ => True) (fun _ => True) True (t.visit h trail) fun v => v.isSome
  | .atom a => Visiting.upholds_call fun _ => hh.onValue _ (.atom a)
  | .list items => (hh.visitItems trail 0 items).bind fun items =>
      Visiting.upholds_call fun _ => hh.onValue _ (.list items)
  | .dict _ d => hh.visitDict trail d
  | .blob p => Visiting.upholds_call fun _ => hh.onValue _ (.saved p)
  | .broken source => (Visiting.upholds_report source.own_issue).bind fun _ => .pure fun h => h
termination_by structural t => t

theorem visitItems (hh : h.Frank A) (trail : List Step) (index : Nat) : (items : List Tree) →
    Visiting.Upholds A (fun _ => True) (fun _ => True) True (AssetPack.visitItems h trail index items) fun _ => True
  | [] => .pure id
  | t :: rest => (hh.visit (.index index :: trail) t).bind fun _ =>
      (hh.visitItems trail (index + 1) rest).frame.bind fun _ => .pure fun _ => trivial
termination_by structural items => items

theorem visitDict (hh : h.Frank A) (trail : List Step) : (d : Dict Tree) →
    Visiting.Upholds A (fun _ => True) (fun _ => True) True (d.visit h trail) fun v => v.isSome
  | ⟨entries⟩ => ((hh.visitEntries trail entries).mono fun _ _ => trivial).bind fun _ =>
      Visiting.upholds_call fun _ => hh.onDict _ _
termination_by structural d => d

theorem visitEntries (hh : h.Frank A) (trail : List Step) : (entries : List (String × Tree)) →
    Visiting.Upholds A (fun _ => True) (fun _ => True) True (AssetPack.visitEntries h trail entries)
      fun done => done.map (·.1) = entries.map (·.1)
  | [] => .pure fun _ => rfl
  | (name, t) :: rest => (hh.visit (.name name :: trail) t).bind fun v =>
      (hh.visitEntries trail rest).frame.bind fun done => .pure (by
        rintro ⟨hv, hdone⟩
        obtain ⟨w, rfl⟩ := Option.isSome_iff_exists.mp hv
        rw [List.map_cons, List.map_cons, hdone])
termination_by structural entries => entries

end

/-- A dictionary that is visited without a report keeps its names. -/
theorem names_of_visitRoot (hh : h.Frank A) {d : Dict Value} {s s' : S} {visited : Visited}
    (hmay : A.May ((d.visitRoot h).run s) (visited, s')) (hissues : visited.issues = []) {e : Dict Value}
    (he : visited.dict = some e) : e.names = d.names := by
  have hroot := Dict.upholds_visitRoot hh.root (hh.visitEntries [] d.tree.entries) hmay hissues trivial
  obtain ⟨_, done, hdone, hnames⟩ := hroot.2 trivial
  obtain rfl : e = ⟨done⟩ := Option.some.inj (he.symm.trans hdone)
  exact hnames.trans (by rw [Dict.tree_eq, ← Dict.names, Dict.names_map])

end Hooks.Frank
/-! ### The hooks of the passes -/

variable {α : Type} {fs : Files} {σ : Type}

theorem keeps_any (x : StateT S n α) : Keeps A (fun _ => True) x fun _ => True :=
  fun _ _ _ _ _ => ⟨trivial, trivial⟩

theorem frank_locate (fs : Files) :
    Hooks.Frank (Answers.files fs) { Hooks.keep with onValue := locate } := by
  refine ⟨fun s v => ?_, fun s d => Reply.upholds_pure fun _ _ => rfl, fun _ _ => rfl⟩
  show Reply.Upholds _ _ _ _ (locate s v) _
  unfold locate
  split
  · exact Reply.upholds_pure fun _ _ => rfl
  · refine Reply.upholds_of_keeps fun _ => Keeps.bind (keeps_any _) fun c _ => Keeps.bind (keeps_any _) fun found _ => ?_
    cases found with
    | ok path =>
      exact Keeps.bind (keeps_any _) fun _ _ => Keeps.bind (keeps_any _) fun _ _ => Keeps.pure fun _ => rfl
    | error e => exact Keeps.pure fun _ => rfl

theorem frank_resolveRef (root : Dict Value) :
    Hooks.Frank Answers.plain { Hooks.keep with onValue := resolveRef root } := by
  refine ⟨fun s v => ?_, fun s d => Reply.upholds_pure fun _ _ => rfl, fun _ _ => rfl⟩
  show Reply.Upholds _ _ _ _ (resolveRef root s v) _
  unfold resolveRef
  split
  · exact Reply.upholds_pure fun _ _ => rfl
  · split
    · exact Reply.upholds_pure fun hissues _ => (Reply.not_own_of_drop hissues trivial).elim
    · refine Reply.upholds_of_keeps fun _ => ?_
      split
      · exact Keeps.bind (keeps_any _) fun _ _ => Keeps.pure fun _ => rfl
      · exact Keeps.pure fun _ => rfl

theorem frank_load (fs : Files) (registry : Registry σ) :
    Hooks.Frank (Answers.files fs) { Hooks.keep with onDict := Loading.load registry } := by
  refine ⟨fun s v => Reply.upholds_pure fun _ _ => rfl, fun s d => ?_, fun _ _ => rfl⟩
  refine Reply.upholds_of_keeps fun _ => ?_
  show Keeps _ _ (Loading.load registry s d) _
  obtain ⟨trail, issues⟩ := s
  unfold Loading.load
  simp only
  split
  · exact Keeps.pure fun _ => rfl
  · refine Keeps.bind (keeps_any _) fun _ _ => ?_
    split
    · exact Keeps.pure fun _ => rfl
    · split
      · exact Keeps.pure fun hissues => (Reply.not_own_of_drop hissues trivial).elim
      · refine Keeps.bind (keeps_any _) fun made _ => ?_
        cases made with
        | none => exact Keeps.pure fun hissues => (Reply.not_own_of_drop hissues trivial).elim
        | some r => exact Keeps.bind (keeps_any _) fun _ _ => Keeps.pure fun _ => rfl
  · split
    · exact Keeps.pure fun _ => rfl
    · split
      · exact Keeps.pure fun hissues => (Reply.not_own_of_drop hissues trivial).elim
      · refine Keeps.bind (keeps_any _) fun made _ => ?_
        cases made with
        | none => exact Keeps.pure fun hissues => (Reply.not_own_of_drop hissues trivial).elim
        | some r =>
          dsimp only
          split
          · exact Keeps.bind (keeps_any _) fun _ _ => Keeps.pure fun _ => rfl
          · refine Keeps.bind (keeps_any _) fun ok _ => ?_
            split
            · exact Keeps.pure fun hissues => (Reply.not_own_of_drop hissues trivial).elim
            · split
              · exact Keeps.pure fun _ => rfl
              · exact Keeps.pure fun hissues => (Reply.not_own_of_drop hissues trivial).elim

/-! ### Saving and recording -/

theorem names_saveRoots (roots : List (String × Resource σ)) (d : Dict Value) :
    (saveRoots roots d).1.names = d.names := by
  unfold saveRoots
  refine List.foldlRecOn (motive := fun s : Dict Value × List Issue => s.1.names = d.names) roots _ rfl
    fun s hs root _ => ?_
  dsimp only
  split
  · exact hs
  · rename_i entry hentry
    obtain ⟨v, hget, _⟩ := Option.bind_eq_some_iff.mp hentry
    split
    · rw [Dict.names_set, if_pos (Dict.mem_names_of_get? hget), hs]
    · exact hs

theorem names_subset_addSiblings (roots : List (String × Resource σ)) (d : Dict Value) (context : Context) :
    d.names ⊆ (addSiblings roots d context).1.names := by
  unfold addSiblings
  refine List.foldlRecOn (motive := fun s : Dict Value × Context × List Issue => d.names ⊆ s.1.names) roots _
    (List.Subset.refl _) fun s hs root _ => ?_
  refine List.foldlRecOn (motive := fun s : Dict Value × Context × List Issue => d.names ⊆ s.1.names) _ _ hs
    fun s hs sibling _ => ?_
  unfold addSibling
  dsimp only
  split
  · exact hs
  · exact List.Subset.trans hs (Dict.names_subset_set _ _ _)

theorem names_subset_withMetadata (context : Context) (d : Dict Value) : d.names ⊆ (withMetadata context d).names :=
  Outlasts.withMetadata (P := fun e => d.names ⊆ e.names)
    ⟨fun e name v he _ _ => List.Subset.trans he (e.names_subset_set name v),
      fun _ e name _ he _ => List.Subset.trans he (e.names_subset_set name _)⟩ (List.Subset.refl _)

/-! ### The chain of passes -/

/-- A pass that finds nothing keeps all names. -/
theorem Pass.names_of_run {registry : Registry σ} {p : Ended σ} {d e : Dict Value} (pass : Pass)
    (h : (pass.run fs registry p d).concluded = .ok e) : d.names ⊆ e.names := by
  obtain ⟨hdict, hissues⟩ := Context.of_conclude h
  obtain ⟨hissues, _⟩ := List.append_eq_nil_iff.mp hissues
  cases pass with
  | files =>
    have hnames := (frank_locate fs).names_of_visitRoot (d := d) (s := p.context) rfl hissues hdict
    exact hnames ▸ List.Subset.refl _
  | references =>
    have hnames := (frank_resolveRef d).names_of_visitRoot (d := d) (s := ⟨[]⟩) rfl
      (List.append_eq_nil_iff.mp hissues).1 hdict
    exact hnames ▸ List.Subset.refl _
  | objects =>
    have hnames := (frank_load fs registry).names_of_visitRoot (d := d) (s := ⟨p.context, [], p.world⟩) rfl
      hissues hdict
    exact hnames ▸ List.Subset.refl _
  | finishing =>
    cases hdict
    exact List.Subset.refl _
  | saving =>
    cases hdict
    exact names_saveRoots p.roots d ▸ names_subset_addSiblings p.roots _ p.context

/-- What the last pass is concluded with has all names that the first was concluded with. -/
theorem Ended.names_of_ends {registry : Registry σ} {passes : List Pass} {p last : Ended σ}
    (hlast : (p.ends fs registry passes).getLast? = some last) {e : Dict Value} (he : last.concluded = .ok e) :
    ∃ d, p.concluded = .ok d ∧ d.names ⊆ e.names := by
  induction passes generalizing p with
  | nil =>
    cases hlast
    exact ⟨e, he, List.Subset.refl _⟩
  | cons pass rest ih =>
    cases hconcluded : p.concluded with
    | ok d =>
      rw [getLast?_ends_of_ok hconcluded] at hlast
      obtain ⟨d', hd', hnames⟩ := ih hlast
      exact ⟨d, rfl, List.Subset.trans (pass.names_of_run hd') hnames⟩
    | error issues =>
      rw [ends_of_error hconcluded] at hlast
      cases hlast
      cases hconcluded.symm.trans he

end

/-!
## All or nothing

A compile makes a whole dictionary or none. What is reported in it with words, by a pass, by a type or by
a resource, ends it and is among the issues that it ends with.
-/

section
variable {σ : Type} {fs : Files}

/-- What the hooks of a pass report with words it ends with. -/
theorem Pass.audible_replies {registry : Registry σ} {p : Ended σ} {d : Dict Value} (pass : Pass) :
    Issue.audible (pass.run fs registry p d).replies ⊆ (pass.run fs registry p d).issues := by
  cases pass with
  | files => exact (d.visitRoot_overheard (.files fs) _ p.context).2
  | references =>
    let hooks : Hooks (StateM Graph) := { Hooks.keep with onValue := resolveRef d }
    exact List.Subset.trans (d.visitRoot_overheard .plain hooks (Graph.mk [])).2 (List.subset_append_left _ _)
  | objects => exact (d.visitRoot_overheard (.files fs) _ (Loading.mk p.context [] p.world)).2
  | finishing => exact List.nil_subset _
  | saving => exact List.nil_subset _

theorem Ended.audible_replies_of_mem_ends {registry : Registry σ} {passes : List Pass} {p q : Ended σ}
    (hp : Issue.audible p.replies ⊆ p.issues) (hq : q ∈ p.ends fs registry passes) :
    Issue.audible q.replies ⊆ q.issues := by
  induction passes generalizing p with
  | nil =>
    obtain rfl := List.mem_singleton.mp hq
    exact hp
  | cons pass rest ih =>
    cases hconcluded : p.concluded with
    | ok d =>
      rw [ends, hconcluded] at hq
      rcases List.mem_cons.mp hq with rfl | hq
      · exact hp
      · exact ih pass.audible_replies hq
    | error issues =>
      rw [ends_of_error hconcluded] at hq
      obtain rfl := List.mem_singleton.mp hq
      exact hp

/-- All that is reported in a pass is told at the end. -/
theorem Ended.tells_of_mem_reported {registry : Registry σ} {passes : List Pass} {p q last : Ended σ}
    (hp : Issue.audible p.replies ⊆ p.issues) (hlast : (p.ends fs registry passes).getLast? = some last)
    (hq : q ∈ p.ends fs registry passes) {i : Issue} (hi : i ∈ q.reported) : last.outcome.1.Tells i := by
  intro hloud
  have hmem : i ∈ q.issues ++ q.context.issues := by
    rcases List.mem_append.mp hi with hreply | hmem
    · refine List.mem_append_left _ (audible_replies_of_mem_ends hp hq ?_)
      exact List.mem_filter.mpr ⟨hreply, by rw [hloud]; rfl⟩
    · exact hmem
  obtain ⟨issues, herror, hmem⟩ := tells_of_mem_ends hlast hq hmem
  refine ⟨issues, ?_, hmem⟩
  rw [outcome, herror]
  rfl

theorem Ended.ne_nil_of_outcome {p : Ended σ} {issues : List Issue} (h : p.outcome.1 = .error issues) :
    issues ≠ [] := by
  rw [outcome] at h
  cases hconcluded : p.concluded with
  | ok d =>
    rw [hconcluded] at h
    cases h
  | error all =>
    rw [hconcluded] at h
    cases h
    exact (Context.of_conclude_error hconcluded).1

/-- A last pass that is overheard ends the compile in the same way, which tells all that was overheard. -/
theorem Ended.Heard.outcome {p : Ended σ} {p' : Ended (σ × List Issue)} (h : p.Heard p') :
    p'.outcome = (p.outcome.1, p.outcome.2, p'.world.2) ∧ ∀ i ∈ p'.world.2, p.outcome.1.Tells i := by
  constructor
  · rw [Ended.outcome, h.concluded, h.context, Ended.outcome, ← h.world]
  · intro i hi hloud
    have hmem : i ∈ p.context.issues := h.heard (List.mem_filter.mpr ⟨hi, by rw [hloud]; rfl⟩)
    obtain ⟨issues, herror, hmem⟩ := tells_of_mem (List.mem_append_right p.issues hmem)
    refine ⟨issues, ?_, hmem⟩
    rw [Ended.outcome, herror]
    rfl

theorem Dict.ends_of_expand {fuel : Nat} {o : Options σ} {base : Path} {d : Dict Value} {visited : Visited}
    {context : Context} (h : (d.expand fuel o.localize (.start base o.debug)).run.eval fs = some (visited, context))
    (w : σ) : d.ends fs fuel o base w =
      (⟨visited.dict, visited.issues, [], context, [], w⟩ : Ended σ).ends fs o.registry Pass.all := by
  rw [ends, h]

/-- An entry that embeds a file, and values for its scope. -/
def describedEntry : Dict Value :=
  Dict.ofList [(Key.values, .dict (Dict.ofList [("f", .string "file:b")])),
    ("a", .dict (Dict.ofList [(Key.type, .string "file"), ("file", .string "res:f")]))]

/-- A type that makes a resource and still has something to say. -/
def doubtful : Factory Unit where
  fromSource _ _ := return (some (.simple "doubtful" .other fun d => (true, d)), [.issue (.said "is it right?")])
  fromCache _ := return none

example : (Compiling.eval (oneFile "/b") ((Dict.ofList [("a", .dict (Dict.ofList [(Key.type, .string "doubtful")]))]).compile
    8 ⟨false, ⟨⟨[("doubtful", doubtful)]⟩⟩, fun _ => none⟩ "") ()).map (fun r => r.1.toOption.isNone) = some true := by
  decide +kernel

end

end AssetPack
