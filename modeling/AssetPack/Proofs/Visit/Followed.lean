import AssetPack.Proofs.Visit
import AssetPack.Visit

/-!
# Two visits side by side

Two visits of one dictionary are compared call by call. What is shown of the calls of their hooks holds of the whole
visits. Along with it goes what the visits owe: which hooks they have to call where, and what they have to report
themselves.
-/
namespace AssetPack

/-! ## What a visit comes to -/

/-- A stop of a visit: where it is, and what stands there. -/
structure Stop where
  trail : List Step
  node : Tree

mutual

/-- The stops in a tree, in the order in which a visit leaves them. -/
def Tree.stops (trail : List Step) : Tree → List Stop
  | .atom a => [⟨trail, .atom a⟩]
  | .list items => stopsItems trail 0 items ++ [⟨trail, .list items⟩]
  | .dict source d => d.stops trail ++ [⟨trail, .dict source d⟩]
  | .blob p => [⟨trail, .blob p⟩]
  | .broken source => [⟨trail, .broken source⟩]
termination_by structural t => t

def stopsItems (trail : List Step) (index : Nat) : List Tree → List Stop
  | [] => []
  | t :: ts => t.stops (.index index :: trail) ++ stopsItems trail (index + 1) ts
termination_by structural ts => ts

/-- The stops below a dictionary. -/
def Dict.stops (trail : List Step) : Dict Tree → List Stop
  | ⟨entries⟩ => stopsEntries trail entries
termination_by structural d => d

def stopsEntries (trail : List Step) : List (String × Tree) → List Stop
  | [] => []
  | (name, t) :: rest => t.stops (.name name :: trail) ++ stopsEntries trail rest
termination_by structural entries => entries

end

/-- The call of a hook: which one, and where. -/
inductive Call where
  | value (trail : List Step)
  | dict (trail : List Step)
  deriving DecidableEq

/-- The call that is made at a stop. What does not open gets none. -/
def Stop.call? (stop : Stop) : Option Call :=
  match stop.node with
  | .dict _ _ => some (.dict stop.trail)
  | .broken _ => none
  | _ => some (.value stop.trail)

/-- The calls in a tree, in their order. -/
def Tree.calls (trail : List Step) (t : Tree) : List Call := (t.stops trail).filterMap Stop.call?

/-- What a visit owes to a stop: the call of a hook, or the issue of a form that does not open. -/
inductive Due where
  | call (c : Call)
  | report (i : Issue)

namespace Due

def call? : Due → Option Call
  | call c => some c
  | report _ => none

def issue? : Due → Option Issue
  | call _ => none
  | report i => some i

end Due

def Stop.due (stop : Stop) : Due :=
  match stop.node with
  | .dict _ _ => .call (.dict stop.trail)
  | .broken source => .report (source.issue (Selector.renderTrail stop.trail))
  | _ => .call (.value stop.trail)

theorem Stop.call?_due (stop : Stop) : stop.due.call? = stop.call? := by
  obtain ⟨trail, node⟩ := stop
  cases node <;> rfl

/-! ## Visits with what they owe -/

section
variable {m n : Type → Type} [Monad m] [Monad n]

/-- A relation between parts of two visits that owe the same, which sequences keep. -/
structure Visiting.Tally (m n : Type → Type) [Monad m] [Monad n] where
  Rel {α : Type} : List Due → Visiting m α → Visiting n α → Prop
  pure {α : Type} (a : α) : Rel [] (pure a) (pure a)
  bind {α β : Type} {dues dues' : List Due} {x : Visiting m α} {y : Visiting n α} {f : α → Visiting m β}
    {g : α → Visiting n β} : Rel dues x y → (∀ a, Rel dues' (f a) (g a)) → Rel (dues ++ dues') (x >>= f) (y >>= g)

theorem Visiting.Tally.map (R : Visiting.Tally m n) {α β : Type} {dues : List Due} {x : Visiting m α}
    {y : Visiting n α} (h : R.Rel dues x y) (f : α → β) :
    R.Rel dues (x >>= fun a => Pure.pure (f a)) (y >>= fun a => Pure.pure (f a)) := by
  have hbind := R.bind h fun a => R.pure (f a)
  rwa [List.append_nil] at hbind

/-- The relation holds of the calls of these hooks, and of reports. -/
structure Hooks.Tallied (R : Visiting.Tally m n) (h : Hooks m) (h' : Hooks n) : Prop where
  report : ∀ (source : Source) place, R.Rel [.report (source.issue place)]
    (Visiting.report (source.issue place) : Visiting m Unit) (Visiting.report (source.issue place))
  onValue : ∀ trail v, R.Rel [.call (.value trail)] (Visiting.call h.onValue trail v)
    (Visiting.call h'.onValue trail v)
  onDict : ∀ trail d, R.Rel [.call (.dict trail)] (Visiting.call h.onDict trail d) (Visiting.call h'.onDict trail d)

namespace Hooks.Tallied
variable {R : Visiting.Tally m n} {h : Hooks m} {h' : Hooks n}

mutual

/-- Then it holds of the visits, which owe what their stops are owed. -/
theorem visit (hh : h.Tallied R h') (trail : List Step) :
    (t : Tree) → R.Rel ((t.stops trail).map Stop.due) (t.visit h trail) (t.visit h' trail)
  | .atom a => hh.onValue trail (.atom a)
  | .list items => by
    rw [Tree.stops, List.map_append]
    exact R.bind (hh.visitItems trail 0 items) fun items => hh.onValue trail (.list items)
  | .dict source d => by
    rw [Tree.stops, List.map_append]
    exact hh.visitDict trail d
  | .blob p => hh.onValue trail (.saved p)
  | .broken source => R.bind (hh.report source _) fun _ => R.pure none
termination_by structural t => t

theorem visitItems (hh : h.Tallied R h') (trail : List Step) (index : Nat) : (ts : List Tree) →
    R.Rel ((stopsItems trail index ts).map Stop.due) (AssetPack.visitItems h trail index ts)
      (AssetPack.visitItems h' trail index ts)
  | [] => R.pure []
  | t :: ts => by
    rw [stopsItems, List.map_append]
    exact R.bind (hh.visit (.index index :: trail) t) fun v =>
      R.map (hh.visitItems trail (index + 1) ts) (v.getD .null :: ·)
termination_by structural ts => ts

theorem visitDict (hh : h.Tallied R h') (trail : List Step) : (d : Dict Tree) →
    R.Rel ((d.stops trail).map Stop.due ++ [.call (.dict trail)]) (d.visit h trail) (d.visit h' trail)
  | ⟨entries⟩ => R.bind (hh.visitEntries trail entries) fun done => hh.onDict trail ⟨done⟩
termination_by structural d => d

theorem visitEntries (hh : h.Tallied R h') (trail : List Step) : (entries : List (String × Tree)) →
    R.Rel ((stopsEntries trail entries).map Stop.due) (AssetPack.visitEntries h trail entries)
      (AssetPack.visitEntries h' trail entries)
  | [] => R.pure []
  | (name, t) :: rest => by
    rw [stopsEntries, List.map_append]
    exact R.bind (hh.visit (.name name :: trail) t) fun v => R.map (hh.visitEntries trail rest) _
termination_by structural entries => entries

end

end Hooks.Tallied

end

/-!
## Two visits side by side

The hooks of a visit may have effects of any kind that goes from state to state. A relation between parts of two
visits that sequences keep holds of the whole visits if it holds of the calls of their hooks and of what the visits
report themselves. With one visit on both sides this is about that visit alone.
-/

section
variable {m n : Type → Type} [Monad m] [Monad n]

/-- How the computations of a kind go from state to state. -/
structure Execution (m : Type → Type) [Monad m] (S : Type) where
  run {α : Type} : m α → S → α × S
  run_pure {α : Type} (a : α) (s : S) : run (pure a) s = (a, s)
  run_bind {α β : Type} (x : m α) (f : α → m β) (s : S) : run (x >>= f) s = run (f (run x s).1) (run x s).2

namespace Visiting
variable {S α : Type}

/-- What the call of a hook answers and reports. -/
theorem run_call (E : Execution m S) (hook : Spot → α → m Reply) (trail : List Step) (a : α) (issues : List Issue)
    (s : S) : E.run ((call hook trail a).run issues) s =
      (((E.run (hook ⟨trail, issues⟩ a) s).1.value,
        issues ++ Issue.audible (E.run (hook ⟨trail, issues⟩ a) s).1.issues),
        (E.run (hook ⟨trail, issues⟩ a) s).2) := by
  have hrun : (call hook trail a).run issues = (Pure.pure (issues, issues) : m _) >>= fun r =>
      (hook ⟨trail, r.1⟩ a >>= fun reply => Pure.pure (reply, r.2)) >>= fun r =>
        Pure.pure ((), r.2 ++ Issue.audible r.1.issues) >>= fun q => Pure.pure (r.1.value, q.2) := rfl
  rw [hrun]
  simp only [E.run_bind, E.run_pure]

end Visiting

/-- A relation between parts of two visits that sequences keep. -/
structure Visiting.Relation (m n : Type → Type) [Monad m] [Monad n] where
  Rel {α : Type} : Visiting m α → Visiting n α → Prop
  pure {α : Type} (a : α) : Rel (pure a) (pure a)
  bind {α β : Type} {x : Visiting m α} {y : Visiting n α} {f : α → Visiting m β} {g : α → Visiting n β} :
    Rel x y → (∀ a, Rel (f a) (g a)) → Rel (x >>= f) (y >>= g)

/-- The relation holds of the calls of these hooks, and of reports. -/
structure Hooks.Relate (R : Visiting.Relation m n) (h : Hooks m) (h' : Hooks n) : Prop where
  report : ∀ (source : Source) place,
    R.Rel (Visiting.report (source.issue place) : Visiting m Unit) (Visiting.report (source.issue place))
  onValue : ∀ trail v, R.Rel (Visiting.call h.onValue trail v) (Visiting.call h'.onValue trail v)
  onDict : ∀ trail d, R.Rel (Visiting.call h.onDict trail d) (Visiting.call h'.onDict trail d)

namespace Hooks.Relate
variable {R : Visiting.Relation m n} {h : Hooks m} {h' : Hooks n}

/-- A relation of visits whatever they owe. -/
def tally (R : Visiting.Relation m n) : Visiting.Tally m n := ⟨fun _ => R.Rel, R.pure, R.bind⟩

theorem tallied (hh : h.Relate R h') : h.Tallied (tally R) h' := ⟨hh.report, hh.onValue, hh.onDict⟩

theorem visitDict (hh : h.Relate R h') (trail : List Step) (d : Dict Tree) :
    R.Rel (d.visit h trail) (d.visit h' trail) :=
  hh.tallied.visitDict trail d

end Hooks.Relate

end

/-!
## Two runs side by side

A computation follows another if it gives the same and its state stays in a relation to that of the other.
A visit follows another if its hooks do. So the hooks of a visit may keep what they like besides, such as
all that they report.
-/

section
variable {n : Type → Type} [Monad n] {S T α β : Type}

/-- What computations give, where each gives just one thing. -/
structure Evaluation (n : Type → Type) [Monad n] where
  run {α : Type} : n α → α
  run_pure {α : Type} (a : α) : run (pure a) = a
  run_bind {α β : Type} (x : n α) (f : α → n β) : run (x >>= f) = run (f (run x))

namespace Evaluation

def plain : Evaluation Id := ⟨Id.run, fun _ => rfl, fun _ _ => rfl⟩

def files (fs : Files) : Evaluation Look := ⟨Look.eval fs, Look.eval_pure fs, Look.eval_bind fs⟩

variable (E : Evaluation n)

/-- The answer of a computation with a state, and the state that it leaves. -/
def after (x : StateT S n α) (s : S) : α × S := E.run (x.run s)

theorem after_pure (a : α) (s : S) : E.after (pure a) s = (a, s) := E.run_pure _

theorem after_bind (x : StateT S n α) (f : α → StateT S n β) (s : S) :
    E.after (x >>= f) s = E.after (f (E.after x s).1) (E.after x s).2 := by
  rw [after, StateT.run_bind, E.run_bind]
  rfl

/-- A state beside what is given. -/
def execution (S : Type) : Execution (StateT S n) S := ⟨E.after, E.after_pure, E.after_bind⟩

theorem after_lift (x : n α) (s : S) : E.after (liftM x) s = (E.run x, s) := by
  have hlift : (liftM x : StateT S n α).run s = x >>= fun a => pure (a, s) := rfl
  rw [after, hlift, E.run_bind, E.run_pure]

theorem after_get (s : S) : E.after (get : StateT S n S) s = (s, s) := E.run_pure _

theorem after_set (s t : S) : E.after (set t : StateT S n PUnit) s = (⟨⟩, t) := E.run_pure _

theorem after_modify (f : S → S) (s : S) : E.after (modify f : StateT S n PUnit) s = (⟨⟩, f s) := E.run_pure _

end Evaluation

variable {E : Evaluation n}

/-- From states in the relation `y` goes to such states and gives what `x` gives, but for `f`. -/
def Follows (E : Evaluation n) (R : S → T → Prop) (f : α → β) (x : StateT S n α) (y : StateT T n β) : Prop :=
  ∀ s t, R s t → (E.after y t).1 = f (E.after x s).1 ∧ R (E.after x s).2 (E.after y t).2

namespace Follows
variable {R : S → T → Prop} {γ δ : Type} {f : α → β} {g : γ → δ}

theorem pure (a : α) : Follows E R f (Pure.pure a) (Pure.pure (f a)) := by
  intro s t h
  rw [E.after_pure, E.after_pure]
  exact ⟨rfl, h⟩

/-- The second parts follow for the answers that the first part may give. -/
theorem bind_of {x : StateT S n α} {y : StateT T n β} {next : α → StateT S n γ} {next' : β → StateT T n δ}
    {P : α → Prop} (h : Follows E R f x y) (hanswers : ∀ s t, R s t → P (E.after x s).1)
    (hnext : ∀ a, P a → Follows E R g (next a) (next' (f a))) : Follows E R g (x >>= next) (y >>= next') := by
  intro s t hst
  obtain ⟨hanswer, hafter⟩ := h s t hst
  rw [E.after_bind, E.after_bind, hanswer]
  exact hnext _ (hanswers s t hst) _ _ hafter

theorem bind {x : StateT S n α} {y : StateT T n β} {next : α → StateT S n γ} {next' : β → StateT T n δ}
    (h : Follows E R f x y) (hnext : ∀ a, Follows E R g (next a) (next' (f a))) :
    Follows E R g (x >>= next) (y >>= next') :=
  h.bind_of (P := fun _ => True) (fun _ _ _ => trivial) fun a _ => hnext a

/-- After a look at the state it is known. -/
theorem ask {next : S → StateT S n γ} {next' : T → StateT T n δ}
    (h : ∀ s t, R s t → Follows E R g (next s) (next' t)) : Follows E R g (get >>= next) (get >>= next') := by
  intro s t hst
  rw [E.after_bind, E.after_bind, E.after_get, E.after_get]
  exact h s t hst s t hst

theorem change {f : S → S} {f' : T → T} (h : ∀ s t, R s t → R (f s) (f' t)) :
    Follows E R id (modify f : StateT S n PUnit) (modify f') := by
  intro s t hst
  rw [E.after_modify, E.after_modify]
  exact ⟨rfl, h s t hst⟩

end Follows

namespace Visiting
variable {R : List Issue → S → T → Prop} {a : α} {x : Visiting (StateT S n) α} {y : Visiting (StateT T n) α}

/-- From the same issues and states in the relation `y` goes to such states, with the answer and the issues of
`x`. -/
def Follows (E : Evaluation n) (R : List Issue → S → T → Prop) (x : Visiting (StateT S n) α)
    (y : Visiting (StateT T n) α) : Prop :=
  ∀ issues s t, R issues s t → (E.after (y.run issues) t).1 = (E.after (x.run issues) s).1 ∧
    R (E.after (x.run issues) s).1.2 (E.after (x.run issues) s).2 (E.after (y.run issues) t).2

theorem Follows.pure (a : α) : Follows E R (Pure.pure a) (Pure.pure a) := by
  intro issues s t h
  rw [StateT.run_pure, StateT.run_pure, E.after_pure, E.after_pure]
  exact ⟨rfl, h⟩

theorem Follows.bind {next : α → Visiting (StateT S n) β} {next' : α → Visiting (StateT T n) β}
    (h : Follows E R x y) (hnext : ∀ a, Follows E R (next a) (next' a)) :
    Follows E R (x >>= next) (y >>= next') := by
  intro issues s t hst
  obtain ⟨hanswer, hafter⟩ := h issues s t hst
  rw [StateT.run_bind, StateT.run_bind, E.after_bind, E.after_bind, hanswer]
  exact hnext _ _ _ _ hafter

/-- As a relation that sequences keep. -/
def Follows.relation (E : Evaluation n) (R : List Issue → S → T → Prop) : Relation (StateT S n) (StateT T n) :=
  ⟨Follows E R, .pure, .bind⟩

end Visiting

/-- The call `y` of a hook answers as `x` does, where `issues` are there before. -/
def Reply.Follows (E : Evaluation n) (R : List Issue → S → T → Prop) (issues : List Issue)
    (x : StateT S n Reply) (y : StateT T n Reply) : Prop :=
  ∀ s t, R issues s t → (E.after y t).1 = (E.after x s).1 ∧
    R (issues ++ Issue.audible (E.after x s).1.issues) (E.after x s).2 (E.after y t).2

theorem Visiting.follows_call {R : List Issue → S → T → Prop} {hook : Spot → α → StateT S n Reply}
    {hook' : Spot → α → StateT T n Reply} {trail : List Step} {a : α}
    (h : ∀ issues, Reply.Follows E R issues (hook ⟨trail, issues⟩ a) (hook' ⟨trail, issues⟩ a)) :
    Follows E R (call hook trail a) (call hook' trail a) := by
  have hcall {S : Type} (hook : Spot → α → StateT S n Reply) (issues : List Issue) (s : S) :
      E.after ((call hook trail a).run issues) s =
        (((E.after (hook ⟨trail, issues⟩ a) s).1.value,
          issues ++ Issue.audible (E.after (hook ⟨trail, issues⟩ a) s).1.issues),
          (E.after (hook ⟨trail, issues⟩ a) s).2) := run_call (E.execution S) hook trail a issues s
  intro issues s t hst
  obtain ⟨hanswer, hafter⟩ := h issues s t hst
  rw [hcall, hcall, hanswer]
  exact ⟨rfl, hafter⟩

/-- The hooks `h'` answer as `h` do. -/
structure Hooks.Follow (E : Evaluation n) (R : List Issue → S → T → Prop) (h : Hooks (StateT S n))
    (h' : Hooks (StateT T n)) : Prop where
  report : ∀ i issues s t, R issues s t → R (issues ++ Issue.audible [i]) s t
  onValue : ∀ trail v issues, Reply.Follows E R issues (h.onValue ⟨trail, issues⟩ v) (h'.onValue ⟨trail, issues⟩ v)
  onDict : ∀ trail d issues, Reply.Follows E R issues (h.onDict ⟨trail, issues⟩ d) (h'.onDict ⟨trail, issues⟩ d)

namespace Hooks.Follow
variable {R : List Issue → S → T → Prop} {h : Hooks (StateT S n)} {h' : Hooks (StateT T n)}

theorem follows_report (hh : h.Follow E R h') (i : Issue) :
    Visiting.Follows E R (Visiting.report i : Visiting (StateT S n) Unit) (Visiting.report i) := by
  have hreport {S : Type} (issues : List Issue) (s : S) :
      E.after ((Visiting.report i : Visiting (StateT S n) Unit).run issues) s =
        (((), issues ++ Issue.audible [i]), s) := E.run_pure _
  intro issues s t hst
  rw [hreport, hreport]
  exact ⟨rfl, hh.report i issues s t hst⟩

theorem relate (hh : h.Follow E R h') : h.Relate (Visiting.Follows.relation E R) h' :=
  ⟨fun source place => hh.follows_report (source.issue place),
    fun trail v => Visiting.follows_call (hh.onValue trail v), fun trail d => Visiting.follows_call (hh.onDict trail d)⟩

/-- The whole visit, from the root. -/
theorem visitRoot (hh : h.Follow E R h') (d : Dict Value) {s : S} {t : T} (hst : R [] s t) :
    (E.after (d.visitRoot h') t).1 = (E.after (d.visitRoot h) s).1 ∧
      R (E.after (d.visitRoot h) s).1.issues (E.after (d.visitRoot h) s).2 (E.after (d.visitRoot h') t).2 := by
  obtain ⟨hanswer, hafter⟩ := hh.relate.visitDict [] d.tree [] s t hst
  rw [Dict.visitRoot, Dict.visitRoot, E.after_bind, E.after_bind, hanswer, E.after_pure, E.after_pure]
  exact ⟨rfl, hafter⟩

end Hooks.Follow

/-! ### What is overheard -/

/-- A computation that keeps a list of all issues of what it gives. -/
def overhear (issues : α → List Issue) (x : StateT S n α) : StateT (S × List Issue) n α := do
  let (s, log) ← get
  let (a, s) ← x.run s
  set (s, log ++ issues a)
  return a

theorem Evaluation.after_overhear (issues : α → List Issue) (x : StateT S n α) (s : S) (log : List Issue) :
    E.after (overhear issues x) (s, log) =
      ((E.after x s).1, (E.after x s).2, log ++ issues (E.after x s).1) := by
  rw [overhear, E.after_bind, E.after_get, E.after_bind, E.after_lift, E.after_bind, E.after_set, E.after_pure]
  rfl

/-- The hooks that keep a list of all that they report. -/
def Hooks.overheard (h : Hooks (StateT S n)) : Hooks (StateT (S × List Issue) n) :=
  ⟨fun spot v => overhear Reply.issues (h.onValue spot v), fun spot d => overhear Reply.issues (h.onDict spot d)⟩

/-- All that the hooks of a visit report. -/
def Dict.replies (E : Evaluation n) (h : Hooks (StateT S n)) (d : Dict Value) (s : S) : List Issue :=
  (E.after (d.visitRoot h.overheard) (s, [])).2.2

theorem Issue.audible_append (is js : List Issue) : audible (is ++ js) = audible is ++ audible js :=
  List.filter_append ..

/-- The same state, and no issue that was overheard and has words is missing. -/
def Overheard (issues : List Issue) (s : S) (t : S × List Issue) : Prop :=
  t.1 = s ∧ Issue.audible t.2 ⊆ issues

theorem Overheard.append {issues : List Issue} {s : S} {t : S × List Issue} (h : Overheard issues s t)
    (more : List Issue) : Overheard (issues ++ more) s t :=
  ⟨h.1, List.Subset.trans h.2 (List.subset_append_left _ _)⟩

theorem Hooks.follow_overheard (h : Hooks (StateT S n)) : h.Follow E Overheard h.overheard := by
  have hreply (x : StateT S n Reply) (issues : List Issue) :
      Reply.Follows E Overheard issues x (overhear Reply.issues x) := by
    rintro s ⟨_, log⟩ ⟨rfl, hlog⟩
    rw [E.after_overhear]
    refine ⟨rfl, rfl, ?_⟩
    rw [Issue.audible_append]
    exact List.append_subset.mpr
      ⟨List.Subset.trans hlog (List.subset_append_left _ _), List.subset_append_right _ _⟩
  exact ⟨fun i issues s t ht => ht.append _, fun _ _ issues => hreply _ issues, fun _ _ issues => hreply _ issues⟩

/-- A visit that is overheard is the same, and of all that its hooks report nothing with words is lost. -/
theorem Dict.visitRoot_overheard (E : Evaluation n) (h : Hooks (StateT S n)) (d : Dict Value) (s : S) :
    (E.after (d.visitRoot h.overheard) (s, [])).1 = (E.after (d.visitRoot h) s).1 ∧
      Issue.audible (d.replies E h s) ⊆ (E.after (d.visitRoot h) s).1.issues := by
  obtain ⟨hvisited, _, hheard⟩ := h.follow_overheard.visitRoot d (E := E) (s := s) (t := (s, [])) ⟨rfl, List.nil_subset _⟩
  exact ⟨hvisited, hheard⟩

end

/-!
## Visits that go alike

Two visits of the same dictionary can have effects of different kinds, such as one that writes files and one that
only notes them. If the one reports nothing, and its hooks go like those of the other as long as they report nothing,
then both make the same of the dictionary.
-/

/-- A state and nothing besides. -/
def Execution.plain (S : Type) : Execution (StateM S) S := ⟨fun x s => x.run s, fun _ _ => rfl, fun _ _ _ => rfl⟩

variable {m n : Type → Type} [Monad m] [Monad n] {S T α β : Type} {E : Execution m S} {F : Execution n T}
  {R : S → T → Prop}

/-- From states in the relation, if `x` reports nothing, `y` answers the same and goes to such a state. -/
def Reply.Mirrors (E : Execution m S) (F : Execution n T) (R : S → T → Prop) (x : m Reply) (y : n Reply) : Prop :=
  ∀ s t, R s t → Issue.audible (E.run x s).1.issues = [] →
    (F.run y t).1 = (E.run x s).1 ∧ R (E.run x s).2 (F.run y t).2

theorem Reply.mirrors_pure (reply : Reply) : Reply.Mirrors E F R (pure reply) (pure reply) := by
  intro s t hst _
  rw [E.run_pure, F.run_pure]
  exact ⟨rfl, hst⟩

namespace Visiting

/-- The same for parts of visits. If no issue is there at the end of `x`, then there was none before. -/
def Mirrors (E : Execution m S) (F : Execution n T) (R : S → T → Prop) (x : Visiting m α) (y : Visiting n α) : Prop :=
  ∀ issues s, (E.run (x.run issues) s).1.2 = [] → issues = [] ∧ ∀ t, R s t →
    (F.run (y.run []) t).1 = (E.run (x.run []) s).1 ∧ R (E.run (x.run []) s).2 (F.run (y.run []) t).2

namespace Mirrors
variable {x : Visiting m α} {y : Visiting n α}

theorem pure (a : α) : Mirrors E F R (Pure.pure a : Visiting m α) (Pure.pure a) := by
  intro issues s hissues
  rw [StateT.run_pure, E.run_pure] at hissues
  refine ⟨hissues, fun t hst => ?_⟩
  rw [StateT.run_pure, StateT.run_pure, E.run_pure, F.run_pure]
  exact ⟨rfl, hst⟩

theorem bind {f : α → Visiting m β} {g : α → Visiting n β} (h : Mirrors E F R x y)
    (hnext : ∀ a, Mirrors E F R (f a) (g a)) : Mirrors E F R (x >>= f) (y >>= g) := by
  intro issues s hissues
  rw [StateT.run_bind, E.run_bind] at hissues
  -- issues stay, so there was none in between either, and both parts go alike
  obtain ⟨hmiddle, hsecond⟩ := hnext _ _ _ hissues
  obtain ⟨rfl, hfirst⟩ := h issues s hmiddle
  refine ⟨rfl, fun t hst => ?_⟩
  obtain ⟨hanswer, hafter⟩ := hfirst t hst
  rw [StateT.run_bind, StateT.run_bind, E.run_bind, F.run_bind, hanswer, hmiddle]
  exact hsecond _ hafter

/-- As a relation that sequences keep. -/
def relation (E : Execution m S) (F : Execution n T) (R : S → T → Prop) : Relation m n := ⟨Mirrors E F R, pure, bind⟩

end Mirrors

theorem mirrors_call {hook : Spot → α → m Reply} {hook' : Spot → α → n Reply} {trail : List Step} {a : α}
    (h : Reply.Mirrors E F R (hook ⟨trail, []⟩ a) (hook' ⟨trail, []⟩ a)) :
    Mirrors E F R (call hook trail a) (call hook' trail a) := by
  intro issues s hissues
  rw [run_call] at hissues
  obtain ⟨rfl, haudible⟩ := List.append_eq_nil_iff.mp hissues
  refine ⟨rfl, fun t hst => ?_⟩
  obtain ⟨hanswer, hafter⟩ := h s t hst haudible
  rw [run_call, run_call, hanswer]
  exact ⟨rfl, hafter⟩

/-- After a report with words there is an issue. -/
theorem mirrors_report {i : Issue} (hi : i.Own) :
    Mirrors E F R (report i : Visiting m Unit) (report i) := by
  intro issues s hissues
  have hrun : (report i : Visiting m Unit).run issues = Pure.pure ((), issues ++ Issue.audible [i]) := rfl
  rw [hrun, E.run_pure, Issue.audible_of_own hi] at hissues
  exact absurd hissues (List.append_ne_nil_of_right_ne_nil _ (List.cons_ne_nil i []))

end Visiting

/-- Hooks that go like others where nothing was reported so far. -/
structure Hooks.Mirror (E : Execution m S) (F : Execution n T) (R : S → T → Prop) (h : Hooks m) (h' : Hooks n) :
    Prop where
  onValue : ∀ trail v, Reply.Mirrors E F R (h.onValue ⟨trail, []⟩ v) (h'.onValue ⟨trail, []⟩ v)
  onDict : ∀ trail d, Reply.Mirrors E F R (h.onDict ⟨trail, []⟩ d) (h'.onDict ⟨trail, []⟩ d)

namespace Hooks.Mirror
variable {h : Hooks m} {h' : Hooks n}

theorem relate (hh : h.Mirror E F R h') : h.Relate (Visiting.Mirrors.relation E F R) h' :=
  ⟨fun source _ => Visiting.mirrors_report source.own_issue,
    fun trail v => Visiting.mirrors_call (hh.onValue trail v), fun trail d => Visiting.mirrors_call (hh.onDict trail d)⟩

/-- The whole visit, from the root. -/
theorem visitRoot (hh : h.Mirror E F R h') {d : Dict Value} {s : S} {t : T} (hst : R s t)
    (hissues : (E.run (d.visitRoot h) s).1.issues = []) :
    (F.run (d.visitRoot h') t).1 = (E.run (d.visitRoot h) s).1 ∧
      R (E.run (d.visitRoot h) s).2 (F.run (d.visitRoot h') t).2 := by
  rw [Dict.visitRoot, E.run_bind, E.run_pure] at hissues
  obtain ⟨hanswer, hafter⟩ := (hh.relate.visitDict [] d.tree [] s hissues).2 t hst
  rw [Dict.visitRoot, Dict.visitRoot, E.run_bind, F.run_bind, hanswer, E.run_pure, F.run_pure]
  exact ⟨rfl, hafter⟩

end Hooks.Mirror

end AssetPack
