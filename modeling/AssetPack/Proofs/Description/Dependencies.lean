import AssetPack.Proofs.Description.Cycles
import AssetPack.Proofs.Description.Noted

/-!
# The order of finishing

Each resource that is finished itself is called, and all calls are recorded, the latest first. They stand in an
order in which a resource comes after all those that it needs, and each of these did finish. No resource is
called twice. What is not called is doomed: it comes to a cycle, or to a call that failed. So a resource is called
exactly if no way leads from it to a cycle and everything else that it comes to did finish.
-/
namespace AssetPack
open Relation
variable {σ : Type} {fs : Files}

/-- The resource `a` depends on `b`, which is one as well. -/
def Dict.Needs (objects : Dict (Resource σ)) (a b : String) : Prop :=
  ∃ r, objects.get? a = some r ∧ b ∈ r.dependencies ∧ b ∈ objects.names

/-- The calls of resources, the latest first, with the name of each and whether it finished. -/
abbrev Calls := List (String × Bool)

/-! ## Calls in order -/

/-- No name is called twice, and each after all that it needs did finish. -/
def InOrder (needs : String → String → Prop) : Calls → Prop
  | [] => True
  | (name, _) :: earlier =>
    name ∉ earlier.map (·.1) ∧ (∀ b, needs name b → (b, true) ∈ earlier) ∧ InOrder needs earlier

/-- From the name one comes to a cycle, or to a call that failed. -/
def Doomed (needs : String → String → Prop) (calls : Calls) (name : String) : Prop :=
  ∃ m, ReflTransGen needs name m ∧ (TransGen needs m m ∨ (m, false) ∈ calls)

section
variable {needs : String → String → Prop} {calls : Calls}

theorem InOrder.nodup (h : InOrder needs calls) : (calls.map (·.1)).Nodup := by
  induction calls with
  | nil => exact List.nodup_nil
  | cons call earlier ih => exact List.nodup_cons.mpr ⟨h.1, ih h.2.2⟩

theorem InOrder.earlier {later : Calls} {name : String} {ok : Bool} {earlier : Calls}
    (h : InOrder needs (later ++ (name, ok) :: earlier)) {b : String} (hb : needs name b) : (b, true) ∈ earlier := by
  induction later with
  | nil => exact h.2.1 b hb
  | cons call later ih => exact ih h.2.2

theorem InOrder.settled (h : InOrder needs calls) : Settled needs (calls.map (·.1)) := by
  induction calls with
  | nil => trivial
  | cons call earlier ih => exact ⟨fun b hb => List.mem_map_of_mem (h.2.1 b hb), ih h.2.2⟩

theorem InOrder.of_needs (h : InOrder needs calls) {a b : String} (ha : a ∈ calls.map (·.1)) (hab : needs a b) :
    (b, true) ∈ calls := by
  obtain ⟨⟨_, ok⟩, hcall, rfl⟩ := List.mem_map.mp ha
  obtain ⟨later, earlier, rfl⟩ := List.append_of_mem hcall
  exact List.mem_append_right _ (List.mem_cons_of_mem _ (h.earlier hab))

/-- All that a called name comes to did finish. -/
theorem InOrder.of_transGen (h : InOrder needs calls) {a b : String} (ha : a ∈ calls.map (·.1))
    (hab : TransGen needs a b) : (b, true) ∈ calls := by
  induction hab with
  | single hstep => exact h.of_needs ha hstep
  | tail _ hstep ih => exact h.of_needs (List.mem_map_of_mem ih) hstep

theorem InOrder.not_both (h : InOrder needs calls) {name : String} (htrue : (name, true) ∈ calls) :
    (name, false) ∉ calls := by
  intro hfalse
  have hsame := List.inj_on_of_nodup_map h.nodup htrue hfalse rfl
  cases hsame

/-- What is doomed does not finish. -/
theorem InOrder.not_doomed (h : InOrder needs calls) {name : String} (hname : (name, true) ∈ calls) :
    ¬Doomed needs calls name := by
  rintro ⟨m, hreach, hbad⟩
  have hm : (m, true) ∈ calls := by
    rcases reflTransGen_iff_eq_or_transGen.mp hreach with rfl | hreach
    · exact hname
    · exact h.of_transGen (List.mem_map_of_mem hname) hreach
  rcases hbad with hcycle | hfailed
  · exact h.settled.not_cyclic (List.mem_map_of_mem hm) hcycle
  · exact h.not_both hm hfailed

theorem Doomed.mono {calls' : Calls} {name : String} (h : Doomed needs calls name) (hcalls : calls ⊆ calls') :
    Doomed needs calls' name := by
  obtain ⟨m, hreach, hbad⟩ := h
  exact ⟨m, hreach, hbad.imp_right fun hfailed => hcalls hfailed⟩

theorem Doomed.head {a b : String} (h : Doomed needs calls b) (hab : needs a b) : Doomed needs calls a := by
  obtain ⟨m, hreach, hbad⟩ := h
  exact ⟨m, .head hab hreach, hbad⟩

theorem Doomed.of_cycle {name : String} (h : TransGen needs name name) : Doomed needs calls name :=
  ⟨name, .refl, .inl h⟩

theorem Doomed.of_failed {name : String} (h : (name, false) ∈ calls) : Doomed needs calls name :=
  ⟨name, .refl, .inr h⟩

/-- Where each object did finish or is doomed, the calls are told by the dependencies. -/
theorem InOrder.mem_iff (h : InOrder needs calls) {objects : List String} (hobjects : calls.map (·.1) ⊆ objects)
    (hall : ∀ name ∈ objects, (name, true) ∈ calls ∨ Doomed needs calls name) (name : String) :
    name ∈ calls.map (·.1) ↔ name ∈ objects ∧ (∀ m, ReflTransGen needs name m → ¬TransGen needs m m) ∧
      ∀ m, TransGen needs name m → (m, true) ∈ calls := by
  constructor
  · intro hname
    refine ⟨hobjects hname, fun m hreach => ?_, fun m hreach => h.of_transGen hname hreach⟩
    exact h.settled.not_cyclic (h.settled.mem_of_reaches hname hreach)
  · rintro ⟨hobject, hcycles, hfinished⟩
    rcases hall name hobject with hdone | ⟨m, hreach, hbad⟩
    · exact List.mem_map_of_mem hdone
    · rcases hbad with hcycle | hfailed
      · exact absurd hcycle (hcycles m hreach)
      · rcases reflTransGen_iff_eq_or_transGen.mp hreach with rfl | hreach
        · exact List.mem_map_of_mem hfailed
        · exact absurd hfailed (h.not_both (hfinished m hreach))

end

/-! ## Recorded resources -/

/-- A resource whose world keeps a list of all calls. -/
def Resource.recorded (name : String) (r : Resource σ) : Resource (σ × Calls) where
  typeName := r.typeName
  body := r.body
  save := r.save
  dependencies := r.dependencies
  finish c := do
    let (w, calls) ← get
    let ((ok, notes), w) ← (r.finish c).run w
    set (w, (name, ok) :: calls)
    return (ok, notes)
  siblings := r.siblings
  toFile := r.toFile

namespace Finishing

def recorded (f : Finishing σ) (calls : Calls) : Finishing (σ × Calls) :=
  ⟨f.progress, f.issues, f.context, (f.world, calls)⟩

/-- The same state but for the calls. -/
def Recorded (f : Finishing σ) (f' : Finishing (σ × Calls)) : Prop := ∃ calls, f' = f.recorded calls

theorem kin_recorded : Kin (Recorded (σ := σ)) where
  progress := by
    rintro f _ ⟨calls, rfl⟩
    rfl
  report := by
    rintro i f _ ⟨calls, rfl⟩
    exact ⟨calls, rfl⟩
  setProgress := by
    rintro name p f _ ⟨calls, rfl⟩
    exact ⟨calls, rfl⟩

/-- A recorded resource does the same and adds its call. -/
theorem after_complete_recorded (fs : Files) (name : String) (r : Resource σ) (f : Finishing σ) (calls : Calls) :
    (Evaluation.files fs).after (complete (r.recorded name)) (f.recorded calls) =
      (((Evaluation.files fs).after (complete r) f).1,
        ((Evaluation.files fs).after (complete r) f).2.recorded
          ((name, ((Evaluation.files fs).after (complete r) f).1) :: calls)) := by
  rw [after_complete, after_complete, recorded, Resource.recorded]
  simp only [Evaluation.after_bind, Evaluation.after_get, Evaluation.after_lift, Evaluation.after_set,
    Evaluation.after_pure]
  rfl

theorem follows_recorded (fs : Files) (name : String) (r : Resource σ) :
    Follows (.files fs) Recorded id (complete r) (complete (r.recorded name)) := by
  rintro f _ ⟨calls, rfl⟩
  rw [after_complete_recorded]
  exact ⟨rfl, _, rfl⟩

/-! ## The invariant of finishing

The trail holds the names underway, the last one first. -/

/-- The object is doomed, and something was reported. -/
structure Lost (objects : Dict (Resource σ)) (f : Finishing (σ × Calls)) (name : String) : Prop where
  object : name ∈ objects.names
  doomed : Doomed objects.Needs f.world.2 name
  issues : f.issues ≠ []

/-- All calls and issues of `f` are among those of `f'`. -/
structure Grown (f f' : Finishing (σ × Calls)) : Prop where
  calls : f.world.2 ⊆ f'.world.2
  issues : f.issues ⊆ f'.issues

/-- What has happened so far is in order, and what failed is lost. -/
structure Sound (objects : Dict (Resource σ)) (trail : List String) (f : Finishing (σ × Calls)) : Prop where
  underway : ∀ name, f.progress.get? name = some .underway ↔ name ∈ trail
  finished : ∀ name, f.progress.get? name = some (.ended true) ↔ (name, true) ∈ f.world.2
  called : ∀ name, (name, false) ∈ f.world.2 → f.progress.get? name = some (.ended false)
  failed : ∀ name, f.progress.get? name = some (.ended false) → Lost objects f name
  inOrder : InOrder objects.Needs f.world.2
  inside : f.world.2.map (·.1) ⊆ objects.names
  blamed : f.issues ≠ [] → ∃ name, Lost objects f name

/-- From `f` all of these names were reached, or the first of them that failed, with the answer `ok`. -/
structure Reached (objects : Dict (Resource σ)) (trail names : List String) (f : Finishing (σ × Calls)) (ok : Bool)
    (f' : Finishing (σ × Calls)) : Prop where
  sound : Sound objects trail f'
  grown : Grown f f'
  finished : ok = true → ∀ name ∈ names, name ∈ objects.names → (name, true) ∈ f'.world.2
  failed : ok = false → ∃ name ∈ names, Lost objects f' name

section
variable {objects : Dict (Resource σ)} {objects' : Dict (Resource (σ × Calls))} {trail : List String}
  {f : Finishing (σ × Calls)}

theorem Grown.refl (f : Finishing (σ × Calls)) : Grown f f := ⟨List.Subset.refl _, List.Subset.refl _⟩

theorem Grown.trans {f₁ f₂ f₃ : Finishing (σ × Calls)} (h₁ : Grown f₁ f₂) (h₂ : Grown f₂ f₃) : Grown f₁ f₃ :=
  ⟨List.Subset.trans h₁.calls h₂.calls, List.Subset.trans h₁.issues h₂.issues⟩

theorem Grown.report (f : Finishing (σ × Calls)) (i : Issue) : Grown f { f with issues := f.issues ++ [i] } :=
  ⟨List.Subset.refl _, List.subset_append_left _ _⟩

theorem Lost.mono {f' : Finishing (σ × Calls)} {name : String} (h : Lost objects f name) (hgrown : Grown f f') :
    Lost objects f' name :=
  ⟨h.object, h.doomed.mono hgrown.calls, fun hnone => h.issues (List.subset_nil.mp (hnone ▸ hgrown.issues))⟩

theorem Sound.report (h : Sound objects trail f) {name : String} {i : Issue}
    (hlost : Lost objects { f with issues := f.issues ++ [i] } name) :
    Sound objects trail { f with issues := f.issues ++ [i] } where
  underway := h.underway
  finished := h.finished
  called := h.called
  failed n hn := (h.failed n hn).mono (.report f i)
  inOrder := h.inOrder
  inside := h.inside
  blamed _ := ⟨name, hlost⟩

/-- A name that was not reached before is underway. -/
theorem Sound.enter (h : Sound objects trail f) {name : String} (hnew : f.progress.get? name = none) :
    Sound objects (name :: trail) { f with progress := f.progress.set name .underway } where
  underway n := by
    rw [Dict.get?_set, List.mem_cons, ← h.underway]
    by_cases hn : n = name <;> simp [hn]
  finished n := by
    rw [Dict.get?_set, ← h.finished]
    by_cases hn : n = name
    · simp [hn, hnew]
    · simp [hn]
  called n hfalse := by
    have hn : n ≠ name := by
      rintro rfl
      have hended := h.called n hfalse
      rw [hnew] at hended
      cases hended
    rw [Dict.get?_set, if_neg hn]
    exact h.called n hfalse
  failed n hended := by
    rw [Dict.get?_set] at hended
    split at hended
    · cases hended
    · exact (h.failed n hended).mono ⟨List.Subset.refl _, List.Subset.refl _⟩
  inOrder := h.inOrder
  inside := h.inside
  blamed hissues := by
    obtain ⟨n, hlost⟩ := h.blamed hissues
    exact ⟨n, hlost.mono ⟨List.Subset.refl _, List.Subset.refl _⟩⟩

/-- The name underway last ends without a call. -/
theorem Sound.leave {name : String} (h : Sound objects (name :: trail) f) (hname : name ∉ trail)
    (hlost : Lost objects f name) :
    Sound objects trail { f with progress := f.progress.set name (.ended false) } where
  underway n := by
    rw [Dict.get?_set]
    by_cases hn : n = name
    · simp [hn, hname]
    · simp [hn, h.underway]
  finished n := by
    rw [Dict.get?_set, ← h.finished]
    by_cases hn : n = name
    · simp [hn, (h.underway name).mpr List.mem_cons_self]
    · simp [hn]
  called n hfalse := by
    rw [Dict.get?_set, h.called n hfalse]
    split <;> rfl
  failed n hended := by
    have hlost' : Lost objects f n := by
      rw [Dict.get?_set] at hended
      split at hended
      · rename_i hn
        exact hn ▸ hlost
      · exact h.failed n hended
    exact hlost'.mono ⟨List.Subset.refl _, List.Subset.refl _⟩
  inOrder := h.inOrder
  inside := h.inside
  blamed _ := ⟨name, hlost.mono ⟨List.Subset.refl _, List.Subset.refl _⟩⟩

/-- What is underway was not called. -/
theorem Sound.not_called {name : String} (h : Sound objects trail f) (hname : name ∈ trail) :
    name ∉ f.world.2.map (·.1) := by
  intro hcalled
  have hunderway := (h.underway name).mpr hname
  obtain ⟨⟨_, ok⟩, hcall, rfl⟩ := List.mem_map.mp hcalled
  cases ok with
  | true =>
    rw [(h.finished _).mpr hcall] at hunderway
    cases hunderway
  | false =>
    rw [h.called _ hcall] at hunderway
    cases hunderway

/-- How a state goes on when a name is called and ends. -/
def afterCall (f : Finishing (σ × Calls)) (name : String) (ok : Bool) (c : Context) (w : σ) : Finishing (σ × Calls) where
  progress := f.progress.set name (.ended ok)
  issues := if !ok then f.issues ++ [.notFinished name] else f.issues
  context := c
  world := (w, (name, ok) :: f.world.2)

theorem Grown.afterCall (f : Finishing (σ × Calls)) (name : String) (ok : Bool) (c : Context) (w : σ) :
    Grown f (f.afterCall name ok c w) := by
  refine ⟨List.subset_cons_self _ _, ?_⟩
  cases ok with
  | true => exact List.Subset.refl _
  | false => exact List.subset_append_left _ _

/-- The name underway last is called after all that it needs, and ends. -/
theorem Sound.call {name : String} (h : Sound objects (name :: trail) f) (hname : name ∉ trail)
    (hobject : name ∈ objects.names) (hready : ∀ b, objects.Needs name b → (b, true) ∈ f.world.2) (ok : Bool)
    (c : Context) (w : σ) : Sound objects trail (f.afterCall name ok c w) := by
  have hnew : name ∉ f.world.2.map (·.1) := h.not_called List.mem_cons_self
  have hlost : Lost objects (f.afterCall name false c w) name :=
    ⟨hobject, .of_failed List.mem_cons_self, List.append_ne_nil_of_right_ne_nil _ (List.cons_ne_nil _ _)⟩
  refine ⟨fun n => ?_, fun n => ?_, fun n hfalse => ?_, fun n hended => ?_, ⟨hnew, hready, h.inOrder⟩,
    List.cons_subset.mpr ⟨hobject, h.inside⟩, fun hissues => ?_⟩
  · rw [afterCall, Dict.get?_set]
    by_cases hn : n = name
    · simp [hn, hname]
    · simp [hn, h.underway]
  · rw [afterCall, Dict.get?_set]
    by_cases hn : n = name
    · subst hn
      have hnever : (n, true) ∉ f.world.2 := fun hmem => hnew (List.mem_map_of_mem hmem)
      simp [hnever, eq_comm]
    · simp [hn, h.finished]
  · rw [afterCall, Dict.get?_set]
    rcases List.mem_cons.mp hfalse with heq | hbefore
    · cases heq
      rw [if_pos rfl]
    · have hn : n ≠ name := fun hn => hnew (hn ▸ List.mem_map_of_mem (f := (·.1)) hbefore)
      rw [if_neg hn]
      exact h.called n hbefore
  · rw [afterCall, Dict.get?_set] at hended
    split at hended
    · rename_i hn
      subst hn
      cases hended
      exact hlost
    · exact (h.failed n hended).mono (.afterCall f name ok c w)
  · cases ok with
    | true =>
      obtain ⟨n, hn⟩ := h.blamed hissues
      exact ⟨n, hn.mono (.afterCall f name true c w)⟩
    | false => exact ⟨name, hlost⟩

/-! ## From one name to all -/

theorem after_report (i : Issue) :
    (Evaluation.files fs).after (Finishing.report i) f = ((), { f with issues := f.issues ++ [i] }) :=
  Evaluation.after_modify ..

theorem after_setProgress (name : String) (p : Progress) :
    (Evaluation.files fs).after (Finishing.setProgress name p) f =
      ((), { f with progress := f.progress.set name p }) := Evaluation.after_modify ..

/-- If each of these names is reached in turn, then they are until the first that fails. -/
theorem reached_allFinish (fs : Files) (finish : String → FinishingM (σ × Calls) Bool) (names : List String)
    (hfinish : ∀ name ∈ names, ∀ f, Sound objects trail f → Reached objects trail [name] f
      ((Evaluation.files fs).after (finish name) f).1 ((Evaluation.files fs).after (finish name) f).2)
    (owner : String) (h : Sound objects trail f) : Reached objects trail names f
      ((Evaluation.files fs).after (allFinish finish owner names) f).1
      ((Evaluation.files fs).after (allFinish finish owner names) f).2 := by
  induction names generalizing f with
  | nil =>
    rw [allFinish, Evaluation.after_pure]
    exact ⟨h, .refl f, fun _ _ hname => absurd hname List.not_mem_nil, Bool.noConfusion⟩
  | cons name rest ih =>
    have hfirst := hfinish name List.mem_cons_self f h
    rw [allFinish, Evaluation.after_bind]
    generalize (Evaluation.files fs).after (finish name) f = first at hfirst ⊢
    obtain ⟨ok, f₁⟩ := first
    dsimp only at hfirst ⊢
    cases ok with
    | true =>
      rw [if_pos rfl]
      have hrest := ih (fun n hn => hfinish n (List.mem_cons_of_mem _ hn)) hfirst.sound
      refine ⟨hrest.sound, hfirst.grown.trans hrest.grown, fun hok n hn hobject => ?_, fun hok => ?_⟩
      · rcases List.mem_cons.mp hn with rfl | hn
        · exact hrest.grown.calls (hfirst.finished rfl n List.mem_cons_self hobject)
        · exact hrest.finished hok n hn hobject
      · obtain ⟨n, hn, hlost⟩ := hrest.failed hok
        exact ⟨n, List.mem_cons_of_mem _ hn, hlost⟩
    | false =>
      obtain ⟨n, hn, hlost⟩ := hfirst.failed rfl
      obtain rfl := List.mem_singleton.mp hn
      rw [if_neg Bool.false_ne_true, Evaluation.after_bind, after_report, Evaluation.after_pure]
      have hreport := Grown.report f₁ (.dependencyFailed n owner)
      exact ⟨hfirst.sound.report (hlost.mono hreport), hfirst.grown.trans hreport, Bool.noConfusion,
        fun _ => ⟨n, List.mem_cons_self, hlost.mono hreport⟩⟩

/-- A recorded resource adds its call, and changes nothing else that matters to finishing. -/
theorem exists_after_complete (fs : Files) (name : String) (r : Resource σ) (f : Finishing (σ × Calls)) :
    ∃ ok c w, (Evaluation.files fs).after (complete (r.recorded name)) f =
      (ok, { f with context := c, world := (w, (name, ok) :: f.world.2) }) := by
  have h := after_complete_recorded fs name r ⟨f.progress, f.issues, f.context, f.world.1⟩ f.world.2
  rw [after_complete r] at h
  exact ⟨_, _, _, h⟩

/-- How the finishing of a resource ends. -/
theorem after_close (name : String) (ready ok : Bool) (f : Finishing (σ × Calls)) :
    (Evaluation.files fs).after (do
        if ready && !ok then Finishing.report (.notFinished name)
        Finishing.setProgress name (.ended ok)
        return ok) f =
      (ok, { f with
        progress := f.progress.set name (.ended ok)
        issues := if ready && !ok then f.issues ++ [.notFinished name] else f.issues }) := by
  cases hfailed : ready && !ok with
  | true =>
    rw [if_pos rfl, if_pos rfl, Evaluation.after_bind, after_report, Evaluation.after_bind, after_setProgress,
      Evaluation.after_pure]
  | false =>
    rw [if_neg Bool.false_ne_true, if_neg Bool.false_ne_true, Evaluation.after_bind, after_setProgress,
      Evaluation.after_pure]

/-- How an object ends after all that it depends on were reached, or the first of them that failed. -/
theorem reached_object (fs : Files) {name : String} {r : Resource σ} (hget : objects.get? name = some r)
    (hnew : name ∉ trail) {ready : Bool} {f₁ : Finishing (σ × Calls)}
    (hall : Reached objects (name :: trail) r.dependencies
      { f with progress := f.progress.set name .underway } ready f₁) :
    let ended := (Evaluation.files fs).after (do
        let ok ← if ready then complete (r.recorded name) else pure false
        if ready && !ok then Finishing.report (.notFinished name)
        Finishing.setProgress name (.ended ok)
        return ok) f₁
    Reached objects trail [name] f ended.1 ended.2 := by
  have hobject : name ∈ objects.names := Dict.mem_names_of_get? hget
  have hbefore : Grown f f₁ := ⟨hall.grown.calls, hall.grown.issues⟩
  dsimp only
  cases ready with
  | false =>
    obtain ⟨b, hb, hlost⟩ := hall.failed rfl
    have hlost' : Lost objects f₁ name :=
      ⟨hobject, hlost.doomed.head ⟨r, hget, hb, hlost.object⟩, hlost.issues⟩
    rw [if_neg Bool.false_ne_true, Evaluation.after_bind, Evaluation.after_pure, after_close]
    have hgrown : Grown f₁ { f₁ with progress := f₁.progress.set name (.ended false) } :=
      ⟨List.Subset.refl _, List.Subset.refl _⟩
    exact ⟨hall.sound.leave hnew hlost', hbefore.trans hgrown, Bool.noConfusion,
      fun _ => ⟨name, List.mem_cons_self, hlost'.mono hgrown⟩⟩
  | true =>
    obtain ⟨ok, c, w, hcomplete⟩ := exists_after_complete fs name r f₁
    have hready : ∀ b, objects.Needs name b → (b, true) ∈ f₁.world.2 := by
      rintro b ⟨r', hget', hb, hb'⟩
      obtain rfl : r = r' := Option.some.inj (hget.symm.trans hget')
      exact hall.finished rfl b hb hb'
    have hsound := hall.sound.call hnew hobject hready ok c w
    rw [if_pos rfl, Evaluation.after_bind, hcomplete, after_close]
    dsimp only [Bool.true_and]
    refine ⟨hsound, hbefore.trans (.afterCall f₁ name ok c w), fun hok n hn _ => ?_, fun hok => ?_⟩
    · obtain rfl := List.mem_singleton.mp hn
      exact hok ▸ List.mem_cons_self
    · subst hok
      exact ⟨name, List.mem_cons_self, hsound.failed name (by rw [afterCall, Dict.get?_set, if_pos rfl])⟩

/-- Every name on the trail leads to `name`, if that is an object. -/
def LeadsTo (objects : Dict (Resource σ)) (trail : List String) (name : String) : Prop :=
  name ∈ objects.names → ∀ t ∈ trail, TransGen objects.Needs t name

/-- The names on the trail are different objects, so fuel for all of them does not run out. -/
theorem reached_finish (hobjects : ∀ name, objects'.get? name = (objects.get? name).map (Resource.recorded name))
    {fuel : Nat} (hfuel : objects.size < fuel + trail.length) (hnodup : trail.Nodup) (htrail : trail ⊆ objects.names)
    {name : String} (hleads : LeadsTo objects trail name) (h : Sound objects trail f) :
    Reached objects trail [name] f ((Evaluation.files fs).after (finish objects' fuel name) f).1
      ((Evaluation.files fs).after (finish objects' fuel name) f).2 := by
  induction fuel generalizing trail name f with
  | zero =>
    have hle : trail.length ≤ objects.names.length := (hnodup.subperm htrail).length_le
    rw [Dict.names, List.length_map] at hle
    rw [Dict.size] at hfuel
    omega
  | succ fuel ih =>
    rw [finish, Evaluation.after_bind, Evaluation.after_get]
    dsimp only
    cases hprogress : f.progress.get? name with
    | some p =>
      cases p with
      | ended ok =>
        dsimp only
        rw [Evaluation.after_pure]
        refine ⟨h, .refl f, fun hok n hn _ => ?_, fun hok => ?_⟩
        · obtain rfl := List.mem_singleton.mp hn
          dsimp only at hok
          subst hok
          exact (h.finished n).mp hprogress
        · dsimp only at hok
          subst hok
          exact ⟨name, List.mem_cons_self, h.failed name hprogress⟩
      | underway =>
        have hmem : name ∈ trail := (h.underway name).mp hprogress
        have hobject : name ∈ objects.names := htrail hmem
        have hdoomed : Doomed objects.Needs f.world.2 name := .of_cycle (hleads hobject name hmem)
        have hlost : Lost objects { f with issues := f.issues ++ [.dependsOnItself name] } name :=
          ⟨hobject, hdoomed, List.append_ne_nil_of_right_ne_nil _ (List.cons_ne_nil _ _)⟩
        dsimp only
        rw [Evaluation.after_bind, after_report, Evaluation.after_pure]
        exact ⟨h.report hlost, .report f _, Bool.noConfusion, fun _ => ⟨name, List.mem_cons_self, hlost⟩⟩
    | none =>
      dsimp only
      rw [hobjects]
      cases hget : objects.get? name with
      | none =>
        have hobject : name ∉ objects.names := Dict.get?_eq_none_iff.mp hget
        dsimp only [Option.map_none]
        rw [Evaluation.after_pure]
        refine ⟨h, .refl f, fun _ n hn hn' => ?_, Bool.noConfusion⟩
        obtain rfl := List.mem_singleton.mp hn
        exact absurd hn' hobject
      | some r =>
        have hobject : name ∈ objects.names := Dict.mem_names_of_get? hget
        have hnew : name ∉ trail := by
          rw [← h.underway, hprogress]
          exact (Option.some_ne_none _).symm
        -- what the trail leads to is led on to each dependency
        have hleads' : ∀ b ∈ r.dependencies, LeadsTo objects (name :: trail) b := by
          intro b hb hb' t ht
          have hneeds : objects.Needs name b := ⟨r, hget, hb, hb'⟩
          rcases List.mem_cons.mp ht with rfl | ht
          · exact .single hneeds
          · exact .tail (hleads hobject t ht) hneeds
        have hinside : name :: trail ⊆ objects.names := List.cons_subset.mpr ⟨hobject, htrail⟩
        have hroom : objects.size < fuel + (name :: trail).length := by
          rw [List.length_cons]
          omega
        have hall := reached_allFinish fs (finish objects' fuel) r.dependencies
          (fun b hb f hf => ih hroom (List.nodup_cons.mpr ⟨hnew, hnodup⟩) hinside (hleads' b hb) hf)
          name (h.enter hprogress)
        dsimp only [Option.map_some]
        rw [Evaluation.after_bind, after_setProgress, Evaluation.after_bind]
        exact reached_object fs hget hnew hall

/-- One after the other, all names end. -/
theorem ended_forM (fs : Files) {roots : List (String × Resource (σ × Calls))} {finish : String → FinishingM (σ × Calls) Bool}
    (hfinish : ∀ root ∈ roots, ∀ f, Sound objects [] f → Reached objects [] [root.1] f
      ((Evaluation.files fs).after (finish root.1) f).1 ((Evaluation.files fs).after (finish root.1) f).2)
    (hroots : ∀ root ∈ roots, root.1 ∈ objects.names) (h : Sound objects [] f) :
    ∃ f', (Evaluation.files fs).after (roots.forM fun root => do let _ ← finish root.1) f = ((), f') ∧
      Sound objects [] f' ∧ Grown f f' ∧ ∀ root ∈ roots, (root.1, true) ∈ f'.world.2 ∨ Lost objects f' root.1 := by
  induction roots generalizing f with
  | nil => exact ⟨f, Evaluation.after_pure .., h, .refl f, fun _ hroot => absurd hroot List.not_mem_nil⟩
  | cons root rest ih =>
    have hfirst := hfinish root List.mem_cons_self f h
    obtain ⟨f', hrest, hsound, hgrown, hended⟩ := ih (fun r hr => hfinish r (List.mem_cons_of_mem _ hr))
      (fun r hr => hroots r (List.mem_cons_of_mem _ hr)) hfirst.sound
    refine ⟨f', ?_, hsound, hfirst.grown.trans hgrown, fun r hr => ?_⟩
    · rw [List.forM, Evaluation.after_bind, Evaluation.after_bind, Evaluation.after_pure]
      exact hrest
    · rcases List.mem_cons.mp hr with rfl | hr
      · cases hok : ((Evaluation.files fs).after (finish r.1) f).1 with
        | true =>
          exact .inl (hgrown.calls (hfirst.finished hok _ List.mem_cons_self (hroots _ List.mem_cons_self)))
        | false =>
          obtain ⟨n, hn, hlost⟩ := hfirst.failed hok
          obtain rfl := List.mem_singleton.mp hn
          exact .inr (hlost.mono hgrown)
      · exact hended r hr

end

/-- The calls of all resources in finishing. -/
def calls (fs : Files) (roots : List (String × Resource σ)) (context : Context) (world : σ) : Calls :=
  ((Evaluation.files fs).after (finishAll (roots.map fun root => (root.1, root.2.recorded root.1)))
    ⟨∅, [], context, (world, [])⟩).2.world.2

/-- What finishing leaves, with the calls: recording changes nothing. -/
theorem after_recorded (fs : Files) (roots : List (String × Resource σ)) (context : Context) (world : σ) :
    ((Evaluation.files fs).after (finishAll (roots.map fun root => (root.1, root.2.recorded root.1)))
        ⟨∅, [], context, (world, [])⟩).2 =
      ((Evaluation.files fs).after (finishAll roots) ⟨∅, [], context, world⟩).2.recorded
        (calls fs roots context world) := by
  obtain ⟨_, log, hlog⟩ := kin_recorded.follows_finishAll (w := Resource.recorded) (fun _ _ => rfl) roots
    (fun root _ => follows_recorded fs root.1 root.2) ⟨∅, [], context, world⟩ _ ⟨[], rfl⟩
  have hcalls : calls fs roots context world = log := congrArg (fun f => f.world.2) hlog
  rw [hcalls]
  exact hlog

theorem size_ofList_le (roots : List (String × Resource σ)) : (Dict.ofList roots).size ≤ roots.length := by
  have hnames : (Dict.ofList roots).names ⊆ roots.map (·.1) := by
    rw [Dict.names_ofList]
    exact fun name hname => List.mem_eraseDups.mp hname
  have hle := ((Dict.distinct_ofList roots).subperm hnames).length_le
  rwa [Dict.names, List.length_map, List.length_map] at hle

theorem sound_start (objects : Dict (Resource σ)) (context : Context) (world : σ) :
    Sound objects [] ⟨∅, [], context, (world, [])⟩ where
  underway _ := ⟨nofun, fun h => absurd h List.not_mem_nil⟩
  finished _ := ⟨nofun, fun h => absurd h List.not_mem_nil⟩
  called _ h := absurd h List.not_mem_nil
  failed _ h := nomatch h
  inOrder := trivial
  inside := List.nil_subset _
  blamed h := absurd rfl h

/-- At the end the calls are in order, and each object did finish or is lost. -/
theorem sound_finishAll (fs : Files) (roots : List (String × Resource σ)) (context : Context) (world : σ) :
    ∃ f, ((Evaluation.files fs).after (finishAll roots) ⟨∅, [], context, world⟩).2.recorded
        (calls fs roots context world) = f ∧ Sound (Dict.ofList roots) [] f ∧
      ∀ name ∈ (Dict.ofList roots).names, (name, true) ∈ f.world.2 ∨ Lost (Dict.ofList roots) f name := by
  have hroom : (Dict.ofList roots).size < roots.length + 1 + ([] : List String).length := by
    have hle := size_ofList_le roots
    rw [List.length_nil]
    omega
  have hroots : ∀ root ∈ roots.map fun root => (root.1, root.2.recorded root.1),
      root.1 ∈ (Dict.ofList roots).names := by
    intro root hroot
    obtain ⟨plain, hplain, rfl⟩ := List.mem_map.mp hroot
    rw [Dict.names_ofList, List.mem_eraseDups]
    exact List.mem_map.mpr ⟨plain, hplain, rfl⟩
  obtain ⟨f, hafter, hsound, _, hended⟩ := ended_forM fs
    (fun root _ f hf => reached_finish (Dict.get?_ofList_map Resource.recorded roots) hroom List.nodup_nil
      (List.nil_subset _) (fun _ _ h => absurd h List.not_mem_nil) hf)
    hroots (sound_start _ context world)
  refine ⟨f, ?_, hsound, fun name hname => ?_⟩
  · rw [← after_recorded, finishAll, List.length_map]
    exact congrArg Prod.snd hafter
  · rw [Dict.names_ofList, List.mem_eraseDups] at hname
    obtain ⟨root, hroot, rfl⟩ := List.mem_map.mp hname
    exact hended _ (List.mem_map_of_mem hroot)

end Finishing

/-- A resource is called at most once, after all those it depends on did finish. It is called exactly if it comes to
no cycle and everything that it comes to in one or more steps did finish. There are no issues exactly if every
resource was called and did finish. -/
theorem finishAll_in_order_of_dependencies (fs : Files) (roots : List (String × Resource σ)) (context : Context)
    (world : σ) :
    ((Evaluation.files fs).after (finishAll (roots.map fun root => (root.1, root.2.recorded root.1)))
        ⟨∅, [], context, (world, [])⟩).2 =
      ((Evaluation.files fs).after (finishAll roots) ⟨∅, [], context, world⟩).2.recorded
        (Finishing.calls fs roots context world) ∧
    ((Finishing.calls fs roots context world).map (·.1)).Nodup ∧
    (∀ name, name ∈ (Finishing.calls fs roots context world).map (·.1) ↔
      name ∈ roots.map (·.1) ∧
      (∀ m, ReflTransGen (Dict.ofList roots).Needs name m → ¬TransGen (Dict.ofList roots).Needs m m) ∧
      ∀ m, TransGen (Dict.ofList roots).Needs name m → (m, true) ∈ Finishing.calls fs roots context world) ∧
    (∀ later name ok earlier, Finishing.calls fs roots context world = later ++ (name, ok) :: earlier →
      ∀ m, (Dict.ofList roots).Needs name m → (m, true) ∈ earlier) ∧
    (((Evaluation.files fs).after (finishAll roots) ⟨∅, [], context, world⟩).2.issues = [] ↔
      ∀ name ∈ roots.map (·.1), (name, true) ∈ Finishing.calls fs roots context world) := by
  have hnames (name : String) : name ∈ (Dict.ofList roots).names ↔ name ∈ roots.map (·.1) := by
    rw [Dict.names_ofList, List.mem_eraseDups]
  obtain ⟨f, rfl, hsound, hended⟩ := Finishing.sound_finishAll fs roots context world
  have horder : InOrder (Dict.ofList roots).Needs (Finishing.calls fs roots context world) := hsound.inOrder
  have hmem := horder.mem_iff hsound.inside fun name hname => (hended name hname).imp_right fun hlost => hlost.doomed
  refine ⟨Finishing.after_recorded fs roots context world, horder.nodup, fun name => ?_,
    fun later name ok earlier hcalls m hm => ?_, fun hnone name hname => ?_, fun hall => ?_⟩
  · rw [← hnames]
    exact hmem name
  · exact (hcalls ▸ horder).earlier hm
  · exact (hended name ((hnames name).mpr hname)).resolve_right fun hlost => hlost.issues hnone
  · by_contra hissues
    obtain ⟨name, hlost⟩ := hsound.blamed hissues
    exact horder.not_doomed (hall name ((hnames name).mp hlost.object)) hlost.doomed

end AssetPack
