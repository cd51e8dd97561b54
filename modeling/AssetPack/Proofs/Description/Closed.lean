import AssetPack.Description.Expansion
import AssetPack.Proofs.Description.Expanded
import AssetPack.Proofs.Description.Compiled
import AssetPack.Proofs.Tree.Stored
import AssetPack.Proofs.Value.Opened

/-!
# Classes that no expansion leads out of

A class of values that is closed under what an expansion does holds what it makes. Two such classes are the values
without a name twice and those whose names are from a given range.
-/
namespace AssetPack

/-!
## Classes that no expansion leads out of

An expansion takes values apart, opens them, sets dictionaries over each other and reads objects from files. A class
of values that is closed under all this and holds the description and the localized values holds what the expansion
makes of them.
-/

namespace Value
variable {K : Value → Prop} {v w : Value} {d e : Dict Value}

/-- A class of values with all that can be taken out of them, opened in them or put together of them. -/
structure Closed (K : Value → Prop) : Prop where
  atom : ∀ a, K (.atom a)
  list : ∀ items, K (.list items) ↔ ∀ v ∈ items, K v
  empty : K (.dict ∅)
  entry : ∀ d entry, K (.dict d) → entry ∈ d.entries → K entry.2
  fewer : ∀ d done, K (.dict d) → (done.map (·.1)).Sublist d.names → (∀ entry ∈ done, K entry.2) → K (.dict ⟨done⟩)
  merge : ∀ d e, K (.dict d) → K (.dict e) → K (.dict (d.merge e))
  block : ∀ b d, K (.block b) → b.load = .ok d → K (.dict d)
  saved : ∀ p d, K (.saved p) → p.content = .dict → p.loadDict = .ok d → K (.dict d)

namespace Closed

/-- All values are such a class. -/
theorem any : Closed fun _ => True :=
  ⟨fun _ => trivial, fun _ => ⟨fun _ _ _ => trivial, fun _ => trivial⟩, trivial, fun _ _ _ _ => trivial,
    fun _ _ _ _ _ => trivial, fun _ _ _ _ => trivial, fun _ _ _ _ => trivial, fun _ _ _ _ _ => trivial⟩

theorem dict? (hK : Closed K) (h : K v) (hd : v.dict? = some d) : K (.dict d) := by
  cases v with
  | dict e =>
    cases hd
    exact h
  | block b => exact hK.block b _ h (Value.dict?_block_iff.mp hd)
  | _ => cases hd

theorem dictValue? (hK : Closed K) (h : K v) (hw : v.dictValue? = some w) : K w := by
  cases v with
  | saved p =>
    rw [Value.dictValue?] at hw
    split at hw
    · rename_i hcontent
      obtain ⟨d, hload, rfl⟩ := Option.map_eq_some_iff.mp hw
      cases hresult : p.loadDict with
      | ok e =>
        rw [hresult] at hload
        cases hload
        exact hK.saved p _ h hcontent hresult
      | error f =>
        rw [hresult] at hload
        cases hload
    · cases hw
  | dict d =>
    cases hw
    exact h
  | block b =>
    cases hw
    exact h
  | _ => cases hw

theorem get? (hK : Closed K) (h : K (.dict d)) {name : String} (hv : d.get? name = some v) : K v :=
  hK.entry d _ h (Dict.mem_of_get? hv)

theorem erase (hK : Closed K) (h : K (.dict d)) (key : String) : K (.dict (d.erase key)) :=
  hK.fewer d _ h (List.filter_sublist.map _) fun entry hentry => hK.entry d entry h (List.mem_of_mem_filter hentry)

theorem step? (hK : Closed K) (h : K v) {step : Step} (hw : Selector.step? v step = some w) : K w := by
  cases step with
  | name name =>
    rw [Selector.step?] at hw
    split at hw
    · exact hK.dictValue? h hw
    · obtain ⟨u, hu, hw⟩ := Option.bind_eq_some_iff.mp hw
      obtain ⟨d, hd, hw⟩ := Option.bind_eq_some_iff.mp hw
      exact hK.get? (hK.dict? (hK.dictValue? h hu) hd) hw
  | index n =>
    obtain ⟨items, hitems, hw⟩ := Option.bind_eq_some_iff.mp hw
    cases v with
    | list items' =>
      cases hitems
      exact (hK.list _).mp h w (List.mem_of_getElem? hw)
    | _ => cases hitems

theorem follow? (hK : Closed K) {steps : List Step} (h : K v) (hw : Selector.follow? v steps = some w) : K w := by
  induction steps generalizing v with
  | nil =>
    cases hw
    exact h
  | cons step steps ih =>
    rw [Selector.follow?, List.foldlM_cons] at hw
    obtain ⟨u, hu, hw⟩ := Option.bind_eq_some_iff.mp hw
    exact ih (hK.step? h hu) hw

/-- What is found in a dictionary, by a name or a selector, is of the class. -/
theorem find? (hK : Closed K) (h : K (.dict d)) {name : String} (hv : d.find? name = some v) : K v := by
  rw [Dict.find?] at hv
  split at hv
  · obtain ⟨steps, _, hv⟩ := Option.bind_eq_some_iff.mp hv
    cases steps with
    | nil => cases hv
    | cons step steps =>
      cases step with
      | index n => cases hv
      | name name =>
        obtain ⟨u, hu, hv⟩ := Option.bind_eq_some_iff.mp hv
        refine hK.follow? ?_ hv
        split at hu
        · cases hu
          exact h
        · exact hK.get? h hu
  · exact hK.get? h hv

end Closed
end Value

/-! ### Facts about the context -/

/-- A fact about a context that goes on holding whatever a note adds. -/
def Context.Steady (fs : Files) (I : Context → Prop) : Prop := ∀ c note, I c → I ((c.add note).eval fs)

namespace Context.Steady
variable {fs : Files} {I : Context → Prop}

theorem addAll (hI : Steady fs I) {c : Context} (h : I c) (notes : List Note) : I ((c.addAll notes).eval fs) := by
  induction notes generalizing c with
  | nil => exact h
  | cons note rest ih =>
    rw [Context.addAll, List.foldlM_cons, Look.eval_bind, ← Context.addAll]
    exact ih (hI c note h)

theorem addFile (hI : Steady fs I) {c : Context} (h : I c) (owner : Option String) (path : Path) :
    I ((c.addFile owner path).eval fs) := hI c (.file owner path) h

theorem trivial (fs : Files) : Steady fs fun _ => True := fun _ _ _ => True.intro

end Context.Steady

variable {K : Value → Prop} {I : Context → Prop}

/-- The objects in files that are read are of the class. -/
def Files.ReadsIn (fs : Files) (K : Value → Prop) : Prop :=
  ∀ path text d, (Look.readText path).eval fs = .ok text → Json.parseDict text = .ok d → K (.dict d)

/-- What is answered is of the class. -/
def AnswersIn (K : Value → Prop) (v : Option Value) : Prop := ∀ w, v = some w → K w

/-- A job about a value of the class. -/
def Job.In (K : Value → Prop) : Job → Prop
  | .dict d => K (.dict d)
  | .value v => K v

/-- The values in scope are of the class, and the fact holds of the context. -/
structure Expansion.In (K : Value → Prop) (I : Context → Prop) (e : Expansion) : Prop where
  scopes : ∀ scope ∈ e.scopes, K (.dict scope)
  context : I e.context

theorem Expansion.In.inScope? {e : Expansion} (h : e.In K I) (hK : Value.Closed K) {name : String}
    {v : Value} (hv : e.inScope? name = some v) : K v := by
  obtain ⟨scope, hscope, hfind⟩ := Option.bind_eq_some_iff.mp hv
  exact hK.find? (h.scopes scope (List.mem_of_head? hscope)) hfind

namespace Expanding
variable {fs : Files} {α : Type} {Q : α → Prop}

/-- The values in scope stay in the class, the fact goes on holding, and the answer is as stated. -/
abbrev Keeping (fs : Files) (K : Value → Prop) (I : Context → Prop) (x : Expanding α) (Q : α → Prop) : Prop :=
  Keeps (Answers.files fs).option (Expansion.In K I) x Q

theorem keeping_drop (i : Issue) (Q : α → Prop) :
    Keeping fs K I (drop i : Expanding (Option α)) fun a => ∀ b, a = some b → Q b := by
  refine Keeps.bind (Keeps.change fun _ h => ⟨h.scopes, h.context⟩) fun _ _ => Keeps.pure fun b hb => ?_
  cases hb

theorem keeping_look (x : Look α) : Keeping fs K I (liftM x : Expanding α) fun a => a = x.eval fs := by
  intro e a e' hmay he
  obtain ⟨b, hb, heq⟩ := (Answers.files fs).option.of_bind hmay
  obtain ⟨c, hc, hsome⟩ := (Answers.files fs).of_bind hb
  cases (Answers.files fs).option.eq_of_pure heq
  cases (Answers.files fs).eq_of_pure hsome
  exact ⟨he, hc⟩

section
variable {x : Expanding α}

theorem keeping_within (step : Step) (h : Keeping fs K I x Q) : Keeping fs K I (within step x) Q :=
  Keeps.around (fun _ he => ⟨he.scopes, he.context⟩) (fun _ he => ⟨he.scopes, he.context⟩) h

theorem keeping_inTemplate (name : String) (h : Keeping fs K I x Q) : Keeping fs K I (inTemplate name x) Q :=
  Keeps.around (fun _ he => ⟨he.scopes, he.context⟩) (fun _ he => ⟨he.scopes, he.context⟩) h

theorem keeping_inImport (path : Path) (h : Keeping fs K I x Q) : Keeping fs K I (inImport path x) Q :=
  Keeps.around (fun _ he => ⟨he.scopes, he.context⟩) (fun _ he => ⟨he.scopes, he.context⟩) h

theorem keeping_inNewScope {scope : Dict Value} (hscope : K (.dict scope)) (h : Keeping fs K I x Q) :
    Keeping fs K I (inNewScope scope x) Q :=
  Keeps.around (fun _ he => ⟨List.forall_mem_cons.mpr ⟨hscope, he.scopes⟩, he.context⟩)
    (fun _ he => ⟨fun scope hmem => he.scopes scope (List.mem_of_mem_drop hmem), he.context⟩) h

end

theorem keeping_addFile (hI : Context.Steady fs I) (path : Path) : Keeping fs K I (addFile path) fun _ => True := by
  refine Keeps.bind Keeps.ask fun e he => Keeps.bind (keeping_look _) fun context hcontext => Keeps.put ⟨he.scopes, ?_⟩
  rw [hcontext]
  exact hI.addFile he.context e.root? path

/-! ### One level of the pass -/

section
variable {next : Job → Expanding (Option Value)} {s : Setting} (hK : Value.Closed K)
  (hnext : ∀ job : Job, job.In K → Keeping fs K I (next job) (AnswersIn K))
include hK hnext

omit hK in
theorem keeping_entries {es : List (String × Value)} (hes : ∀ e ∈ es, K e.2) :
    Keeping fs K I (entries next es) fun done =>
      (done.map (·.1)).Sublist (es.map (·.1)) ∧ ∀ e ∈ done, K e.2 := by
  induction es with
  | nil => exact Keeps.pure ⟨List.Sublist.refl _, by simp⟩
  | cons e rest ih =>
    obtain ⟨name, v⟩ := e
    obtain ⟨hv, hrest⟩ := List.forall_mem_cons.mp hes
    refine Keeps.bind (keeping_within _ (hnext (.value v) hv)) fun w hw => ?_
    refine Keeps.bind (ih hrest) fun done hdone => Keeps.pure ?_
    cases w with
    | none => exact ⟨hdone.1.cons _, hdone.2⟩
    | some w => exact ⟨hdone.1.cons_cons _, List.forall_mem_cons.mpr ⟨hw w rfl, hdone.2⟩⟩

theorem keeping_items {vs : List Value} (hvs : ∀ v ∈ vs, K v) (index : Nat) :
    Keeping fs K I (items next index vs) fun done => ∀ w ∈ done, K w := by
  induction vs generalizing index with
  | nil => exact Keeps.pure (by simp)
  | cons v rest ih =>
    obtain ⟨hv, hrest⟩ := List.forall_mem_cons.mp hvs
    refine Keeps.bind (keeping_within _ (hnext (.value v) hv)) fun w hw => ?_
    refine Keeps.bind (ih hrest (index + 1)) fun done hdone => Keeps.pure ?_
    refine List.forall_mem_cons.mpr ⟨?_, hdone⟩
    cases w with
    | none => exact hK.atom _
    | some w => exact hw w rfl

theorem keeping_importFile (hI : Context.Steady fs I) (hread : fs.ReadsIn K) (relative : Path) :
    Keeping fs K I (importFile next relative) fun d => ∀ d', d = some d' → K (.dict d') := by
  refine Keeps.bind Keeps.ask fun _ _ => Keeps.bind (keeping_look _) fun path _ => Keeps.bind Keeps.ask fun _ _ => ?_
  split
  · exact keeping_drop _ _
  · refine Keeps.bind (keeping_look _) fun read hanswer => ?_
    cases read with
    | error error => exact keeping_drop _ _
    | ok text =>
      dsimp only
      cases hparse : Json.parseDict text with
      | error fault => exact keeping_drop _ _
      | ok parsed =>
        have hparsed : (Job.dict parsed).In K := hread path text parsed hanswer.symm hparse
        refine Keeps.bind (keeping_addFile hI path) fun _ _ => ?_
        refine Keeps.bind (keeping_inImport path (hnext (.dict parsed) hparsed)) fun w hw => ?_
        cases hdict : w.bind Value.dict? with
        | none => exact keeping_drop _ _
        | some d =>
          obtain ⟨v, rfl, hd⟩ := Option.bind_eq_some_iff.mp hdict
          refine Keeps.pure fun d' heq => ?_
          cases heq
          exact hK.dict? (hw v rfl) hd

theorem keeping_imported (hI : Context.Steady fs I) (hread : fs.ReadsIn K) {d : Dict Value} (hd : K (.dict d)) :
    Keeping fs K I (imported next d) fun d => ∀ d', d = some d' → K (.dict d') := by
  unfold imported
  split
  · refine Keeps.pure fun d' heq => ?_
    cases heq
    exact hd
  · refine Keeps.bind (keeping_importFile hK hnext hI hread _) fun found hfound => ?_
    cases found with
    | none =>
      refine Keeps.pure fun _ heq => ?_
      cases heq
    | some b =>
      refine Keeps.pure fun d' heq => ?_
      cases heq
      exact hK.merge _ _ (hfound b rfl) (hK.erase hd _)
  · exact Keeps.bind Keeps.ask fun _ _ => keeping_drop _ _

theorem keeping_overTemplate (hroot : K (.dict s.root)) {d : Dict Value} (hd : K (.dict d)) (template : String) :
    Keeping fs K I (overTemplate next s template d) (AnswersIn K) := by
  refine Keeps.bind Keeps.ask fun e he => ?_
  split
  · exact keeping_drop _ _
  · split
    · exact keeping_drop _ _
    · rename_i found hfound
      have hfound : K found := by
        cases hscope : e.inScope? template with
        | none =>
          rw [hscope] at hfound
          exact hK.find? hroot hfound
        | some v =>
          rw [hscope] at hfound
          cases hfound
          exact he.inScope? hK hscope
      refine keeping_inTemplate template ?_
      split
      · rename_i under hunder
        obtain ⟨v, hv, hunder⟩ := Option.bind_eq_some_iff.mp hunder
        exact hnext (.dict (under.merge d)) (hK.merge _ _ (hK.dict? (hK.dictValue? hfound hv) hunder) hd)
      · split
        · exact hnext (.value found) hfound
        · exact keeping_drop _ _

theorem keeping_plain (hI : Context.Steady fs I) (hread : fs.ReadsIn K) (hroot : K (.dict s.root)) {d : Dict Value} (hd : K (.dict d)) :
    Keeping fs K I (plain next s d) (AnswersIn K) := by
  refine Keeps.bind (keeping_imported hK hnext hI hread hd) fun whole hwhole => ?_
  cases whole with
  | none =>
    refine Keeps.pure fun _ heq => ?_
    cases heq
  | some d =>
    have hd := hwhole d rfl
    dsimp only
    split
    · refine Keeps.bind (keeping_entries hnext fun entry hentry => hK.entry d entry hd hentry) fun done hdone =>
        Keeps.pure ?_
      intro w hw
      cases hw
      exact hK.fewer d done hd hdone.1 hdone.2
    · exact keeping_overTemplate hK hnext hroot (hK.erase hd _) _
    · exact Keeps.bind Keeps.ask fun _ _ => keeping_drop _ _

theorem keeping_dict (hI : Context.Steady fs I) (hread : fs.ReadsIn K) (hroot : K (.dict s.root)) {d : Dict Value} (hd : K (.dict d)) :
    Keeping fs K I (dict next s d) (AnswersIn K) := by
  unfold dict
  split
  · exact keeping_plain hK hnext hI hread hroot hd
  · rename_i values hget
    split
    · exact Keeps.bind Keeps.ask fun _ _ => keeping_drop _ _
    · rename_i values' hdict
      refine Keeps.bind Keeps.ask fun e he => ?_
      have hscope : K (.dict (e.scopes.head?.getD ∅)) := by
        cases hhead : e.scopes.head? with
        | none => exact hK.empty
        | some scope => exact he.scopes scope (List.mem_of_head? hhead)
      refine keeping_inNewScope (hK.merge _ _ hscope (hK.dict? (hK.get? hd hget) hdict)) ?_
      exact keeping_plain hK hnext hI hread hroot (hK.erase hd _)

theorem keeping_inside {v : Value} (hv : K v) : Keeping fs K I (inside next v) (AnswersIn K) := by
  cases v with
  | dict d => exact hnext (.dict d) hv
  | block b =>
    rw [inside]
    split
    · exact hnext (.dict _) (hK.block b _ hv ‹_›)
    · exact Keeps.bind Keeps.ask fun _ _ => keeping_drop _ _
  | saved p =>
    rw [inside]
    split
    · split
      · exact hnext (.dict _) (hK.saved p _ hv ‹_› ‹_›)
      · exact Keeps.bind Keeps.ask fun _ _ => keeping_drop _ _
    · refine Keeps.pure fun u hu => ?_
      cases hu
      exact hv
  | list vs =>
    refine Keeps.bind (keeping_items hK hnext ((hK.list vs).mp hv) 0) fun done hdone => Keeps.pure fun u hu => ?_
    cases hu
    exact (hK.list done).mpr hdone
  | atom a =>
    refine Keeps.pure fun u hu => ?_
    cases hu
    exact hv

theorem keeping_named (hlocalize : ∀ name, AnswersIn K (s.localize name)) (text : String) :
    Keeping fs K I (named next s text) (AnswersIn K) := by
  unfold named
  split
  · refine Keeps.bind Keeps.ask fun e he => ?_
    split
    · exact hnext (.value _) (he.inScope? hK ‹_›)
    · exact keeping_drop _ _
  · split
    · rename_i name _
      split
      · refine Keeps.pure fun w hw => hlocalize name w ?_
        rw [← hw]
        assumption
      · exact keeping_drop _ _
    · refine Keeps.pure fun w hw => ?_
      cases hw
      exact hK.atom _

theorem keeping_value (hlocalize : ∀ name, AnswersIn K (s.localize name)) {v : Value} (hv : K v) :
    Keeping fs K I (value next s v) (AnswersIn K) := by
  refine Keeps.bind (keeping_inside hK hnext hv) fun w hw => ?_
  split
  · exact keeping_named hK hnext hlocalize _
  · exact Keeps.pure hw

end
end Expanding

variable {fs : Files}

theorem keeping_expandTo (hK : Value.Closed K) (hI : Context.Steady fs I) (hread : fs.ReadsIn K) {s : Setting} (hroot : K (.dict s.root))
    (hlocalize : ∀ name, AnswersIn K (s.localize name)) (fuel : Nat) {job : Job} (hjob : job.In K) :
    Expanding.Keeping fs K I (expandTo s fuel job) (AnswersIn K) := by
  induction fuel generalizing job with
  | zero =>
    intro e a e' hmay _
    exact ((Answers.files fs).not_may_failure _ hmay).elim
  | succ fuel ih =>
    cases job with
    | dict d => exact Expanding.keeping_dict hK (fun _ h => ih h) hI hread hroot hjob
    | value v => exact Expanding.keeping_value hK (fun _ h => ih h) hlocalize hjob

/-- The dictionary that an expansion makes of a description is of the class. -/
theorem Value.Closed.of_expand (hK : Value.Closed K) (hread : fs.ReadsIn K) {d : Dict Value} (hd : K (.dict d)) {fuel : Nat}
    {localize : String → Option Value} (hlocalize : ∀ name, AnswersIn K (localize name)) {context context' : Context}
    {visited : Visited} (h : (d.expand fuel localize context).run.eval fs = some (visited, context')) {e : Dict Value}
    (he : visited.dict = some e) : K (.dict e) := by
  obtain ⟨v, x, hrun, rfl, rfl⟩ := Dict.exists_expandTo h
  have hstart : (Expansion.start context).In K fun _ => True := ⟨fun _ hscope => (nomatch hscope), trivial⟩
  have hjob : (Job.dict d).In K := hd
  obtain ⟨_, hanswer⟩ := keeping_expandTo hK (.trivial fs) hread (s := ⟨d, localize⟩) hd hlocalize fuel hjob _ _ _ hrun hstart
  obtain ⟨u, hu, hopen⟩ := Option.bind_eq_some_iff.mp he
  obtain ⟨w, rfl, hw⟩ := Option.bind_eq_some_iff.mp hu
  exact hK.dict? (hK.dictValue? (hanswer w rfl) hw) hopen

/-- What no note changes holds after an expansion if it holds before. -/
theorem Context.Steady.of_expand (hI : Context.Steady fs I) {d : Dict Value} {fuel : Nat}
    {localize : String → Option Value} {context context' : Context} {visited : Visited}
    (h : (d.expand fuel localize context).run.eval fs = some (visited, context')) (hcontext : I context) : I context' := by
  obtain ⟨v, x, hrun, rfl, rfl⟩ := Dict.exists_expandTo h
  have hstart : (Expansion.start context).In (fun _ => True) I := ⟨fun _ _ => True.intro, hcontext⟩
  have hjob : (Job.dict d).In fun _ => True := True.intro
  obtain ⟨hafter, _⟩ := keeping_expandTo .any hI (fun _ _ _ _ _ => True.intro) (s := ⟨d, localize⟩) True.intro
    (fun _ _ _ => True.intro) fuel hjob _ _ _ hrun hstart
  exact hafter.context

/-! ### Files that are read -/

/-- The objects in the files that a look reads are of the class. -/
def Look.ReadsIn {α : Type} (fs : Files) (K : Value → Prop) (x : Look α) : Prop :=
  ∀ path text d, .read path ∈ x.asked fs → (readText path).eval fs = .ok text → Json.parseDict text = .ok d → K (.dict d)

/-- The files, of which only those can be read that are asked for. -/
def Files.only (fs : Files) (asked : List Question) : Files :=
  { fs with read := fun p => if .read p ∈ asked then fs.read p else .error .missing }

theorem Look.eval_only {α : Type} (x : Look α) : x.eval (fs.only (x.asked fs)) = x.eval fs := by
  refine eval_congr fun q hq => ?_
  cases q with
  | read p => exact if_pos hq
  | _ => rfl

theorem Look.ReadsIn.only {α : Type} {x : Look α} (h : x.ReadsIn fs K) : (fs.only (x.asked fs)).ReadsIn K := by
  intro path text d htext hparse
  rw [Look.eval_readText] at htext
  by_cases hasked : .read path ∈ x.asked fs
  · have hread : (fs.only (x.asked fs)).read path = fs.read path := if_pos hasked
    rw [hread, ← Look.eval_readText] at htext
    exact h path text d hasked htext hparse
  · have hread : (fs.only (x.asked fs)).read path = .error .missing := if_neg hasked
    rw [hread] at htext
    cases htext

/-- Of the files only those matter that the expansion reads. -/
theorem Value.Closed.of_expand_read (hK : Value.Closed K) {d : Dict Value} (hd : K (.dict d)) {fuel : Nat}
    {localize : String → Option Value} (hlocalize : ∀ name, AnswersIn K (localize name)) {context context' : Context}
    (hread : (d.expand fuel localize context).run.ReadsIn fs K) {visited : Visited}
    (h : (d.expand fuel localize context).run.eval fs = some (visited, context')) {e : Dict Value}
    (he : visited.dict = some e) : K (.dict e) :=
  hK.of_expand hread.only hd hlocalize ((Look.eval_only _).trans h) he

/-!
## No name stands twice

A description in which no dictionary has a name twice is expanded to such a dictionary, whatever it imports and
whatever its values are localized to. Entries are taken out, put under names that were there, or set over others,
and what was closed has no name twice once it is open.
-/

namespace Value
variable {v w : Value}

theorem distinct_dict {d : Dict Value} :
    (dict d).Distinct ↔ d.Distinct ∧ ∀ entry ∈ d.entries, entry.2.Distinct := each_dict d

theorem distinct_list {items : List Value} : (list items).Distinct ↔ ∀ v ∈ items, v.Distinct :=
  (each_list items).trans (and_iff_right trivial)

/-- No name stands twice in what is taken out of such values, opened in them or put together of them. -/
theorem closed_distinct : Closed Distinct where
  atom a := (each_atom a).mpr trivial
  list _ := distinct_list
  empty := distinct_dict.mpr ⟨List.nodup_nil, fun _ h => nomatch h⟩
  entry _ entry h hentry := (distinct_dict.mp h).2 entry hentry
  fewer _ _ h hnames hentries := distinct_dict.mpr ⟨List.Nodup.sublist hnames h.here, hentries⟩
  merge d e hd he := by
    refine distinct_dict.mpr ⟨Dict.distinct_merge hd.here e, fun entry hentry => ?_⟩
    rcases Dict.mem_setAll hentry with hentry | hentry
    · exact (distinct_dict.mp hd).2 entry hentry
    · exact (distinct_dict.mp he).2 entry hentry
  block _ _ _ hload := Block.distinct_of_load hload
  saved _ _ _ _ hload := Payload.distinct_of_loadDict hload

end Value

theorem Files.readsIn_distinct (fs : Files) : fs.ReadsIn Value.Distinct :=
  fun _ _ _ _ hparse => Value.Of.distinct (Json.of_parseDict hparse)

/-- No name stands twice in what is answered. -/
def AnswersDistinct (v : Option Value) : Prop := ∀ w, v = some w → w.Distinct

variable {fs : Files}

/-- The dictionary that an expansion makes of a description has no name twice, at no depth. -/
theorem Dict.distinct_of_expand {d : Dict Value} (hd : (Value.dict d).Distinct) {fuel : Nat}
    {localize : String → Option Value} (hlocalize : ∀ name, AnswersDistinct (localize name))
    {context context' : Context} {visited : Visited}
    (h : (d.expand fuel localize context).run.eval fs = some (visited, context')) {e : Dict Value}
    (he : visited.dict = some e) : (Value.dict e).Distinct :=
  Value.closed_distinct.of_expand fs.readsIn_distinct hd hlocalize h he

/-!
## Names in values

All dictionaries within a value may be restricted to certain names. Such values form a class that no expansion leads
out of.
-/

/-- Any atom, and these names and payloads. -/
def Vocabulary.named (N : String → Prop) (P : Payload → Prop := fun _ => True) : Vocabulary := ⟨fun _ => True, N, P⟩

/-- Any atom, these names, and payloads that hold no dictionary. -/
abbrev Vocabulary.flat (N : String → Prop) : Vocabulary := .named N fun p => p.content ≠ .dict

namespace Value
variable {N : String → Prop} {v : Value} {d : Dict Value}

/-- No name stands twice, and every dictionary within the value has these names only. -/
structure Spelled (N : String → Prop) (v : Value) : Prop where
  distinct : v.Distinct
  names : v.Dicts fun d => ∀ name ∈ d.names, N name

theorem spelled_atom (a : Atom) : (atom a).Spelled N := ⟨(each_atom a).mpr trivial, throughout_atom.mpr trivial⟩

theorem spelled_list {items : List Value} : (list items).Spelled N ↔ ∀ v ∈ items, v.Spelled N := by
  constructor
  · exact fun h v hv => ⟨distinct_list.mp h.distinct v hv, (throughout_list.mp h.names).2 v hv⟩
  · exact fun h => ⟨distinct_list.mpr fun v hv => (h v hv).distinct,
      throughout_list.mpr ⟨trivial, fun v hv => (h v hv).names⟩⟩

theorem spelled_dict : (dict d).Spelled N ↔
    d.Distinct ∧ (∀ name ∈ d.names, N name) ∧ ∀ entry ∈ d.entries, entry.2.Spelled N := by
  constructor
  · intro h
    obtain ⟨hd, hentries⟩ := distinct_dict.mp h.distinct
    obtain ⟨hnames, hinside⟩ := throughout_dict.mp h.names
    exact ⟨hd, hnames, fun entry hentry => ⟨hentries entry hentry, hinside entry hentry⟩⟩
  · rintro ⟨hd, hnames, hentries⟩
    exact ⟨distinct_dict.mpr ⟨hd, fun entry hentry => (hentries entry hentry).distinct⟩,
      throughout_dict.mpr ⟨hnames, fun entry hentry => (hentries entry hentry).names⟩⟩

theorem Spelled.load {b : Block} (h : (block b).Spelled N) (hload : b.load = .ok d) : (dict d).Spelled N :=
  ⟨Block.distinct_of_load hload, (throughout_block.mp h.names).2 d hload⟩

theorem Spelled.loadDict {p : Payload} (h : (saved p).Spelled N) (hcontent : p.content = .dict)
    (hload : p.loadDict = .ok d) : (dict d).Spelled N :=
  ⟨Payload.distinct_of_loadDict hload, (throughout_saved.mp h.names).2 hcontent d hload⟩

theorem spelled_blob {p : Payload} (hp : p.content ≠ .dict) : (saved p).Spelled N :=
  ⟨(each_saved p).mpr trivial, throughout_saved.mpr ⟨trivial, fun hcontent => absurd hcontent hp⟩⟩

theorem Of.spelled (h : v.Of (.flat N)) : v.Spelled N := by
  induction v using Value.induction_opened with
  | atom a => exact spelled_atom a
  | list items ih => exact spelled_list.mpr fun v hv => ih v hv (of_list.mp h v hv)
  | dict d ih =>
    obtain ⟨⟨hd, hnames⟩, hentries⟩ := of_dict.mp h
    exact spelled_dict.mpr ⟨hd, hnames, fun entry hentry => ih entry hentry (hentries entry hentry)⟩
  | block b => exact (not_of_block h).elim
  | saved p => exact spelled_blob (of_saved.mp h)

/-- Without a restriction no more is said than that no name stands twice. -/
theorem Distinct.spelled (h : v.Distinct) : v.Spelled fun _ => True :=
  ⟨h, dicts_iff.mpr fun _ _ _ _ => trivial⟩

/-- The same names stand in what is taken out of such values, opened in them or put together of them. -/
theorem closed_spelled (N : String → Prop) : Closed (Spelled N) where
  atom := spelled_atom
  list _ := spelled_list
  empty := spelled_dict.mpr ⟨List.nodup_nil, List.forall_mem_nil _, List.forall_mem_nil _⟩
  entry _ entry h hentry := (spelled_dict.mp h).2.2 entry hentry
  fewer _ _ h hnames hentries := by
    obtain ⟨hd, hallowed, _⟩ := spelled_dict.mp h
    exact spelled_dict.mpr ⟨hd.sublist hnames, fun name hname => hallowed name (hnames.subset hname), hentries⟩
  merge d e hd he := by
    obtain ⟨hdistinct, hnames, hentries⟩ := spelled_dict.mp hd
    obtain ⟨_, hnames', hentries'⟩ := spelled_dict.mp he
    refine spelled_dict.mpr ⟨Dict.distinct_merge hdistinct e, fun name hname => ?_, fun entry hentry => ?_⟩
    · exact (Dict.mem_names_merge hname).elim (hnames name) (hnames' name)
    · exact (Dict.mem_setAll hentry).elim (hentries entry) (hentries' entry)
  block _ _ h hload := h.load hload
  saved _ _ h hcontent hload := h.loadDict hcontent hload

end Value

end AssetPack
