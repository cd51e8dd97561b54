import AssetPack.Proofs.Description.Expanded
import AssetPack.Proofs.Visit

/-!
# Nothing is dropped without a word

An expansion only adds to its issues and files, and what it drops it reports. So one that reports nothing answers
every job, keeps all names of a dictionary that do not stand for something to be put in place, and lists what it
asks about.
-/
namespace AssetPack

/-- What a later state of an expansion has more. -/
structure Expansion.Grows (e e' : Expansion) : Prop where
  issues : e.issues <+: e'.issues
  files : e.context.files ⊆ e'.context.files

theorem Expansion.Grows.trans {e e' e'' : Expansion} (h : e.Grows e') (h' : e'.Grows e'') : e.Grows e'' :=
  ⟨h.issues.trans h'.issues, List.Subset.trans h.files h'.files⟩

namespace Expanding
variable {fs : Files} {files : List Path} {α β : Type} {P : Prop} {Q : α → Prop} {x : Expanding α}

/-- `x` only adds to the issues and the files. If it adds no issue and there are no other files than `files` at
its end, then it asks about these only, and if `P` holds before, its answer is as stated. -/
def Tells (fs : Files) (files : List Path) (P : Prop) (x : Expanding α) (Q : α → Prop) : Prop :=
  ∀ e a e', (Answers.files fs).option.May (x.run e) (a, e') → e.Grows e' ∧
    (e'.issues = e.issues → e'.context.files ⊆ files →
      (∀ q ∈ (x.run e).run.asked fs, q.Listed fs files) ∧ (P → Q a))

namespace Tells

/-- What asks nothing and changes neither the issues nor the files. -/
theorem of_silent (hasked : ∀ e, (x.run e).run.asked fs = [])
    (h : ∀ e a e', (Answers.files fs).option.May (x.run e) (a, e') →
      e'.issues = e.issues ∧ e'.context.files = e.context.files ∧ (P → Q a)) : Tells fs files P x Q := by
  intro e a e' hmay
  obtain ⟨hissues, hfiles, ha⟩ := h e a e' hmay
  refine ⟨⟨hissues ▸ List.prefix_rfl, hfiles ▸ List.Subset.refl _⟩, fun _ _ => ⟨fun q hq => ?_, ha⟩⟩
  rw [hasked] at hq
  cases hq

theorem pure {a : α} (h : P → Q a) : Tells fs files P (Pure.pure a) Q := by
  refine of_silent (fun _ => rfl) fun e b e' hmay => ?_
  cases (Answers.files fs).option.eq_of_pure hmay
  exact ⟨rfl, rfl, h⟩

theorem bind {f : α → Expanding β} {R : β → Prop} (hx : Tells fs files P x Q)
    (hf : ∀ a, Tells fs files (Q a) (f a) R) : Tells fs files P (x >>= f) R := by
  intro e b e'' hmay
  rw [StateT.run_bind] at hmay ⊢
  obtain ⟨⟨a, e'⟩, hx', hf'⟩ := (Answers.files fs).option.of_bind hmay
  obtain ⟨hfirst, ha⟩ := hx e a e' hx'
  obtain ⟨hsecond, hb⟩ := hf a e' b e'' hf'
  refine ⟨hfirst.trans hsecond, fun heq hfiles => ?_⟩
  -- what is between two lists that are the same is the same
  have hmiddle : e'.issues = e.issues :=
    (hfirst.issues.eq_of_length_le (heq ▸ hsecond.issues.length_le)).symm
  obtain ⟨hasked, ha⟩ := ha hmiddle (List.Subset.trans hsecond.files hfiles)
  obtain ⟨hasked', hb⟩ := hb (heq.trans hmiddle.symm) hfiles
  refine ⟨fun q hq => ?_, fun hP => hb (ha hP)⟩
  rw [Look.asked_optionT_bind, ← show some (a, e') = _ from hx'] at hq
  exact (List.mem_append.mp hq).elim (hasked q) (hasked' q)

/-- What held before holds after as well. -/
theorem frame (hx : Tells fs files True x Q) : Tells fs files P x fun a => P ∧ Q a := by
  intro e a e' hmay
  obtain ⟨hgrown, ha⟩ := hx e a e' hmay
  exact ⟨hgrown, fun heq hfiles => (ha heq hfiles).imp id fun ha hP => ⟨hP, ha trivial⟩⟩

theorem mono {R : α → Prop} (hx : Tells fs files P x Q) (h : ∀ a, Q a → R a) : Tells fs files P x R := by
  intro e a e' hmay
  obtain ⟨hgrown, ha⟩ := hx e a e' hmay
  exact ⟨hgrown, fun heq hfiles => (ha heq hfiles).imp id fun ha hP => h a (ha hP)⟩

theorem ask : Tells fs files P (get : Expanding Expansion) fun _ => P := by
  refine of_silent (fun _ => rfl) fun e b e' hmay => ?_
  cases (Answers.files fs).option.eq_of_pure hmay
  exact ⟨rfl, rfl, id⟩

/-- A change of anything but the issues and the context. -/
theorem change {f : Expansion → Expansion} (h : ∀ e, (f e).issues = e.issues ∧ (f e).context = e.context) :
    Tells fs files P (modify f : Expanding PUnit) fun _ => P := by
  refine of_silent (fun _ => rfl) fun e b e' hmay => ?_
  cases (Answers.files fs).option.eq_of_pure hmay
  exact ⟨(h e).1, congrArg Context.files (h e).2, id⟩

/-- A look that asks about what is listed, if what is done with its answer turns out well. -/
theorem look_bind (y : Look β) {f : β → Expanding α} (h : Tells fs files True (f (y.eval fs)) Q)
    (hy : ∀ a, Q a → ∀ q ∈ y.asked fs, q.Listed fs files) : Tells fs files P (liftM y >>= f) Q := by
  intro e a e' hmay
  have hlift : (liftM y : Expanding β).run e = OptionT.lift y >>= fun b => Pure.pure (b, e) := rfl
  have heval : ((liftM y : Expanding β).run e).run.eval fs = some (y.eval fs, e) := by
    rw [hlift, OptionT.run_bind, OptionT.run_lift, Option.elimM, Look.eval_bind, Look.eval_bind]
    rfl
  have hasked : ((liftM y : Expanding β).run e).run.asked fs = y.asked fs := by
    rw [hlift, Look.asked_optionT_map, Look.asked_optionT_lift]
  rw [StateT.run_bind] at hmay ⊢
  obtain ⟨⟨b, e₁⟩, hlook, hrest⟩ := (Answers.files fs).option.of_bind hmay
  obtain ⟨rfl, rfl⟩ := Prod.mk.inj (Option.some.inj (Eq.trans hlook heval))
  obtain ⟨hgrown, ha⟩ := h e₁ a e' hrest
  refine ⟨hgrown, fun heq hfiles => ?_⟩
  obtain ⟨hlisted, ha⟩ := ha heq hfiles
  refine ⟨fun q hq => ?_, fun _ => ha trivial⟩
  rw [Look.asked_optionT_bind, hasked, heval] at hq
  exact (List.mem_append.mp hq).elim (hy a (ha trivial) q) (hlisted q)

/-- What is dropped with words is told. -/
theorem drop {i : Issue} {Q : Option α → Prop} (hi : i.Own) : Tells fs files P (drop i) Q := by
  intro e a e' hmay
  rw [Expanding.drop, StateT.run_bind] at hmay
  obtain ⟨⟨_, e₁⟩, hmodify, hdone⟩ := (Answers.files fs).option.of_bind hmay
  cases (Answers.files fs).option.eq_of_pure hmodify
  cases (Answers.files fs).option.eq_of_pure hdone
  rw [Issue.audible_of_own hi]
  refine ⟨⟨List.prefix_append _ _, List.Subset.refl _⟩, fun heq => ?_⟩
  exact absurd (List.append_right_eq_self.mp heq) (List.cons_ne_nil i [])

/-- `x` between two changes of anything but the issues and the context. -/
theorem around {f g : Expansion → Expansion} (hf : ∀ e, (f e).issues = e.issues ∧ (f e).context = e.context)
    (hg : ∀ e, (g e).issues = e.issues ∧ (g e).context = e.context) (h : Tells fs files P x Q) :
    Tells fs files P (do modify f; let a ← x; modify g; return a) Q :=
  (change hf).bind fun _ => h.bind fun _ => (change hg).bind fun _ => pure id

theorem within (step : Step) (h : Tells fs files P x Q) : Tells fs files P (within step x) Q :=
  around (fun _ => ⟨rfl, rfl⟩) (fun _ => ⟨rfl, rfl⟩) h

theorem inTemplate (name : String) (h : Tells fs files P x Q) : Tells fs files P (inTemplate name x) Q :=
  around (fun _ => ⟨rfl, rfl⟩) (fun _ => ⟨rfl, rfl⟩) h

theorem inImport (path : Path) (h : Tells fs files P x Q) : Tells fs files P (inImport path x) Q :=
  around (fun _ => ⟨rfl, rfl⟩) (fun _ => ⟨rfl, rfl⟩) h

theorem inNewScope (scope : Dict Value) (h : Tells fs files P x Q) : Tells fs files P (inNewScope scope x) Q :=
  around (fun _ => ⟨rfl, rfl⟩) (fun _ => ⟨rfl, rfl⟩) h

/-- A file that is added is among the files at the end. -/
theorem addFile {path : Path} (hpath : fs.Leads path) :
    Tells fs files P (addFile path) fun _ => ∃ f ∈ files, Path.same f ((Look.settle path).eval fs) := by
  intro e a e' hmay
  have hrun : (Expanding.addFile path).run e = (OptionT.lift (e.context.addFile e.root? path) >>= fun context =>
      Pure.pure (context, e)) >>= fun r => Pure.pure (⟨⟩, { e with context := r.1 }) := rfl
  have hasked : ((Expanding.addFile path).run e).run.asked fs = [.canonical path] := by
    rw [hrun, Look.asked_optionT_map, Look.asked_optionT_map, Look.asked_optionT_lift, Context.asked_addFile]
  rw [hrun] at hmay
  obtain ⟨⟨context, e₁⟩, hlook, hset⟩ := (Answers.files fs).option.of_bind hmay
  cases (Answers.files fs).option.eq_of_pure hset
  obtain ⟨_, hcontext, hlook⟩ := (Answers.files fs).option.of_bind hlook
  cases (Answers.files fs).option.eq_of_pure hlook
  obtain rfl : context = (e.context.addFile e.root? path).eval fs :=
    Option.some.inj (Eq.trans hcontext (Look.eval_bind ..))
  refine ⟨⟨List.prefix_rfl, ?_⟩, fun _ hfiles => ⟨fun q hq => ?_, fun _ => ?_⟩⟩
  · rw [Context.files_addFile]
    exact Path.subset_insertSorted _ _
  · rw [hasked] at hq
    obtain rfl := List.mem_singleton.mp hq
    exact hpath
  · rw [Context.files_addFile] at hfiles
    obtain ⟨f, hf, hsame⟩ := Path.exists_same_insertSorted ((Look.settle path).eval fs) e.context.files
    exact ⟨f, hfiles hf, hsame⟩

end Tells

end Expanding

/-! ## One level of the pass -/

/-- A dictionary is answered that has all names that do not stand for something to be put in place, if one is
answered. -/
def Dict.Covers (d : Dict Value) (v : Value) : Prop :=
  ∀ e, v.dictValue?.bind Value.dict? = some e → ∀ name ∈ d.names, name ∉ Key.directives → name ∈ e.names

/-- A job is answered. -/
def Job.Answered : Job → Option Value → Prop
  | .dict d => fun v => ∃ w, v = some w ∧ d.Covers w
  | .value _ => fun v => ∃ w, v = some w

theorem ne_of_not_directive {name key : String} (h : name ∉ Key.directives) (hkey : key ∈ Key.directives) :
    name ≠ key := by
  rintro rfl
  exact h hkey

namespace Expanding
variable {fs : Files} {P : Prop} {next : Job → Expanding (Option Value)}

theorem mem_directives_templateKey (d : Dict Value) : templateKey d ∈ Key.directives := by
  rw [templateKey]
  split <;> decide

section
variable (hnext : ∀ job, Tells fs files True (next job) job.Answered)
include hnext

theorem tells_entries (es : List (String × Value)) :
    Tells fs files True (entries next es) fun done => done.map (·.1) = es.map (·.1) := by
  induction es with
  | nil => exact .pure fun _ => rfl
  | cons e rest ih =>
    refine ((hnext (.value e.2)).within _).bind fun w => ih.frame.bind fun done => .pure ?_
    rintro ⟨⟨w, rfl⟩, hdone⟩
    rw [List.map_cons, List.map_cons, hdone]

theorem tells_items (vs : List Value) (index : Nat) : Tells fs files True (items next index vs) fun _ => True := by
  induction vs generalizing index with
  | nil => exact .pure id
  | cons v rest ih =>
    exact ((hnext (.value v)).within _).bind fun w => (ih (index + 1)).frame.bind fun ws => .pure fun _ => trivial

theorem tells_importFile (relative : Path) :
    Tells fs files True (importFile next relative) fun found => ∃ d, found = some d := by
  refine Tells.ask.bind fun e => ?_
  generalize Path.join e.context.base relative = spelled
  generalize hpath : (Look.settle spelled).eval fs = path
  -- it is known only when all has turned out well that the file was read and is listed
  refine Tells.mono (Q := fun found => (∃ d, found = some d) ∧ ∃ bs, fs.read path = .ok bs) ?_ fun _ h => h.1
  refine Tells.look_bind _ ?_ fun found hfound q hq => ?_
  · rw [hpath]
    refine Tells.ask.bind fun e' => ?_
    split
    · exact .drop trivial
    · refine Tells.mono (Q := fun found => (∃ d, found = some d) ∧ (∃ bs, fs.read path = .ok bs) ∧
        ∃ f ∈ files, Path.same f ((Look.settle path).eval fs)) ?_ fun _ h => ⟨h.1, h.2.1⟩
      refine Tells.look_bind _ ?_ fun found hfound q hq => ?_
      · cases htext : (Look.readText path).eval fs with
        | error error => exact .drop trivial
        | ok text =>
          obtain ⟨bs, hread⟩ := Look.read_of_readText fs htext
          dsimp only
          cases Json.parseDict text with
          | error fault => exact .drop trivial
          | ok parsed =>
            refine (Tells.addFile (.read hread)).bind fun _ => ((hnext (.dict parsed)).inImport _).frame.bind fun w => ?_
            split
            · exact .pure fun h => ⟨⟨_, rfl⟩, ⟨bs, hread⟩, h.1⟩
            · exact .drop trivial
      · rw [Look.asked_readText] at hq
        obtain rfl := List.mem_singleton.mp hq
        exact hfound.2
  · rw [Look.asked_settle] at hq
    obtain rfl := List.mem_singleton.mp hq
    obtain ⟨_, bs, hread⟩ := hfound
    exact Files.leads_of_read_settle (hpath ▸ hread)

theorem tells_imported (d : Dict Value) : Tells fs files True (imported next d) fun whole =>
    ∃ e, whole = some e ∧ ∀ name ∈ d.names, name ≠ Key.imported → name ∈ e.names := by
  unfold imported
  split
  · exact .pure fun _ => ⟨d, rfl, fun _ hname _ => hname⟩
  · refine (tells_importFile hnext _).bind fun found => ?_
    cases found with
    | none =>
      refine .pure fun hfound => ?_
      obtain ⟨_, h⟩ := hfound
      cases h
    | some base =>
      refine .pure fun _ => ⟨_, rfl, fun name hname hkey => ?_⟩
      exact Dict.names_subset_merge base _ (Dict.mem_names_erase hname hkey)
  · exact Tells.ask.bind fun _ => .drop trivial

theorem tells_overTemplate (s : Setting) (template : String) (d : Dict Value) :
    Tells fs files True (overTemplate next s template d) (Job.dict d).Answered := by
  refine Tells.ask.bind fun e => ?_
  split
  · exact .drop trivial
  · split
    · exact .drop trivial
    · refine Tells.inTemplate template ?_
      split
      · rename_i base _
        refine (hnext (.dict (base.merge d))).mono fun v hv => ?_
        obtain ⟨w, rfl, hcovers⟩ := hv
        exact ⟨w, rfl, fun e he name hname => hcovers e he name (Dict.names_subset_merge base d hname)⟩
      · split
        · rename_i hempty
          refine (hnext (.value _)).mono fun v hv => ?_
          obtain ⟨w, rfl⟩ := hv
          refine ⟨w, rfl, fun e _ name hname => ?_⟩
          have hnone : d.entries = [] := List.isEmpty_iff.mp hempty
          rw [Dict.names, hnone] at hname
          cases hname
        · exact .drop trivial

theorem tells_plain (s : Setting) (d : Dict Value) : Tells fs files True (plain next s d) (Job.dict d).Answered := by
  refine (tells_imported hnext d).bind fun whole => ?_
  cases whole with
  | none =>
    refine .pure fun hwhole => ?_
    obtain ⟨_, h, _⟩ := hwhole
    cases h
  | some e =>
    dsimp only
    split
    · refine (tells_entries hnext e.entries).frame.bind fun done => .pure ?_
      rintro ⟨⟨_, hwhole, hnames⟩, hdone⟩
      cases hwhole
      refine ⟨_, rfl, fun e' he' name hname hdirective => ?_⟩
      cases he'
      rw [Dict.names, hdone]
      exact hnames name hname (ne_of_not_directive hdirective (by decide))
    · refine (tells_overTemplate hnext s _ _).frame.mono fun v hv => ?_
      obtain ⟨⟨_, hwhole, hnames⟩, w, rfl, hcovers⟩ := hv
      cases hwhole
      refine ⟨w, rfl, fun e' he' name hname hdirective => ?_⟩
      refine hcovers e' he' name (Dict.mem_names_erase ?_ ?_) hdirective
      · exact hnames name hname (ne_of_not_directive hdirective (by decide))
      · exact ne_of_not_directive hdirective (mem_directives_templateKey e)
    · exact Tells.ask.bind fun _ => .drop trivial

theorem tells_dict (s : Setting) (d : Dict Value) : Tells fs files True (dict next s d) (Job.dict d).Answered := by
  unfold dict
  split
  · exact tells_plain hnext s d
  · split
    · exact Tells.ask.bind fun _ => .drop trivial
    · refine Tells.ask.bind fun e => Tells.inNewScope _ ((tells_plain hnext s _).mono fun v hv => ?_)
      obtain ⟨w, rfl, hcovers⟩ := hv
      refine ⟨w, rfl, fun e' he' name hname hdirective => ?_⟩
      exact hcovers e' he' name
        (Dict.mem_names_erase hname (ne_of_not_directive hdirective (by decide))) hdirective

theorem tells_inside (v : Value) : Tells fs files True (inside next v) (Job.value v).Answered := by
  cases v with
  | dict d => exact (hnext (.dict d)).mono fun _ h => h.imp fun _ hw => hw.1
  | block b =>
    rw [inside]
    split
    · exact (hnext (.dict _)).mono fun _ h => h.imp fun _ hw => hw.1
    · exact Tells.ask.bind fun _ => .drop trivial
  | saved p =>
    rw [inside]
    split
    · split
      · exact (hnext (.dict _)).mono fun _ h => h.imp fun _ hw => hw.1
      · exact Tells.ask.bind fun _ => .drop trivial
    · exact .pure fun _ => ⟨_, rfl⟩
  | list vs => exact (tells_items hnext vs 0).bind fun done => .pure fun _ => ⟨_, rfl⟩
  | atom a => exact .pure fun _ => ⟨_, rfl⟩

theorem tells_named (s : Setting) (text : String) : Tells fs files P (named next s text) fun v => ∃ w, v = some w := by
  unfold named
  split
  · refine Tells.ask.bind fun e => ?_
    split
    · exact (hnext (.value _)).frame.mono fun _ h => h.2
    · exact .drop trivial
  · split
    · split
      · exact .pure fun _ => ⟨_, rfl⟩
      · exact .drop trivial
    · exact .pure fun _ => ⟨_, rfl⟩

theorem tells_value (s : Setting) (v : Value) : Tells fs files True (value next s v) (Job.value v).Answered := by
  refine (tells_inside hnext v).bind fun w => ?_
  split
  · exact tells_named hnext s _
  · exact .pure fun hw => hw

end
end Expanding

variable {fs : Files}

/-- All parts of an expansion only add to the issues and the files, and where no issue is added each job is
answered, and asks about listed files only. -/
theorem tells_expandTo (files : List Path) (s : Setting) (fuel : Nat) (job : Job) :
    Expanding.Tells fs files True (expandTo s fuel job) job.Answered := by
  induction fuel generalizing job with
  | zero =>
    intro e a e' hmay
    exact ((Answers.files fs).not_may_failure _ hmay).elim
  | succ fuel ih =>
    cases job with
    | dict d => exact Expanding.tells_dict ih s d
    | value v => exact Expanding.tells_value ih s v

namespace Dict
variable {d : Dict Value} {fuel : Nat} {localize : String → Option Value} {context context' : Context}
  {visited : Visited}

/-- An expansion that reports nothing keeps all names that do not stand for something to be put in place. -/
theorem names_of_expand (h : (d.expand fuel localize context).run.eval fs = some (visited, context'))
    (hissues : visited.issues = []) {e : Dict Value} (he : visited.dict = some e) :
    ∀ name ∈ d.names, name ∉ Key.directives → name ∈ e.names := by
  obtain ⟨v, x, hrun, rfl, rfl⟩ := exists_expandTo h
  obtain ⟨_, htells⟩ := tells_expandTo x.context.files ⟨d, localize⟩ fuel (.dict d) _ _ _ hrun
  obtain ⟨_, hanswered⟩ := htells hissues (List.Subset.refl _)
  obtain ⟨w, rfl, hcovers⟩ := hanswered trivial
  exact hcovers e he

/-- An expansion that reports nothing asks only about what it lists. -/
theorem listed_of_expand (h : (d.expand fuel localize context).run.eval fs = some (visited, context'))
    (hissues : visited.issues = []) :
    ∀ q ∈ (d.expand fuel localize context).run.asked fs, q.Listed fs context'.files := by
  obtain ⟨v, x, hrun, rfl, rfl⟩ := exists_expandTo h
  obtain ⟨_, htells⟩ := tells_expandTo x.context.files ⟨d, localize⟩ fuel (.dict d) _ _ _ hrun
  rw [expand, Look.asked_optionT_map]
  exact (htells hissues (List.Subset.refl _)).1

end Dict
end AssetPack
