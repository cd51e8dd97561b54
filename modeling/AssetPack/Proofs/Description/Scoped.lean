import AssetPack.Proofs.Description.Inherited
import AssetPack.Proofs.Description.Fueled
import AssetPack.Proofs.Description.Scopes
import Mathlib.Order.Filter.AtTopBot.Basic
import Mathlib.Order.Filter.Finite

/-!
# Substitution in scope

Where values in scope are all that is put in place, the first pass is substitution. It reports nothing if and only if
everything it meets is bound, and then makes the description with the bindings in place, each taken to where it is
used. A value is expanded along its items and entries; a binding is not smaller than the text that it takes the
place of, but the look-up is one on the way down. So the proof is by induction on the look-ups, and for each by
induction on the value that was found.
-/
namespace AssetPack

namespace Value.Substituted
variable {σ : Scope}

theorem of_items {items done : List Value} (h : List.Forall₂ (Value.Substituted σ) items done) :
    (Value.list items).Substituted σ (.list done) := by
  refine .list h.length_eq fun i v w hv hw => ?_
  obtain ⟨hlt, rfl⟩ := List.getElem?_eq_some_iff.mp hv
  obtain ⟨hlt', rfl⟩ := List.getElem?_eq_some_iff.mp hw
  exact h.get hlt hlt'

theorem of_entries {d : Dict Value} {done : List (String × Value)} (hd : d.Distinct)
    (h : List.Forall₂ (fun entry done => entry.1 = done.1 ∧ entry.2.Substituted (Scope.inside σ d) done.2)
      (d.erase Key.values).entries done) : (Value.dict d).Substituted σ (.dict ⟨done⟩) := by
  have hnames : (⟨done⟩ : Dict Value).names = (d.erase Key.values).names := Dict.names_of_forall₂ h
  refine .dict ?_ hnames fun name v w hv hw => Dict.rel_of_forall₂ h hv hw
  rw [Dict.Distinct, hnames]
  exact Dict.distinct_erase hd _

end Value.Substituted

namespace Expanding
variable {fs : Files} {σ : Scope} {α β : Type} {x : Expanding α} {Q R : α → List Issue → Prop}

/-! ## What is answered and reported -/

/-- In the scope, `x` answers, and changes nothing of the state but for issues it adds. The answer and these issues are
as stated. -/
def Reports (fs : Files) (σ : Scope) (x : Expanding α) (Q : α → List Issue → Prop) : Prop :=
  ∀ e, e.scopes.head? = σ → ∃ a more, eval fs x e = some (a, { e with issues := e.issues ++ more }) ∧ Q a more

namespace Reports

theorem pure {a : α} (h : Q a []) : Reports fs σ (Pure.pure a) Q := by
  intro e _
  refine ⟨a, [], ?_, h⟩
  rw [eval_pure, List.append_nil]

theorem bind {f : α → Expanding β} {T : β → List Issue → Prop} (hx : Reports fs σ x Q)
    (hf : ∀ a more, Q a more → Reports fs σ (f a) fun b further => T b (more ++ further)) :
    Reports fs σ (x >>= f) T := by
  intro e he
  obtain ⟨a, more, hrun, ha⟩ := hx e he
  obtain ⟨b, further, hrun', hb⟩ := hf a more ha { e with issues := e.issues ++ more } he
  refine ⟨b, more ++ further, ?_, hb⟩
  rw [eval_bind_of hrun, hrun', List.append_assoc]

theorem mono (hx : Reports fs σ x Q) (h : ∀ a more, Q a more → R a more) : Reports fs σ x R := by
  intro e he
  obtain ⟨a, more, hrun, ha⟩ := hx e he
  exact ⟨a, more, hrun, h a more ha⟩

/-- After a look at the state it is known what is in scope. -/
theorem ask {f : Expansion → Expanding α} (hf : ∀ e, e.scopes.head? = σ → Reports fs σ (f e) Q) :
    Reports fs σ (get >>= f) Q :=
  fun e he => hf e he e he

theorem drop {i : Issue} {Q : Option α → List Issue → Prop} (hi : i.Own) (h : Q none [i]) :
    Reports fs σ (Expanding.drop i) Q := by
  intro e _
  have heval : eval fs (Expanding.drop i : Expanding (Option α)) e =
      some (none, { e with issues := e.issues ++ Issue.audible [i] }) := rfl
  rw [Issue.audible_of_own hi] at heval
  exact ⟨none, [i], heval, h⟩

theorem within (step : Step) (h : Reports fs σ x Q) : Reports fs σ (within step x) Q := by
  intro e he
  obtain ⟨a, more, hrun, ha⟩ := h { e with trail := step :: e.trail } he
  refine ⟨a, more, ?_, ha⟩
  rw [eval_within, hrun]
  rfl

theorem inNewScope {scope : Dict Value} (h : Reports fs (some scope) x Q) :
    Reports fs σ (inNewScope scope x) Q := by
  intro e _
  obtain ⟨a, more, hrun, ha⟩ := h { e with scopes := scope :: e.scopes } rfl
  refine ⟨a, more, ?_, ha⟩
  rw [Expanding.inNewScope, eval_around, hrun]
  rfl

end Reports

/-- Nothing is reported about the job if and only if all that is met from it is bound, and then the answer is what it
is with the bindings in place. A dictionary is answered with one in any case. -/
structure Substitutes (σ : Scope) (job : Job) (answer : Option Value) (more : List Issue) : Prop where
  silent : more = [] ↔ job.source.Bound σ
  result : more = [] → ∃ w, answer = some w ∧ job.source.Substituted σ w
  dict : ∀ d, job = .dict d → ∃ out, answer = some (.dict out)

theorem Substitutes.of_value {v : Value} {answer : Option Value} {more : List Issue} (hsilent : more = [] ↔ v.Bound σ)
    (hresult : more = [] → ∃ w, answer = some w ∧ v.Substituted σ w) : Substitutes σ (.value v) answer more := by
  refine ⟨hsilent, hresult, fun d hd => ?_⟩
  cases hd

/-! ## One level of the pass -/

variable {next : Job → Expanding (Option Value)} {s : Setting}

/-- One of two lists of issues is empty if both are. -/
theorem append_nil_iff {P P' : Prop} {more further : List Issue} (h : more = [] ↔ P) (h' : further = [] ↔ P') :
    more ++ further = [] ↔ P ∧ P' := by
  rw [List.append_eq_nil_iff, h, h']

theorem reports_entries {es : List (String × Value)}
    (h : ∀ entry ∈ es, Reports fs σ (next (.value entry.2)) (Substitutes σ (.value entry.2))) :
    Reports fs σ (entries next es) fun done more => (more = [] ↔ ∀ entry ∈ es, entry.2.Bound σ) ∧
      (more = [] → List.Forall₂ (fun entry done => entry.1 = done.1 ∧ entry.2.Substituted σ done.2) es done) := by
  induction es with
  | nil => exact .pure ⟨by simp, fun _ => .nil⟩
  | cons entry rest ih =>
    obtain ⟨hentry, hrest⟩ := List.forall_mem_cons.mp h
    refine (hentry.within _).bind fun answer more hanswer => (ih hrest).bind fun done further hdone => .pure ?_
    rw [List.append_nil, append_nil_iff hanswer.silent hdone.1, List.forall_mem_cons]
    refine ⟨Iff.rfl, fun hsilent => ?_⟩
    obtain ⟨w, rfl, hw⟩ := hanswer.result (hanswer.silent.mpr hsilent.1)
    exact .cons ⟨rfl, hw⟩ (hdone.2 (hdone.1.mpr hsilent.2))

theorem reports_items {vs : List Value}
    (h : ∀ v ∈ vs, Reports fs σ (next (.value v)) (Substitutes σ (.value v))) (index : Nat) :
    Reports fs σ (items next index vs) fun done more => (more = [] ↔ ∀ v ∈ vs, v.Bound σ) ∧
      (more = [] → List.Forall₂ (Value.Substituted σ) vs done) := by
  induction vs generalizing index with
  | nil => exact .pure ⟨by simp, fun _ => .nil⟩
  | cons v rest ih =>
    obtain ⟨hv, hrest⟩ := List.forall_mem_cons.mp h
    refine (hv.within _).bind fun answer more hanswer => (ih hrest (index + 1)).bind fun done further hdone => .pure ?_
    rw [List.append_nil, append_nil_iff hanswer.silent hdone.1, List.forall_mem_cons]
    refine ⟨Iff.rfl, fun hsilent => ?_⟩
    obtain ⟨w, rfl, hw⟩ := hanswer.result (hanswer.silent.mpr hsilent.1)
    exact .cons hw (hdone.2 (hdone.1.mpr hsilent.2))

/-- A dictionary is answered with its other entries, in the scope with its `res:values`. -/
theorem dict_of_scoping {d : Dict Value} (hd : (Value.dict d).Scoping) {Q : Option Value → List Issue → Prop}
    (h : Reports fs (Scope.inside σ d) (do return some (.dict ⟨← entries next (d.erase Key.values).entries⟩)) Q) :
    Reports fs σ (dict next s d) Q := by
  obtain ⟨-, hnames, hvalues⟩ := hd
  have hbare : ∀ name ∈ (d.erase Key.values).names, name ∉ Key.directives := by
    intro name hname hdirective
    have hother := hnames name (Dict.names_erase_subset d _ hname)
    have hne : name ≠ Key.values := fun heq => Dict.not_mem_names_erase d _ (heq ▸ hname)
    simp only [Key.directives, List.mem_cons, List.not_mem_nil, or_false] at hdirective hother
    tauto
  rw [← plain_of_bare hbare next s] at h
  rw [dict]
  cases hget : d.get? Key.values with
  | none =>
    have herase : d.erase Key.values = d := Dict.erase_of_not_mem (Dict.get?_eq_none_iff.mp hget)
    have hscope : Scope.inside σ d = σ := by rw [Scope.inside, hget]; rfl
    rwa [herase, hscope] at h
  | some v =>
    obtain ⟨values, rfl⟩ := hvalues v hget
    have hscope : Scope.inside σ d = some ((σ.getD ∅).merge values) := by rw [Scope.inside, hget]; rfl
    rw [hscope] at h
    refine .ask fun e he => ?_
    subst he
    exact h.inNewScope

theorem reports_dict {d : Dict Value} (hd : (Value.dict d).Scoping)
    (h : ∀ entry ∈ (d.erase Key.values).entries,
      Reports fs (Scope.inside σ d) (next (.value entry.2)) (Substitutes (Scope.inside σ d) (.value entry.2))) :
    Reports fs σ (dict next s d) (Substitutes σ (.dict d)) := by
  refine dict_of_scoping hd ((reports_entries h).bind fun done more hdone => .pure ?_)
  rw [List.append_nil]
  constructor
  · exact hdone.1.trans Value.bound_dict.symm
  · exact fun hsilent => ⟨_, rfl, .of_entries hd.1 (hdone.2 hsilent)⟩
  · exact fun _ _ => ⟨_, rfl⟩

/-- An atom that stands for itself. -/
theorem reports_value_atom {a : Atom} (ha : (Value.atom a).Scoping)
    (hnone : ∀ text, a = .string text → after? Key.reserved text = none) :
    Reports fs σ (value next s (.atom a)) (Substitutes σ (.value (.atom a))) := by
  have hself : Substitutes σ (.value (.atom a)) (some (.atom a)) [] :=
    .of_value (iff_of_true rfl (Value.bound_atom hnone)) fun _ => ⟨_, rfl, .atom hnone⟩
  have hinside : inside next (.atom a) = Pure.pure (some (.atom a)) := rfl
  have hrun : value next s (.atom a) = Pure.pure (some (.atom a)) := by
    rw [value, hinside, pure_bind]
    cases a with
    | string text =>
      have hlocalized : after? Key.localized text = none := ha
      dsimp only
      rw [named, hnone text rfl, hlocalized]
    | _ => rfl
  rw [hrun]
  exact .pure hself

/-- A text that is looked up is answered as its binding is. -/
theorem reports_value_text {text name : String} (htext : after? Key.reserved text = some name)
    (h : ∀ v, Scope.find? σ name = some v → Reports fs σ (next (.value v)) (Substitutes σ (.value v))) :
    Reports fs σ (value next s (.string text)) (Substitutes σ (.value (.string text))) := by
  have hinside : inside next (.string text) = Pure.pure (some (.string text)) := rfl
  rw [value, hinside, pure_bind]
  dsimp only
  rw [named, htext]
  refine .ask fun e he => ?_
  have hin : e.inScope? name = Scope.find? σ name := by rw [Expansion.inScope?, he, Scope.find?]
  rw [hin]
  cases hfind : Scope.find? σ name with
  | none =>
    refine .drop trivial (.of_value ?_ fun hsilent => ?_)
    · rw [Value.bound_text htext, hfind]
      simp
    · cases hsilent
  | some v =>
    refine (h v hfind).mono fun answer more hanswer => .of_value ?_ fun hsilent => ?_
    · rw [hanswer.silent, Job.source, Value.bound_text htext, hfind]
      simp
    · obtain ⟨w, rfl, hw⟩ := hanswer.result hsilent
      exact ⟨w, rfl, .text htext hfind hw⟩

theorem reports_value_list {vs : List Value}
    (h : ∀ v ∈ vs, Reports fs σ (next (.value v)) (Substitutes σ (.value v))) :
    Reports fs σ (value next s (.list vs)) (Substitutes σ (.value (.list vs))) := by
  have hinside : Reports fs σ (inside next (.list vs)) fun answer more =>
      Substitutes σ (.value (.list vs)) answer more ∧ ∃ done, answer = some (.list done) := by
    refine (reports_items h 0).bind fun done more hdone => .pure ⟨?_, done, rfl⟩
    rw [List.append_nil]
    apply Substitutes.of_value
    · exact hdone.1.trans Value.bound_list.symm
    · exact fun hsilent => ⟨_, rfl, .of_items (hdone.2 hsilent)⟩
  refine hinside.bind fun answer more hanswer => ?_
  obtain ⟨hsubstitutes, done, rfl⟩ := hanswer
  exact .pure ((List.append_nil more).symm ▸ hsubstitutes)

theorem reports_value_dict {d : Dict Value} (h : Reports fs σ (next (.dict d)) (Substitutes σ (.dict d))) :
    Reports fs σ (value next s (.dict d)) (Substitutes σ (.value (.dict d))) := by
  refine h.bind fun answer more hanswer => ?_
  obtain ⟨out, rfl⟩ := hanswer.dict d rfl
  apply Reports.pure
  rw [List.append_nil]
  exact .of_value hanswer.silent hanswer.result

/-! ## With enough fuel -/

/-- With enough fuel the job is answered by substitution. -/
def Suffices (fs : Files) (s : Setting) (σ : Scope) (job : Job) : Prop :=
  ∀ᶠ fuel in Filter.atTop, Reports fs σ (expandTo s fuel job) (Substitutes σ job)

theorem Suffices.of_level {job : Job}
    (h : ∀ᶠ fuel in Filter.atTop, Reports fs σ (expandTo s (fuel + 1) job) (Substitutes σ job)) :
    Suffices fs s σ job := by
  rw [Suffices, ← Filter.map_add_atTop_eq_nat 1]
  exact Filter.eventually_map.mpr h

/-- A text suffices if its binding does, should it have one. -/
theorem suffices_text {text name : String} (htext : after? Key.reserved text = some name)
    (h : ∀ u, Scope.find? σ name = some u → Suffices fs s σ (.value u)) : Suffices fs s σ (.value (.string text)) := by
  apply Suffices.of_level
  cases hfind : Scope.find? σ name with
  | none =>
    refine .of_forall fun _ => reports_value_text htext fun u hu => ?_
    cases hfind.symm.trans hu
  | some u =>
    refine (h u hfind).mono fun _ hanswer => reports_value_text htext fun u' hu' => ?_
    cases hfind.symm.trans hu'
    exact hanswer

theorem suffices_list {items : List Value} (h : ∀ v ∈ items, Suffices fs s σ (.value v)) :
    Suffices fs s σ (.value (.list items)) := by
  have hall := (Filter.eventually_all_finite items.finite_toSet).mpr h
  exact .of_level (hall.mono fun _ h => reports_value_list h)

theorem suffices_dict {d : Dict Value} (hd : (Value.dict d).Scoping)
    (h : ∀ entry ∈ (d.erase Key.values).entries, Suffices fs s (Scope.inside σ d) (.value entry.2)) :
    Suffices fs s σ (.dict d) := by
  have hall := (Filter.eventually_all_finite (d.erase Key.values).entries.finite_toSet).mpr h
  exact .of_level (hall.mono fun _ h => reports_dict hd h)

section
variable {root : Dict Value} (hroot : (Value.dict root).Throughout Value.Scoping)
include hroot

/-- A value suffices if what it looks up does. The induction is on the value, through the scopes inside it. -/
theorem suffices_of_looksUp {v : Value} (hv : v.Occurs root) (h : ∀ l, v.LooksUp σ l → ∀ u, l.value? = some u →
      Suffices fs s l.scope (.value u)) : Suffices fs s σ (.value v) := by
  induction v generalizing σ with
  | atom a =>
    have hscoping := hv.scoping hroot
    by_cases hnone : ∀ text, a = .string text → after? Key.reserved text = none
    · exact .of_level (.of_forall fun _ => reports_value_atom hscoping hnone)
    · simp only [not_forall] at hnone
      obtain ⟨text, rfl, hsome⟩ := hnone
      obtain ⟨name, hname⟩ := Option.ne_none_iff_exists'.mp hsome
      exact suffices_text hname (h ⟨σ, name⟩ (.text hname))
  | list items ih =>
    -- only a dictionary can be a scope, so the list stands in the description
    have hwithin : (Value.list items).Within (.dict root) := by
      rcases hv with hv | ⟨_, ⟨⟩, -⟩
      exact hv
    refine suffices_list fun v hmem => ?_
    apply ih v hmem (.inl (Value.Within.trans (.item hmem .self) hwithin))
    exact fun l hl => h l (.item hmem hl)
  | dict d ih =>
    have hcomposed := hv.composed hroot
    have hdict : Suffices fs s σ (.dict d) := by
      refine suffices_dict (hv.scoping hroot) fun entry hentry => ?_
      have hmem := List.mem_of_mem_filter hentry
      apply ih entry hmem (.inl (hcomposed.within_entry hmem))
      exact fun l hl => h l (Value.looksUp_dict.mpr ⟨entry, hentry, hl⟩)
    exact .of_level (hdict.mono fun _ h => reports_value_dict h)
  | block b => exact (hv.scoping hroot).elim
  | saved p => exact (hv.scoping hroot).elim

/-- What a look-up finds suffices if no look-up from there leads back to itself. -/
theorem suffices_lookUp {l : LookUp} (hl : l.Occurs root) (hacc : Acc (fun m l => LookUp.Leads l m) l) {u : Value}
    (hu : l.value? = some u) : Suffices fs s l.scope (.value u) := by
  induction hacc generalizing u with
  | intro l _ ih =>
    refine suffices_of_looksUp hroot (hl.found hu) fun m hm v hv => ?_
    have hleads : LookUp.Leads l m := ⟨u, hu, hm⟩
    exact ih m hleads (LookUp.Occurs.leads hroot hl hleads) hv

end
end Expanding

/-- The first pass is substitution in scope, if nothing else is put in place and no look-up that is met leads back to
itself. With enough fuel it ends. It is without issues if and only if everything that is met is bound. Then what it
makes is the description without `res:values`, in which each text that is looked up is replaced by its binding, and that
is expanded in the scope at the place of the text. -/
theorem Dict.expand_scoped {fs : Files} {localize : String → Option Value} {d : Dict Value}
    (hd : (Value.dict d).Throughout Value.Scoping)
    (hacyclic : ∀ l, (Value.dict d).Meets none l → ¬Relation.TransGen LookUp.Leads l l) :
    ∃ n, ∀ fuel ≥ n, ∀ context, ∃ visited, (d.expand fuel localize context).run.eval fs = some (visited, context) ∧
      (visited.isOk = true ↔ ∀ l, (Value.dict d).Meets none l → l.value?.isSome = true) ∧
      (visited.isOk = true → ∃ done, visited.dict = some done ∧
        ∀ w, (Value.dict d).Substituted none w ↔ w = .dict done) := by
  have hscope : Scope.Composed d none := nofun
  have hoccurs : (Value.dict d).Occurs d := .inl .self
  have hsuffices : Expanding.Suffices fs ⟨d, localize⟩ none (.dict d) := by
    refine Expanding.suffices_dict hd.here fun entry hentry => ?_
    have hmem := List.mem_of_mem_filter hentry
    refine Expanding.suffices_of_looksUp hd (.inl (.entry hmem .self)) fun l hl u hu => ?_
    have hfirst : (Value.dict d).LooksUp none l := Value.looksUp_dict.mpr ⟨entry, hentry, hl⟩
    have hl := hfirst.occurs hd hoccurs hscope
    apply Expanding.suffices_lookUp hd hl _ hu
    exact hl.acc hd fun m hm => hacyclic m ⟨l, hfirst, hm⟩
  obtain ⟨n, hn⟩ := Filter.eventually_atTop.mp hsuffices
  refine ⟨n, fun fuel hfuel context => ?_⟩
  obtain ⟨_, more, hrun, hanswer⟩ := hn fuel hfuel (.start context) rfl
  obtain ⟨done, rfl⟩ := hanswer.dict d rfl
  have hok : Visited.isOk ⟨some done, more⟩ = true ↔ more = [] := by simp [Visited.isOk]
  refine ⟨⟨some done, more⟩, ?_, hok.trans hanswer.silent, fun hsilent => ⟨done, rfl, fun w => ?_⟩⟩
  · rw [eval_expand, hrun]
    rfl
  · obtain ⟨_, ⟨⟩, hw⟩ := hanswer.result (hok.mp hsilent)
    constructor
    · exact fun h => h.unique hw
    · rintro rfl
      exact hw

/-- The outer values of `nestedScopes`, one of which is used for another one, and one of which is broken. -/
def nestedValues : Dict Value :=
  ⟨[("n", .int 4), ("m", .string "res:n"), ("unused", .string "res:none")]⟩

/-- What is used in an outer scope and in an inner one that has another value for what it uses in turn. -/
def nestedScopes : Dict Value :=
  ⟨[(Key.values, .dict nestedValues),
    ("a", .dict ⟨[(Key.values, .dict ⟨[("n", .int 8)]⟩), ("x", .list [.string "res:m"])]⟩),
    ("b", .string "res:m")]⟩

/-- The values in the inner scope. -/
def nestedInner : Dict Value :=
  ⟨[("n", .int 8), ("m", .string "res:n"), ("unused", .string "res:none")]⟩

theorem looksUp_nestedScopes {l : LookUp} : (Value.dict nestedScopes).LooksUp none l ↔
    l = ⟨some nestedInner, "m"⟩ ∨ l = ⟨some nestedValues, "m"⟩ := by
  have herase : (nestedScopes.erase Key.values).entries = nestedScopes.entries.drop 1 := rfl
  have hinner : ((⟨[(Key.values, .dict ⟨[("n", .int 8)]⟩), ("x", .list [.string "res:m"])]⟩ : Dict Value).erase
      Key.values).entries = [("x", .list [.string "res:m"])] := rfl
  have htext : after? Key.reserved "res:m" = some "m" := rfl
  rw [Value.looksUp_dict, herase]
  simp only [nestedScopes, List.drop_succ_cons, List.drop_zero, List.exists_mem_cons_iff, List.not_mem_nil, false_and,
    exists_false, or_false, Value.looksUp_dict, hinner, Value.looksUp_list, Value.looksUp_text htext]
  rfl

/-- In both scopes the one value is a text for the other one, and that one is a number. -/
theorem leads_nestedScopes {s : Dict Value} (hs : s = nestedValues ∨ s = nestedInner) {l : LookUp} :
    (LookUp.Leads ⟨some s, "m"⟩ l ↔ l = ⟨some s, "n"⟩) ∧ ¬LookUp.Leads ⟨some s, "n"⟩ l := by
  have hm : LookUp.value? ⟨some s, "m"⟩ = some (.string "res:n") := by rcases hs with rfl | rfl <;> rfl
  have hn : ∃ i, LookUp.value? ⟨some s, "n"⟩ = some (.int i) := by
    rcases hs with rfl | rfl
    · exact ⟨4, rfl⟩
    · exact ⟨8, rfl⟩
  have htext : after? Key.reserved "res:n" = some "n" := rfl
  constructor
  · simp only [LookUp.Leads, hm, Option.some.injEq, exists_eq_left', Value.looksUp_text htext]
  · obtain ⟨i, hi⟩ := hn
    simp only [LookUp.Leads, hi, Option.some.injEq, exists_eq_left']
    exact Value.not_looksUp_atom nofun

theorem meets_nestedScopes {l : LookUp} (h : (Value.dict nestedScopes).Meets none l) :
    ∃ s, (s = nestedValues ∨ s = nestedInner) ∧ (l = ⟨some s, "m"⟩ ∨ l = ⟨some s, "n"⟩) := by
  obtain ⟨first, hfirst, hl⟩ := h
  induction hl with
  | refl =>
    rcases looksUp_nestedScopes.mp hfirst with rfl | rfl
    · exact ⟨_, .inr rfl, .inl rfl⟩
    · exact ⟨_, .inl rfl, .inl rfl⟩
  | tail _ hlast ih =>
    obtain ⟨s, hs, rfl | rfl⟩ := ih
    · exact ⟨s, hs, .inr ((leads_nestedScopes hs).1.mp hlast)⟩
    · exact absurd hlast (leads_nestedScopes hs).2

theorem substituted_nestedScopes : (Value.dict nestedScopes).Substituted none
    (.dict ⟨[("a", .dict ⟨[("x", .list [.int 8])]⟩), ("b", .int 4)]⟩) := by
  have hvalue {s : Dict Value} {i : Int32} (hm : s.find? "m" = some (.string "res:n"))
      (hn : s.find? "n" = some (.int i)) : (Value.string "res:m").Substituted (some s) (.int i) :=
    .text rfl hm (.text rfl hn (.atom nofun))
  refine .of_entries (by decide) (.cons ⟨rfl, ?_⟩ (.cons ⟨rfl, ?_⟩ .nil))
  · exact .of_entries (by decide) (.cons ⟨rfl, .of_items (.cons (hvalue rfl rfl) .nil)⟩ .nil)
  · exact hvalue rfl rfl

theorem scoping_nestedScopes : (Value.dict nestedScopes).Throughout Value.Scoping := by
  simp only [nestedScopes, nestedValues, Value.throughout_dict, Value.throughout_list, Value.throughout_atom,
    Value.Scoping, List.forall_mem_cons, List.not_mem_nil, false_implies, implies_true, and_true]
  decide

theorem acyclic_nestedScopes (l : LookUp) (hl : (Value.dict nestedScopes).Meets none l) :
    ¬Relation.TransGen LookUp.Leads l l := by
  refine Value.acyclic_of_rank (fun l => if l.name = "m" then 1 else 0) (fun l m hl hlm => ?_) hl
  obtain ⟨s, hs, rfl | rfl⟩ := meets_nestedScopes hl
  · cases (leads_nestedScopes hs).1.mp hlm
    simp
  · exact absurd hlm (leads_nestedScopes hs).2

/-- The text is four in the outer scope and eight in the inner one. -/
theorem Dict.expand_scoped_nestedScopes : ∃ n, ∀ fuel ≥ n, ∀ context, ∃ visited,
    (nestedScopes.expand fuel (fun _ => none) context).run.eval
        ⟨fun _ => .error .missing, fun _ => .error .missing, fun _ => none⟩ = some (visited, context) ∧
      visited.isOk = true ∧
      visited.dict = some ⟨[("a", .dict ⟨[("x", .list [.int 8])]⟩), ("b", .int 4)]⟩ := by
  obtain ⟨n, hn⟩ := @expand_scoped ⟨fun _ => .error .missing, fun _ => .error .missing, fun _ => none⟩ (fun _ => none)
    nestedScopes scoping_nestedScopes acyclic_nestedScopes
  refine ⟨n, fun fuel hfuel context => ?_⟩
  obtain ⟨visited, hrun, hok, hresult⟩ := hn fuel hfuel context
  have hvisited : visited.isOk = true := by
    refine hok.mpr fun l hl => ?_
    obtain ⟨s, rfl | rfl, rfl | rfl⟩ := meets_nestedScopes hl <;> rfl
  obtain ⟨done, hdone, hunique⟩ := hresult hvisited
  cases (hunique _).mp substituted_nestedScopes
  exact ⟨visited, hrun, hvisited, hdone⟩

end AssetPack
