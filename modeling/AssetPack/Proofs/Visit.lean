import AssetPack.Proofs.Dict.Reordered
import AssetPack.Proofs.Files.Answers
import AssetPack.Proofs.Tree.Opening
import AssetPack.Proofs.Value.Vocabulary
import AssetPack.Visit
import Mathlib.Data.List.Forall2

/-!
# Visits that report nothing

What a visit that reports nothing makes of a value follows from what its hooks answer. Two conditions on
the state of the hooks are carried along: one that holds at the end holds before as well, such as that no
more was gathered than a given set; the other goes on holding once it holds.
-/
namespace AssetPack
variable {n : Type → Type} [Monad n] {A : Answers n} {S α β : Type} {J I : S → Prop}

/-- Not just words from elsewhere. -/
def Issue.Own : Issue → Prop
  | said _ => False
  | faulty _ => False
  | _ => True

theorem Source.own_issue (source : Source) {place : String} : (source.issue place).Own := by
  cases source <;> trivial

theorem Issue.audible_of_message {i : Issue} {front back : String} (h : i.message = front ++ back)
    (hwords : front ++ back ≠ "") : audible [i] = [i] := by
  have hloud : i.isSilent = false := decide_eq_false (h ▸ hwords)
  simp only [audible, List.filter_cons, hloud, Bool.not_false, if_true, List.filter_nil]

/-- An issue with words of its own is recorded. -/
theorem Issue.audible_of_own {i : Issue} (h : i.Own) : audible [i] = [i] := by
  cases i with
  | said text => exact h.elim
  | faulty fault => exact h.elim
  | rootNotDict =>
    exact @audible_of_message .rootNotDict "Resource description root is " "not a dict" rfl (by decide)
  | _ => exact audible_of_message rfl (by
      simp only [ne_eq, String.append_eq_empty_iff, String.reduceEq, false_and, and_false, not_false_eq_true])

/-- Who drops a value with words reports something. -/
theorem Reply.not_own_of_drop {i : Issue} (h : Issue.audible (Reply.drop i).issues = []) : ¬i.Own := by
  intro hown
  rw [drop, Issue.audible_of_own hown] at h
  cases h

/-- What a call of a hook upholds if it reports nothing and `P` holds before. -/
def Reply.Upholds (A : Answers n) (J I : S → Prop) (P : Prop) (x : StateT S n Reply)
    (Q : Option Value → Prop) : Prop :=
  ∀ s reply s', A.May (x.run s) (reply, s') → Issue.audible reply.issues = [] → J s' →
    J s ∧ (I s → P → I s' ∧ Q reply.value)

/-- A call that answers without a look at the state. -/
theorem Reply.upholds_pure {reply : Reply} {P : Prop} {Q : Option Value → Prop}
    (h : Issue.audible reply.issues = [] → P → Q reply.value) :
    Reply.Upholds A J I P (pure reply : StateT S n Reply) Q := by
  intro s reply' s' hmay hissues hJ
  cases A.eq_of_pure hmay
  exact ⟨hJ, fun hI hP => ⟨hI, h hissues hP⟩⟩

theorem Reply.upholds_of_keeps {x : StateT S n Reply} {P : Prop} {Q : Option Value → Prop}
    (h : P → Keeps A I x fun reply => Issue.audible reply.issues = [] → Q reply.value) :
    Reply.Upholds A (fun _ => True) I P x Q := by
  intro s reply s' hmay hissues _
  refine ⟨trivial, fun hI hP => ?_⟩
  obtain ⟨hI', hQ⟩ := h hP s reply s' hmay hI
  exact ⟨hI', hQ hissues⟩

namespace Visiting

/-- What a part of a visit upholds if no issue is there at its end and `P` holds before. -/
def Upholds (A : Answers n) (J I : S → Prop) (P : Prop) (x : Visiting (StateT S n) α) (Q : α → Prop) : Prop :=
  ∀ issues s a issues' s', A.May ((x.run issues).run s) ((a, issues'), s') → issues' = [] → J s' →
    issues = [] ∧ J s ∧ (I s → P → I s' ∧ Q a)

namespace Upholds
variable {P : Prop} {Q : α → Prop} {x : Visiting (StateT S n) α}

theorem pure {a : α} (h : P → Q a) : Upholds A J I P (Pure.pure a : Visiting (StateT S n) α) Q := by
  intro issues s b issues' s' hmay hissues hJ
  cases A.eq_of_pure hmay
  exact ⟨hissues, hJ, fun hI hP => ⟨hI, h hP⟩⟩

theorem bind {f : α → Visiting (StateT S n) β} {R : β → Prop} (hx : Upholds A J I P x Q)
    (hf : ∀ a, Upholds A J I (Q a) (f a) R) : Upholds A J I P (x >>= f) R := by
  intro issues s b issues'' s'' hmay hissues hJ
  rw [StateT.run_bind, StateT.run_bind] at hmay
  obtain ⟨⟨⟨a, issues'⟩, s'⟩, hx', hf'⟩ := A.of_bind hmay
  obtain ⟨hissues', hJ', hb⟩ := hf a _ _ _ _ _ hf' hissues hJ
  obtain ⟨hissues₀, hJ₀, ha⟩ := hx _ _ _ _ _ hx' hissues' hJ'
  refine ⟨hissues₀, hJ₀, fun hI hP => ?_⟩
  obtain ⟨hI', hQ⟩ := ha hI hP
  exact hb hI' hQ

theorem mono {R : α → Prop} (hx : Upholds A J I P x Q) (h : ∀ a, Q a → R a) : Upholds A J I P x R := by
  intro issues s a issues' s' hmay hissues hJ
  obtain ⟨hissues₀, hJ₀, ha⟩ := hx _ _ _ _ _ hmay hissues hJ
  exact ⟨hissues₀, hJ₀, fun hI hP => (ha hI hP).imp id (h a)⟩

/-- What held before holds after as well. -/
theorem frame (hx : Upholds A J I True x Q) : Upholds A J I P x fun a => P ∧ Q a := by
  intro issues s a issues' s' hmay hissues hJ
  obtain ⟨hissues₀, hJ₀, ha⟩ := hx _ _ _ _ _ hmay hissues hJ
  refine ⟨hissues₀, hJ₀, fun hI hP => ?_⟩
  obtain ⟨hI', hQ⟩ := ha hI trivial
  exact ⟨hI', hP, hQ⟩

end Upholds

theorem upholds_call {hook : Spot → α → StateT S n Reply} {trail : List Step} {a : α} {P : Prop}
    {Q : Option Value → Prop} (h : ∀ issues, Reply.Upholds A J I P (hook ⟨trail, issues⟩ a) Q) :
    Upholds A J I P (call hook trail a) Q := by
  intro issues s v issues' s' hmay hissues hJ
  rw [call, StateT.run_bind, StateT.run_bind] at hmay
  obtain ⟨⟨⟨_, _⟩, _⟩, hget, hmay⟩ := A.of_bind hmay
  cases A.eq_of_pure hget
  rw [StateT.run_bind, StateT.run_bind] at hmay
  obtain ⟨⟨⟨reply, _⟩, s₁⟩, hhook, hmay⟩ := A.of_bind hmay
  rw [StateT.run_bind, StateT.run_bind] at hmay
  obtain ⟨⟨⟨_, _⟩, _⟩, hmodify, hdone⟩ := A.of_bind hmay
  cases A.eq_of_pure hmodify
  cases A.eq_of_pure hdone
  obtain ⟨⟨reply', s₂⟩, hreply, hlift⟩ := A.of_bind hhook
  cases A.eq_of_pure hlift
  obtain ⟨hissues₀, haudible⟩ := List.append_eq_nil_iff.mp hissues
  obtain ⟨hJ₀, hI⟩ := h issues s reply s₁ hreply haudible hJ
  exact ⟨hissues₀, hJ₀, hI⟩

/-- After a report with words there is an issue. -/
theorem upholds_report {i : Issue} (hi : i.Own) {P : Prop} {Q : Unit → Prop} :
    Upholds A J I P (report i : Visiting (StateT S n) Unit) Q := by
  intro issues s a issues' s' hmay hissues _
  cases A.eq_of_pure hmay
  rw [Issue.audible_of_own hi] at hissues
  exact absurd hissues (List.append_ne_nil_of_right_ne_nil _ (List.cons_ne_nil i []))

end Visiting

open Visiting in
/-- Entries are visited in order, and each keeps its name. -/
theorem upholds_visitEntries {h : Hooks (StateT S n)} {trail : List Step}
    (Out : String → Value → Value → Prop) {entries : List (String × Value)}
    (hentries : ∀ e ∈ entries, Upholds A J I True (e.2.tree.visit h (.name e.1 :: trail))
      fun v => ∃ w, v = some w ∧ Out e.1 e.2 w) :
    Upholds A J I True (visitEntries h trail (entries.map fun e => (e.1, e.2.tree)))
      (List.Forall₂ (fun e done => e.1 = done.1 ∧ Out e.1 e.2 done.2) entries) := by
  induction entries with
  | nil => exact .pure fun _ => .nil
  | cons e rest ih =>
    obtain ⟨hfirst, hrest⟩ := List.forall_mem_cons.mp hentries
    rw [List.map_cons, visitEntries]
    refine hfirst.bind fun v => (ih hrest).frame.bind fun done => .pure ?_
    rintro ⟨⟨w, rfl, hw⟩, hdone⟩
    exact .cons ⟨rfl, hw⟩ hdone

open Visiting in
theorem upholds_visitItems {h : Hooks (StateT S n)} {trail : List Step} {Out : Value → Value → Prop}
    {items : List Value}
    (hitems : ∀ v ∈ items, ∀ index, Upholds A J I True (v.tree.visit h (.index index :: trail))
      fun w => ∃ u, w = some u ∧ Out v u) (index : Nat) :
    Upholds A J I True (visitItems h trail index (items.map Value.tree)) (List.Forall₂ Out items) := by
  induction items generalizing index with
  | nil => exact .pure fun _ => .nil
  | cons v rest ih =>
    obtain ⟨hfirst, hrest⟩ := List.forall_mem_cons.mp hitems
    rw [List.map_cons, visitItems]
    refine (hfirst index).bind fun w => (ih hrest (index + 1)).frame.bind fun done => .pure ?_
    rintro ⟨⟨u, rfl, hu⟩, hdone⟩
    exact .cons hu hdone

/-- What the hooks make of values of a vocabulary at the places `T`: each answers with a value that
stands in the relation `Out` to the one that was there, if what is inside was made so. -/
structure Hooks.Makes (A : Answers n) (J I : S → Prop) (T : List Step → Prop) (V : Vocabulary)
    (Out : Value → Value → Prop) (h : Hooks (StateT S n)) : Prop where
  atom : ∀ trail issues a, T trail → V.atom a →
    Reply.Upholds A J I True (h.onValue ⟨trail, issues⟩ (.atom a)) fun v => ∃ w, v = some w ∧ Out (.atom a) w
  list : ∀ trail issues items done, T trail →
    Reply.Upholds A J I (List.Forall₂ Out items done) (h.onValue ⟨trail, issues⟩ (.list done))
      fun v => ∃ w, v = some w ∧ Out (.list items) w
  dict : ∀ trail issues d done, T trail → d.Of V →
    Reply.Upholds A J I (List.Forall₂ (fun e e' => e.1 = e'.1 ∧ Out e.2 e'.2) d.entries done)
      (h.onDict ⟨trail, issues⟩ ⟨done⟩) fun v => ∃ w, v = some w ∧ Out (.dict d) w

/-- A value is made as stated if the hooks make every part so. -/
theorem Hooks.Makes.visit {T : List Step → Prop} {V : Vocabulary} {Out : Value → Value → Prop}
    {h : Hooks (StateT S n)} (hh : h.Makes A J I T V Out) (hT : ∀ step trail, T trail → T (step :: trail))
    (hplain : ∀ p, ¬V.payload p) {v : Value} (hv : v.Of V) {trail : List Step} (htrail : T trail) :
    Visiting.Upholds A J I True (v.tree.visit h trail) fun w => ∃ u, w = some u ∧ Out v u := by
  induction v generalizing trail with
  | atom a => exact Visiting.upholds_call fun issues => hh.atom trail issues a htrail (Value.of_atom.mp hv)
  | list items ih =>
    rw [Value.tree_list, Tree.visit]
    have hitems : Visiting.Upholds A J I True (visitItems h trail 0 (items.map Value.tree))
        (List.Forall₂ Out items) :=
      upholds_visitItems (fun v hmem index =>
        ih v hmem (Value.of_list.mp hv v hmem) (hT (.index index) trail htrail)) 0
    exact hitems.bind fun done => Visiting.upholds_call fun issues => hh.list trail issues items done htrail
  | dict d ih =>
    rw [Value.tree_dict, Tree.visit, Dict.tree_eq, Dict.map, Dict.visit]
    have hentries : Visiting.Upholds A J I True
        (visitEntries h trail (d.entries.map fun e => (e.1, e.2.tree)))
        (List.Forall₂ (fun e done => e.1 = done.1 ∧ Out e.2 done.2) d.entries) :=
      upholds_visitEntries (fun _ => Out) fun e he => ih e he (Dict.Of.entry hv he) (hT (.name e.1) trail htrail)
    exact hentries.bind fun done => Visiting.upholds_call fun issues => hh.dict trail issues d done htrail hv
  | block b => exact (Value.not_of_block hv).elim
  | saved p => exact (hplain p (Value.of_saved.mp hv)).elim

/-- A dictionary as a root, whose hook keeps it: it has the entries that were visited. -/
theorem Dict.upholds_visitRoot {h : Hooks (StateT S n)} {d : Dict Value} {Q : List (String × Value) → Prop}
    (hroot : ∀ issues d, h.onDict ⟨[], issues⟩ d = pure (.keep (.dict d)))
    (hentries : Visiting.Upholds A J I True (visitEntries h [] d.tree.entries) Q) {s s' : S} {visited : Visited}
    (hmay : A.May ((d.visitRoot h).run s) (visited, s')) (hissues : visited.issues = []) (hJ : J s') :
    J s ∧ (I s → I s' ∧ ∃ done, visited.dict = some ⟨done⟩ ∧ Q done) := by
  have hvisit : Visiting.Upholds A J I True (d.tree.visit h []) fun v => ∃ done, v = some (.dict ⟨done⟩) ∧ Q done := by
    generalize d.tree = tree at hentries ⊢
    obtain ⟨entries⟩ := tree
    refine hentries.bind fun done => Visiting.upholds_call fun issues => ?_
    rw [hroot]
    exact Reply.upholds_pure fun _ hdone => ⟨done, rfl, hdone⟩
  rw [visitRoot, StateT.run_bind] at hmay
  obtain ⟨⟨⟨v, issues⟩, s₁⟩, hrun, hdone⟩ := A.of_bind hmay
  cases A.eq_of_pure hdone
  obtain ⟨_, hJ₀, hI⟩ := hvisit _ _ _ _ _ hrun hissues hJ
  refine ⟨hJ₀, fun hI₀ => ?_⟩
  obtain ⟨hI', done, rfl, hQ⟩ := hI hI₀ trivial
  exact ⟨hI', done, rfl, hQ⟩

/-- The same where it is known what becomes of each entry. -/
theorem Dict.upholds_visitRoot_of_entry {h : Hooks (StateT S n)} (Out : String → Value → Value → Prop) {d : Dict Value}
    (hroot : ∀ issues d, h.onDict ⟨[], issues⟩ d = pure (.keep (.dict d)))
    (hentries : ∀ e ∈ d.entries, Visiting.Upholds A J I True (e.2.tree.visit h [.name e.1])
      fun v => ∃ w, v = some w ∧ Out e.1 e.2 w)
    {s s' : S} {visited : Visited} (hmay : A.May ((d.visitRoot h).run s) (visited, s'))
    (hissues : visited.issues = []) (hJ : J s') : J s ∧ (I s → I s' ∧ ∃ done, visited.dict = some ⟨done⟩ ∧
      List.Forall₂ (fun e done => e.1 = done.1 ∧ Out e.1 e.2 done.2) d.entries done) := by
  refine Dict.upholds_visitRoot hroot ?_ hmay hissues hJ
  rw [Dict.tree_eq]
  exact upholds_visitEntries Out hentries

/-! ## What was made of all parts -/

theorem names_of_forall₂ {R : String × Value → String × Value → Prop} {entries done : List (String × Value)}
    (h : List.Forall₂ (fun e e' => e.1 = e'.1 ∧ R e e') entries done) :
    done.map (·.1) = entries.map (·.1) := by
  induction h with
  | nil => rfl
  | cons hab _ ih => rw [List.map_cons, List.map_cons, hab.1, ih]

/-- Under a name stand values that belong together, or there are none. -/
theorem rel_get?_of_forall₂ {R : String → Value → Value → Prop} {entries done : List (String × Value)}
    (h : List.Forall₂ (fun e e' => e.1 = e'.1 ∧ R e.1 e.2 e'.2) entries done) (name : String) :
    Option.Rel (R name) ((⟨entries⟩ : Dict Value).get? name) ((⟨done⟩ : Dict Value).get? name) := by
  induction h with
  | nil => exact .none
  | @cons e e' rest rest' hab _ ih =>
    obtain ⟨key, v⟩ := e
    obtain ⟨key', w⟩ := e'
    obtain ⟨rfl, hR⟩ := hab
    simp only [Dict.get?, List.lookup_cons] at ih ⊢
    by_cases hkey : name = key
    · subst hkey
      simp only [beq_self_eq_true]
      exact .some hR
    · simp only [beq_eq_false_iff_ne.mpr hkey]
      exact ih

theorem Dict.of_forall₂ {V W : Vocabulary} {R : String × Value → String × Value → Prop} {d : Dict Value}
    {done : List (String × Value)} (hd : d.Of V) (hname : ∀ name, V.name name → W.name name)
    (hR : ∀ e e', R e e' → e'.2.Of W)
    (h : List.Forall₂ (fun e e' => e.1 = e'.1 ∧ R e e') d.entries done) : (⟨done⟩ : Dict Value).Of W := by
  have hnames : (⟨done⟩ : Dict Value).names = d.names := names_of_forall₂ h
  refine Dict.of_intro ?_ fun e' he' => ?_
  · rw [Dict.Distinct, hnames]
    exact hd.distinct
  · obtain ⟨e, he, heq, hof⟩ := exists_of_forall₂ h he'
    exact ⟨hname _ (heq ▸ hd.name (Dict.mem_names he)), hR e e' hof⟩

/-- Hooks that only put something in the place of atoms bring a value from one vocabulary to another if
they do so with the atoms. -/
theorem Hooks.makes_of_atom {T : List Step → Prop} {V W : Vocabulary}
    {hook : Spot → Value → StateT S n Reply} (hname : ∀ name, V.name name → W.name name)
    (hlist : ∀ spot items, hook spot (.list items) = pure (.keep (.list items)))
    (hatom : ∀ trail issues a, T trail → V.atom a →
      Reply.Upholds A J I True (hook ⟨trail, issues⟩ (.atom a)) fun v => ∃ w, v = some w ∧ w.Of W) :
    Hooks.Makes A J I T V (fun _ w => w.Of W) { Hooks.keep with onValue := hook } := by
  refine ⟨hatom, fun trail issues items done _ => ?_, fun trail issues d done _ hd => ?_⟩
  · show Reply.Upholds A J I _ (hook ⟨trail, issues⟩ (.list done)) _
    rw [hlist]
    refine Reply.upholds_pure fun _ hdone => ⟨_, rfl, Value.of_list.mpr fun w hw => ?_⟩
    obtain ⟨_, _, hof⟩ := exists_of_forall₂ hdone hw
    exact hof
  · refine Reply.upholds_pure fun _ hdone => ⟨_, rfl, ?_⟩
    exact Dict.of_forall₂ hd hname (fun _ _ hof => hof) hdone

end AssetPack
