import AssetPack.Proofs.Description.Templates
import AssetPack.Proofs.Files.Answers
import Mathlib.Data.Set.Finite.Basic
import Mathlib.Logic.Relation
import Mathlib.Order.Filter.AtTopBot.Basic
import Mathlib.Order.Filter.Finite

/-!
# Template cycles

An expansion keeps the names of the templates it is in, and takes a template that it is in already for a cycle. It
is in a template while it expands what a dictionary has besides it, too. So where the templates have no cycle, none
is reported if nothing that a dictionary has besides its template leads back to that template. If something does, a
cycle may be reported where there is none.
-/
namespace AssetPack

/-- A dictionary within the value names `u` as its template. -/
def Value.Mentions (v : Value) (u : String) : Prop :=
  ∃ e, (Value.dict e).Within v ∧ ∃ key ∈ [Key.template, Key.base], e.get? key = some (.string u)

namespace Dict

/-- The top-level entry `t` mentions the template `u`. -/
def Mentions (root : Dict Value) (t u : String) : Prop := ∃ v, root.get? t = some v ∧ v.Mentions u

/-- The dictionary is tame and names its templates by texts. -/
structure Named (root d : Dict Value) : Prop extends Tame root d where
  text : ∀ key ∈ [Key.template, Key.base], ∀ v ∈ d.get? key, v.kind = .string

/-- The dictionaries of a description, and those that come of setting one of them over its template. -/
inductive Stage (root : Dict Value) : Dict Value → Prop
  | within {e : Dict Value} : (Value.dict e).Within (.dict root) → Stage root e
  | onto {e b : Dict Value} {t : String} : Stage root e → e.template? = some (.string t) → root.Carries t b →
      Stage root (b.merge (e.erase (Expanding.templateKey e)))

end Dict

/-- What an expansion need not report anything about, but for a cycle: its templates are there, its texts stand for
themselves and its forms open. -/
def Value.Expandable (root : Dict Value) : Value → Prop
  | .dict d => root.Named d
  | .string text => after? Key.reserved text = none ∧ after? Key.localized text = none
  | .block b => ∃ d, b.load = .ok d
  | .saved p => p.content = .dict → ∃ d, p.loadDict = .ok d
  | _ => True

/-! ## Mentions -/

namespace Value
variable {u : String}

theorem Mentions.of_opened {v : Value} {d : Dict Value} (hd : v.opened? = some d) (h : (dict d).Mentions u) :
    v.Mentions u := by
  obtain ⟨e, he, hu⟩ := h
  exact ⟨e, .of_opened hd he, hu⟩

theorem mentions_dict {d : Dict Value} : (dict d).Mentions u ↔
    (∃ key ∈ [Key.template, Key.base], d.get? key = some (.string u)) ∨ ∃ entry ∈ d.entries, entry.2.Mentions u := by
  constructor
  · rintro ⟨e, he, hu⟩
    cases he with
    | self => exact .inl hu
    | entry hentry he => exact .inr ⟨_, hentry, e, he, hu⟩
  · rintro (hu | ⟨entry, hentry, e, he, hu⟩)
    · exact ⟨d, .self, hu⟩
    · exact ⟨e, .entry hentry he, hu⟩

theorem mentions_list {items : List Value} : (list items).Mentions u ↔ ∃ v ∈ items, v.Mentions u := by
  constructor
  · rintro ⟨e, (_ | ⟨hv, he⟩), hu⟩
    exact ⟨_, hv, e, he, hu⟩
  · rintro ⟨v, hv, e, he, hu⟩
    exact ⟨e, .item hv he, hu⟩

theorem not_mentions_atom (a : Atom) : ¬(atom a).Mentions u := by
  rintro ⟨_, he, _⟩
  cases he

theorem mentions_of_template? {d : Dict Value} (h : d.template? = some (.string u)) : (dict d).Mentions u := by
  refine ⟨d, .self, Expanding.templateKey d, ?_, h⟩
  rcases Dict.templateKey_cases d with ⟨hkey, _⟩ | ⟨hkey, _⟩ <;> rw [hkey] <;> decide

/-- One dictionary set over another mentions what one of the two does. -/
theorem Mentions.of_merge {b d : Dict Value} (hd : d.Distinct) (h : (dict (b.merge d)).Mentions u) :
    (dict b).Mentions u ∨ (dict d).Mentions u := by
  rcases mentions_dict.mp h with ⟨key, hkey, hu⟩ | ⟨entry, hentry, hu⟩
  · rw [Dict.get?_merge b hd] at hu
    rcases Option.or_eq_some_iff.mp hu with hu | ⟨_, hu⟩
    · exact .inr (mentions_dict.mpr (.inl ⟨key, hkey, hu⟩))
    · exact .inl (mentions_dict.mpr (.inl ⟨key, hkey, hu⟩))
  · rcases Dict.mem_setAll hentry with hentry | hentry
    · exact .inl (mentions_dict.mpr (.inr ⟨entry, hentry, hu⟩))
    · exact .inr (mentions_dict.mpr (.inr ⟨entry, hentry, hu⟩))

theorem Mentions.of_erase {d : Dict Value} {key : String} (h : (dict (d.erase key)).Mentions u) :
    (dict d).Mentions u := by
  refine mentions_dict.mpr ((mentions_dict.mp h).imp ?_ ?_)
  · rintro ⟨other, hother, hu⟩
    rw [Dict.get?_erase] at hu
    split at hu
    · cases hu
    · exact ⟨other, hother, hu⟩
  · rintro ⟨entry, hentry, hu⟩
    exact ⟨entry, List.mem_of_mem_filter hentry, hu⟩

end Value

namespace Dict
variable {root d b : Dict Value} {t : String}

/-- Mentions that only lead down have no cycle. -/
theorem acyclic_of_rank (rank : String → Nat) (h : ∀ t u, root.Mentions t u → rank u < rank t) (t : String) :
    ¬Relation.TransGen root.Mentions t t := by
  have hlt {u : String} (hu : Relation.TransGen root.Mentions t u) : rank u < rank t := by
    induction hu with
    | single hu => exact h _ _ hu
    | tail _ hu ih => exact (h _ _ hu).trans ih
  exact fun hcycle => (hlt hcycle).ne rfl

theorem Carries.mentions (h : root.Carries t b) {u : String} (hu : (Value.dict b).Mentions u) : root.Mentions t u := by
  obtain ⟨v, hget, _, hopened⟩ := h.exists_find
  exact ⟨v, hget, hu.of_opened hopened⟩

theorem Named.exists_text (h : Named root d) {v : Value} (hv : d.template? = some v) : ∃ t, v = .string t := by
  have hkey : Expanding.templateKey d ∈ [Key.template, Key.base] := by
    rcases templateKey_cases d with ⟨hkey, _⟩ | ⟨hkey, _⟩ <;> rw [hkey] <;> decide
  have hkind := h.text _ hkey v hv
  cases v with
  | atom a =>
    cases a with
    | string t => exact ⟨t, rfl⟩
    | _ => cases hkind
  | _ => cases hkind

instance : Decidable (Named root d) :=
  decidable_of_iff (Tame root d ∧ ∀ key ∈ [Key.template, Key.base], ∀ v ∈ d.get? key, v.kind = .string)
    ⟨fun h => ⟨h.1, h.2⟩, fun h => ⟨h.toTame, h.text⟩⟩

theorem Named.merge_erase (hb : Named root b) (hd : Named root d) (key : String) :
    Named root (b.merge (d.erase key)) where
  toTame := hb.toTame.merge_erase hd.toTame key
  text other hother v hv := by
    rw [Option.mem_def, get?_merge_erase hd.distinct] at hv
    split at hv
    · exact hb.text other hother v hv
    · rcases Option.or_eq_some_iff.mp hv with hv | ⟨_, hv⟩
      · exact hd.text other hother v hv
      · exact hb.text other hother v hv

end Dict

/-! ## Parts of an expansion that leave the state as it is -/

namespace Expanding
variable {fs : Files} {names : List String} {α β : Type} {x : Expanding α} {Q R : α → Prop}

/-- In the templates `names` and with nothing in scope, `x` answers as stated, and leaves the state as it is. -/
def Gives (fs : Files) (names : List String) (x : Expanding α) (Q : α → Prop) : Prop :=
  ∀ e, e.scopes = [] → e.templates = names → ∃ a, (x.run e).run.eval fs = some (a, e) ∧ Q a

namespace Gives

theorem pure {a : α} (h : Q a) : Gives fs names (Pure.pure a) Q := fun _ _ _ => ⟨a, rfl, h⟩

theorem bind {f : α → Expanding β} {T : β → Prop} (hx : Gives fs names x Q)
    (hf : ∀ a, Q a → Gives fs names (f a) T) : Gives fs names (x >>= f) T := by
  intro e hscopes htemplates
  obtain ⟨a, hx, ha⟩ := hx e hscopes htemplates
  obtain ⟨b, hf, hb⟩ := hf a ha e hscopes htemplates
  refine ⟨b, ?_, hb⟩
  rw [StateT.run_bind, OptionT.run_bind, Option.elimM, Look.eval_bind, hx]
  exact hf

theorem mono (hx : Gives fs names x Q) (h : ∀ a, Q a → R a) : Gives fs names x R := by
  intro e hscopes htemplates
  obtain ⟨a, hx, ha⟩ := hx e hscopes htemplates
  exact ⟨a, hx, h a ha⟩

/-- After a look at the state it is known what is in scope, and which templates it is in. -/
theorem ask {f : Expansion → Expanding α} (hf : ∀ e, e.scopes = [] → e.templates = names → Gives fs names (f e) Q) :
    Gives fs names (get >>= f) Q :=
  fun e hscopes htemplates => hf e hscopes htemplates e hscopes htemplates

/-- `x` between a change of the state and the one that takes it back. -/
theorem around {f g : Expansion → Expansion} {inner : List String} (hscopes : ∀ e, (f e).scopes = e.scopes)
    (htemplates : ∀ e, e.templates = names → (f e).templates = inner) (hback : ∀ e, g (f e) = e)
    (hx : Gives fs inner x Q) : Gives fs names (do modify f; let a ← x; modify g; return a) Q := by
  intro e hnone hin
  obtain ⟨a, hx, ha⟩ := hx (f e) ((hscopes e).trans hnone) (htemplates e hin)
  refine ⟨a, ?_, ha⟩
  have hrun : ((do modify f; let a ← x; modify g; return a : Expanding α).run e).run.eval fs =
      ((x >>= fun a => (do modify g; return a : Expanding α)).run (f e)).run.eval fs := rfl
  rw [hrun, StateT.run_bind, OptionT.run_bind, Option.elimM, Look.eval_bind, hx]
  exact congrArg (fun e => some (a, e)) (hback e)

theorem within (step : Step) (h : Gives fs names x Q) : Gives fs names (within step x) Q :=
  around (fun _ => rfl) (fun _ h => h) (fun _ => rfl) h

theorem inTemplate (name : String) (h : Gives fs (names ++ [name]) x Q) : Gives fs names (inTemplate name x) Q :=
  around (fun _ => rfl) (fun _ h => h ▸ rfl)
    (fun e => by simp only [List.dropLast_concat]) h

end Gives

/-! ## One level of the pass -/

variable {next : Job → Expanding (Option Value)} {s : Setting}

/-- What a job is answered with. -/
def Done : Job → Option Value → Prop
  | .dict _, answer => ∃ d, answer = some (.dict d)
  | .value _, answer => ∃ v, answer = some v

theorem gives_entries {es : List (String × Value)}
    (h : ∀ entry ∈ es, Gives fs names (next (.value entry.2)) (Done (.value entry.2))) :
    Gives fs names (entries next es) fun _ => True := by
  induction es with
  | nil => exact .pure trivial
  | cons entry rest ih =>
    obtain ⟨hentry, hrest⟩ := List.forall_mem_cons.mp h
    exact (hentry.within _).bind fun _ _ => (ih hrest).bind fun _ _ => .pure trivial

theorem gives_items {vs : List Value} (h : ∀ v ∈ vs, Gives fs names (next (.value v)) (Done (.value v)))
    (index : Nat) : Gives fs names (items next index vs) fun _ => True := by
  induction vs generalizing index with
  | nil => exact .pure trivial
  | cons v rest ih =>
    obtain ⟨hv, hrest⟩ := List.forall_mem_cons.mp h
    exact (hv.within _).bind fun _ _ => (ih hrest (index + 1)).bind fun _ _ => .pure trivial

theorem gives_dict_of_entries {d : Dict Value} (hd : s.root.Tame d) (hnone : d.template? = none)
    (h : ∀ entry ∈ d.entries, Gives fs names (next (.value entry.2)) (Done (.value entry.2))) :
    Gives fs names (dict next s d) (Done (.dict d)) := by
  rw [dict_of_tame hd, hnone]
  exact (gives_entries h).bind fun _ _ => .pure ⟨_, rfl⟩

/-- A dictionary is expanded over its template if the template is not one of those it is in. -/
theorem gives_dict_of_template {d b : Dict Value} {t : String} (hd : s.root.Tame d)
    (ht : d.template? = some (.string t)) (hcarries : s.root.Carries t b) (hnew : t ∉ names)
    (h : Gives fs (names ++ [t]) (next (.dict (b.merge (d.erase (templateKey d)))))
      (Done (.dict (b.merge (d.erase (templateKey d)))))) : Gives fs names (dict next s d) (Done (.dict d)) := by
  obtain ⟨v, _, hfind, hopened⟩ := hcarries.exists_find
  rw [dict_of_tame hd, ht]
  refine .ask fun e hscopes htemplates => ?_
  rw [e.inScope?_eq_none hscopes, hfind, htemplates, if_neg hnew]
  refine Gives.inTemplate t ?_
  have hmatch : v.dictValue?.bind Value.dict? = some b := hopened
  simp only [hmatch]
  exact h

/-- A value is expanded if what is inside is, and then stands for itself. -/
theorem gives_value {v : Value} (h : Gives fs names (inside next v) fun answer =>
      ∃ w, answer = some w ∧ ∀ text, w = .string text → w.Expandable s.root) :
    Gives fs names (value next s v) (Done (.value v)) := by
  refine h.bind fun answer hanswer => ?_
  obtain ⟨w, rfl, hw⟩ := hanswer
  split
  · rename_i text htext
    cases htext
    obtain ⟨hreserved, hlocalized⟩ := hw text rfl
    rw [named, hreserved, hlocalized]
    exact .pure ⟨_, rfl⟩
  · exact .pure ⟨w, rfl⟩

theorem gives_value_of_dict {v : Value} {d : Dict Value} (hinside : inside next v = next (.dict d))
    (h : Gives fs names (next (.dict d)) (Done (.dict d))) : Gives fs names (value next s v) (Done (.value v)) := by
  refine gives_value ?_
  rw [hinside]
  refine h.mono fun answer hanswer => ?_
  obtain ⟨out, rfl⟩ := hanswer
  exact ⟨_, rfl, nofun⟩

/-! ## With enough fuel -/

/-- With enough fuel the job is answered. -/
def Enough (fs : Files) (s : Setting) (names : List String) (job : Job) : Prop :=
  ∀ᶠ fuel in Filter.atTop, Gives fs names (expandTo s fuel job) (Done job)

/-- What a level of the pass answers if the next one has enough fuel. -/
theorem Enough.of_level {job : Job} (h : ∀ᶠ fuel in Filter.atTop, Gives fs names (expandTo s (fuel + 1) job) (Done job)) :
    Enough fs s names job := by
  rw [Enough, ← Filter.map_add_atTop_eq_nat 1]
  exact Filter.eventually_map.mpr h

theorem enough_atom {a : Atom} (h : (Value.atom a).Expandable s.root) : Enough fs s names (.value (.atom a)) :=
  .of_level (.of_forall fun _ => gives_value (.pure ⟨_, rfl, fun _ _ => h⟩))

theorem enough_list {items : List Value} (h : ∀ v ∈ items, Enough fs s names (.value v)) :
    Enough fs s names (.value (.list items)) :=
  .of_level (((Filter.eventually_all_finite items.finite_toSet).mpr h).mono fun _ h =>
    gives_value ((gives_items h 0).bind fun _ _ => .pure ⟨_, rfl, nofun⟩))

theorem enough_dict_of_entries {d : Dict Value} (hd : s.root.Tame d) (hnone : d.template? = none)
    (h : ∀ entry ∈ d.entries, Enough fs s names (.value entry.2)) : Enough fs s names (.dict d) :=
  .of_level (((Filter.eventually_all_finite d.entries.finite_toSet).mpr h).mono fun _ h =>
    gives_dict_of_entries hd hnone h)

theorem enough_dict_of_template {d b : Dict Value} {t : String} (hd : s.root.Tame d)
    (ht : d.template? = some (.string t)) (hcarries : s.root.Carries t b) (hnew : t ∉ names)
    (h : Enough fs s (names ++ [t]) (.dict (b.merge (d.erase (templateKey d))))) : Enough fs s names (.dict d) :=
  .of_level (h.mono fun _ h => gives_dict_of_template hd ht hcarries hnew h)

theorem enough_carrier {v : Value} {d : Dict Value} (hd : v.opened? = some d) (h : Enough fs s names (.dict d)) :
    Enough fs s names (.value v) :=
  .of_level (h.mono fun _ h => gives_value_of_dict (inside_of_opened hd) h)

theorem enough_saved_bytes {p : Payload} (hp : p.content ≠ .dict) : Enough fs s names (.value (.saved p)) := by
  refine .of_level (.of_forall fun fuel => gives_value ?_)
  rw [inside, if_neg hp]
  exact .pure ⟨_, rfl, fun _ h => by cases h⟩

/-- No template that the value mentions leads to one of the templates `names`. -/
def Clear (root : Dict Value) (names : List String) (v : Value) : Prop :=
  ∀ u, v.Mentions u → ∀ t ∈ names, ¬Relation.ReflTransGen root.Mentions u t

/-- A dictionary set over its template stays clear of the templates it is in, and of that one. -/
theorem Clear.merge_erase {root d b : Dict Value} {t : String} (hacyclic : ∀ t, ¬Relation.TransGen root.Mentions t t)
    (hfields : ∀ u, (Value.dict (d.erase (templateKey d))).Mentions u → ¬Relation.ReflTransGen root.Mentions u t)
    (hd : d.Distinct) (ht : d.template? = some (.string t)) (hcarries : root.Carries t b)
    (h : Clear root names (.dict d)) : Clear root (names ++ [t]) (.dict (b.merge (d.erase (templateKey d)))) := by
  intro u hu other hother hleads
  rcases hu.of_merge (Dict.distinct_erase hd _) with hu | hu
  · -- the template mentions `u`
    have hmentions : root.Mentions t u := hcarries.mentions hu
    rcases List.mem_append.mp hother with hother | hother
    · exact h t (Value.mentions_of_template? ht) other hother (.head hmentions hleads)
    · rw [List.mem_singleton.mp hother] at hleads
      exact hacyclic t (.head' hmentions hleads)
  · -- a field of the dictionary does
    rcases List.mem_append.mp hother with hother | hother
    · exact h u hu.of_erase other hother hleads
    · rw [List.mem_singleton.mp hother] at hleads
      exact hfields u hu hleads

/-- In a further template there are fewer left. -/
theorem length_filter_concat_lt {known : List String} {t : String} (hknown : t ∈ known) (hnew : t ∉ names) :
    (known.filter (· ∉ names ++ [t])).length < (known.filter (· ∉ names)).length := by
  have hfilter : known.filter (· ∉ names ++ [t]) = (known.filter (· ∉ names)).filter (· ≠ t) := by
    rw [List.filter_filter]
    refine List.filter_congr fun name _ => ?_
    simp [and_comm]
  rw [hfilter, List.length_filter_lt_length_iff_exists]
  exact ⟨t, List.mem_filter.mpr ⟨hknown, decide_eq_true hnew⟩, by simp⟩

section
variable {root : Dict Value} {localize : String → Option Value}
  (hroot : (Value.dict root).Throughout (Value.Expandable root))
  (hacyclic : ∀ t, ¬Relation.TransGen root.Mentions t t)
  (hfields : ∀ d t u, root.Stage d → d.template? = some (.string t) →
    (Value.dict (d.erase (templateKey d))).Mentions u → ¬Relation.ReflTransGen root.Mentions u t)
include hroot hacyclic hfields

/-- A dictionary is answered if its entries are, and if in a further template everything is that is clear of it. -/
theorem enough_dict {d : Dict Value} (hd : (Value.dict d).Throughout (Value.Expandable root))
    (hstage : (Value.dict d).Dicts root.Stage) (hclear : Clear root names (.dict d))
    (hentries : ∀ entry ∈ d.entries, Enough fs ⟨root, localize⟩ names (.value entry.2))
    (hfurther : ∀ t ∈ root.names, t ∉ names → ∀ e : Dict Value, (Value.dict e).Throughout (Value.Expandable root) →
      (Value.dict e).Dicts root.Stage → Clear root (names ++ [t]) (.dict e) →
        Enough fs ⟨root, localize⟩ (names ++ [t]) (.dict e)) : Enough fs ⟨root, localize⟩ names (.dict d) := by
  have hnamed : root.Named d := hd.here
  cases htemplate : d.template? with
  | none => exact enough_dict_of_entries hnamed.toTame htemplate hentries
  | some w =>
    obtain ⟨t, rfl⟩ := hnamed.exists_text htemplate
    obtain ⟨b, hcarries⟩ := hnamed.toTame.carries htemplate
    obtain ⟨found, hget, _, hopened⟩ := hcarries.exists_find
    -- the template leads to itself, so it is none of those the dictionary is clear of
    have hnew : t ∉ names := fun hmem => hclear t (Value.mentions_of_template? htemplate) t hmem .refl
    have hb := (hroot.get? hget).opened hopened
    have hbstage : (Value.dict b).Dicts root.Stage :=
      Value.dicts_iff.mpr fun e he => .within (.entry (Dict.mem_of_get? hget) (.of_opened hopened he))
    refine enough_dict_of_template hnamed.toTame htemplate hcarries hnew
      (hfurther t (Dict.mem_names_of_get? hget) hnew _ ?_ ?_ ?_)
    · exact hb.merge_erase hd (hb.here.merge_erase hnamed _)
    · exact hbstage.merge_erase hstage (.onto hstage.here htemplate hcarries)
    · exact hclear.merge_erase hacyclic (fun u => hfields d t u hstage.here htemplate) hnamed.distinct
        htemplate hcarries

/-- What is clear of the templates it is in is answered. In a further template there are fewer left to be in; in the
same ones the fields of a dictionary are smaller than it. -/
theorem enough_of_clear {v : Value} (hv : v.Throughout (Value.Expandable root)) (hstage : v.Dicts root.Stage)
    (hclear : Clear root names v) : Enough fs ⟨root, localize⟩ names (.value v) ∧
      ∀ d, v.opened? = some d → Enough fs ⟨root, localize⟩ names (.dict d) := by
  induction hn : (root.names.filter (· ∉ names)).length using Nat.strong_induction_on generalizing names v with
  | _ n further =>
  subst hn
  induction v using Value.induction_opened with
  | atom a => exact ⟨enough_atom (Value.throughout_atom.mp hv), nofun⟩
  | list items ih =>
    refine ⟨enough_list fun v hmem => (ih v hmem ?_ ?_ ?_).1, nofun⟩
    · exact (Value.throughout_list.mp hv).2 v hmem
    · exact (Value.throughout_list.mp hstage).2 v hmem
    · exact fun u hu => hclear u (Value.mentions_list.mpr ⟨v, hmem, hu⟩)
  | dict d ih =>
    have hdict : Enough fs ⟨root, localize⟩ names (.dict d) := by
      refine enough_dict hroot hacyclic hfields hv hstage hclear (fun entry hentry => (ih entry hentry ?_ ?_ ?_).1)
        fun t hknown hnew e he hestage heclear => ?_
      · exact (Value.throughout_dict.mp hv).2 entry hentry
      · exact (Value.throughout_dict.mp hstage).2 entry hentry
      · exact fun u hu => hclear u (Value.mentions_dict.mpr (.inr ⟨entry, hentry, hu⟩))
      · exact (further _ (length_filter_concat_lt hknown hnew) he hestage heclear rfl).2 e rfl
    refine ⟨enough_carrier rfl hdict, fun e he => ?_⟩
    cases he
    exact hdict
  | block b ih =>
    obtain ⟨d, hload⟩ := hv.here
    have hopened := Value.opened?_of_load hload
    have hdict := (ih d hload (hv.opened hopened) (hstage.opened hopened)
      fun u hu => hclear u (hu.of_opened hopened)).2 d rfl
    refine ⟨enough_carrier hopened hdict, fun e he => ?_⟩
    obtain rfl := Option.some.inj (hopened.symm.trans he)
    exact hdict
  | saved p ih =>
    by_cases hp : p.content = .dict
    · obtain ⟨d, hload⟩ := hv.here hp
      have hopened := Value.opened?_of_loadDict hp hload
      have hdict := (ih hp d hload (hv.opened hopened) (hstage.opened hopened)
        fun u hu => hclear u (hu.of_opened hopened)).2 d rfl
      refine ⟨enough_carrier hopened hdict, fun e he => ?_⟩
      obtain rfl := Option.some.inj (hopened.symm.trans he)
      exact hdict
    · refine ⟨enough_saved_bytes hp, fun e he => ?_⟩
      rw [Value.opened?_saved, if_neg hp] at he
      cases he

end

end Expanding

namespace Dict

/-- Where the templates have no cycle, and nothing that a dictionary has besides its template leads back to that
template, an expansion with enough fuel reports nothing. -/
theorem expand_of_acyclic {fs : Files} {localize : String → Option Value} {d : Dict Value}
    (hd : (Value.dict d).Throughout (Value.Expandable d)) (hacyclic : ∀ t, ¬Relation.TransGen d.Mentions t t)
    (hfields : ∀ e t u, d.Stage e → e.template? = some (.string t) →
      (Value.dict (e.erase (Expanding.templateKey e))).Mentions u → ¬Relation.ReflTransGen d.Mentions u t) :
    ∃ n, ∀ fuel ≥ n, ∀ context, ∃ done,
      (d.expand fuel localize context).run.eval fs = some (⟨some done, []⟩, context) := by
  have hstage : (Value.dict d).Dicts d.Stage := Value.dicts_iff.mpr fun e he => .within he
  have hclear : Expanding.Clear d [] (.dict d) := fun _ _ _ hmem => (List.not_mem_nil hmem).elim
  have henough : Expanding.Enough fs ⟨d, localize⟩ [] (.dict d) :=
    (Expanding.enough_of_clear hd hacyclic hfields hd hstage hclear).2 d rfl
  obtain ⟨n, hn⟩ := Filter.eventually_atTop.mp henough
  refine ⟨n, fun fuel hfuel context => ?_⟩
  obtain ⟨_, hrun, done, rfl⟩ := hn fuel hfuel (.start context) rfl rfl
  refine ⟨done, ?_⟩
  rw [expand, OptionT.run_bind, Option.elimM, Look.eval_bind, hrun]
  rfl

end Dict

/-- An entry over a chain of two templates, with another template in a field. -/
def chained : Dict Value :=
  ⟨[("base", .dict ⟨[("w", .int 1)]⟩),
    ("mid", .dict ⟨[(Key.base, .string "base"), ("h", .int 2)]⟩),
    ("other", .dict ⟨[("x", .null)]⟩),
    ("a", .dict ⟨[(Key.template, .string "mid"), ("y", .dict ⟨[(Key.template, .string "other")]⟩)]⟩)]⟩

/-- The dictionaries in it, and those set over a template. -/
def chainedStages : List (Dict Value) :=
  [chained, ⟨[("w", .int 1)]⟩, ⟨[(Key.base, .string "base"), ("h", .int 2)]⟩, ⟨[("x", .null)]⟩,
    ⟨[(Key.template, .string "mid"), ("y", .dict ⟨[(Key.template, .string "other")]⟩)]⟩,
    ⟨[(Key.template, .string "other")]⟩, ⟨[("w", .int 1), ("h", .int 2)]⟩,
    ⟨[(Key.base, .string "base"), ("h", .int 2), ("y", .dict ⟨[(Key.template, .string "other")]⟩)]⟩,
    ⟨[("w", .int 1), ("h", .int 2), ("y", .dict ⟨[(Key.template, .string "other")]⟩)]⟩]

theorem mem_chainedStages {e : Dict Value} (h : chained.Stage e) : e ∈ chainedStages := by
  induction h with
  | within he =>
    refine Value.dicts_iff.mp ?_ _ he
    simp [chained, chainedStages, Value.throughout_dict, Value.throughout_atom, Value.OfDict]
  | onto _ ht hcarries ih =>
    simp only [chainedStages, List.mem_cons, List.not_mem_nil, or_false] at ih
    rcases ih with rfl | rfl | rfl | rfl | rfl | rfl | rfl | rfl | rfl
    · cases ht
    · cases ht
    · cases ht
      cases hcarries.2
      exact List.mem_of_getElem? (i := 6) rfl
    · cases ht
    · cases ht
      cases hcarries.2
      exact List.mem_of_getElem? (i := 7) rfl
    · cases ht
      cases hcarries.2
      exact List.mem_of_getElem? (i := 3) rfl
    · cases ht
    · cases ht
      cases hcarries.2
      exact List.mem_of_getElem? (i := 8) rfl
    · cases ht

theorem mentions_chained {t u : String} (h : chained.Mentions t u) :
    (t, u) ∈ [("mid", "base"), ("a", "mid"), ("a", "other")] := by
  obtain ⟨v, hget, hu⟩ := h
  have hmem := Dict.mem_of_get? hget
  simp only [chained, List.mem_cons, List.not_mem_nil, or_false, Prod.mk.injEq] at hmem
  rcases hmem with ⟨rfl, rfl⟩ | ⟨rfl, rfl⟩ | ⟨rfl, rfl⟩ | ⟨rfl, rfl⟩ <;>
    simp [Value.mentions_dict, Value.not_mentions_atom, Dict.get?, Key.template, Key.base, List.lookup_cons] at hu ⊢
  · exact hu.symm
  · exact hu.imp Eq.symm Eq.symm

theorem besides_chained {e : Dict Value} {t u : String} (h : chained.Stage e) (ht : e.template? = some (.string t))
    (hu : (Value.dict (e.erase (Expanding.templateKey e))).Mentions u) : u = "other" ∧ t ≠ "other" := by
  have he := mem_chainedStages h
  simp only [chainedStages, List.mem_cons, List.not_mem_nil, or_false] at he
  rcases he with rfl | rfl | rfl | rfl | rfl | rfl | rfl | rfl | rfl <;> cases ht <;>
    simp [Value.mentions_dict, Value.not_mentions_atom, Dict.get?, Dict.erase, Dict.contains,
      Expanding.templateKey, Key.template, Key.base, List.lookup_cons] at hu ⊢
  · exact hu.symm
  · exact hu.symm

theorem Dict.expand_of_acyclic_chained : ∃ n, ∀ fuel ≥ n, ∀ context, ∃ done,
    (chained.expand fuel (fun _ => none) context).run.eval
      ⟨fun _ => .error .missing, fun _ => .error .missing, fun _ => none⟩ = some (⟨some done, []⟩, context) := by
  refine expand_of_acyclic ?_ ?_ fun e t u h ht hu hleads => ?_
  · refine Value.throughout_dict.mpr ⟨(by decide : chained.Named chained), ?_⟩
    simp only [chained, Value.throughout_dict, Value.throughout_atom, Value.Expandable, List.forall_mem_cons,
      List.not_mem_nil, false_implies, implies_true, and_true]
    decide
  · refine acyclic_of_rank (fun t => if t = "a" then 2 else if t = "mid" then 1 else 0) fun t u h => ?_
    have hmem := mentions_chained h
    simp only [List.mem_cons, List.not_mem_nil, or_false, Prod.mk.injEq] at hmem
    rcases hmem with ⟨rfl, rfl⟩ | ⟨rfl, rfl⟩ | ⟨rfl, rfl⟩ <;> decide
  · -- nothing is mentioned by the one template that fields use
    obtain ⟨rfl, hne⟩ := besides_chained h ht hu
    rcases hleads.cases_head with heq | ⟨_, hmentions, _⟩
    · exact hne heq.symm
    · have hmem := mentions_chained hmentions
      simp at hmem

/-- An entry over a template, which it uses in a field again. -/
def usedTwice : Dict Value :=
  ⟨[("base", .dict ⟨[("w", .int 1)]⟩),
    ("a", .dict ⟨[(Key.template, .string "base"), ("x", .dict ⟨[(Key.template, .string "base")]⟩)]⟩)]⟩

/-- The template that is used again is taken for a cycle. -/
theorem Dict.templateCycle_of_acyclic :
    (Value.dict usedTwice).Throughout (Value.Expandable usedTwice) ∧
      (∀ name ∈ usedTwice.names, name ∉ Key.directives) ∧ (∀ t, ¬Relation.TransGen usedTwice.Mentions t t) ∧
      (usedTwice.expand 8 (fun _ => none) (.start "" false)).run.eval
          ⟨fun _ => .error .missing, fun _ => .error .missing, fun _ => none⟩ =
        some (⟨some ⟨[("base", .dict ⟨[("w", .int 1)]⟩), ("a", .dict ⟨[("w", .int 1)]⟩)]⟩,
          [.templateCycle ["base"] "base"]⟩, .start "" false) := by
  refine ⟨?_, by decide, acyclic_of_rank (fun t => if t = "a" then 1 else 0) fun t u h => ?_, rfl⟩
  · refine Value.throughout_dict.mpr ⟨(by decide : usedTwice.Named usedTwice), ?_⟩
    simp only [usedTwice, Value.throughout_dict, Value.throughout_atom, Value.Expandable, List.forall_mem_cons,
      List.not_mem_nil, false_implies, implies_true, and_true]
    decide
  · obtain ⟨v, hget, hu⟩ := h
    have hmem := mem_of_get? hget
    simp only [usedTwice, List.mem_cons, List.not_mem_nil, or_false, Prod.mk.injEq] at hmem
    rcases hmem with ⟨rfl, rfl⟩ | ⟨rfl, rfl⟩ <;>
      simp [Value.mentions_dict, Value.not_mentions_atom, Dict.get?, Key.template, Key.base, List.lookup_cons] at hu ⊢
    subst hu
    decide

end AssetPack
