import AssetPack.Proofs.Description.Passes
import AssetPack.Proofs.Description.Told
import AssetPack.Proofs.Visit.Fields

/-!
# Fuel and what is settled

An expansion has one answer, whatever fuel it has, and its answer is expanded to itself.
-/
namespace AssetPack

/-!
## What is expanded stays as it is

An expansion leaves neither directives nor texts that stand for something else, nor forms that it would open. To
expand such a value again changes nothing, wherever that is done, with no more fuel than the value was made with.
-/

/-- With this much fuel an expansion goes through the value, and finds nothing to do. -/
inductive Value.Settled : Nat → Value → Prop
  | atom {n : Nat} {a : Atom} : (∀ text, a = .string text →
      after? Key.reserved text = none ∧ after? Key.localized text = none) → Settled (n + 1) (.atom a)
  | blob {n : Nat} {p : Payload} : p.content ≠ .dict → Settled (n + 1) (.saved p)
  | list {n : Nat} {items : List Value} : (∀ v ∈ items, Settled n v) → Settled (n + 1) (.list items)
  | dict {n : Nat} {d : Dict Value} : (∀ name ∈ d.names, name ∉ Key.directives) →
      (∀ entry ∈ d.entries, Settled n entry.2) → Settled (n + 2) (.dict d)

namespace Value.Settled
variable {n : Nat} {v : Value}

theorem succ (h : Settled n v) : Settled (n + 1) v := by
  induction h with
  | atom h => exact .atom h
  | blob h => exact .blob h
  | list _ ih => exact .list ih
  | dict hnames _ ih => exact .dict hnames ih

theorem mono {m : Nat} (h : Settled n v) (hle : n ≤ m) : Settled m v := by
  induction hle with
  | refl => exact h
  | step _ ih => exact ih.succ

theorem null : Settled (n + 1) .null := .atom nofun

/-- What carries a dictionary is an open one. -/
theorem eq_dict (h : Settled n v) {d : Dict Value} (hd : v.dict? = some d) : v = .dict d := by
  cases h with
  | dict _ _ =>
    cases hd
    rfl
  | _ => cases hd

theorem within {u : Value} (hu : u.Within v) (h : Settled n v) : ∃ m, Settled m u := by
  induction hu generalizing n with
  | self => exact ⟨n, h⟩
  | item hmem _ ih =>
    cases h with
    | list hitems => exact ih (hitems _ hmem)
  | entry hmem _ ih =>
    cases h with
    | dict _ hentries => exact ih (hentries _ hmem)
  | block _ _ _ => cases h
  | saved hdict _ _ _ =>
    cases h with
    | blob hblob => exact absurd hdict hblob

/-- No field of it is a directive. -/
theorem not_hasField (h : Settled n v) {key : String} (hkey : key ∈ Key.directives) (a : Atom) : ¬v.HasField key a := by
  rintro ⟨d, hd, hentry⟩
  obtain ⟨_, hsettled⟩ := h.within hd
  cases hsettled with
  | dict hnames _ => exact hnames key (List.mem_map_of_mem hentry) hkey

end Value.Settled

namespace Expanding
variable {α β : Type} {fs : Files}

/-- What a part of an expansion answers from a state, and the state that it leaves, if it has an answer. -/
def eval (fs : Files) (x : Expanding α) (e : Expansion) : Option (α × Expansion) := (x.run e).run.eval fs

theorem eval_pure (a : α) (e : Expansion) : eval fs (pure a) e = some (a, e) := rfl

theorem eval_bind (x : Expanding α) (f : α → Expanding β) (e : Expansion) :
    eval fs (x >>= f) e = (eval fs x e).bind fun r => eval fs (f r.1) r.2 := by
  rw [eval, StateT.run_bind, OptionT.run_bind, Option.elimM, Look.eval_bind, eval]
  cases (x.run e).run.eval fs <;> rfl

theorem eval_bind_of {x : Expanding α} {f : α → Expanding β} {e e' : Expansion} {a : α}
    (h : eval fs x e = some (a, e')) : eval fs (x >>= f) e = eval fs (f a) e' := by
  rw [eval_bind, h, Option.bind_some]

/-- An answer of a sequence is one of its second part after one of the first. -/
theorem exists_of_eval_bind {x : Expanding α} {f : α → Expanding β} {e e'' : Expansion} {b : β}
    (h : eval fs (x >>= f) e = some (b, e'')) :
    ∃ a e', eval fs x e = some (a, e') ∧ eval fs (f a) e' = some (b, e'') := by
  rw [eval_bind] at h
  obtain ⟨⟨a, e'⟩, hx, hf⟩ := Option.bind_eq_some_iff.mp h
  exact ⟨a, e', hx, hf⟩

theorem eval_get_bind (f : Expansion → Expanding β) (e : Expansion) : eval fs (get >>= f) e = eval fs (f e) e := rfl

theorem eval_look (x : Look α) (e : Expansion) : eval fs (liftM x : Expanding α) e = some (x.eval fs, e) := by
  have hlift : (liftM x : Expanding α).run e = OptionT.lift x >>= fun a => pure (a, e) := rfl
  rw [eval, hlift, OptionT.run_bind, OptionT.run_lift, Option.elimM, Look.eval_bind, Look.eval_bind]
  rfl

theorem eval_look_bind (x : Look α) (f : α → Expanding β) (e : Expansion) :
    eval fs (liftM x >>= f) e = eval fs (f (x.eval fs)) e := eval_bind_of (eval_look x e)

/-- `x` between two changes of the state. -/
theorem eval_around (f g : Expansion → Expansion) (x : Expanding α) (e : Expansion) :
    eval fs (do modify f; let a ← x; modify g; return a) e = (eval fs x (f e)).map fun r => (r.1, g r.2) := by
  have hrun : eval fs (do modify f; let a ← x; modify g; return a) e =
      eval fs (x >>= fun a => do modify g; return a) (f e) := rfl
  rw [hrun, eval_bind]
  cases eval fs x (f e) <;> rfl

theorem eval_within (step : Step) (x : Expanding α) (e : Expansion) : eval fs (within step x) e =
    (eval fs x { e with trail := step :: e.trail }).map fun r => (r.1, { r.2 with trail := r.2.trail.drop 1 }) :=
  eval_around _ _ x e

/-! ### What is settled is left as it is -/

section
variable {n : Nat} {next : Job → Expanding (Option Value)}

theorem eval_entries_of_settled {es : List (String × Value)} (e : Expansion)
    (h : ∀ entry ∈ es, ∀ e, eval fs (next (.value entry.2)) e = some (some entry.2, e)) :
    eval fs (entries next es) e = some (es, e) := by
  induction es with
  | nil => rfl
  | cons entry rest ih =>
    obtain ⟨hentry, hrest⟩ := List.forall_mem_cons.mp h
    have hfirst : eval fs (within (.name entry.1) (next (.value entry.2))) e = some (some entry.2, e) := by
      rw [eval_within, hentry]
      rfl
    rw [entries, eval_bind_of hfirst, eval_bind_of (ih hrest)]
    rfl

theorem eval_items_of_settled {vs : List Value} (index : Nat) (e : Expansion)
    (h : ∀ v ∈ vs, ∀ e, eval fs (next (.value v)) e = some (some v, e)) :
    eval fs (items next index vs) e = some (vs, e) := by
  induction vs generalizing index with
  | nil => rfl
  | cons v rest ih =>
    obtain ⟨hv, hrest⟩ := List.forall_mem_cons.mp h
    have hfirst : eval fs (within (.index index) (next (.value v))) e = some (some v, e) := by
      rw [eval_within, hv]
      rfl
    rw [items, eval_bind_of hfirst, eval_bind_of (ih (index + 1) hrest)]
    rfl

end

section
variable {d : Dict Value} (hd : ∀ name ∈ d.names, name ∉ Key.directives)
include hd

theorem get?_of_bare {key : String} (hkey : key ∈ Key.directives) : d.get? key = none :=
  Dict.get?_eq_none_iff.mpr fun hmem => hd key hmem hkey

theorem plain_of_bare (next : Job → Expanding (Option Value)) (s : Setting) :
    plain next s d = do return some (.dict ⟨← entries next d.entries⟩) := by
  have himported : imported next d = pure (some d) := by rw [imported, get?_of_bare hd (by decide)]
  rw [plain, himported, pure_bind]
  dsimp only
  rw [get?_of_bare hd (mem_directives_templateKey d)]

/-- The pass over a dictionary without directives is one over its entries. -/
theorem dict_of_bare (next : Job → Expanding (Option Value)) (s : Setting) :
    dict next s d = do return some (.dict ⟨← entries next d.entries⟩) := by
  rw [dict, get?_of_bare hd (by decide)]
  exact plain_of_bare hd next s

end

/-- To expand a settled value changes nothing. -/
theorem eval_expandTo_of_settled {s : Setting} {n : Nat} {v : Value} (h : v.Settled n) (e : Expansion) :
    eval fs (expandTo s n (.value v)) e = some (some v, e) := by
  induction h generalizing e with
  | @atom n a htext =>
    have hinside : inside (expandTo s n) (.atom a) = pure (some (.atom a)) := rfl
    rw [expandTo, value, hinside, pure_bind]
    cases a with
    | string text =>
      obtain ⟨hreserved, hlocalized⟩ := htext text rfl
      dsimp only
      rw [named, hreserved, hlocalized]
      rfl
    | _ => rfl
  | @blob n p hp =>
    have hinside : inside (expandTo s n) (.saved p) = pure (some (.saved p)) := if_neg hp
    rw [expandTo, value, hinside, pure_bind]
    rfl
  | @list n items _ ih =>
    have hinside : eval fs (inside (expandTo s n) (.list items)) e = some (some (.list items), e) := by
      rw [inside, eval_bind_of (eval_items_of_settled 0 e ih)]
      rfl
    rw [expandTo, value, eval_bind_of hinside]
    rfl
  | @dict n d hnames _ ih =>
    have hinside : eval fs (inside (expandTo s (n + 1)) (.dict d)) e = some (some (.dict d), e) := by
      rw [inside, expandTo, dict_of_bare hnames, eval_bind_of (eval_entries_of_settled e ih)]
      rfl
    rw [expandTo, value, eval_bind_of hinside]
    rfl

end Expanding

/-!
## More fuel changes no answer

A level of the expansion only hands on what the level below it answers. So an answer stays with more fuel, and all
compiles of a description that have an end have the same one.
-/

section
variable {σ : Type} {fs : Files}

namespace Expanding
variable {α β : Type} {x y : Expanding α}

/-- Where `x` has an answer, `y` has the same. -/
def Extends (fs : Files) (x y : Expanding α) : Prop := ∀ e r, eval fs x e = some r → eval fs y e = some r

namespace Extends

theorem refl (x : Expanding α) : Extends fs x x := fun _ _ h => h

theorem bind {f g : α → Expanding β} (h : Extends fs x y) (hf : ∀ a, Extends fs (f a) (g a)) :
    Extends fs (x >>= f) (y >>= g) := by
  intro e r hrun
  rw [eval_bind] at hrun ⊢
  obtain ⟨r', hfirst, hsecond⟩ := Option.bind_eq_some_iff.mp hrun
  rw [h e r' hfirst, Option.bind_some]
  exact hf r'.1 r'.2 r hsecond

theorem bind_left {f g : α → Expanding β} (x : Expanding α) (hf : ∀ a, Extends fs (f a) (g a)) :
    Extends fs (x >>= f) (x >>= g) := (refl x).bind hf

theorem around (f g : Expansion → Expansion) (h : Extends fs x y) :
    Extends fs (do modify f; let a ← x; modify g; return a) (do modify f; let a ← y; modify g; return a) :=
  bind_left _ fun _ => h.bind fun _ => refl _

end Extends

section
variable {next next' : Job → Expanding (Option Value)} (hnext : ∀ job, Extends fs (next job) (next' job))
include hnext

theorem extends_entries (es : List (String × Value)) : Extends fs (entries next es) (entries next' es) := by
  induction es with
  | nil => exact .refl _
  | cons entry rest ih =>
    exact ((hnext (.value entry.2)).around _ _).bind fun _ => ih.bind fun _ => .refl _

theorem extends_items (vs : List Value) (index : Nat) : Extends fs (items next index vs) (items next' index vs) := by
  induction vs generalizing index with
  | nil => exact .refl _
  | cons v rest ih => exact ((hnext (.value v)).around _ _).bind fun _ => (ih (index + 1)).bind fun _ => .refl _

theorem extends_importFile (relative : Path) : Extends fs (importFile next relative) (importFile next' relative) := by
  unfold importFile
  refine .bind_left _ fun e => .bind_left _ fun path => .bind_left _ fun e => ?_
  split
  · exact .refl _
  · refine .bind_left _ fun text => ?_
    split
    · exact .refl _
    · split
      · exact .refl _
      · exact .bind_left _ fun _ => ((hnext _).around _ _).bind fun _ => .refl _

theorem extends_imported (d : Dict Value) : Extends fs (imported next d) (imported next' d) := by
  unfold imported
  split
  · exact .refl _
  · exact (extends_importFile hnext _).bind fun _ => .refl _
  · exact .refl _

theorem extends_overTemplate (s : Setting) (template : String) (d : Dict Value) :
    Extends fs (overTemplate next s template d) (overTemplate next' s template d) := by
  unfold overTemplate
  refine .bind_left _ fun e => ?_
  split
  · exact .refl _
  · split
    · exact .refl _
    · refine .around _ _ ?_
      split
      · exact hnext _
      · split
        · exact hnext _
        · exact .refl _

theorem extends_plain (s : Setting) (d : Dict Value) : Extends fs (plain next s d) (plain next' s d) := by
  refine (extends_imported hnext d).bind fun whole => ?_
  cases whole with
  | none => exact .refl _
  | some d =>
    dsimp only
    split
    · exact (extends_entries hnext _).bind fun _ => .refl _
    · exact extends_overTemplate hnext s _ _
    · exact .refl _

theorem extends_dict (s : Setting) (d : Dict Value) : Extends fs (dict next s d) (dict next' s d) := by
  unfold dict
  split
  · exact extends_plain hnext s d
  · split
    · exact .refl _
    · exact .bind_left _ fun _ => (extends_plain hnext s _).around _ _

theorem extends_inside (v : Value) : Extends fs (inside next v) (inside next' v) := by
  cases v with
  | dict d => exact hnext _
  | block b =>
    rw [inside, inside]
    split
    · exact hnext _
    · exact .refl _
  | saved p =>
    rw [inside, inside]
    split
    · split
      · exact hnext _
      · exact .refl _
    · exact .refl _
  | list vs => exact (extends_items hnext vs 0).bind fun _ => .refl _
  | atom a => exact .refl _

theorem extends_named (s : Setting) (text : String) : Extends fs (named next s text) (named next' s text) := by
  unfold named
  split
  · refine .bind_left _ fun e => ?_
    split
    · exact hnext _
    · exact .refl _
  · exact .refl _

theorem extends_value (s : Setting) (v : Value) : Extends fs (value next s v) (value next' s v) := by
  refine (extends_inside hnext v).bind fun answer => ?_
  split
  · exact extends_named hnext s _
  · exact .refl _

end
end Expanding

/-- With more fuel a job is answered in the same way. -/
theorem extends_expandTo (s : Setting) {n m : Nat} (hle : n ≤ m) (job : Job) :
    Expanding.Extends fs (expandTo s n job) (expandTo s m job) := by
  induction n generalizing m job with
  | zero =>
    intro _ _ hrun
    cases hrun
  | succ n ih =>
    obtain ⟨m, rfl⟩ := Nat.exists_eq_add_of_lt hle
    have hnext (job : Job) := ih (m := n + m) (Nat.le_add_right n m) job
    cases job with
    | dict d => exact Expanding.extends_dict hnext s d
    | value v => exact Expanding.extends_value hnext s v

namespace Dict
variable {n m : Nat} {d : Dict Value}

theorem eval_expand (d : Dict Value) (fuel : Nat) (localize : String → Option Value) (context : Context) :
    (d.expand fuel localize context).run.eval fs =
      (Expanding.eval fs (expandTo ⟨d, localize⟩ fuel (.dict d)) (.start context)).map
        fun r => (⟨(r.1.bind Value.dictValue?).bind Value.dict?, r.2.issues⟩, r.2.context) := by
  rw [Dict.expand, OptionT.run_bind, Option.elimM, Look.eval_bind, Expanding.eval]
  cases ((expandTo ⟨d, localize⟩ fuel (.dict d)).run (.start context)).run.eval fs <;> rfl

theorem expand_of_le {localize : String → Option Value} {context : Context} (hle : n ≤ m) {r : Visited × Context}
    (h : (d.expand n localize context).run.eval fs = some r) : (d.expand m localize context).run.eval fs = some r := by
  rw [eval_expand] at h ⊢
  obtain ⟨answer, hrun, hr⟩ := Option.map_eq_some_iff.mp h
  rw [extends_expandTo _ hle _ _ _ hrun]
  exact congrArg some hr

/-- A compile that has an end has the same one with more fuel. -/
theorem compile_of_le {o : Options σ} {base : Path} {w : σ} (hle : n ≤ m) {r : Outcome × σ}
    (h : Compiling.eval fs (d.compile n o base) w = some r) : Compiling.eval fs (d.compile m o base) w = some r := by
  rw [eval_compile] at h ⊢
  cases hexpand : (d.expand n o.localize (.start base o.debug)).run.eval fs with
  | none =>
    rw [ends, hexpand] at h
    cases h
  | some answer =>
    rw [ends, hexpand] at h
    rw [ends, expand_of_le hle hexpand]
    exact h

/-- All compiles of a description that have an end have the same one. -/
theorem compile_unique {o : Options σ} {base : Path} {w : σ} {r r' : Outcome × σ}
    (h : Compiling.eval fs (d.compile n o base) w = some r) (h' : Compiling.eval fs (d.compile m o base) w = some r') :
    r = r' := by
  have hn := compile_of_le (le_max_left n m) h
  have hm := compile_of_le (le_max_right n m) h'
  exact Option.some.inj (hn.symm.trans hm)

end Dict

end

end AssetPack
