import AssetPack.Proofs.Description.Flags
import AssetPack.Proofs.Visit
import AssetPack.Proofs.Visit.Followed

/-!
# Visits up to flags

Two descriptions that are the same but for plain flags can be visited with the same hooks. If the one visit reports
nothing and the hooks answer alike for what is alike, then the other reports nothing either, and what is made of the
two is alike again. A hook sees a flag on one side only, so it has to keep flags and do nothing else.

How alike two values are may depend on whether they are the root, a top-level entry or lie further inside. Besides, each
value on either side is kept by what is made of it, if it is an atom of a given kind.
-/
namespace AssetPack
variable {m : Type → Type} [Monad m] {S α α' β β' : Type} {E : Execution m S} {R : S → S → Prop}

/-- From states in the relation, if `x` reports nothing, then `y` reports nothing and goes to such a state as well, and
both answer. -/
def Reply.Carries (E : Execution m S) (R : S → S → Prop) (x y : m Reply) (Q : Value → Value → Prop) : Prop :=
  ∀ s t, R s t → Issue.audible (E.run x s).1.issues = [] →
    Issue.audible (E.run y t).1.issues = [] ∧ R (E.run x s).2 (E.run y t).2 ∧
      ∃ v w, (E.run x s).1.value = some v ∧ (E.run y t).1.value = some w ∧ Q v w

theorem Reply.carries_keep {v w : Value} {Q : Value → Value → Prop} (h : Q v w) :
    Reply.Carries E R (pure (.keep v)) (pure (.keep w)) Q := by
  intro s t hst hissues
  rw [E.run_pure, E.run_pure]
  exact ⟨rfl, hst, v, w, rfl, rfl, h⟩

theorem Reply.Carries.mono {x y : m Reply} {Q Q' : Value → Value → Prop} (h : Reply.Carries E R x y Q)
    (hq : ∀ v w, Q v w → Q' v w) : Reply.Carries E R x y Q' := by
  intro s t hst hissues
  obtain ⟨hsilent, hafter, v, w, hv, hw, hanswers⟩ := h s t hst hissues
  exact ⟨hsilent, hafter, v, w, hv, hw, hq v w hanswers⟩

/-- What drops its value with words carries anything. -/
theorem Reply.carries_drop {i : Issue} (hi : i.Own) {y : m Reply} {Q : Value → Value → Prop} :
    Reply.Carries E R (pure (.drop i)) y Q := by
  intro s t _ hissues
  rw [E.run_pure] at hissues
  exact (Reply.not_own_of_drop hissues hi).elim

/-- First parts that lead to related answers and states. -/
theorem Reply.Carries.after {x : m α} {y : m α'} {f : α → m Reply} {g : α' → m Reply} {T : α → α' → Prop}
    {Q : Value → Value → Prop} (hnext : ∀ a b, T a b → Reply.Carries E R (f a) (g b) Q)
    (h : ∀ s t, R s t → T (E.run x s).1 (E.run y t).1 ∧ R (E.run x s).2 (E.run y t).2) :
    Reply.Carries E R (x >>= f) (y >>= g) Q := by
  intro s t hst hissues
  obtain ⟨hanswers, hafter⟩ := h s t hst
  rw [E.run_bind] at hissues ⊢
  rw [E.run_bind]
  exact hnext _ _ hanswers _ _ hafter hissues

/-- Both answer values in the relation. -/
def Both (Q : Value → Value → Prop) (x y : Option Value) : Prop := ∃ v w, x = some v ∧ y = some w ∧ Q v w

namespace Visiting

/-- The same for parts of visits, where `P` holds before. If no issue is there at the end of `x`, then there was none
before, whether `P` holds or not. -/
def Carries (E : Execution m S) (R : S → S → Prop) (P : Prop) (x : Visiting m α) (y : Visiting m α')
    (Q : α → α' → Prop) : Prop :=
  ∀ issues s, (E.run (x.run issues) s).1.2 = [] → issues = [] ∧ (P → ∀ t, R s t →
    (E.run (y.run []) t).1.2 = [] ∧ R (E.run (x.run []) s).2 (E.run (y.run []) t).2 ∧
      Q (E.run (x.run []) s).1.1 (E.run (y.run []) t).1.1)

namespace Carries
variable {P : Prop} {x : Visiting m α} {y : Visiting m α'} {Q : α → α' → Prop}

theorem pure {a : α} {b : α'} (h : P → Q a b) : Carries E R P (Pure.pure a) (Pure.pure b) Q := by
  intro issues s hissues
  rw [StateT.run_pure, E.run_pure] at hissues
  refine ⟨hissues, fun hp t hst => ?_⟩
  rw [StateT.run_pure, StateT.run_pure, E.run_pure, E.run_pure]
  exact ⟨rfl, hst, h hp⟩

theorem bind [Nonempty α'] {f : α → Visiting m β} {g : α' → Visiting m β'} {T : β → β' → Prop}
    (h : Carries E R P x y Q) (hnext : ∀ a b, Carries E R (P ∧ Q a b) (f a) (g b) T) :
    Carries E R P (x >>= f) (y >>= g) T := by
  intro issues s hissues
  rw [StateT.run_bind, E.run_bind] at hissues
  -- issues stay, so there was none in between either
  obtain ⟨b₀⟩ := (inferInstance : Nonempty α')
  obtain ⟨hmiddle, _⟩ := hnext _ b₀ _ _ hissues
  obtain ⟨rfl, hfirst⟩ := h issues s hmiddle
  refine ⟨rfl, fun hp t hst => ?_⟩
  obtain ⟨hsilent, hafter, hanswers⟩ := hfirst hp t hst
  rw [hmiddle] at hissues
  obtain ⟨_, hsecond⟩ := hnext _ (E.run (y.run []) t).1.1 _ _ hissues
  rw [StateT.run_bind, StateT.run_bind, E.run_bind, E.run_bind, hmiddle, hsilent]
  exact hsecond ⟨hp, hanswers⟩ _ hafter

theorem mono {Q' : α → α' → Prop} {C : Prop} (h : Carries E R P x y Q) (hp : C → P)
    (hq : ∀ a b, C → Q a b → Q' a b) : Carries E R C x y Q' := by
  intro issues s hissues
  obtain ⟨hnone, hboth⟩ := h issues s hissues
  refine ⟨hnone, fun hc t hst => ?_⟩
  obtain ⟨hsilent, hafter, hanswers⟩ := hboth (hp hc) t hst
  exact ⟨hsilent, hafter, hq _ _ hc hanswers⟩

/-- A first step that does nothing but answer. -/
theorem skip_left {f : α → Visiting m β} {T : β → α' → Prop} {a : α}
    (hx : ∀ issues s, E.run (x.run issues) s = ((a, issues), s)) (h : Carries E R P (f a) y T) :
    Carries E R P (x >>= f) y T := by
  have hrun (issues : List Issue) (s : S) : E.run ((x >>= f).run issues) s = E.run ((f a).run issues) s := by
    rw [StateT.run_bind, E.run_bind, hx]
  intro issues s
  rw [hrun, hrun]
  exact h issues s

theorem skip_right {g : α' → Visiting m β'} {T : α → β' → Prop} {b : α'}
    (hy : ∀ issues s, E.run (y.run issues) s = ((b, issues), s)) (h : Carries E R P x (g b) T) :
    Carries E R P x (y >>= g) T := by
  have hrun (issues : List Issue) (s : S) : E.run ((y >>= g).run issues) s = E.run ((g b).run issues) s := by
    rw [StateT.run_bind, E.run_bind, hy]
  intro issues s hissues
  obtain ⟨hnone, hboth⟩ := h issues s hissues
  refine ⟨hnone, fun hp t hst => ?_⟩
  rw [hrun]
  exact hboth hp t hst

/-- A last step that only changes the answer. -/
theorem last_left {f : α → β} {T : β → α' → Prop} (h : Carries E R P x y Q) (hq : ∀ a b, Q a b → T (f a) b) :
    Carries E R P (x >>= fun a => Pure.pure (f a)) y T := by
  have hrun (issues : List Issue) (s : S) : E.run ((x >>= fun a => Pure.pure (f a)).run issues) s =
      ((f (E.run (x.run issues) s).1.1, (E.run (x.run issues) s).1.2), (E.run (x.run issues) s).2) := by
    rw [StateT.run_bind, E.run_bind, StateT.run_pure, E.run_pure]
  intro issues s hissues
  rw [hrun] at hissues ⊢
  obtain ⟨hnone, hboth⟩ := h issues s hissues
  refine ⟨hnone, fun hp t hst => ?_⟩
  obtain ⟨hsilent, hafter, hanswers⟩ := hboth hp t hst
  exact ⟨hsilent, hafter, hq _ _ hanswers⟩

theorem last_right {f : α' → β'} {T : α → β' → Prop} (h : Carries E R P x y Q) (hq : ∀ a b, Q a b → T a (f b)) :
    Carries E R P x (y >>= fun b => Pure.pure (f b)) T := by
  intro issues s hissues
  obtain ⟨hnone, hboth⟩ := h issues s hissues
  refine ⟨hnone, fun hp t hst => ?_⟩
  obtain ⟨hsilent, hafter, hanswers⟩ := hboth hp t hst
  rw [StateT.run_bind, E.run_bind, StateT.run_pure, E.run_pure]
  exact ⟨hsilent, hafter, hq _ _ hanswers⟩

end Carries

theorem carries_call {hook : Spot → α → m Reply} {trail : List Step} {a b : α} {P : Prop} {Q : Value → Value → Prop}
    (hsame : P → Reply.Carries E R (hook ⟨trail, []⟩ a) (hook ⟨trail, []⟩ b) Q) :
    Carries E R P (call hook trail a) (call hook trail b) (Both Q) := by
  intro issues s hissues
  rw [run_call] at hissues
  obtain ⟨rfl, haudible⟩ := List.append_eq_nil_iff.mp hissues
  refine ⟨rfl, fun hp t hst => ?_⟩
  obtain ⟨hsilent, hafter, hanswers⟩ := hsame hp s t hst haudible
  rw [run_call, run_call]
  exact ⟨hsilent, hafter, hanswers⟩

theorem run_call_keep {hook : Spot → α → m Reply} {trail : List Step} {a : α} {v : Value}
    (h : ∀ issues, hook ⟨trail, issues⟩ a = pure (.keep v)) (issues : List Issue) (s : S) :
    E.run ((call hook trail a).run issues) s = ((some v, issues), s) := by
  rw [run_call, h, E.run_pure]
  exact congrArg (fun is => ((some v, is), s)) (List.append_nil issues)

end Visiting

/-- An atom of the kind `K` is kept. -/
def Value.Keeps (K : Atom → Prop) (v w : Value) : Prop := ∀ a, K a → v = .atom a → w = .atom a

/-- What was made of entries, each in its place. -/
def KeptEntries (K : Atom → Prop) (es done : List (String × Value)) : Prop :=
  List.Forall₂ (fun e e' => e.1 = e'.1 ∧ e.2.Keeps K e'.2) es done

namespace KeptEntries
variable {K : Atom → Prop} {d : Dict Value} {done : List (String × Value)}

theorem names (h : KeptEntries K d.entries done) : (⟨done⟩ : Dict Value).names = d.names :=
  names_of_forall₂ (R := fun e e' => e.2.Keeps K e'.2) h

theorem get? (h : KeptEntries K d.entries done) {name : String} {a : Atom} (ha : K a)
    (hget : d.get? name = some (.atom a)) : (⟨done⟩ : Dict Value).get? name = some (.atom a) := by
  have hrel := rel_get?_of_forall₂ (R := fun _ => Value.Keeps K) h name
  obtain ⟨d⟩ := d
  rw [hget] at hrel
  obtain ⟨w, hw, hkeeps⟩ := exists_of_rel hrel
  rw [hw, hkeeps a ha rfl]

/-- Flags that are kept are as they were. -/
theorem sameFlag (h : KeptEntries K d.entries done)
    (hflags : ∀ v, (Key.compress, v) ∈ d.entries → ∃ a : Atom, v = .atom a ∧ K a) : d.SameFlag ⟨done⟩ := by
  refine ⟨h.names, ?_⟩
  cases hget : d.get? Key.compress with
  | none => rwa [Dict.get?_eq_none_iff, h.names, ← Dict.get?_eq_none_iff]
  | some v =>
    obtain ⟨a, rfl, ha⟩ := hflags v (Dict.mem_of_get? hget)
    exact h.get? ha hget

end KeptEntries

/-- Where a value lies in a description. -/
inductive Standing where
  | root
  /-- in the place of a top-level entry -/
  | entry
  | inside

namespace Standing

def of : List Step → Standing
  | [] => root
  | [.name _] => entry
  | _ => inside

/-- Where the entries of a dictionary lie. -/
def below : Standing → Standing
  | root => entry
  | _ => inside

theorem of_name (name : String) (trail : List Step) : of (.name name :: trail) = (of trail).below := by
  obtain _ | ⟨step, rest⟩ := trail
  · rfl
  · cases step <;> cases rest <;> rfl

theorem of_index (index : Nat) (trail : List Step) : of (.index index :: trail) = inside := by cases trail <;> rfl

theorem eq_nil {trail : List Step} (h : of trail = root) : trail = [] := by
  obtain _ | ⟨step, rest⟩ := trail
  · rfl
  · cases step <;> cases rest <;> cases h

theorem exists_eq_name {trail : List Step} (h : of trail = entry) : ∃ name, trail = [.name name] := by
  obtain _ | ⟨step, rest⟩ := trail
  · cases h
  · cases step with
    | name name =>
      cases rest with
      | nil => exact ⟨name, rfl⟩
      | cons _ _ => cases h
    | index index => cases rest <;> cases h

end Standing

/-- What the hooks make of values that are the same but for flags: of a dictionary with the property `P` on both sides,
if what is in it was made alike. Flags and other atoms of the kind `K` are kept. -/
structure Hooks.Carry (E : Execution m S) (R : S → S → Prop) (P : Dict Value → Prop) (K : Atom → Prop)
    (Out : Standing → Value → Value → Prop) (h : Hooks m) : Prop where
  kind : ∀ a : Atom, a.Unmarked Key.marks → K a
  keep : ∀ trail issues a, K a → h.onValue ⟨trail, issues⟩ (.atom a) = pure (.keep (.atom a))
  atom : ∀ trail a, Reply.Carries E R (h.onValue ⟨trail, []⟩ (.atom a)) (h.onValue ⟨trail, []⟩ (.atom a))
    (Out (.of trail))
  list : ∀ trail done done', List.Forall₂ (Out .inside) done done' →
    Reply.Carries E R (h.onValue ⟨trail, []⟩ (.list done)) (h.onValue ⟨trail, []⟩ (.list done')) (Out (.of trail))
  dict : ∀ trail d d' done done', (Value.dict d).Reflagged (.dict d') → P d → P d' →
    UpToFlags (Out (Standing.of trail).below) done done' → KeptEntries K d.entries done → KeptEntries K d'.entries done' →
    Reply.Carries E R (h.onDict ⟨trail, []⟩ ⟨done⟩) (h.onDict ⟨trail, []⟩ ⟨done'⟩) (Out (.of trail))

namespace Hooks.Carry
variable {P : Dict Value → Prop} {K : Atom → Prop} {Out : Standing → Value → Value → Prop} {h : Hooks m}

/-- What is made of two values at a place: the two are alike and keep what is to be kept. -/
def Made (K : Atom → Prop) (Out : Standing → Value → Value → Prop) (trail : List Step) (v w : Value) :
    Option Value → Option Value → Prop :=
  Both fun v' w' => Out (.of trail) v' w' ∧ v.Keeps K v' ∧ w.Keeps K w'

open Visiting in
theorem visitEntries (hh : h.Carry E R P K Out) {trail : List Step} {es es' : List (String × Value)}
    (hes : UpToFlags (fun v w => ∀ step, Carries E R True (v.tree.visit h (step :: trail))
      (w.tree.visit h (step :: trail)) (Made K Out (step :: trail) v w)) es es') :
    Carries E R True (AssetPack.visitEntries h trail (es.map fun e => (e.1, e.2.tree)))
      (AssetPack.visitEntries h trail (es'.map fun e => (e.1, e.2.tree))) fun done done' =>
        UpToFlags (Out (Standing.of trail).below) done done' ∧ KeptEntries K es done ∧ KeptEntries K es' done' := by
  have hflag {a : Atom} (ha : a.Unmarked Key.marks) (issues : List Issue) (s : S) :
      E.run (((Value.atom a).tree.visit h (.name Key.compress :: trail)).run issues) s =
        ((some (.atom a), issues), s) := run_call_keep (fun issues => hh.keep _ issues a (hh.kind a ha)) issues s
  have hkept (a : Atom) : (Value.atom a).Keeps K (.atom a) := fun _ _ heq => heq
  induction hes with
  | nil => exact .pure fun _ => ⟨.nil, .nil, .nil⟩
  | @left a es es' ha _ ih =>
    rw [List.map_cons, AssetPack.visitEntries]
    refine .skip_left (hflag ha) (ih.last_left fun done done' hdone => ?_)
    exact ⟨.left ha hdone.1, .cons ⟨rfl, hkept a⟩ hdone.2.1, hdone.2.2⟩
  | @right a es es' ha _ ih =>
    rw [List.map_cons, AssetPack.visitEntries]
    refine .skip_right (hflag ha) (ih.last_right fun done done' hdone => ?_)
    exact ⟨.right ha hdone.1, hdone.2.1, .cons ⟨rfl, hkept a⟩ hdone.2.2⟩
  | @both name v w es es' hname hvw _ ih =>
    rw [List.map_cons, List.map_cons, AssetPack.visitEntries, AssetPack.visitEntries]
    refine (hvw (.name name)).bind fun x y => ?_
    refine (ih.mono (C := True ∧ Made K Out (.name name :: trail) v w x y) (fun _ => trivial)
      (fun _ _ hmade hdone => And.intro hmade.2 hdone)).bind fun done done' => .pure ?_
    rintro ⟨_, ⟨v', w', rfl, rfl, hout, hv, hw⟩, hdone, hleft, hright⟩
    rw [Standing.of_name] at hout
    exact ⟨.both hname hout hdone, .cons ⟨rfl, hv⟩ hleft, .cons ⟨rfl, hw⟩ hright⟩

open Visiting in
theorem visitItems {trail : List Step} {vs ws : List Value}
    (hitems : List.Forall₂ (fun v w => ∀ step, Carries E R True (v.tree.visit h (step :: trail))
      (w.tree.visit h (step :: trail)) (Made K Out (step :: trail) v w)) vs ws) (index : Nat) :
    Carries E R True (AssetPack.visitItems h trail index (vs.map Value.tree))
      (AssetPack.visitItems h trail index (ws.map Value.tree)) (List.Forall₂ (Out .inside)) := by
  induction hitems generalizing index with
  | nil => exact .pure fun _ => .nil
  | @cons v w vs ws hvw _ ih =>
    rw [List.map_cons, List.map_cons, AssetPack.visitItems, AssetPack.visitItems]
    refine (hvw (.index index)).bind fun x y => ?_
    refine ((ih (index + 1)).mono (C := True ∧ Made K Out (.index index :: trail) v w x y) (fun _ => trivial)
      (fun _ _ hmade hdone => And.intro hmade.2 hdone)).bind fun done done' => .pure ?_
    rintro ⟨_, ⟨v', w', rfl, rfl, hout, _⟩, hdone⟩
    rw [Standing.of_index] at hout
    exact .cons hout hdone

open Visiting in
/-- What is made of values that are the same but for flags. -/
theorem visit (hh : h.Carry E R P K Out) {v w : Value} (hvw : v.Reflagged w) (hv : v.Dicts P) (hw : w.Dicts P)
    (trail : List Step) : Carries E R True (v.tree.visit h trail) (w.tree.visit h trail) (Made K Out trail v w) := by
  induction v generalizing w trail with
  | atom a =>
    cases hvw
    refine carries_call fun _ s t hst hissues => ?_
    obtain ⟨hsilent, hafter, v', w', hv', hw', hout⟩ := hh.atom trail a s t hst hissues
    have hkept {s : S} {u : Value} (hu : (E.run (h.onValue ⟨trail, []⟩ (.atom a)) s).1.value = some u) :
        (Value.atom a).Keeps K u := by
      rintro b hb ⟨⟩
      rw [hh.keep trail [] a hb, E.run_pure] at hu
      exact (Option.some.inj hu).symm
    exact ⟨hsilent, hafter, v', w', hv', hw', hout, hkept hv', hkept hw'⟩
  | list items ih =>
    cases hvw with
    | @list _ ws hitems =>
      have hlist (vs : List Value) (u : Value) : (Value.list vs).Keeps K u := by rintro _ _ ⟨⟩
      rw [Value.tree_list, Value.tree_list, Tree.visit, Tree.visit]
      have hinside := forall₂_and hitems
        (fun v hmem => And.intro (@ih v hmem) ((Value.throughout_list.mp hv).2 v hmem)) (Value.throughout_list.mp hw).2
      have hmade : List.Forall₂ (fun v w => ∀ step, Carries E R True (v.tree.visit h (step :: trail))
          (w.tree.visit h (step :: trail)) (Made K Out (step :: trail) v w)) items ws := by
        refine hinside.imp ?_
        rintro v w ⟨hvw, ⟨ih, hv⟩, hw⟩ step
        exact ih hvw hv hw (step :: trail)
      exact (visitItems hmade 0).bind fun done done' => carries_call fun hdone =>
        (hh.list trail done done' hdone.2).mono fun v' w' hout => ⟨hout, hlist _ _, hlist _ _⟩
  | @dict d ih =>
    cases hvw with
    | @dict _ d' hentries hbalanced =>
      have hdict (e : Dict Value) (u : Value) : (Value.dict e).Keeps K u := by rintro _ _ ⟨⟩
      have hreflagged : (Value.dict d).Reflagged (.dict d') := .dict hentries hbalanced
      rw [Value.tree_dict, Value.tree_dict, Tree.visit, Tree.visit, Dict.tree_eq, Dict.tree_eq, Dict.map, Dict.map,
        Dict.visit, Dict.visit]
      have hinside := (hentries.imp_mem (S := fun v w => v.Reflagged w ∧ (v.Dicts P → w.Dicts P → ∀ trail,
        Carries E R True (v.tree.visit h trail) (w.tree.visit h trail) (Made K Out trail v w)))
        fun entry hentry w hvw => ⟨hvw, fun hv hw => ih entry hentry hvw hv hw⟩).and_mem
          (Value.throughout_dict.mp hv).2 (Value.throughout_dict.mp hw).2
      have hmade : UpToFlags (fun v w => ∀ step, Carries E R True (v.tree.visit h (step :: trail))
          (w.tree.visit h (step :: trail)) (Made K Out (step :: trail) v w)) d.entries d'.entries := by
        refine hinside.imp ?_
        rintro v w ⟨⟨_, ih⟩, hv, hw⟩ step
        exact ih hv hw (step :: trail)
      exact (hh.visitEntries hmade).bind fun done done' => carries_call fun hdone =>
        (hh.dict trail d d' done done' hreflagged hv.here hw.here hdone.2.1 hdone.2.2.1 hdone.2.2.2).mono
          fun v' w' hout => ⟨hout, hdict _ _, hdict _ _⟩
  | block b => cases hvw
  | saved p => cases hvw

/-- The whole visit, from the root, whose hook keeps it. -/
theorem visitRoot (hh : h.Carry E R P K Out) {d d' : Dict Value} (hreflagged : (Value.dict d).Reflagged (.dict d'))
    (hd : (Value.dict d).Dicts P) (hd' : (Value.dict d').Dicts P) {s t : S} (hst : R s t)
    (hissues : (E.run (d.visitRoot h) s).1.issues = []) :
    (E.run (d'.visitRoot h) t).1.issues = [] ∧ R (E.run (d.visitRoot h) s).2 (E.run (d'.visitRoot h) t).2 ∧
      ∃ v w, (E.run (d.visitRoot h) s).1.dict = v.opened? ∧ (E.run (d'.visitRoot h) t).1.dict = w.opened? ∧
        Out .root v w := by
  have hvisit := hh.visit hreflagged hd hd' []
  rw [Value.tree_dict, Value.tree_dict, Tree.visit, Tree.visit] at hvisit
  have hrun (d : Dict Value) (s : S) : E.run (d.visitRoot h) s =
      (⟨(E.run ((d.tree.visit h []).run []) s).1.1.bind Value.opened?, (E.run ((d.tree.visit h []).run []) s).1.2⟩,
        (E.run ((d.tree.visit h []).run []) s).2) := by
    rw [Dict.visitRoot, E.run_bind, E.run_pure]
    refine congrArg (fun e => (Visited.mk e _, _)) ?_
    cases (E.run ((d.tree.visit h []).run []) s).1.1 <;> rfl
  rw [hrun] at hissues
  obtain ⟨hsilent, hafter, v, w, hv, hw, hout, _⟩ := (hvisit [] s hissues).2 trivial t hst
  rw [hrun, hrun, hv, hw]
  exact ⟨hsilent, hafter, v, w, rfl, rfl, hout⟩

end Hooks.Carry

/-- The same but for flags, and the dictionaries on either side have the property `P`. -/
structure Value.ReflaggedIn (P : Dict Value → Prop) (v w : Value) : Prop where
  reflagged : v.Reflagged w
  left : v.Dicts P
  right : w.Dicts P

theorem Value.ReflaggedIn.opened? {P : Dict Value → Prop} {v w : Value} (h : v.ReflaggedIn P w) :
    Option.Rel (fun d e => (Value.dict d).ReflaggedIn P (.dict e)) v.opened? w.opened? := by
  obtain ⟨hreflagged, hleft, hright⟩ := h
  cases hreflagged with
  | dict hentries hbalanced => exact .some ⟨.dict hentries hbalanced, hleft, hright⟩
  | _ => exact .none

/-- The property does not depend on more than names and plain atoms. -/
def Dict.Stable (P : Dict Value → Prop) : Prop :=
  ∀ d done, P d → KeptEntries (·.Unmarked Key.marks) d.entries done → P ⟨done⟩

/-- With one call on both sides and one state it is enough that an atom is answered. -/
theorem Reply.carries_self {x : m Reply} {P : Dict Value → Prop}
    (h : ∀ s, Issue.audible (E.run x s).1.issues = [] → ∃ a, (E.run x s).1.value = some (.atom a)) :
    Reply.Carries E Eq x x (Value.ReflaggedIn P) := by
  rintro s _ rfl hissues
  obtain ⟨a, ha⟩ := h s hissues
  have hatom : (Value.atom a).Dicts P := Value.throughout_atom.mpr trivial
  exact ⟨hissues, rfl, _, _, ha, ha, .atom a, hatom, hatom⟩

/-- Hooks that only put atoms in the place of atoms leave what is the same but for flags the same but for flags. -/
theorem Hooks.carry_of_atom {P : Dict Value → Prop} (hP : Dict.Stable P) {hook : Spot → Value → m Reply}
    (hkeep : ∀ trail issues (a : Atom), a.Unmarked Key.marks → hook ⟨trail, issues⟩ (.atom a) = pure (.keep (.atom a)))
    (hatom : ∀ trail a s, Issue.audible (E.run (hook ⟨trail, []⟩ (.atom a)) s).1.issues = [] →
      ∃ b, (E.run (hook ⟨trail, []⟩ (.atom a)) s).1.value = some (.atom b))
    (hlist : ∀ spot items, hook spot (.list items) = pure (.keep (.list items))) :
    Hooks.Carry E Eq P (·.Unmarked Key.marks) (fun _ => Value.ReflaggedIn P) { Hooks.keep with onValue := hook } where
  kind _ ha := ha
  keep := hkeep
  atom trail a := Reply.carries_self (hatom trail a)
  list trail done done' hdone := by
    show Reply.Carries E Eq (hook _ _) (hook _ _) _
    rw [hlist, hlist]
    refine Reply.carries_keep ⟨.list (hdone.imp fun _ _ h => h.reflagged), ?_, ?_⟩
    · refine Value.throughout_list.mpr ⟨trivial, fun v hv => ?_⟩
      obtain ⟨_, _, hvw⟩ := exists_of_forall₂ hdone.flip hv
      exact hvw.left
    · refine Value.throughout_list.mpr ⟨trivial, fun w hw => ?_⟩
      obtain ⟨_, _, hvw⟩ := exists_of_forall₂ hdone hw
      exact hvw.right
  dict trail d d' done done' h hd hd' hdone hleft hright := by
    have hatom (a : Atom) : (Value.atom a).Dicts P := Value.throughout_atom.mpr trivial
    refine Reply.carries_keep ⟨.dict (hdone.imp fun _ _ h => h.reflagged) (h.balanced.of_sameFlag ?_ ?_), ?_, ?_⟩
    · exact hleft.sameFlag fun v hv => h.entries.plain_of_mem hv
    · exact hright.sameFlag fun v hv => h.flip.entries.plain_of_mem hv
    · exact Value.throughout_dict.mpr ⟨hP d done hd hleft, hdone.left_mem (fun _ _ h => h.left) hatom⟩
    · exact Value.throughout_dict.mpr ⟨hP d' done' hd' hright, hdone.flip.left_mem (fun _ _ h => h.right) hatom⟩

end AssetPack
