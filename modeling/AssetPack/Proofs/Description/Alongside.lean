import AssetPack.Proofs.Description.Reflagged

/-!
# Expansion up to flags

Descriptions that are the same but for plain flags are expanded to dictionaries that are the same but for plain flags,
provided that no text and no template leads to a flag. The two expansions go side by side: what they are at, what is in
scope and what they answer is the same but for flags, and all else that they keep is the same. A flag may be missing
in one of the two, whose expansion then gets by with less fuel; so the other is given one unit more.
-/
namespace AssetPack
variable {fs : Files} {base : Path} {debug : Bool}

/-- States of two expansions that are the same but for flags of what is in scope. -/
inductive Expansion.Alongside (fs : Files) (debug : Bool) (base : Path) : Expansion → Expansion → Prop
  | intro {e : Expansion} {scopes : List (Dict Value)} : e.context.Consulted fs debug base →
      List.Forall₂ (fun d d' => (Value.dict d).Alongside fs base (.dict d')) e.scopes scopes →
      Alongside fs debug base e { e with scopes := scopes }

namespace Expansion.Alongside
variable {e e' : Expansion}

theorem plain (h : e.Alongside fs debug base e') : e.Plain fs debug base := by
  obtain ⟨hcontext, hscopes⟩ := h
  refine ⟨fun scope hscope => ?_, hcontext⟩
  obtain ⟨_, _, hrelated⟩ := exists_of_forall₂ (List.Forall₂.flip hscopes) hscope
  exact hrelated.left.of

theorem plain' (h : e.Alongside fs debug base e') : e'.Plain fs debug base := by
  obtain ⟨hcontext, hscopes⟩ := h
  refine ⟨fun scope hscope => ?_, hcontext⟩
  obtain ⟨_, _, hrelated⟩ := exists_of_forall₂ hscopes hscope
  exact hrelated.right.of

theorem head (h : e.Alongside fs debug base e') :
    (Value.dict (e.scopes.head?.getD ∅)).Alongside fs base (.dict (e'.scopes.head?.getD ∅)) := by
  obtain ⟨_, hscopes⟩ := h
  generalize e.scopes = front at hscopes
  cases hscopes with
  | nil => exact .empty
  | cons hhead _ => exact hhead

theorem inScope? (h : e.Alongside fs debug base e') {name : String} (hname : ¬Key.LeadsToFlag name) :
    Option.Rel (Value.Alongside fs base) (e.inScope? name) (e'.inScope? name) := by
  obtain ⟨_, hscopes⟩ := h
  rw [Expansion.inScope?, Expansion.inScope?]
  generalize e.scopes = front at hscopes
  cases hscopes with
  | nil => exact .none
  | cons hhead _ => exact hhead.find? hname

end Expansion.Alongside

/-- Jobs about what is the same but for flags. -/
inductive Job.Alongside (fs : Files) (base : Path) : Job → Job → Prop
  | dict {d d' : Dict Value} : (Value.dict d).Alongside fs base (.dict d') → Alongside fs base (.dict d) (.dict d')
  | value {v v' : Value} : v.Alongside fs base v' → Alongside fs base (.value v) (.value v')

/-- Two values are answered, the same but for flags. -/
def Reflags (x y : Option Value) : Prop := ∃ v w, x = some v ∧ y = some w ∧ v.Reflagged w

namespace Expanding
variable {α α' β β' : Type} {x : Expanding α} {y : Expanding α'} {Q : α → α' → Prop}

/-! ## Runs side by side -/

/-- Issues are only added. -/
def Adds (fs : Files) (x : Expanding α) : Prop := ∀ e a e₁, eval fs x e = some (a, e₁) → e.issues <+: e₁.issues

theorem Tells.adds {files : List Path} {P : Prop} {Q : α → Prop} (h : Tells fs files P x Q) : Adds fs x :=
  fun e a e₁ hrun => (h e a e₁ hrun.symm).1.issues

namespace Adds

theorem pure (a : α) : Adds fs (Pure.pure a) := by
  intro e b e₁ hrun
  cases hrun
  exact List.prefix_rfl

theorem bind {f : α → Expanding β} (hx : Adds fs x) (hf : ∀ a, Adds fs (f a)) : Adds fs (x >>= f) := by
  intro e b e₂ hrun
  obtain ⟨a, e₁, hfirst, hsecond⟩ := exists_of_eval_bind hrun
  exact (hx e a e₁ hfirst).trans (hf a e₁ b e₂ hsecond)

theorem ask {f : Expansion → Expanding α} (hf : ∀ e, Adds fs (f e)) : Adds fs (get >>= f) :=
  fun e => hf e e

theorem drop (i : Issue) : Adds fs (Expanding.drop i : Expanding (Option α)) := by
  intro e a e₁ hrun
  cases hrun
  exact List.prefix_append _ _

end Adds

/-- From states that are the same but for flags, if `x` reports nothing, `y` answers as well, and the states are again
the same but for flags. -/
def Pairs (fs : Files) (debug : Bool) (base : Path) (x : Expanding α) (y : Expanding α') (Q : α → α' → Prop) : Prop :=
  ∀ e e', e.Alongside fs debug base e' → ∀ a e₁, eval fs x e = some (a, e₁) → e₁.issues = e.issues →
    ∃ b e₁', eval fs y e' = some (b, e₁') ∧ e₁.Alongside fs debug base e₁' ∧ Q a b

namespace Pairs

theorem pure {a : α} {b : α'} (h : Q a b) : Pairs fs debug base (Pure.pure a) (Pure.pure b) Q := by
  intro e e' he _ _ hrun _
  cases hrun
  exact ⟨b, e', rfl, he, h⟩

theorem bind {f : α → Expanding β} {g : α' → Expanding β'} {T : β → β' → Prop} (hx : Pairs fs debug base x y Q)
    (hadds : Adds fs x) (hadds' : ∀ a, Adds fs (f a)) (hf : ∀ a b, Q a b → Pairs fs debug base (f a) (g b) T) :
    Pairs fs debug base (x >>= f) (y >>= g) T := by
  intro e e' he b e₂ hrun hissues
  obtain ⟨a, e₁, hfirst, hsecond⟩ := exists_of_eval_bind hrun
  have hgrown := hadds e a e₁ hfirst
  have hgrown' := hadds' a e₁ b e₂ hsecond
  -- issues stay, so nothing was reported in between either
  have hmiddle : e₁.issues = e.issues := (hgrown.eq_of_length_le (hissues ▸ hgrown'.length_le)).symm
  obtain ⟨a', e₁', hfirst', he₁, ha⟩ := hx e e' he a e₁ hfirst hmiddle
  obtain ⟨b', e₂', hsecond', he₂, hb⟩ := hf a a' ha e₁ e₁' he₁ b e₂ hsecond (hissues.trans hmiddle.symm)
  exact ⟨b', e₂', (eval_bind_of hfirst').trans hsecond', he₂, hb⟩

theorem mono {R : α → α' → Prop} (hx : Pairs fs debug base x y Q) (h : ∀ a b, Q a b → R a b) :
    Pairs fs debug base x y R := by
  intro e e' he a e₁ hrun hissues
  obtain ⟨b, e₁', hrun', he₁, hb⟩ := hx e e' he a e₁ hrun hissues
  exact ⟨b, e₁', hrun', he₁, h a b hb⟩

theorem ask {f : Expansion → Expanding α} {g : Expansion → Expanding α'}
    (h : ∀ e e', e.Alongside fs debug base e' → Pairs fs debug base (f e) (g e') Q) :
    Pairs fs debug base (get >>= f) (get >>= g) Q :=
  fun e e' he => h e e' he e e' he

theorem look_bind {f : β → Expanding α} {g : β → Expanding α'} (z : Look β)
    (h : Pairs fs debug base (f (z.eval fs)) (g (z.eval fs)) Q) :
    Pairs fs debug base (liftM z >>= f) (liftM z >>= g) Q := by
  intro e e' he
  rw [eval_look_bind, eval_look_bind]
  exact h e e' he

/-- Where something is dropped with words there is nothing to show. -/
theorem drop {i : Issue} (hi : i.Own) {T : Option β → α' → Prop} :
    Pairs fs debug base (Expanding.drop i) y T := by
  intro e e' _ a e₁ hrun hissues
  have heval : eval fs (Expanding.drop i : Expanding (Option β)) e =
      some (none, { e with issues := e.issues ++ Issue.audible [i] }) := rfl
  rw [heval, Issue.audible_of_own hi] at hrun
  cases hrun
  exact absurd (List.append_right_eq_self.mp hissues) (List.cons_ne_nil i [])

/-- A first step that leaves the state as it is. -/
theorem skip_left {f : α → Expanding β} {T : β → α' → Prop} (a : α)
    (hx : ∀ e a' e₁, eval fs x e = some (a', e₁) → a' = a ∧ e₁ = e) (h : Pairs fs debug base (f a) y T) :
    Pairs fs debug base (x >>= f) y T := by
  intro e e' he b e₂ hrun hissues
  obtain ⟨a', e₁, hfirst, hsecond⟩ := exists_of_eval_bind hrun
  obtain ⟨rfl, rfl⟩ := hx e a' e₁ hfirst
  exact h e₁ e' he b e₂ hsecond hissues

theorem skip_right {g : α' → Expanding β'} {T : α → β' → Prop} (b : α') (hy : ∀ e, eval fs y e = some (b, e))
    (h : Pairs fs debug base x (g b) T) : Pairs fs debug base x (y >>= g) T := by
  intro e e' he a e₁ hrun hissues
  rw [eval_bind_of (hy e')]
  exact h e e' he a e₁ hrun hissues

/-- `x` and `y` between a change of the states and the one that takes it back. -/
theorem around {f g f' g' : Expansion → Expansion} (hf : ∀ e, (f e).issues = e.issues)
    (hg : ∀ e, (g e).issues = e.issues)
    (hstart : ∀ e e', e.Alongside fs debug base e' → (f e).Alongside fs debug base (f' e'))
    (hback : ∀ e e', e.Alongside fs debug base e' → (g e).Alongside fs debug base (g' e'))
    (h : Pairs fs debug base x y Q) : Pairs fs debug base (do modify f; let a ← x; modify g; return a)
      (do modify f'; let b ← y; modify g'; return b) Q := by
  intro e e' he _ e₂ hrun hissues
  rw [eval_around] at hrun
  obtain ⟨⟨a, e₁⟩, hinner, hdone⟩ := Option.map_eq_some_iff.mp hrun
  cases hdone
  have hsilent : e₁.issues = (f e).issues := (hg e₁).symm.trans (hissues.trans (hf e).symm)
  obtain ⟨b, e₁', hinner', he₁, hb⟩ := h (f e) (f' e') (hstart e e' he) a e₁ hinner hsilent
  refine ⟨b, g' e₁', ?_, hback e₁ e₁' he₁, hb⟩
  rw [eval_around, hinner']
  rfl

/-- `x` and `y` between changes that leave the scopes and the context as they are. -/
theorem around_same {f g : Expansion → Expansion} (hf : ∀ e, (f e).issues = e.issues)
    (hg : ∀ e, (g e).issues = e.issues)
    (hf' : ∀ e, (f e).context = e.context ∧ (f e).scopes = e.scopes)
    (hg' : ∀ e, (g e).context = e.context ∧ (g e).scopes = e.scopes)
    (hscopes : ∀ e scopes, f { e with scopes := scopes } = { f e with scopes := scopes } ∧
      g { e with scopes := scopes } = { g e with scopes := scopes })
    (h : Pairs fs debug base x y Q) : Pairs fs debug base (do modify f; let a ← x; modify g; return a)
      (do modify f; let b ← y; modify g; return b) Q := by
  refine around hf hg (fun e e' he => ?_) (fun e e' he => ?_) h
  · obtain @⟨scopes, hcontext, hrelated⟩ := he
    rw [(hscopes e scopes).1]
    exact .intro ((hf' e).1 ▸ hcontext) ((hf' e).2 ▸ hrelated)
  · obtain @⟨scopes, hcontext, hrelated⟩ := he
    rw [(hscopes e scopes).2]
    exact .intro ((hg' e).1 ▸ hcontext) ((hg' e).2 ▸ hrelated)

theorem within (step : Step) (h : Pairs fs debug base x y Q) :
    Pairs fs debug base (within step x) (within step y) Q :=
  around_same (fun _ => rfl) (fun _ => rfl) (fun _ => ⟨rfl, rfl⟩) (fun _ => ⟨rfl, rfl⟩) (fun _ _ => ⟨rfl, rfl⟩) h

theorem inTemplate (name : String) (h : Pairs fs debug base x y Q) :
    Pairs fs debug base (inTemplate name x) (inTemplate name y) Q :=
  around_same (fun _ => rfl) (fun _ => rfl) (fun _ => ⟨rfl, rfl⟩) (fun _ => ⟨rfl, rfl⟩) (fun _ _ => ⟨rfl, rfl⟩) h

theorem inImport (path : Path) (h : Pairs fs debug base x y Q) :
    Pairs fs debug base (inImport path x) (inImport path y) Q :=
  around_same (fun _ => rfl) (fun _ => rfl) (fun _ => ⟨rfl, rfl⟩) (fun _ => ⟨rfl, rfl⟩) (fun _ _ => ⟨rfl, rfl⟩) h

theorem inNewScope {scope scope' : Dict Value} (hscope : (Value.dict scope).Alongside fs base (.dict scope'))
    (h : Pairs fs debug base x y Q) : Pairs fs debug base (inNewScope scope x) (inNewScope scope' y) Q := by
  refine around (fun _ => rfl) (fun _ => rfl) (fun e e' he => ?_) (fun e e' he => ?_) h
  · obtain ⟨hcontext, hrelated⟩ := he
    exact .intro (e := { e with scopes := scope :: e.scopes }) hcontext (.cons hscope hrelated)
  · obtain ⟨hcontext, hrelated⟩ := he
    exact .intro (e := { e with scopes := e.scopes.drop 1 }) hcontext (List.forall₂_drop 1 hrelated)

theorem addFile {path : Path} (hpath : fs.Known base path) :
    Pairs fs debug base (addFile path) (addFile path) fun _ _ => True := by
  intro e e' he a e₁ hrun _
  obtain ⟨hcontext, hscopes⟩ := he
  rw [eval_addFile] at hrun
  cases hrun
  exact ⟨_, _, eval_addFile path _, .intro (hcontext.addFile hpath e.root?) hscopes, trivial⟩

/-- What both answer is expanded, if that is known of each. -/
theorem expanded {x y : Expanding (Option Value)} (h : Pairs fs debug base x y Reflags)
    (hx : Yields fs debug base x Expanded) (hy : Yields fs debug base y Expanded) :
    Pairs fs debug base x y fun a b => Reflags a b ∧ Expanded a ∧ Expanded b := by
  intro e e' he a e₁ hrun hissues
  obtain ⟨b, e₁', hrun', he₁, hb⟩ := h e e' he a e₁ hrun hissues
  exact ⟨b, e₁', hrun', he₁, hb, (hx e a e₁ hrun.symm he.plain).2, (hy e' b e₁' hrun'.symm he.plain').2⟩

end Pairs

/-! ## One level of the pass -/

/-- Two dictionaries are answered that lead to no flag, the same but for flags. -/
def Finds (fs : Files) (base : Path) (x y : Option (Dict Value)) : Prop :=
  ∃ d d', x = some d ∧ y = some d' ∧ (Value.dict d).Alongside fs base (.dict d')

/-- Two settings that are the same but for flags, where no localized value stands for something else. -/
structure Settings (fs : Files) (base : Path) (s s' : Setting) : Prop where
  root : (Value.dict s.root).Alongside fs base (.dict s'.root)
  localize : s'.localize = s.localize
  localized : ∀ name v, s.localize name = some v → v.Of .expanded ∧ v.PlainlyFlagged

/-- A plain flag is answered as it is, if it is answered. -/
def LeavesFlags (fs : Files) (next : Job → Expanding (Option Value)) : Prop :=
  ∀ a : Atom, a.Unmarked Key.marks → ∀ e w e₁, eval fs (next (.value (.atom a))) e = some (w, e₁) →
    w = some (.atom a) ∧ e₁ = e

/-- A plain flag is answered as it is. -/
def KeepsFlags (fs : Files) (next : Job → Expanding (Option Value)) : Prop :=
  ∀ a : Atom, a.Unmarked Key.marks → ∀ e, eval fs (next (.value (.atom a))) e = some (some (.atom a), e)

/-- A text that was expanded stands for nothing else. -/
theorem named_of_expanded (next : Job → Expanding (Option Value)) (s : Setting) {text : String}
    (h : (Value.string text).Of .expanded) : named next s text = pure (some (.string text)) := by
  have hunmarked : ∀ mark ∈ Key.lookups, after? mark text = none := Value.of_atom.mp h
  rw [named, hunmarked Key.reserved (by decide), hunmarked Key.localized (by decide)]

section
variable {next next' : Job → Expanding (Option Value)} {s s' : Setting}
variable (htells : ∀ job, Tells fs [] True (next job) job.Answered)
variable (hnext : ∀ job job', job.Alongside fs base job' →
  Pairs fs debug base (next job) (next' job') fun a b => Reflags a b ∧ Expanded a ∧ Expanded b)
include htells hnext

theorem pairs_entries (hflag : LeavesFlags fs next) (hflag' : KeepsFlags fs next')
    {es es' : List (String × Value)} (h : UpToFlags (Value.Alongside fs base) es es') :
    Pairs fs debug base (entries next es) (entries next' es') fun done done' =>
      UpToFlags Value.Reflagged done done' ∧ (⟨es⟩ : Dict Value).SameFlag ⟨done⟩ ∧
        (⟨es'⟩ : Dict Value).SameFlag ⟨done'⟩ := by
  induction h with
  | nil => exact .pure ⟨.nil, ⟨rfl, rfl⟩, ⟨rfl, rfl⟩⟩
  | @left a es es' ha _ ih =>
    refine .skip_left (some (.atom a)) (fun e w e₁ hrun => ?_) ?_
    · rw [eval_within] at hrun
      obtain ⟨⟨w, e₂⟩, hvalue, hback⟩ := Option.map_eq_some_iff.mp hrun
      cases hback
      obtain ⟨rfl, rfl⟩ := hflag a ha _ _ _ hvalue
      exact ⟨rfl, rfl⟩
    · rw [← bind_pure (entries next' es')]
      refine ih.bind (tells_entries htells es).adds (fun _ => .pure _) fun done done' hdone => .pure ?_
      exact ⟨.left ha hdone.1, hdone.2.1.cons fun _ => rfl, hdone.2.2⟩
  | @right a es es' ha _ ih =>
    refine .skip_right (some (.atom a)) (fun e => ?_) ?_
    · rw [eval_within, hflag' a ha]
      rfl
    · rw [← bind_pure (entries next es)]
      refine ih.bind (tells_entries htells es).adds (fun _ => .pure _) fun done done' hdone => .pure ?_
      exact ⟨.right ha hdone.1, hdone.2.1, hdone.2.2.cons fun _ => rfl⟩
  | @both name v w es es' hname hvw _ ih =>
    refine ((hnext _ _ (.value hvw)).within _).bind ((htells _).within _).adds (fun a => ?_) fun a b hab => ?_
    · exact (tells_entries htells es).adds.bind fun _ => .pure _
    · obtain ⟨⟨v', w', rfl, rfl, hreflagged⟩, _, _⟩ := hab
      refine ih.bind (tells_entries htells es).adds (fun _ => .pure _) fun done done' hdone => .pure ?_
      exact ⟨.both hname hreflagged hdone.1, hdone.2.1.cons fun heq => absurd heq hname,
        hdone.2.2.cons fun heq => absurd heq hname⟩

theorem pairs_items {vs ws : List Value} (h : List.Forall₂ (Value.Alongside fs base) vs ws) (index : Nat) :
    Pairs fs debug base (items next index vs) (items next' index ws) (List.Forall₂ Value.Reflagged) := by
  induction h generalizing index with
  | nil => exact .pure .nil
  | @cons v w vs ws hvw _ ih =>
    refine ((hnext _ _ (.value hvw)).within _).bind ((htells _).within _).adds (fun a => ?_) fun a b hab => ?_
    · exact (tells_items htells vs (index + 1)).adds.bind fun _ => .pure _
    · obtain ⟨⟨v', w', rfl, rfl, hreflagged⟩, _, _⟩ := hab
      exact (ih (index + 1)).bind (tells_items htells vs (index + 1)).adds (fun _ => .pure _) fun done done' hdone =>
        .pure (.cons hreflagged hdone)

theorem pairs_importFile {relative : Path}
    (hheld : ∀ d, fs.dict? (fs.settled base relative) = some d → (Value.dict d).Given fs base) :
    Pairs fs debug base (importFile next relative) (importFile next' relative) (Finds fs base) := by
  refine .ask fun e e' he => ?_
  have hbase : e.context.base = base := he.plain.context.base_eq
  have hbase' : e'.context.base = base := he.plain'.context.base_eq
  rw [hbase, hbase']
  refine .look_bind _ (.ask fun e₁ e₁' he₁ => ?_)
  have hfound : (Look.settle (Path.join base relative)).eval fs = fs.settled base relative := rfl
  have himports : e₁'.imports = e₁.imports := by
    obtain ⟨_, _⟩ := he₁
    rfl
  rw [hfound, himports]
  split
  · exact .drop (by trivial)
  · refine .look_bind _ ?_
    rw [Files.dict?] at hheld
    cases htext : (Look.readText (fs.settled base relative)).eval fs with
    | error error => exact .drop (by trivial)
    | ok text =>
      rw [htext] at hheld
      dsimp only at hheld ⊢
      cases hparse : Json.parseDict text with
      | error fault => exact .drop (by trivial)
      | ok parsed =>
        rw [hparse] at hheld
        have hgiven := hheld parsed rfl
        have hknown : fs.Known base (fs.settled base relative) := Files.known_settle htext
        have htold : Tells fs [] True (inImport (fs.settled base relative) (next (.dict parsed))) _ :=
          (htells (.dict parsed)).inImport _
        refine (Pairs.addFile hknown).bind (fun e a e₁ hrun => ?_) (fun _ => htold.adds.bind fun w => ?_) fun _ _ _ => ?_
        · rw [eval_addFile] at hrun
          cases hrun
          exact List.prefix_rfl
        · split
          · exact .pure _
          · exact .drop _
        · refine ((hnext _ _ (.dict (.refl hgiven))).inImport _).bind htold.adds (fun w => ?_) fun a b hab => ?_
          · split
            · exact .pure _
            · exact .drop _
          obtain ⟨⟨v, w, rfl, rfl, hreflagged⟩, hv, hw⟩ := hab
          have hv := hv v rfl
          have hw := hw w rfl
          cases hreflagged with
          | @dict d d' hentries hbalanced =>
            have hreflagged : (Value.dict d).Reflagged (.dict d') := .dict hentries hbalanced
            exact .pure ⟨d, d', rfl, rfl, hreflagged, .of_expanded hv hreflagged.plainlyFlagged,
              .of_expanded hw hreflagged.flip.plainlyFlagged⟩
          | _ => exact .drop (by trivial)

theorem pairs_imported {d d' : Dict Value} (h : (Value.dict d).Alongside fs base (.dict d')) :
    Pairs fs debug base (imported next d) (imported next' d') (Finds fs base) := by
  unfold imported
  have hname : Key.imported ≠ Key.compress := by decide
  rcases rel_cases (h.get? hname) with ⟨hget, hget'⟩ | ⟨v, v', hget, hget', hv⟩
  · rw [hget, hget']
    exact .pure ⟨d, d', rfl, rfl, h⟩
  · rw [hget, hget']
    split
    · rename_i heq
      cases heq
    · rename_i relative heq
      cases heq
      have hreflagged := hv.reflagged
      cases hreflagged
      have hfield := Value.hasField_of_get? hget
      refine (pairs_importFile htells hnext fun held hheld => h.left.held hfield hheld).bind
        (tells_importFile htells relative).adds (fun found => ?_) fun a b hab => ?_
      · cases found <;> exact .pure _
      · obtain ⟨found, found', rfl, rfl, hfound⟩ := hab
        exact .pure ⟨_, _, rfl, rfl, hfound.merge (h.erase (by decide))⟩
    · exact .ask fun _ _ _ => .drop (by trivial)

omit htells in
theorem pairs_overTemplate (hs : Settings fs base s s') {template : String} (hname : ¬Key.LeadsToFlag template)
    {d d' : Dict Value} (h : (Value.dict d).Alongside fs base (.dict d')) :
    Pairs fs debug base (overTemplate next s template d) (overTemplate next' s' template d') Reflags := by
  refine .ask fun e e' he => ?_
  have htemplates : e'.templates = e.templates := by
    obtain ⟨_, _⟩ := he
    rfl
  have hrel : Option.Rel (Value.Alongside fs base) ((e.inScope? template).orElse fun _ => s.root.find? template)
      ((e'.inScope? template).orElse fun _ => s'.root.find? template) := by
    rcases rel_cases (he.inScope? hname) with ⟨hscope, hscope'⟩ | ⟨v, v', hscope, hscope', hv⟩
    · rw [hscope, hscope']
      exact hs.root.find? hname
    · rw [hscope, hscope']
      exact .some hv
  rw [htemplates]
  split
  · exact .drop (by trivial)
  · rcases rel_cases hrel with ⟨hfound, hfound'⟩ | ⟨v, v', hfound, hfound', hv⟩
    · rw [hfound]
      exact .drop (by trivial)
    · rw [hfound, hfound']
      refine .inTemplate template ?_
      rcases rel_cases hv.opened with ⟨hnone, hnone'⟩ | ⟨under, under', hunder, hunder', hmerged⟩
      · rw [hnone, hnone']
        dsimp only
        rw [h.reflagged.isEmpty]
        split
        · exact (hnext _ _ (.value hv)).mono fun a b hab => hab.1
        · exact .drop (by trivial)
      · rw [hunder, hunder']
        exact (hnext _ _ (.dict (hmerged.merge h))).mono fun a b hab => hab.1

theorem pairs_plain (hflag : LeavesFlags fs next) (hflag' : KeepsFlags fs next')
    (hs : Settings fs base s s') {d d' : Dict Value} (h : (Value.dict d).Alongside fs base (.dict d')) :
    Pairs fs debug base (plain next s d) (plain next' s' d') Reflags := by
  refine (pairs_imported htells hnext h).bind (tells_imported htells d).adds (fun whole => ?_) fun a b hab => ?_
  · cases whole with
    | none => exact .pure _
    | some d =>
      dsimp only
      split
      · exact (tells_entries htells d.entries).adds.bind fun _ => .pure _
      · exact (tells_overTemplate htells s _ _).adds
      · exact Adds.ask fun _ => .drop _
  · obtain ⟨d, d', rfl, rfl, h⟩ := hab
    have hkey : templateKey d' = templateKey d := by
      rw [templateKey, templateKey, h.reflagged.contains (by decide)]
    have hmem : templateKey d ∈ [Key.template, Key.base] := by
      rcases Dict.templateKey_cases d with ⟨heq, _⟩ | ⟨heq, _⟩ <;> rw [heq] <;> decide
    have hne : templateKey d ≠ Key.compress ∧ templateKey d ≠ Key.type := by
      rcases Dict.templateKey_cases d with ⟨heq, _⟩ | ⟨heq, _⟩ <;> rw [heq] <;> decide
    dsimp only
    rw [hkey]
    rcases rel_cases (h.get? hne.1) with ⟨hget, hget'⟩ | ⟨v, v', hget, hget', hv⟩
    · rw [hget, hget']
      refine (pairs_entries htells hnext hflag hflag' h.entries).bind (tells_entries htells d.entries).adds
        (fun _ => .pure _) fun done done' hdone => .pure ?_
      exact ⟨_, _, rfl, rfl, .dict hdone.1 (h.reflagged.balanced.of_sameFlag hdone.2.1 hdone.2.2)⟩
    · rw [hget, hget']
      split
      · rename_i heq
        cases heq
      · rename_i template heq
        cases heq
        have hreflagged := hv.reflagged
        cases hreflagged
        have hname := h.left.here.templates _ hmem template (Value.hasField_of_get? hget)
        exact pairs_overTemplate hnext hs hname (h.erase hne.2)
      · exact .ask fun _ _ _ => .drop (by trivial)

theorem pairs_dict (hflag : LeavesFlags fs next) (hflag' : KeepsFlags fs next')
    (hs : Settings fs base s s') {d d' : Dict Value} (h : (Value.dict d).Alongside fs base (.dict d')) :
    Pairs fs debug base (dict next s d) (dict next' s' d') Reflags := by
  unfold dict
  have hname : Key.values ≠ Key.compress := by decide
  rcases rel_cases (h.get? hname) with ⟨hget, hget'⟩ | ⟨v, v', hget, hget', hv⟩
  · rw [hget, hget']
    exact pairs_plain htells hnext hflag hflag' hs h
  · rw [hget, hget']
    rcases rel_cases hv.reflagged.dict? with ⟨hnone, _⟩ | ⟨values, values', hvalues, hvalues', _⟩
    · dsimp only
      rw [hnone]
      exact .ask fun _ _ _ => .drop (by trivial)
    · dsimp only
      rw [hvalues, hvalues']
      obtain rfl := hv.left.of.eq_dict hvalues
      obtain rfl := hv.right.of.eq_dict hvalues'
      refine .ask fun e e' he => .inNewScope (he.head.merge hv) ?_
      exact pairs_plain htells hnext hflag hflag' hs (h.erase (by decide))

omit htells in
theorem pairs_named (hs : Settings fs base s s') {text : String} (h : (Value.string text).Given fs base) :
    Pairs fs debug base (named next s text) (named next' s' text) Reflags := by
  unfold named
  cases hreserved : after? Key.reserved text with
  | some name =>
    have hname := h.here.texts text name .self hreserved
    refine .ask fun e e' he => ?_
    rcases rel_cases (he.inScope? hname) with ⟨hscope, hscope'⟩ | ⟨v, v', hscope, hscope', hv⟩
    · rw [hscope]
      exact .drop (by trivial)
    · rw [hscope, hscope']
      exact (hnext _ _ (.value hv)).mono fun a b hab => hab.1
  | none =>
    dsimp only
    cases hlocalized : after? Key.localized text with
    | some name =>
      dsimp only
      rw [hs.localize]
      split
      · rename_i v hlocal
        obtain ⟨hv, hplain⟩ := hs.localized name v hlocal
        exact .pure ⟨v, v, rfl, rfl, .refl (Value.Of.json hv) hplain⟩
      · exact .drop (by trivial)
    | none => exact .pure ⟨_, _, rfl, rfl, .atom _⟩

theorem pairs_value (hs : Settings fs base s s') {v v' : Value} (h : v.Alongside fs base v') :
    Pairs fs debug base (value next s v) (value next' s' v') Reflags := by
  cases h.reflagged with
  | atom a =>
    have hinside (next : Job → Expanding (Option Value)) : inside next (.atom a) = pure (some (.atom a)) := rfl
    rw [value, value, hinside, hinside, pure_bind, pure_bind]
    cases a with
    | string text => exact pairs_named hnext hs h.left
    | _ => exact .pure ⟨_, _, rfl, rfl, .atom _⟩
  | @list vs ws hitems =>
    have hinside (next : Job → Expanding (Option Value)) (vs : List Value) :
        inside next (.list vs) = items next 0 vs >>= fun done => pure (some (.list done)) := rfl
    rw [value, value, hinside, hinside, bind_assoc, bind_assoc]
    exact (pairs_items htells hnext h.items 0).bind (tells_items htells vs 0).adds (fun _ => .pure _)
      fun done done' hdone => .pure ⟨_, _, rfl, rfl, .list hdone⟩
  | dict _ _ =>
    refine (hnext _ _ (.dict h)).bind (htells _).adds (fun answer => ?_) fun a b hab => ?_
    · split
      · exact (tells_named (P := True) htells s _).adds
      · exact .pure _
    · obtain ⟨⟨w, w', rfl, rfl, hanswers⟩, hw, _⟩ := hab
      cases hanswers with
      | atom a =>
        cases a with
        | string text =>
          dsimp only
          rw [named_of_expanded next s (hw _ rfl), named_of_expanded next' s' (hw _ rfl)]
          exact .pure ⟨_, _, rfl, rfl, .atom _⟩
        | _ => exact .pure ⟨_, _, rfl, rfl, .atom _⟩
      | list hitems => exact .pure ⟨_, _, rfl, rfl, .list hitems⟩
      | dict hentries hbalanced => exact .pure ⟨_, _, rfl, rfl, .dict hentries hbalanced⟩

end
end Expanding

open Expanding

theorem Atom.Unmarked.settled {a : Atom} (h : a.Unmarked Key.marks) (n : Nat) : (Value.atom a).Settled (n + 1) := by
  refine .atom ?_
  rintro text rfl
  exact ⟨h Key.reserved (by decide), h Key.localized (by decide)⟩

/-- With one unit of fuel more, and in settings that are the same but for flags, jobs that are the same but for flags
are answered in the same way but for flags. -/
theorem pairs_expandTo {s s' : Setting} (hs : Settings fs base s s') (n : Nat) {job job' : Job}
    (h : job.Alongside fs base job') : Pairs fs debug base (expandTo s n job) (expandTo s' (n + 1) job')
      fun a b => Reflags a b ∧ Expanded a ∧ Expanded b := by
  have hlocalize (name : String) : Expanded (s.localize name) := fun v hv => (hs.localized name v hv).1
  have hlocalize' (name : String) : Expanded (s'.localize name) := hs.localize ▸ hlocalize name
  induction n generalizing job job' with
  | zero => exact fun _ _ _ _ _ hrun => nomatch hrun
  | succ n ih =>
    have htells (job : Job) := @tells_expandTo fs [] s n job
    have hflag : LeavesFlags fs (expandTo s n) := by
      intro a ha e w e₁ hrun
      cases n with
      | zero => cases hrun
      | succ n =>
        rw [eval_expandTo_of_settled (ha.settled n)] at hrun
        cases hrun
        exact ⟨rfl, rfl⟩
    have hflag' : KeepsFlags fs (expandTo s' (n + 1)) := fun a ha => eval_expandTo_of_settled (ha.settled n)
    cases h with
    | dict h =>
      refine Pairs.expanded (pairs_dict htells (fun _ _ => ih) hflag hflag' hs h) ?_ ?_
      · exact @yields_expandTo _ _ _ s hs.root.left.of hlocalize (n + 1) (.dict _) h.left.of
      · exact @yields_expandTo _ _ _ s' hs.root.right.of hlocalize' (n + 2) (.dict _) h.right.of
    | value h =>
      refine Pairs.expanded (pairs_value htells (fun _ _ => ih) hs h) ?_ ?_
      · exact @yields_expandTo _ _ _ s hs.root.left.of hlocalize (n + 1) (.value _) h.left.of
      · exact @yields_expandTo _ _ _ s' hs.root.right.of hlocalize' (n + 2) (.value _) h.right.of

/-- Where an expansion reports nothing, one of a description that is the same but for flags makes a dictionary that is
the same but for flags, and gathers the same. -/
theorem Dict.expand_alongside {d d' : Dict Value} (h : (Value.dict d).Alongside fs base (.dict d'))
    {localize : String → Option Value}
    (hlocalize : ∀ name v, localize name = some v → v.Of .expanded ∧ v.PlainlyFlagged) {context context' : Context}
    (hcontext : context.Consulted fs debug base) {n : Nat} {visited : Visited}
    (hrun : (d.expand n localize context).run.eval fs = some (visited, context')) (hissues : visited.issues = []) :
    ∃ visited', (d'.expand (n + 1) localize context).run.eval fs = some (visited', context') ∧ visited'.issues = [] ∧
      Option.Rel (fun e e' => (Value.dict e).Reflagged (.dict e')) visited.dict visited'.dict := by
  rw [eval_expand] at hrun
  obtain ⟨⟨a, e₁⟩, hanswer, hmade⟩ := Option.map_eq_some_iff.mp hrun
  cases hmade
  have hsettings : Settings fs base ⟨d, localize⟩ ⟨d', localize⟩ := ⟨h, rfl, hlocalize⟩
  have hstart : (Expansion.start context).Alongside fs debug base (.start context) := .intro hcontext .nil
  obtain ⟨b, e₁', hrun', he₁, ⟨v, w, rfl, rfl, hreflagged⟩, hv, hw⟩ :=
    pairs_expandTo hsettings n (.dict h) _ _ hstart a e₁ hanswer hissues
  obtain ⟨_, _⟩ := he₁
  refine ⟨⟨w.dictValue?.bind Value.dict?, e₁.issues⟩, ?_, hissues, ?_⟩
  · rw [eval_expand, hrun']
    rfl
  · have hgiven : v.Given fs base := .of_expanded (hv v rfl) hreflagged.plainlyFlagged
    have hgiven' : w.Given fs base := .of_expanded (hw w rfl) hreflagged.flip.plainlyFlagged
    have hanswers : v.Alongside fs base w := ⟨hreflagged, hgiven, hgiven'⟩
    change Option.Rel _ (v.dictValue?.bind Value.dict?) (w.dictValue?.bind Value.dict?)
    rcases rel_cases hanswers.opened with ⟨hnone, hnone'⟩ | ⟨e, e', he, he', hrel⟩
    · rw [hnone, hnone']
      exact .none
    · rw [he, he']
      exact .some hrel.reflagged

end AssetPack
