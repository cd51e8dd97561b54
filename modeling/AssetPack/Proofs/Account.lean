import AssetPack.Proofs.Dict.Reordered

/-!
# Accounts of computations

Many computations do no more to their state than to add to it: issues, files that were consulted, references. What such
a computation answers and what it adds is told by what is around it, and not by what others added before. So it does not
matter in which order the entries of a dictionary are gone through: the answers are the same, each in its place, and the
same is added in another order.
-/
namespace AssetPack
variable {m : Type → Type} [Monad m] {S E V τ α α' β β' γ γ' : Type}

/-- What a computation answers and what it adds, if it has an answer. -/
abbrev Account (α τ : Type) := Option (α × List τ)

/-- How the computations of a kind go from state to state: what they look at, and how they add to what they keep. -/
structure Telling (m : Type → Type) [Monad m] (S E V τ : Type) where
  run {α : Type} : m α → S → Option (α × S)
  run_pure {α : Type} (a : α) (s : S) : run (pure a) s = some (a, s)
  run_bind {α β : Type} (x : m α) (f : α → m β) (s : S) : run (x >>= f) s = (run x s).bind fun r => run (f r.1) r.2
  /-- what is looked at -/
  around : S → E
  /-- what is added to -/
  view : S → V
  tell : V → τ → V
  /-- what may be told -/
  fair : τ → Prop

namespace Telling
variable {K : Telling m S E V τ} {near : E → E → Prop} {e e' : E}

/-- With `e` around it, the computation has this account. -/
def Gives (K : Telling m S E V τ) (x : m α) (e : E) (r : Account α τ) : Prop :=
  ∀ s, K.around s = e →
    Option.Rel (fun q p => q.1 = p.1 ∧ K.around q.2 = e ∧ K.view q.2 = p.2.foldl K.tell (K.view s) ∧
      ∀ t ∈ p.2, K.fair t) (K.run x s) r

theorem gives_pure (a : α) : K.Gives (pure a) e (some (a, [])) := by
  intro s hs
  rw [K.run_pure]
  exact .some ⟨rfl, hs, rfl, List.forall_mem_nil _⟩

theorem gives_bind_none {x : m α} (f : α → m β) (h : K.Gives x e none) : K.Gives (x >>= f) e none := by
  intro s hs
  have hx := h s hs
  rw [K.run_bind]
  generalize K.run x s = r at hx
  cases hx
  exact .none

theorem gives_bind {x : m α} {f : α → m β} {a : α} {ts : List τ} {r : Account β τ} (hx : K.Gives x e (some (a, ts)))
    (hf : K.Gives (f a) e r) : K.Gives (x >>= f) e (r.map fun p => (p.1, ts ++ p.2)) := by
  intro s hs
  have hfirst := hx s hs
  rw [K.run_bind]
  generalize K.run x s = q at hfirst
  cases hfirst with
  | @some q _ hq =>
    obtain ⟨b, s'⟩ := q
    obtain ⟨rfl, haround, hview, hfair⟩ := hq
    have hsecond := hf s' haround
    rw [Option.bind_some]
    generalize K.run (f b) s' = q at hsecond ⊢
    cases hsecond with
    | none => exact .none
    | some hq =>
      refine .some ⟨hq.1, hq.2.1, ?_, List.forall_mem_append.mpr ⟨hfair, hq.2.2.2⟩⟩
      rw [hq.2.2.1, hview, List.foldl_append]

/-- Where what is around the two is near, both have an answer or neither has, their answers are in the relation, and
they add the same in some order. -/
def Agree (K : Telling m S E V τ) (near : E → E → Prop) (x : m α) (y : m β) (Q : α → β → Prop) : Prop :=
  ∀ e e', near e e' → ∃ r r', K.Gives x e r ∧ K.Gives y e' r' ∧
    Option.Rel (fun p q => Q p.1 q.1 ∧ p.2.Perm q.2) r r'

namespace Agree
variable {x : m α} {y : m β} {Q : α → β → Prop}

theorem pure {a : α} {b : β} (h : Q a b) : K.Agree near (Pure.pure a) (Pure.pure b) Q :=
  fun _ _ _ => ⟨_, _, gives_pure a, gives_pure b, .some ⟨h, .refl _⟩⟩

/-- Whatever is around them, the two have these answers and tell the same. -/
theorem of_gives {a : α} {b : β} {ts : List τ} (hx : ∀ e, K.Gives x e (some (a, ts)))
    (hy : ∀ e, K.Gives y e (some (b, ts))) (h : Q a b) : K.Agree near x y Q :=
  fun e e' _ => ⟨_, _, hx e, hy e', .some ⟨h, .refl _⟩⟩

theorem bind {f : α → m α'} {g : β → m β'} {Q' : α' → β' → Prop} (h : K.Agree near x y Q)
    (hnext : ∀ a b, Q a b → K.Agree near (f a) (g b) Q') : K.Agree near (x >>= f) (y >>= g) Q' := by
  intro e e' he
  obtain ⟨r, r', hx, hy, hrel⟩ := h e e' he
  cases hrel with
  | none => exact ⟨none, none, gives_bind_none f hx, gives_bind_none g hy, .none⟩
  | @some p q hpq =>
    obtain ⟨r₁, r₁', hf, hg, hrel⟩ := hnext p.1 q.1 hpq.1 e e' he
    refine ⟨_, _, gives_bind hx hf, gives_bind hy hg, ?_⟩
    cases hrel with
    | none => exact .none
    | some hrest => exact .some ⟨hrest.1, hpq.2.append hrest.2⟩

theorem mono {Q' : α → β → Prop} (h : K.Agree near x y Q) (hq : ∀ a b, Q a b → Q' a b) : K.Agree near x y Q' := by
  intro e e' he
  obtain ⟨r, r', hx, hy, hrel⟩ := h e e' he
  refine ⟨r, r', hx, hy, ?_⟩
  cases hrel with
  | none => exact .none
  | some hpq => exact .some ⟨hq _ _ hpq.1, hpq.2⟩

/-- From states whose surroundings are near, both runs have an answer or neither has, and the same is added. -/
theorem run (h : K.Agree near x y Q) (s s' : S) (hs : near (K.around s) (K.around s')) :
    Option.Rel (fun p q => Q p.1 q.1 ∧ K.around p.2 = K.around s ∧ K.around q.2 = K.around s' ∧
      ∃ ts us : List τ, ts.Perm us ∧ (∀ t ∈ ts, K.fair t) ∧ K.view p.2 = ts.foldl K.tell (K.view s) ∧
        K.view q.2 = us.foldl K.tell (K.view s')) (K.run x s) (K.run y s') := by
  obtain ⟨r, r', hx, hy, hrel⟩ := h _ _ hs
  have hrun := hx s rfl
  have hrun' := hy s' rfl
  generalize K.run x s = q at hrun ⊢
  generalize K.run y s' = q' at hrun' ⊢
  cases hrel with
  | none =>
    cases hrun
    cases hrun'
    exact .none
  | @some p p' hpq =>
    cases hrun with
    | some hp =>
      cases hrun' with
      | some hp' =>
        refine .some ⟨?_, hp.2.1, hp'.2.1, p.2, p'.2, hpq.2, hp.2.2.2, hp.2.2.1, hp'.2.2.1⟩
        rw [hp.1, hp'.1]
        exact hpq.1

/-- With the same around it a computation that agrees with itself has the same answer and adds the same. -/
theorem run_self {Q : α → α → Prop} (h : K.Agree near x x Q) {s s' : S} (hs : near (K.around s) (K.around s))
    (hsame : K.around s' = K.around s) :
    Option.Rel (fun p q => p.1 = q.1 ∧ K.around p.2 = K.around s ∧ K.around q.2 = K.around s ∧
      ∃ ts : List τ, K.view p.2 = ts.foldl K.tell (K.view s) ∧ K.view q.2 = ts.foldl K.tell (K.view s'))
        (K.run x s) (K.run x s') := by
  obtain ⟨r, _, hx, _, _⟩ := h _ _ hs
  have hrun := hx s rfl
  have hrun' := hx s' hsame
  generalize K.run x s = q at hrun ⊢
  generalize K.run x s' = q' at hrun' ⊢
  cases hrun with
  | none =>
    cases hrun'
    exact .none
  | @some _ p hp =>
    cases hrun' with
    | some hp' => exact .some ⟨hp.1.trans hp'.1.symm, hp.2.1, hp'.2.1, p.2, hp.2.2.1, hp'.2.2.1⟩

end Agree
end Telling

/-- What is told in two orders leaves the same up to `R`, if that is so for two things told. -/
theorem foldl_of_perm {R : V → V → Prop} {tell : V → τ → V} (fair : τ → Prop) (hrefl : ∀ v, R v v)
    (htrans : ∀ {u v w}, R u v → R v w → R u w) (htell : ∀ {v w} t, R v w → R (tell v t) (tell w t))
    (hswap : ∀ v t u, fair t → fair u → R (tell (tell v t) u) (tell (tell v u) t)) {ts us : List τ} (h : ts.Perm us)
    (hfair : ∀ t ∈ ts, fair t) {v w : V} (hvw : R v w) : R (ts.foldl tell v) (us.foldl tell w) := by
  have hfold (ts : List τ) {v w : V} (hvw : R v w) : R (ts.foldl tell v) (ts.foldl tell w) :=
    List.foldl_rel hvw fun t _ _ _ => htell t
  induction h generalizing v w with
  | nil => exact hvw
  | cons t _ ih => exact ih (fun u hu => hfair u (List.mem_cons_of_mem _ hu)) (htell t hvw)
  | swap t u rest =>
    obtain ⟨hu, ht⟩ := List.forall_mem_cons.mp hfair
    exact hfold rest (htrans (hswap v u t hu (ht t List.mem_cons_self)) (htell u (htell t hvw)))
  | trans h _ ih ih' =>
    exact htrans (ih hfair hvw) (ih' (fun u hu => hfair u (h.mem_iff.mpr hu)) (hrefl w))

/-! ## Entry by entry -/

/-- Go through entries in order. What has no answer is left out. -/
def eachEntry (f : String → γ → m (Option β)) : List (String × γ) → m (List (String × β))
  | [] => return []
  | (name, c) :: rest => do
    let b ← f name c
    let rest ← eachEntry f rest
    return (b.map (name, ·)).toList ++ rest

/-- What the entries of a dictionary come to, each with its own account. -/
abbrev EntryAccounts (β τ : Type) := List (String × Account (Option β) τ)

/-- The account of them all. -/
def EntryAccounts.gathered : EntryAccounts β τ → Account (List (String × β)) τ
  | [] => some ([], [])
  | (name, r) :: rest => r.bind fun p => (gathered rest).map fun q =>
      ((p.1.map (name, ·)).toList ++ q.1, p.2 ++ q.2)

namespace EntryAccounts
variable {rs us : EntryAccounts β τ}

/-- The account of the first entry before that of the others. -/
def before (name : String) (r : Account (Option β) τ) (rest : Account (List (String × β)) τ) :
    Account (List (String × β)) τ :=
  r.bind fun p => rest.map fun q => ((p.1.map (name, ·)).toList ++ q.1, p.2 ++ q.2)

theorem gathered_cons (name : String) (r : Account (Option β) τ) (rest : EntryAccounts β τ) :
    gathered ((name, r) :: rest) = before name r rest.gathered := rfl

/-- In another order the same comes out in another order. -/
def Shuffled (r r' : Account (List (String × β)) τ) : Prop :=
  Option.Rel (fun p q => p.1.Perm q.1 ∧ p.2.Perm q.2) r r'

theorem Shuffled.refl (r : Account (List (String × β)) τ) : Shuffled r r := by
  cases r with
  | none => exact .none
  | some p => exact .some ⟨.refl _, .refl _⟩

theorem Shuffled.trans {r r' r'' : Account (List (String × β)) τ} (h : Shuffled r r') (h' : Shuffled r' r'') :
    Shuffled r r'' := by
  cases h with
  | none => exact h'
  | some h =>
    cases h' with
    | some h' => exact .some ⟨h.1.trans h'.1, h.2.trans h'.2⟩

theorem Shuffled.before {r r' : Account (List (String × β)) τ} (h : Shuffled r r') (name : String)
    (first : Account (Option β) τ) : Shuffled (before name first r) (before name first r') := by
  cases first with
  | none => exact .none
  | some p =>
    cases h with
    | none => exact .none
    | some h => exact .some ⟨h.1.append_left _, h.2.append_left _⟩

theorem shuffled_swap (name name' : String) (r r' : Account (Option β) τ) (rest : Account (List (String × β)) τ) :
    Shuffled (before name r (before name' r' rest)) (before name' r' (before name r rest)) := by
  cases r with
  | none => cases r' <;> exact .none
  | some p =>
    cases r' with
    | none => exact .none
    | some p' =>
      cases rest with
      | none => exact .none
      | some q =>
        refine .some ⟨?_, ?_⟩
        · simp only [← List.append_assoc]
          exact List.perm_append_comm.append_right _
        · simp only [← List.append_assoc]
          exact List.perm_append_comm.append_right _

theorem shuffled_of_perm (h : rs.Perm us) : Shuffled rs.gathered us.gathered := by
  induction h with
  | nil => exact .refl _
  | cons r _ ih => exact ih.before r.1 r.2
  | swap r u rest => exact shuffled_swap u.1 r.1 u.2 r.2 (gathered rest)
  | trans _ _ ih ih' => exact ih.trans ih'

/-- Related accounts, entry by entry, come to related ones. -/
theorem rel_gathered {rs' : EntryAccounts β' τ} {Q : β → β' → Prop} (h : List.Forall₂ (fun r r' => r.1 = r'.1 ∧
      Option.Rel (fun p q => Option.Rel Q p.1 q.1 ∧ p.2.Perm q.2) r.2 r'.2) rs rs') :
    Option.Rel (fun p q => List.Forall₂ (fun entry entry' => entry.1 = entry'.1 ∧ Q entry.2 entry'.2) p.1 q.1 ∧
      p.2.Perm q.2) rs.gathered rs'.gathered := by
  induction h with
  | nil => exact .some ⟨.nil, .refl _⟩
  | @cons r r' rs rs' hr _ ih =>
    obtain ⟨name, r⟩ := r
    obtain ⟨name', r'⟩ := r'
    obtain ⟨hname, hrel⟩ := hr
    obtain rfl : name = name' := hname
    rw [gathered_cons, gathered_cons]
    cases hrel with
    | none => exact .none
    | @some p p' hp =>
      generalize gathered rs = rest at ih
      generalize gathered rs' = rest' at ih
      cases ih with
      | none => exact .none
      | some hrest =>
        obtain ⟨b, ts⟩ := p
        obtain ⟨b', ts'⟩ := p'
        obtain ⟨hb, hts⟩ := hp
        refine .some ⟨?_, hts.append hrest.2⟩
        cases hb with
        | none => exact hrest.1
        | some hb => exact .cons ⟨rfl, hb⟩ hrest.1

theorem names_gathered {q : List (String × β) × List τ} (h : rs.gathered = some q) :
    (q.1.map (·.1)).Sublist (rs.map (·.1)) := by
  induction rs generalizing q with
  | nil =>
    cases h
    exact List.Sublist.refl _
  | cons r rest ih =>
    obtain ⟨p, _, h⟩ := Option.bind_eq_some_iff.mp h
    obtain ⟨q', hq', rfl⟩ := Option.map_eq_some_iff.mp h
    rw [List.map_append, List.map_cons]
    cases p.1 with
    | none => exact (ih hq').cons _
    | some b => exact (ih hq').cons_cons _

end EntryAccounts

namespace Telling
variable {K : Telling m S E V τ} {near : E → E → Prop} {e : E}

theorem gives_eachEntry {f : String → γ → m (Option β)} {es : List (String × γ)} {rs : EntryAccounts β τ}
    (h : List.Forall₂ (fun entry r => entry.1 = r.1 ∧ K.Gives (f entry.1 entry.2) e r.2) es rs) :
    K.Gives (eachEntry f es) e rs.gathered := by
  induction h with
  | nil => exact gives_pure _
  | @cons entry r es rs hentry _ ih =>
    obtain ⟨hname, hfirst⟩ := hentry
    obtain ⟨name, c⟩ := entry
    obtain ⟨name', r⟩ := r
    obtain rfl : name = name' := hname
    rw [eachEntry, EntryAccounts.gathered_cons]
    cases r with
    | none => exact gives_bind_none _ hfirst
    | some p =>
      generalize EntryAccounts.gathered rs = rest at ih ⊢
      cases rest with
      | none => exact gives_bind (r := none) hfirst (gives_bind_none _ ih)
      | some q =>
        have hlast := gives_bind (f := fun rest => pure ((p.1.map (name, ·)).toList ++ rest)) ih (gives_pure _)
        have hboth := gives_bind (f := fun b => eachEntry f es >>= fun rest =>
          pure ((b.map (name, ·)).toList ++ rest)) hfirst hlast
        rwa [Option.map_some, Option.map_some, List.append_nil] at hboth

namespace Agree

/-- Entries in another order come to the same, if each comes to the same. -/
theorem eachEntry {f : String → γ → m (Option β)} {g : String → γ' → m (Option β')} {es : List (String × γ)}
    {es' : List (String × γ')} {Q : β → β' → Prop}
    (h : Reordered (fun entry entry' => entry.1 = entry'.1 ∧
      K.Agree near (f entry.1 entry.2) (g entry'.1 entry'.2) (Option.Rel Q)) es es') :
    K.Agree near (AssetPack.eachEntry f es) (AssetPack.eachEntry g es') fun done done' =>
      Reordered (fun entry entry' => entry.1 = entry'.1 ∧ Q entry.2 entry'.2) done done' ∧
        (done.map (·.1)).Sublist (es.map (·.1)) ∧ (done'.map (·.1)).Sublist (es'.map (·.1)) := by
  intro e e' he
  obtain ⟨ms, hperm, hms⟩ := h
  -- the accounts of the entries, those of `ms` and of `es'` in the same order
  have haccounts : ∃ (rs : EntryAccounts β τ) (rs' : EntryAccounts β' τ),
      List.Forall₂ (fun entry r => entry.1 = r.1 ∧ K.Gives (f entry.1 entry.2) e r.2) ms rs ∧
      List.Forall₂ (fun entry r => entry.1 = r.1 ∧ K.Gives (g entry.1 entry.2) e' r.2) es' rs' ∧
      List.Forall₂ (fun r r' => r.1 = r'.1 ∧
        Option.Rel (fun p q => Option.Rel Q p.1 q.1 ∧ p.2.Perm q.2) r.2 r'.2) rs rs' := by
    clear hperm
    induction hms with
    | nil => exact ⟨[], [], .nil, .nil, .nil⟩
    | @cons entry entry' ms es' hentry _ ih =>
      obtain ⟨hname, hagree⟩ := hentry
      obtain ⟨r, r', hr, hr', hrel⟩ := hagree e e' he
      obtain ⟨rs, rs', hrs, hrs', hrels⟩ := ih
      exact ⟨(entry.1, r) :: rs, (entry'.1, r') :: rs', .cons ⟨rfl, hr⟩ hrs, .cons ⟨rfl, hr'⟩ hrs',
        .cons ⟨hname, hrel⟩ hrels⟩
  obtain ⟨rs, rs', hrs, hrs', hrels⟩ := haccounts
  obtain ⟨us, hus, hshuffled⟩ := List.perm_comp_forall₂ hperm hrs
  refine ⟨_, _, gives_eachEntry hus, gives_eachEntry hrs', ?_⟩
  have hnames {δ δ' : Type} {R : String × δ → String × δ' → Prop} {as : List (String × δ)} {bs : List (String × δ')}
      (hab : List.Forall₂ (fun a b => a.1 = b.1 ∧ R a b) as bs) : as.map (·.1) = bs.map (·.1) := by
    induction hab with
    | nil => rfl
    | cons hab _ ih => rw [List.map_cons, List.map_cons, hab.1, ih]
  have hleft : us.map (·.1) = es.map (·.1) := (hnames hus).symm
  have hright : rs'.map (·.1) = es'.map (·.1) := (hnames hrs').symm
  have hin := EntryAccounts.shuffled_of_perm hshuffled
  have hrel := EntryAccounts.rel_gathered hrels
  cases hgathered : EntryAccounts.gathered us with
  | none =>
    rw [hgathered] at hin
    rw [eq_none_of_rel hin] at hrel
    rw [eq_none_of_rel hrel]
    exact .none
  | some p =>
    rw [hgathered] at hin
    obtain ⟨q, hq, hpq⟩ := exists_of_rel hin
    rw [hq] at hrel
    obtain ⟨p', hp', hqp'⟩ := exists_of_rel hrel
    rw [hp']
    refine .some ⟨⟨⟨q.1, hpq.1, hqp'.1⟩, ?_, ?_⟩, hpq.2.trans hqp'.2⟩
    · exact hleft ▸ EntryAccounts.names_gathered hgathered
    · exact hright ▸ EntryAccounts.names_gathered hp'

end Agree
end Telling
end AssetPack
