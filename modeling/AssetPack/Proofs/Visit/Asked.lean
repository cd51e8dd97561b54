import AssetPack.Proofs.Files.Systems
import AssetPack.Proofs.Visit.Followed

/-!
# What a visit asks

A visit asks nothing but what its hooks ask. If it reports nothing, then none of its hooks reported anything, and
what they asked is known from there. What is assured of the calls of its hooks is assured of the visit.
-/
namespace AssetPack

/-! ## Where nothing is reported -/

section
variable {S α β : Type} {fs : Files} {J : S → Prop} {G : Question → Prop}

theorem Look.run_liftM_bind (y : Look α) (f : α → StateT S Look β) (s : S) :
    (liftM y >>= f).run s = y >>= fun a => (f a).run s := by
  have hlift : (liftM y >>= f).run s = (y >>= fun a => pure (a, s)) >>= fun r => (f r.1).run r.2 := rfl
  rw [hlift, bind_assoc]
  simp only [pure_bind]

/-- If the call of a hook reports nothing and leaves a state as stated, then it was so before, and what is asked is
as stated. -/
def Reply.Asks (fs : Files) (J : S → Prop) (G : Question → Prop) (x : StateT S Look Reply) : Prop :=
  ∀ s reply s', (Answers.files fs).May (x.run s) (reply, s') → Issue.audible reply.issues = [] → J s' →
    J s ∧ ∀ q ∈ (x.run s).asked fs, G q

/-- A call that answers without a look at anything. -/
theorem Reply.asks_pure (reply : Reply) : Reply.Asks fs J G (pure reply) := by
  intro s reply' s' hmay _ hJ
  cases (Answers.files fs).eq_of_pure hmay
  exact ⟨hJ, fun q hq => nomatch hq⟩

namespace Visiting

/-- The same for a part of a visit, if no issue is there at its end. -/
def Asks (fs : Files) (J : S → Prop) (G : Question → Prop) (x : Visiting (StateT S Look) α) : Prop :=
  ∀ issues s a issues' s', (Answers.files fs).May ((x.run issues).run s) ((a, issues'), s') → issues' = [] → J s' →
    issues = [] ∧ J s ∧ ∀ q ∈ ((x.run issues).run s).asked fs, G q

namespace Asks
variable {x : Visiting (StateT S Look) α}

theorem pure (a : α) : Asks fs J G (Pure.pure a : Visiting (StateT S Look) α) := by
  intro issues s b issues' s' hmay hissues hJ
  cases (Answers.files fs).eq_of_pure hmay
  exact ⟨hissues, hJ, fun q hq => nomatch hq⟩

theorem bind {f : α → Visiting (StateT S Look) β} (hx : Asks fs J G x) (hf : ∀ a, Asks fs J G (f a)) :
    Asks fs J G (x >>= f) := by
  intro issues s b issues'' s'' hmay hissues hJ
  rw [StateT.run_bind, StateT.run_bind] at hmay ⊢
  obtain ⟨⟨⟨a, issues'⟩, s'⟩, hx', hf'⟩ := (Answers.files fs).of_bind hmay
  obtain ⟨hissues', hJ', hrest⟩ := hf a _ _ _ _ _ hf' hissues hJ
  obtain ⟨hissues₀, hJ₀, hfirst⟩ := hx _ _ _ _ _ hx' hissues' hJ'
  refine ⟨hissues₀, hJ₀, fun q hq => ?_⟩
  rw [Look.asked_bind, ← show ((a, issues'), s') = _ from hx'] at hq
  exact (List.mem_append.mp hq).elim (hfirst q) (hrest q)

/-- As a relation of a visit to itself. -/
def relation (fs : Files) (J : S → Prop) (G : Question → Prop) : Relation (StateT S Look) (StateT S Look) :=
  ⟨fun x _ => Asks fs J G x, pure, bind⟩

end Asks

theorem asks_call {hook : Spot → α → StateT S Look Reply} (h : ∀ spot a, Reply.Asks fs J G (hook spot a))
    (trail : List Step) (a : α) : Asks fs J G (call hook trail a) := by
  have hrun (issues : List Issue) (s : S) : ((call hook trail a).run issues).run s =
      ((hook ⟨trail, issues⟩ a).run s >>= fun r => pure ((r.1, issues), r.2)) >>= fun r =>
        pure ((r.1.1.value, r.1.2 ++ Issue.audible r.1.1.issues), r.2) := rfl
  intro issues s v issues' s' hmay hissues hJ
  rw [hrun] at hmay ⊢
  obtain ⟨⟨⟨reply, _⟩, s₁⟩, hhook, hdone⟩ := (Answers.files fs).of_bind hmay
  cases (Answers.files fs).eq_of_pure hdone
  obtain ⟨⟨reply', s₂⟩, hreply, hlift⟩ := (Answers.files fs).of_bind hhook
  cases (Answers.files fs).eq_of_pure hlift
  obtain ⟨hissues₀, haudible⟩ := List.append_eq_nil_iff.mp hissues
  obtain ⟨hJ₀, hasked⟩ := h ⟨trail, issues⟩ a s _ _ hreply haudible hJ
  rw [Look.asked_map, Look.asked_map]
  exact ⟨hissues₀, hJ₀, hasked⟩

/-- After a report with words there is an issue. -/
theorem asks_report {i : Issue} (hi : i.Own) :
    Asks fs J G (report i : Visiting (StateT S Look) Unit) := by
  intro issues s a issues' s' hmay hissues _
  cases (Answers.files fs).eq_of_pure hmay
  rw [Issue.audible_of_own hi] at hissues
  exact absurd hissues (List.append_ne_nil_of_right_ne_nil _ (List.cons_ne_nil i []))

end Visiting

/-- Hooks all of whose calls ask what is stated. -/
structure Hooks.Asks (fs : Files) (J : S → Prop) (G : Question → Prop) (h : Hooks (StateT S Look)) : Prop where
  onValue : ∀ spot v, Reply.Asks fs J G (h.onValue spot v)
  onDict : ∀ spot d, Reply.Asks fs J G (h.onDict spot d)

namespace Hooks.Asks
variable {h : Hooks (StateT S Look)}

theorem relate (hh : h.Asks fs J G) : h.Relate (Visiting.Asks.relation fs J G) h :=
  ⟨fun source _ => Visiting.asks_report source.own_issue, Visiting.asks_call hh.onValue, Visiting.asks_call hh.onDict⟩

/-- The whole visit, from the root. -/
theorem visitRoot (hh : h.Asks fs J G) {d : Dict Value} {s s' : S} {visited : Visited}
    (hmay : (Answers.files fs).May ((d.visitRoot h).run s) (visited, s')) (hissues : visited.issues = [])
    (hJ : J s') : ∀ q ∈ ((d.visitRoot h).run s).asked fs, G q := by
  have hrun : (d.visitRoot h).run s = ((d.tree.visit h []).run []).run s >>= fun r =>
      pure (⟨(r.1.1.bind Value.dictValue?).bind Value.dict?, r.1.2⟩, r.2) := rfl
  rw [hrun] at hmay ⊢
  obtain ⟨⟨⟨v, issues⟩, s₁⟩, hvisit, hdone⟩ := (Answers.files fs).of_bind hmay
  cases (Answers.files fs).eq_of_pure hdone
  obtain ⟨_, _, hasked⟩ := hh.relate.visitDict [] d.tree _ _ _ _ _ hvisit hissues hJ
  rw [Look.asked_map]
  exact hasked

end Hooks.Asks

/-! ### What hooks keep -/

/-- What the hooks of a visit keep true is true at its end. -/
theorem Dict.keeps_visitRoot {I : S → Prop} {h : Hooks (StateT S Look)}
    (hvalue : ∀ spot v, Keeps (Answers.files fs) I (h.onValue spot v) fun _ => True)
    (hdict : ∀ spot d, Keeps (Answers.files fs) I (h.onDict spot d) fun _ => True) (d : Dict Value) :
    Keeps (Answers.files fs) I (d.visitRoot h) fun _ => True := by
  have hreply {x : StateT S Look Reply} (hx : Keeps (Answers.files fs) I x fun _ => True) (issues : List Issue) :
      Reply.Follows (.files fs) (fun _ s t => t = s ∧ I s) issues x x := by
    rintro _ t ⟨rfl, ht⟩
    exact ⟨rfl, rfl, (hx t _ _ rfl ht).1⟩
  have hfollow : h.Follow (.files fs) (fun _ s t => t = s ∧ I s) h :=
    ⟨fun _ _ _ _ hst => hst, fun trail v issues => hreply (hvalue _ v) issues,
      fun trail e issues => hreply (hdict _ e) issues⟩
  intro s visited s' hmay hs
  obtain ⟨_, _, hafter⟩ := hfollow.visitRoot d (s := s) (t := s) ⟨rfl, hs⟩
  have hend : (Evaluation.files fs).after (d.visitRoot h) s = (visited, s') := hmay.symm
  rw [hend] at hafter
  exact ⟨hafter, trivial⟩

end

/-!
## What is assured of a visit

Properties that a computation passes on to its answer, and that hold of a sequence as soon as they hold of its parts,
hold of a visit as soon as they hold of the calls of its hooks. One of them is that a plan requests only what is
stated, whatever the answers are.
-/

section
variable {n : Type → Type} [Monad n] {S α β : Type}

/-- A property of computations that says something about their answers as well. -/
structure Assurance (n : Type → Type) [Monad n] where
  Of {α : Type} : n α → (α → Prop) → Prop
  pure {α : Type} {a : α} {Q : α → Prop} : Q a → Of (pure a) Q
  bind {α β : Type} {x : n α} {f : α → n β} {Q : α → Prop} {R : β → Prop} :
    Of x Q → (∀ a, Q a → Of (f a) R) → Of (x >>= f) R

theorem Assurance.mono [LawfulMonad n] (L : Assurance n) {x : n α} {Q R : α → Prop} (hx : L.Of x Q)
    (h : ∀ a, Q a → R a) : L.Of x R := by
  have hbind : L.Of (x >>= Pure.pure) R := L.bind hx fun a ha => L.pure (h a ha)
  rwa [bind_pure] at hbind

namespace Visiting

/-- The same for a part of a visit, from any issues. -/
def Assured (L : Assurance n) (x : Visiting n α) (Q : α → Prop) : Prop :=
  ∀ issues, L.Of (x.run issues) fun r => Q r.1

namespace Assured
variable {L : Assurance n}

theorem pure {a : α} {Q : α → Prop} (h : Q a) : Assured L (Pure.pure a : Visiting n α) Q :=
  fun _ => L.pure h

theorem bind {x : Visiting n α} {f : α → Visiting n β} {Q : α → Prop} {R : β → Prop} (hx : Assured L x Q)
    (hf : ∀ a, Q a → Assured L (f a) R) : Assured L (x >>= f) R := by
  intro issues
  rw [StateT.run_bind]
  exact L.bind (hx issues) fun r hr => hf r.1 hr r.2

theorem mono [LawfulMonad n] {x : Visiting n α} {Q R : α → Prop} (hx : Assured L x Q) (h : ∀ a, Q a → R a) :
    Assured L x R :=
  fun issues => L.mono (hx issues) fun r => h r.1

theorem report (i : Issue) : Assured L (Visiting.report i : Visiting n Unit) fun _ => True :=
  fun _ => L.pure trivial

theorem call [LawfulMonad n] {hook : Spot → α → n Reply} {trail : List Step} {a : α} {Q : Option Value → Prop}
    (h : ∀ issues, L.Of (hook ⟨trail, issues⟩ a) fun reply => Q reply.value) :
    Assured L (Visiting.call hook trail a) Q := by
  intro issues
  have hrun : (Visiting.call hook trail a).run issues = hook ⟨trail, issues⟩ a >>= fun reply =>
      Pure.pure (reply.value, issues ++ Issue.audible reply.issues) := by
    simp [Visiting.call]
  rw [hrun]
  exact L.bind (h issues) fun reply hreply => L.pure hreply

theorem visitItems {h : Hooks n} {trail : List Step} {items : List Tree}
    (hitems : ∀ t ∈ items, ∀ trail, Assured L (t.visit h trail) fun _ => True) (index : Nat) :
    Assured L (AssetPack.visitItems h trail index items) fun _ => True := by
  induction items generalizing index with
  | nil => exact .pure trivial
  | cons t rest ih =>
    obtain ⟨hfirst, hrest⟩ := List.forall_mem_cons.mp hitems
    exact (hfirst _).bind fun _ _ => (ih hrest (index + 1)).bind fun _ _ => .pure trivial

/-- What is left of entries that are visited in order. -/
theorem visitEntries {h : Hooks n} {trail : List Step} {entries : List (String × Tree)}
    {Q : String × Tree → Option Value → Prop}
    (hentries : ∀ e ∈ entries, ∀ trail, Assured L (e.2.visit h trail) (Q e)) :
    Assured L (AssetPack.visitEntries h trail entries)
      fun done => ∀ e' ∈ done, ∃ e ∈ entries, e'.1 = e.1 ∧ Q e (some e'.2) := by
  induction entries with
  | nil => exact .pure fun _ he => nomatch he
  | cons e rest ih =>
    obtain ⟨hfirst, hrest⟩ := List.forall_mem_cons.mp hentries
    refine (hfirst _).bind fun v hv => (ih hrest).bind fun done hdone => .pure ?_
    have hthere : ∀ e' ∈ done, ∃ e₀ ∈ e :: rest, e'.1 = e₀.1 ∧ Q e₀ (some e'.2) := fun e' he' =>
      (hdone e' he').imp fun _ hthere => ⟨List.mem_cons_of_mem _ hthere.1, hthere.2⟩
    cases v with
    | none => exact hthere
    | some w => exact List.forall_mem_cons.mpr ⟨⟨e, List.mem_cons_self, rfl, hv⟩, hthere⟩

end Assured
end Visiting

/-- The whole visit, from the root. -/
theorem Assurance.visitRoot {L : Assurance n} {h : Hooks n} {d : Dict Value} {Q : Option Value → Prop}
    (hvisit : Visiting.Assured L (d.tree.visit h []) Q) : L.Of (d.visitRoot h) fun _ => True :=
  L.bind (hvisit []) fun _ _ => L.pure trivial

/-! ### Whatever is answered -/

namespace Plan
variable {I : Interface} {P : I.Request → Prop} {Q R : α → Prop}

/-- Whatever the answers are, all requests are as stated, and so is what the plan ends with. -/
def Ensures (P : I.Request → Prop) (Q : α → Prop) : Plan I α → Prop
  | done a => Q a
  | ask r next => P r ∧ ∀ answer, (next answer).Ensures P Q

theorem Ensures.bind {R : β → Prop} {x : Plan I α} {f : α → Plan I β} (hx : x.Ensures P Q)
    (hf : ∀ a, Q a → (f a).Ensures P R) : (x >>= f).Ensures P R := by
  induction x with
  | done a => exact hf a hx
  | ask r next ih => exact ⟨hx.1, fun answer => ih answer (hx.2 answer)⟩

theorem Ensures.asks {x : Plan I α} (h : x.Ensures P Q) : x.Asks P := by
  induction x with
  | done a => trivial
  | ask r next ih => exact ⟨h.1, fun answer => ih answer (h.2 answer)⟩

/-- From any state of the computation. -/
def EnsuresRun (P : I.Request → Prop) (x : StateT S (Plan I) α) (Q : α → Prop) : Prop :=
  ∀ s, (x.run s).Ensures P fun r => Q r.1

def ensured (P : I.Request → Prop) : Assurance (StateT S (Plan I)) where
  Of := EnsuresRun P
  pure h _ := h
  bind hx hf s := (hx s).bind fun r hr => hf r.1 hr r.2

end Plan

end
end AssetPack
