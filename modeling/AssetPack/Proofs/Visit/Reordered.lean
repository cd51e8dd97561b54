import AssetPack.Proofs.Account
import AssetPack.Proofs.Value.Reordered
import AssetPack.Proofs.Visit.Followed

/-!
# Visits in another order

Two dictionaries that are the same but for the order of their entries can be visited with hooks that answer alike. If
what each hook answers and tells depends on what it sees only, then what is made of the two dictionaries is the same but
for the order of entries, and both visits report the same issues in some order.
-/
namespace AssetPack
variable {m : Type → Type} [Monad m] {S E V τ α : Type} {K : Telling m S E V τ} {near : E → E → Prop} {packed : Prop}

/-- The dictionaries that both may be are the same but for the order of entries. -/
abbrev Dict.Rearranged (packed : Prop) (d e : Option (Dict Value)) : Prop :=
  Option.Rel (fun d e => (Value.dict d).Reordered packed (.dict e)) d e

/-! ## The issues of a visit -/

/-- An issue or what else is told. -/
abbrev Reported (τ : Type) := Issue ⊕ τ

namespace Reported

/-- What is kept when something more is reported or told. -/
def keep (tell : V → τ → V) (k : List Issue × V) : Reported τ → List Issue × V
  | .inl i => (k.1 ++ Issue.audible [i], k.2)
  | .inr t => (k.1, tell k.2 t)

def issues (rs : List (Reported τ)) : List Issue := rs.filterMap Sum.getLeft?

def others (rs : List (Reported τ)) : List τ := rs.filterMap Sum.getRight?

theorem foldl_keep (tell : V → τ → V) (rs : List (Reported τ)) (k : List Issue × V) :
    rs.foldl (keep tell) k = (k.1 ++ Issue.audible (issues rs), (others rs).foldl tell k.2) := by
  induction rs generalizing k with
  | nil => exact Prod.ext (List.append_nil _).symm rfl
  | cons r rest ih =>
    rw [List.foldl_cons, ih]
    cases r with
    | inl i =>
      refine Prod.ext ?_ rfl
      show (k.1 ++ Issue.audible [i]) ++ Issue.audible (issues rest) = k.1 ++ Issue.audible (i :: issues rest)
      rw [List.append_assoc, ← Issue.audible_append]
      rfl
    | inr t => rfl

theorem issues_reported (is : List Issue) (ts : List τ) :
    issues (is.map .inl ++ ts.map .inr) = is ∧ others (is.map .inl ++ ts.map .inr) = ts := by
  induction is with
  | nil =>
    rw [List.map_nil, List.nil_append, issues, others]
    induction ts with
    | nil => exact ⟨rfl, rfl⟩
    | cons t rest ih => exact ⟨ih.1, congrArg (t :: ·) ih.2⟩
  | cons i rest ih => exact ⟨congrArg (i :: ·) ih.1, ih.2⟩

end Reported

/-- How the parts of a visit go from state to state. -/
def Telling.visiting (K : Telling m S E V τ) : Telling (Visiting m) (List Issue × S) E (List Issue × V) (Reported τ) where
  run x p := (K.run (x.run p.1) p.2).map fun r => (r.1.1, (r.1.2, r.2))
  run_pure a p := by
    rw [StateT.run_pure, K.run_pure]
    rfl
  run_bind x f p := by
    rw [StateT.run_bind, K.run_bind]
    cases K.run (x.run p.1) p.2 <;> rfl
  around p := K.around p.2
  view p := (p.1, K.view p.2)
  tell := Reported.keep K.tell
  fair
    | .inl _ => True
    | .inr t => K.fair t

/-- Replies with the same issues and with values in the relation `Q`. -/
structure Reply.Related (Q : Value → Value → Prop) (r r' : Reply) : Prop where
  value : Option.Rel Q r.value r'.value
  issues : r'.issues = r.issues

theorem Reply.Related.keep {Q : Value → Value → Prop} {v w : Value} (h : Q v w) :
    Reply.Related Q (.keep v) (.keep w) := ⟨.some h, rfl⟩

theorem Reply.Related.drop {Q : Value → Value → Prop} (i : Issue) : Reply.Related Q (.drop i) (.drop i) := ⟨.none, rfl⟩

namespace Visiting

theorem agree_call {Q : Value → Value → Prop} {hook hook' : Spot → α → m Reply} {trail : List Step} {a b : α}
    (hdeaf : ∀ issues, hook ⟨trail, issues⟩ a = hook ⟨trail, []⟩ a)
    (hdeaf' : ∀ issues, hook' ⟨trail, issues⟩ b = hook' ⟨trail, []⟩ b)
    (h : K.Agree near (hook ⟨trail, []⟩ a) (hook' ⟨trail, []⟩ b) (Reply.Related Q)) :
    K.visiting.Agree near (call hook trail a) (call hook' trail b) (Option.Rel Q) := by
  have hgives {hook : Spot → α → m Reply} {a : α} (hdeaf : ∀ issues, hook ⟨trail, issues⟩ a = hook ⟨trail, []⟩ a)
      {e : E} {r : Account Reply τ} (hr : K.Gives (hook ⟨trail, []⟩ a) e r) :
      K.visiting.Gives (call hook trail a) e
        (r.map fun p => (p.1.value, p.1.issues.map .inl ++ p.2.map .inr)) := by
    rintro ⟨issues, s⟩ hs
    have hrun : K.visiting.run (call hook trail a) (issues, s) = (K.run (hook ⟨trail, []⟩ a) s).map fun p =>
        (p.1.value, (issues ++ Issue.audible p.1.issues, p.2)) := by
      have hcall : (call hook trail a).run issues = (Pure.pure (issues, issues) : m _) >>= fun r =>
          (hook ⟨trail, r.1⟩ a >>= fun reply => Pure.pure (reply, r.2)) >>= fun r =>
            Pure.pure ((), r.2 ++ Issue.audible r.1.issues) >>= fun q => Pure.pure (r.1.value, q.2) := rfl
      show (K.run ((call hook trail a).run issues) s).map _ = _
      rw [hcall]
      simp only [K.run_bind, K.run_pure, Option.bind_some, hdeaf]
      cases K.run (hook ⟨trail, []⟩ a) s <;> rfl
    have hanswer := hr s hs
    rw [hrun]
    generalize K.run (hook ⟨trail, []⟩ a) s = q at hanswer ⊢
    cases hanswer with
    | none => exact .none
    | @some q p hq =>
      obtain ⟨hreply, haround, hview, hfair⟩ := hq
      refine .some ⟨congrArg Reply.value hreply, haround, ?_, ?_⟩
      · obtain ⟨hissues, hothers⟩ := Reported.issues_reported p.1.issues p.2
        refine Eq.trans ?_ (Reported.foldl_keep K.tell _ _).symm
        rw [hissues, hothers, ← hreply]
        exact Prod.ext rfl hview
      · refine List.forall_mem_append.mpr ⟨fun t ht => ?_, fun t ht => ?_⟩
        · obtain ⟨i, _, rfl⟩ := List.mem_map.mp ht
          trivial
        · obtain ⟨o, ho, rfl⟩ := List.mem_map.mp ht
          exact hfair o ho
  intro e e' he
  obtain ⟨r, r', hr, hr', hrel⟩ := h e e' he
  refine ⟨_, _, hgives hdeaf hr, hgives hdeaf' hr', ?_⟩
  cases hrel with
  | none => exact .none
  | @some p q hpq =>
    refine .some ⟨hpq.1.value, ?_⟩
    dsimp only
    rw [hpq.1.issues]
    exact (hpq.2.map _).append_left _

theorem agree_report (i : Issue) :
    K.visiting.Agree near (report i : Visiting m Unit) (report i) fun _ _ => True := by
  have hgives (e : E) : K.visiting.Gives (report i : Visiting m Unit) e (some ((), [.inl i])) := by
    rintro ⟨issues, s⟩ hs
    have hrun : K.visiting.run (report i : Visiting m Unit) (issues, s) =
        some ((), (issues ++ Issue.audible [i], s)) := by
      show (K.run (Pure.pure ((), issues ++ Issue.audible [i])) s).map _ = _
      rw [K.run_pure]
      rfl
    rw [hrun]
    exact .some ⟨rfl, hs, rfl, List.forall_mem_singleton.mpr trivial⟩
  exact fun e e' _ => ⟨_, _, hgives e, hgives e', .some ⟨trivial, .refl _⟩⟩

end Visiting

theorem visitEntries_eq (h : Hooks m) (trail : List Step) (es : List (String × Tree)) :
    visitEntries h trail es = eachEntry (fun name t => t.visit h (.name name :: trail)) es := by
  induction es with
  | nil => rfl
  | cons entry rest ih =>
    obtain ⟨name, t⟩ := entry
    rw [visitEntries, eachEntry, ih]
    refine congrArg _ (funext fun w => congrArg _ (funext fun rest => ?_))
    cases w <;> rfl

/-- The hooks do not look at the issues, and they answer alike to what is the same but for the order of entries. -/
structure Hooks.Agree (K : Telling m S E V τ) (near : E → E → Prop) (packed : Prop) (h h' : Hooks m) : Prop where
  deafValue : ∀ trail issues v, h.onValue ⟨trail, issues⟩ v = h.onValue ⟨trail, []⟩ v
  deafValue' : ∀ trail issues v, h'.onValue ⟨trail, issues⟩ v = h'.onValue ⟨trail, []⟩ v
  deafDict : ∀ trail issues d, h.onDict ⟨trail, issues⟩ d = h.onDict ⟨trail, []⟩ d
  deafDict' : ∀ trail issues d, h'.onDict ⟨trail, issues⟩ d = h'.onDict ⟨trail, []⟩ d
  onValue : ∀ trail v w, v.Reordered packed w →
    K.Agree near (h.onValue ⟨trail, []⟩ v) (h'.onValue ⟨trail, []⟩ w) (Reply.Related (Value.Reordered packed))
  onDict : ∀ trail d e, (Value.dict d).Reordered packed (.dict e) →
    K.Agree near (h.onDict ⟨trail, []⟩ d) (h'.onDict ⟨trail, []⟩ e) (Reply.Related (Value.Reordered packed))

namespace Hooks.Agree
variable {h h' : Hooks m}

theorem value (hh : h.Agree K near packed h') (trail : List Step) {v w : Value} (hvw : v.Reordered packed w) :
    K.visiting.Agree near (Visiting.call h.onValue trail v) (Visiting.call h'.onValue trail w)
      (Option.Rel (Value.Reordered packed)) :=
  Visiting.agree_call (hh.deafValue trail · v) (hh.deafValue' trail · w) (hh.onValue trail v w hvw)

theorem visitItems {trail : List Step} {vs ws : List Value}
    (hitems : List.Forall₂ (fun v w => ∀ trail, K.visiting.Agree near (v.tree.visit h trail) (w.tree.visit h' trail)
      (Option.Rel (Value.Reordered packed))) vs ws) (index : Nat) :
    K.visiting.Agree near (AssetPack.visitItems h trail index (vs.map Value.tree))
      (AssetPack.visitItems h' trail index (ws.map Value.tree)) (List.Forall₂ (Value.Reordered packed)) := by
  induction hitems generalizing index with
  | nil => exact .pure .nil
  | cons hvw _ ih =>
    refine (hvw _).bind fun x y hxy => (ih (index + 1)).bind fun done done' hdone => .pure (.cons ?_ hdone)
    cases hxy with
    | none => exact .atom _
    | some hxy => exact hxy

theorem visitEntries {trail : List Step} {d e : Dict Value}
    (hrel : d.Reordered (fun v w => ∀ trail, K.visiting.Agree near (v.tree.visit h trail) (w.tree.visit h' trail)
      (Option.Rel (Value.Reordered packed))) e) :
    K.visiting.Agree near (AssetPack.visitEntries h trail d.tree.entries) (AssetPack.visitEntries h' trail e.tree.entries)
      fun done done' => (Value.dict ⟨done⟩).Reordered packed (.dict ⟨done'⟩) := by
  have htree (d : Dict Value) : d.tree.entries = d.entries.map fun entry => (entry.1, entry.2.tree) := by
    rw [Dict.tree_eq, Dict.map]
  have hentries : Reordered (fun (entry entry' : String × Tree) => entry.1 = entry'.1 ∧
      K.visiting.Agree near (entry.2.visit h (.name entry.1 :: trail)) (entry'.2.visit h' (.name entry'.1 :: trail))
        (Option.Rel (Value.Reordered packed))) d.tree.entries e.tree.entries := by
    obtain ⟨ms, hperm, hms⟩ := hrel.reordered_entries
    rw [htree, htree]
    refine ⟨_, hperm.map _, List.forall₂_map_left_iff.mpr (List.forall₂_map_right_iff.mpr (hms.imp ?_))⟩
    rintro ⟨name, v⟩ ⟨name', w⟩ ⟨hname, hvw⟩
    obtain rfl : name = name' := hname
    exact ⟨rfl, hvw _⟩
  have hnames (d : Dict Value) : d.tree.entries.map (·.1) = d.names := by
    rw [htree, List.map_map]
    rfl
  rw [visitEntries_eq, visitEntries_eq]
  refine (Telling.Agree.eachEntry hentries).mono fun done done' hdone => .dict ?_
  refine .of_reordered_entries (hrel.distinct.sublist ?_) (hrel.distinct'.sublist ?_) hdone.1
  · exact hnames d ▸ hdone.2.1
  · exact hnames e ▸ hdone.2.2

/-- What is made of the entries, and what the hook for dictionaries makes of that. -/
theorem visit_dict (h : Hooks m) (trail : List Step) (d : Dict Value) : d.tree.visit h trail =
    AssetPack.visitEntries h trail d.tree.entries >>= fun done => Visiting.call h.onDict trail ⟨done⟩ := by
  generalize d.tree = t
  obtain ⟨entries⟩ := t
  rfl

theorem visit (hh : h.Agree K near packed h') {v w : Value} (hvw : v.Reordered False w) (trail : List Step) :
    K.visiting.Agree near (v.tree.visit h trail) (w.tree.visit h' trail) (Option.Rel (Value.Reordered packed)) := by
  induction v using Value.induction_opened generalizing w trail with
  | atom a =>
    cases hvw
    exact hh.value trail (.atom a)
  | list items ih =>
    cases hvw with
    | list hitems =>
      rw [Value.tree_list, Value.tree_list, Tree.visit, Tree.visit]
      have hvisits := (forall₂_and hitems (fun v hv => hv) fun _ hw => hw).imp fun v w hvw => ih v hvw.2.1 hvw.1
      exact (visitItems hvisits 0).bind fun done done' hdone => hh.value trail (.list hdone)
  | dict d ih =>
    cases hvw with
    | entries hd he hnames hentries =>
      rw [Value.tree_dict, Value.tree_dict, Tree.visit, Tree.visit, visit_dict, visit_dict]
      have hrel : d.Reordered (fun v w : Value => ∀ trail, K.visiting.Agree near (v.tree.visit h trail)
          (w.tree.visit h' trail) (Option.Rel (Value.Reordered packed))) _ :=
        ⟨hd, he, hnames, fun name v w hv hw => ih _ (Dict.mem_of_get? hv) (hentries name v w hv hw)⟩
      exact (visitEntries hrel).bind fun done done' hdone =>
        Visiting.agree_call (hh.deafDict trail · _) (hh.deafDict' trail · _) (hh.onDict trail _ _ hdone)
  | block b ih =>
    cases hvw
    rw [Value.tree_block]
    cases hload : b.load with
    | ok d => exact ih d hload (.refl (Block.distinct_of_load hload)) trail
    | error f => exact (Visiting.agree_report _).bind fun _ _ _ => .pure .none
  | saved p ih =>
    cases hvw with
    | saved =>
      rw [Value.tree_saved]
      split
      · rename_i hp
        cases hload : p.loadDict with
        | ok d => exact ih hp d hload (.refl (Payload.distinct_of_loadDict hload)) trail
        | error f => exact (Visiting.agree_report _).bind fun _ _ _ => .pure .none
      · exact hh.value trail (.saved p)
    | encoded hpacked _ => exact hpacked.elim

/-! ## The whole visit -/

theorem run_visitRoot (K : Telling m S E V τ) (h : Hooks m) (d : Dict Value) (s : S) : K.run (d.visitRoot h) s =
    (K.visiting.run (d.tree.visit h []) ([], s)).map fun r =>
      (⟨(r.1.bind Value.dictValue?).bind Value.dict?, r.2.1⟩, r.2.2) := by
  have hvisit : d.visitRoot h = (d.tree.visit h []).run [] >>= fun r =>
      Pure.pure ⟨(r.1.bind Value.dictValue?).bind Value.dict?, r.2⟩ := rfl
  have hrun : K.visiting.run (d.tree.visit h []) ([], s) =
      (K.run ((d.tree.visit h []).run []) s).map fun r => (r.1.1, (r.1.2, r.2)) := rfl
  rw [hvisit, K.run_bind, hrun]
  cases K.run ((d.tree.visit h []).run []) s with
  | none => rfl
  | some r =>
    rw [Option.bind_some, K.run_pure]
    rfl

/-- Hooks that keep the root make dictionaries that are the same but for the order of entries. The visits report and
tell the same in some order. -/
theorem visitRoot (hh : h.Agree K near packed h') (hroot : ∀ d, h.onDict ⟨[], []⟩ d = Pure.pure (.keep (.dict d)))
    (hroot' : ∀ d, h'.onDict ⟨[], []⟩ d = Pure.pure (.keep (.dict d))) {d e : Dict Value}
    (hd : (Value.dict d).Reordered False (.dict e)) {s s' : S} (hs : near (K.around s) (K.around s')) :
    Option.Rel (fun p q => Dict.Rearranged packed p.1.dict q.1.dict ∧ p.1.issues.Perm q.1.issues ∧
        K.around p.2 = K.around s ∧ K.around q.2 = K.around s' ∧
          ∃ ts us : List τ, ts.Perm us ∧ (∀ t ∈ ts, K.fair t) ∧ K.view p.2 = ts.foldl K.tell (K.view s) ∧
            K.view q.2 = us.foldl K.tell (K.view s'))
      (K.run (d.visitRoot h) s) (K.run (e.visitRoot h') s') := by
  have hrel : d.Reordered (fun v w => ∀ trail, K.visiting.Agree near (v.tree.visit h trail) (w.tree.visit h' trail)
      (Option.Rel (Value.Reordered packed))) e :=
    (Value.reordered_dict_iff.mp hd).mono fun v w hvw trail => hh.visit hvw trail
  have hagree : K.visiting.Agree near (d.tree.visit h []) (e.tree.visit h' [])
      (Option.Rel fun v w => ∃ d e, v = .dict d ∧ w = .dict e ∧ (Value.dict d).Reordered packed (.dict e)) := by
    rw [visit_dict, visit_dict]
    refine (visitEntries hrel).bind fun done done' hdone => ?_
    refine Visiting.agree_call (hh.deafDict [] · _) (hh.deafDict' [] · _) ?_
    rw [hroot, hroot']
    exact .pure (.keep ⟨_, _, rfl, rfl, hdone⟩)
  have hrun := hagree.run ([], s) ([], s') hs
  rw [run_visitRoot, run_visitRoot]
  generalize K.visiting.run (d.tree.visit h []) ([], s) = r at hrun ⊢
  generalize K.visiting.run (e.tree.visit h' []) ([], s') = r' at hrun ⊢
  cases hrun with
  | none => exact .none
  | @some p q hpq =>
    obtain ⟨hvalue, haround, haround', ts, us, hperm, hfair, hview, hview'⟩ := hpq
    replace hview : (p.2.1, K.view p.2.2) = ts.foldl (Reported.keep K.tell) ([], K.view s) := hview
    replace hview' : (q.2.1, K.view q.2.2) = us.foldl (Reported.keep K.tell) ([], K.view s') := hview'
    rw [Reported.foldl_keep] at hview hview'
    obtain ⟨hissues, hothers⟩ := Prod.mk.inj hview
    obtain ⟨hissues', hothers'⟩ := Prod.mk.inj hview'
    refine .some ⟨?_, ?_, haround, haround', Reported.others ts, Reported.others us, hperm.filterMap _, ?_, hothers,
      hothers'⟩
    · show Dict.Rearranged packed ((p.1.bind Value.dictValue?).bind Value.dict?)
        ((q.1.bind Value.dictValue?).bind Value.dict?)
      generalize p.1 = v at hvalue ⊢
      generalize q.1 = w at hvalue ⊢
      cases hvalue with
      | none => exact .none
      | some hvw =>
        obtain ⟨d, e, rfl, rfl, hde⟩ := hvw
        exact .some hde
    · show p.2.1.Perm q.2.1
      rw [hissues, hissues', List.nil_append, List.nil_append]
      exact (hperm.filterMap _).filter _
    · intro t ht
      obtain ⟨r, hr, hright⟩ := List.mem_filterMap.mp ht
      obtain rfl := Sum.getRight?_eq_some_iff.mp hright
      exact hfair _ hr

end Hooks.Agree
end AssetPack
