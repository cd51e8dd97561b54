import AssetPack.Proofs.Description.Compiled
import AssetPack.Proofs.Description.Reordered

/-!
# What an expansion leaves behind

An expansion goes into scopes, templates, imports and further down, and comes back from each, whether there is an answer
or not. So behind a job all is as it was before, but for the issues that were added and the files. What is looked at is
then the same for every entry of a dictionary and every item of a list: each comes to what it comes to without the
others, and one that fails takes nothing from its neighbours.
-/
namespace AssetPack
variable {fs : Files}

/-! ## What is left behind -/

theorem Context.filesFor_subset_addSettled (c : Context) (owner : Option String) (path : Path) (name : String) :
    c.filesFor name ⊆ (c.addSettled owner path).filesFor name := by
  cases owner with
  | none => exact List.Subset.refl _
  | some entry =>
    rw [addSettled, filesFor, filesFor]
    dsimp only
    split
    · exact List.Subset.refl _
    · rw [Dict.get?_set]
      split
      · rename_i heq
        rw [heq]
        exact Path.subset_insertSorted _ _
      · exact List.Subset.refl _

namespace Expansion

/-- More is kept: issues behind those before, and files. -/
structure Kept.Grows (k k' : Kept) : Prop where
  issues : k.1 <+: k'.1
  files : k.2.files ⊆ k'.2.files
  filesFor : ∀ name, k.2.filesFor name ⊆ k'.2.filesFor name
  others : k'.2 = { k.2 with files := k'.2.files, entryFiles := k'.2.entryFiles }

namespace Kept.Grows
variable {k k' k'' : Kept}

theorem refl (k : Kept) : k.Grows k := ⟨List.prefix_rfl, List.Subset.refl _, fun _ => List.Subset.refl _, rfl⟩

theorem trans (h : k.Grows k') (h' : k'.Grows k'') : k.Grows k'' := by
  refine ⟨h.issues.trans h'.issues, List.Subset.trans h.files h'.files,
    fun name => List.Subset.trans (h.filesFor name) (h'.filesFor name), ?_⟩
  rw [h'.others, h.others]

end Kept.Grows

/-- What is told is added. -/
theorem Kept.grows_tell (k : Kept) (t : Told) : k.Grows (k.tell fs t) := by
  cases t with
  | issue i => exact ⟨List.prefix_append _ _, List.Subset.refl _, fun _ => List.Subset.refl _, rfl⟩
  | file owner path =>
    have hadd : (k.2.addFile owner path).eval fs = k.2.addSettled owner ((Look.settle path).eval fs) := by
      rw [Context.addFile, Look.eval_bind, Look.eval_pure]
    rw [tell, hadd]
    exact ⟨List.prefix_rfl, Path.subset_insertSorted _ _, Context.filesFor_subset_addSettled _ owner _, rfl⟩

theorem Kept.grows_foldl (k : Kept) (ts : List Told) : k.Grows (ts.foldl (tell fs) k) := by
  induction ts generalizing k with
  | nil => exact .refl k
  | cons t ts ih => exact (k.grows_tell t).trans (ih _)

/-- An expansion is back where it was, and has added to what it keeps at most. -/
structure Restored (e e' : Expansion) : Prop where
  scopes : e'.scopes = e.scopes
  templates : e'.templates = e.templates
  imports : e'.imports = e.imports
  trail : e'.trail = e.trail
  kept : e.kept.Grows e'.kept

/-- Behind `e` both states keep the same, but that in between the first is told what `own` is told behind `e`. -/
def Besides (fs : Files) (e own e₁ e₂ : Expansion) : Prop := ∃ before between after : List Told,
  own.kept = between.foldl (Kept.tell fs) e.kept ∧
  e₁.kept = (before ++ between ++ after).foldl (Kept.tell fs) e.kept ∧
  e₂.kept = (before ++ after).foldl (Kept.tell fs) e.kept

end Expansion

namespace Expanding
variable {α β β' γ δ δ' : Type} {x : Expanding α}

/-! ## What is answered and told depends on what is around only -/

/-- What the part answers and tells depends on nothing but what is around it. -/
def Reckoned (fs : Files) (x : Expanding α) : Prop := ∀ e, ∃ r, (Telling.expanding fs).Gives x e r

namespace Reckoned

theorem pure (a : α) : Reckoned fs (Pure.pure a) := fun _ => ⟨_, Telling.gives_pure a⟩

theorem bind {f : α → Expanding β} (hx : Reckoned fs x) (hf : ∀ a, Reckoned fs (f a)) : Reckoned fs (x >>= f) := by
  intro e
  obtain ⟨r, hr⟩ := hx e
  cases r with
  | none => exact ⟨none, Telling.gives_bind_none f hr⟩
  | some p =>
    obtain ⟨q, hq⟩ := hf p.1 e
    exact ⟨_, Telling.gives_bind hr hq⟩

theorem drop (i : Issue) : Reckoned fs (Expanding.drop i : Expanding (Option α)) := fun e => ⟨_, gives_drop i e⟩

theorem addFile {path : Path} (hpath : fs.Found path) : Reckoned fs (Expanding.addFile path) :=
  fun e => ⟨_, gives_addFile hpath e⟩

theorem look_bind {q : Look β} {f : β → Expanding α} (hf : Reckoned fs (f (q.eval fs))) :
    Reckoned fs (liftM q >>= f) := fun e => (hf e).imp fun _ => gives_look_bind q

theorem ask {f : Expansion → Expanding α} (hsame : ∀ s, f s = f s.around) (hf : ∀ e, Reckoned fs (f e)) :
    Reckoned fs (get >>= f) := fun e => (hf e e).imp fun _ => gives_ask hsame

theorem dropHere (issue : String → Issue) :
    Reckoned fs (do Expanding.drop (issue (← get).place) : Expanding (Option α)) :=
  .ask (fun _ => rfl) fun _ => .drop _

theorem within (step : Step) (hx : Reckoned fs x) : Reckoned fs (Expanding.within step x) :=
  fun _ => (hx _).imp fun _ => gives_within step

theorem inTemplate (name : String) (hx : Reckoned fs x) : Reckoned fs (Expanding.inTemplate name x) :=
  fun _ => (hx _).imp fun _ => gives_inTemplate name

theorem inImport (path : Path) (hx : Reckoned fs x) : Reckoned fs (Expanding.inImport path x) :=
  fun _ => (hx _).imp fun _ => gives_inImport path

theorem inNewScope (scope : Dict Value) (hx : Reckoned fs x) : Reckoned fs (Expanding.inNewScope scope x) :=
  fun _ => (hx _).imp fun _ => gives_inNewScope scope

end Reckoned

section
variable {next : Job → Expanding (Option Value)} (hnext : ∀ job, Reckoned fs (next job)) (s : Setting)
include hnext

theorem reckoned_entries (es : List (String × Value)) : Reckoned fs (entries next es) := by
  induction es with
  | nil => exact .pure _
  | cons entry rest ih =>
    exact ((hnext (.value entry.2)).within _).bind fun w => ih.bind fun rest => .pure _

theorem reckoned_items (vs : List Value) (index : Nat) : Reckoned fs (items next index vs) := by
  induction vs generalizing index with
  | nil => exact .pure _
  | cons v rest ih => exact ((hnext (.value v)).within _).bind fun w => (ih (index + 1)).bind fun ws => .pure _

theorem reckoned_importFile (relative : Path) : Reckoned fs (importFile next relative) := by
  refine .ask (fun _ => rfl) fun e => .look_bind (.ask (fun _ => rfl) fun e => ?_)
  split
  · exact .drop _
  · refine .look_bind ?_
    cases hread : (Look.readText _).eval fs with
    | error error => exact .drop _
    | ok text =>
      have hfound : fs.Found _ := .inr (Look.read_of_readText fs hread)
      dsimp only
      split
      · exact .drop _
      · refine (Reckoned.addFile hfound).bind fun _ => ((hnext _).inImport _).bind fun w => ?_
        split
        · exact .pure _
        · exact .drop _

theorem reckoned_imported (d : Dict Value) : Reckoned fs (imported next d) := by
  unfold imported
  split
  · exact .pure _
  · refine (reckoned_importFile hnext _).bind fun base => ?_
    split <;> exact .pure _
  · exact .dropHere _

theorem reckoned_overTemplate (template : String) (d : Dict Value) : Reckoned fs (overTemplate next s template d) := by
  refine .ask (fun _ => rfl) fun e => ?_
  split
  · exact .drop _
  · split
    · exact .drop _
    · refine .inTemplate _ ?_
      split
      · exact hnext _
      · split
        · exact hnext _
        · exact .drop _

theorem reckoned_plain (d : Dict Value) : Reckoned fs (plain next s d) := by
  refine (reckoned_imported hnext d).bind fun whole => ?_
  cases whole with
  | none => exact .pure _
  | some d =>
    dsimp only
    split
    · exact (reckoned_entries hnext _).bind fun _ => .pure _
    · exact reckoned_overTemplate hnext s _ _
    · exact .dropHere _

theorem reckoned_dict (d : Dict Value) : Reckoned fs (dict next s d) := by
  unfold dict
  split
  · exact reckoned_plain hnext s d
  · split
    · exact .dropHere _
    · exact .ask (fun _ => rfl) fun _ => (reckoned_plain hnext s _).inNewScope _

theorem reckoned_inside (v : Value) : Reckoned fs (inside next v) := by
  cases v with
  | dict d => exact hnext _
  | block b =>
    rw [inside]
    split
    · exact hnext _
    · exact .dropHere _
  | saved p =>
    rw [inside]
    split
    · split
      · exact hnext _
      · exact .dropHere _
    · exact .pure _
  | list vs => exact (reckoned_items hnext vs 0).bind fun _ => .pure _
  | atom a => exact .pure _

theorem reckoned_named (text : String) : Reckoned fs (named next s text) := by
  unfold named
  split
  · refine .ask (fun _ => rfl) fun e => ?_
    split
    · exact hnext _
    · exact .drop _
  · split
    · split
      · exact .pure _
      · exact .drop _
    · exact .pure _

theorem reckoned_value (v : Value) : Reckoned fs (value next s v) := by
  refine (reckoned_inside hnext v).bind fun answer => ?_
  split
  · exact reckoned_named hnext s _
  · exact .pure _

end

theorem reckoned_expandTo (s : Setting) (fuel : Nat) (job : Job) : Reckoned fs (expandTo s fuel job) := by
  induction fuel generalizing job with
  | zero => exact fun _ => ⟨none, fun _ _ => .none⟩
  | succ fuel ih =>
    cases job with
    | dict d => exact reckoned_dict ih s d
    | value v => exact reckoned_value ih s v

theorem rel_eval_of_gives {e : Expansion} {r : Account α Told} (h : (Telling.expanding fs).Gives x e.around r) :
    Option.Rel (fun q p => q.1 = p.1 ∧ q.2.around = e.around ∧ q.2.kept = p.2.foldl (Expansion.Kept.tell fs) e.kept)
      (eval fs x e) r := by
  have hrun := h e rfl
  change Option.Rel _ (eval fs x e) r at hrun
  generalize eval fs x e = q at hrun ⊢
  cases hrun with
  | none => exact .none
  | some hq => exact .some ⟨hq.1, hq.2.1, hq.2.2.1⟩

theorem Reckoned.exists_told (hx : Reckoned fs x) {e e' : Expansion} {a : α} (h : eval fs x e = some (a, e')) :
    ∃ ts, (Telling.expanding fs).Gives x e.around (some (a, ts)) ∧ e'.around = e.around ∧
      e'.kept = ts.foldl (Expansion.Kept.tell fs) e.kept := by
  obtain ⟨r, hr⟩ := hx e.around
  have hrun := rel_eval_of_gives hr
  rw [h] at hrun
  cases hrun with
  | @some _ p hp =>
    obtain ⟨rfl, haround, hkept⟩ := hp
    exact ⟨p.2, hr, haround, hkept⟩

/-- Behind what is told by its surroundings alone all is as it was. -/
theorem Reckoned.restored (hx : Reckoned fs x) {e e' : Expansion} {a : α} (h : eval fs x e = some (a, e')) :
    e.Restored e' := by
  obtain ⟨ts, -, haround, hkept⟩ := hx.exists_told h
  simp only [Expansion.around, Expansion.mk.injEq] at haround
  obtain ⟨hscopes, htemplates, himports, htrail, -, -⟩ := haround
  exact ⟨hscopes, htemplates, himports, htrail, hkept ▸ Expansion.Kept.grows_foldl _ ts⟩

/-! ## Neighbours -/

theorem entries_append (next : Job → Expanding (Option Value)) (front back : List (String × Value)) :
    entries next (front ++ back) = do
      let done ← entries next front
      let rest ← entries next back
      return done ++ rest := by
  induction front with
  | nil => simp [entries]
  | cons entry front ih =>
    obtain ⟨name, v⟩ := entry
    simp only [List.cons_append, entries, ih, bind_assoc, pure_bind]
    refine congrArg _ (funext fun w => congrArg _ (funext fun done => congrArg _ (funext fun rest => ?_)))
    cases w <;> rfl

theorem items_append (next : Job → Expanding (Option Value)) (front back : List Value) (index : Nat) :
    items next index (front ++ back) = do
      let done ← items next index front
      let rest ← items next (index + front.length) back
      return done ++ rest := by
  induction front generalizing index with
  | nil => simp [items]
  | cons v front ih =>
    have hindex : index + 1 + front.length = index + (front.length + 1) := by omega
    simp only [List.cons_append, items, ih, bind_assoc, pure_bind, hindex, List.length_cons]

/-- The pass over entries, apart from one among them. -/
theorem entries_amid (next : Job → Expanding (Option Value)) (front back : List (String × Value)) (name : String)
    (v : Value) : entries next (front ++ (name, v) :: back) = do
      let done ← entries next front
      let w ← within (.name name) (next (.value v))
      let rest ← entries next back
      return done ++ ((w.map (name, ·)).toList ++ rest) := by
  rw [entries_append, entries]
  simp only [bind_assoc, pure_bind]
  refine congrArg _ (funext fun done => congrArg _ (funext fun w => congrArg _ (funext fun rest => ?_)))
  cases w <;> rfl

theorem items_amid (next : Job → Expanding (Option Value)) (front back : List Value) (v : Value) :
    items next 0 (front ++ v :: back) = do
      let done ← items next 0 front
      let w ← within (.index front.length) (next (.value v))
      let rest ← items next (front.length + 1) back
      return done ++ w.getD .null :: rest := by
  rw [items_append, items, Nat.zero_add]
  simp only [bind_assoc, pure_bind]

/-- Null is left as it is, and tells nothing. -/
theorem gives_null (s : Setting) (fuel : Nat) (e : Expansion) :
    (Telling.expanding fs).Gives (expandTo s (fuel + 1) (.value .null)) e (some (some .null, [])) := by
  have hrun : expandTo s (fuel + 1) (.value .null) = pure (some .null) := by
    have hinside : inside (expandTo s fuel) .null = pure (some .null) := rfl
    rw [expandTo, value, hinside, pure_bind]
  rw [hrun]
  exact Telling.gives_pure _

section
variable {y : Expanding β} {y' : Expanding β'} {z : Expanding γ} {e own : Expansion} {b : β} {b' : β'}

/-- The account of a part between two others. -/
theorem gives_amid {r : Account α Told} {q : Account γ Told} {ts : List Told}
    (hx : (Telling.expanding fs).Gives x e r) (hy : (Telling.expanding fs).Gives y e (some (b, ts)))
    (hz : (Telling.expanding fs).Gives z e q) (f : α → β → γ → δ) :
    (Telling.expanding fs).Gives (do let a ← x; let b ← y; let c ← z; return f a b c) e
      (r.bind fun before => q.map fun after => (f before.1 b after.1, before.2 ++ ts ++ after.2)) := by
  cases r with
  | none => exact Telling.gives_bind_none _ hx
  | some before =>
    have hbehind : (Telling.expanding fs).Gives (do let c ← z; return f before.1 b c) e
        (q.map fun after => (f before.1 b after.1, after.2)) := by
      cases q with
      | none => exact Telling.gives_bind_none _ hz
      | some after =>
        simpa using Telling.gives_bind (f := fun c => pure (f before.1 b c)) hz (Telling.gives_pure _)
    have hown := Telling.gives_bind (f := fun b => do let c ← z; return f before.1 b c) hy hbehind
    have hall := Telling.gives_bind (f := fun a => do let b ← y; let c ← z; return f a b c) hx hown
    cases q <;> simpa using hall

/-- Where a part stands in place of one that tells nothing and makes no difference to the answer, the parts in front of
it and behind it tell the same. -/
theorem rel_eval_amid (hx : Reckoned fs x) (hy : Reckoned fs y) (hz : Reckoned fs z)
    (hrun : eval fs y e = some (b, own)) (hy' : (Telling.expanding fs).Gives y' e.around (some (b', [])))
    {f : α → β → γ → δ} {g : α → β' → γ → δ} (hsame : ∀ a c, f a b c = g a b' c) :
    Option.Rel (fun r r' => r.1 = r'.1 ∧ e.Besides fs own r.2 r'.2)
      (eval fs (do let a ← x; let b ← y; let c ← z; return f a b c) e)
      (eval fs (do let a ← x; let b ← y'; let c ← z; return g a b c) e) := by
  obtain ⟨r, hr⟩ := hx e.around
  obtain ⟨q, hq⟩ := hz e.around
  obtain ⟨between, hy, -, hkept⟩ := hy.exists_told hrun
  have hleft := rel_eval_of_gives (gives_amid hr hy hq f)
  have hright := rel_eval_of_gives (gives_amid hr hy' hq g)
  generalize eval fs _ e = left at hleft ⊢
  generalize eval fs _ e = right at hright ⊢
  cases r with
  | none =>
    cases hleft
    cases hright
    exact .none
  | some before =>
    cases q with
    | none =>
      cases hleft
      cases hright
      exact .none
    | some after =>
      cases hleft with
      | some hleft =>
        cases hright with
        | some hright =>
          obtain ⟨ha, -, hkept₁⟩ := hleft
          obtain ⟨ha', -, hkept₂⟩ := hright
          rw [List.append_nil] at hkept₂
          exact .some ⟨ha.trans ((hsame _ _).trans ha'.symm), before.2, between, after.2, hkept, hkept₁, hkept₂⟩

end

section
variable {next : Job → Expanding (Option Value)} {e own : Expansion} {v : Value}
variable (hnext : ∀ job, Reckoned fs (next job))
include hnext

/-- An entry that fails leaves its neighbours as they are without it. -/
theorem rel_entries_of_lost {name : String} (front back : List (String × Value))
    (hrun : eval fs (within (.name name) (next (.value v))) e = some (none, own)) :
    Option.Rel (fun r r' => r.1 = r'.1 ∧ e.Besides fs own r.2 r'.2)
      (eval fs (entries next (front ++ (name, v) :: back)) e) (eval fs (entries next (front ++ back)) e) := by
  -- without the entry there is nothing to be done in its place
  rw [entries_amid, entries_append]
  exact rel_eval_amid (reckoned_entries hnext front) ((hnext _).within _) (reckoned_entries hnext back) hrun
    (Telling.gives_pure ()) (f := fun done w rest => done ++ ((w.map (name, ·)).toList ++ rest))
    (g := fun done _ rest => done ++ rest) fun _ _ => rfl

/-- An item that fails leaves its neighbours as they are with null in its place. -/
theorem rel_items_of_lost (hnull : ∀ e, (Telling.expanding fs).Gives (next (.value .null)) e (some (some .null, [])))
    (front back : List Value) (hrun : eval fs (within (.index front.length) (next (.value v))) e = some (none, own)) :
    Option.Rel (fun r r' => r.1 = r'.1 ∧ e.Besides fs own r.2 r'.2)
      (eval fs (items next 0 (front ++ v :: back)) e) (eval fs (items next 0 (front ++ .null :: back)) e) := by
  rw [items_amid, items_amid]
  exact rel_eval_amid (reckoned_items hnext front 0) ((hnext _).within _) (reckoned_items hnext back _) hrun
    (gives_within _ (hnull _)) fun _ _ => rfl

end
end Expanding

section
open Expanding

/-- Behind a job all is as it was, whether it is answered or not, but for issues and files that were added. So an entry
that fails leaves its neighbours as they are without it, and an item that fails leaves them as they are with null in its
place: they come to the same, and tell the same. -/
theorem restored_expandTo (fs : Files) (s : Setting) (fuel : Nat) (e : Expansion) :
    (∀ job answer e', eval fs (expandTo s fuel job) e = some (answer, e') → e.Restored e') ∧
    (∀ front name v back own, eval fs (within (.name name) (expandTo s fuel (.value v))) e = some (none, own) →
      Option.Rel (fun r r' => r.1 = r'.1 ∧ e.Besides fs own r.2 r'.2)
        (eval fs (entries (expandTo s fuel) (front ++ (name, v) :: back)) e)
        (eval fs (entries (expandTo s fuel) (front ++ back)) e)) ∧
    ∀ front v back own,
      eval fs (within (.index front.length) (expandTo s fuel (.value v))) e = some (none, own) →
      Option.Rel (fun r r' => r.1 = r'.1 ∧ e.Besides fs own r.2 r'.2)
        (eval fs (items (expandTo s fuel) 0 (front ++ v :: back)) e)
        (eval fs (items (expandTo s fuel) 0 (front ++ .null :: back)) e) := by
  have hnext (job : Job) : Reckoned fs (expandTo s fuel job) := reckoned_expandTo s fuel job
  refine ⟨fun job answer e' hrun => (hnext job).restored hrun,
    fun front name v back own hrun => rel_entries_of_lost hnext front back hrun,
    fun front v back own hrun => ?_⟩
  obtain _ | fuel := fuel
  · -- without fuel nothing is answered
    rw [eval_within] at hrun
    cases hrun
  · exact rel_items_of_lost hnext (gives_null s fuel) front back hrun

/-- A template that is set over itself. -/
def selfTemplate : Setting := ⟨⟨[("t", .dict ⟨[("res:base", .string "t")]⟩)]⟩, fun _ => none⟩

/-- A dictionary with a scope of its own that is set over such a template. -/
def lostEntry : Value :=
  .dict ⟨[("res:values", .dict ⟨[("x", .atom (.int 2))]⟩), ("res:template", .string "t")]⟩

/-- In an entry, with one value in scope. -/
def scopedState : Expansion :=
  { Expansion.start (.start "" false) with scopes := [⟨[("x", .atom (.int 1))]⟩], trail := [.name "top"] }

/-- The entry fails within a scope and a template, and the text behind it stands for what the text in front does. -/
theorem restored_expandTo_templateCycle :
    scopedState.Restored { scopedState with issues := [.templateCycle ["t"] "t"] } ∧
    (∃ e', eval noFiles (entries (expandTo selfTemplate 6)
        [("a", .string "res:x"), ("b", lostEntry), ("c", .string "res:x")]) scopedState =
        some ([("a", .atom (.int 1)), ("c", .atom (.int 1))], e') ∧
      scopedState.Besides noFiles { scopedState with issues := [.templateCycle ["t"] "t"] } e' scopedState) ∧
    ∃ e', eval noFiles (items (expandTo selfTemplate 6) 0 [.string "res:x", lostEntry, .string "res:x"]) scopedState =
        some ([.atom (.int 1), .null, .atom (.int 1)], e') ∧
      scopedState.Besides noFiles { scopedState with issues := [.templateCycle ["t"] "t"] } e' scopedState := by
  obtain ⟨hrestored, hentries, hitems⟩ := restored_expandTo noFiles selfTemplate 6 scopedState
  refine ⟨hrestored (.value lostEntry) none _ rfl, ?_, ?_⟩
  · have hwithout : eval noFiles (entries (expandTo selfTemplate 6) [("a", .string "res:x"), ("c", .string "res:x")])
        scopedState = some ([("a", .atom (.int 1)), ("c", .atom (.int 1))], scopedState) := rfl
    obtain ⟨-, hnone⟩ | ⟨r, _, hr, hr', hsame, hbesides⟩ :=
      rel_cases (hentries [("a", .string "res:x")] "b" lostEntry [("c", .string "res:x")] _ rfl)
    · cases hwithout.symm.trans hnone
    · cases hwithout.symm.trans hr'
      exact ⟨r.2, hr.trans (congrArg some (Prod.ext hsame rfl)), hbesides⟩
  · have hwithout : eval noFiles (items (expandTo selfTemplate 6) 0 [.string "res:x", .null, .string "res:x"])
        scopedState = some ([.atom (.int 1), .null, .atom (.int 1)], scopedState) := rfl
    obtain ⟨-, hnone⟩ | ⟨r, _, hr, hr', hsame, hbesides⟩ :=
      rel_cases (hitems [.string "res:x"] lostEntry [.string "res:x"] _ rfl)
    · cases hwithout.symm.trans hnone
    · cases hwithout.symm.trans hr'
      exact ⟨r.2, hr.trans (congrArg some (Prod.ext hsame rfl)), hbesides⟩

end

end AssetPack
