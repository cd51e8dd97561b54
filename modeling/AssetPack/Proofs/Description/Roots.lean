import AssetPack.Proofs.Description.Closed
import AssetPack.Proofs.Description.Finished
import AssetPack.Proofs.Visit

/-!
# Top-level resources

Loading the objects of a description makes one resource of each top-level entry that has a type, in the order of the
entries, and leaves these entries as they are. Typed dictionaries further inside are replaced at once and add none.
Every top-level dictionary whose name is not reserved gets its symbol, unless an entry before it has that.
-/
namespace AssetPack

/-!
## Visits leave everything open

A visit opens what it goes through. So what it makes of a value without a name twice has no closed blocks and no
name twice either, at no depth, if its hooks answer such values for such values. If all names are from a given range,
so are those in what it makes.
-/

section
variable {n : Type → Type} [Monad n] {A : Answers n} {S : Type} {I : S → Prop} {N : String → Prop}
  {P : Payload → Prop}

/-- An answer without closed blocks, without a name twice, and with these names and payloads only. -/
def AnswersNamed (N : String → Prop) (P : Payload → Prop) (v : Option Value) : Prop := ∃ w, v = some w ∧ w.Of (.named N P)

/-- A call upholds what it upholds wherever the premise holds. -/
theorem Reply.upholds_of_imp {x : StateT S n Reply} {p : Prop} {Q : Option Value → Prop}
    (h : p → Reply.Upholds A (fun _ => True) I True x Q) : Reply.Upholds A (fun _ => True) I p x Q :=
  fun s reply s' hmay hissues hJ => ⟨trivial, fun hI hp => (h hp s reply s' hmay hissues hJ).2 hI trivial⟩

/-- Hooks that keep an invariant, and that answer open values for open values at the places `T`,
all with the names `N` and the payloads `P` only. -/
structure Hooks.Opens (A : Answers n) (I : S → Prop) (T : List Step → Prop) (N : String → Prop)
    (P : Payload → Prop) (h : Hooks (StateT S n)) : Prop where
  onValue : ∀ trail issues v, T trail → v.Of (.named N P) →
    Reply.Upholds A (fun _ => True) I True (h.onValue ⟨trail, issues⟩ v) (AnswersNamed N P)
  onDict : ∀ trail issues d, T trail → d.Of (.named N P) →
    Reply.Upholds A (fun _ => True) I True (h.onDict ⟨trail, issues⟩ d) (AnswersNamed N P)

theorem Dict.open_of_forall₂ {d : Dict Value} (hd : d.Distinct) (hnames : ∀ name ∈ d.names, N name)
    {done : List (String × Value)}
    (h : List.Forall₂ (fun e e' => e.1 = e'.1 ∧ e'.2.Of (.named N P)) d.entries done) :
    (⟨done⟩ : Dict Value).Of (.named N P) := by
  refine Dict.of_intro ?_ fun e' he' => ?_
  · rw [Dict.Distinct, Dict.names, AssetPack.names_of_forall₂ h]
    exact hd
  · obtain ⟨e, he, hname, hof⟩ := exists_of_forall₂ h he'
    exact ⟨hnames e'.1 (hname ▸ Dict.mem_names he), hof⟩

namespace Hooks.Opens
variable {T : List Step → Prop} {h : Hooks (StateT S n)}

theorem broken (source : Source) (trail : List Step) :
    Visiting.Upholds A (fun _ => True) I True ((Tree.broken source).visit h trail) (AnswersNamed N P) :=
  (Visiting.upholds_report source.own_issue (Q := fun _ => False)).bind fun _ => .pure fun hfalse => hfalse.elim

/-- What such hooks make of a value. -/
theorem visit (hh : h.Opens A I T N P) (hP : ∀ p, p.content ≠ .dict → P p)
    (hT : ∀ step trail, T trail → T (step :: trail)) {v : Value} (hv : v.Spelled N)
    {trail : List Step} (htrail : T trail) :
    Visiting.Upholds A (fun _ => True) I True (v.tree.visit h trail) (AnswersNamed N P) := by
  induction v using Value.induction_opened generalizing trail with
  | atom a =>
    exact Visiting.upholds_call fun issues => hh.onValue trail issues (.atom a) htrail (Value.of_atom.mpr trivial)
  | list items ih =>
    rw [Value.tree_list, Tree.visit]
    have hitems : Visiting.Upholds A (fun _ => True) I True (visitItems h trail 0 (items.map Value.tree))
        (List.Forall₂ (fun _ w => w.Of (.named N P)) items) :=
      upholds_visitItems (fun v hmem index =>
        ih v hmem (Value.spelled_list.mp hv v hmem) (hT (.index index) trail htrail)) 0
    refine hitems.bind fun done => Visiting.upholds_call fun issues => Reply.upholds_of_imp fun hdone => ?_
    refine hh.onValue trail issues (.list done) htrail (Value.of_list.mpr fun w hw => ?_)
    obtain ⟨_, _, hof⟩ := exists_of_forall₂ hdone hw
    exact hof
  | dict d ih =>
    rw [Value.tree_dict, Tree.visit, Dict.tree_eq, Dict.map, Dict.visit]
    obtain ⟨hd, hnames, hinside⟩ := Value.spelled_dict.mp hv
    have hentries := upholds_visitEntries (fun _ _ w => w.Of (.named N P)) fun e he =>
      ih e he (hinside e he) (hT (.name e.1) trail htrail)
    refine hentries.bind fun done => Visiting.upholds_call fun issues => Reply.upholds_of_imp fun hdone => ?_
    exact hh.onDict trail issues ⟨done⟩ htrail (Dict.open_of_forall₂ hd hnames hdone)
  | block b ih =>
    rw [Value.tree_block]
    cases hload : b.load with
    | ok d => exact ih d hload (hv.load hload) htrail
    | error f => exact broken (.block b) trail
  | saved p ih =>
    rw [Value.tree_saved]
    split
    · rename_i hcontent
      cases hload : p.loadDict with
      | ok d => exact ih hcontent d hload (hv.loadDict hcontent hload) htrail
      | error f => exact broken (.payload p) trail
    · rename_i hcontent
      exact Visiting.upholds_call fun issues =>
        hh.onValue trail issues (.saved p) htrail (Value.of_saved.mpr (hP p hcontent))

/-- What such hooks make of a root that they keep. -/
theorem visitRoot (hh : h.Opens A I (fun _ => True) N P) (hP : ∀ p, p.content ≠ .dict → P p)
    (hroot : ∀ issues d, h.onDict ⟨[], issues⟩ d = pure (.keep (.dict d))) {d : Dict Value}
    (hd : (Value.dict d).Spelled N) {s s' : S} {visited : Visited}
    (hmay : A.May ((d.visitRoot h).run s) (visited, s')) (hissues : visited.issues = []) (hI : I s) {e : Dict Value}
    (he : visited.dict = some e) : I s' ∧ e.Of (.named N P) := by
  obtain ⟨hdistinct, hnames, hinside⟩ := Value.spelled_dict.mp hd
  have hvisit := Dict.upholds_visitRoot_of_entry (I := I) (fun _ _ w => w.Of (.named N P)) hroot
    (fun entry hentry => hh.visit hP (fun _ _ => id) (hinside entry hentry) trivial)
    hmay hissues trivial
  obtain ⟨hI', done, hdone, hforall⟩ := hvisit.2 hI
  obtain rfl : e = ⟨done⟩ := Option.some.inj (he.symm.trans hdone)
  exact ⟨hI', Dict.open_of_forall₂ hdistinct hnames hforall⟩

end Hooks.Opens

end

variable {σ : Type} {fs : Files}

/-! ## What an entry describes -/

/-- The resource that a dictionary of a built-in type describes. -/
inductive Dict.Describes (fs : Files) (d : Dict Value) : String → Resource σ → Prop
  | file {f : FileResource} : (FileResource.fromSource d).eval fs = .ok f → Describes fs d "file" f.toResource
  | dict : Describes fs d "dict" (DictResource.ofDict d).toResource

theorem Dict.describes_of_fromSource {d : Dict Value} {t : String} {f : Factory σ}
    (hf : Registry.builtin.get? t = some f) {c : Context} {w w' : σ} {r : Resource σ} {notes : List Note}
    (h : ((some r, notes), w') = ((f.fromSource d c).run w).eval fs) : d.Describes fs t r := by
  rcases List.mem_cons.mp (Dict.mem_of_get? hf) with heq | hmem
  · cases heq
    obtain ⟨⟨made, _⟩, hlook, hdone⟩ := (Answers.files fs).of_bind h
    obtain ⟨_, hmade, hlift⟩ := (Answers.files fs).of_bind hlook
    cases (Answers.files fs).eq_of_pure hlift
    cases made with
    | ok file =>
      cases (Answers.files fs).eq_of_pure hdone
      exact .file hmade.symm
    | error i => cases (Answers.files fs).eq_of_pure hdone
  · cases List.mem_singleton.mp hmem
    cases h
    exact .dict

/-- The names under which a pack keeps what a built-in resource is. -/
def Key.stored : List String := [Key.type, Key.loadListener, "data", "extension", "compress"]

/-- The dictionary that a pack keeps of a resource, before it is compressed. -/
def Resource.kept (r : Resource σ) (d : Dict Value) (t : String) : Dict Value :=
  let kept := (r.save (Dict.ofList [(Key.type, .string t)])).2
  match d.get? Key.loadListener with
  | some listener => kept.set Key.loadListener listener
  | none => kept

/-- The description asks for a compressed form. -/
def Dict.isCompressed (d : Dict Value) : Bool := (d.findAs? Key.compress .bool).getD false

/-- What a pack has in the place of the description. -/
def Resource.form (r : Resource σ) (d : Dict Value) (t : String) : Value :=
  if d.isCompressed then .saved (.ofBytes .dict (r.kept d t).encode true) else .dict (r.kept d t)

theorem Resource.form_ne_block (r : Resource σ) (d : Dict Value) (t : String) (b : Block) : r.form d t ≠ .block b := by
  rw [form]
  split <;> exact fun h => nomatch h

namespace Dict.Describes
variable {d : Dict Value} {t : String} {r : Resource σ}

theorem keptForm_eq (h : d.Describes fs t r) : keptForm d t r = some (r.form d t) := by
  have hform (r : Resource σ) (hsave : ∀ d, (r.save d).1 = true) : keptForm d t r = some (r.form d t) := by
    have hpair : r.save (Dict.ofList [(Key.type, .string t)]) =
        (true, (r.save (Dict.ofList [(Key.type, .string t)])).2) := Prod.ext (hsave _) rfl
    rw [keptForm, hpair, Resource.form, isCompressed, Resource.kept]
    dsimp only
    split <;> rfl
  cases h with
  | file _ => exact hform _ fun _ => rfl
  | dict => exact hform _ fun _ => rfl

/-- The kept dictionary has the names that a pack adds, and besides only names of the described one. -/
theorem kept_named {N : String → Prop} (h : d.Describes fs t r) (hN : ∀ name ∈ Key.stored, N name)
    (hd : d.Of (.named N)) : (r.kept d t).Of (.named N) := by
  have hstart : (Dict.ofList [(Key.type, .string t)]).Of (.named N) :=
    Dict.of_empty.set (hN Key.type (by decide)) (Value.of_atom.mpr trivial)
  have hsave : (r.save (Dict.ofList [(Key.type, .string t)])).2.Of (.named N) := by
    cases h with
    | @file f _ =>
      refine ((hstart.set (hN _ (by decide)) ?_).set (hN _ (by decide)) (Value.of_atom.mpr trivial)).set
        (hN _ (by decide)) (Value.of_atom.mpr trivial)
      split
      · exact Value.of_saved.mpr trivial
      · exact Value.of_atom.mpr trivial
    | dict => exact hstart.merge (hd.filter _)
  rw [Resource.kept]
  split
  · exact hsave.set (hN _ (by decide)) (hd.get? ‹_›).2
  · exact hsave

/-- The kept dictionary is open if the described one is. -/
theorem kept_open (h : d.Describes fs t r) (hd : d.Of .open) : (r.kept d t).Of .open :=
  h.kept_named (N := fun _ => True) (fun _ _ => trivial) hd

theorem form_named {N : String → Prop} (h : d.Describes fs t r) (hN : ∀ name ∈ Key.stored, N name)
    (hd : d.Of (.named N)) : (r.form d t).Of (.named N) := by
  rw [Resource.form]
  split
  · exact Value.of_saved.mpr trivial
  · exact h.kept_named hN hd

/-- Built-in resources have no siblings. -/
theorem siblings_eq (h : d.Describes fs t r) (name : String) : r.siblings name = ∅ := by
  cases h <;> rfl

end Dict.Describes

/-! ## Symbols -/

/-- A table of symbols with one more, unless that is there already. -/
def Dict.withSymbol (table : Dict String) (named : String × String) : Dict String :=
  if named.1.isEmpty || table.contains named.1 then table else table.set named.1 named.2

/-- The symbols of those of the entries that are dictionaries and not reserved, each with the name of its entry. -/
def symbolsOf (entries : List (String × Value)) : List (String × String) :=
  entries.filterMap fun entry => match entry.2 with
    | .dict d => if Key.isReserved entry.1 then none else some (symbolFor entry.1 d, entry.1)
    | _ => none

theorem symbolsOf_append (entries others : List (String × Value)) :
    symbolsOf (entries ++ others) = symbolsOf entries ++ symbolsOf others := List.filterMap_append

theorem Context.symbols_addSymbol (c : Context) (symbol name : String) :
    (c.addSymbol symbol name).symbols = c.symbols.withSymbol (symbol, name) := by
  rw [addSymbol, Dict.withSymbol]
  split <;> rfl

theorem Context.symbols_addAll (c : Context) (notes : List Note) :
    ((c.addAll notes).eval fs).symbols = c.symbols := by
  induction notes generalizing c with
  | nil => rfl
  | cons note rest ih =>
    have hnote : ((c.add note).eval fs).symbols = c.symbols := by
      cases note with
      | issue i => rfl
      | output name bytes =>
        show (c.addOutput name bytes).symbols = c.symbols
        rw [addOutput]
        split <;> rfl
      | file owner path =>
        show ((c.addFile owner path).eval fs).symbols = c.symbols
        rw [addFile, Look.eval_bind, Look.eval_pure]
        rfl
    rw [addAll, List.foldlM_cons, Look.eval_bind, ← addAll, ih, hnote]

/-! ## Inside an entry -/

/-- What is gathered for the top-level entries: their resources and their symbols. -/
structure Gathered (σ : Type) where
  roots : List (String × Resource σ)
  symbols : Dict String
  deriving Inhabited

def Loading.gathered (l : Loading σ) : Gathered σ := ⟨l.roots, l.context.symbols⟩

section
variable {R : List (String × Resource σ)} {G : Gathered σ} {α : Type} {N : String → Prop}

/-- What is noted and done to the world leaves what is gathered alone. -/
theorem keepsGathered_noting {x : Context → StateT σ Look (α × List Note)} {Q : α → Prop}
    (hx : ∀ c w a notes w', ((a, notes), w') = ((x c).run w).eval fs → Q a) :
    Keeps (Answers.files fs) (fun l : Loading σ => l.gathered = G) (Loading.noting x) Q := by
  refine Keeps.bind Keeps.ask fun l hl => Keeps.bind (Keeps.look _) fun a ha => ?_
  obtain ⟨⟨a, notes⟩, world⟩ := a
  refine Keeps.bind (Keeps.look _) fun c hc => Keeps.bind (Keeps.put ?_) fun _ _ => Keeps.pure (hx _ _ _ _ _ ha)
  rw [← hl, Loading.gathered, Loading.gathered, hc, Context.symbols_addAll]

/-- What is noted and done to the world leaves the top-level resources alone. -/
theorem keepsRoots_noting {x : Context → StateT σ Look (α × List Note)} {Q : α → Prop}
    (hx : ∀ c w a notes w', ((a, notes), w') = ((x c).run w).eval fs → Q a) :
    Keeps (Answers.files fs) (fun l : Loading σ => l.roots = R) (Loading.noting x) Q := by
  refine Keeps.bind Keeps.ask fun l hl => Keeps.bind (Keeps.look _) fun a ha => ?_
  obtain ⟨⟨a, notes⟩, world⟩ := a
  exact Keeps.bind (Keeps.look _) fun c _ => Keeps.bind (Keeps.put hl) fun _ _ => Keeps.pure (hx _ _ _ _ _ ha)

theorem keepsRoots_addSymbol (symbol name : String) :
    Keeps (Answers.files fs) (fun l : Loading σ => l.roots = R) (Loading.addSymbol symbol name) fun _ => True := by
  unfold Loading.addSymbol
  split
  · exact Keeps.change fun _ hl => hl
  · exact Keeps.pure trivial

/-- Inside an entry a typed dictionary is replaced, and no top-level resource is added. -/
theorem opens_load (hN : ∀ name ∈ Key.stored, N name) :
    Hooks.Opens (Answers.files fs) (fun l : Loading σ => l.gathered = G) (fun trail => 2 ≤ trail.length) N
      (fun _ => True)
      { Hooks.keep with onDict := Loading.load .builtin } := by
  refine ⟨fun trail issues v _ hv => Reply.upholds_pure fun _ _ => ⟨v, rfl, hv⟩, fun trail issues d htrail hd => ?_⟩
  refine Reply.upholds_of_keeps fun _ => ?_
  obtain _ | ⟨a, _ | ⟨b, rest⟩⟩ := trail
  · exact absurd htrail (by simp)
  · exact absurd htrail (by simp)
  · show Keeps _ _ (Loading.load .builtin _ d) _
    unfold Loading.load
    simp only
    split
    · exact Keeps.pure fun _ => ⟨_, rfl, hd⟩
    · rename_i t _
      split
      · exact Keeps.pure fun hissues => (Reply.not_own_of_drop hissues trivial).elim
      · rename_i factory hfactory
        refine Keeps.bind (keepsGathered_noting (Q := fun made => ∀ r, made = some r → d.Describes fs t r) ?_)
          fun made hmade => ?_
        · rintro c w _ notes w' hmay r rfl
          exact Dict.describes_of_fromSource hfactory hmay
        · cases made with
          | none => exact Keeps.pure fun hissues => (Reply.not_own_of_drop hissues trivial).elim
          | some r =>
            have hr := hmade r rfl
            refine Keeps.bind (keepsGathered_noting (Q := fun _ => True) fun _ _ _ _ _ _ => trivial) fun ok _ => ?_
            split
            · exact Keeps.pure fun hissues => (Reply.not_own_of_drop hissues trivial).elim
            · rw [hr.keptForm_eq]
              exact Keeps.pure fun _ => ⟨_, rfl, hr.form_named hN hd⟩

end

/-! ## The entries themselves -/

/-- These are the resources of those of the entries that have a type, in order. -/
inductive Rooted (fs : Files) : List (String × Value) → List (String × Resource σ) → Prop
  | nil : Rooted fs [] []
  | untyped {name : String} {v : Value} {entries roots} :
      (∀ d t, v = .dict d → d.get? Key.type ≠ some (.string t)) → Rooted fs entries roots →
        Rooted fs ((name, v) :: entries) roots
  | typed {name : String} {d : Dict Value} {t : String} {r : Resource σ} {entries roots} :
      d.get? Key.type = some (.string t) → d.Describes fs t r → Rooted fs entries roots →
        Rooted fs ((name, .dict d) :: entries) ((name, r) :: roots)

namespace Rooted
variable {entries others : List (String × Value)} {roots more : List (String × Resource σ)}

theorem append (h : Rooted fs entries roots) (hothers : Rooted fs others more) :
    Rooted fs (entries ++ others) (roots ++ more) := by
  induction h with
  | nil => exact hothers
  | untyped hv _ ih => exact .untyped hv ih
  | typed ht hr _ ih => exact .typed ht hr ih

theorem names (h : Rooted fs entries roots) : (roots.map (·.1)).Sublist (entries.map (·.1)) := by
  induction h with
  | nil => exact List.Sublist.refl _
  | untyped _ _ ih => exact ih.cons _
  | typed _ _ _ ih => exact ih.cons_cons _

theorem exists_mem (h : Rooted fs entries roots) {name t : String} {d : Dict Value}
    (hmem : (name, .dict d) ∈ entries) (ht : d.get? Key.type = some (.string t)) :
    ∃ r, (name, r) ∈ roots ∧ d.Describes fs t r := by
  induction h with
  | nil => cases hmem
  | untyped hv _ ih =>
    rcases List.mem_cons.mp hmem with heq | hmem
    · cases heq
      exact absurd ht (hv d t rfl)
    · exact ih hmem
  | typed ht' hr _ ih =>
    rcases List.mem_cons.mp hmem with heq | hmem
    · cases heq
      cases ht.symm.trans ht'
      exact ⟨_, List.mem_cons_self, hr⟩
    · obtain ⟨r, hmem, hr⟩ := ih hmem
      exact ⟨r, List.mem_cons_of_mem _ hmem, hr⟩

theorem exists_entry (h : Rooted fs entries roots) {name : String} {r : Resource σ} (hmem : (name, r) ∈ roots) :
    ∃ d t, (name, .dict d) ∈ entries ∧ d.get? Key.type = some (.string t) ∧ d.Describes fs t r := by
  induction h with
  | nil => cases hmem
  | untyped _ _ ih =>
    obtain ⟨d, t, hentry, htype, hr⟩ := ih hmem
    exact ⟨d, t, List.mem_cons_of_mem _ hentry, htype, hr⟩
  | typed ht hr _ ih =>
    rcases List.mem_cons.mp hmem with heq | hmem
    · cases heq
      exact ⟨_, _, List.mem_cons_self, ht, hr⟩
    · obtain ⟨d, t, hentry, htype, hr⟩ := ih hmem
      exact ⟨d, t, List.mem_cons_of_mem _ hentry, htype, hr⟩

theorem siblings_eq (h : Rooted fs entries roots) : ∀ root ∈ roots, root.2.siblings root.1 = ∅ := by
  induction h with
  | nil =>
    intro _ hroot
    cases hroot
  | untyped _ _ ih => exact ih
  | typed _ hr _ ih => exact List.forall_mem_cons.mpr ⟨hr.siblings_eq _, ih⟩

end Rooted

/-- These are gathered for the entries, after what was gathered before. -/
structure Gathered.Adds (fs : Files) (G : Gathered σ) (entries : List (String × Value)) (G' : Gathered σ) : Prop where
  rooted : ∃ roots, G'.roots = G.roots ++ roots ∧ Rooted fs entries roots
  symbols : G'.symbols = (symbolsOf entries).foldl Dict.withSymbol G.symbols

namespace Gathered.Adds
variable {G G' G'' : Gathered σ} {entries others : List (String × Value)}

theorem nil (G : Gathered σ) : G.Adds fs [] G := ⟨⟨[], (List.append_nil _).symm, .nil⟩, rfl⟩

theorem append (h : G.Adds fs entries G') (h' : G'.Adds fs others G'') : G.Adds fs (entries ++ others) G'' := by
  obtain ⟨⟨roots, hroots, hrooted⟩, hsymbols⟩ := h
  obtain ⟨⟨more, hmore, hrooted'⟩, hsymbols'⟩ := h'
  refine ⟨⟨roots ++ more, by rw [hmore, hroots, List.append_assoc], hrooted.append hrooted'⟩, ?_⟩
  rw [hsymbols', hsymbols, symbolsOf_append, List.foldl_append]

/-- Nothing is gathered for what is no dictionary. -/
theorem of_ne_dict {v : Value} (hv : ∀ d, v ≠ .dict d) (name : String) : G.Adds fs [(name, v)] G := by
  refine ⟨⟨[], (List.append_nil _).symm, .untyped (fun d _ hd => absurd hd (hv d)) .nil⟩, ?_⟩
  cases v with
  | dict d => exact absurd rfl (hv d)
  | _ => rfl

end Gathered.Adds

/-- The symbol of a top-level dictionary is added, unless its name is reserved. -/
theorem gathered_addSymbol {name : String} {d : Dict Value} {l l' : Loading σ}
    (h : ((), l') = ((Loading.addSymbol (symbolFor name d) name).run l).eval fs) :
    l'.gathered = ⟨l.roots, (symbolsOf [(name, .dict d)]).foldl Dict.withSymbol l.context.symbols⟩ := by
  unfold Loading.addSymbol at h
  cases hreserved : Key.isReserved name with
  | true =>
    have hnone : symbolsOf [(name, .dict d)] = [] := by simp [symbolsOf, hreserved]
    rw [hreserved] at h
    cases (Answers.files fs).eq_of_pure h
    rw [hnone]
    rfl
  | false =>
    have hsome : symbolsOf [(name, .dict d)] = [(symbolFor name d, name)] := by simp [symbolsOf, hreserved]
    rw [hreserved] at h
    cases (Answers.files fs).eq_of_pure h
    rw [hsome]
    exact congrArg (Gathered.mk l.roots) (l.context.symbols_addSymbol _ _)

/-- A top-level dictionary stays as it is, and its symbol is added, and its resource if it has a type. -/
theorem load_top {name : String} {issues : List Issue} {d : Dict Value} {l l' : Loading σ} {reply : Reply}
    (h : (reply, l') = ((Loading.load .builtin ⟨[.name name], issues⟩ d).run l).eval fs)
    (hissues : Issue.audible reply.issues = []) :
    reply.value = some (.dict d) ∧ l.gathered.Adds fs [(name, .dict d)] l'.gathered := by
  unfold Loading.load at h
  simp only at h
  obtain ⟨⟨_, l₁⟩, hsymbol, h⟩ := (Answers.files fs).of_bind h
  have hsymbols := gathered_addSymbol hsymbol
  dsimp only at h
  cases htype : (d.get? Key.type).bind Value.string? with
  | none =>
    rw [htype] at h
    cases (Answers.files fs).eq_of_pure h
    rw [hsymbols]
    refine ⟨rfl, ⟨[], (List.append_nil _).symm, .untyped (fun e t heq ht => ?_) .nil⟩, rfl⟩
    cases heq
    rw [ht] at htype
    cases htype
  | some t =>
    rw [htype] at h
    dsimp only at h
    cases hfactory : Registry.builtin.get? t with
    | none =>
      rw [hfactory] at h
      cases (Answers.files fs).eq_of_pure h
      exact (Reply.not_own_of_drop hissues trivial).elim
    | some factory =>
      rw [hfactory] at h
      obtain ⟨⟨made, l₂⟩, hmade, h⟩ := (Answers.files fs).of_bind h
      have hnoting : Keeps (Answers.files fs) (fun k : Loading σ => k.gathered = l₁.gathered)
          (Loading.noting (factory.fromSource d)) fun made => ∀ r, made = some r → d.Describes fs t r := by
        refine keepsGathered_noting ?_
        rintro c w _ notes w' hmay r rfl
        exact Dict.describes_of_fromSource hfactory hmay
      obtain ⟨hsame, hdescribes⟩ := hnoting _ _ _ hmade rfl
      cases made with
      | none =>
        cases (Answers.files fs).eq_of_pure h
        exact (Reply.not_own_of_drop hissues trivial).elim
      | some r =>
        obtain ⟨⟨_, l₃⟩, hadd, h⟩ := (Answers.files fs).of_bind h
        cases (Answers.files fs).eq_of_pure hadd
        cases (Answers.files fs).eq_of_pure h
        obtain ⟨hroots, htable⟩ := Gathered.mk.inj (hsame.trans hsymbols)
        refine ⟨rfl, ⟨[(name, r)], ?_, .typed (get?_of_type htype) (hdescribes r rfl) .nil⟩, htable⟩
        exact congrArg (· ++ [(name, r)]) hroots

namespace Visiting
variable {n : Type → Type} [Monad n] {A : Answers n} {S α β : Type} {pre : S → Prop}

/-- If no issue is there at the end of a part of a visit, none was there before, and from a state with `pre` it comes
to an answer and a state with `post`. -/
def Leads (A : Answers n) (pre : S → Prop) (x : Visiting (StateT S n) α) (post : α → S → Prop) : Prop :=
  ∀ issues s a issues' s', A.May ((x.run issues).run s) ((a, issues'), s') → issues' = [] →
    issues = [] ∧ (pre s → post a s')

theorem Upholds.leads {x : Visiting (StateT S n) α} {Q : α → Prop} (h : Upholds A (fun _ => True) pre True x Q) :
    Leads A pre x fun a s => pre s ∧ Q a := by
  intro issues s a issues' s' hmay hissues
  obtain ⟨hissues₀, _, hpost⟩ := h _ _ _ _ _ hmay hissues trivial
  exact ⟨hissues₀, fun hpre => hpost hpre trivial⟩

namespace Leads
variable {x : Visiting (StateT S n) α} {mid : α → S → Prop}

theorem pure {a : α} {post : α → S → Prop} (h : ∀ s, pre s → post a s) :
    Leads A pre (Pure.pure a : Visiting (StateT S n) α) post := by
  intro issues s b issues' s' hmay hissues
  cases A.eq_of_pure hmay
  exact ⟨hissues, h s⟩

theorem bind {f : α → Visiting (StateT S n) β} {post : β → S → Prop} (hx : Leads A pre x mid)
    (hf : ∀ a, Leads A (mid a) (f a) post) : Leads A pre (x >>= f) post := by
  intro issues s b issues' s' hmay hissues
  rw [StateT.run_bind, StateT.run_bind] at hmay
  obtain ⟨⟨⟨a, issues₁⟩, s₁⟩, hx', hf'⟩ := A.of_bind hmay
  obtain ⟨hissues₁, hpost⟩ := hf a _ _ _ _ _ hf' hissues
  obtain ⟨hissues₀, hmid⟩ := hx _ _ _ _ _ hx' hissues₁
  exact ⟨hissues₀, fun hpre => hpost (hmid hpre)⟩

theorem call {hook : Spot → α → StateT S n Reply} {trail : List Step} {a : α} {post : Option Value → S → Prop}
    (h : ∀ issues s reply s', A.May ((hook ⟨trail, issues⟩ a).run s) (reply, s') →
      Issue.audible reply.issues = [] → pre s → post reply.value s') : Leads A pre (call hook trail a) post := by
  intro issues s v issues' s' hmay hissues
  rw [Visiting.call, StateT.run_bind, StateT.run_bind] at hmay
  obtain ⟨⟨⟨_, _⟩, _⟩, hget, hmay⟩ := A.of_bind hmay
  cases A.eq_of_pure hget
  rw [StateT.run_bind, StateT.run_bind] at hmay
  obtain ⟨⟨⟨reply, _⟩, s₁⟩, hhook, hmay⟩ := A.of_bind hmay
  rw [StateT.run_bind, StateT.run_bind] at hmay
  obtain ⟨⟨⟨_, _⟩, _⟩, hmodify, hdone⟩ := A.of_bind hmay
  cases A.eq_of_pure hmodify
  cases A.eq_of_pure hdone
  obtain ⟨⟨reply', s₂⟩, hreply, hlift⟩ := A.of_bind hhook
  cases A.eq_of_pure hlift
  obtain ⟨hissues₀, haudible⟩ := List.append_eq_nil_iff.mp hissues
  exact ⟨hissues₀, h issues s reply s₁ hreply haudible⟩

/-- What holds before may say more than is asked for, with a part of it left open. -/
theorem of_imp {ι : Type} [Nonempty ι] (weaker : ι → S → Prop) {post : α → S → Prop}
    (hpre : ∀ s, pre s → ∃ i, weaker i s) (h : ∀ i, Leads A (weaker i) x post) : Leads A pre x post := by
  intro issues s a issues' s' hmay hissues
  obtain ⟨i⟩ := (inferInstance : Nonempty ι)
  obtain ⟨hissues₀, _⟩ := h i _ _ _ _ _ hmay hissues
  refine ⟨hissues₀, fun hs => ?_⟩
  obtain ⟨i, hi⟩ := hpre s hs
  exact (h i _ _ _ _ _ hmay hissues).2 hi

/-- What has nothing to do with the state holds on. -/
theorem frame {P : Prop} {post : α → S → Prop} (h : Leads A pre x post) :
    Leads A (fun s => pre s ∧ P) x fun a s => post a s ∧ P := by
  intro issues s a issues' s' hmay hissues
  obtain ⟨hissues₀, hpost⟩ := h _ _ _ _ _ hmay hissues
  exact ⟨hissues₀, fun hpre => ⟨hpost hpre.1, hpre.2⟩⟩

end Leads
end Visiting

section
variable {G : Gathered σ} {N : String → Prop}

/-- What became of top-level entries, and what was gathered for them after `G`. -/
structure Added (fs : Files) (N : String → Prop) (G : Gathered σ) (done : List (String × Value)) (l : Loading σ) : Prop where
  opened : ∀ entry ∈ done, entry.2.Of (.named N)
  adds : G.Adds fs done l.gathered

/-- What is no dictionary is kept, and nothing is added for it. -/
theorem added_of_keep {name : String} {v : Value} (hv : v.Of (.named N)) (huntyped : ∀ d, v ≠ .dict d) {l l' : Loading σ}
    {reply : Reply} (hl : l.gathered = G) (h : (reply, l') = ((pure (.keep v) : LoadingM σ Reply).run l).eval fs) :
    ∃ w, reply.value = some w ∧ Added fs N G [(name, w)] l' := by
  cases h
  refine ⟨v, rfl, fun entry hentry => ?_, hl ▸ .of_ne_dict huntyped name⟩
  rwa [List.mem_singleton.mp hentry]

/-- What becomes of a top-level entry. -/
theorem leads_visit_top (hN : ∀ name ∈ Key.stored, N name) {v : Value} (hv : v.Spelled N) (name : String) :
    Visiting.Leads (Answers.files fs) (fun l : Loading σ => l.gathered = G)
      (v.tree.visit { Hooks.keep with onDict := Loading.load .builtin } [.name name])
      fun w l => ∃ u, w = some u ∧ Added fs N G [(name, u)] l := by
  have hinside (step : Step) {u : Value} (hu : u.Spelled N) :
      Visiting.Upholds (Answers.files fs) (fun _ => True) (fun l : Loading σ => l.gathered = G) True
        (u.tree.visit { Hooks.keep with onDict := Loading.load .builtin } [step, .name name]) (AnswersNamed N fun _ => True) :=
    (opens_load hN).visit (fun _ _ => trivial) (fun _ _ h => Nat.le_succ_of_le h) hu (by simp)
  have hbroken (source : Source) : Visiting.Leads (Answers.files fs) (fun l : Loading σ => l.gathered = G)
      ((Tree.broken source).visit { Hooks.keep with onDict := Loading.load .builtin } [.name name])
      fun w l => ∃ u, w = some u ∧ Added fs N G [(name, u)] l :=
    .bind (Visiting.upholds_report source.own_issue (Q := fun _ => False)).leads fun _ => .pure fun _ h => h.2.elim
  induction v using Value.induction_opened with
  | atom a =>
    exact .call fun _ _ _ _ hmay _ hl => added_of_keep (Value.of_atom.mpr trivial) (by rintro _ ⟨⟩) hl hmay
  | list items ih =>
    rw [Value.tree_list, Tree.visit]
    have hitems : Visiting.Upholds (Answers.files fs) (fun _ => True) (fun l : Loading σ => l.gathered = G) True
        (visitItems _ [.name name] 0 (items.map Value.tree)) (List.Forall₂ (fun _ w => w.Of (.named N)) items) :=
      upholds_visitItems (fun v hmem index => hinside (.index index) (Value.spelled_list.mp hv v hmem)) 0
    refine .bind hitems.leads fun done => .call fun issues l reply l' hmay _ hpre => ?_
    have hof : (Value.list done).Of (.named N) := by
      refine Value.of_list.mpr fun w hw => ?_
      obtain ⟨_, _, hw⟩ := exists_of_forall₂ hpre.2 hw
      exact hw
    exact added_of_keep hof (by rintro _ ⟨⟩) hpre.1 hmay
  | dict d ih =>
    rw [Value.tree_dict, Tree.visit, Dict.tree_eq, Dict.map, Dict.visit]
    obtain ⟨hd, hnames, hentries⟩ := Value.spelled_dict.mp hv
    have hentries := upholds_visitEntries (fun _ _ w => w.Of (.named N)) fun e he =>
      hinside (.name e.1) (hentries e he)
    refine .bind hentries.leads fun done => .call fun issues l reply l' hmay hissues hpre => ?_
    obtain ⟨hreply, hadds⟩ := load_top hmay hissues
    refine ⟨_, hreply, fun entry hentry => ?_, hpre.1 ▸ hadds⟩
    rw [List.mem_singleton.mp hentry]
    exact Dict.open_of_forall₂ hd hnames hpre.2
  | block b ih =>
    rw [Value.tree_block]
    cases hload : b.load with
    | ok d => exact ih d hload (hv.load hload)
    | error f => exact hbroken (.block b)
  | saved p ih =>
    rw [Value.tree_saved]
    split
    · rename_i hcontent
      cases hload : p.loadDict with
      | ok d => exact ih hcontent d hload (hv.loadDict hcontent hload)
      | error f => exact hbroken (.payload p)
    · exact .call fun _ _ _ _ hmay _ hl => added_of_keep (Value.of_saved.mpr trivial) (by rintro _ ⟨⟩) hl hmay

/-- What becomes of all top-level entries, in order. -/
theorem leads_visitEntries_top (hN : ∀ name ∈ Key.stored, N name) {entries : List (String × Value)}
    (h : ∀ entry ∈ entries, entry.2.Spelled N) :
    Visiting.Leads (Answers.files fs) (fun l : Loading σ => l.gathered = G)
      (visitEntries { Hooks.keep with onDict := Loading.load .builtin } [] (entries.map fun e => (e.1, e.2.tree)))
      fun done l => done.map (·.1) = entries.map (·.1) ∧ Added fs N G done l := by
  induction entries generalizing G with
  | nil => exact .pure fun l hl => ⟨rfl, List.forall_mem_nil _, hl ▸ .nil _⟩
  | cons entry rest ih =>
    obtain ⟨hentry, hrest⟩ := List.forall_mem_cons.mp h
    rw [List.map_cons, visitEntries]
    refine .bind (leads_visit_top hN hentry entry.1) fun w => ?_
    -- what is gathered when the rest is visited
    refine .of_imp (fun G' l => l.gathered = G' ∧ ∃ u, w = some u ∧ u.Of (.named N) ∧ G.Adds fs [(entry.1, u)] G') ?_
      fun G' => ?_
    · rintro l ⟨u, hw, hopened, hadds⟩
      exact ⟨_, rfl, u, hw, hopened _ List.mem_cons_self, hadds⟩
    · refine .bind (ih hrest).frame fun done => .pure fun l hl => ?_
      obtain ⟨⟨hnames, hopened, hmore⟩, u, rfl, hu, hadds⟩ := hl
      exact ⟨by rw [List.map_cons, List.map_cons, hnames], List.forall_mem_cons.mpr ⟨hu, hopened⟩, hadds.append hmore⟩

/-- In a description whose objects are loaded everything is open, the resources are those of its typed entries, and
the symbols are those of its dictionaries. There are no names but those of the description and what a pack adds. -/
theorem Dict.named_of_loadObjects (hN : ∀ name ∈ Key.stored, N name) {d : Dict Value} (hd : (Value.dict d).Spelled N)
    {l l' : Loading σ} {visited : Visited} (h : ((d.loadObjects .builtin).run l).eval fs = (visited, l'))
    (hissues : visited.issues = []) {e : Dict Value} (he : visited.dict = some e) :
    e.Of (.named N) ∧ l.gathered.Adds fs e.entries l'.gathered := by
  obtain ⟨hdistinct, hallowed, hinside⟩ := Value.spelled_dict.mp hd
  have hvisit : Visiting.Leads (Answers.files fs) (fun k : Loading σ => k.gathered = l.gathered)
      (d.tree.visit { Hooks.keep with onDict := Loading.load .builtin } [])
      fun v k => ∃ done, v = some (.dict ⟨done⟩) ∧ done.map (·.1) = d.names ∧ Added fs N l.gathered done k := by
    rw [Dict.tree_eq, Dict.map, Dict.visit]
    refine .bind (leads_visitEntries_top hN hinside) fun done => .call ?_
    rintro issues k reply k' hmay _ ⟨hnames, hadded⟩
    cases (Answers.files fs).eq_of_pure hmay
    exact ⟨done, rfl, hnames, hadded⟩
  obtain ⟨⟨⟨v, issues⟩, l₁⟩, hrun, hdone⟩ := (Answers.files fs).of_bind h.symm
  cases (Answers.files fs).eq_of_pure hdone
  obtain ⟨_, hpost⟩ := hvisit _ _ _ _ _ hrun hissues
  obtain ⟨done, rfl, hnames, hopened, hadds⟩ := hpost rfl
  cases he
  refine ⟨Dict.of_intro ?_ fun entry hentry => ⟨hallowed _ ?_, hopened entry hentry⟩, hadds⟩
  · rw [Dict.Distinct, Dict.names, hnames]
    exact hdistinct
  · rw [← hnames]
    exact List.mem_map_of_mem hentry

/-- Whatever names there are, everything is open. -/
theorem Dict.adds_of_loadObjects {d : Dict Value} (hd : (Value.dict d).Distinct) {l l' : Loading σ}
    {visited : Visited} (h : ((d.loadObjects .builtin).run l).eval fs = (visited, l')) (hissues : visited.issues = [])
    {e : Dict Value} (he : visited.dict = some e) : e.Of .open ∧ l.gathered.Adds fs e.entries l'.gathered :=
  named_of_loadObjects (N := fun _ => True) (fun _ _ => trivial) hd.spelled h hissues he

end

end AssetPack
