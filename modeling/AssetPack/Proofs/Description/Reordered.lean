import AssetPack.Proofs.Account
import AssetPack.Proofs.Description.Fueled
import AssetPack.Proofs.Value.Reordered

/-!
# Expansion in another order

Descriptions that are the same but for the order of their entries are expanded to dictionaries that are the same but
for such an order. Both expansions report the same issues and consult the same files, in some order. What an expansion
keeps of issues and files it does not look at again, so its answer and what it adds do not depend on them.
-/
namespace AssetPack
variable {fs : Files}

/-- What an expansion tells: an issue, or a file that was consulted. -/
inductive Told where
  | issue (i : Issue)
  | file (owner : Option String) (path : Path)

/-- The path is a canonical name or can be read. -/
def Files.Found (fs : Files) (path : Path) : Prop :=
  (∃ p, fs.canonical p = .ok path) ∨ ∃ bs, fs.read path = .ok bs

/-- What may be told: files are found. -/
def Told.Fair (fs : Files) : Told → Prop
  | .issue _ => True
  | .file _ path => fs.Found path

namespace Expansion

/-- What an expansion keeps of what it told so far. -/
abbrev Kept := List Issue × Context

/-- All that an expansion looks at. -/
def around (e : Expansion) : Expansion := { e with issues := [], context := .start e.context.base false }

def kept (e : Expansion) : Kept := (e.issues, e.context)

/-- What is kept when something more is told. -/
def Kept.tell (fs : Files) (k : Kept) : Told → Kept
  | .issue i => (k.1 ++ Issue.audible [i], k.2)
  | .file owner path => (k.1, (k.2.addFile owner path).eval fs)

/-- At the same place, with scopes that are the same but for the order of their entries. -/
inductive Reordered : Expansion → Expansion → Prop
  | intro {e : Expansion} {scopes : List (Dict Value)} :
      List.Forall₂ (fun d d' => (Value.dict d).Reordered False (.dict d')) e.scopes scopes →
        Reordered e { e with scopes := scopes }

namespace Reordered
variable {e e' : Expansion}

theorem head (h : e.Reordered e') :
    (Value.dict (e.scopes.head?.getD ∅)).Reordered False (.dict (e'.scopes.head?.getD ∅)) := by
  obtain ⟨hscopes⟩ := h
  generalize e.scopes = front at hscopes
  cases hscopes with
  | nil => exact .empty
  | cons hhead _ => exact hhead

theorem inScope? (h : e.Reordered e') (name : String) :
    Option.Rel (Value.Reordered False) (e.inScope? name) (e'.inScope? name) := by
  obtain ⟨hscopes⟩ := h
  rw [Expansion.inScope?, Expansion.inScope?]
  generalize e.scopes = front at hscopes
  cases hscopes with
  | nil => exact .none
  | cons hhead _ => exact hhead.find? name

end Reordered
end Expansion

/-- How the parts of an expansion go from state to state. -/
def Telling.expanding (fs : Files) : Telling Expanding Expansion Expansion Expansion.Kept Told where
  run := Expanding.eval fs
  run_pure := Expanding.eval_pure
  run_bind := Expanding.eval_bind
  around := Expansion.around
  view := Expansion.kept
  tell := Expansion.Kept.tell fs
  fair := Told.Fair fs

/-- Jobs about what is the same but for the order of entries. -/
inductive Job.Reordered : Job → Job → Prop
  | dict {d d' : Dict Value} : (Value.dict d).Reordered False (.dict d') → Reordered (.dict d) (.dict d')
  | value {v v' : Value} : v.Reordered False v' → Reordered (.value v) (.value v')

/-- Settings that are the same but for the order of entries. -/
structure Setting.Reordered (s s' : Setting) : Prop where
  root : (Value.dict s.root).Reordered False (.dict s'.root)
  localize : s'.localize = s.localize
  distinct : ∀ name, AnswersDistinct (s.localize name)

namespace Expanding
variable {α α' β β' : Type} {x : Expanding α} {y : Expanding α'} {Q : α → α' → Prop}

/-- Both parts answer alike and tell the same in some order. -/
abbrev Agree (fs : Files) (x : Expanding α) (y : Expanding α') (Q : α → α' → Prop) : Prop :=
  (Telling.expanding fs).Agree Expansion.Reordered x y Q

/-! ## The primitives -/

theorem gives_drop (i : Issue) (e : Expansion) :
    (Telling.expanding fs).Gives (Expanding.drop i : Expanding (Option α)) e (some (none, [.issue i])) :=
  fun _ hs => .some ⟨rfl, hs, rfl, List.forall_mem_singleton.mpr trivial⟩

theorem gives_addFile {path : Path} (hpath : fs.Found path) (e : Expansion) :
    (Telling.expanding fs).Gives (Expanding.addFile path) e (some ((), [.file e.root? path])) := by
  rintro s rfl
  have hrun : (Telling.expanding fs).run (Expanding.addFile path) s =
      some ((), { s with context := (s.context.addFile s.root? path).eval fs }) := by
    show eval fs (Expanding.addFile path) s = _
    rw [Expanding.addFile, eval_get_bind, eval_look_bind]
    rfl
  rw [hrun]
  refine .some ⟨rfl, ?_, rfl, List.forall_mem_singleton.mpr hpath⟩
  have hbase : ((s.context.addFile s.root? path).eval fs).base = s.context.base := by
    rw [Context.addFile, Look.eval_bind, Look.eval_pure]
    rfl
  show Expansion.around _ = Expansion.around s
  rw [Expansion.around, Expansion.around, hbase]

theorem gives_look_bind {γ : Type} (q : Look γ) {f : γ → Expanding α} {e : Expansion} {r : Account α Told}
    (hf : (Telling.expanding fs).Gives (f (q.eval fs)) e r) : (Telling.expanding fs).Gives (liftM q >>= f) e r := by
  intro s hs
  have hrun : (Telling.expanding fs).run (liftM q >>= f) s = (Telling.expanding fs).run (f (q.eval fs)) s :=
    eval_look_bind q f s
  rw [hrun]
  exact hf s hs

/-- A look at the state sees no more than what is around. -/
theorem gives_ask {f : Expansion → Expanding α} (hf : ∀ s, f s = f s.around) {e : Expansion} {r : Account α Told}
    (he : (Telling.expanding fs).Gives (f e) e r) : (Telling.expanding fs).Gives (get >>= f) e r := by
  intro s hs
  have hrun : (Telling.expanding fs).run (get >>= f) s = (Telling.expanding fs).run (f e) s := by
    have hsame : f s = f e := (hf s).trans (congrArg f hs)
    rw [← hsame]
    rfl
  rw [hrun]
  exact he s hs

/-- `x` between two changes of what is around. -/
theorem gives_between {f g : Expansion → Expansion} (hf : ∀ s, (f s).kept = s.kept ∧ (f s).around = f s.around)
    (hg : ∀ s, (g s).kept = s.kept ∧ (g s).around = g s.around) (hback : ∀ e, g (f e) = e) {e : Expansion}
    {r : Account α Told} (hx : (Telling.expanding fs).Gives x (f e) r) :
    (Telling.expanding fs).Gives (do modify f; let a ← x; modify g; return a) e r := by
  intro s hs
  have hrun : (Telling.expanding fs).run (do modify f; let a ← x; modify g; return a) s =
      (eval fs x (f s)).map fun r => (r.1, g r.2) := eval_around f g x s
  have hinside := hx (f s) ((hf s).2.trans (congrArg f hs))
  rw [hrun]
  change Option.Rel _ (eval fs x (f s)) r at hinside
  generalize eval fs x (f s) = q at hinside ⊢
  cases hinside with
  | none => exact .none
  | some hq =>
    refine .some ⟨hq.1, ?_, ?_, hq.2.2.2⟩
    · exact ((hg _).2.trans (congrArg g hq.2.1)).trans (hback e)
    · refine (hg _).1.trans (hq.2.2.1.trans ?_)
      exact congrArg (fun k => List.foldl _ k _) (hf s).1

theorem gives_within (step : Step) {e : Expansion} {r : Account α Told}
    (h : (Telling.expanding fs).Gives x { e with trail := step :: e.trail } r) :
    (Telling.expanding fs).Gives (Expanding.within step x) e r := by
  refine gives_between ?_ ?_ ?_ h
  exacts [fun _ => ⟨rfl, rfl⟩, fun _ => ⟨rfl, rfl⟩, fun _ => rfl]

theorem gives_inTemplate (name : String) {e : Expansion} {r : Account α Told}
    (h : (Telling.expanding fs).Gives x { e with templates := e.templates ++ [name] } r) :
    (Telling.expanding fs).Gives (Expanding.inTemplate name x) e r := by
  have hback (e : Expansion) : { e with templates := (e.templates ++ [name]).dropLast } = e := by
    rw [List.dropLast_concat]
  refine gives_between ?_ ?_ hback h
  exacts [fun _ => ⟨rfl, rfl⟩, fun _ => ⟨rfl, rfl⟩]

theorem gives_inImport (path : Path) {e : Expansion} {r : Account α Told}
    (h : (Telling.expanding fs).Gives x { e with imports := e.imports ++ [path] } r) :
    (Telling.expanding fs).Gives (Expanding.inImport path x) e r := by
  have hback (e : Expansion) : { e with imports := (e.imports ++ [path]).dropLast } = e := by
    rw [List.dropLast_concat]
  refine gives_between ?_ ?_ hback h
  exacts [fun _ => ⟨rfl, rfl⟩, fun _ => ⟨rfl, rfl⟩]

theorem gives_inNewScope (scope : Dict Value) {e : Expansion} {r : Account α Told}
    (h : (Telling.expanding fs).Gives x { e with scopes := scope :: e.scopes } r) :
    (Telling.expanding fs).Gives (Expanding.inNewScope scope x) e r := by
  refine gives_between ?_ ?_ ?_ h
  exacts [fun _ => ⟨rfl, rfl⟩, fun _ => ⟨rfl, rfl⟩, fun _ => rfl]

theorem Agree.drop (i : Issue) {Q : Option α → Option α' → Prop} (h : Q none none) :
    Agree fs (Expanding.drop i) (Expanding.drop i) Q :=
  .of_gives (gives_drop i) (gives_drop i) h

theorem Agree.addFile {path : Path} (hpath : fs.Found path) :
    Agree fs (Expanding.addFile path) (Expanding.addFile path) fun _ _ => True := by
  intro e e' h
  have hroot : e'.root? = e.root? := by
    obtain ⟨_⟩ := h
    rfl
  exact ⟨_, _, gives_addFile hpath e, gives_addFile hpath e', .some ⟨trivial, by rw [hroot]⟩⟩

theorem Agree.look_bind {γ : Type} (q : Look γ) {f : γ → Expanding α} {g : γ → Expanding α'}
    (h : Agree fs (f (q.eval fs)) (g (q.eval fs)) Q) : Agree fs (liftM q >>= f) (liftM q >>= g) Q := by
  intro e e' he
  obtain ⟨r, r', hx, hy, hrel⟩ := h e e' he
  exact ⟨r, r', gives_look_bind q hx, gives_look_bind q hy, hrel⟩

theorem Agree.ask {f : Expansion → Expanding α} {g : Expansion → Expanding α'} (hf : ∀ s, f s = f s.around)
    (hg : ∀ s, g s = g s.around) (h : ∀ e e', e.Reordered e' → Agree fs (f e) (g e') Q) :
    Agree fs (get >>= f) (get >>= g) Q := by
  intro e e' he
  obtain ⟨r, r', hx, hy, hrel⟩ := h e e' he e e' he
  exact ⟨r, r', gives_ask hf hx, gives_ask hg hy, hrel⟩

/-- Both report the same about the place they are at. -/
theorem Agree.dropHere (issue : String → Issue) {Q : Option α → Option α' → Prop} (h : Q none none) :
    Agree fs (do Expanding.drop (issue (← get).place)) (do Expanding.drop (issue (← get).place)) Q := by
  refine .ask (fun _ => rfl) (fun _ => rfl) fun e e' he => ?_
  have hplace : e'.place = e.place := by
    obtain ⟨_⟩ := he
    rfl
  rw [hplace]
  exact .drop _ h

/-- `X` does `x` elsewhere, and `Y` does `y`. -/
theorem Agree.elsewhere {X : Expanding α} {Y : Expanding α'} {f f' : Expansion → Expansion}
    (hX : ∀ {e r}, (Telling.expanding fs).Gives x (f e) r → (Telling.expanding fs).Gives X e r)
    (hY : ∀ {e r}, (Telling.expanding fs).Gives y (f' e) r → (Telling.expanding fs).Gives Y e r)
    (hnear : ∀ e e', e.Reordered e' → (f e).Reordered (f' e')) (h : Agree fs x y Q) : Agree fs X Y Q := by
  intro e e' he
  obtain ⟨r, r', hx, hy, hrel⟩ := h _ _ (hnear e e' he)
  exact ⟨r, r', hX hx, hY hy, hrel⟩

theorem Agree.within (step : Step) (h : Agree fs x y Q) :
    Agree fs (Expanding.within step x) (Expanding.within step y) Q := by
  refine .elsewhere (gives_within step) (gives_within step) ?_ h
  rintro e _ ⟨hscopes⟩
  exact .intro hscopes

theorem Agree.inTemplate (name : String) (h : Agree fs x y Q) :
    Agree fs (Expanding.inTemplate name x) (Expanding.inTemplate name y) Q := by
  refine .elsewhere (gives_inTemplate name) (gives_inTemplate name) ?_ h
  rintro e _ ⟨hscopes⟩
  exact .intro hscopes

theorem Agree.inImport (path : Path) (h : Agree fs x y Q) :
    Agree fs (Expanding.inImport path x) (Expanding.inImport path y) Q := by
  refine .elsewhere (gives_inImport path) (gives_inImport path) ?_ h
  rintro e _ ⟨hscopes⟩
  exact .intro hscopes

theorem Agree.inNewScope {scope scope' : Dict Value} (hscope : (Value.dict scope).Reordered False (.dict scope'))
    (h : Agree fs x y Q) : Agree fs (Expanding.inNewScope scope x) (Expanding.inNewScope scope' y) Q := by
  refine .elsewhere (gives_inNewScope scope) (gives_inNewScope scope') ?_ h
  rintro e _ ⟨hscopes⟩
  exact .intro (.cons hscope hscopes)

/-! ## One level of the pass -/

/-- Optional values that are the same but for the order of entries. -/
abbrev Rearranges (a b : Option Value) : Prop := Option.Rel (Value.Reordered False) a b

theorem entries_eq (next : Job → Expanding (Option Value)) (es : List (String × Value)) :
    entries next es = eachEntry (fun name v => within (.name name) (next (.value v))) es := by
  induction es with
  | nil => rfl
  | cons entry rest ih =>
    obtain ⟨name, v⟩ := entry
    rw [entries, eachEntry, ih]
    refine congrArg _ (funext fun w => congrArg _ (funext fun rest => ?_))
    cases w <;> rfl

section
variable {next next' : Job → Expanding (Option Value)} {s s' : Setting} {d d' : Dict Value} {v v' : Value}
variable (hnext : ∀ job job', job.Reordered job' → Agree fs (next job) (next' job') Rearranges)
include hnext

theorem agree_entries (h : (Value.dict d).Reordered False (.dict d')) :
    Agree fs (entries next d.entries) (entries next' d'.entries) fun done done' =>
      (Value.dict ⟨done⟩).Reordered False (.dict ⟨done'⟩) := by
  have hrel := Value.reordered_dict_iff.mp h
  rw [entries_eq, entries_eq]
  have hentries := hrel.reordered_entries.imp (S := fun entry entry' => entry.1 = entry'.1 ∧
      Agree fs (within (.name entry.1) (next (.value entry.2))) (within (.name entry'.1) (next' (.value entry'.2)))
        Rearranges) fun entry _ entry' _ hentry => ⟨hentry.1, by
    rw [hentry.1]
    exact (hnext _ _ (.value hentry.2)).within _⟩
  refine (Telling.Agree.eachEntry hentries).mono fun done done' hdone => ?_
  exact .dict (.of_reordered_entries (hrel.distinct.sublist hdone.2.1) (hrel.distinct'.sublist hdone.2.2) hdone.1)

theorem agree_items {vs vs' : List Value} (h : List.Forall₂ (Value.Reordered False) vs vs') (index : Nat) :
    Agree fs (items next index vs) (items next' index vs') (List.Forall₂ (Value.Reordered False)) := by
  induction h generalizing index with
  | nil => exact .pure .nil
  | cons hv _ ih =>
    refine ((hnext _ _ (.value hv)).within _).bind fun w w' hw => (ih (index + 1)).bind fun done done' hdone => ?_
    refine .pure (.cons ?_ hdone)
    cases hw with
    | none => exact .atom _
    | some hw => exact hw

theorem agree_importFile (relative : Path) : Agree fs (importFile next relative) (importFile next' relative)
    (Option.Rel fun d d' => (Value.dict d).Reordered False (.dict d')) := by
  refine .ask (fun _ => rfl) (fun _ => rfl) fun e e' he => ?_
  have hbase : e'.context.base = e.context.base := by
    obtain ⟨_⟩ := he
    rfl
  rw [hbase]
  refine .look_bind _ (.ask (fun _ => rfl) (fun _ => rfl) fun e e' he => ?_)
  have himports : e'.imports = e.imports := by
    obtain ⟨_⟩ := he
    rfl
  rw [himports]
  split
  · exact Agree.drop _ .none
  · refine .look_bind _ ?_
    cases hread : (Look.readText _).eval fs with
    | error error => exact Agree.drop _ .none
    | ok text =>
      have hfound : fs.Found _ := .inr (Look.read_of_readText fs hread)
      dsimp only
      cases hparse : Json.parseDict text with
      | error fault => exact Agree.drop _ .none
      | ok parsed =>
        have hparsed : (Value.dict parsed).Reordered False (.dict parsed) :=
          .refl (Value.Of.distinct (Json.of_parseDict hparse))
        refine (Agree.addFile hfound).bind fun _ _ _ => ((hnext _ _ (.dict hparsed)).inImport _).bind fun w w' hw => ?_
        cases hw with
        | none => exact Agree.drop _ .none
        | @some w w' hw =>
          have hdict := hw.dict?
          dsimp only [Option.bind_some]
          generalize w.dict? = x at hdict
          generalize w'.dict? = y at hdict
          cases hdict with
          | none => exact Agree.drop _ .none
          | some hd => exact .pure (.some hd)

theorem agree_imported (h : (Value.dict d).Reordered False (.dict d')) : Agree fs (imported next d) (imported next' d')
    (Option.Rel fun d d' => (Value.dict d).Reordered False (.dict d')) := by
  have himport := h.get? Key.imported
  unfold imported
  generalize d.get? Key.imported = x at himport
  generalize d'.get? Key.imported = y at himport
  cases himport with
  | none => exact .pure (.some h)
  | @some v v' hv =>
    cases hv with
    | atom a =>
      cases a with
      | string relative =>
        refine (agree_importFile hnext relative).bind fun found found' hfound => ?_
        cases hfound with
        | none => exact .pure .none
        | some hbase => exact .pure (.some (hbase.merge (h.erase _)))
      | _ => exact Agree.dropHere .badImport .none
    | _ => exact Agree.dropHere .badImport .none

theorem agree_overTemplate (hs : s.Reordered s') (template : String) (h : (Value.dict d).Reordered False (.dict d')) :
    Agree fs (overTemplate next s template d) (overTemplate next' s' template d') Rearranges := by
  refine .ask (fun _ => rfl) (fun _ => rfl) fun e e' he => ?_
  have htemplates : e'.templates = e.templates := by
    obtain ⟨_⟩ := he
    rfl
  have hfound : Rearranges ((e.inScope? template).orElse fun _ => s.root.find? template)
      ((e'.inScope? template).orElse fun _ => s'.root.find? template) := by
    have hscope := he.inScope? template
    generalize e.inScope? template = x at hscope
    generalize e'.inScope? template = y at hscope
    cases hscope with
    | none => exact hs.root.find? template
    | some hv => exact .some hv
  rw [htemplates]
  split
  · exact Agree.drop _ .none
  · generalize (e.inScope? template).orElse _ = x at hfound
    generalize (e'.inScope? template).orElse _ = y at hfound
    cases hfound with
    | none => exact Agree.drop _ .none
    | @some v v' hv =>
      refine Agree.inTemplate template ?_
      have hopened := hv.opened
      generalize v.dictValue?.bind Value.dict? = x at hopened
      generalize v'.dictValue?.bind Value.dict? = y at hopened
      cases hopened with
      | none =>
        dsimp only
        rw [h.isEmpty]
        split
        · exact hnext _ _ (.value hv)
        · exact Agree.drop _ .none
      | some hunder => exact hnext _ _ (.dict (hunder.merge h))

theorem agree_plain (hs : s.Reordered s') (h : (Value.dict d).Reordered False (.dict d')) :
    Agree fs (plain next s d) (plain next' s' d') Rearranges := by
  refine (agree_imported hnext h).bind fun whole whole' hwhole => ?_
  cases hwhole with
  | none => exact .pure .none
  | @some d d' h =>
    have hkey : templateKey d' = templateKey d := by rw [templateKey, templateKey, h.contains]
    have htemplate := h.get? (templateKey d)
    dsimp only
    rw [hkey]
    generalize d.get? (templateKey d) = x at htemplate
    generalize d'.get? (templateKey d) = y at htemplate
    cases htemplate with
    | none => exact (agree_entries hnext h).bind fun done done' hdone => .pure (.some hdone)
    | @some v v' hv =>
      cases hv with
      | atom a =>
        cases a with
        | string template => exact agree_overTemplate hnext hs template (h.erase _)
        | _ => exact Agree.dropHere .badTemplateName .none
      | _ => exact Agree.dropHere .badTemplateName .none

theorem agree_dict (hs : s.Reordered s') (h : (Value.dict d).Reordered False (.dict d')) :
    Agree fs (dict next s d) (dict next' s' d') Rearranges := by
  have hvalues := h.get? Key.values
  unfold dict
  generalize d.get? Key.values = x at hvalues
  generalize d'.get? Key.values = y at hvalues
  cases hvalues with
  | none => exact agree_plain hnext hs h
  | @some v v' hv =>
    have hdict := hv.dict?
    dsimp only
    generalize v.dict? = x at hdict
    generalize v'.dict? = y at hdict
    cases hdict with
    | none => exact Agree.dropHere .valuesNotDict .none
    | some hscope =>
      refine .ask (fun _ => rfl) (fun _ => rfl) fun e e' he => ?_
      exact Agree.inNewScope (he.head.merge hscope) (agree_plain hnext hs (h.erase _))

theorem agree_inside (h : v.Reordered False v') : Agree fs (inside next v) (inside next' v') Rearranges := by
  have hsame {d : Dict Value} (hd : (Value.dict d).Distinct) : Agree fs (next (.dict d)) (next' (.dict d)) Rearranges :=
    hnext _ _ (.dict (.refl hd))
  cases h with
  | atom a => exact .pure (.some (.atom a))
  | list hitems => exact (agree_items hnext hitems 0).bind fun done done' hdone => .pure (.some (.list hdone))
  | entries hd hd' hnames hentries => exact hnext _ _ (.dict (.entries hd hd' hnames hentries))
  | block b =>
    rw [inside, inside]
    cases hload : b.load with
    | ok d => exact hsame (Block.distinct_of_load hload)
    | error f => exact Agree.dropHere .brokenDict .none
  | saved p =>
    rw [inside, inside]
    split
    · cases hload : p.loadDict with
      | ok d => exact hsame (Payload.distinct_of_loadDict hload)
      | error f => exact Agree.dropHere .brokenPayload .none
    · exact .pure (.some (.saved p))
  | encoded hpacked _ => exact hpacked.elim

theorem agree_named (hs : s.Reordered s') (text : String) :
    Agree fs (named next s text) (named next' s' text) Rearranges := by
  unfold named
  cases after? Key.reserved text with
  | some name =>
    refine .ask (fun _ => rfl) (fun _ => rfl) fun e e' he => ?_
    have hscope := he.inScope? name
    generalize e.inScope? name = x at hscope
    generalize e'.inScope? name = y at hscope
    cases hscope with
    | none => exact Agree.drop _ .none
    | some hv => exact hnext _ _ (.value hv)
  | none =>
    dsimp only
    cases after? Key.localized text with
    | none => exact .pure (.some (.atom _))
    | some name =>
      have hdistinct := hs.distinct name
      dsimp only
      rw [hs.localize]
      cases hv : s.localize name with
      | none => exact Agree.drop _ .none
      | some v => exact .pure (.some (.refl (hdistinct v hv)))

theorem agree_value (hs : s.Reordered s') (h : v.Reordered False v') :
    Agree fs (value next s v) (value next' s' v') Rearranges := by
  refine (agree_inside hnext h).bind fun w w' hw => ?_
  cases hw with
  | none => exact .pure .none
  | @some w w' hw =>
    cases hw with
    | atom a =>
      cases a with
      | string text => exact agree_named hnext hs text
      | _ => exact .pure (.some (.atom _))
    | list h => exact .pure (.some (.list h))
    | entries hd hd' hnames hentries => exact .pure (.some (.entries hd hd' hnames hentries))
    | block b => exact .pure (.some (.block b))
    | saved p => exact .pure (.some (.saved p))
    | encoded hpacked _ => exact hpacked.elim

end
end Expanding

/-- With the same fuel, jobs that are the same but for the order of entries are answered alike. -/
theorem agree_expandTo (fs : Files) {s s' : Setting} (hs : s.Reordered s') (n : Nat) {job job' : Job}
    (h : job.Reordered job') :
    Expanding.Agree fs (expandTo s n job) (expandTo s' n job') Expanding.Rearranges := by
  induction n generalizing job job' with
  | zero =>
    have hgives (s : Setting) (job : Job) (e : Expansion) :
        (Telling.expanding fs).Gives (expandTo s 0 job) e none := fun _ _ => .none
    exact fun e e' _ => ⟨none, none, hgives s job e, hgives s' job' e', .none⟩
  | succ n ih =>
    cases h with
    | dict h => exact Expanding.agree_dict (fun _ _ => ih) hs h
    | value h => exact Expanding.agree_value (fun _ _ => ih) hs h

/-! ## The whole expansion -/

section
variable {d d' : Dict Value} {localize : String → Option Value} {n : Nat}

/-- Both expansions have an answer or neither has. They make dictionaries that are the same but for the order of
entries, and tell the same in some order. -/
theorem Dict.rel_expand (fs : Files) (n : Nat) (h : (Value.dict d).Reordered False (.dict d'))
    (hlocalize : ∀ name, AnswersDistinct (localize name)) (context : Context) :
    Option.Rel (fun r r' => Option.Rel (fun e e' => (Value.dict e).Reordered False (.dict e')) r.1.dict r'.1.dict ∧
        ∃ ts us : List Told, ts.Perm us ∧ (∀ t ∈ ts, t.Fair fs) ∧
          (r.1.issues, r.2) = ts.foldl (Expansion.Kept.tell fs) ([], context) ∧
          (r'.1.issues, r'.2) = us.foldl (Expansion.Kept.tell fs) ([], context))
      ((d.expand n localize context).run.eval fs) ((d'.expand n localize context).run.eval fs) := by
  have hsettings : Setting.Reordered ⟨d, localize⟩ ⟨d', localize⟩ := ⟨h, rfl, hlocalize⟩
  have hstart : (Expansion.start context).around.Reordered (Expansion.start context).around := .intro .nil
  have hrun := (agree_expandTo fs hsettings n (.dict h)).run (.start context) (.start context) hstart
  rw [eval_expand, eval_expand]
  change Option.Rel _ (Expanding.eval fs _ _) (Expanding.eval fs _ _) at hrun
  generalize Expanding.eval fs (expandTo ⟨d, localize⟩ n (.dict d)) _ = r at hrun ⊢
  generalize Expanding.eval fs (expandTo ⟨d', localize⟩ n (.dict d')) _ = r' at hrun ⊢
  cases hrun with
  | none => exact .none
  | @some r r' hr =>
    obtain ⟨hanswers, -, -, ts, us, hperm, hfair, hview, hview'⟩ := hr
    refine .some ⟨?_, ts, us, hperm, hfair, hview, hview'⟩
    obtain ⟨a, e⟩ := r
    obtain ⟨a', e'⟩ := r'
    cases hanswers with
    | none => exact .none
    | some hv => exact hv.opened

/-- From contexts with the same base the answer is the same, and so is what is told. -/
theorem Dict.rel_expand_self (fs : Files) (n : Nat) (hd : (Value.dict d).Distinct)
    (hlocalize : ∀ name, AnswersDistinct (localize name))
    {context context' : Context} (hbase : context'.base = context.base) :
    Option.Rel (fun r r' => r.1.dict = r'.1.dict ∧
        ∃ ts : List Told, (r.1.issues, r.2) = ts.foldl (Expansion.Kept.tell fs) ([], context) ∧
          (r'.1.issues, r'.2) = ts.foldl (Expansion.Kept.tell fs) ([], context'))
      ((d.expand n localize context).run.eval fs) ((d.expand n localize context').run.eval fs) := by
  have hd : (Value.dict d).Reordered False (.dict d) := .refl hd
  have hsettings : Setting.Reordered ⟨d, localize⟩ ⟨d, localize⟩ := ⟨hd, rfl, hlocalize⟩
  have hstart : (Expansion.start context).around.Reordered (Expansion.start context).around := .intro .nil
  have haround : (Expansion.start context').around = (Expansion.start context).around := by
    exact congrArg (fun base => Expansion.start (.start base false)) hbase
  have hrun := (agree_expandTo fs hsettings n (.dict hd)).run_self hstart haround
  rw [eval_expand, eval_expand]
  change Option.Rel _ (Expanding.eval fs _ _) (Expanding.eval fs _ _) at hrun
  generalize Expanding.eval fs _ (Expansion.start context) = r at hrun ⊢
  generalize Expanding.eval fs _ (Expansion.start context') = r' at hrun ⊢
  cases hrun with
  | none => exact .none
  | @some r r' hr =>
    obtain ⟨hanswers, -, -, ts, hview, hview'⟩ := hr
    refine .some ⟨?_, ts, hview, hview'⟩
    dsimp only
    rw [hanswers]

end
end AssetPack
