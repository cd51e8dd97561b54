import AssetPack.Description.Located
import AssetPack.Proofs.Description.Cycles
import AssetPack.Proofs.Description.Expanded
import AssetPack.Proofs.Visit

/-!
# Files and references in place

Behind the passes that put files and references in place, nothing is left that stands for a file or an entry.
-/
namespace AssetPack

/-!
## Located files

A visit that finds every file leaves no text with the mark of a file, but it puts in place the canonical
names of files. Where these are absolute they begin with a slash, so they have no mark either.
-/

/-- The marks that are gone when files are located. -/
def Key.sought : List String := Key.file :: Key.lookups

/-- All marks of texts that stand for something else. -/
def Key.marks : List String := Key.reference :: Key.sought

/-- A text without a mark. -/
def Unmarked (text : String) : Prop := ∀ mark ∈ Key.marks, after? mark text = none

/-- An atom whose mark is gone, or the canonical name of a file. -/
def Atom.Located (fs : Files) (a : Atom) : Prop :=
  a.Unmarked Key.sought ∨ ∃ p q, fs.canonical p = .ok q ∧ a = .string q

/-- What is left when files are located. -/
def Vocabulary.located (fs : Files) : Vocabulary :=
  ⟨Atom.Located fs, fun name => name ∉ Key.directives, fun _ => False⟩

/-- Marks begin with other characters. -/
theorem unmarked_of_head {text : String} (h : ∀ c ∈ text.toList.head?, c ≠ 'f' ∧ c ≠ 'l' ∧ c ≠ 'r') :
    Unmarked text := by
  intro mark hmark
  have hhead : ∃ c rest, mark.toList = c :: rest ∧ (c = 'f' ∨ c = 'l' ∨ c = 'r') := by
    simp only [Key.marks, Key.sought, Key.lookups, List.mem_cons, List.not_mem_nil, or_false] at hmark
    rcases hmark with rfl | rfl | rfl | rfl
    · exact ⟨'r', _, rfl, by simp⟩
    · exact ⟨'f', _, rfl, by simp⟩
    · exact ⟨'r', _, rfl, by simp⟩
    · exact ⟨'l', _, rfl, by simp⟩
  obtain ⟨c, rest, hmark, hc⟩ := hhead
  refine if_neg ?_
  rw [hmark]
  cases htext : text.toList with
  | nil => exact Bool.false_ne_true
  | cons d more =>
    rw [htext] at h
    have hd := h d rfl
    intro hmark
    obtain rfl : c = d := eq_of_beq ((Bool.and_eq_true _ _).mp hmark).1
    rcases hc with rfl | rfl | rfl
    · exact hd.1 rfl
    · exact hd.2.1 rfl
    · exact hd.2.2 rfl

theorem unmarked_of_isAbsolute {p : Path} (h : p.isAbsolute) : Unmarked p := by
  have hhead : p.toList.head? = some '/' := by simpa [Path.isAbsolute] using h
  refine unmarked_of_head fun c hc => ?_
  rw [hhead] at hc
  cases hc
  decide

variable {fs : Files} {debug : Bool} {base : Path}

/-- A text is left as it is, or the file it names is there and is consulted. -/
theorem upholds_locate (spot : Spot) {a : Atom} (ha : a.Unmarked Key.lookups) :
    Reply.Upholds (Answers.files fs) (fun _ => True) (Context.Consulted fs debug base) True
      (locate spot (.atom a)) fun v => ∃ w, v = some w ∧ w.Of (.located fs) := by
  unfold locate
  split
  · rename_i hmark
    refine Reply.upholds_pure fun _ _ => ⟨.atom a, rfl, Value.of_atom.mpr (.inl ?_)⟩
    cases a with
    | string s => exact List.forall_mem_cons.mpr ⟨hmark, ha⟩
    | _ => exact ha
  · rename_i relative _
    refine Reply.upholds_of_keeps fun _ => Keeps.bind Keeps.ask fun c hc =>
      Keeps.bind (Keeps.look _) fun answer hanswer => ?_
    cases answer with
    | ok path =>
      have hcanonical : fs.canonical (Path.join c.base relative) = .ok path := hanswer.symm
      refine Keeps.bind (Keeps.look _) fun c' hc' => Keeps.bind (Keeps.put ?_) fun _ _ => Keeps.pure fun _ => ?_
      · rw [hc']
        exact hc.addFile (.canonical hcanonical) spot.root?
      · exact ⟨.string path, rfl, Value.of_atom.mpr (.inr ⟨_, path, hcanonical, rfl⟩)⟩
    | error e =>
      refine Keeps.pure fun hissues => ?_
      rw [Issue.audible_of_own (i := .fileNotFound _) trivial] at hissues
      cases hissues

/-- The dictionary whose files are all located. -/
theorem Dict.of_locate {d e : Dict Value} (hd : d.Of .expanded) {context context' : Context}
    (hcontext : context.Consulted fs debug base) {visited : Visited}
    (h : (d.locate context).eval fs = (visited, context')) (hissues : visited.issues = [])
    (he : visited.dict = some e) : context'.Consulted fs debug base ∧ e.Of (.located fs) := by
  have hmakes : Hooks.Makes (Answers.files fs) (fun _ => True) (Context.Consulted fs debug base)
      (fun _ => True) .expanded (fun _ w => w.Of (.located fs))
      { Hooks.keep with onValue := AssetPack.locate } :=
    Hooks.makes_of_atom (fun _ hname => hname) (fun _ _ => rfl) fun _ _ _ _ ha => upholds_locate _ ha
  have hvisit := Dict.upholds_visitRoot_of_entry (fun _ _ w => w.Of (.located fs)) (fun _ _ => rfl)
    (fun e he => hmakes.visit (fun _ _ _ => trivial) (fun _ hp => hp) (hd.entry he) trivial)
    h.symm hissues trivial
  obtain ⟨hcontext', done, hdict, hdone⟩ := hvisit.2 hcontext
  obtain rfl : e = ⟨done⟩ := Option.some.inj (he.symm.trans hdict)
  exact ⟨hcontext', Dict.of_forall₂ hd (fun _ hname => hname) (fun _ _ hof => hof) hdone⟩

/-!
## Resolved references

A visit that misses no reference leaves no text with a mark. Every reference in an entry is an edge from
that entry in the graph that was gathered, so if no cycle is found there, none is in the entries.
-/

/-- A text without a mark or the canonical name of a file. -/
def Files.Clear (fs : Files) (text : String) : Prop := Unmarked text ∨ ∃ p, fs.canonical p = .ok text

/-- Such a text, a reference to one of the names `R`, or any other atom. -/
def Atom.Resolved (fs : Files) (R : String → Prop) : Atom → Prop
  | .string s => fs.Clear s
  | .ref name => R name
  | _ => True

/-- What is left when references are resolved. -/
def Vocabulary.resolved (fs : Files) (R : String → Prop) : Vocabulary :=
  ⟨Atom.Resolved fs R, fun name => name ∉ Key.directives, fun _ => False⟩

/-- What an entry may refer to: top-level entries that are not reserved. -/
def Dict.Offers (d : Dict Value) (name : String) : Prop := d.contains name ∧ Key.isReserved name = false

/-- The graph `h` has all edges of `g`. -/
def Graph.Within (h g : Graph) : Prop := g.edges ⊆ h.edges

theorem getLast?_cons_of_some {trail : List Step} {step last : Step} (h : trail.getLast? = some last) :
    (step :: trail).getLast? = some last := by
  rw [List.getLast?_cons, h]
  rfl

variable {fs : Files} {g : Graph} {root : Dict Value} {owner : String}

/-- In the entry of `owner` a reference stays within the graph as an edge from there. -/
theorem upholds_resolveRef {trail : List Step} (htrail : trail.getLast? = some (.name owner))
    (issues : List Issue) {a : Atom} (ha : a.Located fs) :
    Reply.Upholds Answers.plain g.Within (fun _ => True) True (resolveRef root ⟨trail, issues⟩ (.atom a))
      fun v => ∃ w, v = some w ∧ w.Of (.resolved fs fun name => g.Refers owner name ∧ root.Offers name) := by
  unfold resolveRef
  split
  · rename_i hmark
    refine Reply.upholds_pure fun _ _ => ⟨.atom a, rfl, Value.of_atom.mpr ?_⟩
    rcases ha with ha | ⟨p, q, hcanonical, rfl⟩
    · cases a with
      | string s => exact .inl (List.forall_mem_cons.mpr ⟨hmark, ha⟩)
      | ref name => exact ha.elim
      | _ => trivial
    · exact .inr ⟨p, hcanonical⟩
  · rename_i name _
    split
    · refine Reply.upholds_pure fun hissues _ => ?_
      exact (Reply.not_own_of_drop hissues trivial).elim
    · rename_i hoffers
      have hroot : (Spot.mk trail issues).root? = some owner := by rw [Spot.root?, htrail]
      rw [hroot]
      intro s reply s' hmay _ hwithin
      cases hmay
      have hedges : s.edges ++ [(owner, name)] ⊆ g.edges := hwithin
      refine ⟨fun edge hedge => hedges (List.mem_append_left _ hedge), fun _ _ => ⟨trivial, _, rfl, ?_⟩⟩
      refine Value.of_atom.mpr ⟨hedges (List.mem_append_right _ List.mem_cons_self), ?_⟩
      simpa [Dict.Offers, and_comm] using hoffers

theorem makes_resolveRef (root : Dict Value) (owner : String) (g : Graph) :
    Hooks.Makes Answers.plain g.Within (fun _ => True) (fun trail => trail.getLast? = some (.name owner))
      (.located fs) (fun _ w => w.Of (.resolved fs fun name => g.Refers owner name ∧ root.Offers name))
      { Hooks.keep with onValue := resolveRef root } :=
  Hooks.makes_of_atom (fun _ hname => hname) (fun _ _ => rfl)
    fun _ issues _ htrail ha => upholds_resolveRef htrail issues ha

/-- The dictionary whose references are all resolved. No entry leads back to itself. -/
theorem Dict.of_resolveRefs {d e : Dict Value} (hd : d.Of (.located fs)) (hissues : d.resolveRefs.issues = [])
    (he : d.resolveRefs.dict = some e) :
    ∃ g : Graph, e.names = d.names ∧ (∀ name, ¬Relation.TransGen g.Refers name name) ∧
      ∀ entry ∈ e.entries, entry.1 ∉ Key.directives ∧
        entry.2.Of (.resolved fs fun name => g.Refers entry.1 name ∧ d.Offers name) := by
  have hboth : (d.visitRoot (m := StateM Graph) { Hooks.keep with onValue := resolveRef d } ⟨[]⟩).1.issues = [] ∧
      (d.visitRoot (m := StateM Graph) { Hooks.keep with onValue := resolveRef d } ⟨[]⟩).2.cycles.map
        Issue.referenceCycle = [] := List.append_eq_nil_iff.mp hissues
  have hdict : d.resolveRefs.dict =
      (d.visitRoot (m := StateM Graph) { Hooks.keep with onValue := resolveRef d } ⟨[]⟩).1.dict := rfl
  generalize hrun : d.visitRoot (m := StateM Graph) { Hooks.keep with onValue := resolveRef d } ⟨[]⟩ = out at hboth hdict
  obtain ⟨visited, g⟩ := out
  have hentries := fun (e : String × Value) (he : e ∈ d.entries) =>
    (makes_resolveRef d e.1 g).visit (fun _ _ h => getLast?_cons_of_some h) (fun _ hp => hp) (hd.entry he)
      (rfl : [Step.name e.1].getLast? = some (.name e.1))
  have hvisit := Dict.upholds_visitRoot_of_entry (A := Answers.plain)
    (fun owner _ w => w.Of (.resolved fs fun name => g.Refers owner name ∧ d.Offers name)) (fun _ _ => rfl) hentries
    hrun.symm hboth.1 (List.Subset.refl _)
  obtain ⟨_, done, hdone, hforall⟩ := hvisit.2 trivial
  obtain rfl : e = ⟨done⟩ := Option.some.inj (he.symm.trans (hdict.trans hdone))
  refine ⟨g, names_of_forall₂ hforall, ?_, fun entry hentry => ?_⟩
  · exact Graph.not_cyclic_of_cycles (List.map_eq_nil_iff.mp hboth.2)
  · obtain ⟨e, he, hname, hof⟩ := exists_of_forall₂ hforall hentry
    rw [← hname]
    exact ⟨hd.name (Dict.mem_names he), hof⟩

end AssetPack
