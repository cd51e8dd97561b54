import AssetPack.Proofs.Description.Entries
import AssetPack.Proofs.Visit.Asked

/-!
# Siblings

The siblings of all resources are added one by one behind the entries, each unless its name is in use by then. So either
all of them stand in the compiled description, and every entry stands as it was saved, or the compile ends with an issue
for each one that came to a name in use.
-/
namespace AssetPack
variable {σ : Type} {fs : Files}

/-! ## What notes leave alone -/

section
variable {I : Context → Prop}

theorem Context.Steady.debug (fs : Files) (b : Bool) : Steady fs fun c => c.debug = b := by
  intro c note h
  cases note with
  | issue i => exact h
  | output name bytes =>
    show (c.addOutput name bytes).debug = b
    unfold addOutput
    split <;> exact h
  | file owner path =>
    show ((c.addFile owner path).eval fs).debug = b
    rw [Context.addFile, Look.eval_bind]
    exact h

theorem Context.debug_addSymbol (c : Context) (symbol name : String) : (c.addSymbol symbol name).debug = c.debug := by
  unfold addSymbol
  split <;> rfl

theorem Loading.keeps_noting (hI : Context.Steady fs I) {α : Type} (x : Context → StateT σ Look (α × List Note)) :
    Keeps (Answers.files fs) (fun l : Loading σ => I l.context) (noting x) fun _ => True := by
  refine Keeps.bind Keeps.ask fun l hl => Keeps.bind (Keeps.look _) fun a _ => ?_
  obtain ⟨⟨a, notes⟩, world⟩ := a
  refine Keeps.bind (Keeps.look _) fun c hc => Keeps.bind (Keeps.put ?_) fun _ _ => Keeps.pure trivial
  rw [hc]
  exact hI.addAll hl notes

theorem Loading.keeps_addSymbol {symbol name : String} (hsymbol : ∀ c, I c → I (c.addSymbol symbol name)) :
    Keeps (Answers.files fs) (fun l : Loading σ => I l.context) (addSymbol symbol name) fun _ => True := by
  unfold addSymbol
  split
  · exact Keeps.change fun l hl => hsymbol l.context hl
  · exact Keeps.pure trivial

/-- The making of a resource keeps what its notes keep, and its symbol if it is given one. -/
theorem Loading.keeps_load (hI : Context.Steady fs I) (registry : Registry σ) (s : Spot) (d : Dict Value)
    (hsymbol : ∀ name, s.trail = [.name name] → ∀ c, I c → I (c.addSymbol (symbolFor name d) name)) :
    Keeps (Answers.files fs) (fun l : Loading σ => I l.context) (load registry s d) fun _ => True := by
  obtain ⟨trail, issues⟩ := s
  unfold load
  simp only
  split
  · exact Keeps.pure trivial
  · rename_i name
    refine Keeps.bind (keeps_addSymbol (hsymbol name rfl)) fun _ _ => ?_
    split
    · exact Keeps.pure trivial
    · split
      · exact Keeps.pure trivial
      · refine Keeps.bind (keeps_noting hI _) fun made _ => ?_
        cases made with
        | none => exact Keeps.pure trivial
        | some r => exact Keeps.bind (Keeps.change fun _ hl => hl) fun _ _ => Keeps.pure trivial
  · split
    · exact Keeps.pure trivial
    · split
      · exact Keeps.pure trivial
      · refine Keeps.bind (keeps_noting hI _) fun made _ => ?_
        cases made with
        | none => exact Keeps.pure trivial
        | some r =>
          dsimp only
          split
          · exact Keeps.bind (Keeps.change fun _ hl => hl) fun _ _ => Keeps.pure trivial
          · refine Keeps.bind (keeps_noting hI _) fun ok _ => ?_
            split
            · exact Keeps.pure trivial
            · split <;> exact Keeps.pure trivial

theorem Finishing.keepsContext_of_steady (hI : Context.Steady fs I) (r : Resource σ) :
    KeepsContext fs I (complete r) := by
  refine Keeps.bind Keeps.ask fun f hf => Keeps.bind (Keeps.look _) fun a _ => ?_
  obtain ⟨⟨ok, notes⟩, world⟩ := a
  refine Keeps.bind (Keeps.look _) fun c hc => Keeps.bind (Keeps.put ?_) fun _ _ => Keeps.pure trivial
  rw [hc]
  exact hI.addAll hf notes

theorem keeps_locate (hI : Context.Steady fs I) (s : Spot) (v : Value) :
    Keeps (Answers.files fs) I (locate s v) fun _ => True := by
  unfold locate
  split
  · exact Keeps.pure trivial
  · refine Keeps.bind Keeps.ask fun c hc => Keeps.bind (Keeps.look _) fun found _ => ?_
    cases found with
    | error e => exact Keeps.pure trivial
    | ok path =>
      refine Keeps.bind (Keeps.look _) fun c' hc' => Keeps.bind (Keeps.put ?_) fun _ _ => Keeps.pure trivial
      rw [hc']
      exact hI.addFile hc s.root? path

namespace Pass
variable {registry : Registry σ} {p : Ended σ} {d : Dict Value}

theorem steady_files (hI : Context.Steady fs I) (h : I p.context) : I (files.run fs registry p d).context :=
  (Dict.keeps_visitRoot (keeps_locate hI) (fun _ _ => Keeps.pure trivial) d p.context _ _ rfl h).1

theorem steady_finishing (hI : Context.Steady fs I) (h : I p.context) : I (finishing.run fs registry p d).context :=
  (Finishing.keepsContext_finishAll (fun root _ => Finishing.keepsContext_of_steady hI root.2)
    ⟨∅, [], p.context, p.world⟩ _ _ rfl h).1

/-- What symbols do not change either is kept by the pass over objects. -/
theorem steady_objects (hI : Context.Steady fs I) (hsymbol : ∀ c symbol name, I c → I (c.addSymbol symbol name))
    (h : I p.context) : I (objects.run fs registry p d).context :=
  (Dict.keeps_visitRoot (I := fun l : Loading σ => I l.context) (fun _ _ => Keeps.pure trivial)
    (fun s d => Loading.keeps_load hI registry s d fun name _ c => hsymbol c _ name) d ⟨p.context, [], p.world⟩ _ _
      rfl h).1

end Pass

end

/-! ## Siblings in order -/

/-- A sibling that a resource brings along. -/
structure Sibling where
  /-- the name of the resource -/
  owner : String
  name : String
  value : Value

/-- The siblings of all resources, in the order in which they are added. -/
def siblingsOf (roots : List (String × Resource σ)) : List Sibling :=
  roots.flatMap fun root => (root.2.siblings root.1).entries.map fun entry => ⟨root.1, entry.1, entry.2⟩

namespace Sibling

/-- The entry that a sibling becomes. -/
def entry (x : Sibling) : String × Value := (x.name, x.value)

/-- What is said about a sibling whose name is in use. -/
def issue (x : Sibling) : Issue := .siblingInUse x.name x.owner

/-- The symbol of a sibling with its name, unless that is reserved. -/
def symbol? (x : Sibling) : Option (String × String) :=
  if Key.isReserved x.name then none else some (symbolOf x.name, x.name)

/-- Add a sibling to a dictionary, its symbol to the context, or its issue to the others. -/
def add (s : Dict Value × Context × List Issue) (x : Sibling) : Dict Value × Context × List Issue :=
  addSibling x.owner s x.entry

/-- An entry has the name of the sibling, or a sibling before it. -/
def InUse (d : Dict Value) (before : List Sibling) (x : Sibling) : Prop :=
  x.name ∈ d.names ∨ x.name ∈ before.map (·.name)

instance (d : Dict Value) (before : List Sibling) (x : Sibling) : Decidable (x.InUse d before) :=
  inferInstanceAs (Decidable (_ ∨ _))

end Sibling

theorem addSiblings_eq (roots : List (String × Resource σ)) (d : Dict Value) (context : Context) :
    addSiblings roots d context = (siblingsOf roots).foldl Sibling.add (d, context, []) := by
  rw [addSiblings, siblingsOf, List.foldl_flatMap]
  simp only [List.foldl_map]
  rfl

/-! ## Names in use -/

/-- The siblings that come to a name in use, in order. -/
def colliding (d : Dict Value) (all : List Sibling) : List Sibling :=
  (all.zipIdx.filter fun (x, i) => x.InUse d (all.take i)).map (·.1)

theorem colliding_concat (d : Dict Value) (xs : List Sibling) (x : Sibling) :
    colliding d (xs ++ [x]) = colliding d xs ++ if x.InUse d xs then [x] else [] := by
  have hbefore : xs.zipIdx.filter (fun (y, i) => y.InUse d ((xs ++ [x]).take i)) =
      xs.zipIdx.filter fun (y, i) => y.InUse d (xs.take i) := by
    refine List.filter_congr fun ⟨y, i⟩ hy => ?_
    have hlt : i < xs.length := List.snd_lt_of_mem_zipIdx hy
    dsimp only
    rw [List.take_append_of_le_length hlt.le]
  rw [colliding, List.zipIdx_append, List.filter_append, List.map_append, hbefore, ← colliding]
  by_cases hx : x.InUse d xs
  · simp [hx]
  · simp [hx]

/-- No sibling comes to a name in use just if all have different names, and no entry has one of these. -/
theorem colliding_eq_nil_iff {d : Dict Value} {xs : List Sibling} :
    colliding d xs = [] ↔ (xs.map (·.name)).Nodup ∧ ∀ x ∈ xs, x.name ∉ d.names := by
  induction xs using List.reverseRecOn with
  | nil => exact ⟨fun _ => ⟨List.nodup_nil, List.forall_mem_nil _⟩, fun _ => rfl⟩
  | append_singleton xs x ih =>
    have hlast : (if x.InUse d xs then [x] else []) = [] ↔ ¬x.InUse d xs := by
      by_cases hx : x.InUse d xs <;> simp [hx]
    rw [colliding_concat, List.append_eq_nil_iff, ih, hlast, Sibling.InUse, not_or, List.map_append, List.map_cons,
      List.map_nil, ← List.concat_eq_append, List.nodup_concat, List.forall_mem_append, List.forall_mem_singleton]
    tauto

theorem lookup_entry_eq_none_iff {xs : List Sibling} {name : String} :
    (xs.map Sibling.entry).lookup name = none ↔ name ∉ xs.map (·.name) := by
  have hnone : (⟨xs.map Sibling.entry⟩ : Dict Value).get? name = none ↔ _ := Dict.get?_eq_none_iff
  rwa [Dict.names, List.map_map] at hnone

/-- Where no sibling comes to a name in use, each is the only one of its name, and no entry has it. -/
theorem lookup_of_colliding {d : Dict Value} {xs : List Sibling} (h : colliding d xs = []) {x : Sibling} (hx : x ∈ xs) :
    d.get? x.name = none ∧ (xs.map Sibling.entry).lookup x.name = some x.value := by
  induction xs using List.reverseRecOn with
  | nil => cases hx
  | append_singleton xs y ih =>
    rw [colliding_concat, List.append_eq_nil_iff] at h
    obtain ⟨hxs, hy⟩ := h
    rw [List.map_append, List.lookup_append]
    rcases List.mem_append.mp hx with hx | hx
    · obtain ⟨hget, hlookup⟩ := ih hxs hx
      exact ⟨hget, by rw [hlookup, Option.some_or]⟩
    · obtain rfl := List.mem_singleton.mp hx
      have hfree : ¬x.InUse d xs := fun huse => by simp [huse] at hy
      obtain ⟨hnames, hbefore⟩ := not_or.mp hfree
      refine ⟨Dict.get?_eq_none_iff.mpr hnames, ?_⟩
      rw [lookup_entry_eq_none_iff.mpr hbefore, Option.none_or]
      exact List.lookup_cons_self

namespace Sibling

theorem get?_add (s : Dict Value × Context × List Issue) (x : Sibling) (name : String) :
    (x.add s).1.get? name = (s.1.get? name).or ([x.entry].lookup name) := by
  obtain ⟨d, context, issues⟩ := s
  have hlookup : [x.entry].lookup name = if name = x.name then some x.value else none := by
    rw [entry, List.lookup_cons]
    by_cases hname : name = x.name
    · simp [hname]
    · simp [hname, beq_eq_false_iff_ne.mpr hname]
  rw [hlookup, add, addSibling, entry]
  dsimp only
  split
  · rename_i huse
    split
    · rename_i hname
      rw [Option.or_of_isSome (hname ▸ huse)]
    · rw [Option.or_none]
  · rename_i hfree
    rw [Dict.get?_set]
    split
    · rename_i hname
      rw [hname, Option.not_isSome_iff_eq_none.mp hfree, Option.none_or]
    · rw [Option.or_none]

end Sibling

/-- What is found after siblings were added to a dictionary is what was there, or else the first sibling of the name. -/
theorem get?_foldl_add (xs : List Sibling) (s : Dict Value × Context × List Issue) (name : String) :
    (xs.foldl Sibling.add s).1.get? name = (s.1.get? name).or ((xs.map Sibling.entry).lookup name) := by
  induction xs generalizing s with
  | nil => rw [List.foldl_nil, List.map_nil, List.lookup_nil, Option.or_none]
  | cons x rest ih =>
    rw [List.foldl_cons, ih, Sibling.get?_add, Option.or_assoc, ← List.lookup_append, List.map_cons,
      List.singleton_append]

/-- A name is there after siblings were added if it was in use before the next one. -/
theorem contains_foldl_add (xs : List Sibling) (s : Dict Value × Context × List Issue) (x : Sibling) :
    (xs.foldl Sibling.add s).1.contains x.name ↔ x.InUse s.1 xs := by
  have hnone : (xs.foldl Sibling.add s).1.get? x.name = none ↔ ¬x.InUse s.1 xs := by
    rw [get?_foldl_add, Option.or_eq_none_iff, Dict.get?_eq_none_iff, lookup_entry_eq_none_iff, Sibling.InUse, not_or]
  rw [Dict.contains_iff, ← not_iff_not, ← hnone, Dict.get?_eq_none_iff]

/-- An issue is added for each sibling that comes to a name in use, and no other. -/
theorem issues_foldl_add (xs : List Sibling) (s : Dict Value × Context × List Issue) :
    (xs.foldl Sibling.add s).2.2 = s.2.2 ++ (colliding s.1 xs).map Sibling.issue := by
  induction xs using List.reverseRecOn with
  | nil => exact (List.append_nil _).symm
  | append_singleton xs x ih =>
    have huse := contains_foldl_add xs s x
    rw [List.foldl_append, List.foldl_cons, List.foldl_nil, colliding_concat, List.map_append, ← List.append_assoc,
      ← ih]
    generalize xs.foldl Sibling.add s = t at huse ⊢
    obtain ⟨d, context, issues⟩ := t
    rw [Sibling.add, addSibling, Sibling.entry]
    dsimp only at huse ⊢
    by_cases hx : x.InUse s.1 xs
    · rw [if_pos (huse.mpr hx), if_pos hx]
      rfl
    · rw [if_neg (mt huse.mp hx), if_neg hx]
      exact (List.append_nil _).symm

/-- Where no name is in use each sibling gets its symbol, in order. -/
theorem symbols_foldl_add {xs : List Sibling} {s : Dict Value × Context × List Issue} (h : colliding s.1 xs = []) :
    (xs.foldl Sibling.add s).2.1.symbols = (xs.filterMap Sibling.symbol?).foldl Dict.withSymbol s.2.1.symbols := by
  induction xs using List.reverseRecOn with
  | nil => rfl
  | append_singleton xs x ih =>
    rw [colliding_concat, List.append_eq_nil_iff] at h
    obtain ⟨hxs, hx⟩ := h
    have hfree : ¬x.InUse s.1 xs := fun huse => by simp [huse] at hx
    have huse := contains_foldl_add xs s x
    rw [List.foldl_append, List.foldl_cons, List.foldl_nil, List.filterMap_append, List.foldl_append, ← ih hxs]
    generalize xs.foldl Sibling.add s = t at huse ⊢
    obtain ⟨d, context, issues⟩ := t
    rw [Sibling.add, addSibling, Sibling.entry, List.filterMap_cons, Sibling.symbol?]
    dsimp only at huse ⊢
    rw [if_neg (mt huse.mp hfree)]
    cases Key.isReserved x.name with
    | true => rfl
    | false => exact context.symbols_addSymbol _ _

/-- Of the context only the symbols change. -/
theorem foldl_add_keeps {I : Context → Prop} (hsymbol : ∀ c symbol name, I c → I (c.addSymbol symbol name))
    (xs : List Sibling) {s : Dict Value × Context × List Issue} (h : I s.2.1) : I (xs.foldl Sibling.add s).2.1 := by
  refine List.foldlRecOn (motive := fun s : Dict Value × Context × List Issue => I s.2.1) xs _ h fun s hs x _ => ?_
  obtain ⟨d, context, issues⟩ := s
  rw [Sibling.add, addSibling, Sibling.entry]
  dsimp only at hs ⊢
  split
  · exact hs
  · dsimp only
    split
    · exact hs
    · exact hsymbol context _ _ hs

/-! ## In a compile -/

namespace Ended
variable {registry : Registry σ} {passes : List Pass} {p q : Ended σ}

/-- From any of its passes on the chain goes through the passes that are left. -/
theorem getLast?_ends_of_getElem? {i : ℕ} (h : (p.ends fs registry passes)[i]? = some q) :
    (p.ends fs registry passes).getLast? = (q.ends fs registry (passes.drop i)).getLast? := by
  induction i generalizing p passes with
  | zero =>
    obtain rfl : p = q := by
      cases passes <;> exact Option.some.inj h
    rfl
  | succ i ih =>
    cases passes with
    | nil => cases h
    | cons pass rest =>
      cases hconcluded : p.concluded with
      | ok d =>
        rw [ends_of_ok hconcluded, List.getElem?_cons_succ] at h
        rw [getLast?_ends_of_ok hconcluded, List.drop_succ_cons]
        exact ih h
      | error issues =>
        rw [ends_of_error hconcluded] at h
        cases h

/-- What neither notes nor symbols change holds in all passes. -/
theorem steady_ends {I : Context → Prop} (hI : Context.Steady fs I)
    (hsymbol : ∀ c symbol name, I c → I (c.addSymbol symbol name)) (hp : I p.context)
    (hq : q ∈ p.ends fs registry passes) : I q.context := by
  induction passes generalizing p with
  | nil =>
    obtain rfl := List.mem_singleton.mp hq
    exact hp
  | cons pass rest ih =>
    cases hconcluded : p.concluded with
    | ok d =>
      rw [ends_of_ok hconcluded] at hq
      rcases List.mem_cons.mp hq with rfl | hq
      · exact hp
      · refine ih ?_ hq
        cases pass with
        | files => exact Pass.steady_files hI hp
        | references => exact hp
        | objects => exact Pass.steady_objects hI hsymbol hp
        | finishing => exact Pass.steady_finishing hI hp
        | saving =>
          simp only [Pass.run, addSiblings_eq]
          exact foldl_add_keeps hsymbol _ hp
    | error issues =>
      rw [ends_of_error hconcluded] at hq
      obtain rfl := List.mem_singleton.mp hq
      exact hp

end Ended

/-- All passes of a compile know whether it is a debug compile. -/
theorem Dict.debug_of_mem_ends {fuel : Nat} {o : Options σ} {base : Path} {d : Dict Value} {w : σ} {p : Ended σ}
    (hp : p ∈ d.ends fs fuel o base w) : p.context.debug = o.debug := by
  cases hexpand : (d.expand fuel o.localize (.start base o.debug)).run.eval fs with
  | none =>
    rw [ends, hexpand] at hp
    cases hp
  | some r =>
    obtain ⟨visited, context⟩ := r
    rw [ends_of_expand hexpand] at hp
    have hcontext : context.debug = o.debug := (Context.Steady.debug fs o.debug).of_expand hexpand rfl
    exact Ended.steady_ends (.debug fs o.debug) (fun c symbol name hc => (c.debug_addSymbol symbol name).trans hc)
      hcontext hp

/-- A context without issues lets a pass end well just if the pass found none. -/
theorem Context.conclude_of_nil {c : Context} (hc : c.issues = []) (d : Dict Value) (issues : List Issue) :
    c.conclude (some d) issues = if issues = [] then .ok d else .error issues := by
  cases issues with
  | nil => simp [conclude, hc]
  | cons i rest => simp [conclude, hc]

/-- Under a name that is not reserved a compile without debug has what the last pass left there. -/
theorem get?_withMetadata {context : Context} (hdebug : context.debug = false) {name : String}
    (hname : Key.isReserved name = false) (d : Dict Value) : (withMetadata context d).get? name = d.get? name := by
  refine Outlasts.withMetadata (P := fun e => e.get? name = d.get? name)
    ⟨fun e other v he hother _ => ?_, fun h => absurd h (Bool.eq_false_iff.mp hdebug)⟩ rfl
  have hne : name ≠ other := by
    rintro rfl
    cases hname.symm.trans hother
  rw [Dict.get?_set, if_neg hne]
  exact he

section
variable {fuel : Nat} {o : Options σ} {base : Path} {d : Dict Value} {w : σ} {p : Ended σ} {loaded : Dict Value}

/-- How a compile ends whose resources finished. -/
theorem Dict.eval_compile_of_finishing (hp : (d.ends fs fuel o base w)[1 + Pass.all.idxOf .finishing]? = some p)
    (hloaded : p.concluded = .ok loaded) : Compiling.eval fs (d.compile fuel o base) w =
      some (Pass.saving.run fs o.registry p loaded).outcome := by
  rw [eval_compile]
  cases hexpand : (d.expand fuel o.localize (.start base o.debug)).run.eval fs with
  | none =>
    rw [ends, hexpand] at hp
    cases hp
  | some r =>
    obtain ⟨visited, context⟩ := r
    rw [ends_of_expand hexpand] at hp ⊢
    have hrest : Pass.all.drop (1 + Pass.all.idxOf .finishing) = [.saving] := by decide
    rw [Ended.getLast?_ends_of_getElem? hp, hrest, Ended.ends_of_ok hloaded]
    rfl

/-- Let the resources of a compile without debug finish, so that they are saved and their siblings added. What is said
about the siblings is one issue for each that comes to a name in use, and nothing is said just if they all have
different names that no entry has. If nothing is said, and nothing was said about the saving, the compiled description
has, under names that are not reserved, the saved entries and the siblings with their values and nothing else. If
anything is said, the compile ends with that and makes nothing. -/
theorem Dict.compile_siblings (hdebug : o.debug = false)
    (hp : (d.ends fs fuel o base w)[1 + Pass.all.idxOf .finishing]? = some p) (hloaded : p.concluded = .ok loaded) :
    let saved := saveRoots p.roots loaded
    let siblings := siblingsOf p.roots
    let said := (colliding saved.1 siblings).map Sibling.issue
    (addSiblings p.roots saved.1 p.context).2.2 = said ∧
    (said = [] ↔ (siblings.map (·.name)).Nodup ∧ ∀ x ∈ siblings, x.name ∉ loaded.names) ∧
    (saved.2 ++ said = [] → ∃ e, Compiling.eval fs (d.compile fuel o base) w = some (.ok e, p.world) ∧
      ∀ name v, Key.isReserved name = false → (e.get? name = some v ↔
        saved.1.get? name = some v ∨ ∃ x ∈ siblings, x.name = name ∧ x.value = v)) ∧
    (saved.2 ++ said ≠ [] →
      Compiling.eval fs (d.compile fuel o base) w = some (.error (saved.2 ++ said), p.world)) := by
  intro saved siblings said
  have hsaid : (addSiblings p.roots saved.1 p.context).2.2 = said := by
    rw [addSiblings_eq, issues_foldl_add, List.nil_append]
  have hcontext : (addSiblings p.roots saved.1 p.context).2.1.debug = false ∧
      (addSiblings p.roots saved.1 p.context).2.1.issues = [] := by
    have hissues : p.context.issues = [] := (List.append_eq_nil_iff.mp (Context.of_conclude hloaded).2).2
    have hdebug : p.context.debug = false := (debug_of_mem_ends (List.mem_of_getElem? hp)).trans hdebug
    rw [addSiblings_eq]
    exact ⟨foldl_add_keeps (fun c symbol name hc => (c.debug_addSymbol symbol name).trans hc) _ hdebug,
      foldl_add_keeps (fun c symbol name hc => (c.issues_addSymbol symbol name).trans hc) _ hissues⟩
  have houtcome : (Pass.saving.run fs o.registry p loaded).outcome =
      ((if saved.2 ++ said = [] then .ok (addSiblings p.roots saved.1 p.context).1 else .error (saved.2 ++ said) :
        Outcome).map (withMetadata (addSiblings p.roots saved.1 p.context).2.1), p.world) := by
    rw [Ended.outcome, Ended.concluded, ← hsaid, ← Context.conclude_of_nil hcontext.2]
    rfl
  have heval := eval_compile_of_finishing hp hloaded
  rw [houtcome] at heval
  refine ⟨hsaid, ?_, fun hnone => ?_, fun hsome => ?_⟩
  · rw [List.map_eq_nil_iff, colliding_eq_nil_iff, names_saveRoots]
  · rw [if_pos hnone] at heval
    refine ⟨_, heval, fun name v hname => ?_⟩
    have hfree : colliding saved.1 siblings = [] := List.map_eq_nil_iff.mp (List.append_eq_nil_iff.mp hnone).2
    rw [get?_withMetadata hcontext.1 hname, addSiblings_eq, get?_foldl_add, Option.or_eq_some_iff]
    refine or_congr_right ⟨fun h => ?_, ?_⟩
    · obtain ⟨_, hlookup⟩ := h
      obtain ⟨x, hx, hentry⟩ := List.mem_map.mp (mem_of_get? (d := ⟨siblings.map Sibling.entry⟩) hlookup)
      exact ⟨x, hx, congrArg Prod.fst hentry, congrArg Prod.snd hentry⟩
    · rintro ⟨x, hx, rfl, rfl⟩
      exact lookup_of_colliding hfree hx
  · rw [if_neg hsome] at heval
    exact heval

end

/-- A type whose resources have a frame as a sibling. -/
def sheet : Factory Unit where
  fromSource _ _ := return (some { Resource.simple "sheet" .other (fun d => (true, d)) with
    siblings := fun owner => Dict.ofList [(owner ++ "_0", .string "frame")] }, [])
  fromCache _ := return none

/-- A sheet before another entry. -/
def sheetAnd (other : String) : Dict Value :=
  Dict.ofList [("hero", .dict (Dict.ofList [(Key.type, .string "sheet")])), (other, .string "y")]

theorem Ended.exists_of_concluded {x : Option (Ended σ)} {P : Ended σ → Dict Value → Prop}
    (h : ∃ p ∈ x, ∃ d ∈ p.concluded.toOption, P p d) : ∃ p d, x = some p ∧ p.concluded = .ok d ∧ P p d := by
  obtain ⟨p, hp, d, hd, hP⟩ := h
  refine ⟨p, d, hp, ?_, hP⟩
  cases hconcluded : p.concluded with
  | ok e =>
    rw [hconcluded] at hd
    exact congrArg Except.ok (Option.some.inj hd)
  | error issues =>
    rw [hconcluded] at hd
    cases hd

def sheetOptions : Options Unit := ⟨false, ⟨⟨[("sheet", sheet)]⟩⟩, fun _ => none⟩

theorem compile_siblings_sheetAnd :
    (∃ e, Compiling.eval noFiles ((sheetAnd "x").compile 8 sheetOptions "") () = some (.ok e, ()) ∧
      (e.get? "x").bind Value.string? = some "y" ∧ (e.get? "hero_0").bind Value.string? = some "frame") ∧
    Compiling.eval noFiles ((sheetAnd "hero_0").compile 8 sheetOptions "") () =
      some (.error [.siblingInUse "hero_0" "hero"], ()) := by
  obtain ⟨p, loaded, hp, hloaded, hsaid, hkept, x, hmem, hname, hframe⟩ := Ended.exists_of_concluded
    (x := ((sheetAnd "x").ends noFiles 8 sheetOptions "" ())[4]?) (P := fun p loaded => (saveRoots p.roots loaded).2 ++
        (colliding (saveRoots p.roots loaded).1 (siblingsOf p.roots)).map Sibling.issue = [] ∧
      ((saveRoots p.roots loaded).1.get? "x").bind Value.string? = some "y" ∧
      ∃ x ∈ siblingsOf p.roots, x.name = "hero_0" ∧ x.value.string? = some "frame") (by decide +kernel)
  obtain ⟨_, _, hmade, _⟩ := Dict.compile_siblings rfl hp hloaded
  obtain ⟨e, he, hget⟩ := hmade hsaid
  obtain ⟨v, hv, hy⟩ := Option.bind_eq_some_iff.mp hkept
  have hkept : e.get? "x" = some v := (hget _ _ (by decide)).mpr (.inl hv)
  have hadded : e.get? "hero_0" = some x.value := (hget _ _ (by decide)).mpr (.inr ⟨x, hmem, hname, rfl⟩)
  refine ⟨⟨e, he, ?_, ?_⟩, ?_⟩
  · rw [hkept, Option.bind_some, hy]
  · rw [hadded, Option.bind_some, hframe]
  obtain ⟨p, loaded, hp, hloaded, hsaid⟩ := Ended.exists_of_concluded
    (x := ((sheetAnd "hero_0").ends noFiles 8 sheetOptions "" ())[4]?)
    (P := fun p loaded => (saveRoots p.roots loaded).2 ++
      (colliding (saveRoots p.roots loaded).1 (siblingsOf p.roots)).map Sibling.issue =
        [.siblingInUse "hero_0" "hero"]) (by decide +kernel)
  obtain ⟨_, _, _, hfailed⟩ := Dict.compile_siblings rfl hp hloaded
  rw [hsaid] at hfailed
  exact hfailed (List.cons_ne_nil _ _)

end AssetPack
