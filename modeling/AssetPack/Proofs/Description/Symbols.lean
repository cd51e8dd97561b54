import AssetPack.Proofs.Description.Rerecorded
import AssetPack.Proofs.Description.Siblings

/-!
# The table of symbols

A symbol is made of the capitals, digits and underscores that a name gives, and is its own symbol. A compiled
description lists the symbols of its top-level dictionaries, as they are when the objects are loaded, and of the
siblings. Each goes to the first of these that asks for it.
-/
namespace AssetPack

/-! ## The symbol of a name -/

/-- Capitals, digits and underscores, of which the first is no digit. -/
structure IsSymbol (cs : List Char) : Prop where
  capitals : ∀ c ∈ cs, c.isUpper ∨ c.isDigit ∨ c = '_'
  first : ∀ c ∈ cs.head?, c.isDigit = false

theorem inSymbol_eq (c : Char) : inSymbol c = (c.isUpper || c.isLower || c.isDigit || c == '_') := rfl

theorem isUpper_eq (c : Char) : c.isUpper = decide (c.val ≥ 'A'.val ∧ c.val ≤ 'Z'.val) := rfl

theorem isLower_eq (c : Char) : c.isLower = (decide (c.val ≥ 'a'.val) && decide (c.val ≤ 'z'.val)) := rfl

/-- All characters that can stand in a symbol are of ASCII. -/
theorem forall_inSymbol {P : Char → Prop} (h : ∀ n : Fin 128, inSymbol (Char.ofNat n) → P (Char.ofNat n)) {c : Char}
    (hc : inSymbol c) : P c := by
  have hlt : c.toNat < 128 := by
    simp only [inSymbol_eq, isUpper_eq, isLower_eq, Char.isDigit, Bool.or_eq_true, Bool.and_eq_true, decide_eq_true_eq,
      beq_iff_eq, UInt32.le_iff_toNat_le, ge_iff_le] at hc
    have hval : c.toNat = c.val.toNat := rfl
    rcases hc with hc | rfl
    · have hz : 'z'.val.toNat = 122 := rfl
      have hZ : 'Z'.val.toNat = 90 := rfl
      have h9 : '9'.val.toNat = 57 := rfl
      omega
    · decide
  have hP := h ⟨c.toNat, hlt⟩
  rw [Char.ofNat_toNat] at hP
  exact hP hc

theorem capital_toUpper {c : Char} (hc : inSymbol c) : c.toUpper.isUpper ∨ c.toUpper.isDigit ∨ c.toUpper = '_' :=
  forall_inSymbol (P := fun c => c.toUpper.isUpper ∨ c.toUpper.isDigit ∨ c.toUpper = '_') (by decide +kernel) hc

theorem isDigit_toUpper {c : Char} (hc : inSymbol c) : c.toUpper.isDigit = c.isDigit :=
  forall_inSymbol (P := fun c => c.toUpper.isDigit = c.isDigit) (by decide +kernel) hc

/-- A capital, digit or underscore stands in a symbol as it is. -/
theorem toUpper_of_capital {c : Char} (hc : c.isUpper ∨ c.isDigit ∨ c = '_') : inSymbol c ∧ c.toUpper = c := by
  have hin : inSymbol c := by
    rcases hc with hc | hc | rfl
    · simp [inSymbol_eq, hc]
    · simp [inSymbol_eq, hc]
    · decide
  exact ⟨hin, forall_inSymbol (P := fun c => c.isUpper ∨ c.isDigit ∨ c = '_' → c.toUpper = c)
    (by decide +kernel) hin hc⟩

theorem IsSymbol.nil : IsSymbol [] := ⟨List.forall_mem_nil _, by rintro _ ⟨⟩⟩

/-- A further character keeps the form of a symbol, behind an underscore if one is due. -/
theorem IsSymbol.concat {done : List Char} (h : IsSymbol done) {c : Char} (hc : inSymbol c) {gap : Bool} :
    IsSymbol (done ++ (if (gap || (done.isEmpty && c.isDigit)) && c != '_' then ['_'] else []) ++ [c.toUpper]) where
  capitals x hx := by
    rcases List.mem_append.mp hx with hx | hx
    · rcases List.mem_append.mp hx with hx | hx
      · exact h.capitals x hx
      · split at hx
        · exact .inr (.inr (List.mem_singleton.mp hx))
        · cases hx
    · rw [List.mem_singleton.mp hx]
      exact capital_toUpper hc
  first x hx := by
    cases done with
    | cons y rest => exact h.first x hx
    | nil =>
      -- a digit does not come first without an underscore
      cases hdue : (gap || (([] : List Char).isEmpty && c.isDigit)) && c != '_' with
      | true =>
        rw [hdue] at hx
        cases hx
        rfl
      | false =>
        rw [hdue] at hx
        cases hx
        rw [isDigit_toUpper hc]
        by_contra hdigit
        rw [Bool.not_eq_false] at hdigit
        simp only [List.isEmpty_nil, hdigit, Bool.and_true, Bool.or_true, Bool.true_and, bne_eq_false_iff_eq] at hdue
        subst hdue
        cases hdigit

theorem isSymbol_symbolFrom {done : List Char} (h : IsSymbol done) (gap : Bool) (cs : List Char) :
    IsSymbol (symbolFrom done gap cs) := by
  induction cs generalizing done gap with
  | nil => exact h
  | cons c rest ih =>
    rw [symbolFrom]
    split
    · exact ih (h.concat ‹_›) false
    · exact ih h true

/-- Nothing is made of a name just if none of its characters can stand in a symbol. -/
theorem symbolFrom_eq_nil_iff {done : List Char} {gap : Bool} {cs : List Char} :
    symbolFrom done gap cs = [] ↔ done = [] ∧ ∀ c ∈ cs, inSymbol c = false := by
  induction cs generalizing done gap with
  | nil => simp [symbolFrom]
  | cons c rest ih =>
    rw [symbolFrom, List.forall_mem_cons]
    split
    · rename_i hc
      rw [ih]
      simp [hc]
    · rename_i hc
      rw [ih, Bool.not_eq_true] at *
      simp [hc]

/-- What has the form of a symbol is added as it is. -/
theorem symbolFrom_of_isSymbol {done cs : List Char} (h : IsSymbol (done ++ cs)) :
    symbolFrom done false cs = done ++ cs := by
  induction cs generalizing done with
  | nil => exact (List.append_nil _).symm
  | cons c rest ih =>
    obtain ⟨hin, hupper⟩ := toUpper_of_capital (h.capitals c (List.mem_append_right _ List.mem_cons_self))
    have hdue : ((false || (done.isEmpty && c.isDigit)) && c != '_') = false := by
      cases done with
      | nil =>
        rw [h.first c rfl]
        rfl
      | cons _ _ => rfl
    rw [symbolFrom, if_pos hin]
    simp only [hdue, hupper]
    rw [if_neg Bool.false_ne_true, List.append_nil, ih, List.append_assoc, List.singleton_append]
    rwa [List.append_assoc, List.singleton_append]

theorem toList_symbolOf (name : String) : (symbolOf name).toList = symbolFrom [] false name.toList :=
  String.toList_ofList

theorem isSymbol_symbolOf (name : String) : IsSymbol (symbolOf name).toList := by
  rw [toList_symbolOf]
  exact isSymbol_symbolFrom .nil false name.toList

theorem symbolOf_eq_empty_iff {name : String} : symbolOf name = "" ↔ ∀ c ∈ name.toList, inSymbol c = false := by
  rw [← String.toList_eq_nil_iff, toList_symbolOf, symbolFrom_eq_nil_iff, and_iff_right rfl]

/-- A symbol is its own symbol. -/
theorem symbolOf_symbolOf (name : String) : symbolOf (symbolOf name) = symbolOf name := by
  have hself {cs : List Char} (hcs : IsSymbol cs) : symbolFrom [] false cs = cs := by
    rw [← List.nil_append cs] at hcs
    rw [symbolFrom_of_isSymbol hcs, List.nil_append]
  rw [← String.toList_inj, toList_symbolOf, hself (isSymbol_symbolOf name)]

/-! ## Symbols of loaded entries -/

section
variable {n : Type → Type} [Monad n] {A : Answers n} {S : Type} {I : S → Prop}

/-- Hooks that keep a fact about their state at certain places and at all places further inside. -/
structure Hooks.Guard (A : Answers n) (I : S → Prop) (T : List Step → Prop) (h : Hooks (StateT S n)) : Prop where
  inside : ∀ step trail, T trail → T (step :: trail)
  onValue : ∀ trail issues v, T trail → Keeps A I (h.onValue ⟨trail, issues⟩ v) fun _ => True
  onDict : ∀ trail issues d, T trail → Keeps A I (h.onDict ⟨trail, issues⟩ d) fun _ => True

namespace Hooks.Guard
variable {T : List Step → Prop} {h : Hooks (StateT S n)} {trail : List Step}

/-- The fact holds after the call of such a hook if it holds before. -/
theorem call {α : Type} {hook : Spot → α → StateT S n Reply} {a : α}
    (hhook : ∀ issues, Keeps A I (hook ⟨trail, issues⟩ a) fun _ => True) :
    Visiting.Leads A I (Visiting.call hook trail a) fun _ => I :=
  .call fun issues s reply s' hmay _ hs => (hhook issues s reply s' hmay hs).1

theorem report {i : Issue} (hi : i.Own) : Visiting.Leads A I (Visiting.report i) fun _ => I := by
  intro issues s a issues' s' hmay hissues
  obtain ⟨hissues₀, hkeeps⟩ := (Visiting.upholds_report hi (Q := fun _ => True)).leads _ _ _ _ _ hmay hissues
  exact ⟨hissues₀, fun hs => (hkeeps hs).1⟩

mutual

theorem visit (hh : h.Guard A I T) {trail : List Step} (htrail : T trail) :
    (t : Tree) → Visiting.Leads A I (t.visit h trail) fun _ => I
  | .atom _ => call fun issues => hh.onValue trail issues _ htrail
  | .list items => (hh.visitItems (hh.inside · trail htrail) 0 items).bind fun _ =>
      call fun issues => hh.onValue trail issues _ htrail
  | .dict _ d => hh.visitDict htrail d
  | .blob _ => call fun issues => hh.onValue trail issues _ htrail
  | .broken source => (report source.own_issue).bind fun _ => .pure fun _ hs => hs
termination_by structural t => t

theorem visitItems (hh : h.Guard A I T) {trail : List Step} (hinside : ∀ step, T (step :: trail)) (index : Nat) :
    (items : List Tree) → Visiting.Leads A I (AssetPack.visitItems h trail index items) fun _ => I
  | [] => .pure fun _ hs => hs
  | t :: rest => (hh.visit (hinside _) t).bind fun _ =>
      (hh.visitItems hinside (index + 1) rest).bind fun _ => .pure fun _ hs => hs
termination_by structural items => items

theorem visitDict (hh : h.Guard A I T) {trail : List Step} (htrail : T trail) :
    (d : Dict Tree) → Visiting.Leads A I (d.visit h trail) fun _ => I
  | ⟨entries⟩ => (hh.visitEntries (hh.inside · trail htrail) entries).bind fun _ =>
      call fun issues => hh.onDict trail issues _ htrail
termination_by structural d => d

theorem visitEntries (hh : h.Guard A I T) {trail : List Step} (hinside : ∀ step, T (step :: trail)) :
    (entries : List (String × Tree)) → Visiting.Leads A I (AssetPack.visitEntries h trail entries) fun _ => I
  | [] => .pure fun _ hs => hs
  | (_, t) :: rest => (hh.visit (hinside _) t).bind fun _ =>
      (hh.visitEntries hinside rest).bind fun _ => .pure fun _ hs => hs
termination_by structural entries => entries

end

end Hooks.Guard
end

section
variable {σ : Type} {fs : Files} {registry : Registry σ} {table : Dict String}

theorem Context.Steady.symbols (fs : Files) (table : Dict String) : Steady fs fun c => c.symbols = table := by
  intro c note h
  have hkept : ((c.addAll [note]).eval fs).symbols = c.symbols := c.symbols_addAll [note]
  rw [Context.addAll, List.foldlM_cons, Look.eval_bind] at hkept
  exact hkept.trans h

/-- The symbols of a context are those of the table with the symbols of these entries. -/
def Loading.Lists (table : Dict String) (entries : List (String × Value)) (l : Loading σ) : Prop :=
  l.context.symbols = (symbolsOf entries).foldl Dict.withSymbol table

theorem symbolsOf_of_ne_dict {v : Value} (hv : ∀ d, v ≠ .dict d) (name : String) : symbolsOf [(name, v)] = [] := by
  cases v with
  | dict d => exact absurd rfl (hv d)
  | _ => rfl

/-- Further inside no symbol is given. -/
theorem guard_load (fs : Files) (registry : Registry σ) (table : Dict String) :
    Hooks.Guard (Answers.files fs) (fun l : Loading σ => l.context.symbols = table) (fun trail => 2 ≤ trail.length)
      { Hooks.keep with onDict := Loading.load registry } where
  inside _ _ htrail := Nat.le_succ_of_le htrail
  onValue _ _ _ _ := Keeps.pure trivial
  onDict trail issues d htrail := by
    refine Loading.keeps_load (.symbols fs table) registry ⟨trail, issues⟩ d fun name hname => ?_
    obtain rfl : trail = [.name name] := hname
    exact absurd htrail (by simp)

/-- A top-level dictionary stays as it is, and its symbol is added. -/
theorem load_top_lists {name : String} {issues : List Issue} {d : Dict Value} {l l' : Loading σ} {reply : Reply}
    (h : (reply, l') = ((Loading.load registry ⟨[.name name], issues⟩ d).run l).eval fs)
    (hissues : Issue.audible reply.issues = []) (hl : l.context.symbols = table) :
    reply.value = some (.dict d) ∧ l'.Lists table [(name, .dict d)] := by
  unfold Loading.load at h
  simp only at h
  obtain ⟨⟨_, l₁⟩, hsymbol, h⟩ := (Answers.files fs).of_bind h
  have hlists : l₁.context.symbols = (symbolsOf [(name, .dict d)]).foldl Dict.withSymbol table :=
    (congrArg Gathered.symbols (gathered_addSymbol hsymbol)).trans (by rw [hl])
  dsimp only at h
  cases htype : (d.get? Key.type).bind Value.string? with
  | none =>
    rw [htype] at h
    cases (Answers.files fs).eq_of_pure h
    exact ⟨rfl, hlists⟩
  | some t =>
    rw [htype] at h
    dsimp only at h
    cases hfactory : registry.get? t with
    | none =>
      rw [hfactory] at h
      cases (Answers.files fs).eq_of_pure h
      exact (Reply.not_own_of_drop hissues trivial).elim
    | some factory =>
      rw [hfactory] at h
      obtain ⟨⟨made, l₂⟩, hmade, h⟩ := (Answers.files fs).of_bind h
      obtain ⟨hlists, _⟩ := Loading.keeps_noting (.symbols fs _) _ _ _ _ hmade hlists
      cases made with
      | none =>
        cases (Answers.files fs).eq_of_pure h
        exact (Reply.not_own_of_drop hissues trivial).elim
      | some r =>
        obtain ⟨⟨_, l₃⟩, hadd, h⟩ := (Answers.files fs).of_bind h
        cases (Answers.files fs).eq_of_pure hadd
        cases (Answers.files fs).eq_of_pure h
        exact ⟨rfl, hlists⟩

/-- What becomes of a top-level entry. -/
theorem leads_visit_top_lists (t : Tree) (name : String) :
    Visiting.Leads (Answers.files fs) (fun l : Loading σ => l.context.symbols = table)
      (t.visit { Hooks.keep with onDict := Loading.load registry } [.name name])
      fun w l => ∃ u, w = some u ∧ l.Lists table [(name, u)] := by
  have hguard := guard_load (σ := σ) fs registry table
  have hkeep (v : Value) (hv : ∀ d, v ≠ .dict d) : Visiting.Leads (Answers.files fs)
      (fun l : Loading σ => l.context.symbols = table)
      (Visiting.call (fun _ v => pure (.keep v)) [.name name] v)
      fun w l => ∃ u, w = some u ∧ l.Lists table [(name, u)] := by
    refine .call fun issues l reply l' hmay _ hl => ?_
    cases (Answers.files fs).eq_of_pure hmay
    refine ⟨v, rfl, ?_⟩
    rw [Loading.Lists, symbolsOf_of_ne_dict hv]
    exact hl
  have hinside (step : Step) : 2 ≤ [step, .name name].length := le_rfl
  cases t with
  | atom a => exact hkeep _ (by rintro _ ⟨⟩)
  | list items =>
    rw [Tree.visit]
    exact .bind (hguard.visitItems hinside 0 items) fun done => hkeep _ (by rintro _ ⟨⟩)
  | dict source d =>
    obtain ⟨entries⟩ := d
    rw [Tree.visit, Dict.visit]
    refine .bind (hguard.visitEntries hinside entries) fun done => .call fun issues l reply l' hmay hissues hl => ?_
    obtain ⟨hreply, hlists⟩ := load_top_lists hmay hissues hl
    exact ⟨_, hreply, hlists⟩
  | blob p => exact hkeep _ (by rintro _ ⟨⟩)
  | broken source =>
    exact .bind (Visiting.upholds_report source.own_issue (Q := fun _ => False)).leads
      fun _ => .pure fun _ h => h.2.elim

/-- What becomes of all top-level entries, in order. -/
theorem leads_visitEntries_lists (entries : List (String × Tree)) :
    Visiting.Leads (Answers.files fs) (fun l : Loading σ => l.context.symbols = table)
      (visitEntries { Hooks.keep with onDict := Loading.load registry } [] entries)
      fun done l => l.Lists table done := by
  induction entries generalizing table with
  | nil => exact .pure fun l hl => hl
  | cons entry rest ih =>
    obtain ⟨name, t⟩ := entry
    rw [visitEntries]
    refine .bind (leads_visit_top_lists t name) fun w => ?_
    refine .of_imp (fun table' l => l.context.symbols = table' ∧
      ∃ u, w = some u ∧ table' = (symbolsOf [(name, u)]).foldl Dict.withSymbol table) ?_ fun table' => ?_
    · rintro l ⟨u, hw, hlists⟩
      exact ⟨_, rfl, u, hw, hlists⟩
    · refine .bind ih.frame fun done => .pure ?_
      rintro l ⟨hlists, u, rfl, rfl⟩
      have happend : symbolsOf ((name, u) :: done) = symbolsOf [(name, u)] ++ symbolsOf done :=
        symbolsOf_append [(name, u)] done
      dsimp only
      rw [Loading.Lists, happend, List.foldl_append]
      exact hlists

/-- The symbols that the objects of a description get are those of its dictionaries, as they are then. -/
theorem Dict.lists_of_loadObjects {d : Dict Value} {l l' : Loading σ} {visited : Visited}
    (h : ((d.loadObjects registry).run l).eval fs = (visited, l')) (hissues : visited.issues = []) {e : Dict Value}
    (he : visited.dict = some e) : l'.Lists l.context.symbols e.entries := by
  have hvisit : Visiting.Leads (Answers.files fs) (fun k : Loading σ => k.context.symbols = l.context.symbols)
      (d.tree.visit { Hooks.keep with onDict := Loading.load registry } [])
      fun v k => ∃ done, v = some (.dict ⟨done⟩) ∧ k.Lists l.context.symbols done := by
    generalize d.tree = tree
    obtain ⟨entries⟩ := tree
    rw [Dict.visit]
    refine .bind (leads_visitEntries_lists entries) fun done => .call ?_
    rintro issues k reply k' hmay _ hlists
    cases (Answers.files fs).eq_of_pure hmay
    exact ⟨done, rfl, hlists⟩
  obtain ⟨⟨⟨v, issues⟩, l₁⟩, hrun, hdone⟩ := (Answers.files fs).of_bind h.symm
  cases (Answers.files fs).eq_of_pure hdone
  obtain ⟨_, hpost⟩ := hvisit _ _ _ _ _ hrun hissues
  obtain ⟨done, rfl, hlists⟩ := hpost rfl
  cases he
  exact hlists

end

/-! ## The table -/

theorem Dict.get?_sorted {α : Type} {d : Dict α} (h : d.Distinct) (name : String) :
    (⟨d.sorted⟩ : Dict α).get? name = d.get? name := by
  refine Option.ext fun a => ⟨fun hget => ?_, fun hget => ?_⟩
  · exact get?_of_mem h (mem_sorted.mp (mem_of_get? hget))
  · exact get?_of_mem (distinct_sorted h) (mem_sorted.mpr (mem_of_get? hget))

/-- The table that a compile records has the entry name of each symbol. -/
theorem get?_symbols_withMetadata {context : Context} (h : context.symbols.Distinct) (d : Dict Value) :
    ∃ table : Dict Value, (withMetadata context d).get? Key.symbols = some (.dict table) ∧ table.Distinct ∧
      ∀ symbol, table.get? symbol = (context.symbols.get? symbol).map Value.string := by
  have htable : Dict.ofList (context.symbols.sorted.map fun entry => (entry.1, Value.string entry.2)) =
      (⟨context.symbols.sorted⟩ : Dict String).map Value.string := by
    refine Dict.ofList_of_nodup ?_
    rw [List.map_map]
    exact Dict.distinct_sorted h
  refine ⟨_, ?_, Dict.distinct_ofList (context.symbols.sorted.map fun entry => (entry.1, .string entry.2)),
    fun symbol => ?_⟩
  · rw [withMetadata, Dict.get?_set, if_pos rfl]
  · rw [htable, Dict.get?_map, Dict.get?_sorted h]

section
variable {σ : Type} {fs : Files} {fuel : Nat} {o : Options σ} {base : Path} {d e : Dict Value} {w w' : σ}

theorem Pass.symbols_of_loaded {registry : Registry σ} {p : Ended σ} {loaded : Dict Value} {table : Dict String}
    (hp : p.context.symbols = table) (hloaded : (objects.run fs registry p d).concluded = .ok loaded) :
    (objects.run fs registry p d).context.symbols = (symbolsOf loaded.entries).foldl Dict.withSymbol table := by
  obtain ⟨hdict, hissues⟩ := Context.of_conclude hloaded
  rw [← hp]
  exact Dict.lists_of_loadObjects (l := ⟨p.context, [], p.world⟩) rfl (List.append_eq_nil_iff.mp hissues).1 hdict

/-- The symbols of siblings are added behind those that are there. -/
theorem Pass.symbols_of_saving {registry : Registry σ} {p : Ended σ} {saved : Dict Value}
    (hsaved : (saving.run fs registry p d).concluded = .ok saved) : (saving.run fs registry p d).context.symbols =
      ((siblingsOf p.roots).filterMap Sibling.symbol?).foldl Dict.withSymbol p.context.symbols := by
  obtain ⟨_, hissues⟩ := Context.of_conclude hsaved
  have hsaid : (addSiblings p.roots (saveRoots p.roots d).1 p.context).2.2 = [] :=
    (List.append_eq_nil_iff.mp (List.append_eq_nil_iff.mp hissues).1).2
  rw [addSiblings_eq, issues_foldl_add, List.nil_append, List.map_eq_nil_iff] at hsaid
  simp only [run, addSiblings_eq]
  exact symbols_foldl_add hsaid

/-- A chain of passes that ends well gathered the symbols of the loaded dictionaries, and then those of the siblings. -/
theorem Ended.exists_symbols {registry : Registry σ} {p last : Ended σ} {saved : Dict Value}
    (hp : p.context.symbols = ∅) (hlast : (p.ends fs registry Pass.all).getLast? = some last)
    (hsaved : last.concluded = .ok saved) :
    ∃ q loaded, (p.ends fs registry Pass.all)[1 + Pass.all.idxOf .objects]? = some q ∧ q.concluded = .ok loaded ∧
      last.context.symbols = (symbolsOf loaded.entries ++ (siblingsOf q.roots).filterMap Sibling.symbol?).foldl
        Dict.withSymbol ∅ := by
  rw [Pass.all] at hlast ⊢
  -- each pass leaves what the next one starts from
  obtain ⟨expanded, _, hlast, hends₀⟩ := exists_next hlast hsaved
  obtain ⟨located, _, hlast, hends₁⟩ := exists_next hlast hsaved
  obtain ⟨referred, _, hlast, hends₂⟩ := exists_next hlast hsaved
  obtain ⟨loaded, hloaded, hlast, hends₃⟩ := exists_next hlast hsaved
  obtain ⟨finished, hfinished, hlast, _⟩ := exists_next hlast hsaved
  rw [hends₀, hends₁, hends₂, hends₃]
  refine ⟨_, loaded, rfl, hloaded, ?_⟩
  have hlocated : (Pass.files.run fs registry p expanded).context.symbols = ∅ := Pass.steady_files (.symbols fs ∅) hp
  have hreferred :
      (Pass.references.run fs registry (Pass.files.run fs registry p expanded) located).context.symbols = ∅ :=
    hlocated
  have hobjects := Pass.symbols_of_loaded hreferred hloaded
  obtain rfl := Option.some.inj hlast
  rw [List.getLast_singleton] at hsaved ⊢
  rw [Pass.symbols_of_saving hsaved, List.foldl_append, Pass.steady_finishing (.symbols fs _) hobjects]
  rfl

/-- Let a compile end well. Then the table of symbols has, besides no empty one, just the symbols of the top-level
dictionaries as they are when the objects were loaded, and those of the siblings, and each leads to the first of these
that asks for it, siblings last. The symbol that a name gives is empty if no letter, digit or underscore is in the name.
Otherwise it starts with a capital or an underscore and goes on with capitals, digits and underscores, and it is its own
symbol. -/
theorem Dict.compile_symbols (h : Compiling.Ends fs (d.compile fuel o base) w e w') :
    (∃ p loaded table, (d.ends fs fuel o base w)[1 + Pass.all.idxOf .objects]? = some p ∧ p.concluded = .ok loaded ∧
      e.get? Key.symbols = some (.dict table) ∧ table.Distinct ∧
      ∀ symbol, table.get? symbol = if symbol = "" then none else
        ((symbolsOf loaded.entries ++ (siblingsOf p.roots).filterMap Sibling.symbol?).lookup symbol).map Value.string) ∧
    ∀ name : String, (symbolOf name = "" ↔ ∀ c ∈ name.toList, ¬(c.isAlphanum ∨ c = '_')) ∧
      (symbolOf name = "" ∨ ∃ c cs, (symbolOf name).toList = c :: cs ∧ (c.isUpper ∨ c = '_') ∧
        ∀ x ∈ cs, x.isUpper ∨ x.isDigit ∨ x = '_') ∧
      symbolOf (symbolOf name) = symbolOf name := by
  refine ⟨?_, fun name => ⟨?_, ?_, symbolOf_symbolOf name⟩⟩
  · have heval : Compiling.eval fs (d.compile fuel o base) w = some (.ok e, w') := h
    rw [eval_compile] at heval
    obtain ⟨last, hlast, houtcome⟩ := Option.map_eq_some_iff.mp heval
    obtain ⟨saved, hsaved, rfl⟩ := Ended.of_outcome_ok (congrArg Prod.fst houtcome)
    cases hexpand : (d.expand fuel o.localize (.start base o.debug)).run.eval fs with
    | none =>
      rw [ends, hexpand] at hlast
      cases hlast
    | some result =>
      obtain ⟨visited, context⟩ := result
      rw [ends_of_expand hexpand] at hlast ⊢
      have hstart : context.symbols = ∅ := (Context.Steady.symbols fs ∅).of_expand hexpand rfl
      obtain ⟨p, loaded, hp, hloaded, hsymbols⟩ := Ended.exists_symbols hstart hlast hsaved
      have hdistinct : last.context.symbols.Distinct := by
        rw [hsymbols]
        exact List.foldlRecOn _ _ List.nodup_nil fun table htable named _ => distinct_withSymbol htable named
      obtain ⟨table, htable, hnames, hget⟩ := get?_symbols_withMetadata hdistinct saved
      refine ⟨p, loaded, table, hp, hloaded, htable, hnames, fun symbol => ?_⟩
      rw [hget, hsymbols, get?_foldl_withSymbol]
      split <;> rfl
  · simp [symbolOf_eq_empty_iff, inSymbol]
  · have hsymbol := isSymbol_symbolOf name
    rw [← String.toList_eq_nil_iff]
    cases hchars : (symbolOf name).toList with
    | nil => exact .inl rfl
    | cons c cs =>
      rw [hchars] at hsymbol
      refine .inr ⟨c, cs, rfl, ?_, fun x hx => hsymbol.capitals x (List.mem_cons_of_mem _ hx)⟩
      have hdigit := hsymbol.first c rfl
      rcases hsymbol.capitals c List.mem_cons_self with hc | hc | hc
      · exact .inl hc
      · cases hc.symm.trans hdigit
      · exact .inr hc

end

/-- The symbol of a sheet and that of its sibling. -/
theorem compile_symbols_sheetAnd : ∃ e w' table,
    Compiling.Ends noFiles ((sheetAnd "x").compile 8 sheetOptions "") () e w' ∧
    e.get? Key.symbols = some (.dict table) ∧ table.get? "HERO" = some (.string "hero") ∧
      table.get? "HERO_0" = some (.string "hero_0") ∧ table.get? "X" = none := by
  obtain ⟨e, w', h, _⟩ : ∃ e w', Compiling.Ends noFiles ((sheetAnd "x").compile 8 sheetOptions "") () e w' ∧
      e.contains "hero" := by decide +kernel
  obtain ⟨p, loaded, hp, hloaded, hnamed⟩ := Ended.exists_of_concluded
    (x := ((sheetAnd "x").ends noFiles 8 sheetOptions "" ())[3]?)
    (P := fun p loaded => symbolsOf loaded.entries ++ (siblingsOf p.roots).filterMap Sibling.symbol? =
      [("HERO", "hero"), ("HERO_0", "hero_0")]) (by decide +kernel)
  obtain ⟨⟨q, loaded', table, hq, hloaded', htable, _, hget⟩, _⟩ := Dict.compile_symbols h
  obtain rfl : p = q := Option.some.inj (hp.symm.trans hq)
  obtain rfl : loaded = loaded' := Except.ok.inj (hloaded.symm.trans hloaded')
  rw [hnamed] at hget
  exact ⟨e, w', table, h, htable, hget "HERO", hget "HERO_0", hget "X"⟩

end AssetPack
