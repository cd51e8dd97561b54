import AssetPack.Proofs.Description.Recast

/-!
# What is recorded in another order

A symbol goes to the first entry that asks for it. Where no two entries ask for the same one, the table does not tell
in which order they asked. So what is recorded about two dictionaries that are the same but for the order of entries is
the same but for that order.
-/
namespace AssetPack
variable {packed : Prop} {d e : Dict Value}

/-! ## Symbols -/

/-- No two names have the same symbol. A name whose symbol is empty has none. -/
def SymbolsApart (named : List (String × String)) : Prop :=
  ∀ p ∈ named, ∀ q ∈ named, p.1 = q.1 → p.1 ≠ "" → p.2 = q.2

instance (named : List (String × String)) : Decidable (SymbolsApart named) :=
  inferInstanceAs (Decidable (∀ p ∈ named, ∀ q ∈ named, p.1 = q.1 → p.1 ≠ "" → p.2 = q.2))

namespace Dict

theorem distinct_withSymbol {table : Dict String} (h : table.Distinct) (named : String × String) :
    (table.withSymbol named).Distinct := by
  rw [withSymbol]
  split
  · exact h
  · exact distinct_set h _ _

theorem get?_withSymbol (table : Dict String) (named : String × String) (symbol : String) :
    (table.withSymbol named).get? symbol =
      (table.get? symbol).or (if symbol = named.1 ∧ symbol ≠ "" then some named.2 else none) := by
  rw [withSymbol]
  split
  · rename_i hknown
    split
    · rename_i hsymbol
      obtain ⟨rfl, hsymbol⟩ := hsymbol
      have hsome : (table.get? named.1).isSome = true := by
        rcases Bool.or_eq_true_iff.mp hknown with hempty | hcontains
        · exact absurd (String.isEmpty_iff.mp hempty) hsymbol
        · exact hcontains
      rw [Option.or_of_isSome hsome]
    · rw [Option.or_none]
  · rename_i hnew
    have hnone : named.1 ≠ "" ∧ table.get? named.1 = none := by
      rw [Bool.not_eq_true, Bool.or_eq_false_iff] at hnew
      exact ⟨fun hempty => Bool.eq_false_iff.mp hnew.1 (String.isEmpty_iff.mpr hempty),
        Option.not_isSome_iff_eq_none.mp (Bool.eq_false_iff.mp hnew.2)⟩
    rw [get?_set]
    by_cases hsymbol : symbol = named.1
    · subst hsymbol
      rw [if_pos rfl, if_pos ⟨rfl, hnone.1⟩, hnone.2, Option.none_or]
    · rw [if_neg hsymbol, if_neg fun h => hsymbol h.1, Option.or_none]

/-- The first name that has a symbol gets it. -/
theorem get?_foldl_withSymbol (named : List (String × String)) (table : Dict String) (symbol : String) :
    (named.foldl withSymbol table).get? symbol =
      (table.get? symbol).or (if symbol = "" then none else named.lookup symbol) := by
  induction named generalizing table with
  | nil => simp
  | cons first rest ih =>
    obtain ⟨s, name⟩ := first
    rw [List.foldl_cons, ih, get?_withSymbol, Option.or_assoc, List.lookup_cons]
    congr 1
    by_cases hempty : symbol = ""
    · simp [hempty]
    · by_cases hsymbol : symbol = s
      · simp [hsymbol, hsymbol ▸ hempty]
      · simp [hsymbol, hempty, beq_eq_false_iff_ne.mpr hsymbol]

/-- The same names with the same symbols, in any order. -/
theorem reordered_foldl_withSymbol {named named' : List (String × String)} (hapart : SymbolsApart named)
    (h : ∀ p, p ∈ named ↔ p ∈ named') :
    Reordered Eq (named.foldl withSymbol ∅) (named'.foldl withSymbol ∅) := by
  have hdistinct (named : List (String × String)) : (named.foldl withSymbol ∅).Distinct :=
    List.foldlRecOn named _ List.nodup_nil fun table htable p _ => distinct_withSymbol htable p
  refine .of_get? (hdistinct named) (hdistinct named') fun symbol => ?_
  have hlookup : (if symbol = "" then none else named.lookup symbol) =
      if symbol = "" then none else named'.lookup symbol := by
    split
    · rfl
    · rename_i hsymbol
      have hget (named : List (String × String)) : named.lookup symbol = (⟨named⟩ : Dict String).get? symbol := rfl
      rw [hget, hget]
      cases hname : (⟨named⟩ : Dict String).get? symbol with
      | none =>
        refine (get?_eq_none_iff.mpr fun hmem => ?_).symm
        obtain ⟨p, hp, rfl⟩ := List.mem_map.mp hmem
        exact get?_eq_none_iff.mp hname (List.mem_map_of_mem ((h p).mpr hp))
      | some name =>
        have hmem := mem_of_get? hname
        obtain ⟨name', hname'⟩ : ∃ name', (⟨named'⟩ : Dict String).get? symbol = some name' :=
          exists_get? (List.mem_map_of_mem (f := (·.1)) ((h _).mp hmem))
        rw [hname']
        exact congrArg some (hapart _ hmem _ ((h _).mpr (mem_of_get? hname')) rfl hsymbol)
  rw [get?_foldl_withSymbol, get?_foldl_withSymbol, hlookup]
  cases (Dict.get? ∅ symbol).or _ with
  | none => exact .none
  | some name => exact .some rfl

end Dict

theorem mem_symbolsOf {entries : List (String × Value)} {p : String × String} : p ∈ symbolsOf entries ↔
    ∃ d, (p.2, .dict d) ∈ entries ∧ Key.isReserved p.2 = false ∧ p.1 = symbolFor p.2 d := by
  rw [symbolsOf, List.mem_filterMap]
  constructor
  · rintro ⟨⟨name, v⟩, hmem, hsome⟩
    cases v with
    | dict d =>
      cases hreserved : Key.isReserved name with
      | true => simp [hreserved] at hsome
      | false =>
        simp only [hreserved, Bool.false_eq_true, if_false, Option.some.injEq] at hsome
        subst hsome
        exact ⟨d, hmem, hreserved, rfl⟩
    | _ => cases hsome
  · rintro ⟨d, hmem, hreserved, hsymbol⟩
    refine ⟨_, hmem, ?_⟩
    simp [hreserved, ← hsymbol]

namespace Value.Reordered

theorem mem_symbolsOf (h : (dict d).Reordered packed (.dict e)) {p : String × String}
    (hp : p ∈ symbolsOf d.entries) : p ∈ symbolsOf e.entries := by
  obtain ⟨d', hmem, hreserved, hsymbol⟩ := AssetPack.mem_symbolsOf.mp hp
  have hrel := h.get? p.2
  rw [Dict.get?_of_mem (Value.reordered_dict_iff.mp h).distinct hmem] at hrel
  obtain ⟨w, hw, hvw⟩ := exists_of_rel hrel
  have hdict : ∃ e', w = .dict e' := by
    cases hvw with
    | entries => exact ⟨_, rfl⟩
  obtain ⟨e', rfl⟩ := hdict
  refine AssetPack.mem_symbolsOf.mpr ⟨e', Dict.mem_of_get? hw, hreserved, ?_⟩
  rw [hsymbol, symbolFor, symbolFor, hvw.type? Key.symbol]

/-- The tables of symbols are the same. -/
theorem symbols (h : (dict d).Reordered packed (.dict e)) (hapart : SymbolsApart (symbolsOf d.entries)) :
    Dict.Reordered Eq ((symbolsOf d.entries).foldl Dict.withSymbol ∅) ((symbolsOf e.entries).foldl Dict.withSymbol ∅) :=
  Dict.reordered_foldl_withSymbol hapart fun _ => ⟨h.mem_symbolsOf, h.symm.mem_symbolsOf⟩

end Value.Reordered

/-! ## Files of entries -/

/-- The value with its files in it, if it is a dictionary and there are any. -/
def Value.withFiles (files : List Path) (v : Value) : Value :=
  match v.dict? with
  | some entry => if files.isEmpty then v else .dict (entry.set Key.files (textList files))
  | none => v

theorem reordered_textList (texts : List String) : (textList texts).Reordered packed (textList texts) :=
  .refl (of_textList (V := .open) fun _ _ => trivial).distinct

theorem Value.Reordered.withFiles {v w : Value} (h : v.Reordered packed w) (files : List Path) :
    (v.withFiles files).Reordered packed (w.withFiles files) := by
  have hdict := h.dict?
  unfold Value.withFiles
  generalize v.dict? = x at hdict ⊢
  generalize w.dict? = y at hdict ⊢
  cases hdict with
  | none => exact h
  | some hentry =>
    dsimp only
    split
    · exact h
    · exact hentry.set (reordered_textList _) _

namespace Dict

theorem get?_withFiles (context : Context) (d : Dict Value) (name other : String) :
    (AssetPack.withFiles context d name).get? other =
      if other = name then (d.get? other).map (Value.withFiles (context.filesFor name)) else d.get? other := by
  unfold AssetPack.withFiles
  by_cases hname : other = name
  · subst hname
    rw [if_pos rfl]
    cases hget : d.get? other with
    | none => split <;> simp_all
    | some v =>
      rw [Option.map_some, Value.withFiles, Option.bind_some]
      cases hfiles : context.filesFor other with
      | nil => cases v.dict? <;> exact hget
      | cons file files =>
        cases v.dict? with
        | none => exact hget
        | some entry => exact (get?_set _ _ _ _).trans (if_pos rfl)
  · rw [if_neg hname]
    split
    · rfl
    · rw [get?_set, if_neg hname]
    · rfl

theorem names_withFiles (context : Context) (d : Dict Value) (name : String) :
    (AssetPack.withFiles context d name).names = d.names := by
  unfold AssetPack.withFiles
  split
  · rfl
  · rename_i hentry _
    obtain ⟨v, hget, _⟩ := Option.bind_eq_some_iff.mp hentry
    rw [names_set, if_pos (mem_names_of_get? hget)]
  · rfl

/-- Each of the names, none of which stands twice, gets its files. -/
theorem get?_foldl_withFiles (context : Context) {names : List String} (hnames : names.Nodup) (d : Dict Value)
    (name : String) : (names.foldl (AssetPack.withFiles context) d).get? name =
      if name ∈ names then (d.get? name).map (Value.withFiles (context.filesFor name)) else d.get? name := by
  induction names generalizing d with
  | nil => rfl
  | cons first rest ih =>
    obtain ⟨hfirst, hrest⟩ := List.nodup_cons.mp hnames
    rw [List.foldl_cons, ih hrest, get?_withFiles]
    by_cases hname : name = first
    · subst hname
      rw [if_neg hfirst, if_pos rfl, if_pos List.mem_cons_self]
    · simp only [List.mem_cons, hname, false_or, if_false]

/-- Each of the entries gets its files. -/
theorem get?_foldl_withFiles_names (context : Context) {d : Dict Value} (hd : d.Distinct) (name : String) :
    (d.names.foldl (AssetPack.withFiles context) d).get? name =
      (d.get? name).map (Value.withFiles (context.filesFor name)) := by
  rw [get?_foldl_withFiles context hd]
  split
  · rfl
  · rw [get?_eq_none_iff.mpr ‹_›]
    rfl

theorem names_foldl_withFiles (context : Context) (names : List String) (d : Dict Value) :
    (names.foldl (AssetPack.withFiles context) d).names = d.names := by
  induction names generalizing d with
  | nil => rfl
  | cons first rest ih => rw [List.foldl_cons, ih, names_withFiles]

end Dict

/-! ## All that is recorded -/

theorem Value.Reordered.withDebug {c c' : Context} (hc : c.Alike c') (h : (dict d).Reordered packed (.dict e)) :
    (dict (withDebug c d)).Reordered packed (.dict (AssetPack.withDebug c' e)) := by
  have hmarked := h.set (.atom (.bool true)) Key.debug
  unfold AssetPack.withDebug
  generalize d.set Key.debug (.bool true) = d at hmarked ⊢
  generalize e.set Key.debug (.bool true) = e at hmarked ⊢
  have hrel := Value.reordered_dict_iff.mp hmarked
  have hdistinct {f : Dict Value} (hf : f.Distinct) (c : Context) :
      (f.names.foldl (AssetPack.withFiles c) f).Distinct := by
    rw [Dict.Distinct, Dict.names_foldl_withFiles]
    exact hf
  have hlisted : (dict (d.names.foldl (AssetPack.withFiles c) d)).Reordered packed
      (.dict (e.names.foldl (AssetPack.withFiles c') e)) := by
    refine .dict (.of_get? (hdistinct hrel.distinct c) (hdistinct hrel.distinct' c') fun name => ?_)
    rw [Dict.get?_foldl_withFiles_names c hrel.distinct, Dict.get?_foldl_withFiles_names c' hrel.distinct',
      hc.filesFor]
    have hget := hmarked.get? name
    generalize d.get? name = v at hget ⊢
    generalize e.get? name = w at hget ⊢
    cases hget with
    | none => exact .none
    | some hvw => exact .some (hvw.withFiles _)
  rw [hc.outputs]
  exact hlisted.set (.refl (of_named .bytes c.outputs).distinct) _

/-- The same is recorded about both dictionaries. -/
theorem Value.Reordered.withMetadata {c c' : Context} (hc : c.Alike c')
    (hsymbols : Dict.Reordered Eq c.symbols c'.symbols) (h : (dict d).Reordered packed (.dict e)) :
    (dict (withMetadata c d)).Reordered packed (.dict (AssetPack.withMetadata c' e)) := by
  have hfiles := h.set (reordered_textList c.files) Key.files
  have hdebug : (dict (if c.debug then AssetPack.withDebug c (d.set Key.files (textList c.files))
        else d.set Key.files (textList c.files))).Reordered packed
      (.dict (if c'.debug then AssetPack.withDebug c' (e.set Key.files (textList c'.files))
        else e.set Key.files (textList c'.files))) := by
    rw [hc.debug, hc.files]
    split
    · exact hfiles.withDebug hc
    · exact hfiles
  have hnameSpace {d e : Dict Value} (h : (dict d).Reordered packed (.dict e)) :
      (dict (if d.contains Key.nameSpace then d else d.set Key.nameSpace (.string Key.defaultNamespace))).Reordered
        packed (.dict (if e.contains Key.nameSpace then e
          else e.set Key.nameSpace (.string Key.defaultNamespace))) := by
    rw [h.contains]
    split
    · exact h
    · exact h.set (.atom _) _
  rw [AssetPack.withMetadata, AssetPack.withMetadata, hsymbols.sorted]
  exact (hnameSpace hdebug).set (.refl (of_named .string c'.symbols.sorted).distinct) _

end AssetPack
