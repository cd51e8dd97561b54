import AssetPack.Proofs.Description.Names
import AssetPack.Proofs.Description.Roots

/-!
# Stored entries

With the built-in types each typed entry of a compiled description stands in the result as the form that a pack keeps
of its resource. A debug compile may add the files of an open entry to it, and nothing else is done to an entry whose
name is not reserved.
-/
namespace AssetPack
variable {σ : Type} {fs : Files}

/-! ## Saving by name -/

/-- Replace the entry of one resource. -/
def saveRoot (s : Dict Value × List Issue) (root : String × Resource σ) : Dict Value × List Issue :=
  match (s.1.get? root.1).bind Value.dict? with
  | none => s
  | some entry =>
    match keptForm entry ((entry.findAs? Key.type .string).getD "") root.2 with
    | some v => (s.1.set root.1 v, s.2)
    | none => (s.1, s.2 ++ [.notSaved ("/" ++ root.1)])

theorem saveRoots_eq (roots : List (String × Resource σ)) (d : Dict Value) :
    saveRoots roots d = roots.foldl saveRoot (d, []) := rfl

theorem get?_saveRoot_of_ne {s : Dict Value × List Issue} {root : String × Resource σ} {name : String}
    (h : name ≠ root.1) : (saveRoot s root).1.get? name = s.1.get? name := by
  unfold saveRoot
  split
  · rfl
  · split
    · rw [Dict.get?_set, if_neg h]
    · rfl

theorem get?_saveRoot_of_kept {s : Dict Value × List Issue} {name : String} {r : Resource σ} {entry : Dict Value}
    (hentry : (s.1.get? name).bind Value.dict? = some entry) {v : Value}
    (hkept : keptForm entry ((entry.findAs? Key.type .string).getD "") r = some v) :
    (saveRoot s (name, r)).1.get? name = some v := by
  rw [saveRoot]
  simp only [hentry, hkept]
  rw [Dict.get?_set, if_pos rfl]

theorem get?_foldl_saveRoot_of_not_mem {roots : List (String × Resource σ)} {name : String}
    (h : name ∉ roots.map (·.1)) (s : Dict Value × List Issue) :
    (roots.foldl saveRoot s).1.get? name = s.1.get? name := by
  induction roots generalizing s with
  | nil => rfl
  | cons root rest ih =>
    rw [List.map_cons, List.mem_cons, not_or] at h
    rw [List.foldl_cons, ih h.2, get?_saveRoot_of_ne h.1]

/-- Of resources with different names each is kept under its name. -/
theorem get?_foldl_saveRoot {roots : List (String × Resource σ)} (hnodup : (roots.map (·.1)).Nodup) {name : String}
    {r : Resource σ} (hmem : (name, r) ∈ roots) {s : Dict Value × List Issue} {entry : Dict Value}
    (hentry : (s.1.get? name).bind Value.dict? = some entry) {v : Value}
    (hkept : keptForm entry ((entry.findAs? Key.type .string).getD "") r = some v) :
    (roots.foldl saveRoot s).1.get? name = some v := by
  induction roots generalizing s with
  | nil => cases hmem
  | cons root rest ih =>
    rw [List.map_cons, List.nodup_cons] at hnodup
    rw [List.foldl_cons]
    rcases List.mem_cons.mp hmem with rfl | hmem
    · rw [get?_foldl_saveRoot_of_not_mem hnodup.1, get?_saveRoot_of_kept hentry hkept]
    · have hne : name ≠ root.1 := fun heq => hnodup.1 (heq ▸ List.mem_map_of_mem (f := (·.1)) hmem)
      refine ih hnodup.2 hmem ?_
      rwa [get?_saveRoot_of_ne hne]

theorem distinct_foldl_saveRoot {s : Dict Value × List Issue} (hs : s.1.Distinct) (roots : List (String × Resource σ)) :
    (roots.foldl saveRoot s).1.Distinct := by
  induction roots generalizing s with
  | nil => exact hs
  | cons root rest ih =>
    refine ih ?_
    unfold saveRoot
    split
    · exact hs
    · split
      · exact Dict.distinct_set hs _ _
      · exact hs

/-- A typed entry is replaced by the form of its resource. -/
theorem Rooted.get?_saveRoots {d : Dict Value} {roots : List (String × Resource σ)} (hd : d.Distinct)
    (hroots : Rooted fs d.entries roots) {name t : String} {r : Resource σ} (hmem : (name, r) ∈ roots)
    {d' : Dict Value} (hget : d.get? name = some (.dict d'))
    (htype : d'.get? Key.type = some (.string t)) (hr : d'.Describes fs t r) :
    (saveRoots roots d).1.get? name = some (r.form d' t) := by
  have hopened : (d.get? name).bind Value.dict? = some d' := by
    rw [hget]
    rfl
  rw [saveRoots_eq]
  refine get?_foldl_saveRoot (hd.sublist hroots.names) hmem hopened ?_
  rw [findAs?_type htype]
  exact hr.keptForm_eq

/-- What is saved is open, and has no names but those of the description and what a pack adds. -/
theorem Rooted.named_saveRoots {N : String → Prop} (hN : ∀ name ∈ Key.stored, N name) {d : Dict Value}
    {roots : List (String × Resource σ)} (hd : d.Of (.named N)) (hroots : Rooted fs d.entries roots) :
    (saveRoots roots d).1.Of (.named N) := by
  refine Dict.of_intro (distinct_foldl_saveRoot hd.distinct roots) fun entry hentry => ?_
  obtain ⟨name, v⟩ := entry
  have hget : (saveRoots roots d).1.get? name = some v :=
    Dict.get?_of_mem (distinct_foldl_saveRoot hd.distinct roots) hentry
  by_cases hname : name ∈ roots.map (·.1)
  · obtain ⟨⟨_, r⟩, hmem, rfl⟩ := List.mem_map.mp hname
    obtain ⟨d', t, hentry', htype, hr⟩ := hroots.exists_entry hmem
    have hget' := Dict.get?_of_mem hd.distinct hentry'
    obtain rfl : v = r.form d' t :=
      Option.some.inj (hget.symm.trans (hroots.get?_saveRoots hd.distinct hmem hget' htype hr))
    exact (hd.get? hget').imp_right (hr.form_named hN)
  · rw [saveRoots_eq, get?_foldl_saveRoot_of_not_mem hname] at hget
    exact hd.get? hget

/-! ## What is recorded in an entry -/

/-- The value itself, or the dictionary that it is with the files that were consulted for it. -/
inductive Value.Noted (v : Value) : Value → Prop
  | same : Noted v v
  | files {d : Dict Value} (files : Value) : Noted v (.dict d) → Noted v (.dict (d.set Key.files files))

theorem Value.Noted.eq_dict {v w : Value} (h : v.Noted w) (hv : ∀ b, v ≠ .block b) {e : Dict Value}
    (he : w.dict? = some e) : w = .dict e := by
  cases h with
  | same =>
    cases v with
    | dict d =>
      cases he
      rfl
    | block b => exact absurd rfl (hv b)
    | _ => cases he
  | files =>
    cases he
    rfl

/-- An entry whose name is not reserved is found where it was, perhaps with its files. -/
theorem noted_withMetadata {d : Dict Value} {name : String} (hname : Key.isReserved name = false) {v : Value}
    (hget : d.get? name = some v) (hv : ∀ b, v ≠ .block b) (context : Context) :
    ∃ w, (withMetadata context d).get? name = some w ∧ v.Noted w := by
  have hne {other : String} (hother : Key.isReserved other = true) : name ≠ other := by
    rintro rfl
    rw [hother] at hname
    cases hname
  refine Outlasts.withMetadata (P := fun e => ∃ w, e.get? name = some w ∧ v.Noted w)
    ⟨fun e other u he hother _ => ?_, fun _ e other entry he hentry => ?_⟩ ⟨v, hget, .same⟩
  · rw [Dict.get?_set, if_neg (hne hother)]
    exact he
  · obtain ⟨w, hw, hnoted⟩ := he
    rw [Dict.get?_set]
    split
    · rename_i heq
      subst heq
      rw [hw] at hentry
      obtain rfl := hnoted.eq_dict hv hentry
      exact ⟨_, rfl, hnoted.files _⟩
    · exact ⟨w, hw, hnoted⟩

/-! ## The passes -/

/-- The dictionary that the pass over objects left: every entry is resolved, and what is typed inside an entry is
replaced. -/
def Dict.resolved? (fs : Files) (fuel : Nat) (o : Options σ) (base : Path) (d : Dict Value) (w : σ) :
    Option (Dict Value) :=
  ((d.ends fs fuel o base w)[1 + Pass.all.idxOf .objects]?).bind (·.dict)

/-- A compile that ends well went on from each of its passes. -/
theorem Ended.exists_next {registry : Registry σ} {p last : Ended σ} {pass : Pass} {rest : List Pass} {e : Dict Value}
    (hlast : (p.ends fs registry (pass :: rest)).getLast? = some last) (he : last.concluded = .ok e) :
    ∃ d, p.concluded = .ok d ∧ ((pass.run fs registry p d).ends fs registry rest).getLast? = some last ∧
      p.ends fs registry (pass :: rest) = p :: (pass.run fs registry p d).ends fs registry rest := by
  cases hconcluded : p.concluded with
  | ok d =>
    refine ⟨d, rfl, ?_, ends_of_ok hconcluded pass rest⟩
    rwa [getLast?_ends_of_ok hconcluded] at hlast
  | error issues =>
    rw [ends_of_error hconcluded, List.getLast?_singleton] at hlast
    cases hlast
    rw [hconcluded] at he
    cases he

theorem opens_locate (fs : Files) (N : String → Prop) (P : Payload → Prop) :
    Hooks.Opens (Answers.files fs) (fun _ => True) (fun _ => True) N P { Hooks.keep with onValue := locate } := by
  refine ⟨fun trail issues v _ hv => ?_, fun trail issues d _ hd => Reply.upholds_pure fun _ _ => ⟨_, rfl, hd⟩⟩
  show Reply.Upholds _ _ _ _ (locate _ v) _
  unfold locate
  split
  · exact Reply.upholds_pure fun _ _ => ⟨v, rfl, hv⟩
  · refine Reply.upholds_of_keeps fun _ => ?_
    refine Keeps.bind (keeps_any _) fun c _ => Keeps.bind (keeps_any _) fun found _ => ?_
    cases found with
    | ok path =>
      exact Keeps.bind (keeps_any _) fun _ _ => Keeps.bind (keeps_any _) fun _ _ =>
        Keeps.pure fun _ => ⟨_, rfl, Value.of_atom.mpr trivial⟩
    | error e => exact Keeps.pure fun _ => ⟨_, rfl, Value.of_atom.mpr trivial⟩

theorem opens_resolveRef (root : Dict Value) (N : String → Prop) (P : Payload → Prop) :
    Hooks.Opens Answers.plain (fun _ => True) (fun _ => True) N P { Hooks.keep with onValue := resolveRef root } := by
  refine ⟨fun trail issues v _ hv => ?_, fun trail issues d _ hd => Reply.upholds_pure fun _ _ => ⟨_, rfl, hd⟩⟩
  show Reply.Upholds _ _ _ _ (resolveRef root _ v) _
  unfold resolveRef
  split
  · exact Reply.upholds_pure fun _ _ => ⟨v, rfl, hv⟩
  · split
    · exact Reply.upholds_pure fun hissues _ => (Reply.not_own_of_drop hissues trivial).elim
    · refine Reply.upholds_of_keeps fun _ => ?_
      split
      · exact Keeps.bind (keeps_any _) fun _ _ => Keeps.pure fun _ => ⟨_, rfl, Value.of_atom.mpr trivial⟩
      · exact Keeps.pure fun _ => ⟨_, rfl, Value.of_atom.mpr trivial⟩

/-- The last pass puts the forms of the resources in place of their entries. -/
theorem Pass.saving_dict {registry : Registry σ} {p : Ended σ} {d : Dict Value} (hroots : Rooted fs d.entries p.roots) :
    (saving.run fs registry p d).dict = some (saveRoots p.roots d).1 := by
  simp only [run, addSiblings_of_empty hroots.siblings_eq]

/-- Passes that end well leave an open dictionary when the objects are loaded. What they end with is that dictionary
with the forms of its resources. -/
theorem Ended.exists_resolved {N : String → Prop} (hN : ∀ name ∈ Key.stored, N name) {p last : Ended σ}
    {saved : Dict Value} (hspelled : ∀ e, p.dict = some e → (Value.dict e).Spelled N)
    (hlast : (p.ends fs .builtin Pass.all).getLast? = some last) (hsaved : last.concluded = .ok saved) :
    ∃ resolved, ((p.ends fs .builtin Pass.all)[1 + Pass.all.idxOf .objects]?).bind (·.dict) = some resolved ∧
      resolved.Of (.named N) ∧ ∃ roots : List (String × Resource σ), Rooted fs resolved.entries roots ∧
        (saveRoots roots resolved).1 = saved := by
  rw [Pass.all] at hlast ⊢
  -- each pass leaves what the next one starts from
  obtain ⟨expanded, hexpanded, hlast, hends₀⟩ := exists_next hlast hsaved
  obtain ⟨located, hlocated, hlast, hends₁⟩ := exists_next hlast hsaved
  obtain ⟨referred, hreferred, hlast, hends₂⟩ := exists_next hlast hsaved
  obtain ⟨resolved, hresolved, hlast, hends₃⟩ := exists_next hlast hsaved
  obtain ⟨finished, hfinished, hlast, hends₄⟩ := exists_next hlast hsaved
  rw [hends₀, hends₁, hends₂, hends₃]
  obtain ⟨hdict₀, _⟩ := Context.of_conclude hexpanded
  obtain ⟨hdict₁, hissues₁⟩ := Context.of_conclude hlocated
  obtain ⟨hdict₂, hissues₂⟩ := Context.of_conclude hreferred
  obtain ⟨hdict₃, hissues₃⟩ := Context.of_conclude hresolved
  obtain ⟨hdict₄, _⟩ := Context.of_conclude hfinished
  obtain ⟨_, hnamed₁⟩ := (opens_locate fs N _).visitRoot (fun _ => id) (fun _ _ => rfl) (hspelled expanded hdict₀) rfl
    (List.append_eq_nil_iff.mp hissues₁).1 trivial hdict₁
  obtain ⟨_, hnamed₂⟩ := (opens_resolveRef located N _).visitRoot (fun _ => id) (fun _ _ => rfl) (Value.Of.spelled hnamed₁)
    (s := ⟨[]⟩) rfl (List.append_eq_nil_iff.mp (List.append_eq_nil_iff.mp hissues₂).1).1 trivial hdict₂
  obtain ⟨hnamed₃, ⟨roots, hroots, hrooted⟩, _⟩ := Dict.named_of_loadObjects hN (Value.Of.spelled hnamed₂) rfl
    (List.append_eq_nil_iff.mp hissues₃).1 hdict₃
  obtain rfl := hroots
  cases hdict₄
  cases hlast
  refine ⟨resolved, hdict₃, hnamed₃, _, hrooted, ?_⟩
  exact Option.some.inj ((Pass.saving_dict hrooted).symm.trans (Context.of_conclude hsaved).1)

/-- A typed entry of a compiled description is found as the form of the resource that it describes. -/
theorem Dict.exists_form_of_compile {fuel : Nat} {o : Options σ} (hregistry : o.registry = .builtin) {base : Path}
    {d e : Dict Value} (hd : (Value.dict d).Distinct) (hlocalize : ∀ name, AnswersDistinct (o.localize name)) {w w' : σ}
    (h : Compiling.Ends fs (d.compile fuel o base) w e w') :
    ∃ resolved, d.resolved? fs fuel o base w = some resolved ∧ resolved.Of .open ∧
      ∀ name entry t, Key.isReserved name = false → resolved.get? name = some (.dict entry) →
        entry.get? Key.type = some (.string t) →
          ∃ (r : Resource σ) (v : Value), entry.Describes fs t r ∧ e.get? name = some v ∧ (r.form entry t).Noted v := by
  have heval : Compiling.eval fs (d.compile fuel o base) w = some (.ok e, w') := h
  rw [Dict.eval_compile] at heval
  obtain ⟨last, hlast, houtcome⟩ := Option.map_eq_some_iff.mp heval
  obtain ⟨saved, hsaved, rfl⟩ := Ended.of_outcome_ok (congrArg Prod.fst houtcome)
  cases hexpand : (d.expand fuel o.localize (.start base o.debug)).run.eval fs with
  | none =>
    rw [Dict.ends, hexpand] at hlast
    cases hlast
  | some result =>
    obtain ⟨visited, context⟩ := result
    rw [Dict.resolved?, Dict.ends, hexpand]
    rw [Dict.ends, hexpand] at hlast
    dsimp only at hlast ⊢
    rw [hregistry] at hlast ⊢
    obtain ⟨resolved, hresolved, hnamed, roots, hrooted, rfl⟩ := Ended.exists_resolved (N := fun _ => True)
      (fun _ _ => trivial) (fun _ hdict => (Dict.distinct_of_expand hd hlocalize hexpand hdict).spelled) hlast hsaved
    refine ⟨resolved, hresolved, hnamed, fun name entry t hname hget htype => ?_⟩
    obtain ⟨r, hmem, hr⟩ := hrooted.exists_mem (Dict.mem_of_get? hget) htype
    have hform := hrooted.get?_saveRoots hnamed.distinct hmem hget htype hr
    obtain ⟨v, hv, hnoted⟩ := noted_withMetadata hname hform (r.form_ne_block entry t) _
    exact ⟨r, v, hr, hv, hnoted⟩

end AssetPack
