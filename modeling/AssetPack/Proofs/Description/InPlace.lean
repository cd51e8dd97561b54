import AssetPack.Proofs.Description.Fueled
import AssetPack.Proofs.Description.Inlined

/-!
# The description with the object in its place

What is imported comes out as its own entries would, and to expand it again under the entries over it changes nothing.
So the two descriptions come to the same dictionary in their expansion, provided that what is overridden is expanded
in the import as well. From there on their compiles differ in nothing but the files that they list.
-/
namespace AssetPack
variable {σ : Type} {fs : Files} {base : Path}

/-- A compile that ends well found no issue in its expansion. -/
theorem Dict.exists_expand_of_ends {d e : Dict Value} {fuel : Nat} {o : Options σ} {w w' : σ}
    (h : Compiling.Ends fs (d.compile fuel o base) w e w') :
    ∃ out c, (d.expand fuel o.localize (.start base o.debug)).run.eval fs = some (⟨some out, []⟩, c) := by
  obtain ⟨⟨⟨dict, issues⟩, c⟩, _, hexpand, h⟩ := h.of_optionT
  obtain ⟨out, _, rfl, rfl, -⟩ := h.of_conclude
  exact ⟨out, c, hexpand⟩

namespace Inlining
variable {I : Inlining fs base} {n m : Nat} {debug : Bool} {d out : Dict Value}

open Expanding

/-- The setting of the description, without localized values. -/
def setting (I : Inlining fs base) : Setting := ⟨I.root, fun _ => none⟩

/-- The setting of the inlined description. -/
def setting' (I : Inlining fs base) : Setting := ⟨I.inlined, fun _ => none⟩

theorem setting_of : I.setting.Of I := ⟨.inl rfl, fun _ => rfl⟩

theorem setting'_of : I.setting'.Of I := ⟨.inr rfl, fun _ => rfl⟩

/-! ## Entries one by one -/

theorem hidden_bare : ∀ name ∈ I.hidden.names, name ∉ Key.directives := by
  intro name hname
  obtain ⟨entry, hentry, rfl⟩ := List.mem_map.mp hname
  exact I.bare _ (List.mem_map_of_mem (List.mem_of_mem_filter hentry))

/-- An entry of the whole is an own one, or it is what an entry of the object comes to in the import. -/
def Stands (I : Inlining fs base) (n : Nat) (debug : Bool) (v x : Value) : Prop :=
  I.Spares v ∧ (x = v ∨ Comes fs I.setting n (I.inside debug) v x)

theorem related_stands (hI : I.Apart) (hd : Dict.Related (Comes fs I.setting n (I.inside debug)) I.object d) :
    Dict.Related (I.Stands n debug) (I.object.merge I.own) (d.merge I.own) := by
  have hobject : Dict.Related (I.Stands n debug) I.object d :=
    (forall₂_and hd (fun entry hentry => hI.object.within (.entry hentry .self)) fun _ _ => trivial).imp
      fun _ _ ⟨⟨hname, hcomes⟩, hspared, _⟩ => ⟨hname, hspared, .inr hcomes⟩
  refine hobject.setAll (List.forall₂_same.mpr fun entry hentry => ⟨rfl, ?_, .inl rfl⟩)
  exact (hI.own.erase _).within (.entry hentry .self)

/-- What is overridden is expanded in the import, as all of the object is. -/
theorem hiddenExpands_of_related (hd : Dict.Related (Comes fs I.setting n (I.inside debug)) I.object d) :
    I.HiddenExpands debug := by
  refine ⟨n + 1, .dict ⟨d.entries.filter fun entry => I.root.contains entry.1⟩, ?_⟩
  rw [expandTo, dict_of_bare hidden_bare]
  exact (clean_entries (hd.filter I.root.contains)).bind (.pure _)

section
variable (hI : I.Apart)
include hI

/-- What was expanded in the import is expanded again to itself, so each entry comes to what it comes to in place. -/
theorem Stands.comes {v x y : Value} (h : I.Stands n debug v x)
    (hy : Comes fs I.setting (n + 1) (I.opened debug) x y) : Comes fs I.setting' (n + 1) (I.opened debug) v y := by
  obtain ⟨hv, rfl | hx⟩ := h
  · exact hy.mirror setting_of setting'_of hI.inlined hv (hI.beside_opened debug) le_rfl
  · have hsettled := hx.settled setting_of hI.inlined hv (hI.beside_inside debug)
    obtain rfl : y = x := Option.some.inj (Clean.unique hy (comes_of_settled hsettled.succ))
    exact hx.mirror setting_of setting'_of hI.inlined hv (hI.beside_leave debug) n.le_succ

theorem Stands.comes_back {v x y : Value} (h : I.Stands n debug v x)
    (hy : Comes fs I.setting' m (I.opened debug) v y) (hle : m ≤ n + 1) :
    Comes fs I.setting (n + 1) (I.opened debug) x y := by
  obtain ⟨hv, rfl | hx⟩ := h
  · exact hy.mirror setting'_of setting_of hI.inlined hv (hI.beside_opened debug) hle
  · have hsettled := hx.settled setting_of hI.inlined hv (hI.beside_inside debug)
    have hvy := hy.mirror setting'_of setting_of hI.inlined hv (hI.beside_opened debug) hle
    have hvx := hx.mirror setting_of setting_of hI.inlined hv (hI.beside_leave debug) n.le_succ
    obtain rfl : y = x := Option.some.inj (Clean.unique hvy hvx)
    exact comes_of_settled hsettled.succ

theorem related_inlined (hd : Dict.Related (Comes fs I.setting n (I.inside debug)) I.object d)
    (hout : Dict.Related (Comes fs I.setting (n + 1) (I.opened debug)) (d.merge I.own) out) :
    Dict.Related (Comes fs I.setting' (n + 1) (I.opened debug)) (I.object.merge I.own) out :=
  (related_stands hI hd).comp hout fun _ _ _ hstands hy => hstands.comes hI hy

theorem related_hidden (h : I.HiddenExpands debug) :
    ∃ n d, Dict.Related (Comes fs I.setting n (I.inside debug)) I.hidden d := by
  obtain ⟨n, w, hclean⟩ := h
  obtain ⟨e, hrun, hissues, _⟩ := hclean (I.inside debug) rfl
  cases n with
  | zero => cases hrun
  | succ n =>
    rw [expandTo, dict_of_bare hidden_bare] at hrun
    obtain ⟨done, e', hentries, hdone⟩ := exists_of_eval_bind hrun
    cases hdone
    refine ⟨n, ⟨done⟩, related_of_entries setting_of hI.inlined (hI.beside_inside debug) ?_ rfl hentries hissues⟩
    exact fun entry hentry => (hI.object.filter _).within (.entry hentry .self)

/-- All of the object is expanded in the import: what is overridden, and the rest as it is in place. -/
theorem related_object (hhidden : I.HiddenExpands debug)
    (hout : Dict.Related (Comes fs I.setting' m (I.opened debug)) (I.object.merge I.own) out) :
    ∃ n d, m ≤ n ∧ Dict.Related (Comes fs I.setting n (I.inside debug)) I.object d := by
  obtain ⟨k, under, hunder⟩ := related_hidden hI hhidden
  suffices h : ∃ d, Dict.Related (Comes fs I.setting (max m k) (I.inside debug)) I.object d from
    h.elim fun d hd => ⟨max m k, d, le_max_left m k, hd⟩
  refine Dict.Related.exists_of_forall fun entry hentry => ?_
  have hv : I.Spares entry.2 := hI.object.within (.entry hentry .self)
  by_cases hname : I.root.contains entry.1
  · obtain ⟨_, hcomes⟩ := hunder.exists_of_mem (List.mem_filter.mpr ⟨hentry, hname⟩)
    exact ⟨_, hcomes.mirror setting_of setting_of hI.inlined hv (hI.beside_inside debug) (le_max_right m k)⟩
  · have hown : entry.1 ∉ I.own.names := fun hmem =>
      hname (Dict.contains_iff.mpr (Dict.names_erase_subset _ _ (Dict.names_erase_subset _ _ hmem)))
    obtain ⟨_, hcomes⟩ := hout.exists_of_mem (Dict.mem_merge_of_not_mem hentry hown)
    exact ⟨_, hcomes.mirror setting'_of setting_of hI.inlined hv (hI.beside_enter debug) (le_max_left m k)⟩

end

/-! ## The whole expansion -/

/-- What the description has for its scope, if anything, is a dictionary. -/
def Opens (I : Inlining fs base) : Prop := ∀ v, I.root.get? Key.values = some v → ∃ values, v.dict? = some values

section
variable {s : Setting} (hd : d.get? Key.values = I.root.get? Key.values)
include hd

/-- An expansion starts with the scope that both descriptions open. -/
theorem eval_dict (hopens : I.Opens) (next : Job → Expanding (Option Value)) :
    eval fs (dict next s d) (.start (.start base debug)) =
      (eval fs (plain next s (d.erase Key.values)) (I.opened debug)).map
        fun r => (r.1, { r.2 with scopes := r.2.scopes.drop I.scopes.length }) := by
  unfold dict
  cases hvalues : d.get? Key.values with
  | none =>
    have hscopes : I.scopes = [] := by
      rw [scopes, ← hd, hvalues]
      rfl
    have hopened : I.opened debug = .start (.start base debug) := by
      rw [opened, hscopes]
      rfl
    rw [Dict.erase_of_not_mem (Dict.get?_eq_none_iff.mp hvalues), hopened, hscopes]
    exact (congrFun Option.map_id _).symm
  | some v =>
    obtain ⟨values, hdict⟩ := hopens v (hd ▸ hvalues)
    have hscopes : I.scopes = [(∅ : Dict Value).merge values] := by
      rw [scopes, ← hd, hvalues, Option.bind_some, hdict]
    dsimp only
    rw [hdict, opened, hscopes]
    exact eval_around _ _ _ _

/-- Without a scope to open there is no answer. -/
theorem opens_of_eval {next : Job → Expanding (Option Value)} {e e₁ : Expansion} {v : Value}
    (h : eval fs (dict next s d) e = some (some v, e₁)) : I.Opens := by
  intro values hvalues
  unfold dict at h
  rw [hd, hvalues] at h
  dsimp only at h
  cases hdict : values.dict? with
  | some values => exact ⟨values, rfl⟩
  | none =>
    rw [hdict] at h
    cases h

/-- What is expanded cleanly in the scope is what the expansion ends with. -/
theorem expand_of_clean (hopens : I.Opens) (h : Clean fs
    (plain (expandTo ⟨d, fun _ => none⟩ n) ⟨d, fun _ => none⟩ (d.erase Key.values)) (I.opened debug)
      (some (.dict out))) :
    ∃ c, (d.expand (n + 1) (fun _ => none) (.start base debug)).run.eval fs = some (⟨some out, []⟩, c) ∧
      c.unlisted = (Context.start base debug).unlisted := by
  obtain ⟨e, hrun, hissues, hcore⟩ := h (I.opened debug) rfl
  refine ⟨e.context, ?_, (Expansion.core_eq_iff.mp hcore).2.2.2⟩
  have hissues : e.issues = [] := hissues
  rw [Dict.eval_expand, expandTo, eval_dict hd hopens, hrun, Option.map_some, Option.map_some]
  simp only [hissues]
  rfl

theorem plain_of_expand {c : Context}
    (h : (d.expand n (fun _ => none) (.start base debug)).run.eval fs = some (⟨some out, []⟩, c)) :
    I.Opens ∧ ∃ k v e, n = k + 1 ∧ eval fs
      (plain (expandTo ⟨d, fun _ => none⟩ k) ⟨d, fun _ => none⟩ (d.erase Key.values)) (I.opened debug) =
        some (some v, e) ∧ e.issues = [] ∧ v.dictValue?.bind Value.dict? = some out := by
  rw [Dict.eval_expand] at h
  obtain ⟨⟨answer, e⟩, hrun, hvisited⟩ := Option.map_eq_some_iff.mp h
  obtain ⟨hdict, hissues⟩ := Visited.mk.inj (Prod.mk.inj hvisited).1
  obtain ⟨w, hw, hout⟩ := Option.bind_eq_some_iff.mp hdict
  obtain ⟨v, rfl, hv⟩ := Option.bind_eq_some_iff.mp hw
  cases n with
  | zero => cases hrun
  | succ k =>
    rw [expandTo] at hrun
    have hopens := opens_of_eval hd hrun
    rw [eval_dict hd hopens] at hrun
    obtain ⟨⟨_, e'⟩, hplain, hback⟩ := Option.map_eq_some_iff.mp hrun
    cases hback
    exact ⟨hopens, k, v, e', rfl, hplain, hissues, Option.bind_eq_some_iff.mpr ⟨w, hv, hout⟩⟩

end

section
variable (hI : I.Apart)
include hI

/-- What comes out of the description came out of its object in the import, and then of the whole. -/
theorem related_of_expand {c : Context}
    (h : (I.root.expand n (fun _ => none) (.start base debug)).run.eval fs = some (⟨some out, []⟩, c)) :
    I.Opens ∧ c.unlisted = (Context.start base debug).unlisted ∧ ∃ k d,
      Dict.Related (Comes fs I.setting k (I.inside debug)) I.object d ∧
        Dict.Related (Comes fs I.setting (k + 1) (I.opened debug)) (d.merge I.own) out := by
  obtain ⟨hopens, k, v, e, rfl, hplain, hissues, hv⟩ := plain_of_expand rfl h
  obtain ⟨k, d, out', rfl, rfl, hd, hout⟩ := of_plain hI setting_of rfl hplain hissues
  cases hv
  obtain ⟨c', hroot, hc⟩ := expand_of_clean rfl hopens (clean_plain (s := I.setting) hd hout)
  cases h.symm.trans hroot
  exact ⟨hopens, hc, k, d, hd, hout⟩

theorem related_of_expand_inlined {c : Context}
    (h : (I.inlined.expand n (fun _ => none) (.start base debug)).run.eval fs = some (⟨some out, []⟩, c)) :
    I.Opens ∧ c.unlisted = (Context.start base debug).unlisted ∧
      ∃ k, Dict.Related (Comes fs I.setting' k (I.opened debug)) (I.object.merge I.own) out := by
  obtain ⟨hopens, k, v, e, rfl, hplain, hissues, hv⟩ := plain_of_expand get?_values_inlined h
  obtain ⟨out', rfl, hout⟩ := of_plain_inlined hI setting'_of rfl hplain hissues
  cases hv
  obtain ⟨c', hinlined, hc⟩ := expand_of_clean get?_values_inlined hopens (clean_plain_inlined (s := I.setting') hout)
  cases h.symm.trans hinlined
  exact ⟨hopens, hc, k, hout⟩

/-- If the description is expanded without an issue, so is what it overrides, and the inlined one comes to the same. -/
theorem expand_inlined {c : Context}
    (h : (I.root.expand n (fun _ => none) (.start base debug)).run.eval fs = some (⟨some out, []⟩, c)) :
    I.HiddenExpands debug ∧ ∃ m c', (I.inlined.expand m (fun _ => none) (.start base debug)).run.eval fs =
      some (⟨some out, []⟩, c') ∧ c.unlisted = c'.unlisted := by
  obtain ⟨hopens, hc, k, d, hd, hout⟩ := related_of_expand hI h
  obtain ⟨c', hinlined, hc'⟩ := expand_of_clean get?_values_inlined hopens
    (clean_plain_inlined (s := I.setting') (related_inlined hI hd hout))
  exact ⟨hiddenExpands_of_related hd, _, c', hinlined, hc.trans hc'.symm⟩

theorem expand_root (hhidden : I.HiddenExpands debug) {c : Context}
    (h : (I.inlined.expand n (fun _ => none) (.start base debug)).run.eval fs = some (⟨some out, []⟩, c)) :
    ∃ m c', (I.root.expand m (fun _ => none) (.start base debug)).run.eval fs = some (⟨some out, []⟩, c') ∧
      c.unlisted = c'.unlisted := by
  obtain ⟨hopens, hc, k, hout⟩ := related_of_expand_inlined hI h
  obtain ⟨n, d, hle, hd⟩ := related_object hI hhidden hout
  have hwhole := (related_stands hI hd).flip.comp hout fun _ _ _ hstands hy =>
    hstands.comes_back hI hy (hle.trans n.le_succ)
  obtain ⟨c', hroot, hc'⟩ := expand_of_clean rfl hopens (clean_plain (s := I.setting) hd hwhole)
  exact ⟨_, c', hroot, hc.trans hc'.symm⟩

end

/-! ## The compile -/

/-- A compile of a description that imports the object in a file without directives ends well if and only if that of
the description with the object in its place does and what it overrides of the object is expanded as well; and then
the two make the same, apart from the lists of files. The description may not use the file again, or a template that
is not the same after inlining. -/
theorem compile_inlined (I : Inlining fs base) (hI : I.Apart) {o : Options σ} (hregistry : o.registry.Blind fs)
    (hlocalize : ∀ name, o.localize name = none) (w : σ) :
    ((∃ fuel e w', Compiling.Ends fs (I.root.compile fuel o base) w e w') ↔
      (∃ fuel e w', Compiling.Ends fs (I.inlined.compile fuel o base) w e w') ∧ I.HiddenExpands o.debug) ∧
    ∀ fuel e w₁, Compiling.Ends fs (I.root.compile fuel o base) w e w₁ →
      ∀ fuel' e' w₂, Compiling.Ends fs (I.inlined.compile fuel' o base) w e' w₂ →
        e'.withoutFiles = e.withoutFiles ∧ w₂ = w₁ := by
  obtain ⟨debug, registry, localize⟩ := o
  obtain rfl : localize = fun _ => none := funext hlocalize
  refine ⟨⟨?_, ?_⟩, ?_⟩
  · rintro ⟨fuel, e, w', h⟩
    obtain ⟨out, c, hexpand⟩ := Dict.exists_expand_of_ends h
    obtain ⟨hhidden, m, c', hinlined, hc⟩ := expand_inlined hI hexpand
    obtain ⟨e', hends, -⟩ := Dict.ends_compile_beside hregistry hexpand hinlined hc h
    exact ⟨⟨m, e', w', hends⟩, hhidden⟩
  · rintro ⟨⟨fuel, e, w', h⟩, hhidden⟩
    obtain ⟨out, c, hexpand⟩ := Dict.exists_expand_of_ends h
    obtain ⟨m, c', hroot, hc⟩ := expand_root hI hhidden hexpand
    obtain ⟨e', hends, -⟩ := Dict.ends_compile_beside hregistry hexpand hroot hc h
    exact ⟨m, e', w', hends⟩
  · intro fuel e w₁ h fuel' e' w₂ h'
    obtain ⟨out, c, hexpand⟩ := Dict.exists_expand_of_ends h
    obtain ⟨-, m, c', hinlined, hc⟩ := expand_inlined hI hexpand
    obtain ⟨e₁, hends, hsame⟩ := Dict.ends_compile_beside hregistry hexpand hinlined hc h
    cases Dict.compile_unique h' hends
    exact ⟨hsame, rfl⟩

/-! ## An object that is overridden, and a template in it -/

/-- Whatever is asked for, it is this file with this text in it. -/
def textFile (text : String) : Files := ⟨fun _ => .ok "/f", fun _ => .ok (Bytes.ofString text), fun _ => none⟩

theorem dict?_textFile {text : String} {d : Dict Value} (h : Json.parseDict text = .ok d) (path : Path) :
    (textFile text).dict? path = some d := by
  have hread : (Look.readText path).eval (textFile text) = .ok text := by
    have hanswer : (textFile text).read path = .ok (Bytes.ofString text) := rfl
    rw [Look.eval_readText, hanswer]
    dsimp only
    rw [Bytes.toString?_ofString]
  rw [Files.dict?, hread]
  dsimp only
  rw [h]
  rfl

/-- An entry that can serve as a template, and another one. -/
def heldObject : Dict Json := ⟨[("t", .object ⟨[("x", .string "y")]⟩), ("u", .string "v")]⟩

def heldText : String := String.ofList (heldObject.writeObject 0 ['\n'])

theorem parseDict_heldText : Json.parseDict heldText = .ok heldObject.jsonValue := by
  have hsound : heldObject.Sound := ⟨by decide, ⟨List.nodup_singleton _, trivial, trivial⟩, trivial, trivial⟩
  rw [Json.parseDict, heldText, Json.parse_writeObject hsound (by decide)]

/-- An import of the object with one entry over it. -/
def heldUnder (name : String) (v : Value) (hname : name ∉ Key.directives) : Inlining (textFile heldText) "" where
  root := ⟨[(Key.imported, .string "f"), (name, v)]⟩
  relative := "f"
  object := heldObject.jsonValue
  distinct := by
    refine List.nodup_cons.mpr ⟨fun hmem => hname ?_, List.nodup_singleton _⟩
    have heq : Key.imported = name := List.mem_singleton.mp hmem
    exact heq ▸ by decide
  imports := rfl
  noTemplate := by
    have hother {key : String} (hkey : key ∈ Key.directives) (hne : key ≠ Key.imported) :
        key ∉ (⟨[(Key.imported, .string "f"), (name, v)]⟩ : Dict Value).names := by
      refine List.not_mem_cons_of_ne_of_not_mem hne fun hmem => hname ?_
      have heq : key = name := List.mem_singleton.mp hmem
      exact heq ▸ hkey
    exact Dict.template?_eq_none_iff.mpr ⟨hother (by decide) (by decide), hother (by decide) (by decide)⟩
  holds := dict?_textFile parseDict_heldText _
  bare := by decide

/-- The description overrides an entry of the object. -/
theorem compile_inlined_overridden : ∃ I : Inlining (textFile heldText) "",
    I.root.get? "u" = some (.string "w") ∧ I.object.get? "u" = some (.string "v") ∧ I.Apart ∧
      (Registry.builtin : Registry Unit).Blind (textFile heldText) ∧
      (∃ fuel e w', Compiling.Ends (textFile heldText)
        (I.root.compile fuel ⟨false, .builtin, fun _ => none⟩ "") () e w') ∧
      (∃ fuel e w', Compiling.Ends (textFile heldText)
        (I.inlined.compile fuel ⟨false, .builtin, fun _ => none⟩ "") () e w') ∧ I.HiddenExpands false := by
  have hatom {text : String} (hreserved : after? Key.reserved text = none)
      (hlocalized : after? Key.localized text = none) : (Value.string text).Settled 1 := by
    refine .atom ?_
    rintro _ ⟨⟩
    exact ⟨hreserved, hlocalized⟩
  let I := heldUnder "u" (.string "w") (by decide)
  have hentry : (Value.dict ⟨[("x", .string "y")]⟩).Settled 3 :=
    .dict (by decide) (List.forall_mem_singleton.mpr (hatom (by decide) (by decide)))
  have hother : (Value.string "v").Settled 3 := (hatom (by decide) (by decide)).mono (by decide)
  have hobject : (Value.dict I.object).Settled 5 :=
    .dict (by decide) (List.forall_mem_cons.mpr ⟨hentry, List.forall_mem_singleton.mpr hother⟩)
  have hown : (Value.dict (I.root.erase Key.imported)).Settled 3 :=
    .dict (by decide) (List.forall_mem_singleton.mpr (hatom (by decide) (by decide)))
  have hI : I.Apart := ⟨.of_settled hobject, .of_settled hown⟩
  obtain ⟨e, w', h, -⟩ : ∃ e w', Compiling.Ends (textFile heldText)
      (I.root.compile 8 ⟨false, .builtin, fun _ => none⟩ "") () e w' ∧ e.contains "t" := by decide +kernel
  have hregistry := Registry.blind_builtin (σ := Unit) (textFile heldText)
  have hends : ∃ fuel e w', Compiling.Ends (textFile heldText)
      (I.root.compile fuel ⟨false, .builtin, fun _ => none⟩ "") () e w' := ⟨8, e, w', h⟩
  obtain ⟨hinlined, hhidden⟩ := (compile_inlined I hI (o := ⟨false, .builtin, fun _ => none⟩) hregistry
    (fun _ => rfl) ()).1.mp hends
  exact ⟨I, rfl, rfl, hI, hregistry, hends, hinlined, hhidden⟩

/-- With a template that comes from the import the inlined description is compiled, but the description is not. -/
theorem not_compile_inlined_of_heldTemplate : ∃ I : Inlining (textFile heldText) "",
    I.object.contains "t" ∧ I.root.get? "a" = some (.dict ⟨[(Key.template, .string "t")]⟩) ∧
      (∃ e w', Compiling.Ends (textFile heldText)
        (I.inlined.compile 8 ⟨false, .builtin, fun _ => none⟩ "") () e w' ∧ e.contains "a") ∧
      ¬∃ fuel e w', Compiling.Ends (textFile heldText)
        (I.root.compile fuel ⟨false, .builtin, fun _ => none⟩ "") () e w' := by
  let I := heldUnder "a" (.dict ⟨[(Key.template, .string "t")]⟩) (by decide)
  refine ⟨I, by decide, rfl, by decide +kernel, ?_⟩
  rintro ⟨fuel, e, w', h⟩
  have hanswered : (Compiling.eval (textFile heldText)
      (I.root.compile 8 ⟨false, .builtin, fun _ => none⟩ "") ()).isSome := by decide +kernel
  have hfails : ¬∃ e w', Compiling.Ends (textFile heldText)
      (I.root.compile 8 ⟨false, .builtin, fun _ => none⟩ "") () e w' ∧ True := by decide +kernel
  obtain ⟨r, hr⟩ := Option.isSome_iff_exists.mp hanswered
  obtain rfl := Dict.compile_unique hr h
  exact hfails ⟨e, w', hr, trivial⟩

end Inlining
end AssetPack
