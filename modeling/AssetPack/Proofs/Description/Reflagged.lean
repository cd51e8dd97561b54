import AssetPack.Proofs.Description.Flags
import AssetPack.Proofs.Description.Fueled
import AssetPack.Proofs.Description.Inlining

/-!
# Descriptions up to flags

A text and a template can lead to a flag, and what they stand for then depends on it. Where they do not, all that a
name leads to is the same but for flags.
-/
namespace AssetPack
variable {fs : Files} {base : Path} {debug : Bool}

/-! ## What leads to no flag -/

/-- Flags are plain, and neither a text nor a template leads to one. -/
structure Value.IgnoresFlags (v : Value) : Prop where
  plain : v.PlainlyFlagged
  texts : ∀ text name, (Value.string text).Within v → after? Key.reserved text = some name → ¬Key.LeadsToFlag name
  templates : ∀ key ∈ [Key.template, Key.base], ∀ name, v.HasField key (.string name) → ¬Key.LeadsToFlag name

/-- `u` is the value itself, or a dictionary in a file that is imported there or in such a dictionary. -/
inductive Value.Draws (fs : Files) (base : Path) (u : Value) : Value → Prop
  | self : Draws fs base u u
  | imported {v : Value} {relative : Path} {d : Dict Value} : v.HasField Key.imported (.string relative) →
      fs.dict? (fs.settled base relative) = some d → Draws fs base u (.dict d) → Draws fs base u v

/-- So it is with all that the value draws on. -/
def Value.IgnoresAllFlags (fs : Files) (base : Path) (v : Value) : Prop :=
  ∀ u : Value, u.Draws fs base v → u.IgnoresFlags

namespace Value
variable {u v w : Value} {d e : Dict Value}

theorem PlainlyFlagged.merge (hd : (dict d).PlainlyFlagged) (he : (dict e).PlainlyFlagged) :
    (dict (d.merge e)).PlainlyFlagged := by
  refine throughout_dict.mpr ⟨fun u hu => ?_, fun entry hentry => ?_⟩
  · exact (Dict.mem_setAll hu).elim (hd.here u) (he.here u)
  · exact (Dict.mem_setAll hentry).elim ((throughout_dict.mp hd).2 entry) ((throughout_dict.mp he).2 entry)

theorem PlainlyFlagged.erase (hd : (dict d).PlainlyFlagged) (key : String) : (dict (d.erase key)).PlainlyFlagged := by
  refine throughout_dict.mpr ⟨fun u hu => hd.here u (List.mem_of_mem_filter hu), fun entry hentry => ?_⟩
  exact (throughout_dict.mp hd).2 entry (List.mem_of_mem_filter hentry)

theorem hasField_of_erase {key name : String} {a : Atom} (h : (dict (d.erase key)).HasField name a) :
    (dict d).HasField name a := by
  obtain ⟨entry, hentry, hhere⟩ := hasField_dict.mp h
  exact hasField_dict.mpr ⟨entry, List.mem_of_mem_filter hentry, hhere⟩

/-- A text in a dictionary stands in one of its entries. -/
theorem within_string {text : String} (h : (string text).Within (.dict d)) :
    ∃ entry ∈ d.entries, (string text).Within entry.2 := by
  cases h with
  | entry hentry hwithin => exact ⟨_, hentry, hwithin⟩

namespace IgnoresFlags

theorem within (h : v.IgnoresFlags) (hu : u.Within v) : u.IgnoresFlags where
  plain x hx := h.plain x (hx.trans hu)
  texts text name htext := h.texts text name (htext.trans hu)
  templates key hkey name hfield := h.templates key hkey name (hfield.within fun _ hx => hx.trans hu)

theorem merge (hd : (dict d).IgnoresFlags) (he : (dict e).IgnoresFlags) : (dict (d.merge e)).IgnoresFlags where
  plain := hd.plain.merge he.plain
  texts text name htext := by
    obtain ⟨entry, hentry, hwithin⟩ := within_string htext
    rcases Dict.mem_setAll hentry with hentry | hentry
    · exact hd.texts text name (.entry hentry hwithin)
    · exact he.texts text name (.entry hentry hwithin)
  templates key hkey name hfield :=
    (hasField_merge hfield).elim (hd.templates key hkey name) (he.templates key hkey name)

theorem erase (hd : (dict d).IgnoresFlags) (key : String) : (dict (d.erase key)).IgnoresFlags where
  plain := hd.plain.erase key
  texts text name htext := by
    obtain ⟨entry, hentry, hwithin⟩ := within_string htext
    exact hd.texts text name (.entry (List.mem_of_mem_filter hentry) hwithin)
  templates key hkey name hfield := hd.templates key hkey name (hasField_of_erase hfield)

end IgnoresFlags

theorem Of.speaks_expanded (h : v.Of .expanded) (hu : u.Within v) : u.Speaks .expanded :=
  h.speaks_within (fun _ => False.elim) hu

namespace IgnoresFlags

/-- What comes out of an expansion looks nothing up. -/
theorem of_expanded (h : v.Of .expanded) (hplain : v.PlainlyFlagged) : v.IgnoresFlags where
  plain := hplain
  texts text name htext hname := by
    have hatom := h.speaks_expanded htext
    rw [hatom Key.reserved (by decide)] at hname
    cases hname
  templates key hkey name hfield := by
    obtain ⟨d, hd, hentry⟩ := hfield
    have hnames := h.speaks_expanded hd
    exact absurd ((by decide : [Key.template, Key.base] ⊆ Key.directives) hkey) (hnames key (Dict.mem_names hentry))

end IgnoresFlags

/-- What imports only what one of two values imports draws on nothing else. -/
theorem IgnoresAllFlags.of_fields (hu : u.IgnoresFlags) (hv : v.IgnoresAllFlags fs base)
    (hw : w.IgnoresAllFlags fs base) (h : ∀ relative, u.HasField Key.imported (.string relative) →
      v.HasField Key.imported (.string relative) ∨ w.HasField Key.imported (.string relative)) :
    u.IgnoresAllFlags fs base := by
  intro x hx
  cases hx with
  | self => exact hu
  | imported hfield hd hdraws =>
    exact (h _ hfield).elim (fun hfield => hv x (.imported hfield hd hdraws))
      fun hfield => hw x (.imported hfield hd hdraws)

/-- A value of JSON that leads to no flag, nor does what it draws on. -/
structure Given (fs : Files) (base : Path) (v : Value) : Prop where
  of : v.Of .json
  ignores : v.IgnoresAllFlags fs base

namespace Given

theorem here (h : v.Given fs base) : v.IgnoresFlags := h.ignores v .self

theorem within (h : v.Given fs base) (hu : u.Within v) (hof : u.Of .json) : u.Given fs base :=
  ⟨hof, h.ignores.of_fields (h.here.within hu) h.ignores fun _ hfield =>
    .inl (hfield.within fun _ hx => hx.trans hu)⟩

theorem item {items : List Value} (h : (list items).Given fs base) (hv : v ∈ items) : v.Given fs base :=
  h.within (.item hv .self) (of_list.mp h.of v hv)

theorem entry {entry : String × Value} (h : (dict d).Given fs base) (hentry : entry ∈ d.entries) :
    entry.2.Given fs base := h.within (.entry hentry .self) (Dict.Of.entry h.of hentry)

theorem find? {name : String} (h : (dict d).Given fs base) (hv : d.find? name = some v) : v.Given fs base :=
  h.within (within_of_find? hv) (Dict.Of.find? (fun _ hp => hp) h.of hv)

theorem merge (hd : (dict d).Given fs base) (he : (dict e).Given fs base) : (dict (d.merge e)).Given fs base :=
  ⟨Dict.Of.merge hd.of he.of, hd.ignores.of_fields (hd.here.merge he.here) he.ignores fun _ => hasField_merge⟩

theorem erase (hd : (dict d).Given fs base) (key : String) : (dict (d.erase key)).Given fs base :=
  ⟨Dict.Of.erase hd.of key, hd.ignores.of_fields (hd.here.erase key) hd.ignores fun _ h => .inl (hasField_of_erase h)⟩

theorem empty : (dict ∅).Given fs base := by
  have hplain : (dict ∅).PlainlyFlagged := throughout_dict.mpr ⟨nofun, nofun⟩
  have hof : (∅ : Dict Value).Of .expanded := Dict.of_empty
  refine ⟨Dict.of_empty, fun u hu => ?_⟩
  cases hu with
  | self => exact .of_expanded hof hplain
  | imported hfield _ _ =>
    obtain ⟨_, hentry, _⟩ := hasField_dict.mp hfield
    cases hentry

/-- What comes out of an expansion draws on nothing but itself. -/
theorem of_expanded (h : v.Of .expanded) (hplain : v.PlainlyFlagged) : v.Given fs base := by
  refine ⟨Of.json h, fun u hu => ?_⟩
  cases hu with
  | self => exact .of_expanded h hplain
  | imported hfield _ _ =>
    obtain ⟨d, hd, hentry⟩ := hfield
    have hnames := h.speaks_expanded hd
    exact absurd (by decide) (hnames Key.imported (Dict.mem_names hentry))

/-- What is imported is given as well. -/
theorem held (h : v.Given fs base) {relative : Path} (hfield : v.HasField Key.imported (.string relative))
    (hd : fs.dict? (fs.settled base relative) = some d) : (dict d).Given fs base := by
  refine ⟨?_, fun u hu => h.ignores u (.imported hfield hd hu)⟩
  rw [Files.dict?] at hd
  cases htext : (Look.readText (fs.settled base relative)).eval fs with
  | error error =>
    rw [htext] at hd
    cases hd
  | ok text =>
    rw [htext] at hd
    dsimp only at hd
    cases hparse : Json.parseDict text with
    | error fault =>
      rw [hparse] at hd
      cases hd
    | ok parsed =>
      rw [hparse] at hd
      cases hd
      exact Json.of_parseDict hparse

end Given

/-- Given values that are the same but for flags. -/
structure Alongside (fs : Files) (base : Path) (v w : Value) : Prop where
  reflagged : v.Reflagged w
  left : v.Given fs base
  right : w.Given fs base

namespace Alongside
variable {d' e' : Dict Value}

theorem rel {x : Option Value} {y : Option Value} (h : Option.Rel Reflagged x y)
    (hx : ∀ v, x = some v → v.Given fs base) (hy : ∀ w, y = some w → w.Given fs base) :
    Option.Rel (Alongside fs base) x y := by
  cases h with
  | none => exact .none
  | some h => exact .some ⟨h, hx _ rfl, hy _ rfl⟩

theorem get? (h : (dict d).Alongside fs base (.dict e)) {name : String} (hname : name ≠ Key.compress) :
    Option.Rel (Alongside fs base) (d.get? name) (e.get? name) :=
  rel (h.reflagged.get? hname) (fun _ hv => h.left.entry (Dict.mem_of_get? hv))
    fun _ hw => h.right.entry (Dict.mem_of_get? hw)

theorem find? (h : (dict d).Alongside fs base (.dict e)) {name : String} (hname : ¬Key.LeadsToFlag name) :
    Option.Rel (Alongside fs base) (d.find? name) (e.find? name) :=
  rel (h.reflagged.find? hname) (fun _ => h.left.find?) fun _ => h.right.find?

theorem merge (h : (dict d).Alongside fs base (.dict e)) (h' : (dict d').Alongside fs base (.dict e')) :
    (dict (d.merge d')).Alongside fs base (.dict (e.merge e')) :=
  ⟨h.reflagged.merge h'.reflagged h'.left.of.here.1 h'.right.of.here.1, h.left.merge h'.left, h.right.merge h'.right⟩

theorem erase (h : (dict d).Alongside fs base (.dict e)) {key : String} (htype : key ≠ Key.type) :
    (dict (d.erase key)).Alongside fs base (.dict (e.erase key)) :=
  ⟨h.reflagged.erase htype, h.left.erase key, h.right.erase key⟩

theorem empty : (dict ∅).Alongside fs base (.dict ∅) := ⟨.empty, .empty, .empty⟩

theorem entries (h : (dict d).Alongside fs base (.dict e)) : UpToFlags (Alongside fs base) d.entries e.entries :=
  (h.reflagged.entries.and_mem (fun _ => h.left.entry) fun _ => h.right.entry).imp fun _ _ h => ⟨h.1, h.2.1, h.2.2⟩

theorem items {vs ws : List Value} (h : (list vs).Alongside fs base (.list ws)) :
    List.Forall₂ (Alongside fs base) vs ws := by
  obtain ⟨hreflagged, hleft, hright⟩ := h
  cases hreflagged with
  | list hitems =>
    refine (forall₂_and hitems (fun _ => hleft.item) fun _ => hright.item).imp fun v w h => ?_
    exact ⟨h.1, h.2.1, h.2.2⟩

/-- The dictionaries that the values are, if they are any. -/
theorem opened (h : v.Alongside fs base w) : Option.Rel (fun d e => (dict d).Alongside fs base (.dict e))
    (v.dictValue?.bind Value.dict?) (w.dictValue?.bind Value.dict?) := by
  obtain ⟨hreflagged, hleft, hright⟩ := h
  cases hreflagged with
  | dict hentries hbalanced => exact .some ⟨.dict hentries hbalanced, hleft, hright⟩
  | _ => exact .none

theorem refl (h : v.Given fs base) : v.Alongside fs base v := ⟨.refl h.of h.here.plain, h, h⟩

end Alongside
end Value

end AssetPack
