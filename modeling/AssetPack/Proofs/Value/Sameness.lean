import Mathlib
import AssetPack.Proofs.Codec.Shift
import AssetPack.Proofs.Dict.Reordered
import AssetPack.Proofs.Tree.Stored
import AssetPack.Proofs.Value.Opened

/-!
# Sameness by normal forms

Two values are the same just if they have one normal form. There every block that opens is open, a block that does not
open has no place, and the entries of a dictionary stand in the order of their names. So sameness is an equivalence,
and it does not tell whether a block was opened.
-/
namespace AssetPack

/-! ## Dictionaries by their sorted entries -/

namespace Dict
variable {α β : Type}

theorem sorted_eq_iff {d e : Dict α} (hd : d.Distinct) (he : e.Distinct) :
    d.sorted = e.sorted ↔ d.Reordered Eq e := by
  constructor
  · intro h
    have hperm : d.entries.Perm e.entries := by
      have hsorted : d.sorted.Perm e.entries := h ▸ List.mergeSort_perm e.entries _
      exact (List.mergeSort_perm d.entries _).symm.trans hsorted
    exact .of_reordered_entries hd he (.of_perm hperm fun _ _ => ⟨rfl, rfl⟩)
  · exact Reordered.sorted

theorem reordered_map_iff {d e : Dict α} {f : α → β} :
    (d.map f).Reordered Eq (e.map f) ↔ d.Reordered (fun a b => f a = f b) e := by
  constructor
  · intro h
    refine ⟨?_, ?_, fun name => ?_, fun name a b ha hb => h.entries name _ _ ?_ ?_⟩
    · simpa only [Distinct, names_map] using h.distinct
    · simpa only [Distinct, names_map] using h.distinct'
    · simpa only [names_map] using h.names name
    · rw [get?_map, ha, Option.map_some]
    · rw [get?_map, hb, Option.map_some]
  · intro h
    refine .of_get? ?_ ?_ fun name => ?_
    · simpa only [Distinct, names_map] using h.distinct
    · simpa only [Distinct, names_map] using h.distinct'
    · rw [get?_map, get?_map]
      rcases rel_cases (h.get? name) with ⟨ha, hb⟩ | ⟨a, b, ha, hb, hab⟩
      · rw [ha, hb]
        exact .none
      · rw [ha, hb]
        exact .some hab

/-- Look-ups tell that dictionaries are the same, in whatever order their entries stand. -/
theorem Reordered.sameAs {d e : Dict Value} (h : d.Reordered (fun v w => v.same w = true) e) :
    d.sameAs e = true := by
  rw [Dict.sameAs, Dict.same_iff, Dict.tree_eq, Dict.tree_eq, Dict.size_map, Dict.size_map]
  refine ⟨h.size_eq, fun entry hentry => ?_⟩
  obtain ⟨a, ha, rfl⟩ := List.mem_map.mp hentry
  have hget := h.get? a.1
  rw [Dict.get?_of_mem h.distinct ha] at hget
  obtain ⟨v, hv, hsame⟩ := exists_of_rel hget
  exact ⟨v.tree, by rw [Dict.get?_map, hv]; rfl, hsame⟩

theorem sameAs_iff {d e : Dict Value} (hd : d.Distinct) (he : e.Distinct) :
    d.sameAs e = true ↔ d.Reordered (fun v w => v.same w = true) e := by
  refine ⟨fun h => ?_, Reordered.sameAs⟩
  rw [sameAs, same_iff, Dict.tree_eq, Dict.tree_eq, size_map, size_map] at h
  obtain ⟨hsize, hentries⟩ := h
  have hfound {name : String} {v : Value} (hv : d.get? name = some v) :
      ∃ w, e.get? name = some w ∧ v.same w = true := by
    obtain ⟨u, hu, hsame⟩ := hentries (name, v.tree) (List.mem_map_of_mem (mem_of_get? hv))
    rw [get?_map, Option.map_eq_some_iff] at hu
    obtain ⟨w, hw, rfl⟩ := hu
    exact ⟨w, hw, hsame⟩
  have hsubset : d.names ⊆ e.names := by
    intro name hname
    obtain ⟨v, hv⟩ := exists_get? hname
    obtain ⟨w, hw, -⟩ := hfound hv
    exact mem_names_of_get? hw
  have hlength : e.names.length ≤ d.names.length := by
    rw [names, names, List.length_map, List.length_map]
    exact Nat.le_of_eq hsize.symm
  have hperm : d.names.Perm e.names := (List.subperm_of_subset hd hsubset).perm_of_length_le hlength
  refine ⟨hd, he, fun name => hperm.mem_iff, fun name v w hv hw => ?_⟩
  obtain ⟨w', hw', hsame⟩ := hfound hv
  rw [hw, Option.some.injEq] at hw'
  exact hw' ▸ hsame

end Dict

/-! ## Normal forms -/

mutual

/-- The value of a tree in normal form. What is in payloads is left as it is. -/
def Tree.normal : Tree → Value
  | .atom a => .atom a
  | .list items => .list (normalItems items)
  | .dict (.payload p) _ => .saved p
  | .dict _ d => .dict ⟨d.normal.sorted⟩
  | .blob p => .saved p
  | .broken (.payload p) => .saved p
  | .broken (.block b) => .block ⟨0, b.bytes⟩
  | .broken .plain => .dict ∅
termination_by structural t => t

def normalItems : List Tree → List Value
  | [] => []
  | t :: ts => t.normal :: normalItems ts
termination_by structural ts => ts

def Dict.normal : Dict Tree → Dict Value
  | ⟨entries⟩ => ⟨normalEntries entries⟩
termination_by structural d => d

def normalEntries : List (String × Tree) → List (String × Value)
  | [] => []
  | (name, t) :: rest => (name, t.normal) :: normalEntries rest
termination_by structural entries => entries

end

theorem normalItems_eq (ts : List Tree) : normalItems ts = ts.map Tree.normal := by
  induction ts with
  | nil => rfl
  | cons t ts ih => rw [normalItems, ih, List.map_cons]

theorem Dict.normal_eq (d : Dict Tree) : d.normal = d.map Tree.normal := by
  have h (entries : List (String × Tree)) :
      normalEntries entries = entries.map fun entry => (entry.1, entry.2.normal) := by
    induction entries with
    | nil => rfl
    | cons entry rest ih => rw [normalEntries, ih, List.map_cons]
  obtain ⟨entries⟩ := d
  rw [Dict.normal, h]
  rfl

namespace Value
variable {v w : Value} {b : Block} {d : Dict Value}

/-- The normal form of a value. -/
def normal (v : Value) : Value := v.tree.normal

@[simp] theorem normal_atom (a : Atom) : (atom a).normal = .atom a := rfl

@[simp] theorem normal_list (items : List Value) : (list items).normal = .list (items.map normal) := by
  rw [normal, tree_list, Tree.normal, normalItems_eq, List.map_map]
  rfl

@[simp] theorem normal_dict (d : Dict Value) : (dict d).normal = .dict ⟨(d.map normal).sorted⟩ := by
  rw [normal, tree_dict, Tree.normal, Dict.normal_eq, Dict.tree_eq, Dict.map, Dict.map, List.map_map]
  · rfl
  · intro p h
    cases h

@[simp] theorem normal_saved (p : Payload) : (saved p).normal = .saved p := by
  rw [normal, tree_saved]
  split
  · cases p.loadDict <;> rfl
  · rfl

theorem normal_of_load (h : b.load = .ok d) : (block b).normal = (dict d).normal := by
  rw [normal, tree_block, h]
  rfl

theorem normal_of_closed {f : Fault} (h : b.load = .error f) : (block b).normal = .block ⟨0, b.bytes⟩ := by
  rw [normal, tree_block, h]
  rfl

/-- The place of a block is not told by the normal form. -/
theorem normal_moved (v : Value) (distance : Nat) : (v.moved distance).normal = v.normal := by
  induction v using induction_opened with
  | atom a => rfl
  | list items ih =>
    rw [moved, movedItems_eq, normal_list, normal_list, List.map_map]
    exact congrArg list (List.map_congr_left ih)
  | dict d ih =>
    have hmap : (d.map (·.moved distance)).map normal = d.map normal := by
      rw [Dict.map, Dict.map, Dict.map, List.map_map]
      exact congrArg Dict.mk (List.map_congr_left fun entry hentry => Prod.ext rfl (ih entry hentry))
    rw [moved, Dict.moved_eq, normal_dict, normal_dict, hmap]
  | block b ih =>
    have hmoved : Block.load ⟨b.offset + distance, b.bytes⟩ = _ := Block.load_moved b.offset distance b.bytes
    rw [moved]
    cases hload : b.load with
    | ok e =>
      have hopen : Block.load ⟨b.offset, b.bytes⟩ = .ok e := hload
      rw [hopen] at hmoved
      rw [normal_of_load hmoved, normal_of_load hload]
      exact ih e hload
    | error f =>
      have hclosed : Block.load ⟨b.offset, b.bytes⟩ = .error f := hload
      rw [hclosed] at hmoved
      rw [normal_of_closed hmoved, normal_of_closed hload]
  | saved p => rfl

theorem normal_block_congr {b c : Block} (h : b.bytes = c.bytes) : (block b).normal = (block c).normal := by
  have hstart (b : Block) : (block b).normal = (block ⟨0, b.bytes⟩).normal := by
    have hmoved := normal_moved (block ⟨0, b.bytes⟩) b.offset
    rwa [moved, Nat.zero_add] at hmoved
  rw [hstart b, hstart c, h]

/-! ## Sameness, case by case -/

theorem tree_saved_cases (p : Payload) : (saved p).tree = .blob p ∨ (saved p).tree = .broken (.payload p) ∨
    ∃ d, (saved p).tree = .dict (.payload p) d := by
  rw [tree_saved]
  by_cases hp : p.content = .dict
  · cases p.loadDict <;> simp [hp]
  · simp [hp]

theorem same_saved_iff {p : Payload} : (saved p).same w = true ↔ w = .saved p := by
  constructor
  · intro h
    rw [same] at h
    cases w with
    | saved q =>
      rcases tree_saved_cases p with hp | hp | ⟨d, hp⟩ <;> rcases tree_saved_cases q with hq | hq | ⟨e, hq⟩ <;>
        simp_all [Tree.same, Source.same?]
    | block c =>
      rw [tree_block] at h
      rcases tree_saved_cases p with hp | hp | ⟨d, hp⟩ <;> cases hc : c.load <;>
        simp [hp, hc, Tree.same, Source.same?] at h
    | _ => rcases tree_saved_cases p with hp | hp | ⟨d, hp⟩ <;> simp [hp, Tree.same, Source.same?] at h
  · intro h
    rw [h]
    exact same_saved p

theorem same_atom_iff {a : Atom} : (atom a).same w = true ↔ w = .atom a := by
  rw [same, tree_atom]
  cases w with
  | atom b => simp [Tree.same, eq_comm]
  | block c => cases hc : c.load <;> simp [tree_block, hc, Tree.same]
  | saved p => rcases tree_saved_cases p with hp | hp | ⟨d, hp⟩ <;> simp [hp, Tree.same]
  | _ => simp [Tree.same]

theorem same_list_iff {items : List Value} : (list items).same w = true ↔
    ∃ items', w = .list items' ∧ List.Forall₂ (fun v w => v.same w = true) items items' := by
  rw [same, tree_list]
  cases w with
  | list items' =>
    simp only [tree_list, Tree.same, sameItems_iff, List.forall₂_map_left_iff, List.forall₂_map_right_iff,
      list.injEq, exists_eq_left']
    rfl
  | block c => cases hc : c.load <;> simp [tree_block, hc, Tree.same]
  | saved p => rcases tree_saved_cases p with hp | hp | ⟨d, hp⟩ <;> simp [hp, Tree.same]
  | _ => simp [Tree.same]

theorem same_dict_iff : (dict d).same w = true ↔ ∃ e, w.dict? = some e ∧ d.sameAs e = true := by
  rw [same, tree_dict]
  cases w with
  | dict e => simp [dict?, Tree.same, Source.same?, Dict.sameAs]
  | block c =>
    cases hc : c.load <;> simp [tree_block, dict?, hc, Tree.same, Source.same?, Dict.sameAs, Except.toOption]
  | saved p => rcases tree_saved_cases p with hp | hp | ⟨d, hp⟩ <;> simp [hp, dict?, Tree.same, Source.same?]
  | _ => simp [dict?, Tree.same]

/-- A block is compared by what it opens to, but blocks of the same bytes are the same at once. -/
theorem same_of_load (h : b.load = .ok d) : (block b).same w = true ↔
    (∃ c, w = .block c ∧ b.bytes = c.bytes) ∨ (dict d).same w = true := by
  rw [same, same, tree_block, h, tree_dict]
  cases w with
  | block c =>
    rw [tree_block]
    cases hc : c.load with
    | ok e => by_cases hbytes : b.bytes = c.bytes <;> simp [Tree.same, Source.same?, hbytes]
    | error f =>
      have hbytes : b.bytes ≠ c.bytes := by
        intro hbytes
        have hok := Block.isOk_congr hbytes
        rw [h, hc] at hok
        cases hok
      simp [Tree.same, hbytes]
  | saved p => rcases tree_saved_cases p with hp | hp | ⟨d, hp⟩ <;> simp [hp, Tree.same, Source.same?]
  | _ => simp [Tree.same, Source.same?]

theorem same_of_closed {f : Fault} (h : b.load = .error f) :
    (block b).same w = true ↔ ∃ c, w = .block c ∧ b.bytes = c.bytes := by
  constructor
  · intro hsame
    rw [same, tree_block, h] at hsame
    cases w with
    | block c =>
      refine ⟨c, rfl, ?_⟩
      rw [tree_block] at hsame
      cases hc : c.load with
      | ok e => simp [hc, Tree.same] at hsame
      | error f' => by_contra hbytes; simp [hc, Tree.same, Source.same?, hbytes] at hsame
    | saved p =>
      rcases tree_saved_cases p with hp | hp | ⟨d, hp⟩ <;> simp [hp, Tree.same, Source.same?] at hsame
    | _ => simp [Tree.same] at hsame
  · rintro ⟨⟨place, bs⟩, rfl, hbytes⟩
    obtain ⟨place', bs'⟩ := b
    obtain rfl : bs' = bs := hbytes
    exact same_block place' place bs'

/-! ## Normal forms, case by case -/

theorem normal_eq_atom_iff {a : Atom} : v.normal = .atom a ↔ v = .atom a := by
  cases v with
  | block b =>
    cases hload : b.load with
    | ok d => simp [normal_of_load hload]
    | error f => simp [normal_of_closed hload]
  | _ => simp

theorem normal_eq_saved_iff {p : Payload} : v.normal = .saved p ↔ v = .saved p := by
  cases v with
  | block b =>
    cases hload : b.load with
    | ok d => simp [normal_of_load hload]
    | error f => simp [normal_of_closed hload]
  | _ => simp

theorem normal_eq_list_iff {done : List Value} :
    v.normal = .list done ↔ ∃ items, v = .list items ∧ done = items.map normal := by
  cases v with
  | list items => simp [eq_comm]
  | block b =>
    cases hload : b.load with
    | ok d => simp [normal_of_load hload]
    | error f => simp [normal_of_closed hload]
  | _ => simp

theorem normal_eq_block_iff {bs : Bytes} : v.normal = .block ⟨0, bs⟩ ↔
    ∃ b : Block, v = .block b ∧ b.bytes = bs ∧ b.load.toOption = none := by
  cases v with
  | block b =>
    cases hload : b.load with
    | ok d => simp [normal_of_load hload, hload, Except.toOption]
    | error f => simp [normal_of_closed hload, hload, Except.toOption]
  | _ => simp

theorem normal_of_dict? (h : v.dict? = some d) : v.normal = (dict d).normal := by
  cases v with
  | dict e => rw [Option.some.inj h]
  | block b => rw [normal_of_load (dict?_block_iff.mp h)]
  | _ => cases h

/-- Only a dictionary has the normal form of one. -/
theorem exists_dict_of_normal {e : Dict Value} (h : v.normal = .dict e) : ∃ d, v.dict? = some d := by
  cases v with
  | dict d => exact ⟨d, rfl⟩
  | block b =>
    cases hload : b.load with
    | ok d => exact ⟨d, dict?_block_iff.mpr hload⟩
    | error f =>
      rw [normal_of_closed hload] at h
      cases h
  | _ => simp at h

theorem Distinct.dict? (h : v.Distinct) (hd : v.dict? = some d) : (dict d).Distinct := by
  cases v with
  | dict e => rwa [← Option.some.inj hd]
  | block b => exact Block.distinct_of_load (dict?_block_iff.mp hd)
  | _ => cases hd

end Value

/-! ## The same just if of one normal form -/

/-- Dictionaries have one normal form just if their values do, under the same names. -/
theorem Dict.normal_eq_iff {d e : Dict Value} (hd : d.Distinct) (he : e.Distinct) :
    (Value.dict d).normal = (Value.dict e).normal ↔ d.Reordered (fun v w => v.normal = w.normal) e := by
  have hmap {d : Dict Value} (hd : d.Distinct) : (d.map Value.normal).Distinct := by
    rwa [Distinct, names_map]
  rw [Value.normal_dict, Value.normal_dict, Value.dict.injEq, Dict.mk.injEq, sorted_eq_iff (hmap hd) (hmap he),
    reordered_map_iff]

namespace Value
variable {v w : Value}

theorem same_iff_normal_eq (hv : v.Distinct) (hw : w.Distinct) : v.same w = true ↔ v.normal = w.normal := by
  induction v using induction_opened generalizing w with
  | atom a => rw [same_atom_iff, normal_atom, eq_comm (b := w.normal), normal_eq_atom_iff]
  | list items ih =>
    have hitems := ((each_list items).mp hv).2
    rw [same_list_iff, normal_list, eq_comm (b := w.normal), normal_eq_list_iff]
    refine exists_congr fun items' => and_congr_right fun hlist => ?_
    have hitems' := ((each_list items').mp (hlist ▸ hw)).2
    rw [← List.forall₂_eq_eq_eq, List.forall₂_map_left_iff, List.forall₂_map_right_iff]
    have hiff : ∀ v ∈ items, ∀ w ∈ items', v.same w = true ↔ v.normal = w.normal :=
      fun v hv w hw => ih v hv (hitems v hv) (hitems' w hw)
    constructor
    · exact fun h => (forall₂_and h (fun _ => id) fun _ => id).imp fun v w h => (hiff v h.2.1 w h.2.2).mp h.1
    · exact fun h => (forall₂_and h (fun _ => id) fun _ => id).imp fun v w h => (hiff v h.2.1 w h.2.2).mpr h.1
  | dict d ih =>
    obtain ⟨hd, hentries⟩ := (each_dict d).mp hv
    have hsame {e : Dict Value} (he : (dict e).Distinct) :
        d.sameAs e = true ↔ (dict d).normal = (dict e).normal := by
      obtain ⟨he, hentries'⟩ := (each_dict e).mp he
      rw [Dict.sameAs_iff hd he, Dict.normal_eq_iff hd he]
      have hiff {name : String} {v w : Value} (hv : d.get? name = some v) (hw : e.get? name = some w) :
          v.same w = true ↔ v.normal = w.normal :=
        ih _ (Dict.mem_of_get? hv) (hentries _ (Dict.mem_of_get? hv)) (hentries' _ (Dict.mem_of_get? hw))
      constructor
      · exact fun h => ⟨hd, he, h.names, fun name v w hv hw => (hiff hv hw).mp (h.entries name v w hv hw)⟩
      · exact fun h => ⟨hd, he, h.names, fun name v w hv hw => (hiff hv hw).mpr (h.entries name v w hv hw)⟩
    rw [same_dict_iff]
    constructor
    · rintro ⟨e, he, h⟩
      rw [normal_of_dict? he]
      exact (hsame (hw.dict? he)).mp h
    · intro h
      obtain ⟨e, he⟩ := exists_dict_of_normal (h.symm.trans (normal_dict d))
      rw [normal_of_dict? he] at h
      exact ⟨e, he, (hsame (hw.dict? he)).mpr h⟩
  | block b ih =>
    cases hload : b.load with
    | ok d =>
      rw [same_of_load hload, ih d hload (Block.distinct_of_load hload) hw, normal_of_load hload, or_iff_right_iff_imp]
      rintro ⟨c, rfl, hbytes⟩
      rw [← normal_of_load hload, normal_block_congr hbytes]
    | error f =>
      rw [same_of_closed hload, normal_of_closed hload]
      constructor
      · rintro ⟨c, rfl, hbytes⟩
        rw [← normal_of_closed hload, normal_block_congr hbytes]
      · intro h
        obtain ⟨c, hc, hbytes, -⟩ := normal_eq_block_iff.mp h.symm
        exact ⟨c, hc, hbytes.symm⟩
  | saved p => rw [same_saved_iff, normal_saved, eq_comm (b := w.normal), normal_eq_saved_iff]

/-- A value in which no dictionary has a name twice is the same as itself. -/
theorem same_self (hv : v.Distinct) : v.same v = true := (same_iff_normal_eq hv hv).mpr rfl

end Value

theorem Dict.sameAs_self {d : Dict Value} (h : (Value.dict d).Distinct) : d.sameAs d = true := Value.same_self h

namespace Value
variable {v w : Value}

/-! ## Opening slots -/

/-- One block in a value is opened in its place. -/
inductive SlotOpened : Value → Value → Prop
  | here {b : Block} {d : Dict Value} : b.load = .ok d → SlotOpened (.block b) (.dict d)
  | item {front back : List Value} {v w : Value} :
      SlotOpened v w → SlotOpened (.list (front ++ v :: back)) (.list (front ++ w :: back))
  | entry {front back : List (String × Value)} {name : String} {v w : Value} :
      SlotOpened v w → SlotOpened (.dict ⟨front ++ (name, v) :: back⟩) (.dict ⟨front ++ (name, w) :: back⟩)

namespace SlotOpened

theorem normal_eq (h : SlotOpened v w) : v.normal = w.normal := by
  induction h with
  | here hload => exact normal_of_load hload
  | item _ ih => simp [ih]
  | entry _ ih => simp [Dict.map, ih]

theorem distinct (h : SlotOpened v w) (hv : v.Distinct) : w.Distinct := by
  induction h with
  | here hload => exact Block.distinct_of_load hload
  | item _ ih =>
    obtain ⟨-, hitems⟩ := (each_list _).mp hv
    refine (each_list _).mpr ⟨trivial, ?_⟩
    simp only [List.forall_mem_append, List.forall_mem_cons] at hitems ⊢
    exact ⟨hitems.1, ih hitems.2.1, hitems.2.2⟩
  | entry _ ih =>
    obtain ⟨hnames, hentries⟩ := (each_dict _).mp hv
    refine (each_dict _).mpr ⟨?_, ?_⟩
    · simpa [Dict.Distinct, Dict.names] using hnames
    · simp only [List.forall_mem_append, List.forall_mem_cons] at hentries ⊢
      exact ⟨hentries.1, ih hentries.2.1, hentries.2.2⟩

theorem distinct_of_many (h : Relation.ReflTransGen SlotOpened v w) (hv : v.Distinct) : w.Distinct := by
  induction h with
  | refl => exact hv
  | tail _ hstep ih => exact hstep.distinct ih

theorem normal_eq_of_many (h : Relation.ReflTransGen SlotOpened v w) : v.normal = w.normal := by
  induction h with
  | refl => rfl
  | tail _ hstep ih => exact ih.trans hstep.normal_eq

end SlotOpened

/-- Sameness is an equivalence of the values in which no dictionary has a name twice, whichever of their dictionaries
are open. A value is the same as before once any of its blocks are opened, and a block is the same as one of the same
bytes at another place, whether it opens or not. -/
theorem equivalence_same :
    (Equivalence fun v w : {v : Value // v.Distinct} => v.1.same w.1 = true) ∧
    (∀ v w : Value, v.Distinct → Relation.ReflTransGen SlotOpened v w → v.same w = true) ∧
    ∀ (place place' : Nat) (bs : Bytes), (block ⟨place, bs⟩).same (.block ⟨place', bs⟩) = true := by
  refine ⟨⟨fun v => ?_, fun {v w} h => ?_, fun {v w u} h h' => ?_⟩, fun v w hv h => ?_, same_block⟩
  · exact same_self v.2
  · exact (same_iff_normal_eq w.2 v.2).mpr ((same_iff_normal_eq v.2 w.2).mp h).symm
  · have hvw := (same_iff_normal_eq v.2 w.2).mp h
    have hwu := (same_iff_normal_eq w.2 u.2).mp h'
    exact (same_iff_normal_eq v.2 u.2).mpr (hvw.trans hwu)
  · exact (same_iff_normal_eq hv (SlotOpened.distinct_of_many h hv)).mpr (SlotOpened.normal_eq_of_many h)

/-- A number that is none, and a block that does not open. -/
def numberAndClosed : Dict Value := ⟨[("x", .double ⟨0x7FF8000000000001⟩), ("y", .block ⟨0, [7]⟩)]⟩

/-- A block that opens beside one that does not. -/
def openAndClosed : Value := .list [.dict ⟨[("a", .block ⟨5, numberAndClosed.encode⟩), ("b", .block ⟨0, [7]⟩)]⟩]

/-- The same with the first block open. -/
def openedAndClosed : Value := .list [.dict ⟨[
  ("a", .dict ⟨[("x", .double ⟨0x7FF8000000000001⟩), ("y", .block ⟨41, [7]⟩)]⟩), ("b", .block ⟨0, [7]⟩)]⟩]

theorem equivalence_same_openAndClosed : openAndClosed.Distinct ∧ openedAndClosed.Distinct ∧
    Relation.ReflTransGen SlotOpened openAndClosed openedAndClosed ∧
    openAndClosed.same openedAndClosed = true ∧ openedAndClosed.same openAndClosed = true := by
  have hload : (⟨5, numberAndClosed.encode⟩ : Block).load =
      .ok ⟨[("x", .double ⟨0x7FF8000000000001⟩), ("y", .block ⟨41, [7]⟩)]⟩ := by cbv
  have hdistinct : openAndClosed.Distinct := by
    simp [Value.Distinct, openAndClosed, Dict.Distinct, Dict.names]
  have hopened : SlotOpened openAndClosed openedAndClosed :=
    @SlotOpened.item [] [] _ _ (@SlotOpened.entry [] _ _ _ _ (.here hload))
  have hmany : Relation.ReflTransGen SlotOpened openAndClosed openedAndClosed := .single hopened
  have hsame := equivalence_same.2.1 _ _ hdistinct hmany
  have hdistinct' := hopened.distinct hdistinct
  exact ⟨hdistinct, hdistinct', hmany, hsame,
    equivalence_same.1.symm (x := ⟨_, hdistinct⟩) (y := ⟨_, hdistinct'⟩) hsame⟩

end Value
end AssetPack
