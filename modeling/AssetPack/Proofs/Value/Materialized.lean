import Mathlib
import AssetPack.Pack.File
import AssetPack.Proofs.Dict.Reordered
import AssetPack.Proofs.Value.Sameness
import AssetPack.Proofs.Value.Vocabulary

/-!
# Opening in place, case by case

A list is opened in place if its items are, and a dictionary if its entries are, one by one. The first block that does
not open ends it. Whatever was opened by then, the dictionary is the same as before.
-/
namespace AssetPack

theorem materializeItems_eq_ok_iff {items done : List Value} : materializeItems items = .ok done ↔
    List.Forall₂ (fun v w => v.materialize = .ok w) items done := by
  induction items generalizing done with
  | nil => simp [materializeItems, eq_comm]
  | cons v vs ih =>
    rw [materializeItems, List.forall₂_cons_left_iff]
    cases hv : v.materialize with
    | error f => simp
    | ok w =>
      simp only [Except.ok.injEq, exists_and_left, exists_eq_left', ← ih]
      cases materializeItems vs with
      | error f => simp
      | ok ws => simp [eq_comm]

theorem Value.materialize_list_iff {items : List Value} {w : Value} : (list items).materialize = .ok w ↔
    ∃ done, List.Forall₂ (fun v w => v.materialize = .ok w) items done ∧ w = .list done := by
  simp only [← materializeItems_eq_ok_iff]
  rw [Value.materialize]
  cases materializeItems items with
  | error f => simp
  | ok done => simp [eq_comm]

theorem Value.materialize_block_iff {b : Block} {w : Value} : (block b).materialize = .ok w ↔
    ∃ d, b.load = .ok d ∧ w = .dict d := by
  rw [Value.materialize]
  cases b.load with
  | error f => simp
  | ok d => simp [eq_comm]

/-- Induction over a value with what it is opened to in its place. -/
theorem Value.induction_materialize {motive : Value → Value → Prop}
    (atom : ∀ a, motive (.atom a) (.atom a))
    (list : ∀ items done, List.Forall₂ motive items done → motive (.list items) (.list done))
    (dict : ∀ d, motive (.dict d) (.dict d))
    (block : ∀ b d, b.load = .ok d → motive (.block b) (.dict d))
    (saved : ∀ p, motive (.saved p) (.saved p))
    {v w : Value} (h : v.materialize = .ok w) : motive v w := by
  induction v generalizing w with
  | atom a =>
    cases h
    exact atom a
  | list items ih =>
    obtain ⟨done, hdone, rfl⟩ := materialize_list_iff.mp h
    have hitems := forall₂_and (Q := fun _ => True) hdone ih fun _ _ => trivial
    exact list items done (hitems.imp fun v w ⟨hw, hv, _⟩ => hv hw)
  | dict d =>
    cases h
    exact dict d
  | block b =>
    obtain ⟨d, hload, rfl⟩ := materialize_block_iff.mp h
    exact block b d hload
  | saved p =>
    cases h
    exact saved p

theorem materializeEntries_eq_iff {entries done : List (String × Value)} :
    materializeEntries entries = (none, done) ↔
      List.Forall₂ (fun a b => a.1 = b.1 ∧ a.2.materialize = .ok b.2) entries done := by
  induction entries generalizing done with
  | nil => simp [materializeEntries, eq_comm]
  | cons entry rest ih =>
    rw [materializeEntries, List.forall₂_cons_left_iff]
    cases hv : entry.2.materialize with
    | error f => simp
    | ok w =>
      dsimp only
      constructor
      · intro h
        obtain ⟨hfault, rfl⟩ := Prod.mk.inj h
        exact ⟨(entry.1, w), _, ⟨rfl, rfl⟩, ih.mp (Prod.ext hfault rfl), rfl⟩
      · rintro ⟨⟨name, u⟩, us, ⟨rfl, hu⟩, hrest, rfl⟩
        cases hu
        rw [ih.mpr hrest]

/-- A pack is opened if all its entries are opened in their places. -/
theorem Pack.opened_eq_ok_iff {d e : Dict Value} :
    Pack.opened d = .ok e ↔ d.Related (fun v w => v.materialize = .ok w) e := by
  rw [Dict.Related, ← materializeEntries_eq_iff, Pack.opened, Dict.loadChildren]
  obtain ⟨done⟩ := e
  cases h : materializeEntries d.entries with
  | mk fault entries =>
    cases fault <;> simp

/-! ## What stands outside all dictionaries -/

mutual

/-- The values that lists hold at any depth, or the value itself if it is no list. -/
def Value.surface : Value → List Value
  | .list items => surfaceItems items
  | v => [v]
termination_by structural v => v

def surfaceItems : List Value → List Value
  | [] => []
  | v :: vs => v.surface ++ surfaceItems vs
termination_by structural vs => vs

end

namespace Value
variable {v w : Value}

@[simp] theorem surface_list (items : List Value) : (list items).surface = items.flatMap surface := by
  rw [surface]
  induction items with
  | nil => rfl
  | cons v vs ih => rw [surfaceItems, ih, List.flatMap_cons]

/-- The second value is the first with all blocks opened that stand in no dictionary of it. -/
inductive Unfolded : Value → Value → Prop
  | atom (a : Atom) : Unfolded (.atom a) (.atom a)
  | list {items done : List Value} : List.Forall₂ Unfolded items done → Unfolded (.list items) (.list done)
  | dict (d : Dict Value) : Unfolded (.dict d) (.dict d)
  | block {b : Block} {d : Dict Value} : b.load = .ok d → Unfolded (.block b) (.dict d)
  | saved (p : Payload) : Unfolded (.saved p) (.saved p)

/-- The first block on the surface that does not open does so with this fault. -/
def FirstFault (v : Value) (f : Fault) : Prop :=
  ∃ before b after, v.surface = before ++ .block b :: after ∧
    (∀ c, .block c ∈ before → ∃ d, c.load = .ok d) ∧ b.load = .error f

theorem unfolded_of_materialize (h : v.materialize = .ok w) : v.Unfolded w :=
  induction_materialize .atom (fun _ _ => .list) .dict (fun _ _ => .block) .saved h

theorem normal_materialize (h : v.materialize = .ok w) : w.normal = v.normal := by
  refine induction_materialize (motive := fun v w => w.normal = v.normal) (fun _ => rfl) ?_ (fun _ => rfl) ?_
    (fun _ => rfl) h
  · intro items done hdone
    have hitems : done.map normal = items.map normal := by
      rw [← List.forall₂_eq_eq_eq, List.forall₂_map_left_iff, List.forall₂_map_right_iff]
      exact hdone.flip
    rw [normal_list, normal_list, hitems]
  · exact fun b d hload => (normal_of_load hload).symm

theorem distinct_materialize (h : v.materialize = .ok w) (hv : v.Distinct) : w.Distinct := by
  refine induction_materialize (motive := fun v w => v.Distinct → w.Distinct) (fun _ => id) ?_ (fun _ => id) ?_
    (fun _ => id) h hv
  · intro items done hdone hitems
    refine (each_list done).mpr ⟨trivial, fun w hw => ?_⟩
    obtain ⟨v, hv, hvw⟩ := exists_of_forall₂ hdone hw
    exact hvw (((each_list items).mp hitems).2 v hv)
  · exact fun b d hload _ => Block.distinct_of_load hload

/-- No block is left on the surface. -/
theorem surface_materialize (h : v.materialize = .ok w) : ∀ b, .block b ∉ w.surface := by
  refine induction_materialize (motive := fun _ w => ∀ b, .block b ∉ w.surface) ?_ ?_ ?_ ?_ ?_ h
  · simp [surface]
  · intro items done hdone b
    simp only [surface_list, List.mem_flatMap, not_exists, not_and]
    intro w hw
    obtain ⟨v, hv, hvw⟩ := exists_of_forall₂ hdone hw
    exact hvw b
  · simp [surface]
  · simp [surface]
  · simp [surface]

/-- All blocks on the surface open. -/
theorem exists_load_of_materialize (h : v.materialize = .ok w) : ∀ b, .block b ∈ v.surface → ∃ d, b.load = .ok d := by
  refine induction_materialize (motive := fun v _ => ∀ b, .block b ∈ v.surface → ∃ d, b.load = .ok d) ?_ ?_ ?_ ?_ ?_ h
  · simp [surface]
  · intro items done hdone b hb
    rw [surface_list, List.mem_flatMap] at hb
    obtain ⟨v, hv, hb⟩ := hb
    obtain ⟨w, -, hvw⟩ := exists_of_forall₂ hdone.flip hv
    exact hvw b hb
  · simp [surface]
  · intro b d hload c hc
    simp only [surface, List.mem_singleton, block.injEq] at hc
    exact ⟨d, hc ▸ hload⟩
  · simp [surface]

end Value

theorem exists_of_materializeItems {items : List Value} {f : Fault} (h : materializeItems items = .error f) :
    ∃ front v back, items = front ++ v :: back ∧ (∀ u ∈ front, ∃ w, u.materialize = .ok w) ∧
      v.materialize = .error f := by
  induction items with
  | nil => cases h
  | cons v rest ih =>
    rw [materializeItems] at h
    cases hv : v.materialize with
    | error f' =>
      rw [hv] at h
      cases h
      exact ⟨[], v, rest, rfl, by simp, hv⟩
    | ok w =>
      rw [hv] at h
      cases hrest : materializeItems rest with
      | ok ws => simp [hrest] at h
      | error f' =>
        simp only [hrest, Except.error.injEq] at h
        obtain ⟨front, u, back, rfl, hfront, hu⟩ := ih (h ▸ hrest)
        exact ⟨v :: front, u, back, rfl, List.forall_mem_cons.mpr ⟨⟨w, hv⟩, hfront⟩, hu⟩

theorem Value.firstFault_of_materialize {v : Value} {f : Fault} (h : v.materialize = .error f) : v.FirstFault f := by
  induction v with
  | list items ih =>
    rw [materialize] at h
    cases hitems : materializeItems items with
    | ok done => simp [hitems] at h
    | error f' =>
      simp only [hitems, Except.error.injEq] at h
      obtain ⟨front, v, back, rfl, hfront, hv⟩ := exists_of_materializeItems (h ▸ hitems)
      obtain ⟨before, b, after, hsurface, hbefore, hload⟩ := ih v (by simp) hv
      refine ⟨front.flatMap surface ++ before, b, after ++ back.flatMap surface, ?_, fun c hc => ?_, hload⟩
      · rw [surface_list, List.flatMap_append, List.flatMap_cons, hsurface]
        simp
      · rcases List.mem_append.mp hc with hc | hc
        · obtain ⟨u, hu, hc⟩ := List.mem_flatMap.mp hc
          obtain ⟨w, hw⟩ := hfront u hu
          exact exists_load_of_materialize hw c hc
        · exact hbefore c hc
  | block b =>
    rw [materialize] at h
    cases hload : b.load with
    | ok d => simp [hload] at h
    | error f' =>
      simp only [hload, Except.error.injEq] at h
      exact ⟨[], b, [], rfl, by simp, h ▸ hload⟩
  | _ => cases h

/-- What stands in a block is not open when the block is opened. -/
theorem Block.closed_of_load {b : Block} {d : Dict Value} (h : b.load = .ok d) :
    ∀ entry ∈ d.entries, entry.2.Each fun u => ∀ e, u ≠ .dict e := by
  obtain ⟨-, more, -, hforms⟩ := forms_of_load h
  refine fun entry hentry => (hforms entry hentry).mono fun u hu e he => ?_
  rw [he] at hu
  exact hu

/-! ## Loading the dictionaries of entries -/

namespace Dict
variable {d e : Dict Value}

/-- The second dictionary is the first with the blocks opened that stand in no dictionary of its entries. It has the
same names in the same order and the same values, and what is in the opened blocks is still closed. -/
structure Unfolded (d e : Dict Value) : Prop where
  entries : d.Related Value.Unfolded e
  same : d.Related (fun v w => w.same v = true) e
  loaded : ∀ entry ∈ e.entries, ∀ b, .block b ∉ entry.2.surface
  closed : ∀ entry ∈ d.entries, ∀ b, .block b ∈ entry.2.surface →
    ∃ c, b.load = .ok c ∧ ∀ inner ∈ c.entries, inner.2.Each fun u => ∀ x, u ≠ .dict x

theorem unfolded_of_materialize (hd : ∀ entry ∈ d.entries, entry.2.Distinct)
    (h : d.Related (fun v w => v.materialize = .ok w) e) : d.Unfolded e where
  entries := h.mono fun _ _ => Value.unfolded_of_materialize
  same := by
    have hdistinct := forall₂_and h (fun entry hentry => hd entry hentry) fun _ _ => trivial
    refine hdistinct.imp fun entry entry' ⟨⟨hname, hw⟩, hv, _⟩ => ⟨hname, ?_⟩
    exact (Value.same_iff_normal_eq (Value.distinct_materialize hw hv) hv).mpr (Value.normal_materialize hw)
  loaded entry' hentry' := by
    obtain ⟨entry, -, -, hw⟩ := exists_of_forall₂ h hentry'
    exact Value.surface_materialize hw
  closed entry hentry b hb := by
    obtain ⟨entry', -, -, hw⟩ := exists_of_forall₂ (List.Forall₂.flip h) hentry
    obtain ⟨c, hload⟩ := Value.exists_load_of_materialize hw b hb
    exact ⟨c, hload, Block.closed_of_load hload⟩

/-- Dictionaries whose values have the same normal forms in the same order are the same. -/
theorem sameAs_of_related (hd : (Value.dict d).Distinct)
    (h : d.Related (fun v w => w.normal = v.normal ∧ (v.Distinct → w.Distinct)) e) : e.sameAs d = true := by
  obtain ⟨hnames, hentries⟩ := (Value.each_dict d).mp hd
  have he : (Value.dict e).Distinct := by
    refine (Value.each_dict e).mpr ⟨?_, fun entry' hentry' => ?_⟩
    · change e.names.Nodup
      exact h.names ▸ hnames
    · obtain ⟨entry, hentry, -, -, hdistinct⟩ := exists_of_forall₂ h hentry'
      exact hdistinct (hentries entry hentry)
  have hmap : e.map Value.normal = d.map Value.normal := by
    rw [map, map, mk.injEq, ← List.forall₂_eq_eq_eq, List.forall₂_map_left_iff, List.forall₂_map_right_iff]
    exact (List.Forall₂.flip h).imp fun _ _ hentry => Prod.ext hentry.1.symm hentry.2.1
  have hsame : (Value.dict e).same (.dict d) = true := by
    rw [Value.same_iff_normal_eq he hd, Value.normal_dict, Value.normal_dict, hmap]
  exact hsame

end Dict

/-- The entries before the first that does not open are opened, that one and all behind it are as they were. -/
theorem exists_of_materializeEntries {entries done : List (String × Value)} {f : Fault}
    (h : materializeEntries entries = (some f, done)) :
    ∃ front opened name v back, entries = front ++ (name, v) :: back ∧ done = opened ++ (name, v) :: back ∧
      List.Forall₂ (fun a b => a.1 = b.1 ∧ a.2.materialize = .ok b.2) front opened ∧ v.materialize = .error f := by
  induction entries generalizing done with
  | nil => cases h
  | cons entry rest ih =>
    obtain ⟨name, v⟩ := entry
    rw [materializeEntries] at h
    cases hv : v.materialize with
    | error f' =>
      rw [hv] at h
      cases h
      exact ⟨[], [], name, v, rest, rfl, rfl, .nil, hv⟩
    | ok w =>
      rw [hv] at h
      obtain ⟨hfault, rfl⟩ := Prod.mk.inj h
      obtain ⟨front, opened, name', v', back, rfl, hdone, hfront, hv'⟩ := ih (Prod.ext hfault rfl)
      exact ⟨(name, v) :: front, (name, w) :: opened, name', v', back, rfl, congrArg ((name, w) :: ·) hdone,
        .cons ⟨rfl, hv⟩ hfront, hv'⟩

namespace Dict
variable {d e : Dict Value}

/-- Loading the dictionaries of the entries changes only their form. If it goes through, the blocks that stand in no
dictionary are open and nothing else has changed. Else it ends with the fault of the first block that does not open, in
the first entry with such a block; the entries before that one are opened, and it and all behind it are as they were.
In either case the dictionary is the same as before. -/
theorem loadChildren_unfolds (hd : (Value.dict d).Distinct) :
    match d.loadChildren with
    | (none, e) => d.Unfolded e ∧ e.names = d.names ∧ e.sameAs d = true
    | (some f, e) => e.names = d.names ∧ e.sameAs d = true ∧ ∃ front opened name v back,
        d.entries = front ++ (name, v) :: back ∧ e.entries = opened ++ (name, v) :: back ∧
        Unfolded ⟨front⟩ ⟨opened⟩ ∧ v.FirstFault f := by
  have hentries := ((Value.each_dict d).mp hd).2
  have hopened {v w : Value} (h : v.materialize = .ok w) : w.normal = v.normal ∧ (v.Distinct → w.Distinct) :=
    ⟨Value.normal_materialize h, Value.distinct_materialize h⟩
  rw [loadChildren]
  cases hload : materializeEntries d.entries with
  | mk fault done =>
    cases fault with
    | none =>
      have hrelated : d.Related (fun v w => v.materialize = .ok w) ⟨done⟩ := materializeEntries_eq_iff.mp hload
      exact ⟨unfolded_of_materialize hentries hrelated, hrelated.names.symm,
        sameAs_of_related hd (hrelated.mono fun _ _ => hopened)⟩
    | some f =>
      obtain ⟨front, opened, name, v, back, hfront, rfl, hrelated, hv⟩ := exists_of_materializeEntries hload
      have hkept : d.Related (fun v w => w.normal = v.normal ∧ (v.Distinct → w.Distinct))
          ⟨opened ++ (name, v) :: back⟩ := by
        rw [Related, hfront]
        refine List.rel_append (hrelated.imp fun a b h => ⟨h.1, hopened h.2⟩) ?_
        exact List.forall₂_same.mpr fun entry _ => ⟨rfl, rfl, id⟩
      refine ⟨hkept.names.symm, sameAs_of_related hd hkept, front, opened, name, v, back, hfront, rfl, ?_,
        Value.firstFault_of_materialize hv⟩
      refine unfolded_of_materialize (fun entry hentry => hentries entry ?_) hrelated
      rw [hfront]
      exact List.mem_append_left _ hentry

/-- A dictionary with an empty one in it, as a block. -/
def nestedBlock : Block := ⟨0, (⟨[("x", .dict ∅)]⟩ : Dict Value).encode⟩

/-- The second entry has a block that does not open behind one that does. -/
def closedInList : Dict Value :=
  ⟨[("a", .list [.list [.block nestedBlock]]), ("b", .list [.block nestedBlock, .block ⟨3, [7]⟩]),
    ("c", .block nestedBlock)]⟩

theorem loadChildren_unfolds_closedInList : (Value.dict closedInList).Distinct ∧
    ∃ e f, closedInList.loadChildren = (some f, e) ∧ e.names = ["a", "b", "c"] ∧ e.sameAs closedInList = true ∧
      ∃ front opened name v back, closedInList.entries = front ++ (name, v) :: back ∧
        e.entries = opened ++ (name, v) :: back ∧ Unfolded ⟨front⟩ ⟨opened⟩ ∧ v.FirstFault f := by
  have hdistinct : (Value.dict closedInList).Distinct := by
    simp [Value.Distinct, closedInList, Distinct, names]
  have hload : closedInList.loadChildren = (some (.unexpectedEnd 3 4 1),
      ⟨[("a", .list [.list [.dict ⟨[("x", .block ⟨22, (∅ : Dict Value).encode⟩)]⟩]]),
        ("b", .list [.block nestedBlock, .block ⟨3, [7]⟩]), ("c", .block nestedBlock)]⟩) := by cbv
  have h := loadChildren_unfolds hdistinct
  rw [hload] at h
  exact ⟨hdistinct, _, _, hload, h⟩

end Dict
end AssetPack
