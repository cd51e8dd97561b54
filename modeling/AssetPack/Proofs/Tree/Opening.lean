import AssetPack.Proofs.Codec.Given
import AssetPack.Proofs.Compression.Drawn

/-!
# Forms open to the full depth

A form that opens has more changes than any form in the dictionary it opens to: those in its
block stand behind the mark, and unpacking makes no changes. So the depth to which forms are opened
is never the reason that one stays closed, and the tree of a form is the tree of the dictionary
it opens to.
-/
namespace AssetPack

/-- The four bytes of the mark differ. -/
theorem changes_blockMagic (bs : Bytes) :
    bs.changes + 3 ≤ (Bytes.ofNat 4 blockMagic ++ bs).changes := by
  have hmagic : Bytes.ofNat 4 blockMagic = [0x52, 0x44, 0x43, 0x54] := by decide
  have hlast := Bytes.changes_le_cons 0x54 bs
  rw [hmagic]
  simp only [List.cons_append, List.nil_append, Bytes.changes_cons]
  rw [if_neg (by decide), if_neg (by decide), if_neg (by decide)]
  omega

theorem Bytes.changes_le_of_infix {as bs : Bytes} (h : as <:+: bs) : as.changes ≤ bs.changes := by
  obtain ⟨front, back, rfl⟩ := h
  have hdrawn := ((Bytes.Drawn.none front).append (.refl as)).append (.none back)
  rw [List.nil_append, List.append_nil] at hdrawn
  exact hdrawn.changes_le

/-- The form a value is, if it is one that is to be opened. -/
def Value.form? : Value → Option Source
  | .block b => some (.block b)
  | .saved p => if p.content = .dict then some (.payload p) else none
  | _ => none

theorem growItems_eq (openAt : Source → Tree) (items : List Value) :
    growItems openAt items = items.map (·.grow openAt) := by
  induction items with
  | nil => rfl
  | cons v vs ih => rw [growItems, ih, List.map_cons]

theorem Dict.grow_eq (openAt : Source → Tree) (d : Dict Value) :
    d.grow openAt = d.map (·.grow openAt) := by
  have h (entries : List (String × Value)) :
      growEntries openAt entries = entries.map fun entry => (entry.1, entry.2.grow openAt) := by
    induction entries with
    | nil => rfl
    | cons entry rest ih => rw [growEntries, ih, List.map_cons]
  obtain ⟨entries⟩ := d
  rw [Dict.grow, h]
  rfl

/-- Nothing but the forms in a value is opened. -/
theorem Value.grow_congr {openAt openAt' : Source → Tree} {v : Value}
    (h : v.Each fun u => ∀ s, u.form? = some s → openAt s = openAt' s) :
    v.grow openAt = v.grow openAt' := by
  induction v with
  | atom a => rfl
  | list items ih =>
    rw [each_list] at h
    rw [grow, grow, growItems_eq, growItems_eq]
    exact congrArg Tree.list (List.map_congr_left fun v hv => ih v hv (h.2 v hv))
  | dict d ih =>
    rw [each_dict] at h
    rw [grow, grow, Dict.grow_eq, Dict.grow_eq]
    rw [Dict.map_congr fun entry he => ih entry he (h.2 entry he)]
  | block b => exact h.here _ rfl
  | saved p =>
    rw [grow, grow]
    split
    · rename_i hp
      exact h.here _ (if_pos hp)
    · rfl

/-- The forms in the dictionary of a block are written with fewer changes than the block. -/
theorem Block.bound_lt_of_load {b : Block} {d : Dict Value} (hload : b.load = .ok d) : 0 < b.bytes.changes ∧
    ∀ entry ∈ d.entries, entry.2.Each fun u => ∀ t, u.form? = some t → t.bound < b.bytes.changes := by
  obtain ⟨_, more, hbytes, hforms⟩ := Block.forms_of_load hload
  have hmore := changes_blockMagic more
  rw [← hbytes] at hmore
  refine ⟨by omega, fun entry hentry => (hforms entry hentry).mono fun u hu t ht => ?_⟩
  cases u with
  | block c =>
    cases ht
    have := Bytes.changes_le_of_infix hu
    show c.bytes.changes < _
    omega
  | saved p =>
    simp only [Value.form?] at ht
    split at ht
    · cases ht
      have := Bytes.changes_le_of_infix hu
      show p.stored.changes < _
      omega
    · cases ht
  | _ => cases ht

namespace Source

/-- The forms in the dictionary that a form opens to have a lesser bound. -/
theorem bound_lt_of_load? {s : Source} {d : Dict Value} (hload : s.load? = some d) :
    0 < s.bound ∧ ∀ entry ∈ d.entries, entry.2.Each fun u => ∀ t, u.form? = some t → t.bound < s.bound := by
  cases s with
  | plain => cases hload
  | block b =>
    cases h : b.load with
    | ok e =>
      simp only [load?, h, Except.toOption, Option.some.injEq] at hload
      exact Block.bound_lt_of_load (hload ▸ h)
    | error f =>
      simp only [load?, h, Except.toOption] at hload
      cases hload
  | payload p =>
    cases h : p.unpack with
    | ok bs =>
      simp only [load?, Payload.loadDict, h] at hload
      cases hd : Dict.decode bs with
      | ok e =>
        simp only [hd, Except.toOption, Option.some.injEq] at hload
        obtain ⟨hpos, hforms⟩ := Block.bound_lt_of_load (hload ▸ hd)
        have hle := Payload.changes_unpack_le h
        refine ⟨Nat.lt_of_lt_of_le hpos hle, fun entry hentry => ?_⟩
        exact (hforms entry hentry).mono fun u hu t ht => Nat.lt_of_lt_of_le (hu t ht) hle
      | error f =>
        simp only [hd, Except.toOption] at hload
        cases hload
    | error f =>
      simp only [load?, Payload.loadDict, h, Except.toOption] at hload
      cases hload

/-- All depths from the bound on open a form alike. -/
theorem openTo_eq_openTo {s : Source} {depth depth' : Nat} (h : s.bound ≤ depth)
    (h' : s.bound ≤ depth') : s.openTo depth = s.openTo depth' := by
  induction depth generalizing s depth' with
  | zero =>
    cases depth' with
    | zero => rfl
    | succ depth' =>
      rw [openTo, openTo]
      split
      · rename_i d hload
        have := (bound_lt_of_load? hload).1
        omega
      · rfl
  | succ depth ih =>
    cases depth' with
    | zero =>
      rw [openTo, openTo]
      split
      · rename_i d hload
        have := (bound_lt_of_load? hload).1
        omega
      · rfl
    | succ depth' =>
      rw [openTo, openTo]
      split
      · rename_i d hload
        have hbound := (bound_lt_of_load? hload).2
        have hgrow : d.grow (openTo depth) = d.grow (openTo depth') := by
          rw [Dict.grow_eq, Dict.grow_eq]
          refine Dict.map_congr fun entry hentry => ?_
          refine Value.grow_congr ((hbound entry hentry).mono fun u hu t ht => ?_)
          have := hu t ht
          exact ih (by omega) (by omega)
        rw [hgrow]
      · rfl

/-- A form opens to the tree of its dictionary. -/
theorem opened_eq (s : Source) :
    s.opened = match s.load? with
      | some d => .dict s d.tree
      | none => .broken s := by
  have hdeep : s.opened = s.openTo (s.bound + 1) := openTo_eq_openTo (Nat.le_refl _) (Nat.le_succ _)
  rw [hdeep, openTo]
  cases hload : s.load? with
  | none => rfl
  | some d =>
    have hbound := (bound_lt_of_load? hload).2
    have hgrow : d.grow (openTo s.bound) = d.tree := by
      rw [Dict.tree, Dict.grow_eq, Dict.grow_eq]
      refine Dict.map_congr fun entry hentry => ?_
      refine Value.grow_congr ((hbound entry hentry).mono fun u hu t ht => ?_)
      exact openTo_eq_openTo (Nat.le_of_lt (hu t ht)) (Nat.le_refl _)
    simp only [hgrow]

end Source

theorem Dict.tree_eq (d : Dict Value) : d.tree = d.map Value.tree := Dict.grow_eq _ d

namespace Value

@[simp] theorem tree_atom (a : Atom) : (atom a).tree = .atom a := rfl

@[simp] theorem tree_list (items : List Value) : (list items).tree = .list (items.map tree) := by
  rw [tree, grow, growItems_eq]
  rfl

@[simp] theorem tree_dict (d : Dict Value) : (dict d).tree = .dict .plain d.tree := rfl

theorem tree_block (b : Block) : (block b).tree = match b.load with
    | .ok d => .dict (.block b) d.tree
    | .error _ => .broken (.block b) := by
  have h : (block b).tree = (Source.block b).opened := rfl
  rw [h, Source.opened_eq]
  cases hb : b.load <;> simp only [Source.load?, hb, Except.toOption]

theorem tree_saved (p : Payload) : (saved p).tree =
    if p.content = .dict then
      match p.loadDict with
      | .ok d => .dict (.payload p) d.tree
      | .error _ => .broken (.payload p)
    else .blob p := by
  have h : (saved p).tree = if p.content = .dict then (Source.payload p).opened else .blob p := rfl
  rw [h, Source.opened_eq]
  cases hp : p.loadDict <;> simp only [Source.load?, hp, Except.toOption]

end Value
end AssetPack
