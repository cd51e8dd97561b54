import AssetPack.Proofs.Codec.Ranges
import AssetPack.Proofs.Resource.Stored
import AssetPack.Proofs.Value.Materialized

/-!
# Packs that are opened, written and opened again

What is opened in place is the same as before, can be written as far as its counts and lengths fit, and is read back
and opened to its twin.
-/
namespace AssetPack

/-! ## Lists in what was read -/

mutual

/-- The bytes of a value tell how many lists may stand around what is in it. -/
theorem Spells.lists_lt {levels : Nat} {v : Value} {truths : List UInt8} {bs : Bytes} :
    Spells levels v truths bs → v.lists < levels
  | .truth _ => Nat.succ_pos _
  | .atom _ _ => Nat.succ_pos _
  | .list _ hitems => Nat.lt_succ_of_le hitems.listsAround_le
  | .block _ => Nat.succ_pos _
  | .saved _ => Nat.succ_pos _

theorem SpellsItems.listsAround_le {levels : Nat} {vs : List Value} {truths : List UInt8} {bs : Bytes} :
    SpellsItems levels vs truths bs → listsAround vs ≤ levels
  | .nil => Nat.zero_le _
  | .cons hv hvs => Nat.max_le.mpr ⟨hv.lists_lt, hvs.listsAround_le⟩

end

theorem Value.lists_stored (v : Value) (place : Nat) : (v.stored place).lists = v.lists := by
  induction v generalizing place with
  | list items ih =>
    have hitems (place : Nat) : listsAround (storedItems place items) = listsAround items := by
      induction items generalizing place with
      | nil => rfl
      | cons v vs ihs =>
        obtain ⟨hv, hvs⟩ := List.forall_mem_cons.mp ih
        rw [storedItems, listsAround, listsAround, hv, ihs hvs]
    exact hitems _
  | _ => rfl

namespace Block
variable {b : Block} {d : Dict Value}

theorem lists_le_of_load (h : b.load = .ok d) : ∀ entry ∈ d.entries, entry.2.lists ≤ deepest := by
  obtain ⟨entries, truths, cs, hentries, -, rfl⟩ := spelled_of_load h
  intro entry hentry
  have hplaced : ∀ (place : Nat) (es : List (String × Value)), (∀ e ∈ es, e.2.lists ≤ deepest) →
      ∀ e ∈ Reader.placed encodeEntry storedEntry place es, e.2.lists ≤ deepest := by
    intro place es hes
    induction es generalizing place with
    | nil => exact nofun
    | cons e es ih =>
      obtain ⟨he, hes⟩ := List.forall_mem_cons.mp hes
      refine List.forall_mem_cons.mpr ⟨?_, ih _ hes⟩
      rwa [storedEntry, Value.lists_stored]
  refine hplaced _ entries (fun e he => ?_) entry (Dict.mem_ofList hentry)
  obtain ⟨-, _, _, hv⟩ := hentries.mem he
  exact Nat.le_of_lt_succ hv.lists_lt

/-- In what was read no other dictionary is open. -/
theorem shallow_of_load (h : b.load = .ok d) : (Value.dict d).Shallow := by
  obtain ⟨-, _, -, hforms⟩ := forms_of_load h
  refine (Value.each_dict d).mpr ⟨lists_le_of_load h, fun entry hentry => (hforms entry hentry).mono fun u hu => ?_⟩
  cases u with
  | dict e => exact hu.elim
  | _ => trivial

end Block

/-! ## What is opened in place -/

namespace Value
variable {v w : Value}

theorem lists_materialize (h : v.materialize = .ok w) : w.lists = v.lists := by
  refine induction_materialize (motive := fun v w => w.lists = v.lists) ?_ ?_ ?_ ?_ ?_ h
  · exact fun _ => rfl
  · intro items done hitems
    rw [lists, lists]
    induction hitems with
    | nil => rfl
    | cons hv _ ih => rw [listsAround, listsAround, hv, ih]
  · exact fun _ => rfl
  · exact fun _ _ _ => rfl
  · exact fun _ => rfl

/-- A property of all parts is kept if it says nothing of lists and blocks and what a block opens to has it. -/
theorem each_materialize {P : Value → Prop} (hlist : ∀ items, P (.list items))
    (hload : ∀ b d, Block.load b = .ok d → (dict d).Each P) (h : v.materialize = .ok w) (hv : v.Each P) : w.Each P := by
  refine induction_materialize (motive := fun v w => v.Each P → w.Each P) ?_ ?_ ?_ ?_ ?_ h hv
  · exact fun _ => id
  · intro items done hitems hv
    refine (each_list done).mpr ⟨hlist done, fun u hu => ?_⟩
    obtain ⟨u', hu', hstep⟩ := exists_of_forall₂ hitems hu
    exact hstep (((each_list items).mp hv).2 u' hu')
  · exact fun _ => id
  · exact fun b d hb _ => hload b d hb
  · exact fun _ => id

/-- Opened in its place, a value is the same. -/
theorem same_materialize (h : v.materialize = .ok w) (hv : v.Distinct) : w.same v = true := by
  refine induction_materialize (motive := fun v w => v.Distinct → w.same v = true) ?_ ?_ ?_ ?_ ?_ h hv
  · exact fun _ => same_self
  · intro items done hitems hv
    rw [same, tree_list, tree_list, Tree.same, sameItems_iff, List.forall₂_map_left_iff, List.forall₂_map_right_iff]
    have hall := forall₂_and (Q := fun _ => True) hitems (distinct_list.mp hv) fun _ _ => trivial
    exact hall.flip.imp fun _ _ h => h.1 h.2.1
  · exact fun _ => same_self
  · intro b d hload _
    rw [same, tree_dict, tree_block, hload, Tree.same]
    exact Dict.sameAs_self (Block.distinct_of_load hload)
  · exact fun _ => same_self

/-- Opened in its place a second time, a value stays as it is. -/
theorem materialize_materialize (h : v.materialize = .ok w) : w.materialize = .ok w := by
  refine induction_materialize (motive := fun _ w => w.materialize = .ok w) ?_ ?_ ?_ ?_ ?_ h
  · exact fun _ => rfl
  · intro items done hitems
    refine materialize_list_iff.mpr ⟨done, List.forall₂_same.mpr fun u hu => ?_, rfl⟩
    obtain ⟨_, _, hstep⟩ := exists_of_forall₂ hitems hu
    exact hstep
  · exact fun _ => rfl
  · exact fun _ _ _ => rfl
  · exact fun _ => rfl

/-- What is open and readable is opened to its twin once it was written. -/
theorem exists_materialize_stored (hopen : v.materialize = .ok v) (hread : v.Readable) (place : Nat) :
    ∃ w, (v.stored place).materialize = .ok w ∧ w.Twins v := by
  induction v generalizing place with
  | atom a => exact ⟨_, rfl, .refl hread⟩
  | list items ih =>
    obtain ⟨_, hitems, ⟨⟩⟩ := materialize_list_iff.mp hopen
    have hinside := ((each_list items).mp hread).2
    have hdone (place : Nat) : ∃ done, List.Forall₂ (fun v w => v.materialize = .ok w) (storedItems place items) done ∧
        List.Forall₂ Twins done items := by
      clear hopen hread
      induction items generalizing place with
      | nil => exact ⟨[], .nil, .nil⟩
      | cons v vs ihs =>
        obtain ⟨hv, hvs⟩ := List.forall_mem_cons.mp (List.forall₂_same.mp hitems)
        obtain ⟨hreadv, hreadvs⟩ := List.forall_mem_cons.mp hinside
        obtain ⟨w, hw, htwins⟩ := ih v List.mem_cons_self hv hreadv place
        obtain ⟨ws, hws, hall⟩ := ihs (fun u hu => ih u (List.mem_cons_of_mem v hu)) (List.forall₂_same.mpr hvs) hreadvs
          (place + v.encode.length)
        exact ⟨w :: ws, .cons hw hws, .cons htwins hall⟩
    obtain ⟨done, hstored, htwins⟩ := hdone (place + 5)
    refine ⟨.list done, materialize_list_iff.mpr ⟨done, hstored, rfl⟩, ?_, ?_, hread⟩
    · rw [Alike, stored, stored, alike_storedItems.mpr (htwins.imp fun _ _ h => h.alike)]
    · refine (each_list done).mpr ⟨trivial, fun w hw => ?_⟩
      obtain ⟨v, -, h⟩ := exists_of_forall₂ htwins.flip hw
      exact h.left
  | dict d =>
    have hback : Dict.decode d.encode = .ok (d.stored 0) := hread.here
    have hload := Block.load_eq ⟨place + 9, d.encode⟩
    rw [hback] at hload
    refine ⟨.dict ((d.stored 0).moved (place + 9)), materialize_block_iff.mpr ⟨_, hload, rfl⟩, ?_, ?_, hread⟩
    · rw [Alike, stored, stored, Dict.encode_moved, Dict.encode_stored]
    · exact Block.readable_of_load hload
  | block b =>
    obtain ⟨d, -, ⟨⟩⟩ := materialize_block_iff.mp hopen
  | saved p => exact ⟨_, rfl, .refl hread⟩

/-- A value as it may stand in a pack that was read, perhaps opened in its place. -/
structure Keepable (v : Value) : Prop where
  distinct : v.Distinct
  shallow : v.Shallow
  lists : v.lists ≤ deepest

theorem Keepable.materialize (hv : v.Keepable) (h : v.materialize = .ok w) : w.Keepable where
  distinct := each_materialize (fun _ => trivial) (fun _ _ hload => Block.distinct_of_load hload) h hv.distinct
  shallow := each_materialize (fun _ => trivial) (fun _ _ hload => Block.shallow_of_load hload) h hv.shallow
  lists := (lists_materialize h).trans_le hv.lists

end Value

namespace Dict
variable {d e : Dict Value}

/-- Nothing in the dictionary hinders that it is written, but for counts and lengths. -/
structure Keepable (d : Dict Value) : Prop where
  distinct : d.Distinct
  entries : ∀ entry ∈ d.entries, entry.2.Keepable

namespace Keepable

theorem of_load {b : Block} (h : b.load = .ok d) : d.Keepable := by
  obtain ⟨hdistinct, hentries⟩ := Value.distinct_dict.mp (Block.distinct_of_load h)
  have hshallow := (Value.each_dict d).mp (Block.shallow_of_load h)
  exact ⟨hdistinct, fun entry hentry =>
    ⟨hentries entry hentry, hshallow.2 entry hentry, Block.lists_le_of_load h entry hentry⟩⟩

theorem opened (hd : d.Keepable) (h : Pack.opened d = .ok e) : e.Keepable := by
  have hrelated := Pack.opened_eq_ok_iff.mp h
  refine ⟨?_, fun entry hentry => ?_⟩
  · rw [Distinct, ← hrelated.names]
    exact hd.distinct
  · obtain ⟨entry', hentry', -, hstep⟩ := exists_of_forall₂ hrelated hentry
    exact (hd.entries entry' hentry').materialize hstep

theorem empty : (∅ : Dict Value).Keepable := ⟨List.nodup_nil, nofun⟩

theorem merge (hd : d.Keepable) (he : e.Keepable) : (d.merge e).Keepable :=
  ⟨distinct_merge hd.distinct e, fun entry hentry => (mem_setAll hentry).elim (hd.entries entry) (he.entries entry)⟩

theorem set (hd : d.Keepable) {v : Value} (hv : v.Keepable) (name : String) : (d.set name v).Keepable := by
  refine ⟨distinct_set hd.distinct name v, fun entry hentry => ?_⟩
  rcases mem_set hentry with rfl | hentry
  · exact hv
  · exact hd.entries entry hentry

/-- As a value it may stand in a pack itself. -/
theorem dict (hd : d.Keepable) : (Value.dict d).Keepable where
  distinct := Value.distinct_dict.mpr ⟨hd.distinct, fun entry hentry => (hd.entries entry hentry).distinct⟩
  shallow := (Value.each_dict d).mpr
    ⟨fun entry hentry => (hd.entries entry hentry).lists, fun entry hentry => (hd.entries entry hentry).shallow⟩
  lists := Nat.zero_le _

/-- It is read back if its counts and lengths can be written. -/
theorem readable (hd : d.Keepable) (hfits : (Value.dict d).Fits) (hlen : d.encode.length < lengthLimit) :
    (Value.dict d).Readable := readable_of_shallow hfits hlen hd.dict.distinct hd.dict.shallow

end Keepable

/-- An open dictionary that is written and read back opens to its twin. -/
theorem exists_opened_stored (hopen : Pack.opened d = .ok d) (hread : (Value.dict d).Readable) (place : Nat) :
    ∃ e, Pack.opened (d.stored place) = .ok e ∧ e.Twins d := by
  obtain ⟨hback, hinside⟩ := (Value.each_dict d).mp hread
  have hentries : ∀ entry ∈ d.entries, entry.2.materialize = .ok entry.2 := fun entry hentry =>
    (List.forall₂_same.mp (Pack.opened_eq_ok_iff.mp hopen) entry hentry).2
  have hdone (place : Nat) : ∃ done,
      List.Forall₂ (fun a b : String × Value => a.1 = b.1 ∧ a.2.materialize = .ok b.2)
        (Reader.placed encodeEntry storedEntry place d.entries) done ∧
      List.Forall₂ (fun a b : String × Value => a.1 = b.1 ∧ a.2.Twins b.2) done d.entries := by
    clear hopen hread hback
    obtain ⟨entries⟩ := d
    induction entries generalizing place with
    | nil => exact ⟨[], .nil, .nil⟩
    | cons entry rest ih =>
      obtain ⟨hopen, hrest⟩ := List.forall_mem_cons.mp hentries
      obtain ⟨hread, hreads⟩ := List.forall_mem_cons.mp hinside
      obtain ⟨w, hw, htwins⟩ := Value.exists_materialize_stored hopen hread (place + (encodeText entry.1).length)
      obtain ⟨done, hstored, hall⟩ := ih (place + (encodeEntry entry).length) hreads hrest
      exact ⟨(entry.1, w) :: done, .cons ⟨rfl, hw⟩ hstored, .cons ⟨rfl, htwins⟩ hall⟩
  obtain ⟨done, hstored, htwins⟩ := hdone (place + 8)
  have halike : Alike ⟨done⟩ d := alike_iff.mpr (htwins.imp fun _ _ h => ⟨h.1, h.2.alike⟩)
  refine ⟨⟨done⟩, Pack.opened_eq_ok_iff.mpr hstored, halike, (Value.each_dict _).mpr ⟨?_, fun entry hentry => ?_⟩, hread⟩
  · have hdecode : Dict.decode d.encode = .ok (d.stored 0) := hback
    change Dict.decode (Dict.encode ⟨done⟩) = .ok (Dict.stored 0 ⟨done⟩)
    rw [halike.encode, hdecode]
    exact congrArg _ halike.symm
  · obtain ⟨entry', -, -, h⟩ := exists_of_forall₂ htwins.flip hentry
    exact h.left

end Dict
end AssetPack
