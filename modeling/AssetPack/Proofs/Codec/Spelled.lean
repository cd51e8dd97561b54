import AssetPack.Proofs.Codec.Given
import AssetPack.Proofs.Codec.RoundTrip

/-!
# The bytes that spell a value

A value is read from the bytes it is written with, and from others: every byte but zero stands for
true, and a block may say a name again. A spelling keeps the bytes of the truth values outside nested
blocks apart, and a block's entries as they stand in it. What is read are just the spelled values.
-/
namespace AssetPack

mutual

/-- The bytes spell the value, with fewer than `levels` lists around each value in it. The truth
values outside its blocks are spelled by `truths`. -/
inductive Spells : Nat → Value → List UInt8 → Bytes → Prop
  | truth {levels : Nat} (b : UInt8) :
      Spells (levels + 1) (.bool (b ≠ 0)) [b] (Bytes.ofNat 1 Kind.bool.tag ++ [b])
  | atom {levels : Nat} {a : Atom} : a.kind ≠ .bool → a.Fits →
      Spells (levels + 1) (.atom a) [] (Bytes.ofNat 1 a.kind.tag ++ a.encode)
  | list {levels : Nat} {items : List Value} {truths : List UInt8} {bs : Bytes} :
      items.length < countLimit → SpellsItems levels items truths bs →
      Spells (levels + 1) (.list items) truths
        (Bytes.ofNat 1 Kind.list.tag ++ Bytes.ofNat 4 items.length ++ bs)
  | block {levels : Nat} {b : Block} : b.bytes.length < lengthLimit →
      Spells (levels + 1) (.block b) [] (Bytes.ofNat 1 Kind.dict.tag ++ encodeLong b.bytes)
  | saved {levels : Nat} {p : Payload} : p.stored.length < lengthLimit →
      Spells (levels + 1) (.saved p) [] (Bytes.ofNat 1 Kind.saved.tag ++ p.encode)

inductive SpellsItems : Nat → List Value → List UInt8 → Bytes → Prop
  | nil {levels : Nat} : SpellsItems levels [] [] []
  | cons {levels : Nat} {v : Value} {vs : List Value} {truths more : List UInt8} {bs cs : Bytes} :
      Spells levels v truths bs → SpellsItems levels vs more cs →
      SpellsItems levels (v :: vs) (truths ++ more) (bs ++ cs)

end

/-- The bytes spell the entries one after the other. -/
inductive SpellsEntries : List (String × Value) → List UInt8 → Bytes → Prop
  | nil : SpellsEntries [] [] []
  | cons {name : String} {v : Value} {rest : List (String × Value)} {truths more : List UInt8}
      {bs cs : Bytes} : TextFits name → Spells (deepest + 1) v truths bs →
      SpellsEntries rest more cs →
      SpellsEntries ((name, v) :: rest) (truths ++ more) (encodeText name ++ bs ++ cs)

/-- The bytes are a block that spells these entries, in order and with every name as often as it
stands there. -/
def SpellsBlock (entries : List (String × Value)) (truths : List UInt8) (bs : Bytes) : Prop :=
  entries.length < countLimit ∧ ∃ cs, SpellsEntries entries truths cs ∧
    bs = Bytes.ofNat 4 blockMagic ++ Bytes.ofNat 4 entries.length ++ cs

/-- The byte that is written for a truth value. -/
def IsTruth (b : UInt8) : Prop := b = 0 ∨ b = 1

instance (b : UInt8) : Decidable (IsTruth b) := inferInstanceAs (Decidable (_ ∨ _))

/-! ## A spelling against what is written -/

mutual

theorem Spells.length_encode {levels : Nat} {v : Value} {truths : List UInt8} {bs : Bytes} :
    Spells levels v truths bs → v.encode.length = bs.length
  | .truth b => by simp [Value.encode, Atom.encode, Atom.kind]
  | .atom _ _ => rfl
  | .list _ hitems => by
    have := hitems.length_encode
    simp only [Value.encode, List.length_append, this]
  | .block _ => rfl
  | .saved _ => rfl

theorem SpellsItems.length_encode {levels : Nat} {vs : List Value} {truths : List UInt8} {bs : Bytes} :
    SpellsItems levels vs truths bs → (encodeItems vs).length = bs.length
  | .nil => rfl
  | .cons hv hvs => by rw [encodeItems, List.length_append, List.length_append, hv.length_encode, hvs.length_encode]

end

theorem append_eq_append_iff_of_length {as bs cs ds : Bytes} (h : as.length = cs.length) :
    as ++ bs = cs ++ ds ↔ as = cs ∧ bs = ds :=
  ⟨fun heq => List.append_inj heq h, fun heq => by rw [heq.1, heq.2]⟩

theorem encode_truth_eq_iff (b : UInt8) : (Atom.bool (b ≠ 0)).encode = [b] ↔ IsTruth b := by
  unfold IsTruth
  by_cases hb : b = 0
  · simp [Atom.encode, hb]
  · simp [Atom.encode, hb, eq_comm]

mutual

/-- A value is written with the bytes that spell it just if its truth values are. -/
theorem Spells.encode_eq_iff {levels : Nat} {v : Value} {truths : List UInt8} {bs : Bytes} :
    Spells levels v truths bs → (v.encode = bs ↔ ∀ b ∈ truths, IsTruth b)
  | .truth b => by
    rw [Value.encode, List.forall_mem_singleton, ← encode_truth_eq_iff]
    exact List.append_right_inj _
  | .atom _ _ => by simp [Value.encode]
  | .list _ hitems => by
    rw [Value.encode, List.append_cancel_left_eq]
    exact hitems.encode_eq_iff
  | .block _ => by simp [Value.encode]
  | .saved _ => by simp [Value.encode]

theorem SpellsItems.encode_eq_iff {levels : Nat} {vs : List Value} {truths : List UInt8} {bs : Bytes} :
    SpellsItems levels vs truths bs → (encodeItems vs = bs ↔ ∀ b ∈ truths, IsTruth b)
  | .nil => by simp [encodeItems]
  | .cons hv hvs => by
    rw [encodeItems, append_eq_append_iff_of_length hv.length_encode, hv.encode_eq_iff, hvs.encode_eq_iff,
      List.forall_mem_append]

end

mutual

/-- What a value is written with spells it. -/
theorem Spells.written {levels : Nat} {v : Value} {truths : List UInt8} {bs : Bytes} :
    Spells levels v truths bs → ∃ truths, Spells levels v truths v.encode
  | .truth b => by
    cases decide (b ≠ 0)
    · exact ⟨[0], .truth 0⟩
    · exact ⟨[1], .truth 1⟩
  | .atom hkind hfits => ⟨[], .atom hkind hfits⟩
  | .list hcount hitems => by
    obtain ⟨truths, hitems⟩ := hitems.written
    exact ⟨truths, .list hcount hitems⟩
  | .block hlen => ⟨[], .block hlen⟩
  | .saved hlen => ⟨[], .saved hlen⟩

theorem SpellsItems.written {levels : Nat} {vs : List Value} {truths : List UInt8} {bs : Bytes} :
    SpellsItems levels vs truths bs → ∃ truths, SpellsItems levels vs truths (encodeItems vs)
  | .nil => ⟨[], .nil⟩
  | .cons hv hvs => by
    obtain ⟨truths, hv⟩ := hv.written
    obtain ⟨more, hvs⟩ := hvs.written
    exact ⟨truths ++ more, .cons hv hvs⟩

end

theorem SpellsItems.mem {levels : Nat} {vs : List Value} {truths : List UInt8} {bs : Bytes} {v : Value}
    (h : SpellsItems levels vs truths bs) (hv : v ∈ vs) : ∃ truths bs, Spells levels v truths bs := by
  induction vs generalizing truths bs with
  | nil => cases hv
  | cons u us ih =>
    obtain _ | ⟨hu, hus⟩ := h
    rcases List.mem_cons.mp hv with rfl | hv
    · exact ⟨_, _, hu⟩
    · exact ih hus hv

theorem SpellsEntries.length_encode {entries : List (String × Value)} {truths : List UInt8} {bs : Bytes}
    (h : SpellsEntries entries truths bs) : (encodeEntries entries).length = bs.length := by
  induction h with
  | nil => rfl
  | cons hname hv hrest ih => simp only [encodeEntries, List.length_append, hv.length_encode, ih]

theorem SpellsEntries.encode_eq_iff {entries : List (String × Value)} {truths : List UInt8} {bs : Bytes}
    (h : SpellsEntries entries truths bs) : encodeEntries entries = bs ↔ ∀ b ∈ truths, IsTruth b := by
  induction h with
  | nil => simp [encodeEntries]
  | cons hname hv hrest ih =>
    rw [encodeEntries, List.append_assoc, List.append_assoc, List.append_right_inj,
      append_eq_append_iff_of_length hv.length_encode, hv.encode_eq_iff, ih, List.forall_mem_append]

theorem SpellsEntries.mem {entries : List (String × Value)} {truths : List UInt8} {bs : Bytes}
    (h : SpellsEntries entries truths bs) {entry : String × Value} (hentry : entry ∈ entries) :
    TextFits entry.1 ∧ ∃ truths bs, Spells (deepest + 1) entry.2 truths bs := by
  induction h with
  | nil => cases hentry
  | cons hname hv hrest ih =>
    rcases List.mem_cons.mp hentry with rfl | hentry
    · exact ⟨hname, _, _, hv⟩
    · exact ih hentry

/-- Entries that are spelled one by one are spelled by what they are written with. -/
theorem spellsEntries_written {entries : List (String × Value)}
    (h : ∀ entry ∈ entries, TextFits entry.1 ∧ ∃ truths bs, Spells (deepest + 1) entry.2 truths bs) :
    ∃ truths, SpellsEntries entries truths (encodeEntries entries) := by
  induction entries with
  | nil => exact ⟨[], .nil⟩
  | cons entry rest ih =>
    obtain ⟨⟨hname, _, _, hv⟩, hrest⟩ := List.forall_mem_cons.mp h
    obtain ⟨truths, hv⟩ := hv.written
    obtain ⟨more, hmore⟩ := ih hrest
    exact ⟨truths ++ more, .cons hname hv hmore⟩

/-! ## What is spelled is read -/

namespace Reader

mutual

theorem reads_spelled {levels : Nat} {v : Value} {truths : List UInt8} {bs : Bytes} :
    Spells levels v truths bs → ∀ place, Reads (value levels) place bs (v.stored place)
  | .truth b, place => by
    have hb : b.toNat < Nat.pow 256 1 := b.toNat_lt
    have hread := (reads_nat (place + 1) hb).map (g := fun n => Pure.pure (Value.bool (n ≠ 0)))
      (Reads.pure _ _)
    have hzero : (b.toNat ≠ 0) = (b ≠ 0) := by
      rw [ne_eq, ne_eq, ← UInt8.toNat_inj]
      rfl
    simp only [Bytes.ofNat, UInt8.ofNat_toNat, hzero] at hread
    exact reads_tagged (k := .bool) hread
  | .atom hkind hfits, place => reads_tagged (reads_atom _ _ hfits)
  | .list hcount hitems, place => by
    rw [countLimit_eq] at hcount
    have hread := (reads_nat (place + 1) hcount).bind (g := fun n => do
      return Value.list (← many (value _) n)) ((reads_spelledItems hitems _).map (Reads.pure _ _))
    rw [Bytes.length_ofNat, Nat.add_assoc] at hread
    have hvalue := reads_tagged (k := .list) hread
    rwa [← List.append_assoc] at hvalue
  | .block hlen, place => reads_tagged (reads_block _ _ hlen)
  | .saved hlen, place => reads_tagged (reads_saved _ _ hlen)

theorem reads_spelledItems {levels : Nat} {vs : List Value} {truths : List UInt8} {bs : Bytes} :
    SpellsItems levels vs truths bs → ∀ place,
      Reads (many (value levels) vs.length) place bs (storedItems place vs)
  | .nil, place => Reads.pure place []
  | .cons hv hvs, place => by
    have hrest := reads_spelledItems hvs (place + bs.length)
    rw [storedItems, hv.length_encode]
    exact (reads_spelled hv place).bind ((reads_spelledItems hvs _).map (Reads.pure _ _))

end

theorem reads_spelledEntries {entries : List (String × Value)} {truths : List UInt8} {bs : Bytes}
    (h : SpellsEntries entries truths bs) (place : Nat) :
    Reads (many entry entries.length) place bs (placed encodeEntry storedEntry place entries) := by
  induction h generalizing place with
  | nil => exact Reads.pure place []
  | @cons name v rest truths more bs cs hname hv hrest ih =>
    have hname : (Bytes.ofString name).length < Nat.pow 256 4 := by rw [← countLimit_eq]; exact hname
    have hentry : Reads entry place (encodeText name ++ bs) (storedEntry place (name, v)) :=
      (reads_text place hname).bind ((reads_spelled hv _).map (Reads.pure _ _))
    have hlength : (encodeEntry (name, v)).length = (encodeText name ++ bs).length := by
      rw [encodeEntry, List.length_append, List.length_append, hv.length_encode]
    rw [placed, hlength]
    exact hentry.bind ((ih _).map (Reads.pure _ _))

end Reader

end AssetPack
