import AssetPack.Proofs.Tree.Alike

/-!
# Reading a part of a buffer

A part of a buffer that is read in its place opens just if its bytes alone do, to the same dictionary, and is faulted
alike but for where the part begins. Blocks in what it opens to lie where their bytes stand, so whatever is opened
in it, at any depth, is read from bytes of the part.
-/
namespace AssetPack

/-- The block's bytes are a run of `bs`, which begins at `place`, and the block is placed where they stand. -/
def Block.StandsIn (place : Nat) (bs : Bytes) (b : Block) : Prop :=
  ∃ front back, bs = front ++ b.bytes ++ back ∧ b.offset = place + front.length

namespace Block.StandsIn
variable {place : Nat} {bs : Bytes} {b c : Block}

theorem around {front : Bytes} (h : b.StandsIn (place + front.length) bs) (back : Bytes) :
    b.StandsIn place (front ++ bs ++ back) := by
  obtain ⟨front', back', rfl, hplace⟩ := h
  refine ⟨front ++ front', back' ++ back, by simp only [List.append_assoc], ?_⟩
  rw [hplace, List.length_append, Nat.add_assoc]

/-- A run of a run is one of the whole. -/
theorem trans (h : b.StandsIn c.offset c.bytes) (hc : c.StandsIn place bs) : b.StandsIn place bs := by
  obtain ⟨front, back, rfl, hplace⟩ := hc
  rw [hplace] at h
  exact h.around back

theorem bounds (h : b.StandsIn place bs) :
    place ≤ b.offset ∧ b.offset + b.bytes.length ≤ place + bs.length := by
  obtain ⟨front, back, rfl, hplace⟩ := h
  rw [hplace, List.length_append, List.length_append]
  omega

/-- A block that stands in a part of a buffer is itself a part of the buffer. -/
theorem eq_ofBuffer {buffer : Bytes} {start stop : Nat} (hstart : start ≤ stop) (hstop : stop ≤ buffer.length)
    (h : b.StandsIn start (buffer.slice start stop)) :
    b = Block.ofBuffer buffer b.offset (b.offset + b.bytes.length) := by
  obtain ⟨front, back, hslice, hplace⟩ := h
  obtain ⟨offset, bytes⟩ := b
  dsimp only at hslice hplace
  have hbytes : bytes = ((buffer.slice start stop).drop front.length).take bytes.length := by
    rw [hslice, List.append_assoc, List.drop_left, List.take_left]
  have hlen := congrArg List.length hslice
  rw [Bytes.slice, List.length_drop, List.length_take, List.length_append, List.length_append] at hlen
  have hslice : ((buffer.slice start stop).drop front.length).take bytes.length =
      buffer.slice offset (offset + bytes.length) := by
    rw [Bytes.slice, Bytes.slice, List.drop_drop, hplace, List.take_drop, List.take_take]
    congr 2
    omega
  rw [Block.ofBuffer, ← hslice, ← hbytes]

end Block.StandsIn

/-- Every block of the value stands in `bs`, which begins at `place`. -/
def Value.BlocksIn (place : Nat) (bs : Bytes) (v : Value) : Prop :=
  ∀ b, (Value.block b).Part v → b.StandsIn place bs

theorem Value.BlocksIn.around {place : Nat} {front bs : Bytes} {v : Value} (h : v.BlocksIn (place + front.length) bs)
    (back : Bytes) : v.BlocksIn place (front ++ bs ++ back) := fun b hb => (h b hb).around back

mutual

/-- A value is read with its blocks placed where their bytes stand. -/
theorem Spells.blocksIn {levels : Nat} {v : Value} {truths : List UInt8} {bs : Bytes} :
    Spells levels v truths bs → ∀ place, (v.stored place).BlocksIn place bs
  | .truth b, place => by rintro _ ⟨⟩
  | .atom _ _, place => by rintro _ ⟨⟩
  | @Spells.list _ items _ _ _ hitems, place => by
    rintro b (_ | ⟨hmem, hpart⟩)
    have hplace : place + 5 = place + (Bytes.ofNat 1 Kind.list.tag ++ Bytes.ofNat 4 items.length).length := by simp
    rw [hplace] at hmem
    have hb := (hitems.blocksIn _ _ hmem b hpart).around []
    rwa [List.append_nil] at hb
  | @Spells.block _ b _, place => by
    rintro _ ⟨⟩
    exact ⟨Bytes.ofNat 1 Kind.dict.tag ++ Bytes.ofNat 8 b.bytes.length, [], by simp [encodeLong], by simp⟩
  | .saved _, place => by rintro _ ⟨⟩

theorem SpellsItems.blocksIn {levels : Nat} {vs : List Value} {truths : List UInt8} {bs : Bytes} :
    SpellsItems levels vs truths bs → ∀ place, ∀ v ∈ storedItems place vs, v.BlocksIn place bs
  | .nil, place => nofun
  | .cons hv hvs, place => by
    rw [storedItems, List.forall_mem_cons, hv.length_encode]
    refine ⟨@Value.BlocksIn.around place [] _ _ (hv.blocksIn place) _, fun w hw => ?_⟩
    have hmore := (hvs.blocksIn _ w hw).around []
    rwa [List.append_nil] at hmore

end

theorem SpellsEntries.blocksIn {entries : List (String × Value)} {truths : List UInt8} {bs : Bytes}
    (h : SpellsEntries entries truths bs) (place : Nat) :
    ∀ entry ∈ Reader.placed encodeEntry storedEntry place entries, entry.2.BlocksIn place bs := by
  induction h generalizing place with
  | nil => nofun
  | @cons name v rest truths more bs cs hname hv hrest ih =>
    have hlength : (encodeEntry (name, v)).length = (encodeText name ++ bs).length := by
      rw [encodeEntry, List.length_append, List.length_append, hv.length_encode]
    rw [Reader.placed, List.forall_mem_cons, hlength]
    refine ⟨(hv.blocksIn _).around cs, fun entry hentry => ?_⟩
    have hmore := (ih _ entry hentry).around []
    rwa [List.append_nil] at hmore

/-- The block stands in the dictionary or, at any depth, in what a block in it opens to. -/
inductive Dict.Nests (b : Block) : Dict Value → Prop
  | here {d : Dict Value} {entry : String × Value} : entry ∈ d.entries → (Value.block b).Part entry.2 → Nests b d
  | inside {d e : Dict Value} {entry : String × Value} {c : Block} : entry ∈ d.entries →
      (Value.block c).Part entry.2 → c.load = .ok e → Nests b e → Nests b d

namespace Block
variable {b c : Block} {d : Dict Value}

/-- What a block opens to is spelled behind its mark and the number of its entries. -/
theorem spelled_of_load (h : b.load = .ok d) : ∃ entries truths cs, SpellsEntries entries truths cs ∧
    b.bytes = Bytes.ofNat 4 blockMagic ++ Bytes.ofNat 4 entries.length ++ cs ∧
    d = Dict.ofList (Reader.placed encodeEntry storedEntry (b.offset + 8) entries) := by
  have hdecode : ∃ x, Dict.decode b.bytes = .ok x := by
    rw [load_eq] at h
    cases hx : Dict.decode b.bytes with
    | ok x => exact ⟨x, rfl⟩
    | error f =>
      rw [hx] at h
      cases h
  obtain ⟨x, hx⟩ := hdecode
  obtain ⟨entries, truths, hspells, -⟩ := Dict.spells_of_decode hx
  obtain ⟨place, bs⟩ := b
  rw [Dict.load_of_spells hspells] at h
  cases h
  obtain ⟨-, cs, hentries, hbs⟩ := hspells
  exact ⟨entries, truths, cs, hentries, hbs, rfl⟩

/-- The blocks in it stand behind these. -/
theorem blocksIn_of_load_behind (h : b.load = .ok d) : ∃ front cs, b.bytes = front ++ cs ∧ front.length = 8 ∧
    ∀ entry ∈ d.entries, entry.2.BlocksIn (b.offset + 8) cs := by
  obtain ⟨entries, truths, cs, hentries, hbs, rfl⟩ := spelled_of_load h
  exact ⟨_, cs, hbs, by simp, fun entry hentry => hentries.blocksIn _ entry (Dict.mem_ofList hentry)⟩

theorem blocksIn_of_load (h : b.load = .ok d) : ∀ entry ∈ d.entries, entry.2.BlocksIn b.offset b.bytes := by
  obtain ⟨front, cs, hbs, hfront, hblocks⟩ := blocksIn_of_load_behind h
  intro entry hentry
  rw [← hfront] at hblocks
  have hmore := (hblocks entry hentry).around []
  rwa [List.append_nil, ← hbs] at hmore

/-- Whatever is opened in a block, at any depth, is a run of its bytes. -/
theorem standsIn_of_nests (hload : c.load = .ok d) (h : d.Nests b) : b.StandsIn c.offset c.bytes := by
  induction h generalizing c with
  | here hmem hpart => exact blocksIn_of_load hload _ hmem _ hpart
  | inside hmem hpart hopen _ ih => exact (ih hopen).trans (blocksIn_of_load hload _ hmem _ hpart)

end Block

namespace Dict
variable {buffer : Bytes} {start stop : Nat}

/-- Reading in place is reading the block. -/
theorem loadRange_eq (hstart : start ≤ stop) (hstop : stop ≤ buffer.length) :
    loadRange buffer start stop = (Block.ofBuffer buffer start stop).load := by
  have hinside : start ≤ (buffer.take stop).length := by
    rw [List.length_take]
    omega
  rw [loadRange, if_neg (Nat.not_lt.mpr hstop), Cursor.seek, decide_eq_true hinside]
  rfl

/-- A part of a buffer opens just if its bytes alone do, to the same dictionary with the names in the same order, and
else is faulted alike, as much further on as it begins. Each block that is opened in it, at any depth, is a part of
that part and is read from there. Bytes outside make no difference. -/
theorem loadRange_agrees (buffer : Bytes) {start stop : Nat} (hstart : start ≤ stop) (hstop : stop ≤ buffer.length) :
    (match Dict.decode (buffer.slice start stop) with
      | .ok d => ∃ e, loadRange buffer start stop = .ok e ∧ e.sameAs d = true ∧ e.names = d.names
      | .error f => loadRange buffer start stop = .error (f.shift start)) ∧
    (∀ e, loadRange buffer start stop = .ok e → ∀ b, e.Nests b →
      start ≤ b.offset ∧ b.offset + b.bytes.length ≤ stop ∧
      b.bytes = buffer.slice b.offset (b.offset + b.bytes.length) ∧
      b.load = loadRange buffer b.offset (b.offset + b.bytes.length)) ∧
    ∀ other : Bytes, stop ≤ other.length → other.slice start stop = buffer.slice start stop →
      loadRange other start stop = loadRange buffer start stop := by
  refine ⟨?_, fun e hload b hb => ?_, fun other hother hslice => ?_⟩
  · have hopen := (Block.ofBuffer buffer start stop).load_eq
    rw [← loadRange_eq hstart hstop, Block.ofBuffer] at hopen
    cases hdecode : Dict.decode (buffer.slice start stop) with
    | ok d =>
      rw [hdecode] at hopen
      refine ⟨d.moved start, hopen, ?_, by rw [moved_eq, names_map]⟩
      have hd : (Value.dict d).Readable := Block.readable_of_load hdecode
      rw [loadRange_eq hstart hstop] at hopen
      have hmoved : (Value.dict (d.moved start)).Readable := Block.readable_of_load hopen
      have htwins : (d.moved start).Twins d := ⟨(d.alike_moved start).symm, hmoved, hd⟩
      exact (htwins.related.mono fun _ _ h => h.same).sameAs (Block.distinct_of_load hopen).here
    | error f =>
      rw [hdecode] at hopen
      exact hopen
  · rw [loadRange_eq hstart hstop] at hload
    have hstands := Block.standsIn_of_nests hload hb
    obtain ⟨hlow, hhigh⟩ := hstands.bounds
    have hlength : (buffer.slice start stop).length = stop - start := by
      rw [Bytes.slice, List.length_drop, List.length_take, Nat.min_eq_left hstop]
    rw [Block.ofBuffer, hlength] at hhigh
    dsimp only at hlow hhigh
    have hblock := hstands.eq_ofBuffer hstart hstop
    refine ⟨hlow, by omega, congrArg Block.bytes hblock, ?_⟩
    rw [loadRange_eq (by omega) (by omega), ← hblock]
  · rw [loadRange_eq hstart hother, loadRange_eq hstart hstop, Block.ofBuffer, Block.ofBuffer, hslice]

/-- The block of a dictionary in a dictionary, with a byte before it and one behind it. -/
def enclosedBytes : Bytes := [7] ++ (⟨[("n", .dict ⟨[("t", .bool true)]⟩)]⟩ : Dict Value).encode ++ [1]

theorem loadRange_agrees_enclosedBytes : 1 ≤ 38 ∧ 38 ≤ enclosedBytes.length ∧
    ∃ e b, loadRange enclosedBytes 1 38 = .ok e ∧ e.names = ["n"] ∧ e.Nests b ∧ b.offset + b.bytes.length ≤ 38 ∧
      b.load = loadRange enclosedBytes b.offset (b.offset + b.bytes.length) := by
  have hstart : 1 ≤ 38 := by decide
  have hstop : 38 ≤ enclosedBytes.length := by decide +kernel
  obtain ⟨-, hinside, -⟩ := loadRange_agrees enclosedBytes hstart hstop
  have hload : loadRange enclosedBytes 1 38 =
      .ok ⟨[("n", .block ⟨23, (⟨[("t", .bool true)]⟩ : Dict Value).encode⟩)]⟩ := by rfl
  have hnests : Nests ⟨23, (⟨[("t", .bool true)]⟩ : Dict Value).encode⟩
      ⟨[("n", .block ⟨23, (⟨[("t", .bool true)]⟩ : Dict Value).encode⟩)]⟩ := .here List.mem_cons_self .self
  obtain ⟨-, hbound, -, hopen⟩ := hinside _ hload _ hnests
  exact ⟨hstart, hstop, _, _, hload, rfl, hnests, hbound, hopen⟩

end Dict
end AssetPack
