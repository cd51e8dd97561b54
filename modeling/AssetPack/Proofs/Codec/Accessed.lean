import Mathlib
import AssetPack.Proofs.Codec.Ranges
import AssetPack.Proofs.Value.Materialized

/-!
# Looking into any bytes

No bytes make a reader leave its buffer, and whatever is looked at in what they are read as, opened, or opened in its
place, in any order and at any depth, has blocks that are parts of the buffer and do not overlap. Each block opens to
blocks strictly inside it.
-/
namespace AssetPack

/-! ## Readers stay in their buffer -/

theorem Content.ofTag_ne_outside (tag : Nat) : Content.ofTag tag ≠ .error .outside := by
  unfold Content.ofTag
  split <;> simp

theorem Compression.ofTag_ne_outside (tag : Nat) : Compression.ofTag tag ≠ .error .outside := by
  unfold Compression.ofTag
  split <;> simp

namespace Reader
variable {α β : Type}

/-- From a cursor in its buffer the reader comes to one in it, or faults, but not for having left the buffer. -/
def Stays (r : Reader α) : Prop :=
  ∀ c : Cursor, c.inside = true → match EStateM.run r c with
    | .ok _ c' => c'.inside = true
    | .error f _ => f ≠ .outside

theorem Stays.pure (a : α) : Stays (Pure.pure a) := fun _ h => h

theorem Stays.throw {f : Fault} (h : f ≠ .outside) : Stays (MonadExcept.throw f : Reader α) := fun _ _ => h

theorem Stays.bind {r : Reader α} {g : α → Reader β} (hr : Stays r) (hg : ∀ a, Stays (g a)) : Stays (r >>= g) := by
  intro c hc
  have hfirst := hr c hc
  rw [run_bind]
  cases hrun : EStateM.run r c with
  | ok a c' =>
    rw [hrun] at hfirst
    exact hg a c' hfirst
  | error f c' =>
    rw [hrun] at hfirst
    exact hfirst

theorem stays_offset : Stays offset := fun _ h => h

theorem stays_take (n : Nat) : Stays (take n) := by
  intro c hc
  unfold take
  rw [run_bind]
  simp only [EStateM.run_get]
  by_cases h : (c.rest.take n).length < n
  · rw [if_pos h]
    exact Fault.noConfusion
  · rw [if_neg h, hc]
    rfl

theorem stays_nat (width : Nat) : Stays (nat width) := (stays_take width).bind fun _ => .pure _

theorem stays_bytes : Stays bytes := (stays_nat 4).bind stays_take

theorem stays_text : Stays text := by
  refine stays_offset.bind fun start => stays_bytes.bind fun bs => ?_
  cases bs.toString? with
  | some s => exact .pure s
  | none => exact .throw Fault.noConfusion

theorem stays_many {item : Reader α} (h : Stays item) (n : Nat) : Stays (many item n) := by
  induction n with
  | zero => exact .pure []
  | succ n ih => exact h.bind fun a => ih.bind fun as => .pure (a :: as)

theorem stays_atEnd : Stays atEnd := by
  intro c hc
  unfold atEnd
  rw [run_bind]
  simp only [EStateM.run_get]
  by_cases h : c.left = 0
  · simpa [h] using hc
  · simp only [h, ne_eq, not_false_eq_true, if_true]
    exact Fault.noConfusion

theorem stays_liftExcept {e : Except Fault α} (h : e ≠ .error .outside) : Stays (content.liftExcept e) := by
  cases e with
  | ok a => exact .pure a
  | error f => exact .throw fun hf => h (congrArg _ hf)

theorem stays_content {items : Reader Value} (h : Stays items) (k : Kind) : Stays (content items k) := by
  cases k with
  | null => exact .pure _
  | bool => exact (stays_nat 1).bind fun _ => .pure _
  | int => exact ((stays_nat 4).bind fun _ => .pure _).bind fun _ => .pure _
  | double => exact ((stays_nat 8).bind fun _ => .pure _).bind fun _ => .pure _
  | string => exact stays_text.bind fun _ => .pure _
  | bytes => exact (stays_nat 8).bind fun n => (stays_take n).bind fun _ => .pure _
  | list => exact (stays_nat 4).bind fun n => (stays_many h n).bind fun _ => .pure _
  | dict => exact (stays_nat 8).bind fun n => stays_offset.bind fun _ => (stays_take n).bind fun _ => .pure _
  | struct => exact stays_bytes.bind fun _ => .pure _
  | ref => exact stays_text.bind fun _ => .pure _
  | saved =>
    refine (stays_nat 1).bind fun tag => (stays_liftExcept (Content.ofTag_ne_outside tag)).bind fun _ => ?_
    refine (stays_nat 1).bind fun tag => (stays_liftExcept (Compression.ofTag_ne_outside tag)).bind fun _ => ?_
    exact (stays_nat 8).bind fun _ => (stays_nat 8).bind fun n => (stays_take n).bind fun _ => .pure _

theorem stays_value (levels : Nat) : Stays (value levels) := by
  induction levels with
  | zero => exact stays_offset.bind fun _ => .throw Fault.noConfusion
  | succ levels ih =>
    refine stays_offset.bind fun start => (stays_nat 1).bind fun tag => ?_
    cases Kind.ofTag? tag with
    | some k => exact stays_content ih k
    | none => exact .throw Fault.noConfusion

theorem stays_whole : Stays whole := (stays_value _).bind fun _ => stays_atEnd.bind fun _ => .pure _

theorem stays_entry : Stays entry := stays_text.bind fun _ => (stays_value _).bind fun _ => .pure _

theorem stays_block : Stays block := by
  refine stays_offset.bind fun start => (stays_nat 4).bind fun found => ?_
  split
  · exact .throw Fault.noConfusion
  · exact (stays_nat 4).bind fun n => (stays_many stays_entry n).bind fun _ => stays_atEnd.bind fun _ => .pure _

theorem Stays.runFrom_ne {r : Reader α} (h : Stays r) {c : Cursor} (hc : c.inside = true) :
    r.runFrom c ≠ .error .outside := by
  have hrun := h c hc
  unfold Reader.runFrom
  cases hr : EStateM.run r c with
  | ok a c' => exact nofun
  | error f c' =>
    rw [hr] at hrun
    exact fun heq => hrun (Except.error.inj heq)

end Reader

theorem Block.load_ne_outside (b : Block) : b.load ≠ .error .outside := Reader.stays_block.runFrom_ne rfl

/-! ## The fault of opening in place is that of a block -/

theorem Value.exists_block_of_materialize {v : Value} {f : Fault} (h : v.materialize = .error f) :
    ∃ b, (Value.block b).Part v ∧ b.load = .error f := by
  induction v with
  | atom a => cases h
  | list items ih =>
    have hitems : ∀ f, materializeItems items = .error f → ∃ v ∈ items, v.materialize = .error f := by
      clear ih h
      intro f hf
      induction items with
      | nil => cases hf
      | cons v vs ih =>
        rw [materializeItems] at hf
        cases hv : v.materialize with
        | error g =>
          rw [hv] at hf
          cases hf
          exact ⟨v, List.mem_cons_self, hv⟩
        | ok w =>
          rw [hv] at hf
          cases hvs : materializeItems vs with
          | error g =>
            rw [hvs] at hf
            cases hf
            obtain ⟨u, hu, hfault⟩ := ih hvs
            exact ⟨u, List.mem_cons_of_mem v hu, hfault⟩
          | ok ws =>
            rw [hvs] at hf
            cases hf
    rw [Value.materialize] at h
    cases hmore : materializeItems items with
    | error g =>
      rw [hmore] at h
      cases h
      obtain ⟨u, hu, hfault⟩ := hitems f hmore
      obtain ⟨b, hpart, hload⟩ := ih u hu hfault
      exact ⟨b, .item hu hpart, hload⟩
    | ok ws =>
      rw [hmore] at h
      cases h
  | dict d => cases h
  | block b =>
    rw [Value.materialize] at h
    cases hload : b.load with
    | error g =>
      rw [hload] at h
      cases h
      exact ⟨b, .self, hload⟩
    | ok d =>
      rw [hload] at h
      cases h
  | saved p => cases h

theorem Dict.exists_block_of_loadChildren {d : Dict Value} {f : Fault} (h : d.loadChildren.1 = some f) :
    ∃ b, (Value.block b).Part (.dict d) ∧ b.load = .error f := by
  obtain ⟨entries⟩ := d
  have hentry : ∀ f, (materializeEntries entries).1 = some f → ∃ entry ∈ entries, entry.2.materialize = .error f := by
    clear h
    intro f hf
    induction entries with
    | nil => cases hf
    | cons entry rest ih =>
      rw [materializeEntries] at hf
      cases hv : entry.2.materialize with
      | error g =>
        rw [hv] at hf
        cases hf
        exact ⟨entry, List.mem_cons_self, hv⟩
      | ok w =>
        rw [hv] at hf
        obtain ⟨u, hu, hfault⟩ := ih hf
        exact ⟨u, List.mem_cons_of_mem entry hu, hfault⟩
  obtain ⟨entry, hmem, hfault⟩ := hentry f h
  obtain ⟨b, hpart, hload⟩ := Value.exists_block_of_materialize hfault
  exact ⟨b, .entry hmem hpart, hload⟩

/-! ## The blocks in a value -/

mutual

/-- The blocks in the value, in their order. -/
def Value.blocks : Value → List Block
  | .atom _ => []
  | .list items => blocksItems items
  | .dict d => d.blocks
  | .block b => [b]
  | .saved _ => []
termination_by structural v => v

def blocksItems : List Value → List Block
  | [] => []
  | v :: vs => v.blocks ++ blocksItems vs
termination_by structural vs => vs

def Dict.blocks : Dict Value → List Block
  | ⟨entries⟩ => blocksEntries entries
termination_by structural d => d

def blocksEntries : List (String × Value) → List Block
  | [] => []
  | (_, v) :: rest => v.blocks ++ blocksEntries rest
termination_by structural entries => entries

end

theorem blocksItems_eq (items : List Value) : blocksItems items = items.flatMap Value.blocks := by
  induction items with
  | nil => rfl
  | cons v vs ih => rw [blocksItems, ih, List.flatMap_cons]

theorem blocksEntries_eq (entries : List (String × Value)) :
    blocksEntries entries = entries.flatMap fun entry => entry.2.blocks := by
  induction entries with
  | nil => rfl
  | cons entry rest ih => rw [blocksEntries, ih, List.flatMap_cons]

theorem Dict.blocks_eq (d : Dict Value) : d.blocks = d.entries.flatMap fun entry => entry.2.blocks := by
  obtain ⟨entries⟩ := d
  exact blocksEntries_eq entries

theorem Value.part_of_mem_blocks {v : Value} {b : Block} (h : b ∈ v.blocks) : (Value.block b).Part v := by
  induction v with
  | atom a => cases h
  | list items ih =>
    rw [blocks, blocksItems_eq] at h
    obtain ⟨u, hu, hb⟩ := List.mem_flatMap.mp h
    exact .item hu (ih u hu hb)
  | dict d ih =>
    rw [blocks, Dict.blocks_eq] at h
    obtain ⟨entry, hentry, hb⟩ := List.mem_flatMap.mp h
    exact .entry hentry (ih entry hentry hb)
  | block c =>
    obtain rfl := List.mem_singleton.mp h
    exact .self
  | saved p => cases h

/-- The blocks of a part stand among those of the whole in their order. -/
theorem Value.Part.blocks_sublist {u v : Value} (h : u.Part v) : u.blocks.Sublist v.blocks := by
  induction h with
  | self => exact .refl _
  | @item items v hmem _ ih =>
    rw [blocks, blocksItems_eq]
    obtain ⟨front, back, rfl⟩ := List.append_of_mem hmem
    rw [List.flatMap_append, List.flatMap_cons]
    exact ih.trans ((List.sublist_append_left _ _).trans (List.sublist_append_right _ _))
  | @entry d entry hmem _ ih =>
    rw [blocks, Dict.blocks_eq]
    obtain ⟨front, back, hsplit⟩ := List.append_of_mem hmem
    rw [hsplit, List.flatMap_append, List.flatMap_cons]
    exact ih.trans ((List.sublist_append_left _ _).trans (List.sublist_append_right _ _))

namespace Block

/-- Where the bytes behind the block begin. -/
def stop (b : Block) : Nat := b.offset + b.bytes.length

/-- The blocks have no byte in common. -/
def Apart (b c : Block) : Prop := b.stop ≤ c.offset ∨ c.stop ≤ b.offset

theorem Apart.symm {b c : Block} (h : b.Apart c) : c.Apart b := Or.symm h

/-- What stands in blocks that are apart is apart. -/
theorem Apart.inner {b c b' c' : Block} (h : b.Apart c) (hb : b'.StandsIn b.offset b.bytes)
    (hc : c'.StandsIn c.offset c.bytes) : b'.Apart c' := by
  have hb := hb.bounds
  have hc := hc.bounds
  unfold Apart stop at *
  omega

end Block

/-! ## Blocks as they are read -/

mutual

/-- The blocks of a value that is read stand one behind the other. -/
theorem Spells.blocks_apart {levels : Nat} {v : Value} {truths : List UInt8} {bs : Bytes} :
    Spells levels v truths bs → ∀ place, (v.stored place).blocks.Pairwise Block.Apart
  | .truth _, _ => .nil
  | .atom _ _, _ => .nil
  | .list _ hitems, place => hitems.blocks_apart (place + 5)
  | .block _, _ => List.pairwise_singleton _ _
  | .saved _, _ => .nil

theorem SpellsItems.blocks_apart {levels : Nat} {vs : List Value} {truths : List UInt8} {bs : Bytes} :
    SpellsItems levels vs truths bs → ∀ place, (blocksItems (storedItems place vs)).Pairwise Block.Apart
  | .nil, _ => .nil
  | .cons hv hvs, place => by
    rw [storedItems, blocksItems, List.pairwise_append]
    refine ⟨hv.blocks_apart place, hvs.blocks_apart _, fun b hb c hc => .inl ?_⟩
    rw [blocksItems_eq] at hc
    obtain ⟨w, hw, hc⟩ := List.mem_flatMap.mp hc
    have hb := (hv.blocksIn place b (Value.part_of_mem_blocks hb)).bounds
    have hc := (hvs.blocksIn _ w hw c (Value.part_of_mem_blocks hc)).bounds
    rw [hv.length_encode] at hc
    exact hb.2.trans hc.1

end

theorem SpellsEntries.blocks_apart {entries : List (String × Value)} {truths : List UInt8} {bs : Bytes}
    (h : SpellsEntries entries truths bs) (place : Nat) :
    (blocksEntries (Reader.placed encodeEntry storedEntry place entries)).Pairwise Block.Apart := by
  induction h generalizing place with
  | nil => exact .nil
  | @cons name v rest truths more bs cs hname hv hrest ih =>
    have hlength : (encodeEntry (name, v)).length = (encodeText name).length + bs.length := by
      rw [encodeEntry, List.length_append, hv.length_encode]
    rw [Reader.placed, storedEntry, blocksEntries, List.pairwise_append, hlength]
    refine ⟨hv.blocks_apart _, ih _, fun b hb c hc => .inl ?_⟩
    rw [blocksEntries_eq] at hc
    obtain ⟨entry, hentry, hc⟩ := List.mem_flatMap.mp hc
    have hb := (hv.blocksIn _ b (Value.part_of_mem_blocks hb)).bounds
    have hc := (hrest.blocksIn _ entry hentry c (Value.part_of_mem_blocks hc)).bounds
    rw [← Nat.add_assoc] at hc
    exact hb.2.trans hc.1

namespace Dict

theorem subperm_ofList {α : Type} (entries : List (String × α)) : (ofList entries).entries.Subperm entries :=
  (List.Nodup.of_map _ (distinct_ofList entries)).subperm fun _ h => mem_ofList h

/-- Setting entries moves and drops blocks only, so they stay apart. -/
theorem blocks_ofList_apart {entries : List (String × Value)} (h : (blocksEntries entries).Pairwise Block.Apart) :
    (ofList entries).blocks.Pairwise Block.Apart := by
  obtain ⟨kept, hperm, hkept⟩ := subperm_ofList entries
  rw [blocks_eq, ← (hperm.flatMap_right _).pairwise_iff Block.Apart.symm]
  rw [blocksEntries_eq] at h
  exact h.sublist (hkept.flatMap _)

end Dict

theorem Block.blocks_apart_of_load {b : Block} {d : Dict Value} (h : b.load = .ok d) :
    d.blocks.Pairwise Block.Apart := by
  obtain ⟨entries, truths, cs, hentries, -, rfl⟩ := Block.spelled_of_load h
  exact Dict.blocks_ofList_apart (hentries.blocks_apart _)

/-- What is in a block lies inside it, and behind its mark. -/
theorem Block.inside_of_load {b c : Block} {d : Dict Value} (h : b.load = .ok d) (hc : c ∈ d.blocks) :
    c.StandsIn b.offset b.bytes ∧ b.offset < c.offset ∧ c.stop ≤ b.stop := by
  obtain ⟨front, cs, hbs, hfront, hblocks⟩ := Block.blocksIn_of_load_behind h
  rw [Dict.blocks_eq] at hc
  obtain ⟨entry, hentry, hc⟩ := List.mem_flatMap.mp hc
  have hpart := Value.part_of_mem_blocks hc
  obtain ⟨hlow, hhigh⟩ := (hblocks entry hentry c hpart).bounds
  refine ⟨Block.blocksIn_of_load h entry hentry c hpart, by omega, ?_⟩
  rw [Block.stop, Block.stop, hbs, List.length_append, hfront]
  omega

/-! ## Looking into a value -/

/-- The second blocks are what is left where each of the first ones is kept, dropped, or opened: blocks that stand in
it and are apart. -/
inductive Narrows : List Block → List Block → Prop
  | nil : Narrows [] []
  | cons {b : Block} {inner bs cs : List Block} : (∀ c ∈ inner, c.StandsIn b.offset b.bytes) →
      inner.Pairwise Block.Apart → Narrows bs cs → Narrows (b :: bs) (inner ++ cs)

namespace Narrows
variable {bs cs bs' cs' : List Block}

theorem append (h : Narrows bs cs) (h' : Narrows bs' cs') : Narrows (bs ++ bs') (cs ++ cs') := by
  induction h with
  | nil => exact h'
  | cons hin hapart _ ih =>
    rw [List.append_assoc]
    exact .cons hin hapart ih

theorem of_sublist (h : cs.Sublist bs) : Narrows bs cs := by
  induction h with
  | slnil => exact .nil
  | cons b _ ih => exact @cons b [] _ _ nofun .nil ih
  | cons_cons b _ ih =>
    refine @cons b [b] _ _ (fun c hc => ?_) (List.pairwise_singleton _ b) ih
    obtain rfl := List.mem_singleton.mp hc
    exact ⟨[], [], by simp, rfl⟩

theorem refl (bs : List Block) : Narrows bs bs := of_sublist (.refl bs)

/-- Each of the second blocks stands in one of the first. -/
theorem exists_around (h : Narrows bs cs) {c : Block} (hc : c ∈ cs) : ∃ b ∈ bs, c.StandsIn b.offset b.bytes := by
  induction h with
  | nil => cases hc
  | @cons b inner bs cs hin _ _ ih =>
    rcases List.mem_append.mp hc with hc | hc
    · exact ⟨b, List.mem_cons_self, hin c hc⟩
    · obtain ⟨a, ha, hstands⟩ := ih hc
      exact ⟨a, List.mem_cons_of_mem b ha, hstands⟩

theorem apart (h : Narrows bs cs) (hbs : bs.Pairwise Block.Apart) : cs.Pairwise Block.Apart := by
  induction h with
  | nil => exact .nil
  | @cons b inner bs cs hin hapart hrest ih =>
    obtain ⟨hfirst, hbs⟩ := List.pairwise_cons.mp hbs
    refine List.pairwise_append.mpr ⟨hapart, ih hbs, fun c hc c' hc' => ?_⟩
    obtain ⟨a, ha, hstands⟩ := hrest.exists_around hc'
    exact (hfirst a ha).inner (hin c hc) hstands

theorem of_load {b : Block} {d : Dict Value} (h : b.load = .ok d) : Narrows [b] d.blocks := by
  have hcons : Narrows [b] (d.blocks ++ []) :=
    .cons (fun c hc => (Block.inside_of_load h hc).1) (Block.blocks_apart_of_load h) .nil
  rwa [List.append_nil] at hcons

end Narrows

theorem Value.narrows_materialize {v w : Value} (h : v.materialize = .ok w) : Narrows v.blocks w.blocks := by
  refine induction_materialize (motive := fun v w => Narrows v.blocks w.blocks) ?_ ?_ ?_ ?_ ?_ h
  · exact fun a => .refl _
  · intro items done hitems
    rw [blocks, blocks]
    induction hitems with
    | nil => exact .nil
    | cons hv _ ih => exact hv.append ih
  · exact fun d => .refl _
  · exact fun b d hload => .of_load hload
  · exact fun p => .refl _

theorem Dict.narrows_loadChildren (d : Dict Value) : Narrows d.blocks d.loadChildren.2.blocks := by
  obtain ⟨entries⟩ := d
  show Narrows (blocksEntries entries) (blocksEntries (materializeEntries entries).2)
  induction entries with
  | nil => exact .nil
  | cons entry rest ih =>
    rw [materializeEntries]
    cases hv : entry.2.materialize with
    | error f => exact .refl _
    | ok w => exact (Value.narrows_materialize hv).append ih

/-- One look into a value: at a part of it, into the dictionary it is, with the blocks opened that stand directly in
it, or the same of one thing in it, in its place. -/
inductive Value.Access : Value → Value → Prop
  | part {v u : Value} : u.Part v → Access v u
  | dict {v : Value} {d : Dict Value} : v.dict? = some d → Access v (.dict d)
  | materialize {v w : Value} : v.materialize = .ok w → Access v w
  | children (d : Dict Value) : Access (.dict d) (.dict d.loadChildren.2)
  | item {front back : List Value} {v w : Value} :
      Access v w → Access (.list (front ++ v :: back)) (.list (front ++ w :: back))
  | entry {front back : List (String × Value)} {name : String} {v w : Value} :
      Access v w → Access (.dict ⟨front ++ (name, v) :: back⟩) (.dict ⟨front ++ (name, w) :: back⟩)

theorem Value.Access.narrows {v w : Value} (h : v.Access w) : Narrows v.blocks w.blocks := by
  induction h with
  | part hpart => exact .of_sublist hpart.blocks_sublist
  | @dict v d hd =>
    cases v with
    | dict e =>
      cases hd
      exact .refl _
    | block b => exact .of_load (Value.dict?_block_iff.mp hd)
    | _ => cases hd
  | materialize hw => exact Value.narrows_materialize hw
  | children d => exact d.narrows_loadChildren
  | item _ ih =>
    simp only [Value.blocks, blocksItems_eq, List.flatMap_append, List.flatMap_cons]
    exact (Narrows.refl _).append (ih.append (.refl _))
  | entry _ ih =>
    simp only [Value.blocks, Dict.blocks, blocksEntries_eq, List.flatMap_append, List.flatMap_cons]
    exact (Narrows.refl _).append (ih.append (.refl _))

/-- The blocks in the value are parts of the buffer that do not overlap. -/
structure Value.Laid (bs : Bytes) (v : Value) : Prop where
  stands : ∀ b ∈ v.blocks, b.StandsIn 0 bs
  apart : v.blocks.Pairwise Block.Apart

namespace Value.Laid
variable {bs : Bytes} {v w : Value}

theorem of_decode (h : Value.decode bs = .ok v) : v.Laid bs := by
  obtain ⟨truths, hspells⟩ := Value.spells_of_decode h
  rw [Value.decode_of_spells hspells] at h
  rw [← Except.ok.inj h]
  exact ⟨fun b hb => hspells.blocksIn 0 b (part_of_mem_blocks hb), hspells.blocks_apart 0⟩

theorem of_decode_dict {d : Dict Value} (h : Dict.decode bs = .ok d) : (Value.dict d).Laid bs :=
  ⟨fun _ hc => (Block.inside_of_load (b := ⟨0, bs⟩) h hc).1, Block.blocks_apart_of_load h⟩

theorem access (h : v.Laid bs) (hw : v.Access w) : w.Laid bs := by
  refine ⟨fun c hc => ?_, hw.narrows.apart h.apart⟩
  obtain ⟨b, hb, hstands⟩ := hw.narrows.exists_around hc
  exact hstands.trans (h.stands b hb)

theorem run (h : v.Laid bs) (hw : Relation.ReflTransGen Value.Access v w) : w.Laid bs := by
  induction hw with
  | refl => exact h
  | tail _ hstep ih => exact ih.access hstep

/-- A block is read from where it stands in the buffer. -/
theorem block (h : v.Laid bs) {b : Block} (hb : b ∈ v.blocks) :
    b.stop ≤ bs.length ∧ b.bytes = bs.slice b.offset b.stop ∧ b.load = Dict.loadRange bs b.offset b.stop := by
  have hstands := h.stands b hb
  have hbound := hstands.bounds.2
  rw [Nat.zero_add] at hbound
  have hwhole : bs = bs.slice 0 bs.length := by rw [Bytes.slice, List.take_length, List.drop_zero]
  rw [hwhole] at hstands
  have heq := hstands.eq_ofBuffer (Nat.zero_le _) (Nat.le_refl _)
  refine ⟨hbound, congrArg Block.bytes heq, ?_⟩
  rw [Block.stop, Dict.loadRange_eq (Nat.le_add_right _ _) hbound, ← heq]

end Value.Laid

/-- Any bytes are read or faulted without a look outside them. Whatever is looked at from there on, in any order and
at any depth, holds blocks that are parts of these bytes and do not overlap. Each is read from its own part or is
faulted, what it opens to are blocks strictly inside it that do not overlap, and opening in place does not look outside
either. -/
theorem Value.accessed_inside (bs : Bytes) :
    Value.decode bs ≠ .error .outside ∧ Dict.decode bs ≠ .error .outside ∧
    ∀ v w, (Value.decode bs = .ok v ∨ ∃ d, Dict.decode bs = .ok d ∧ v = .dict d) →
      Relation.ReflTransGen Value.Access v w →
      w.blocks.Pairwise Block.Apart ∧
      (∀ b ∈ w.blocks, b.offset ≤ b.stop ∧ b.stop ≤ bs.length ∧ b.bytes = bs.slice b.offset b.stop ∧
        b.load = Dict.loadRange bs b.offset b.stop ∧ b.load ≠ .error .outside ∧
        ∀ d, b.load = .ok d → d.blocks.Pairwise Block.Apart ∧
          ∀ c ∈ d.blocks, b.offset < c.offset ∧ c.stop ≤ b.stop) ∧
      w.materialize ≠ .error .outside ∧ ∀ d, w = .dict d → d.loadChildren.1 ≠ some .outside := by
  refine ⟨Reader.stays_whole.runFrom_ne rfl, Block.load_ne_outside ⟨0, bs⟩, fun v w hv hw => ?_⟩
  have hlaid : w.Laid bs := by
    rcases hv with hv | ⟨d, hd, rfl⟩
    · exact (Laid.of_decode hv).run hw
    · exact (Laid.of_decode_dict hd).run hw
  refine ⟨hlaid.apart, fun b hb => ?_, fun hfault => ?_, ?_⟩
  · obtain ⟨hstop, hbytes, hload⟩ := hlaid.block hb
    refine ⟨Nat.le_add_right _ _, hstop, hbytes, hload, b.load_ne_outside, fun d hd => ?_⟩
    exact ⟨Block.blocks_apart_of_load hd, fun c hc => (Block.inside_of_load hd hc).2⟩
  · obtain ⟨b, -, hload⟩ := Value.exists_block_of_materialize hfault
    exact b.load_ne_outside hload
  · rintro d - hfault
    obtain ⟨b, -, hload⟩ := Dict.exists_block_of_loadChildren hfault
    exact b.load_ne_outside hload

/-- Two dictionaries side by side. The first holds a third, the second is no block. -/
def besideBytes : Bytes :=
  (⟨[("l", .dict ⟨[("n", .dict ⟨[]⟩)]⟩), ("r", .block ⟨0, [1, 2, 3, 4]⟩)]⟩ : Dict Value).encode

theorem Value.accessed_inside_besideBytes : ∃ d, Dict.decode besideBytes = .ok d ∧
    Relation.ReflTransGen Value.Access (.dict d) (.dict d.loadChildren.2) ∧
    d.loadChildren.2.blocks = [⟨44, (⟨[]⟩ : Dict Value).encode⟩, ⟨66, [1, 2, 3, 4]⟩] ∧
    d.loadChildren.2.blocks.Pairwise Block.Apart ∧ (∀ b ∈ d.loadChildren.2.blocks, b.stop ≤ besideBytes.length) ∧
    d.loadChildren.1 = some (.badMagic 66 67305985) := by
  have hload : Dict.decode besideBytes = .ok
      ⟨[("l", .block ⟨22, (⟨[("n", .dict ⟨[]⟩)]⟩ : Dict Value).encode⟩), ("r", .block ⟨66, [1, 2, 3, 4]⟩)]⟩ := by cbv
  have hrun := Relation.ReflTransGen.single (r := Value.Access) (.children
    ⟨[("l", .block ⟨22, (⟨[("n", .dict ⟨[]⟩)]⟩ : Dict Value).encode⟩), ("r", .block ⟨66, [1, 2, 3, 4]⟩)]⟩)
  obtain ⟨hapart, hblocks, -⟩ := (accessed_inside besideBytes).2.2 _ _ (.inr ⟨_, hload, rfl⟩) hrun
  exact ⟨_, hload, hrun, rfl, hapart, fun b hb => (hblocks b hb).2.1, rfl⟩

end AssetPack
