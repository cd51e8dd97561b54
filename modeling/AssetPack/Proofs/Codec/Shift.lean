import AssetPack.Proofs.Codec.Reading
import AssetPack.Proofs.Dict
import AssetPack.Tree

/-!
# Blocks further on

Where a block stands makes no difference to what it opens to, but for the places that are told: the
blocks in it and its faults are placed as much further on as the block is. The law is one of every
reader of the format, and composes along its steps.
-/
namespace AssetPack

mutual

/-- The value with its blocks placed `distance` further on. -/
def Value.moved (distance : Nat) : Value → Value
  | .atom a => .atom a
  | .list items => .list (movedItems distance items)
  | .dict d => .dict (d.moved distance)
  | .block b => .block ⟨b.offset + distance, b.bytes⟩
  | .saved p => .saved p
termination_by structural v => v

def movedItems (distance : Nat) : List Value → List Value
  | [] => []
  | v :: vs => v.moved distance :: movedItems distance vs
termination_by structural vs => vs

/-- The dictionary with the blocks in its entries placed `distance` further on. -/
def Dict.moved (distance : Nat) : Dict Value → Dict Value
  | ⟨entries⟩ => ⟨movedEntries distance entries⟩
termination_by structural d => d

def movedEntries (distance : Nat) : List (String × Value) → List (String × Value)
  | [] => []
  | (name, v) :: rest => (name, v.moved distance) :: movedEntries distance rest
termination_by structural entries => entries

end

theorem movedItems_eq (distance : Nat) (items : List Value) :
    movedItems distance items = items.map (·.moved distance) := by
  induction items with
  | nil => rfl
  | cons v vs ih => rw [movedItems, ih, List.map_cons]

theorem Dict.moved_eq (distance : Nat) (d : Dict Value) : d.moved distance = d.map (·.moved distance) := by
  have h (entries : List (String × Value)) :
      movedEntries distance entries = entries.map fun entry => (entry.1, entry.2.moved distance) := by
    induction entries with
    | nil => rfl
    | cons entry rest ih => rw [movedEntries, ih, List.map_cons]
  obtain ⟨entries⟩ := d
  rw [Dict.moved, h]
  rfl

def Cursor.moved (distance : Nat) (c : Cursor) : Cursor := { c with offset := c.offset + distance }

namespace Reader
variable {α β γ δ : Type} {distance : Nat}

/-- The readers do the same, the second one `distance` further on: their answers correspond by
`f`, and their faults but for the place. -/
def Moves (distance : Nat) (f : α → β) (r : Reader α) (r' : Reader β) : Prop :=
  ∀ c : Cursor, EStateM.run r' (c.moved distance) = match EStateM.run r c with
    | .ok a c => .ok (f a) (c.moved distance)
    | .error e c => .error (e.shift distance) (c.moved distance)

theorem Moves.pure {f : α → β} (a : α) : Moves distance f (Pure.pure a) (Pure.pure (f a)) :=
  fun _ => rfl

theorem Moves.throw {f : α → β} (e : Fault) :
    Moves distance f (MonadExcept.throw e) (MonadExcept.throw (e.shift distance)) := fun _ => rfl

theorem Moves.bind {f : α → β} {g : γ → δ} {r : Reader α} {r' : Reader β} {s : α → Reader γ}
    {s' : β → Reader δ} (hr : Moves distance f r r') (hs : ∀ a, Moves distance g (s a) (s' (f a))) :
    Moves distance g (r >>= s) (r' >>= s') := by
  intro c
  rw [run_bind, run_bind, hr c]
  cases EStateM.run r c with
  | ok a c => exact hs a c
  | error e c => rfl

theorem moves_offset : Moves distance (· + distance) offset offset := fun _ => rfl

theorem moves_take (n : Nat) : Moves distance id (take n) (take n) := by
  intro c
  unfold take
  rw [run_bind, run_bind]
  simp only [EStateM.run_get, Cursor.moved, Cursor.left]
  split
  · rfl
  · split
    · rfl
    · simp only [Nat.add_right_comm c.offset distance n]
      rfl

theorem moves_nat (width : Nat) : Moves distance id (nat width) (nat width) :=
  (moves_take width).bind fun bs => .pure bs.toNat

theorem moves_int32 : Moves distance id int32 int32 :=
  (moves_nat 4).bind fun n => .pure (UInt32.ofNat n).toInt32

theorem moves_double : Moves distance id double double :=
  (moves_nat 8).bind fun n => .pure (Double.mk (UInt64.ofNat n))

theorem moves_bytes : Moves distance id bytes bytes := (moves_nat 4).bind moves_take

theorem moves_text : Moves distance id text text := by
  refine moves_offset.bind fun start => moves_bytes.bind fun bs => ?_
  simp only [id_eq]
  cases bs.toString? with
  | some s => exact .pure s
  | none => exact .throw (.notText start)

theorem moves_many {f : α → β} {item : Reader α} {item' : Reader β}
    (h : Moves distance f item item') (n : Nat) :
    Moves distance (List.map f) (many item n) (many item' n) := by
  induction n with
  | zero => exact .pure []
  | succ n ih => exact h.bind fun a => ih.bind fun as => .pure (a :: as)

theorem moves_atEnd : Moves distance id atEnd atEnd := by
  intro c
  unfold atEnd
  rw [run_bind, run_bind]
  simp only [EStateM.run_get, Cursor.moved, Cursor.left]
  by_cases h : c.rest.length = 0
  · simp only [h, ne_eq, not_true_eq_false, if_false]
    rfl
  · simp only [h, ne_eq, not_false_eq_true, if_true]
    rfl

theorem moves_liftExcept (e : Except Fault α) (h : ∀ f, e = .error f → f.shift distance = f) :
    Moves distance id (content.liftExcept e) (content.liftExcept e) := by
  cases e with
  | ok a => exact .pure a
  | error f =>
    have hthrow : Moves distance id (MonadExcept.throw f : Reader α) (MonadExcept.throw (f.shift distance)) :=
      .throw f
    rwa [h f rfl] at hthrow

theorem shift_contentOfTag (tag : Nat) (f : Fault) (h : Content.ofTag tag = .error f) :
    f.shift distance = f := by
  unfold Content.ofTag at h
  split at h <;> cases h
  rfl

theorem shift_compressionOfTag (tag : Nat) (f : Fault) (h : Compression.ofTag tag = .error f) :
    f.shift distance = f := by
  unfold Compression.ofTag at h
  split at h <;> cases h
  rfl

theorem moves_content {items items' : Reader Value}
    (h : Moves distance (Value.moved distance) items items') (k : Kind) :
    Moves distance (Value.moved distance) (content items k) (content items' k) := by
  cases k with
  | null => exact .pure Value.null
  | bool => exact (moves_nat 1).bind fun n => .pure (Value.bool (n ≠ 0))
  | int => exact moves_int32.bind fun n => .pure (Value.int n)
  | double => exact moves_double.bind fun d => .pure (Value.double d)
  | string => exact moves_text.bind fun s => .pure (Value.string s)
  | bytes => exact (moves_nat 8).bind fun n => (moves_take n).bind fun bs => .pure (Value.bytes bs)
  | list =>
    refine (moves_nat 4).bind fun n => (moves_many h n).bind fun vs => ?_
    have hpure : Moves distance (Value.moved distance) (Pure.pure (Value.list vs))
        (Pure.pure ((Value.list vs).moved distance)) := .pure _
    rwa [Value.moved, movedItems_eq] at hpure
  | dict =>
    exact (moves_nat 8).bind fun n => moves_offset.bind fun start =>
      (moves_take n).bind fun bs => .pure (Value.block ⟨start, bs⟩)
  | struct => exact moves_bytes.bind fun bs => .pure (Value.struct bs)
  | ref => exact moves_text.bind fun s => .pure (Value.ref s)
  | saved =>
    refine (moves_nat 1).bind fun tag => ?_
    refine (moves_liftExcept _ (shift_contentOfTag tag)).bind fun content => ?_
    refine (moves_nat 1).bind fun tag => ?_
    refine (moves_liftExcept _ (shift_compressionOfTag tag)).bind fun compression => ?_
    exact (moves_nat 8).bind fun length => (moves_nat 8).bind fun n =>
      (moves_take n).bind fun bs => .pure (Value.saved ⟨content, compression, UInt64.ofNat length, bs⟩)

theorem moves_value (levels : Nat) :
    Moves distance (Value.moved distance) (value levels) (value levels) := by
  induction levels with
  | zero => exact moves_offset.bind fun place => .throw (.tooDeep deepest place)
  | succ levels ih =>
    refine moves_offset.bind fun start => (moves_nat 1).bind fun tag => ?_
    simp only [id_eq]
    cases Kind.ofTag? tag with
    | some k => exact moves_content ih k
    | none => exact .throw (.unknownKind tag start)

theorem moves_entry : Moves distance (fun entry => (entry.1, entry.2.moved distance)) entry entry :=
  moves_text.bind fun name => (moves_value _).bind fun v => .pure (name, v)

theorem moves_block : Moves distance (Dict.moved distance) block block := by
  refine moves_offset.bind fun start => (moves_nat 4).bind fun found => ?_
  simp only [id_eq]
  split
  · exact fun _ => rfl
  · refine (moves_nat 4).bind fun n => (moves_many moves_entry n).bind fun entries =>
      moves_atEnd.bind fun _ => ?_
    have hpure : Moves distance (Dict.moved distance) (Pure.pure (Dict.ofList entries))
        (Pure.pure ((Dict.ofList entries).moved distance)) := .pure _
    rwa [Dict.moved_eq, Dict.map_ofList] at hpure

end Reader

/-- A block `distance` further on opens to the same, `distance` further on, or is faulted there. -/
theorem Block.load_moved (place distance : Nat) (bs : Bytes) :
    Block.load ⟨place + distance, bs⟩ = match Block.load ⟨place, bs⟩ with
      | .ok d => .ok (d.moved distance)
      | .error f => .error (f.shift distance) := by
  have hmoves : Reader.Moves distance (Dict.moved distance) Reader.block Reader.block :=
    Reader.moves_block
  specialize hmoves ⟨place, bs, true⟩
  simp only [Block.load, Reader.runFrom]
  rw [Cursor.moved] at hmoves
  rw [hmoves]
  cases EStateM.run Reader.block ⟨place, bs, true⟩ <;> rfl

/-- Whether a block opens does not depend on its place. -/
theorem Block.load_isOk (place place' : Nat) (bs : Bytes) :
    (Block.load ⟨place, bs⟩).isOk = (Block.load ⟨place', bs⟩).isOk := by
  have h (place : Nat) : (Block.load ⟨place, bs⟩).isOk = (Block.load ⟨0, bs⟩).isOk := by
    have hmoved := Block.load_moved 0 place bs
    rw [Nat.zero_add] at hmoved
    rw [hmoved]
    cases Block.load ⟨0, bs⟩ <;> rfl
  rw [h place, h place']

theorem Block.isOk_congr {b c : Block} (h : b.bytes = c.bytes) : b.load.isOk = c.load.isOk := by
  obtain ⟨place, bs⟩ := b
  obtain ⟨place', _⟩ := c
  obtain rfl := h
  exact load_isOk place place' bs

end AssetPack
