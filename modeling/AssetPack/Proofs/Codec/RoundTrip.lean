import AssetPack.Proofs.Codec.Form
import AssetPack.Proofs.Codec.Reading

/-!
# Written values are read back

A value that fits the format is read back in its stored form, from any place and with anything
behind it, provided that the lists around its values are not too many for the reader; otherwise
the reader faults on the first value that stands too deep. Both laws are for a reader that allows any
number of levels, because the items of a list are read with one level less than the list.
-/
namespace AssetPack

theorem countLimit_eq : countLimit = Nat.pow 256 4 := by decide

theorem lengthLimit_eq : lengthLimit = Nat.pow 256 8 := by decide

/-- A fault of lists that stand too deep. -/
def Fault.IsTooDeep (f : Fault) : Prop := ∃ offset, f = .tooDeep deepest offset

namespace Reader

/-- The content of an atom is read back. -/
theorem reads_atom (items : Reader Value) (place : Nat) {a : Atom} (hfits : a.Fits) :
    Reads (content items a.kind) place a.encode (.atom a) := by
  cases a with
  | null => exact Reads.pure place _
  | bool b =>
    have hb : (if b then 1 else 0) < Nat.pow 256 1 := by cases b <;> decide
    have hread := (reads_nat place hb).map (g := fun n => Pure.pure (Value.bool (n ≠ 0)))
      (Reads.pure _ _)
    cases b <;> exact hread
  | int n =>
    have hn : n.toUInt32.toNat < Nat.pow 256 4 := n.toUInt32.toNat_lt
    have hread := (reads_nat place hn).map
      (g := fun n => Pure.pure (Value.int (UInt32.ofNat n).toInt32)) (Reads.pure _ _)
    rw [UInt32.ofNat_toNat] at hread
    exact hread
  | double d =>
    have hd : d.bits.toNat < Nat.pow 256 8 := d.bits.toNat_lt
    have hread := (reads_nat place hd).map
      (g := fun n => Pure.pure (Value.double ⟨UInt64.ofNat n⟩)) (Reads.pure _ _)
    rw [UInt64.ofNat_toNat] at hread
    exact hread
  | string s =>
    have hs : (Bytes.ofString s).length < Nat.pow 256 4 := by rw [← countLimit_eq]; exact hfits
    exact (reads_text place hs).map (Reads.pure _ _)
  | bytes bs =>
    have hbs : bs.length < Nat.pow 256 8 := by rw [← lengthLimit_eq]; exact hfits
    exact (reads_nat place hbs).bind ((reads_take _ bs).map (Reads.pure _ _))
  | struct bs =>
    have hbs : bs.length < Nat.pow 256 4 := by rw [← countLimit_eq]; exact hfits
    exact (reads_bytes place hbs).map (Reads.pure _ _)
  | ref name =>
    have hs : (Bytes.ofString name).length < Nat.pow 256 4 := by rw [← countLimit_eq]; exact hfits
    exact (reads_text place hs).map (Reads.pure _ _)

/-- The tag of a kind in front of its content. -/
theorem reads_tagged {levels place : Nat} {k : Kind} {bs : Bytes} {v : Value}
    (h : Reads (content (value levels) k) (place + 1) bs v) :
    Reads (value (levels + 1)) place (Bytes.ofNat 1 k.tag ++ bs) v := by
  have htag : k.tag < Nat.pow 256 1 := by cases k <;> decide
  refine (reads_offset place).silent ((reads_nat _ htag).bind ?_)
  simp only [Kind.ofTag?_tag, Bytes.length_ofNat]
  exact h

theorem faults_tagged {levels place : Nat} {k : Kind} {bs : Bytes} {f : Fault}
    (h : Faults (content (value levels) k) (place + 1) bs f) :
    Faults (value (levels + 1)) place (Bytes.ofNat 1 k.tag ++ bs) f := by
  have htag : k.tag < Nat.pow 256 1 := by cases k <;> decide
  refine (reads_offset place).faults_silent ((reads_nat _ htag).faults_bind ?_)
  simp only [Kind.ofTag?_tag, Bytes.length_ofNat]
  exact h

/-- A block behind its length, whatever is in it. -/
theorem reads_block (items : Reader Value) (place : Nat) {bs : Bytes} (h : bs.length < lengthLimit) :
    Reads (content items .dict) place (encodeLong bs) (.block ⟨place + 8, bs⟩) := by
  rw [lengthLimit_eq] at h
  have hblock : Reads (do let start ← offset; return Value.block ⟨start, ← take bs.length⟩ : Reader Value)
      (place + 8) bs (.block ⟨place + 8, bs⟩) :=
    (reads_offset _).silent ((reads_take _ bs).map (Reads.pure _ _))
  have hlength := reads_nat place h
  refine hlength.bind ?_
  rwa [Bytes.length_ofNat]

theorem ofTag_tag (c : Content) : Content.ofTag c.tag = .ok c := by cases c <;> rfl

theorem compression_ofTag_tag (c : Compression) : Compression.ofTag c.tag = .ok c := by cases c <;> rfl

theorem reads_saved (items : Reader Value) (place : Nat) {p : Payload}
    (h : p.stored.length < lengthLimit) : Reads (content items .saved) place p.encode (.saved p) := by
  rw [lengthLimit_eq] at h
  have hcontent : p.content.tag < Nat.pow 256 1 := by cases p.content <;> decide
  have hcompression : p.compression.tag < Nat.pow 256 1 := by cases p.compression <;> decide
  have hlength : p.length.toNat < Nat.pow 256 8 := p.length.toNat_lt
  unfold Payload.encode
  rw [List.append_assoc, List.append_assoc]
  refine (reads_nat place hcontent).bind ?_
  rw [ofTag_tag]
  refine (Reads.pure _ p.content).silent ?_
  refine (reads_nat _ hcompression).bind ?_
  rw [compression_ofTag_tag]
  refine (Reads.pure _ p.compression).silent ?_
  refine (reads_nat _ hlength).bind ?_
  rw [UInt64.ofNat_toNat]
  exact (reads_nat _ h).bind ((reads_take _ p.stored).map (Reads.pure _ _))

/-- A value that fits is read back if there are enough levels for the lists in it. -/
theorem reads_value {v : Value} (hfits : v.Fits) (hlen : v.encode.length < lengthLimit) {levels : Nat}
    (hlevels : v.lists < levels) (place : Nat) :
    Reads (value levels) place v.encode (v.stored place) := by
  induction v generalizing levels place with
  | atom a =>
    obtain _ | levels := levels
    · cases hlevels
    · simp only [Value.encode, List.length_append, Bytes.length_ofNat] at hlen
      exact reads_tagged (reads_atom _ _ (Atom.fits_of_fitsHere hfits.here (by omega)))
  | list items ih =>
    obtain _ | levels := levels
    · cases hlevels
    · have hcount : items.length < Nat.pow 256 4 := by
        rw [← countLimit_eq]
        exact hfits.here
      rw [length_encode_list] at hlen
      have hitems : ∀ v ∈ items, ∀ place, Reads (value levels) place v.encode (v.stored place) := by
        intro v hv
        have hmem := length_encode_le_of_mem hv
        have hlists := lists_lt_listsAround hv
        simp only [Value.lists] at hlevels
        exact ih v hv (((Value.each_list items).mp hfits).2 v hv) (by omega) (by omega)
      have hread := (reads_nat (place + 1) hcount).bind (g := fun n => do
        return Value.list (← many (value levels) n)) ((reads_many _ hitems).map (Reads.pure _ _))
      rw [Bytes.length_ofNat, Nat.add_assoc, ← encodeItems_eq, ← storedItems_eq] at hread
      have hvalue := reads_tagged (k := .list) hread
      rwa [← List.append_assoc] at hvalue
  | dict d ih =>
    obtain _ | levels := levels
    · cases hlevels
    · rw [length_encode_dict] at hlen
      exact reads_tagged (reads_block _ _ (by omega))
  | block b =>
    obtain _ | levels := levels
    · cases hlevels
    · simp only [Value.encode, encodeLong, List.length_append, Bytes.length_ofNat] at hlen
      exact reads_tagged (reads_block _ _ (by omega))
  | saved p =>
    obtain _ | levels := levels
    · cases hlevels
    · simp only [Value.encode, Payload.encode, encodeLong, List.length_append, Bytes.length_ofNat] at hlen
      exact reads_tagged (reads_saved _ _ (by omega))

/-- A value that fits is faulted if there are not enough levels for the lists in it. -/
theorem faults_value {v : Value} (hfits : v.Fits) (hlen : v.encode.length < lengthLimit) {levels : Nat}
    (hlevels : levels ≤ v.lists) (place : Nat) :
    ∃ f, f.IsTooDeep ∧ Faults (value levels) place v.encode f := by
  induction v generalizing levels place with
  | list items ih =>
    obtain _ | levels := levels
    · exact ⟨_, ⟨place, rfl⟩, fun rest => ⟨_, rfl⟩⟩
    · have hcount : items.length < Nat.pow 256 4 := by
        rw [← countLimit_eq]
        exact hfits.here
      rw [length_encode_list] at hlen
      have hparts := ((Value.each_list items).mp hfits).2
      have hlength : ∀ v ∈ items, v.encode.length < lengthLimit := by
        intro v hv
        have := length_encode_le_of_mem hv
        omega
      have hdeep : ∃ v ∈ items, ¬v.lists < levels := by
        simp only [Value.lists] at hlevels
        obtain ⟨v, hv, heq⟩ := exists_listsAround (by omega : 0 < listsAround items)
        exact ⟨v, hv, by omega⟩
      obtain ⟨f, hf, hfault⟩ := faults_many (place + 5)
        (fun v hv hlt => reads_value (hparts v hv) (hlength v hv) hlt)
        (fun v hv hle => ih v hv (hparts v hv) (hlength v hv) (Nat.not_lt.mp hle)) hdeep
      refine ⟨f, hf, ?_⟩
      have hlist := (reads_nat (place + 1) hcount).faults_bind (g := fun n => do
        return Value.list (← many (value levels) n))
        (by rw [Bytes.length_ofNat]; exact hfault.bind _)
      rw [← encodeItems_eq] at hlist
      have hvalue := faults_tagged (k := .list) hlist
      rwa [← List.append_assoc] at hvalue
  | _ =>
    obtain rfl : levels = 0 := Nat.le_zero.mp hlevels
    exact ⟨_, ⟨place, rfl⟩, fun rest => ⟨_, rfl⟩⟩

/-- The entries of a block, behind its mark and their number. -/
def entriesOfBlock : Reader (List (String × Value)) := do
  let start ← offset
  let found ← nat 4
  if found ≠ blockMagic then throw (.badMagic start found)
  many entry (← nat 4)

theorem block_eq : block = (do
    let entries ← entriesOfBlock
    atEnd
    return Dict.ofList entries) := by
  simp only [block, entriesOfBlock, bind_assoc]
  congr 1
  funext start
  congr 1
  funext found
  split
  · rfl
  · rw [bind_assoc]

theorem reads_entry {entry : String × Value} (hname : TextFits entry.1) (hfits : entry.2.Fits)
    (hlen : entry.2.encode.length < lengthLimit) (hlists : entry.2.lists ≤ deepest) (place : Nat) :
    Reads Reader.entry place (encodeEntry entry) (storedEntry place entry) := by
  have hname : (Bytes.ofString entry.1).length < Nat.pow 256 4 := by rw [← countLimit_eq]; exact hname
  exact (reads_text place hname).bind
    ((reads_value hfits hlen (Nat.lt_succ_of_le hlists) _).map (Reads.pure _ _))

theorem faults_entry {entry : String × Value} (hname : TextFits entry.1) (hfits : entry.2.Fits)
    (hlen : entry.2.encode.length < lengthLimit) (hlists : ¬entry.2.lists ≤ deepest) (place : Nat) :
    ∃ f, f.IsTooDeep ∧ Faults Reader.entry place (encodeEntry entry) f := by
  have hname : (Bytes.ofString entry.1).length < Nat.pow 256 4 := by rw [← countLimit_eq]; exact hname
  obtain ⟨f, hf, hfault⟩ := faults_value hfits hlen (Nat.not_le.mp hlists)
    (place + (encodeText entry.1).length)
  exact ⟨f, hf, (reads_text place hname).faults_bind (hfault.bind _)⟩

/-- The mark and the number of entries are passed over. -/
theorem entriesOfBlock_of_many {n : Nat} (hcount : n < countLimit) (cs : Bytes) :
    (∀ place as, Reads (many entry n) (place + 8) cs as →
      Reads entriesOfBlock place (Bytes.ofNat 4 blockMagic ++ Bytes.ofNat 4 n ++ cs) as) ∧
    ∀ place f, Faults (many entry n) (place + 8) cs f →
      Faults entriesOfBlock place (Bytes.ofNat 4 blockMagic ++ Bytes.ofNat 4 n ++ cs) f := by
  rw [countLimit_eq] at hcount
  have hmagic : blockMagic < Nat.pow 256 4 := by
    show 0x54434452 < 4294967296
    omega
  rw [List.append_assoc]
  constructor
  · intro place as hmany
    refine (reads_offset place).silent ((reads_nat _ hmagic).bind ?_)
    rw [if_neg (fun hne => hne rfl)]
    exact (reads_nat _ hcount).bind hmany
  · intro place f hmany
    refine (reads_offset place).faults_silent ((reads_nat _ hmagic).faults_bind ?_)
    rw [if_neg (fun hne => hne rfl)]
    exact (reads_nat _ hcount).faults_bind hmany

end Reader

namespace Value

/-- A value whose lists are not too many is read back whole. -/
theorem decode_encode_of_lists_le {v : Value} (hfits : v.Fits) (hlen : v.encode.length < lengthLimit)
    (hlists : v.lists ≤ deepest) : Value.decode v.encode = .ok (v.stored 0) :=
  (Reader.reads_value hfits hlen (Nat.lt_succ_of_le hlists) 0).runFrom id

/-- A value whose lists are too many is not. -/
theorem decode_encode_of_lt_lists {v : Value} (hfits : v.Fits) (hlen : v.encode.length < lengthLimit)
    (hlists : deepest < v.lists) : ∃ f, f.IsTooDeep ∧ Value.decode v.encode = .error f := by
  obtain ⟨f, hf, hfault⟩ := Reader.faults_value hfits hlen hlists 0
  exact ⟨f, hf, (hfault.bind _).runFrom⟩

end Value

namespace Block

/-- What a dictionary that fits says of its entries. -/
theorem entry_fits {d : Dict Value} (hfits : (Value.dict d).Fits) (hlen : d.encode.length < lengthLimit)
    {entry : String × Value} (h : entry ∈ d.entries) :
    TextFits entry.1 ∧ entry.2.Fits ∧ entry.2.encode.length < lengthLimit := by
  have hparts := (Value.each_dict d).mp hfits
  have hle := length_encode_le_of_mem_entries h
  rw [Dict.length_encode] at hlen
  exact ⟨hparts.1.2 _ (List.mem_map_of_mem h), hparts.2 _ h, by omega⟩

/-- A dictionary is read back from its block if the lists of its entries are not too many. -/
theorem load_encode_of_lists_le {d : Dict Value} (hfits : (Value.dict d).Fits)
    (hlen : d.encode.length < lengthLimit) (hdistinct : d.Distinct)
    (hlists : ∀ entry ∈ d.entries, entry.2.lists ≤ deepest) (place : Nat) :
    Block.load ⟨place, d.encode⟩ = .ok (d.stored place) := by
  have hmany : Reader.Reads (Reader.many Reader.entry d.size) (place + 8)
      (d.entries.flatMap encodeEntry) (d.stored place).entries := by
    refine Reader.reads_many _ fun entry hentry => ?_
    obtain ⟨hname, hvalue, hshort⟩ := entry_fits hfits hlen hentry
    exact Reader.reads_entry hname hvalue hshort (hlists _ hentry)
  rw [← encodeEntries_eq] at hmany
  have hread := (Reader.entriesOfBlock_of_many hfits.here.1 _).1 place _ hmany
  have hload := hread.runFrom Dict.ofList
  rw [← Reader.block_eq, ← Dict.encode_eq] at hload
  have hnodup : ((d.stored place).entries.map (·.1)).Nodup := by
    have hnames := d.names_stored place
    rw [Dict.names] at hnames
    rw [hnames]
    exact hdistinct
  rw [Block.load, hload, Dict.ofList_of_nodup hnodup]

/-- It is not if they are. -/
theorem load_encode_of_lt_lists {d : Dict Value} (hfits : (Value.dict d).Fits)
    (hlen : d.encode.length < lengthLimit) (hlists : ∃ entry ∈ d.entries, ¬entry.2.lists ≤ deepest)
    (place : Nat) : ∃ f, f.IsTooDeep ∧ Block.load ⟨place, d.encode⟩ = .error f := by
  have hreads : ∀ entry ∈ d.entries, entry.2.lists ≤ deepest → ∀ place,
      Reader.Reads Reader.entry place (encodeEntry entry) (storedEntry place entry) := by
    intro entry hentry hle
    obtain ⟨hname, hvalue, hshort⟩ := entry_fits hfits hlen hentry
    exact Reader.reads_entry hname hvalue hshort hle
  have hmany : ∃ f, f.IsTooDeep ∧ Reader.Faults (Reader.many Reader.entry d.size) (place + 8)
      (d.entries.flatMap encodeEntry) f := by
    refine Reader.faults_many _ hreads (fun entry hentry hlt => ?_) hlists
    obtain ⟨hname, hvalue, hshort⟩ := entry_fits hfits hlen hentry
    exact Reader.faults_entry hname hvalue hshort hlt
  rw [← encodeEntries_eq] at hmany
  obtain ⟨f, hf, hfault⟩ := hmany
  have hread := (Reader.entriesOfBlock_of_many hfits.here.1 _).2 place f hfault
  have hload := (hread.bind fun entries => do Reader.atEnd; return Dict.ofList entries).runFrom
  rw [← Reader.block_eq, ← Dict.encode_eq] at hload
  exact ⟨f, hf, hload⟩

end Block
end AssetPack
