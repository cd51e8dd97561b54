import AssetPack.Proofs.Codec.Spelled
import AssetPack.Proofs.Tree.Stored
import Mathlib.Data.List.Perm.Subperm

/-!
# Reading and writing again

Whatever bytes are read as a value, writing the value again gives as many bytes, and the same ones
just if each truth value was spelled as it is written. A block comes back just if besides no name
stands twice in it. What was written once is not changed any more by reading and writing it.
-/
namespace AssetPack

theorem Bytes.toNat_lt (bs : Bytes) : bs.toNat < Nat.pow 256 bs.length := by
  have h := toNat_ofNat bs.length bs.toNat
  rw [ofNat_toNat] at h
  have hpos : 0 < Nat.pow 256 bs.length := Nat.pow_pos (by decide)
  have := Nat.mod_lt bs.toNat hpos
  omega

theorem Content.tag_of_ofTag {tag : Nat} {c : Content} (h : ofTag tag = .ok c) : c.tag = tag := by
  unfold ofTag at h
  split at h
  · rename_i hfind
    cases h
    simpa using List.find?_some hfind
  · cases h

theorem Compression.tag_of_ofTag {tag : Nat} {c : Compression} (h : ofTag tag = .ok c) : c.tag = tag := by
  unfold ofTag at h
  split at h
  · rename_i hfind
    cases h
    simpa using List.find?_some hfind
  · cases h

/-! ## What is read is spelled -/

namespace Reader
variable {α : Type} {levels : Nat}

theorem gives_nat_lt (width : Nat) :
    Gives (nat width) fun n used => n < Nat.pow 256 width ∧ used = Bytes.ofNat width n := by
  refine (gives_take width).bind fun bs => .pure ?_
  rintro _ ⟨rfl, hlen⟩
  rw [List.append_nil, ← hlen, Bytes.ofNat_toNat]
  exact ⟨Bytes.toNat_lt _, rfl⟩

theorem gives_run : Gives bytes fun bs used => bs.length < countLimit ∧ used = encodeRun bs := by
  refine (gives_nat_lt 4).bind fun n => (gives_take n).mono ?_
  rintro bs _ ⟨rfl, rfl⟩ _ ⟨hn, rfl⟩
  rw [countLimit_eq]
  exact ⟨hn, rfl⟩

theorem gives_string : Gives text fun s used => TextFits s ∧ used = encodeText s := by
  refine gives_offset.bind fun start => gives_run.bind fun bs => ?_
  split
  · rename_i s hs
    refine .pure ?_
    rintro _ ⟨hlen, rfl⟩ _ rfl
    rw [List.append_nil, List.nil_append, TextFits, encodeText, Bytes.ofString_of_toString? hs]
    exact ⟨hlen, rfl⟩
  · exact .throw _

theorem gives_ofTag {ofTag : Nat → Except Fault α} {tagOf : α → Nat}
    (h : ∀ {tag a}, ofTag tag = .ok a → tagOf a = tag) (tag : Nat) :
    Gives (content.liftExcept (ofTag tag)) fun a used => tagOf a = tag ∧ used = [] := by
  cases htag : ofTag tag with
  | ok a => exact .pure ⟨h htag, rfl⟩
  | error f => exact .throw f

/-- An atom that is no truth value is spelled by its content. -/
theorem Gives.atom {r : Reader α} {P : α → Bytes → Prop} (hr : Gives r P) {k : Kind} (hk : k ≠ .bool)
    {f : α → Atom} (hf : ∀ x used, P x used → (f x).kind = k ∧ (f x).Fits ∧ used = (f x).encode) :
    Gives (do return Value.atom (f (← r))) fun v used =>
      ∃ truths, Spells (levels + 1) v truths (Bytes.ofNat 1 k.tag ++ used) := by
  refine hr.bind fun x => .pure fun used hx => ?_
  obtain ⟨rfl, hfits, rfl⟩ := hf x used hx
  rw [List.append_nil]
  exact ⟨[], .atom hk hfits⟩

theorem gives_spelledItems {item : Reader Value}
    (h : Gives item fun v used => ∃ truths, Spells levels v truths used) (n : Nat) :
    Gives (many item n) fun vs used => vs.length = n ∧ ∃ truths, SpellsItems levels vs truths used := by
  induction n with
  | zero => exact .pure ⟨rfl, [], .nil⟩
  | succ n ih =>
    refine h.bind fun v => ih.bind fun vs => .pure ?_
    rintro more ⟨hlen, truths', hvs⟩ used ⟨truths, hv⟩
    rw [List.append_nil]
    exact ⟨congrArg (· + 1) hlen, truths ++ truths', .cons hv hvs⟩

theorem gives_spelledContent {items : Reader Value}
    (h : Gives items fun v used => ∃ truths, Spells levels v truths used) (k : Kind) :
    Gives (content items k) fun v used =>
      ∃ truths, Spells (levels + 1) v truths (Bytes.ofNat 1 k.tag ++ used) := by
  cases k with
  | null => exact .pure ⟨[], .atom (a := .null) (by decide) trivial⟩
  | bool =>
    refine (gives_nat_lt 1).bind fun n => .pure ?_
    rintro _ ⟨hn, rfl⟩
    have hn : n < 256 := hn
    have hzero : decide (n ≠ 0) = decide (UInt8.ofNat n ≠ 0) := by
      rw [decide_eq_decide, ne_eq, ne_eq, ← UInt8.toNat_inj, UInt8.toNat_ofNat_of_lt' hn]
      rfl
    rw [hzero]
    exact ⟨[UInt8.ofNat n], .truth _⟩
  | int =>
    refine Gives.atom (f := .int) (P := fun (n : Int32) used => used = Bytes.ofNat 4 n.toUInt32.toNat)
      ((gives_nat_lt 4).bind fun n => .pure ?_) (by decide) fun n used hn => ⟨rfl, trivial, hn⟩
    rintro _ ⟨hn, rfl⟩
    have hn : (UInt32.ofNat n).toNat = n := UInt32.toNat_ofNat_of_lt' hn
    rw [List.append_nil, UInt32.toUInt32_toInt32, hn]
  | double =>
    refine Gives.atom (f := .double) (P := fun (d : Double) used => used = Bytes.ofNat 8 d.bits.toNat)
      ((gives_nat_lt 8).bind fun n => .pure ?_) (by decide) fun d used hd => ⟨rfl, trivial, hd⟩
    rintro _ ⟨hn, rfl⟩
    have hn : (UInt64.ofNat n).toNat = n := UInt64.toNat_ofNat_of_lt' hn
    rw [List.append_nil, hn]
  | string => exact gives_string.atom (by decide) fun s used hs => ⟨rfl, hs⟩
  | bytes =>
    refine (gives_nat_lt 8).bind fun n => (gives_take n).bind fun bs => .pure ?_
    rintro _ ⟨rfl, rfl⟩ _ ⟨hn, rfl⟩
    rw [← lengthLimit_eq] at hn
    rw [List.append_nil]
    exact ⟨[], .atom (a := .bytes _) nofun hn⟩
  | struct => exact gives_run.atom (by decide) fun bs used hbs => ⟨rfl, hbs⟩
  | ref => exact gives_string.atom (by decide) fun s used hs => ⟨rfl, hs⟩
  | list =>
    refine (gives_nat_lt 4).bind fun n => (gives_spelledItems h n).bind fun vs => .pure ?_
    rintro used ⟨rfl, truths, hvs⟩ _ ⟨hn, rfl⟩
    rw [← countLimit_eq] at hn
    rw [List.append_nil, ← List.append_assoc]
    exact ⟨truths, .list hn hvs⟩
  | dict =>
    refine (gives_nat_lt 8).bind fun n => gives_offset.bind fun start =>
      (gives_take n).bind fun bs => .pure ?_
    rintro _ ⟨rfl, rfl⟩ _ rfl _ ⟨hn, rfl⟩
    rw [← lengthLimit_eq] at hn
    rw [List.append_nil, List.nil_append]
    exact ⟨[], .block hn⟩
  | saved =>
    refine (gives_nat_lt 1).bind fun c => (gives_ofTag Content.tag_of_ofTag c).bind fun content => ?_
    refine (gives_nat_lt 1).bind fun c => (gives_ofTag Compression.tag_of_ofTag c).bind fun compression => ?_
    refine (gives_nat_lt 8).bind fun length => (gives_nat_lt 8).bind fun n =>
      (gives_take n).bind fun bs => .pure ?_
    rintro stored ⟨rfl, rfl⟩ _ ⟨hn, rfl⟩ _ ⟨hlength, rfl⟩ _ ⟨rfl, rfl⟩ _ ⟨_, rfl⟩ _ ⟨rfl, rfl⟩ _ ⟨_, rfl⟩
    rw [← lengthLimit_eq] at hn
    have hlength : (UInt64.ofNat length).toNat = length := UInt64.toNat_ofNat_of_lt' hlength
    have hencode : Payload.encode ⟨content, compression, UInt64.ofNat length, stored⟩ =
        Bytes.ofNat 1 content.tag ++ ([] ++ (Bytes.ofNat 1 compression.tag ++ ([] ++
          (Bytes.ofNat 8 length ++ (Bytes.ofNat 8 stored.length ++ (stored ++ [])))))) := by
      simp only [Payload.encode, encodeLong, hlength, List.append_nil, List.nil_append, List.append_assoc]
    rw [← hencode]
    exact ⟨[], .saved hn⟩

theorem gives_spelled (levels : Nat) : Gives (value levels) fun v used => ∃ truths, Spells levels v truths used := by
  induction levels with
  | zero => exact gives_offset.bind fun _ => .throw _
  | succ levels ih =>
    refine gives_offset.bind fun start => (gives_nat 1).bind fun tag => ?_
    split
    · rename_i k hk
      refine (gives_spelledContent ih k).mono ?_
      rintro v used hv _ rfl _ rfl
      rwa [List.nil_append, ← Kind.tag_of_ofTag? hk]
    · exact .throw _

theorem gives_spelledEntries (n : Nat) : Gives (many entry n) fun entries used =>
    entries.length = n ∧ ∃ truths, SpellsEntries entries truths used := by
  induction n with
  | zero => exact .pure ⟨rfl, [], .nil⟩
  | succ n ih =>
    have hentry : Gives entry fun entry used => TextFits entry.1 ∧ ∃ truths bs,
        Spells (deepest + 1) entry.2 truths bs ∧ used = encodeText entry.1 ++ bs := by
      refine gives_string.bind fun name => (gives_spelled _).bind fun v => .pure ?_
      rintro bs ⟨truths, hv⟩ _ ⟨hname, rfl⟩
      exact ⟨hname, truths, bs, hv, by rw [List.append_nil]⟩
    refine hentry.bind fun entry => ih.bind fun rest => .pure ?_
    rintro cs ⟨hlen, more, hrest⟩ _ ⟨hname, truths, bs, hv, rfl⟩
    rw [List.append_nil]
    exact ⟨congrArg (· + 1) hlen, truths ++ more, .cons hname hv hrest⟩

theorem gives_entriesOfBlock : Gives entriesOfBlock fun entries used =>
    ∃ truths, SpellsBlock entries truths used := by
  refine gives_offset.bind fun start => (gives_nat 4).bind fun found => ?_
  split
  · exact .throw _
  · rename_i hfound
    obtain rfl : found = blockMagic := Decidable.not_not.mp hfound
    refine (gives_nat_lt 4).bind fun n => (gives_spelledEntries n).mono ?_
    rintro entries cs ⟨rfl, truths, hentries⟩ _ ⟨hn, rfl⟩ _ rfl _ rfl
    rw [← countLimit_eq] at hn
    exact ⟨truths, hn, cs, hentries, by rw [List.nil_append, List.append_assoc]⟩

/-- What a reader that leaves nothing behind has taken are all the bytes. -/
theorem Gives.runFrom {β : Type} {r : Reader α} {P : α → Bytes → Prop} (hr : Gives r P) {g : α → β} {place : Nat}
    {bs : Bytes} {b : β}
    (h : (do let a ← r; atEnd; return g a : Reader β).runFrom ⟨place, bs, true⟩ = .ok b) :
    ∃ a, b = g a ∧ P a bs := by
  simp only [Reader.runFrom, run_bind] at h
  cases hrun : EStateM.run r ⟨place, bs, true⟩ with
  | error f c =>
    rw [hrun] at h
    cases h
  | ok a c =>
    obtain ⟨used, hused, ha⟩ := hr hrun
    have hused : bs = used ++ c.rest := hused
    rw [hrun] at h
    simp only [atEnd, run_bind, EStateM.run_get] at h
    by_cases hleft : c.left = 0
    · rw [hleft] at h
      cases h
      obtain rfl : bs = used := by rw [hused, List.eq_nil_of_length_eq_zero hleft, List.append_nil]
      exact ⟨a, rfl, ha⟩
    · rw [if_pos hleft] at h
      cases h

end Reader

/-- What is spelled is the same as its stored form, for it has no open dictionary in it. -/
theorem Spells.same_stored {levels : Nat} {v : Value} {truths : List UInt8} {bs : Bytes}
    (h : Spells levels v truths bs) (place : Nat) : (v.stored place).same v = true := by
  induction v generalizing levels truths bs place with
  | atom a => simp [Value.same, Value.stored, Tree.same]
  | list items ih =>
    cases h with
    | list _ hitems =>
      rw [Value.same, Value.stored, Value.tree_list, Value.tree_list, Tree.same]
      refine sameItems_stored (fun v hv place => ?_) (place + 5)
      obtain ⟨_, _, hv'⟩ := hitems.mem hv
      exact ih v hv hv' place
  | dict d ih => cases h
  | block b => exact Value.same_block _ _ _
  | saved p => exact Value.same_saved p

theorem Value.spells_of_decode {bs : Bytes} {v : Value} (h : Value.decode bs = .ok v) :
    ∃ truths, Spells (deepest + 1) v truths bs := by
  obtain ⟨_, rfl, hv⟩ := (Reader.gives_spelled _).runFrom (g := id) h
  exact hv

theorem Value.decode_of_spells {bs : Bytes} {v : Value} {truths : List UInt8}
    (h : Spells (deepest + 1) v truths bs) : Value.decode bs = .ok (v.stored 0) :=
  (Reader.reads_spelled h 0).runFrom id

namespace Dict

theorem encode_stored (d : Dict Value) (place : Nat) : (d.stored place).encode = d.encode := by
  rw [encode_eq, encode_eq, stored, encodeEntries_stored, size_mk, Reader.length_placed]
  rfl

theorem subperm_names_ofList (entries : List (String × Value)) :
    (ofList entries).names.Subperm (entries.map (·.1)) := by
  refine (distinct_ofList entries).subperm fun name hname => ?_
  obtain ⟨entry, hentry, rfl⟩ := List.mem_map.mp hname
  exact List.mem_map_of_mem (mem_ofList hentry)

variable {bs : Bytes} {d : Dict Value} {entries : List (String × Value)} {truths : List UInt8}

theorem spells_of_decode (h : Dict.decode bs = .ok d) :
    ∃ entries truths, SpellsBlock entries truths bs ∧ d = Dict.ofList entries := by
  rw [Dict.decode, Block.load, Reader.block_eq] at h
  obtain ⟨entries, rfl, truths, hbs⟩ := Reader.gives_entriesOfBlock.runFrom h
  exact ⟨entries, truths, hbs, rfl⟩

theorem load_of_spells (h : SpellsBlock entries truths bs) (place : Nat) :
    Block.load ⟨place, bs⟩ = .ok (Dict.ofList ((⟨entries⟩ : Dict Value).stored place).entries) := by
  obtain ⟨hcount, cs, hentries, rfl⟩ := h
  have hread : Reader.Reads Reader.entriesOfBlock place
      (Bytes.ofNat 4 blockMagic ++ Bytes.ofNat 4 entries.length ++ cs)
      ((⟨entries⟩ : Dict Value).stored place).entries :=
    (Reader.entriesOfBlock_of_many hcount cs).1 place _ (Reader.reads_spelledEntries hentries (place + 8))
  have hload := hread.runFrom Dict.ofList
  rwa [← Reader.block_eq] at hload

theorem decode_of_spells (h : SpellsBlock entries truths bs) :
    Dict.decode bs = .ok (Dict.ofList ((⟨entries⟩ : Dict Value).stored 0).entries) := load_of_spells h 0

theorem size_ofList_le (entries : List (String × Value)) : (ofList entries).size ≤ entries.length := by
  have hle := (subperm_names_ofList entries).length_le
  simpa [names, size] using hle

/-- No name is lost only where none stands twice. -/
theorem nodup_of_size_ofList {entries : List (String × Value)} (h : (ofList entries).size = entries.length) :
    (entries.map (·.1)).Nodup := by
  have hle : (entries.map (·.1)).length ≤ (ofList entries).names.length := by
    rw [List.length_map, names, List.length_map, ← h]
    exact Nat.le_refl _
  have hperm := (subperm_names_ofList entries).perm_of_length_le hle
  exact hperm.nodup_iff.mp (distinct_ofList entries)

/-- A block is written as it was just if it names its entries apart and spells truth as it is written. -/
theorem encode_eq_iff_of_spells (h : SpellsBlock entries truths bs) (hd : Dict.decode bs = .ok d) :
    d.encode = bs ↔ (entries.map (·.1)).Nodup ∧ ∀ b ∈ truths, IsTruth b := by
  rw [decode_of_spells h] at hd
  cases hd
  obtain ⟨hcount, cs, hentries, rfl⟩ := h
  have hnames := names_stored ⟨entries⟩ 0
  have hlen : ((⟨entries⟩ : Dict Value).stored 0).entries.length = entries.length := Reader.length_placed ..
  have hencode : encodeEntries ((⟨entries⟩ : Dict Value).stored 0).entries = encodeEntries entries :=
    encodeEntries_stored entries 8
  rw [names, names] at hnames
  simp only at hnames
  rw [← hnames, ← hentries.encode_eq_iff, ← hencode]
  generalize ((⟨entries⟩ : Dict Value).stored 0).entries = stored at *
  constructor
  · intro heq
    rw [encode_eq, append_eq_append_iff_of_length (by simp), append_eq_append_iff_of_length (by simp)] at heq
    obtain ⟨⟨-, hsize⟩, heq⟩ := heq
    have hsize : (ofList stored).size = stored.length := by
      have hle := size_ofList_le stored
      have hsize := congrArg Bytes.toNat hsize
      rw [Bytes.toNat_ofNat, Bytes.toNat_ofNat, ← countLimit_eq, Nat.mod_eq_of_lt (by omega),
        Nat.mod_eq_of_lt hcount] at hsize
      omega
    have hnodup := nodup_of_size_ofList hsize
    rw [ofList_of_nodup hnodup] at heq
    exact ⟨hnodup, heq⟩
  · rintro ⟨hnodup, heq⟩
    rw [ofList_of_nodup hnodup, encode_eq, heq, size_mk, hlen]

/-- What was read is read again, the same. -/
theorem decode_encode_of_decode (h : Dict.decode bs = .ok d) : Dict.decode d.encode = .ok (d.stored 0) ∧
    (d.stored 0).sameAs d = true := by
  obtain ⟨entries, truths, ⟨hcount, cs, hentries, -⟩, rfl⟩ := spells_of_decode h
  have hdistinct := distinct_ofList entries
  have hmem : ∀ entry ∈ (ofList entries).entries,
      TextFits entry.1 ∧ ∃ truths bs, Spells (deepest + 1) entry.2 truths bs :=
    fun entry hentry => hentries.mem (mem_ofList hentry)
  constructor
  · obtain ⟨truths, hwritten⟩ := spellsEntries_written hmem
    have hcount : (ofList entries).size < countLimit := Nat.lt_of_le_of_lt (size_ofList_le entries) hcount
    rw [decode_of_spells ⟨hcount, _, hwritten, encode_eq _⟩, ofList_of_nodup]
    have hnames := names_stored (ofList entries) 0
    rw [names] at hnames
    rw [hnames]
    exact hdistinct
  · refine same_stored hdistinct (fun entry hentry place => ?_) 0
    obtain ⟨_, _, _, hv⟩ := hmem entry hentry
    exact hv.same_stored place

end Dict

/-- Whatever bytes are read, writing what was read gives as many of them, and the same ones just if
each truth value outside nested blocks was spelled as it is written. A block is written as it was
just if besides no name stands in it twice. In any case what is written for it is read as the same
dictionary, with the names in their order, and written the same from then on. -/
theorem encode_of_decode :
    (∀ bs v, Value.decode bs = .ok v → v.encode.length = bs.length ∧
      (∃ truths, Spells (deepest + 1) v truths bs) ∧
      ∀ truths, Spells (deepest + 1) v truths bs → (v.encode = bs ↔ ∀ b ∈ truths, IsTruth b)) ∧
    ∀ bs d, Dict.decode bs = .ok d →
      (∃ entries truths, SpellsBlock entries truths bs ∧ d = Dict.ofList entries) ∧
      (∀ entries truths, SpellsBlock entries truths bs →
        (d.encode = bs ↔ (entries.map (·.1)).Nodup ∧ ∀ b ∈ truths, IsTruth b)) ∧
      ∃ e, Dict.decode d.encode = .ok e ∧ e.sameAs d = true ∧ e.names = d.names ∧ e.encode = d.encode := by
  refine ⟨fun bs v hv => ?_, fun bs d hd => ?_⟩
  · obtain ⟨truths, hspells⟩ := Value.spells_of_decode hv
    exact ⟨hspells.length_encode, ⟨truths, hspells⟩, fun _ h => h.encode_eq_iff⟩
  · obtain ⟨hdecode, hsame⟩ := Dict.decode_encode_of_decode hd
    exact ⟨Dict.spells_of_decode hd, fun _ _ h => Dict.encode_eq_iff_of_spells h hd,
      d.stored 0, hdecode, hsame, d.names_stored 0, d.encode_stored 0⟩

/-- A block that says one name twice, and spells truth by a byte that is never written for it. -/
def twiceNamed : Bytes := Bytes.ofNat 4 blockMagic ++ Bytes.ofNat 4 2 ++
  (encodeText "a" ++ (Bytes.ofNat 1 2 ++ [7]) ++ (encodeText "a" ++ (Bytes.ofNat 1 2 ++ [1]) ++ []))

theorem spells_twiceNamed : SpellsBlock [("a", .bool true), ("a", .bool true)] ([7] ++ ([1] ++ [])) twiceNamed :=
  ⟨by decide, _, .cons (by decide) (.truth 7) (.cons (by decide) (.truth 1) .nil), rfl⟩

theorem encode_of_decode_twiceNamed :
    (Value.decode [2, 7] = .ok (.bool true) ∧ (Value.bool true).encode ≠ [2, 7]) ∧
    ∃ d, Dict.decode twiceNamed = .ok d ∧ d.encode ≠ twiceNamed ∧
      ∃ e, Dict.decode d.encode = .ok e ∧ e.sameAs d = true ∧ e.names = d.names ∧ e.encode = d.encode := by
  have hread : Value.decode [2, 7] = .ok (.bool true) := Value.decode_of_spells (.truth 7)
  have hvalue := (encode_of_decode.1 _ _ hread).2.2 [7] (.truth 7)
  have hload := Dict.decode_of_spells spells_twiceNamed
  obtain ⟨-, hblock, hagain⟩ := encode_of_decode.2 _ _ hload
  refine ⟨⟨hread, fun heq => ?_⟩, _, hload, fun heq => ?_, hagain⟩
  · exact absurd (hvalue.mp heq) (by decide)
  · exact absurd ((hblock _ _ spells_twiceNamed).mp heq).1 (by decide)

end AssetPack
