import AssetPack.Codec.Writer
import AssetPack.Proofs.Command.Failing
import AssetPack.Proofs.Description.Compiled
import AssetPack.Proofs.Pack.Combined

/-!
# Where the entries of a pack stand

A pack is written from front to back, and the values of its entries lie one behind the other, each behind its name. The
places that are noted meanwhile are those in the file. A command that shows a pack writes it once more, as it was read
and opened in its place; a pack that a command has written comes out of that with the same bytes, at the same places.
-/
namespace AssetPack

/-! ## Writing with slots -/

namespace Writer

theorem append_append (w : Writer) (bs cs : Bytes) : (w.append bs).append cs = w.append (bs ++ cs) :=
  congrArg mk (List.append_assoc ..)

theorem nat_eq (w : Writer) (width n : Nat) : w.nat width n = w.append (Bytes.ofNat width n) := rfl

theorem text_eq (w : Writer) (s : String) : w.text s = w.append (encodeText s) := append_append ..

@[simp] theorem offset_append (w : Writer) (bs : Bytes) : (w.append bs).offset = w.offset + bs.length :=
  List.length_append

/-- A slot takes the length of what was appended behind it. -/
theorem patch?_append (w : Writer) (bs : Bytes) :
    ((w.nat 8 0).append bs).patch? w.offset bs.length = some (w.append (encodeLong bs)) := by
  have hfits : w.offset + 8 ≤ ((w.nat 8 0).append bs).offset := by
    simp only [nat_eq, offset_append, Bytes.length_ofNat]
    omega
  have hfront : (w.bytes ++ Bytes.ofNat 8 0 ++ bs).take w.offset = w.bytes := by
    rw [List.append_assoc]
    exact List.take_left
  have hback : (w.bytes ++ Bytes.ofNat 8 0 ++ bs).drop (w.offset + 8) = bs := by
    have hslot : w.offset + 8 = (w.bytes ++ Bytes.ofNat 8 0).length := by
      rw [List.length_append, Bytes.length_ofNat, offset]
    rw [hslot, List.drop_left]
  rw [patch?, if_pos hfits]
  simp only [nat, append, hfront, hback]
  rw [encodeLong, List.append_assoc]

variable {items : List Value} {entries : List (String × Value)}

theorem items?_eq (h : ∀ v ∈ items, ∀ w : Writer, w.value? v = some (w.append v.encode)) (w : Writer) :
    w.items? items = some (w.append (encodeItems items)) := by
  induction items generalizing w with
  | nil => exact congrArg some (congrArg mk (List.append_nil _).symm)
  | cons v vs ih =>
    obtain ⟨hv, hvs⟩ := List.forall_mem_cons.mp h
    rw [items?, hv]
    dsimp only
    rw [ih hvs, append_append, encodeItems]

theorem entries?_eq (h : ∀ entry ∈ entries, ∀ w : Writer, w.value? entry.2 = some (w.append entry.2.encode))
    (w : Writer) : w.entries? entries = some (locationsFrom w.offset entries, w.append (encodeEntries entries)) := by
  induction entries generalizing w with
  | nil => exact congrArg (fun bs => some ([], mk bs)) (List.append_nil _).symm
  | cons entry rest ih =>
    obtain ⟨name, v⟩ := entry
    obtain ⟨hv, hrest⟩ := List.forall_mem_cons.mp h
    rw [entries?, hv]
    dsimp only
    rw [ih hrest, text_eq]
    simp only [offset_append, append_append, encodeEntries, locationsFrom, List.append_assoc, List.length_append,
      Nat.add_sub_add_left, Nat.add_sub_cancel_left, Nat.add_assoc]

theorem dict?_eq {d : Dict Value}
    (h : ∀ entry ∈ d.entries, ∀ w : Writer, w.value? entry.2 = some (w.append entry.2.encode)) (w : Writer) :
    w.dict? d = some (locationsFrom (w.offset + 8) d.entries, w.append d.encode) := by
  obtain ⟨entries⟩ := d
  rw [dict?, entries?_eq h]
  simp only [nat_eq, offset_append, append_append, List.length_append, Bytes.length_ofNat, Dict.encode]

/-- Every slot is filled, and what is appended is the written form of the value. -/
theorem value?_eq (v : Value) (w : Writer) : w.value? v = some (w.append v.encode) := by
  induction v generalizing w with
  | atom a => exact congrArg some (append_append ..)
  | list items ih =>
    rw [value?, items?_eq ih]
    simp only [nat_eq, append_append, Value.encode]
  | dict d ih =>
    simp only [value?, reserve, dict?_eq ih, offset_append, Nat.add_sub_cancel_left, patch?_append]
    rw [nat_eq, append_append, Value.encode]
  | block b =>
    simp only [value?, reserve, offset_append, Nat.add_sub_cancel_left, patch?_append]
    rw [nat_eq, append_append, Value.encode]
  | saved p => exact congrArg some (append_append ..)

end Writer

/-- A pack is written from the start, and the places of its entries are noted. -/
theorem Dict.written (d : Dict Value) : Writer.empty.dict? d = some (d.locations, ⟨d.encode⟩) :=
  Writer.dict?_eq (fun _ _ => Writer.value?_eq _) _

/-! ## The places in a block -/

/-- Where the value at a location ends. -/
def Location.stop (l : Location) : Nat := l.offset + l.size

/-- Where the last value ends, or `place` if there is none. -/
def lastStop (place : Nat) (ls : List Location) : Nat := (ls.getLast?.map Location.stop).getD place

section
variable {place i : Nat} {entries : List (String × Value)}

theorem lastStop_cons (place : Nat) (l : Location) (ls : List Location) :
    lastStop place (l :: ls) = lastStop l.stop ls := by
  rw [lastStop, lastStop, List.getLast?_cons]
  cases ls.getLast? <;> rfl

theorem lastStop_locationsFrom (place : Nat) (entries : List (String × Value)) :
    lastStop place (locationsFrom place entries) = place + (encodeEntries entries).length := by
  induction entries generalizing place with
  | nil => rfl
  | cons entry rest ih =>
    rw [locationsFrom, lastStop_cons]
    refine (ih _).trans ?_
    rw [encodeEntries, List.length_append, List.length_append, Location.stop]
    simp only [Nat.add_assoc]

theorem take_locationsFrom (place i : Nat) (entries : List (String × Value)) :
    (locationsFrom place entries).take i = locationsFrom place (entries.take i) := by
  induction entries generalizing place i with
  | nil => rw [locationsFrom, List.take_nil, List.take_nil, locationsFrom]
  | cons entry rest ih =>
    cases i with
    | zero => rfl
    | succ i => rw [locationsFrom, List.take_succ_cons, List.take_succ_cons, ih, locationsFrom]

theorem names_locationsFrom (place : Nat) (entries : List (String × Value)) :
    (locationsFrom place entries).map (·.name) = entries.map (·.1) := by
  induction entries generalizing place with
  | nil => rfl
  | cons entry rest ih => rw [locationsFrom, List.map_cons, ih, List.map_cons]

/-- Each value stands behind its name, and the name where the values before it end. -/
theorem getElem?_locationsFrom (place i : Nat) (entries : List (String × Value)) :
    (locationsFrom place entries)[i]? = entries[i]?.map fun entry =>
      ⟨entry.1, lastStop place (locationsFrom place (entries.take i)) + (encodeText entry.1).length,
        entry.2.encode.length⟩ := by
  induction entries generalizing place i with
  | nil => rfl
  | cons entry rest ih =>
    cases i with
    | zero => rfl
    | succ i =>
      rw [locationsFrom, List.getElem?_cons_succ, ih, List.getElem?_cons_succ, List.take_succ_cons, locationsFrom,
        lastStop_cons]
      rfl

theorem length_encodeText (s : String) : (encodeText s).length = 4 + (Bytes.ofString s).length := by
  rw [encodeText, encodeRun, List.length_append, Bytes.length_ofNat]

theorem lt_offset_of_mem {l : Location} (h : l ∈ locationsFrom place entries) : place < l.offset := by
  induction entries generalizing place with
  | nil => cases h
  | cons entry rest ih =>
    have hname := length_encodeText entry.1
    rcases List.mem_cons.mp h with rfl | h
    · dsimp only
      omega
    · have := ih h
      omega

theorem pairwise_locationsFrom (place : Nat) (entries : List (String × Value)) :
    (locationsFrom place entries).Pairwise fun l l' => l.stop < l'.offset := by
  induction entries generalizing place with
  | nil => exact .nil
  | cons entry rest ih => exact .cons (fun l hl => lt_offset_of_mem hl) (ih _)

end

/-- A run of bytes between others. -/
theorem Bytes.slice_append (front bs back : Bytes) :
    (front ++ bs ++ back).slice front.length (front.length + bs.length) = bs := by
  rw [slice, ← List.length_append, List.take_left, List.drop_left]

/-- These are the places of the entries of a dictionary in the bytes of its block. -/
structure Dict.Located (d : Dict Value) (bs : Bytes) (ls : List Location) : Prop where
  /-- one for each entry, in their order -/
  names : ls.map (·.name) = d.names
  /-- the mark and the number of entries come first -/
  head : bs.slice 0 8 = Bytes.ofNat 4 blockMagic ++ Bytes.ofNat 4 d.size
  /-- then each entry begins where those before it end, with its name and then its value -/
  entry : ∀ i (entry : String × Value) (l : Location), d.entries[i]? = some entry → ls[i]? = some l →
    l.offset = lastStop 8 (ls.take i) + (encodeText entry.1).length ∧
      bs.slice (lastStop 8 (ls.take i)) l.offset = encodeText entry.1 ∧
      l.size = entry.2.encode.length ∧ bs.slice l.offset l.stop = entry.2.encode
  apart : ls.Pairwise fun l l' => l.stop < l'.offset
  /-- and with the last one the bytes end -/
  last : lastStop 8 ls = bs.length

/-- An entry is written behind those before it, and those after it follow. -/
theorem Dict.exists_encode_eq {d : Dict Value} {i : Nat} {entry : String × Value} (h : d.entries[i]? = some entry) :
    ∃ front back, front.length = 8 + (encodeEntries (d.entries.take i)).length ∧
      d.encode = front ++ encodeText entry.1 ++ entry.2.encode ++ back := by
  obtain ⟨hi, rfl⟩ := List.getElem?_eq_some_iff.mp h
  refine ⟨Bytes.ofNat 4 blockMagic ++ Bytes.ofNat 4 d.size ++ encodeEntries (d.entries.take i),
    encodeEntries (d.entries.drop (i + 1)), ?_, ?_⟩
  · simp only [List.length_append, Bytes.length_ofNat]
  · have hsplit : d.entries = d.entries.take i ++ d.entries[i] :: d.entries.drop (i + 1) := by
      rw [← List.drop_eq_getElem_cons, List.take_append_drop]
    have hencode : encodeEntries d.entries = encodeEntries (d.entries.take i) ++
        (encodeText d.entries[i].1 ++ d.entries[i].2.encode ++ encodeEntries (d.entries.drop (i + 1))) := by
      conv_lhs => rw [hsplit]
      simp only [encodeEntries_eq, List.flatMap_append, List.flatMap_cons, encodeEntry]
    rw [encode_eq, hencode]
    simp only [List.append_assoc]

theorem Dict.located (d : Dict Value) : d.Located d.encode d.locations where
  names := names_locationsFrom 8 d.entries
  head := by
    have hslice := Bytes.slice_append [] (Bytes.ofNat 4 blockMagic ++ Bytes.ofNat 4 d.size) (encodeEntries d.entries)
    rw [List.nil_append, ← d.encode_eq, List.length_append, Bytes.length_ofNat, Bytes.length_ofNat] at hslice
    exact hslice
  entry := by
    intro i entry l hentry hl
    rw [locations, getElem?_locationsFrom, hentry] at hl
    cases hl
    rw [locations, take_locationsFrom, lastStop_locationsFrom]
    obtain ⟨front, back, hfront, hencode⟩ := exists_encode_eq hentry
    rw [hencode, ← hfront]
    refine ⟨rfl, ?_, rfl, ?_⟩
    · rw [List.append_assoc]
      exact Bytes.slice_append front (encodeText entry.1) (entry.2.encode ++ back)
    · dsimp only [Location.stop]
      rw [← List.length_append]
      exact Bytes.slice_append (front ++ encodeText entry.1) entry.2.encode back
  apart := pairwise_locationsFrom 8 d.entries
  last := by rw [locations, lastStop_locationsFrom, length_encode]

/-! ## Packs that are read back in their file -/

/-- What comes of the things that are read back comes of the things that were written, if it does so one by one. -/
theorem forall₂_of_placed {α β γ : Type} {enc : γ → Bytes} {back : Nat → γ → α} {R : α → β → Prop} {Q : β → γ → Prop}
    {xs : List γ} (hback : ∀ x ∈ xs, ∀ place y, R (back place x) y → Q y x) {place : Nat} {ys : List β}
    (h : List.Forall₂ R (Reader.placed enc back place xs) ys) : List.Forall₂ Q ys xs := by
  induction xs generalizing place ys with
  | nil =>
    cases h
    exact .nil
  | cons x xs ih =>
    obtain ⟨hx, hxs⟩ := List.forall_mem_cons.mp hback
    cases h with
    | cons hfirst hrest => exact .cons (hx _ _ hfirst) (ih hxs hrest)

/-- What is open opens to the same again, once it was written and is read. -/
theorem Value.alike_of_materialize_stored {v w : Value} (hopen : v.materialize = .ok v) (hfits : v.Fits)
    (hlen : v.encode.length < lengthLimit) (hdistinct : v.Distinct) {place : Nat}
    (h : (v.stored place).materialize = .ok w) : w.Alike v := by
  induction v generalizing w place with
  | atom a =>
    cases h
    rfl
  | list items ih =>
    obtain ⟨_, hopens, ⟨⟩⟩ := materialize_list_iff.mp hopen
    obtain ⟨done, hdone, rfl⟩ := materialize_list_iff.mp h
    rw [length_encode_list] at hlen
    have halike : List.Forall₂ Alike done items := by
      rw [storedItems_eq] at hdone
      refine forall₂_of_placed (fun v hv place w hw => ?_) hdone
      have hshort := length_encode_le_of_mem hv
      exact ih v hv (List.forall₂_same.mp hopens v hv) (((each_list items).mp hfits).2 v hv) (by omega)
        (distinct_list.mp hdistinct v hv) hw
    rw [Alike, stored, stored, alike_storedItems.mpr halike]
  | dict d =>
    obtain ⟨e, hload, rfl⟩ := materialize_block_iff.mp h
    rw [length_encode_dict] at hlen
    have he : e = d.stored (place + 9) :=
      eq_stored_of_load hfits (by omega) (distinct_dict.mp hdistinct).1 hload
    rw [Alike, stored, stored, he, Dict.encode_stored]
  | block b =>
    obtain ⟨_, -, ⟨⟩⟩ := materialize_block_iff.mp hopen
  | saved p =>
    cases h
    rfl

namespace Dict
variable {d e x : Dict Value}

/-- So does an open pack, if its file can be read and opened at all. -/
theorem alike_of_opened (hopen : Pack.opened d = .ok d) (hdistinct : (Value.dict d).Distinct)
    (hfits : (Value.dict d).Fits) (hlen : d.encode.length < lengthLimit) (hread : Dict.decode d.encode = .ok x)
    (hagain : Pack.opened x = .ok e) : e.Alike d := by
  obtain ⟨hd, hentries⟩ := Value.distinct_dict.mp hdistinct
  have hx : x = d.stored 0 := Value.eq_stored_of_load hfits hlen hd hread
  rw [hx] at hagain
  refine alike_iff.mpr (forall₂_of_placed (fun entry hentry place entry' h => ?_) (Pack.opened_eq_ok_iff.mp hagain))
  obtain ⟨-, hfitsEntry, hlenEntry⟩ := Block.entry_fits hfits hlen hentry
  exact ⟨h.1.symm, Value.alike_of_materialize_stored (Pack.opened_self_iff.mp hopen entry hentry) hfitsEntry hlenEntry
    (hentries entry hentry) h.2⟩

/-- Packs that are alike have their entries at the same places. -/
theorem Alike.locations (h : d.Alike e) : d.locations = e.locations := by
  have hfrom (place : Nat) {entries entries' : List (String × Value)}
      (h : List.Forall₂ (fun a b : String × Value => a.1 = b.1 ∧ a.2.Alike b.2) entries entries') :
      locationsFrom place entries = locationsFrom place entries' := by
    induction h generalizing place with
    | nil => rfl
    | cons hfirst _ ih => rw [locationsFrom, locationsFrom, hfirst.1, hfirst.2.encode, ih]
  exact hfrom 8 (alike_iff.mp h)

end Dict

/-! ## Packs that are written -/

namespace Value

theorem Of.materialize {V : Vocabulary} {v : Value} (h : v.Of V) : v.materialize = .ok v := by
  induction v with
  | list items ih =>
    have hitems : List.Forall₂ (fun v w => v.materialize = .ok w) items items :=
      List.forall₂_same.mpr fun v hv => ih v hv (of_list.mp h v hv)
    exact materialize_list_iff.mpr ⟨items, hitems, rfl⟩
  | block b => exact (not_of_block h).elim
  | _ => rfl

end Value

/-- What a script writes: the path and the bytes. -/
def Action.write? : Action → Option (Path × Bytes)
  | .write p bs => some (p, bs)
  | _ => none

/-- The first file that a script writes. -/
def FileSystem.firstWrite? {S α : Type} (m : FileSystem S) (s : S) (x : Script α) : Option (Path × Bytes) :=
  (m.actions s x).findSome? Action.write?

namespace Command
variable {S α β : Type} {m : FileSystem S} {s : S} {t : Transcript} {file : Path × Bytes}

/-- The first file that a command in progress writes. -/
def firstWrite? (m : FileSystem S) (s : S) (x : Acting α) (t : Transcript) : Option (Path × Bytes) :=
  m.firstWrite? s (x.run.run t).run

theorem firstWrite?_bind (x : Acting α) (f : α → Acting β) : firstWrite? m s (x >>= f) t =
    (firstWrite? m s x t).or (match exec m s x t with
      | (some (.ok a, t'), s') => firstWrite? m s' (f a) t'
      | _ => none) := by
  have hrun : (x >>= f).run.run t = x.run.run t >>= fun r => (ExceptT.bindCont f r.1).run r.2 := rfl
  rw [firstWrite?, hrun, OptionT.run_bind, Option.elimM, FileSystem.firstWrite?, m.actions_bind, List.findSome?_append,
    exec]
  refine congrArg (Option.or _) ?_
  rcases m.run s (x.run.run t).run with ⟨_ | ⟨_ | a, t'⟩, s'⟩ <;> rfl

theorem firstWrite?_optionT (y : OptionT Script α) :
    firstWrite? m s (liftM y : Acting α) t = m.firstWrite? s y.run := by
  have hrun : (liftM y : Acting α).run.run t = (y >>= fun a => pure (a, t)) >>= fun r => pure (.ok r.1, r.2) := rfl
  rw [firstWrite?, hrun, OptionT.run_bind, OptionT.run_bind]
  simp only [Option.elimM, FileSystem.firstWrite?, m.actions_bind, List.findSome?_append, m.run_bind]
  rcases m.run s y.run with ⟨_ | a, s'⟩ <;> exact (congrArg (Option.or · _) Option.or_none).trans Option.or_none

theorem firstWrite?_toScript (x : Look α) : m.firstWrite? s x.toScript = none := by
  rw [FileSystem.firstWrite?, m.actions_toScript, List.findSome?_eq_none_iff]
  rintro _ h
  obtain ⟨q, -, rfl⟩ := List.mem_map.mp h
  rfl

theorem exec_look (x : Look α) : exec m s (liftM x : Acting α) t = (some (.ok (x.eval (m.files s)), t), s) := by
  have hrun := exec_look_bind (m := m) (s := s) (t := t) x pure
  rwa [bind_pure] at hrun

/-- What is reported in the end writes no file. -/
theorem firstWrite?_report (x : Acting Unit) : m.firstWrite? s x.report.run = firstWrite? m s x .empty := by
  rw [Running.report, OptionT.run_bind, Option.elimM, FileSystem.firstWrite?, m.actions_bind, List.findSome?_append,
    firstWrite?]
  refine Eq.trans (congrArg (Option.or _) ?_) Option.or_none
  rcases m.run s (x.run.run Transcript.empty).run with ⟨_ | ⟨_ | a, t'⟩, s'⟩ <;> rfl

/-- The command leaves every state as it is, and does not even try to write a file. -/
structure Silent (m : FileSystem S) (x : Acting α) : Prop where
  looks : Looks m x
  firstWrite? : ∀ s t, firstWrite? m s x t = none

namespace Silent
variable {x : Acting α} {f : α → Acting β}

theorem running (x : Running Look α) : Silent m (liftM x : Acting α) where
  looks := .running x
  firstWrite? s t := by
    have hrun : ((liftM x : Acting α).run.run t).run = (x.run.run t).toScript >>= fun r => pure (some r) := rfl
    rw [Command.firstWrite?, hrun, FileSystem.firstWrite?, m.actions_bind, List.findSome?_append]
    exact (congrArg (Option.or · _) (firstWrite?_toScript _)).trans rfl

/-- What is written then is written by what comes next. -/
theorem of_bind (hx : Silent m x) (h : Command.firstWrite? m s (x >>= f) t = some file) :
    ∃ a t', exec m s x t = (some (.ok a, t'), s) ∧ Command.firstWrite? m s (f a) t' = some file := by
  rw [firstWrite?_bind, hx.firstWrite?, Option.none_or] at h
  have hs := hx.looks s t
  rcases hrun : exec m s x t with ⟨_ | ⟨_ | a, t'⟩, s'⟩
  · rw [hrun] at h
    cases h
  · rw [hrun] at h
    cases h
  · rw [hrun] at h hs
    obtain rfl : s' = s := hs
    exact ⟨a, t', rfl, h⟩

theorem bind (hx : Silent m x) (hf : ∀ a, Silent m (f a)) : Silent m (x >>= f) where
  looks := hx.looks.bind fun a => (hf a).looks
  firstWrite? s t := by
    by_contra hne
    obtain ⟨file, h⟩ := Option.ne_none_iff_exists'.mp hne
    obtain ⟨a, t', -, ha⟩ := hx.of_bind h
    cases ((hf a).firstWrite? s t').symm.trans ha

theorem forIn {γ : Type} (items : List γ) {f : γ → PUnit → Acting (ForInStep PUnit)} (h : ∀ a, Silent m (f a ⟨⟩)) :
    Silent m (ForIn.forIn items ⟨⟩ f) := by
  induction items with
  | nil => exact ⟨fun _ _ => rfl, fun _ _ => rfl⟩
  | cons a rest ih =>
    rw [List.forIn_cons]
    refine (h a).bind fun step => ?_
    cases step with
    | done b => exact ⟨fun _ _ => rfl, fun _ _ => rfl⟩
    | yield b => exact ih

end Silent

/-- A directory is made or it is not, and no file is written. -/
theorem prepareDirectory_cases (p : Path) : firstWrite? m s (prepareDirectory p) t = none ∧
    ∃ result s', exec m s (prepareDirectory p) t = (some (result, t), s') := by
  have hmade : exec m s (liftM (Script.makeDirs p) : Acting (Except FileError Unit)) t =
      (some (.ok (m.perform s (.makeDirs p)).1, t), (m.perform s (.makeDirs p)).2) :=
    exec_optionT (OptionT.lift (.ask (.makeDirs p) .done : Script (Except FileError Unit)))
  have hnone : firstWrite? m s (liftM (Script.makeDirs p) : Acting (Except FileError Unit)) t = none :=
    firstWrite?_optionT (OptionT.lift (Script.makeDirs p))
  rw [prepareDirectory, firstWrite?_bind, exec_bind, hmade, hnone]
  dsimp only
  generalize (m.perform s (.makeDirs p)).1 = made
  rcases made with e | _
  · exact ⟨rfl, _, _, rfl⟩
  · exact ⟨rfl, _, _, rfl⟩

/-- A file is written unless the directory for it cannot be made. -/
theorem firstWrite?_writeFile {p : Path} {bs : Bytes} {f : Unit → Acting α}
    (h : firstWrite? m s (writeFile p bs >>= f) t = some file) : file = (p, bs) := by
  have hwritten : firstWrite? m s (writeFile p bs) t = some (p, bs) ∨ firstWrite? m s (writeFile p bs) t = none ∧
      ∃ e s', exec m s (writeFile p bs) t = (some (.error e, t), s') := by
    unfold writeFile
    cases p.parent? with
    | none => exact .inl rfl
    | some parent =>
      dsimp only
      cases parent.isEmpty with
      | true => exact .inl rfl
      | false =>
        obtain ⟨hnone, result, s', hmade⟩ := prepareDirectory_cases (m := m) (s := s) (t := t) parent
        rw [Bool.not_false, if_pos rfl, firstWrite?_bind, exec_bind, hnone, hmade]
        cases result with
        | ok _ => exact .inl rfl
        | error e => exact .inr ⟨rfl, e, s', rfl⟩
  rw [firstWrite?_bind] at h
  rcases hwritten with hwritten | ⟨hnone, e, s', hfailed⟩
  · rw [hwritten] at h
    cases h
    rfl
  · rw [hnone, hfailed] at h
    cases h

theorem silent_announce (r : BuildRequest) (d : Dict Value) (current : Bool) : Silent m (r.announce d current) := by
  unfold BuildRequest.announce
  split
  · exact ⟨fun _ _ => rfl, fun _ _ => rfl⟩
  · split
    · exact ⟨fun _ _ => rfl, fun _ _ => rfl⟩
    · exact ⟨fun _ _ => rfl, fun _ _ => rfl⟩

/-- The first file that a build writes is the pack that it makes of what it finds. -/
theorem firstWrite?_build {r : BuildRequest} (h : firstWrite? m s (build r) t = some file) :
    ∃ d, Compiling.Ends (m.files s) r.compiling () d () ∧ file = (r.outputPath, d.encode) := by
  obtain ⟨there, t', -, h⟩ := (Silent.running (liftM (Look.isFile r.input))).of_bind h
  cases there with
  | false => cases h
  | true =>
    obtain ⟨current, t', -, h⟩ := (Silent.running (liftM r.isCurrent)).of_bind h
    cases current with
    | true =>
      have hsilent :=
        (Silent.running (m := m) (loadPack r.outputPath)).bind fun loaded => silent_announce r loaded.2 true
      cases (hsilent.firstWrite? s t').symm.trans h
    | false =>
      have hcompile : Silent m (liftM ((compileFile ample r.options r.input .none).run ()) : Acting (Outcome × Unit)) :=
        ⟨looks_compileFile r, fun s t => by rw [firstWrite?_optionT, run_compileFile_none, firstWrite?_toScript]⟩
      obtain ⟨⟨outcome, ⟨⟩⟩, t', hcompiled, h⟩ := hcompile.of_bind h
      cases outcome with
      | error issues => cases h
      | ok d =>
        refine ⟨d, ?_, firstWrite?_writeFile h⟩
        rw [exec_optionT, run_compileFile_none, m.run_toScript] at hcompiled
        change Compiling.eval (m.files s) r.compiling () = _
        rw [Compiling.eval]
        rcases hrun : (((compileSource ample r.options r.input).run).run ()).run.eval (m.files s) with _ | ⟨outcome, ⟨⟩⟩
        · rw [hrun] at hcompiled
          cases hcompiled
        · rw [hrun] at hcompiled
          cases hcompiled
          rfl

/-- The first file that a combination writes is the combined pack. -/
theorem firstWrite?_combine {r : CombineRequest} (h : firstWrite? m s (combine r) t = some file) :
    ∃ d, (Pack.combine r.inputs).eval (m.files s) = .ok d ∧ file = (r.output, d.encode) := by
  have hloads : Silent m (ForIn.forIn r.inputs PUnit.unit fun p _ => do
      let _ ← (loadPack p : Running Look _)
      return .yield PUnit.unit : Acting PUnit) :=
    .forIn r.inputs fun p => (Silent.running (loadPack p)).bind fun _ => ⟨fun _ _ => rfl, fun _ _ => rfl⟩
  obtain ⟨_, t', -, h⟩ := hloads.of_bind h
  obtain ⟨combined, t', hcombined, h⟩ := (Silent.running (liftM (Pack.combine r.inputs))).of_bind h
  cases (exec_look (Pack.combine r.inputs)).symm.trans hcombined
  cases hpack : (Pack.combine r.inputs).eval (m.files s) with
  | error f =>
    rw [hpack] at h
    cases h
  | ok d =>
    rw [hpack] at h
    exact ⟨d, rfl, firstWrite?_writeFile h⟩

/-- The pack that a command makes of what it finds, and where it is to lie. -/
inductive Makes (fs : Files) : Request → Path → Dict Value → Prop
  | build {r : BuildRequest} {d : Dict Value} :
    Compiling.Ends fs r.compiling () d () → Makes fs (.build r) r.outputPath d
  | combine {r : CombineRequest} {d : Dict Value} :
    (Pack.combine r.inputs).eval fs = .ok d → Makes fs (.combine r) r.output d

/-- What a command writes first is the pack that it makes, unless it takes resources out of one. -/
theorem makes_of_firstWrite? {r : Request} (hr : ∀ e, r ≠ .extract e)
    (h : m.firstWrite? s r.run.report.run = some file) :
    ∃ d, Makes (m.files s) r file.1 d ∧ file.2 = d.encode := by
  rw [firstWrite?_report] at h
  cases r with
  | build r =>
    obtain ⟨d, hends, rfl⟩ := firstWrite?_build h
    exact ⟨d, .build hends, rfl⟩
  | combine r =>
    obtain ⟨d, heval, rfl⟩ := firstWrite?_combine h
    exact ⟨d, .combine heval, rfl⟩
  | dump r => cases ((Silent.running (dump r)).firstWrite? s .empty).symm.trans h
  | extract r => exact (hr r rfl).elim

theorem ready_of_combineFrom {fs : Files} {paths : List Path} {c : Pack.Combined} (hc : c.Sound) {d : Dict Value}
    (h : (Pack.combineFrom c paths).eval fs = .ok d) : Pack.Ready d := by
  induction paths generalizing c with
  | nil =>
    cases h
    exact hc.finish
  | cons p ps ih =>
    rw [Pack.combineFrom, Look.eval_bind] at h
    cases hread : (Pack.read p).eval fs with
    | error f =>
      rw [hread] at h
      cases h
    | ok x =>
      rw [hread] at h
      dsimp only at h
      cases hopened : Pack.opened x with
      | error f =>
        rw [hopened] at h
        cases h
      | ok e =>
        rw [hopened] at h
        exact ih (hc.add (.of_opened (Pack.keepable_of_read hread) hopened)) h

/-- A pack that is made is open, and no name stands twice in it. -/
theorem Makes.opened {fs : Files} {r : Request} {p : Path} {d : Dict Value} (h : Makes fs r p d) :
    Pack.opened d = .ok d ∧ (Value.dict d).Distinct := by
  cases h with
  | build hends =>
    obtain ⟨text, made, -, hmade, rfl⟩ := hends.of_compileSource
    suffices hof : Dict.Of .open _ from
      ⟨Pack.opened_self_iff.mpr fun entry hentry => (hof.entry hentry).materialize, Value.Of.distinct hof⟩
    have hopen := Dict.open_of_compileText hmade
    exact (hopen.set trivial (Value.of_atom.mpr trivial)).set trivial (of_textList fun _ _ => trivial)
  | combine heval =>
    have hready := ready_of_combineFrom .start heval
    exact ⟨hready.opened, hready.keepable.dict.distinct⟩

/-! ## What is shown of a pack -/

/-- Lines as they are printed. -/
def lines (texts : List String) : Print := .text (String.join (texts.map (· ++ "\n")))

/-- What is printed of a pack whose file has so many bytes. -/
def shownPack (r : ShowRequest) (bytes : Nat) (ls : List Location) (d : Dict Value) : List Print :=
  if r.json then
    [lines [(Json.ofMembers [("path", .string r.input), ("bytes", .ofNat bytes),
      ("entries", .array (ls.map (locationJson d))), ("dict", .ofDict d)]).text]]
  else
    [lines (["path: " ++ r.input, "bytes: " ++ toString bytes, "entries: " ++ toString ls.length] ++
      ls.map locationText), lines ["tree:"], .text d.printed]

theorem eval_running_bind_of_ok {fs : Files} {x : Running Look α} {f : α → Running Look β} {a : α} {t' : Transcript}
    (h : (x.run.run t).eval fs = (.ok a, t')) : ((x >>= f).run.run t).eval fs = ((f a).run.run t').eval fs := by
  have hrun : (x >>= f).run.run t = x.run.run t >>= fun r => (ExceptT.bindCont f r.1).run r.2 := rfl
  rw [hrun, Look.eval_bind, h]
  rfl

theorem eval_dump {fs : Files} {r : ShowRequest} {bs : Bytes} {d : Dict Value}
    (h : ((loadPack r.input).run.run t).eval fs = (.ok (bs, d), t)) :
    ((dump r).run.run t).eval fs = (.ok (), { t with output := t.output ++ shownPack r bs.length d.locations d }) := by
  rw [dump, eval_running_bind_of_ok h, shownPack]
  dsimp only
  cases r.json with
  | true => rfl
  | false =>
    have happend (a b c : Print) : t.output ++ [a, b, c] = t.output ++ [a] ++ [b] ++ [c] := by
      rw [List.append_assoc, List.append_assoc]
      rfl
    rw [if_neg Bool.false_ne_true, if_neg Bool.false_ne_true, happend]
    rfl

/-- While a pack is written, the places of its entries are noted: they follow each other in the file, each entry with
its name before its value, and end where the file ends. A build and a combination write the pack that they make first.
If it can be loaded from its file again, writing what was loaded gives the same bytes and the same places, and those are
shown. -/
theorem located_of_made :
    (∀ d : Dict Value, Writer.empty.dict? d = some (d.locations, ⟨d.encode⟩) ∧ d.Located d.encode d.locations) ∧
    (∀ {S : Type} (m : FileSystem S) (s : S) (r : Request) (p : Path) (bs : Bytes), (∀ e, r ≠ .extract e) →
      m.firstWrite? s r.run.report.run = some (p, bs) → ∃ d, Makes (m.files s) r p d ∧ bs = d.encode) ∧
    ∀ (fs : Files) (r : Request) (p : Path) (d : Dict Value), Makes fs r p d → (Value.dict d).Fits →
      d.encode.length < lengthLimit → ∀ (later : Files) (shown : ShowRequest) (t : Transcript) (bs : Bytes)
        (e : Dict Value), later.read shown.input = .ok d.encode →
        ((loadPack shown.input).run.run t).eval later = (.ok (bs, e), t) →
        bs = d.encode ∧ e.encode = bs ∧ e.locations = d.locations ∧
          ((dump shown).run.run t).eval later =
            (.ok (), { t with output := t.output ++ shownPack shown bs.length d.locations e }) := by
  refine ⟨fun d => ⟨d.written, d.located⟩, fun m s r p bs hr h => makes_of_firstWrite? hr h, ?_⟩
  intro fs r p d hmakes hfits hlen later shown t bs e hread hload
  obtain ⟨hopen, hdistinct⟩ := hmakes.opened
  rw [eval_loadPack] at hload
  obtain ⟨x, hbs, hdecode, hagain⟩ := opened_of_loaded (Prod.mk.inj hload).1
  obtain rfl : bs = d.encode := Except.ok.inj (hbs.symm.trans hread)
  have halike := Dict.alike_of_opened hopen hdistinct hfits hlen hdecode hagain
  refine ⟨rfl, halike.encode, halike.locations, ?_⟩
  rw [← halike.locations]
  exact eval_dump ((eval_loadPack ..).trans hload)

/-- A disk with a description of a text and of a list in a dictionary. -/
def describedPack : Disk :=
  history blankDisk [.write "a" (Bytes.ofString "\x7b\"x\": \x7b\"y\": [1, true]\x7d, \"z\": \"t\"\x7d")]

/-- What is left of it by a build. -/
def builtPack : Disk := (Disk.system.run describedPack (Request.build (requestFor "a")).run.report.run).2

theorem located_of_made_builtPack : ∃ p d,
    Disk.system.firstWrite? describedPack (Request.build (requestFor "a")).run.report.run = some (p, d.encode) ∧
      Makes describedPack.files (.build (requestFor "a")) p d ∧ (Value.dict d).Fits ∧ d.encode.length < lengthLimit ∧
      builtPack.files.read p = .ok d.encode ∧ ∃ e,
        ((loadPack p).run.run .empty).eval builtPack.files = (.ok (d.encode, e), .empty) ∧ e.encode = d.encode ∧
          e.locations = d.locations := by
  obtain ⟨⟨p, bs⟩, hwrite, hlen, hread, hload⟩ : ∃ file ∈
      Disk.system.firstWrite? describedPack (Request.build (requestFor "a")).run.report.run,
      9 + file.2.length < countLimit ∧ builtPack.files.read file.1 = .ok file.2 ∧ Loads builtPack.files file.1 := by
    decide +kernel
  obtain ⟨d, hmakes, rfl⟩ := located_of_made.2.1 Disk.system describedPack (.build (requestFor "a")) p bs nofun hwrite
  dsimp only at hlen hread hload
  rw [← length_encode_dict] at hlen
  have hfits := Value.fits_of_length_encode hlen
  have hlimit := Value.length_encode_lt_lengthLimit hlen
  obtain ⟨⟨bs, e⟩, hloaded⟩ := loads_iff.mp hload
  have hloads : ((loadPack p).run.run .empty).eval builtPack.files = (.ok (bs, e), .empty) := by
    rw [eval_loadPack, hloaded]
  obtain ⟨rfl, hencode, hlocations, -⟩ := located_of_made.2.2 describedPack.files (.build (requestFor "a")) p d hmakes
    hfits hlimit builtPack.files ⟨p, false⟩ .empty bs e hread hloads
  exact ⟨p, d, hwrite, hmakes, hfits, hlimit, hread, e, hloads, hencode, hlocations⟩

end Command
end AssetPack
