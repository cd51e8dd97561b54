import AssetPack.Proofs.Files.Written

/-!
# Edits of a disk

A file may be written, touched or removed. Each edit changes one place and the times of directories, so whatever lies
elsewhere is as it was, and a path that still leads somewhere has the canonical name that it had.
-/
namespace AssetPack
namespace Disk
variable {d d' d'' : Disk} {place : Place} {places : List Place} {p : Path} {e : Entry} {reaches : Place → Bool}
  {names : List (List Char)} {q : Place}

/-- What may be done to a file. -/
inductive Edit where
  | write (p : Path) (bs : Bytes)
  | touch (p : Path) (time : Nat)
  | remove (p : Path)

namespace Edit

/-- The path at which something is edited. -/
def path : Edit → Path
  | write p _ | touch p _ | remove p => p

/-- The disk after an edit. -/
def on (d : Disk) : Edit → Disk
  | write p bs => (d.write p bs).2
  | touch p time => d.setTime p time
  | remove p => (d.remove p).2

end Edit

/-- All things lie in directories. -/
structure Nested (d : Disk) : Prop where
  root : d.isDir []
  parents : ∀ place name, (d.find? (place ++ [name])).isSome → d.isDir place

/-- Edits at these places leave all directories and all other files as they were, but for the times of directories. -/
structure EditedAt (places : List Place) (d d' : Disk) : Prop where
  home : d'.home = d.home
  isDir : ∀ q, d'.isDir q = d.isDir q
  file : ∀ q, q ∉ places → d.isDir q = false → d'.find? q = d.find? q
  nested : d.Nested → d'.Nested

namespace EditedAt

theorem refl (d : Disk) (places : List Place) : d.EditedAt places d :=
  ⟨rfl, fun _ => rfl, fun _ _ _ => rfl, id⟩

theorem trans {more : List Place} (h : d.EditedAt places d') (h' : d'.EditedAt more d'') :
    d.EditedAt (places ++ more) d'' := by
  refine ⟨h'.home.trans h.home, fun q => (h'.isDir q).trans (h.isDir q), fun q hq hfile => ?_, h'.nested ∘ h.nested⟩
  obtain ⟨hfirst, hsecond⟩ := not_or.mp (hq ∘ List.mem_append.mpr)
  exact (h'.file q hsecond ((h.isDir q).trans hfile)).trans (h.file q hfirst hfile)

end EditedAt

theorem isDir_eq (hfind : d.find? place = some e) : d.isDir place = e.bytes.isNone := by
  rw [isDir, hfind, Option.any_some]

/-- Something of the same kind is put at a place that lies in a directory. -/
theorem editedAt_put (d : Disk) (clock : Nat) (he : e.bytes.isNone = d.isDir place)
    (hparent : d.Nested → ∀ parent name, place = parent ++ [name] → d.isDir parent) :
    d.EditedAt [place] ({ d with clock := clock }.put place e) := by
  have hfind (q : Place) : ({ d with clock := clock }.put place e).find? q = if q = place then some e else d.find? q :=
    find?_put _ _ _ _
  have hdir (q : Place) : ({ d with clock := clock }.put place e).isDir q = d.isDir q := by
    by_cases hq : q = place
    · subst hq
      rw [isDir_eq ((hfind q).trans (if_pos rfl)), he]
    · rw [isDir, hfind, if_neg hq, isDir]
  refine ⟨rfl, hdir, fun q hq _ => ?_, fun hd => ⟨(hdir []).trans hd.root, fun parent name hname => ?_⟩⟩
  · rw [hfind, if_neg (List.ne_of_not_mem_cons hq)]
  · rw [hdir]
    by_cases hplace : parent ++ [name] = place
    · exact hparent hd parent name hplace.symm
    · rw [hfind, if_neg hplace] at hname
      exact hd.parents parent name hname

/-- What is there lies in a directory. -/
theorem Nested.parent (hd : d.Nested) (hfind : d.find? place = some e) :
    ∀ parent name, place = parent ++ [name] → d.isDir parent := by
  rintro parent name rfl
  exact hd.parents parent name (Option.isSome_iff_exists.mpr ⟨e, hfind⟩)

/-- The time of a directory is not looked at. -/
theorem editedAt_touchDir (hdir : d.isDir place) : d.EditedAt [] (d.touchDir place) := by
  obtain ⟨e, he, -⟩ := (Option.any_eq_true ..).mp hdir
  have hput : d.EditedAt [place] (d.put place { e with time := d.clock }) :=
    editedAt_put d d.clock (isDir_eq he).symm fun hd => hd.parent he
  rw [touchDir, he]
  refine { hput with file := fun q _ hfile => hput.file q ?_ hfile }
  rintro hq
  rw [List.mem_singleton.mp hq, hdir] at hfile
  cases hfile

theorem editedAt_setTime (d : Disk) (p : Path) (time : Nat) : d.EditedAt [d.aim p] (d.setTime p time) := by
  unfold setTime
  split
  · rename_i place hplace
    rw [← eq_aim_of_resolve hplace]
    split
    · rename_i e he
      exact editedAt_put d d.clock (isDir_eq he).symm fun hd => hd.parent he
    · exact .refl d _
  · exact .refl d _

/-- What is written lies where the path leads. -/
theorem aim_of_resolveParent {parent : Place} {name : List Char} (hparent : d.resolveParent p = .ok (parent, some name))
    (hname : ¬(isDots name ∨ (leadingNames p).length < p.names.length)) :
    d.aim p = parent ++ [String.ofList name] := by
  obtain ⟨hdots, hlength⟩ := not_or.mp hname
  obtain ⟨start, hstart, -, hwalk, hlast⟩ := walk_of_resolveParent hparent
  obtain ⟨hnil, hnames⟩ := names_of_leadingNames hlength hlast
  simp only [isDots, Bool.or_eq_true, decide_eq_true_eq, not_or] at hdots
  have hcomponent : Path.component? false name = some (.normal (String.ofList name)) := by
    rw [Path.component?, if_neg hnil, if_neg hdots.1, if_neg hdots.2]
  rw [aim, foldl_components, ← start_eq_ok hstart, hnames, List.filterMap_append, List.foldl_append, ← walk_eq hwalk,
    List.filterMap_cons_some hcomponent]
  rfl

theorem editedAt_write (d : Disk) (p : Path) (bs : Bytes) : d.EditedAt [d.aim p] (d.write p bs).2 := by
  unfold write
  split
  · exact .refl d _
  · exact .refl d _
  · rename_i parent name hparent
    split
    · exact .refl d _
    · rename_i hname
      split
      · exact .refl d _
      · rw [aim_of_resolveParent hparent hname]
        have hdir := isDir_of_resolveParent hparent
        have hlies (hd : d.Nested) : ∀ q other, parent ++ [String.ofList name] = q ++ [other] → d.isDir q :=
          fun q other heq => (List.append_inj' heq rfl).1 ▸ hdir
        dsimp only
        split
        · exact .refl d _
        · rename_i old time hold
          exact editedAt_put d (d.clock + 1) (isDir_eq hold).symm hlies
        · rename_i hnew
          have hput : d.EditedAt [parent ++ [String.ofList name]]
              ({ d with clock := d.clock + 1 }.put (parent ++ [String.ofList name]) ⟨some bs, d.clock + 1⟩) :=
            editedAt_put d (d.clock + 1) (by rw [isDir, hnew]; rfl) hlies
          refine hput.trans (editedAt_touchDir ?_)
          rw [List.dropLast_concat, hput.isDir, hdir]

/-- What is at places when one of them was cleared. -/
theorem find?_filter (hplace : place ≠ []) (d : Disk) (clock : Nat) (q : Place) :
    Disk.find? { d with clock := clock, entries := d.entries.filter (·.1 ≠ place) } q =
      if q = place then none else d.find? q := by
  by_cases hq : q = place
  · subst hq
    have hlookup : (d.entries.filter (·.1 ≠ q)).lookup q = none := by
      refine List.lookup_eq_none_iff.mpr fun entry hentry => ?_
      have hne : entry.1 ≠ q := of_decide_eq_true (List.mem_filter.mp hentry).2
      exact bne_iff_ne.mpr hne.symm
    rw [if_pos rfl, find?]
    dsimp only
    rw [hlookup, List.isEmpty_eq_false_iff.mpr hplace]
    rfl
  · rw [if_neg hq, ← (find?_put d place q ⟨none, 0⟩).trans (if_neg hq), put, find?, find?, List.lookup_cons,
      beq_eq_false_iff_ne.mpr hq]

theorem editedAt_remove (hd : d.Nested) (p : Path) : d.EditedAt [d.aim p] (d.remove p).2 := by
  unfold remove
  split
  · exact .refl d _
  · rename_i place hplace
    rw [← eq_aim_of_resolve hplace]
    split
    · rename_i bs time hold
      have hnonempty : place ≠ [] := by
        rintro rfl
        cases (isDir_eq hold).symm.trans hd.root
      have hfind := find?_filter hnonempty d (d.clock + 1)
      have hdir (q : Place) : Disk.isDir { d with
          clock := d.clock + 1, entries := d.entries.filter (·.1 ≠ place) } q = d.isDir q := by
        rw [isDir, hfind]
        by_cases hq : q = place
        · subst hq
          rw [if_pos rfl, isDir_eq hold]
          rfl
        · rw [if_neg hq, isDir]
      have hclear : d.EditedAt [place] { d with
          clock := d.clock + 1, entries := d.entries.filter (·.1 ≠ place) } := by
        refine ⟨rfl, hdir, fun q hq _ => ?_, fun _ => ⟨(hdir []).trans hd.root, fun parent name hname => ?_⟩⟩
        · rw [hfind, if_neg (List.ne_of_not_mem_cons hq)]
        · rw [hfind] at hname
          rw [hdir]
          split at hname
          · cases hname
          · exact hd.parents parent name hname
      obtain ⟨parent, name, hlast⟩ := List.eq_nil_or_concat place |>.resolve_left hnonempty
      rw [List.concat_eq_append] at hlast
      refine hclear.trans (editedAt_touchDir ?_)
      rw [hdir, hlast, List.dropLast_concat]
      exact hd.parent hold parent name hlast
    · exact .refl d _

theorem editedAt_edit (hd : d.Nested) (edit : Edit) : d.EditedAt [d.aim edit.path] (edit.on d) := by
  cases edit with
  | write p bs => exact editedAt_write d p bs
  | touch p time => exact editedAt_setTime d p time
  | remove p => exact editedAt_remove hd p

/-- The disk after edits, one after the other. -/
def edited (d : Disk) (edits : List Edit) : Disk := edits.foldl Edit.on d

theorem editedAt_edited (hd : d.Nested) (edits : List Edit) :
    d.EditedAt (edits.map fun edit => d.aim edit.path) (d.edited edits) := by
  induction edits generalizing d with
  | nil => exact .refl d _
  | cons edit rest ih =>
    have hfirst := editedAt_edit hd edit
    have hrest := ih (hfirst.nested hd)
    have haim : (fun other : Edit => (edit.on d).aim other.path) = fun other => d.aim other.path :=
      funext fun other => by rw [aim, aim, hfirst.home]
    rw [haim] at hrest
    exact hfirst.trans hrest

/-! ## What is found after edits -/

/-- A walk starts at its end or in a directory. -/
theorem eq_or_isDir_of_walk (h : d.walk reaches place names = .ok q) : place = q ∨ d.isDir place := by
  cases names with
  | nil =>
    cases h
    exact .inl rfl
  | cons name rest => exact .inr (walk_cons h).1

namespace EditedAt

/-- A walk ends as before if what it led to is still there. -/
theorem walk (h : d.EditedAt places d') (hthere : (d'.find? q).isSome) (hwalk : d.walk reaches place names = .ok q) :
    d'.walk reaches place names = .ok q := by
  induction names generalizing place with
  | nil => exact hwalk
  | cons name rest ih =>
    obtain ⟨hdir, hcases⟩ := walk_cons hwalk
    rw [Disk.walk, h.isDir, hdir, Bool.not_true, if_neg Bool.false_ne_true]
    obtain ⟨hhere, hrest⟩ | ⟨rfl, hrest⟩ | ⟨⟨hnil, hhere, hup⟩, hlong, hin, -, hrest⟩ := hcases
    · rw [if_pos hhere]
      exact ih hrest
    · rw [if_neg (by decide), if_pos rfl]
      exact ih hrest
    · have hnext : (d'.find? (place ++ [String.ofList name])).isSome := by
        rcases eq_or_isDir_of_walk hrest with heq | hdir
        · rwa [heq]
        · exact isSome_of_isDir ((h.isDir _).trans hdir)
      have hnone : (d'.find? (place ++ [String.ofList name])).isNone = false := by
        rw [← Option.not_isSome, hnext]
        rfl
      simp only [if_neg (not_or.mpr ⟨hnil, hhere⟩), if_neg hup, hlong, hin, hnone]
      exact ih hrest

theorem start (h : d.EditedAt places d') (p : Path) : d'.start p = d.start p := by
  rw [Disk.start, Disk.start, h.home]

theorem resolve (h : d.EditedAt places d') (hthere : (d'.find? q).isSome) (hp : d.resolve p = .ok q) :
    d'.resolve p = .ok q := by
  unfold Disk.resolve resolveNames at hp ⊢
  rw [h.start]
  cases hstart : d.start p with
  | error e =>
    rw [hstart] at hp
    cases hp
  | ok start =>
    rw [hstart] at hp
    dsimp only at hp ⊢
    split at hp
    · cases hp
    · rw [if_neg ‹_›]
      exact h.walk hthere hp

/-- A path that still leads somewhere has the canonical name that it had. -/
theorem canonical (h : d.EditedAt places d') {name : Path} (hp : d.canonical p = .ok name)
    (hthere : (d'.files.status p).isSome) : d'.canonical p = .ok name := by
  obtain ⟨status, hstatus⟩ := Option.isSome_iff_exists.mp hthere
  obtain ⟨place, e, hplace, he, -⟩ := exists_of_status hstatus
  unfold Disk.canonical at hp ⊢
  rw [h.start]
  cases hstart : d.start p with
  | error e =>
    rw [hstart] at hp
    cases hp
  | ok start =>
    rw [hstart] at hp
    dsimp only at hp ⊢
    split at hp
    · cases hp
    · rename_i target hwalk
      have htarget : target = place := by
        rw [walk_start hstart hwalk, eq_aim_of_resolve hplace, aim, aim, h.home]
      rw [h.walk (htarget ▸ Option.isSome_iff_exists.mpr ⟨e, he⟩) hwalk]
      exact hp

/-- A file that was not edited is found as it was. -/
theorem of_resolve (h : d.EditedAt places d') (hp : d.resolve p = .ok place) {bs : Bytes}
    (hread : d.readAt place = .ok bs) (hother : place ∉ places) :
    d'.files.read p = d.files.read p ∧ d'.files.status p = d.files.status p := by
  have hfile : d.isDir place = false := by
    cases hdir : d.isDir place with
    | false => rfl
    | true =>
      obtain ⟨e, he, hnone⟩ := (Option.any_eq_true ..).mp hdir
      obtain ⟨bytes, time⟩ := e
      cases Option.isNone_iff_eq_none.mp hnone
      rw [readAt, he] at hread
      cases hread
  have hfind := h.file place hother hfile
  have hp' := h.resolve (hfind ▸ isSome_of_readAt hread) hp
  constructor
  · rw [read_of_resolve hp, read_of_resolve hp', readAt, readAt, hfind]
  · rw [status_of_resolve hp, status_of_resolve hp', hfind]

end EditedAt

end Disk
end AssetPack
