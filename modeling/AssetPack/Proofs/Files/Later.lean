import AssetPack.Proofs.Files.Answers
import AssetPack.Proofs.Files.Places

/-!
# What becomes of a disk

As long as nothing is removed, what is on a disk stays there, and what is changed is newer than all that was
there before. So paths lead where they led, and a file that is not newer has the bytes that it had.
-/
namespace AssetPack

/-- What was `e` at the time `t` is now `e'`: a file still or a directory still, and newer if its bytes are
others. -/
structure Entry.Kept (t : Nat) (e e' : Entry) : Prop where
  kind : e'.bytes.isSome = e.bytes.isSome
  time : e.time ≤ e'.time
  bytes : e'.bytes = e.bytes ∨ t < e'.time

/-- The action removes nothing. -/
def Action.Sparing : Action → Prop
  | remove _ => False
  | _ => True

namespace Disk
variable {d d' d'' : Disk} {place q : Place} {e : Entry} {p : Path}

/-- The home can be named, nothing is newer than the clock, and all things lie in directories. -/
structure Sound (d : Disk) : Prop where
  home : Plain d.home
  times : ∀ place e, d.find? place = some e → e.time ≤ d.clock
  parents : ∀ place name, (d.find? (place ++ [name])).isSome → d.isDir place

/-- What a disk may become when things are made and changed on it, but not removed. -/
structure Later (d d' : Disk) : Prop where
  sound : d'.Sound
  home : d'.home = d.home
  clock : d.clock ≤ d'.clock
  kept : ∀ place e, d.find? place = some e → ∃ e', d'.find? place = some e' ∧ e.Kept d.clock e'

/-- What is kept is still there, and directories stay directories. -/
theorem isSome_of_kept {t : Nat} (h : ∀ place e, d.find? place = some e → ∃ e', d'.find? place = some e' ∧ e.Kept t e')
    (hplace : (d.find? place).isSome) : (d'.find? place).isSome ∧ d'.isDir place = d.isDir place := by
  obtain ⟨e, he⟩ := Option.isSome_iff_exists.mp hplace
  obtain ⟨e', he', hkept⟩ := h place e he
  refine ⟨Option.isSome_iff_exists.mpr ⟨e', he'⟩, ?_⟩
  rw [isDir, isDir, he, he', Option.any_some, Option.any_some, ← Option.not_isSome, hkept.kind, Option.not_isSome]

theorem isSome_of_isDir (h : d.isDir place) : (d.find? place).isSome := by
  obtain ⟨e, he, _⟩ := (Option.any_eq_true ..).mp h
  exact Option.isSome_iff_exists.mpr ⟨e, he⟩

namespace Later

theorem refl (h : d.Sound) : d.Later d :=
  ⟨h, rfl, Nat.le_refl _, fun _ e he => ⟨e, he, rfl, Nat.le_refl _, .inl rfl⟩⟩

theorem trans (h : d.Later d') (h' : d'.Later d'') : d.Later d'' := by
  refine ⟨h'.sound, h'.home.trans h.home, Nat.le_trans h.clock h'.clock, fun place e he => ?_⟩
  obtain ⟨e', he', hkept⟩ := h.kept place e he
  obtain ⟨e'', he'', hkept'⟩ := h'.kept place e' he'
  refine ⟨e'', he'', hkept'.kind.trans hkept.kind, Nat.le_trans hkept.time hkept'.time, ?_⟩
  -- what was changed at first has stayed so new, and what was changed later is newer still
  rcases hkept'.bytes with hbytes | hnew
  · rcases hkept.bytes with hsame | hnew
    · exact .inl (hbytes.trans hsame)
    · exact .inr (Nat.lt_of_lt_of_le hnew hkept'.time)
  · exact .inr (Nat.lt_of_le_of_lt h.clock hnew)

theorem isSome (h : d.Later d') (hplace : (d.find? place).isSome) : (d'.find? place).isSome :=
  (isSome_of_kept h.kept hplace).1

theorem isDir (h : d.Later d') (hplace : d.isDir place) : d'.isDir place :=
  (isSome_of_kept h.kept (isSome_of_isDir hplace)).2.trans hplace

end Later

/-! ## Changes of a disk -/

theorem find?_put (d : Disk) (place q : Place) (e : Entry) :
    (d.put place e).find? q = if q = place then some e else d.find? q := by
  have hlookup (entries : List (Place × Entry)) (hne : q ≠ place) :
      (entries.filter (·.1 ≠ place)).lookup q = entries.lookup q := by
    induction entries with
    | nil => rfl
    | cons entry rest ih =>
      obtain ⟨at', e'⟩ := entry
      by_cases hplace : at' = place
      · subst hplace
        rw [List.filter_cons_of_neg (by simp), ih, List.lookup_cons, beq_eq_false_iff_ne.mpr hne]
      · rw [List.filter_cons_of_pos (by simpa using hplace), List.lookup_cons, List.lookup_cons, ih]
  unfold find? put
  dsimp only
  rw [List.lookup_cons]
  by_cases hplace : q = place
  · subst hplace
    simp
  · rw [beq_eq_false_iff_ne.mpr hplace, if_neg hplace, hlookup _ hplace]

theorem later_put (hd : d.Sound) {clock : Nat} (hclock : d.clock ≤ clock) {e' : Entry} (he' : e'.time ≤ clock)
    (hkept : ∀ e, d.find? place = some e → e.Kept d.clock e')
    (hparent : d.find? place = none → ∀ parent name, place = parent ++ [name] → d.isDir parent) :
    d.Later ({ d with clock := clock }.put place e') := by
  have hfind (q : Place) : ({ d with clock := clock }.put place e').find? q =
      if q = place then some e' else d.find? q := find?_put _ _ _ _
  have hall (q : Place) (e : Entry) (he : d.find? q = some e) :
      ∃ e'', ({ d with clock := clock }.put place e').find? q = some e'' ∧ e.Kept d.clock e'' := by
    rw [hfind]
    split
    · subst_vars
      exact ⟨e', rfl, hkept e he⟩
    · exact ⟨e, he, rfl, Nat.le_refl _, .inl rfl⟩
  refine ⟨⟨hd.home, fun q e he => ?_, fun parent name hname => ?_⟩, rfl, hclock, hall⟩
  · rw [hfind] at he
    split at he
    · cases he
      exact he'
    · exact Nat.le_trans (hd.times q e he) hclock
  · have hdir : d.isDir parent := by
      cases hold : d.find? (parent ++ [name]) with
      | some e => exact hd.parents parent name (Option.isSome_iff_exists.mpr ⟨e, hold⟩)
      | none =>
        rw [hfind] at hname
        split at hname
        · exact hparent (‹parent ++ [name] = place› ▸ hold) parent name (Eq.symm ‹_›)
        · rw [hold] at hname
          cases hname
    exact (isSome_of_kept hall (isSome_of_isDir hdir)).2.trans hdir

theorem later_touchDir (hd : d.Sound) (place : Place) : d.Later (d.touchDir place) := by
  unfold touchDir
  split
  · rename_i e he
    refine later_put hd (Nat.le_refl _) (Nat.le_refl _) (fun e' he' => ?_) fun hnone => ?_
    · cases he.symm.trans he'
      exact ⟨rfl, hd.times place e he, .inl rfl⟩
    · cases he.symm.trans hnone
  · exact .refl hd

theorem later_create (hd : d.Sound) {parent : Place} (hparent : d.isDir parent) {name : String}
    (hnew : d.find? (parent ++ [name]) = none) (bytes : Option Bytes) :
    d.Later (d.create (parent ++ [name]) bytes) := by
  have hput : d.Later ({ d with clock := d.clock + 1 }.put (parent ++ [name]) ⟨bytes, d.clock + 1⟩) := by
    refine later_put hd (Nat.le_succ _) (Nat.le_refl _) (fun e he => ?_) fun _ q n heq => ?_
    · cases hnew.symm.trans he
    · exact (List.append_inj' heq rfl).1 ▸ hparent
  exact hput.trans (later_touchDir hput.sound _)

theorem isDir_of_resolveParent {name : Option (List Char)} (h : d.resolveParent p = .ok (place, name)) :
    d.isDir place := by
  unfold resolveParent at h
  split at h
  · cases h
  · split at h
    · cases h
      assumption
    · cases h

theorem later_write (hd : d.Sound) (p : Path) (bs : Bytes) : d.Later (d.write p bs).2 := by
  unfold write
  split
  · exact .refl hd
  · exact .refl hd
  · rename_i parent name hparent
    split
    · exact .refl hd
    · split
      · exact .refl hd
      · dsimp only
        split
        · exact .refl hd
        · rename_i old time hold
          refine later_put hd (Nat.le_succ _) (Nat.le_refl _) (fun e he => ?_) fun hnone => ?_
          · cases hold.symm.trans he
            exact ⟨rfl, Nat.le_succ_of_le (hd.times _ _ hold), .inr (Nat.lt_succ_self _)⟩
          · cases hold.symm.trans hnone
        · rename_i hnew
          exact later_create hd (isDir_of_resolveParent hparent) hnew _

theorem later_makeDir (hd : d.Sound) (p : Path) : d.Later (d.makeDir p).2 := by
  unfold makeDir
  split
  · exact .refl hd
  · exact .refl hd
  · rename_i parent name hparent
    split
    · exact .refl hd
    · split
      · exact .refl hd
      · dsimp only
        split
        · exact .refl hd
        · rename_i hnew
          exact later_create hd (isDir_of_resolveParent hparent) (by simpa using hnew) _

theorem later_ensureDir (hd : d.Sound) (p : Path) : d.Later (d.ensureDir p).2 := by
  have hmade := later_makeDir hd p
  unfold ensureDir
  split <;> simpa only [*] using hmade

theorem later_makeDirsTo (hd : d.Sound) (fuel : Nat) (p : Path) : d.Later (makeDirsTo fuel p d).2 := by
  induction fuel generalizing d p with
  | zero => exact .refl hd
  | succ fuel ih =>
    have hmade := later_makeDir hd p
    rw [makeDirsTo]
    split
    · exact .refl hd
    · split
      · rename_i d₁ hmissing
        rw [hmissing] at hmade
        split
        · exact hmade
        · rename_i parent _
          have hparent := hmade.trans (ih hmade.sound parent)
          split
          · rename_i d₂ hmade₂
            rw [hmade₂] at hparent
            exact hparent.trans (later_ensureDir hparent.sound p)
          · rename_i hmade₂
            rwa [hmade₂] at hparent
      · rename_i hmade₁
        rwa [hmade₁] at hmade
      · rename_i hmade₁
        rwa [hmade₁] at hmade

theorem later_perform (hd : d.Sound) {a : Action} (ha : a.Sparing) : d.Later (d.perform a).2 := by
  cases a with
  | look q => exact .refl hd
  | makeDirs p => exact later_makeDirsTo hd _ p
  | write p bs => exact later_write hd p bs
  | remove p => exact ha.elim
  | scratch => exact .refl hd

/-! ## What is still found -/

namespace Later

theorem start (h : d.Later d') (p : Path) : d'.start p = d.start p := by
  rw [Disk.start, Disk.start, h.home]

/-- Paths lead where they led. -/
theorem resolve (h : d.Later d') (hp : d.resolve p = .ok q) : d'.resolve p = .ok q := by
  unfold Disk.resolve resolveNames at hp ⊢
  rw [h.start]
  split at hp
  · cases hp
  · split at hp
    · cases hp
    · rename_i hlong
      rw [if_neg hlong]
      exact walk_mono (fun _ => h.isDir) (fun _ => h.isSome) (fun _ => id) hp

/-- A file that is not newer than the clock was has the bytes that it had. -/
theorem readAt (h : d.Later d') {bs : Bytes} (hread : d.readAt place = .ok bs) {e' : Entry}
    (he' : d'.find? place = some e') (htime : e'.time ≤ d.clock) : d'.readAt place = .ok bs := by
  unfold Disk.readAt at hread
  split at hread
  · rename_i old time hold
    cases hread
    obtain ⟨e, he, hkept⟩ := h.kept place _ hold
    obtain rfl := Option.some.inj (he'.symm.trans he)
    have hbytes := hkept.bytes.resolve_right (Nat.not_lt.mpr htime)
    rw [Disk.readAt, he']
    obtain ⟨bytes, time⟩ := e'
    subst hbytes
    rfl
  · cases hread
  · cases hread

end Later

theorem read_of_resolve (h : d.resolve p = .ok place) : d.files.read p = d.readAt place := by
  unfold Disk.files
  dsimp only
  rw [h]

theorem status_of_resolve (h : d.resolve p = .ok place) :
    d.files.status p = (d.find? place).map fun e => ⟨e.bytes.isSome, e.time⟩ := by
  unfold Disk.files
  dsimp only
  rw [h]

theorem exists_of_read {bs : Bytes} (h : d.files.read p = .ok bs) :
    ∃ place, d.resolve p = .ok place ∧ d.readAt place = .ok bs := by
  cases hplace : d.resolve p with
  | ok place => exact ⟨place, rfl, read_of_resolve hplace ▸ h⟩
  | error e =>
    unfold Disk.files at h
    dsimp only at h
    rw [hplace] at h
    cases h

theorem exists_of_status {s : Status} (h : d.files.status p = some s) :
    ∃ place e, d.resolve p = .ok place ∧ d.find? place = some e ∧ s = ⟨e.bytes.isSome, e.time⟩ := by
  cases hplace : d.resolve p with
  | ok place =>
    rw [status_of_resolve hplace] at h
    obtain ⟨e, he, rfl⟩ := Option.map_eq_some_iff.mp h
    exact ⟨place, e, rfl, he, rfl⟩
  | error e =>
    unfold Disk.files at h
    dsimp only at h
    rw [hplace] at h
    cases h

theorem Sound.time_le (hd : d.Sound) {s : Status} (h : d.files.status p = some s) : s.time ≤ d.clock := by
  obtain ⟨place, e, _, he, rfl⟩ := exists_of_status h
  exact hd.times place e he

end Disk
end AssetPack
