import AssetPack.Proofs.Files.Later
import Mathlib.Data.List.Basic

/-!
# Files that are written

A file that was written has the bytes that were given, at the place to which its path leads from then on. All other
files have the bytes that they had. Directories are made without a change of any file.
-/
namespace AssetPack
namespace Disk
variable {d d' : Disk} {place q : Place} {p : Path} {bs : Bytes} {names : List (List Char)}

theorem readAt_put (d : Disk) (place : Place) (bs : Bytes) (time : Nat) :
    (d.put place ⟨some bs, time⟩).readAt place = .ok bs := by
  rw [readAt, find?_put, if_pos rfl]

theorem readAt_put_of_ne (hne : q ≠ place) (e : Entry) : (d.put place e).readAt q = d.readAt q := by
  rw [readAt, find?_put, if_neg hne, readAt]

/-- A change of the names in a directory changes no file. -/
theorem readAt_touchDir (d : Disk) (place q : Place) : (d.touchDir place).readAt q = d.readAt q := by
  unfold touchDir
  split
  · rename_i e he
    by_cases hq : q = place
    · subst hq
      rw [readAt, find?_put, if_pos rfl, readAt, he]
      obtain ⟨bytes, time⟩ := e
      cases bytes <;> rfl
    · exact readAt_put_of_ne hq _
  · rfl

theorem readAt_create (d : Disk) (place : Place) (bs : Bytes) : (d.create place (some bs)).readAt place = .ok bs := by
  rw [create, readAt_touchDir]
  exact readAt_put _ place bs _

theorem readAt_create_of_ne (hne : q ≠ place) (bytes : Option Bytes) :
    (d.create place bytes).readAt q = d.readAt q := by
  rw [create, readAt_touchDir]
  exact readAt_put_of_ne hne _

/-! ## Directories -/

theorem isSome_of_readAt (h : d.readAt q = .ok bs) : (d.find? q).isSome := by
  cases hfind : d.find? q with
  | some e => rfl
  | none =>
    rw [readAt, hfind] at h
    cases h

theorem ne_of_readAt (hnew : d.find? place = none) (h : d.readAt q = .ok bs) : q ≠ place := by
  rintro rfl
  have hthere := isSome_of_readAt h
  rw [hnew] at hthere
  cases hthere

theorem readAt_makeDir (p : Path) (h : d.readAt q = .ok bs) : (d.makeDir p).2.readAt q = .ok bs := by
  unfold makeDir
  split
  · exact h
  · exact h
  · split
    · exact h
    · split
      · exact h
      · dsimp only
        split
        · exact h
        · rename_i hnew
          exact (readAt_create_of_ne (ne_of_readAt (by simpa using hnew) h) none).trans h

theorem readAt_ensureDir (p : Path) (h : d.readAt q = .ok bs) : (d.ensureDir p).2.readAt q = .ok bs := by
  have hmade := readAt_makeDir p h
  unfold ensureDir
  split <;> simpa only [*] using hmade

theorem readAt_makeDirsTo (fuel : Nat) (p : Path) (h : d.readAt q = .ok bs) :
    (makeDirsTo fuel p d).2.readAt q = .ok bs := by
  induction fuel generalizing d p with
  | zero => exact h
  | succ fuel ih =>
    have hmade := readAt_makeDir p h
    rw [makeDirsTo]
    split
    · exact h
    · split
      · rename_i d₁ hmissing
        rw [hmissing] at hmade
        split
        · exact hmade
        · rename_i parent _
          have hparent := ih parent hmade
          split
          · rename_i d₂ hmade₂
            rw [hmade₂] at hparent
            exact readAt_ensureDir p hparent
          · rename_i hmade₂
            rwa [hmade₂] at hparent
      · rename_i hmade₁
        rwa [hmade₁] at hmade
      · rename_i hmade₁
        rwa [hmade₁] at hmade

/-! ## Where a written file is -/

theorem walk_append {reaches : Place → Bool} {more : List (List Char)}
    (h : d.walk reaches place names = .ok q) :
    d.walk reaches place (names ++ more) = d.walk reaches q more := by
  induction names generalizing place with
  | nil =>
    cases h
    rfl
  | cons name rest ih =>
    obtain ⟨hdir, hcases⟩ := walk_cons h
    rw [List.cons_append, walk, hdir, Bool.not_true, if_neg Bool.false_ne_true]
    obtain ⟨hhere, hrest⟩ | ⟨rfl, hrest⟩ | ⟨⟨hnil, hhere, hup⟩, hlong, hin, hfound, hrest⟩ := hcases
    · rw [if_pos hhere]
      exact ih hrest
    · rw [if_neg (by decide), if_pos rfl]
      exact ih hrest
    · have hnone : (d.find? (place ++ [String.ofList name])).isNone = false := by
        rw [← Option.not_isSome, hfound, Bool.not_true]
      simp only [if_neg (not_or.mpr ⟨hnil, hhere⟩), if_neg hup, hlong, hin, hnone, Bool.not_true, Bool.or_false,
        Bool.false_eq_true, if_false]
      exact ih hrest

theorem names_of_leadingNames {name : List Char} (hlength : ¬(leadingNames p).length < p.names.length)
    (hlast : (leadingNames p).getLast? = some name) : name ≠ [] ∧ p.names = (leadingNames p).dropLast ++ [name] := by
  have hall : leadingNames p = p.names := by
    rw [leadingNames, List.length_reverse] at hlength
    have hsuffix := List.dropWhile_suffix (·.isEmpty) (l := p.names.reverse)
    rw [leadingNames, hsuffix.eq_of_length_le (by rw [List.length_reverse]; omega), List.reverse_reverse]
  constructor
  · rintro rfl
    have hfirst := List.head?_dropWhile_not (·.isEmpty) p.names.reverse
    rw [leadingNames, List.getLast?_reverse] at hlast
    rw [hlast] at hfirst
    cases hfirst
  · rw [← hall]
    exact (List.dropLast_append_getLast? name hlast).symm

/-- One step of a walk, to something that is there. -/
theorem walk_name {name : List Char} (hdir : d.isDir place) (hnil : name ≠ []) (hdots : ¬isDots name)
    (hlong : ¬isTooLong name) (hthere : (d.find? (place ++ [String.ofList name])).isSome) :
    d.walk (fun _ => true) place [name] = .ok (place ++ [String.ofList name]) := by
  simp only [isDots, Bool.or_eq_true, decide_eq_true_eq, not_or] at hdots
  have hnone : (d.find? (place ++ [String.ofList name])).isNone = false := by
    rw [← Option.not_isSome, hthere, Bool.not_true]
  simp [walk, hdir, hnil, hdots, hlong, hnone]

theorem walk_of_resolveParent {name : Option (List Char)} (h : d.resolveParent p = .ok (place, name)) :
    ∃ start, d.start p = .ok start ∧ ¬isTooLongPath p ∧
      d.walk (fun _ => true) start (leadingNames p).dropLast = .ok place ∧ (leadingNames p).getLast? = name := by
  unfold resolveParent resolveNames at h
  cases hstart : d.start p with
  | error e =>
    rw [hstart] at h
    cases h
  | ok start =>
    by_cases htoo : isTooLongPath p
    · simp only [hstart, if_pos htoo] at h
      cases h
    · simp only [hstart, if_neg htoo] at h
      refine ⟨start, rfl, htoo, ?_⟩
      split at h
      · cases h
      · split at h
        · obtain ⟨rfl, hlast⟩ := Prod.mk.inj (Except.ok.inj h)
          exact ⟨‹_›, hlast⟩
        · cases h

/-- A path leads to what was put under its last name. -/
theorem resolve_of_resolveParent {parent : Place} {name : List Char}
    (hparent : d.resolveParent p = .ok (parent, some name))
    (hname : ¬(isDots name ∨ (leadingNames p).length < p.names.length)) (hlong : ¬isTooLong name)
    (hlater : d.Later d') (hthere : (d'.find? (parent ++ [String.ofList name])).isSome) :
    d'.resolve p = .ok (parent ++ [String.ofList name]) := by
  obtain ⟨hdots, hlength⟩ := not_or.mp hname
  obtain ⟨start, hstart, htoo, hwalk, hlast⟩ := walk_of_resolveParent hparent
  obtain ⟨hnil, hnames⟩ := names_of_leadingNames hlength hlast
  have hfront : d'.walk (fun _ => true) start (leadingNames p).dropLast = .ok parent :=
    walk_mono (fun _ => hlater.isDir) (fun _ => hlater.isSome) (fun _ => id) hwalk
  simp only [resolve, resolveNames, hlater.start, hstart, if_neg htoo]
  rw [hnames, walk_append hfront]
  exact walk_name (hlater.isDir (isDir_of_resolveParent hparent)) hnil hdots hlong hthere

/-- What a write that succeeds leaves behind: the file under its path, and all other files as they were. -/
structure Wrote (d d' : Disk) (p : Path) (bs : Bytes) (place : Place) : Prop where
  resolve : d'.resolve p = .ok place
  readAt : d'.readAt place = .ok bs
  readAt_of_ne : ∀ q, q ≠ place → d'.readAt q = d.readAt q

theorem wrote_of_write (hd : d.Sound) (h : d.write p bs = (.ok (), d')) : ∃ place, d.Wrote d' p bs place := by
  have hlater : d.Later d' := by
    rw [show d' = (d.write p bs).2 by rw [h]]
    exact later_write hd p bs
  unfold write at h
  split at h
  · cases h
  · cases h
  · rename_i parent name hparent
    split at h
    · cases h
    · split at h
      · cases h
      · rename_i hname hlong
        have hresolve := resolve_of_resolveParent hparent hname hlong hlater
        refine ⟨parent ++ [String.ofList name], ?_⟩
        dsimp only at h
        split at h
        · cases h
        · obtain ⟨-, rfl⟩ := Prod.mk.inj h
          refine ⟨hresolve ?_, readAt_put _ _ bs _, fun q hne => readAt_put_of_ne hne _⟩
          rw [find?_put, if_pos rfl, Option.isSome_some]
        · obtain ⟨-, rfl⟩ := Prod.mk.inj h
          have hread := readAt_create d (parent ++ [String.ofList name]) bs
          refine ⟨hresolve ?_, hread, fun q hne => readAt_create_of_ne hne _⟩
          exact isSome_of_readAt hread

end Disk
end AssetPack
