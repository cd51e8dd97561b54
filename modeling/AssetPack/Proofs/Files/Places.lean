import AssetPack.Files.Path
import AssetPack.Proofs.Files.Answers

/-!
# Places and their paths

Where a path leads, if anywhere, can be told from its components alone. The path of a place leads back to that
place, if its names can stand in a path. Those that a path leads to can, so the canonical name of a path names
one place only.
-/
namespace AssetPack

namespace Path
variable {sep : Char} {part cs : List Char}

theorem splitAt_ne_nil (sep : Char) (cs : List Char) : splitAt sep cs ≠ [] := by
  cases cs with
  | nil => exact List.cons_ne_nil _ _
  | cons c rest =>
    rw [splitAt]
    split
    · split <;> exact List.cons_ne_nil _ _
    · exact List.cons_ne_nil _ _

theorem not_mem_of_mem_splitAt (h : part ∈ splitAt sep cs) : sep ∉ part := by
  induction cs generalizing part with
  | nil =>
    obtain rfl := List.mem_singleton.mp h
    exact List.not_mem_nil
  | cons c rest ih =>
    rw [splitAt] at h
    split at h
    · rename_i first parts hsplit
      rw [hsplit] at ih
      split at h
      · rcases List.mem_cons.mp h with rfl | h
        · exact List.not_mem_nil
        · exact ih h
      · rename_i hne
        rcases List.mem_cons.mp h with rfl | h
        · exact List.not_mem_cons_of_ne_of_not_mem (Ne.symm hne) (ih List.mem_cons_self)
        · exact ih (List.mem_cons_of_mem _ h)
    · rename_i hsplit
      exact (splitAt_ne_nil sep rest hsplit).elim

theorem splitAt_of_not_mem (h : sep ∉ part) : splitAt sep part = [part] := by
  induction part with
  | nil => rfl
  | cons c cs ih =>
    rw [splitAt, ih (List.not_mem_of_not_mem_cons h)]
    exact if_neg (Ne.symm (List.ne_of_not_mem_cons h))

/-- What stands before the first separator is the first part. -/
theorem splitAt_append (h : sep ∉ part) (rest : List Char) :
    splitAt sep (part ++ sep :: rest) = part :: splitAt sep rest := by
  induction part with
  | nil =>
    rw [List.nil_append, splitAt]
    cases hsplit : splitAt sep rest with
    | nil => exact (splitAt_ne_nil sep rest hsplit).elim
    | cons first parts => exact if_pos rfl
  | cons c cs ih =>
    rw [List.cons_append, splitAt, ih (List.not_mem_of_not_mem_cons h)]
    exact if_neg (Ne.symm (List.ne_of_not_mem_cons h))

theorem not_mem_of_mem_names {p : Path} {name : List Char} (h : name ∈ p.names) : '/' ∉ name :=
  not_mem_of_mem_splitAt h

theorem components_of_isAbsolute {p : Path} (h : p.isAbsolute) :
    p.components = .root :: p.names.filterMap (component? false) := by
  unfold components
  cases hnames : p.names with
  | nil => exact (splitAt_ne_nil _ _ hnames).elim
  | cons name rest =>
    simp only [h, if_true, List.filterMap_cons]
    cases component? false name <;> rfl

/-- A name of something in a directory, as it can stand in a path. -/
structure Plain (name : String) : Prop where
  slash : '/' ∉ name.toList
  ne_nil : name.toList ≠ []
  ne_here : name.toList ≠ ['.']
  ne_up : name.toList ≠ ['.', '.']

end Path

namespace Disk
variable {d : Disk} {reaches : Place → Bool} {place q : Place} {names : List (List Char)} {p : Path}

/-- The names of a place can stand in a path. -/
def Plain (place : Place) : Prop := ∀ name ∈ place, Path.Plain name

theorem Plain.append (h : Plain place) {name : String} (hname : Path.Plain name) : Plain (place ++ [name]) := by
  intro n hn
  rcases List.mem_append.mp hn with hn | hn
  · exact h n hn
  · exact List.mem_singleton.mp hn ▸ hname

theorem Plain.dropLast (h : Plain place) : Plain place.dropLast :=
  fun name hname => h name (List.dropLast_subset place hname)

/-! ## Walks -/

/-- A walk that gets to its end goes on from its first name. -/
theorem walk_cons {name : List Char} (h : d.walk reaches place (name :: names) = .ok q) : d.isDir place ∧
    ((name = [] ∨ name = ['.']) ∧ d.walk reaches place names = .ok q ∨
      name = ['.', '.'] ∧ d.walk reaches place.dropLast names = .ok q ∨
      (name ≠ [] ∧ name ≠ ['.'] ∧ name ≠ ['.', '.']) ∧ isTooLong name = false ∧
        reaches (place ++ [String.ofList name]) ∧ (d.find? (place ++ [String.ofList name])).isSome ∧
        d.walk reaches (place ++ [String.ofList name]) names = .ok q) := by
  rw [walk] at h
  split at h
  · cases h
  · rename_i hdir
    refine ⟨by simpa using hdir, ?_⟩
    split at h
    · exact .inl ⟨‹_›, h⟩
    · rename_i hhere
      obtain ⟨hnil, hpoint⟩ := not_or.mp hhere
      split at h
      · exact .inr (.inl ⟨‹_›, h⟩)
      · rename_i hup
        simp only at h
        split at h
        · cases h
        · rename_i hreach
          split at h
          · cases h
          · rename_i hthere
            simp only [Bool.or_eq_true, Bool.not_eq_eq_eq_not, Bool.not_true, not_or, Bool.not_eq_true,
              Bool.not_eq_false] at hreach
            refine .inr (.inr ⟨⟨hnil, hpoint, hup⟩, hreach.1, hreach.2, ?_, h⟩)
            simpa [Option.isSome_iff_ne_none] using hthere

/-- The names of what a walk leads to can stand in a path. -/
theorem plain_walk (hnames : ∀ name ∈ names, '/' ∉ name) (hplace : Plain place)
    (h : d.walk reaches place names = .ok q) : Plain q := by
  induction names generalizing place with
  | nil =>
    cases h
    exact hplace
  | cons name rest ih =>
    obtain ⟨hname, hrest⟩ := List.forall_mem_cons.mp hnames
    obtain ⟨_, ⟨_, h⟩ | ⟨_, h⟩ | ⟨⟨hnil, hhere, hup⟩, _, _, _, h⟩⟩ := walk_cons h
    · exact ih hrest hplace h
    · exact ih hrest hplace.dropLast h
    · refine ih hrest (hplace.append ⟨?_, ?_, ?_, ?_⟩) h <;> rwa [String.toList_ofList]

/-- Where a component leads from a place. -/
def follow (place : Place) : Path.Component → Place
  | .root => []
  | .here => place
  | .up => place.dropLast
  | .normal name => place ++ [name]

/-- A walk leads where the components of its names lead. -/
theorem walk_eq (h : d.walk reaches place names = .ok q) :
    q = (names.filterMap (Path.component? false)).foldl follow place := by
  induction names generalizing place with
  | nil =>
    cases h
    rfl
  | cons name rest ih =>
    obtain ⟨_, ⟨rfl | rfl, hrest⟩ | ⟨rfl, hrest⟩ | ⟨⟨hnil, hhere, hup⟩, _, _, _, hrest⟩⟩ := walk_cons h
    · exact ih hrest
    · exact ih hrest
    · exact ih hrest
    · have hcomponent : Path.component? false name = some (.normal (String.ofList name)) := by
        rw [Path.component?, if_neg hnil, if_neg hhere, if_neg hup]
      rw [List.filterMap_cons_some hcomponent]
      exact ih hrest

/-- A walk leads to the same place where at least the same can be gone to. -/
theorem walk_mono {d' : Disk} {reaches' : Place → Bool} (hdir : ∀ place, d.isDir place → d'.isDir place)
    (hthere : ∀ place, (d.find? place).isSome → (d'.find? place).isSome)
    (hreach : ∀ place, reaches place → reaches' place) (h : d.walk reaches place names = .ok q) :
    d'.walk reaches' place names = .ok q := by
  induction names generalizing place with
  | nil => exact h
  | cons name rest ih =>
    obtain ⟨hd, hcases⟩ := walk_cons h
    rw [walk, hdir place hd, Bool.not_true, if_neg Bool.false_ne_true]
    obtain ⟨hhere, hrest⟩ | ⟨rfl, hrest⟩ | ⟨⟨hnil, hhere, hup⟩, hlong, hin, hfound, hrest⟩ := hcases
    · rw [if_pos hhere]
      exact ih hrest
    · rw [if_neg (by decide), if_pos rfl]
      exact ih hrest
    · have hnone : (d'.find? (place ++ [String.ofList name])).isNone = false := by
        rw [← Option.not_isSome, hthere _ hfound]
        rfl
      simp only [if_neg (not_or.mpr ⟨hnil, hhere⟩), if_neg hup, hlong, hreach _ hin, hnone]
      exact ih hrest

/-! ## Paths -/

theorem toList_pathOf (hplace : place ≠ []) :
    (pathOf place).toList = place.flatMap fun name => '/' :: name.toList := by
  cases place with
  | nil => exact (hplace rfl).elim
  | cons name rest => simp [pathOf, List.flatMap_map]

theorem isAbsolute_pathOf (place : Place) : Path.isAbsolute (pathOf place) := by
  cases place with
  | nil => rfl
  | cons name rest =>
    rw [Path.isAbsolute, toList_pathOf (List.cons_ne_nil _ _)]
    rfl

theorem names_pathOf (h : Plain place) (hplace : place ≠ []) :
    Path.names (pathOf place) = place.map String.toList := by
  have hsplit (place : Place) (name : String) (h : Plain (name :: place)) :
      Path.splitAt '/' (name.toList ++ place.flatMap fun name => '/' :: name.toList) =
        (name :: place).map String.toList := by
    induction place generalizing name with
    | nil => simpa using Path.splitAt_of_not_mem (h name List.mem_cons_self).slash
    | cons next rest ih =>
      obtain ⟨hname, hrest⟩ := List.forall_mem_cons.mp h
      rw [List.flatMap_cons, List.cons_append, Path.splitAt_append hname.slash, ih next hrest]
      rfl
  rw [Path.names, if_pos (isAbsolute_pathOf place), toList_pathOf hplace]
  cases place with
  | nil => exact (hplace rfl).elim
  | cons name rest => exact hsplit rest name h

/-- The path of a place has its names for components. -/
theorem components_pathOf (h : Plain place) : Path.components (pathOf place) = .root :: place.map .normal := by
  have hcomponents (place : Place) (h : Plain place) :
      (place.map String.toList).filterMap (Path.component? false) = place.map .normal := by
    induction place with
    | nil => rfl
    | cons name rest ih =>
      obtain ⟨hname, hrest⟩ := List.forall_mem_cons.mp h
      have hcomponent : Path.component? false name.toList = some (.normal name) := by
        rw [Path.component?, if_neg hname.ne_nil, if_neg hname.ne_here, if_neg hname.ne_up, String.ofList_toList]
      rw [List.map_cons, List.filterMap_cons_some hcomponent, ih hrest, List.map_cons]
  cases place with
  | nil => rfl
  | cons name rest =>
    rw [Path.components_of_isAbsolute (isAbsolute_pathOf _), names_pathOf h (List.cons_ne_nil _ _), hcomponents _ h]

theorem start_eq_ok {place : Place} (h : d.start p = .ok place) :
    place = if p.isAbsolute then [] else d.home := by
  unfold start at h
  split at h
  · cases h
  · split at h <;> cases h
    rfl

theorem plain_start (hhome : Plain d.home) (h : d.start p = .ok place) : Plain place := by
  rw [start_eq_ok h]
  split
  · exact fun _ hname => nomatch hname
  · exact hhome

/-- Where a path leads, if it can be resolved at all. -/
def aim (d : Disk) (p : Path) : Place := p.components.foldl follow d.home

theorem aim_pathOf (h : Plain place) : d.aim (pathOf place) = place := by
  have hfold (front rest : Place) : (rest.map Path.Component.normal).foldl follow front = front ++ rest := by
    induction rest generalizing front with
    | nil => exact (List.append_nil _).symm
    | cons name rest ih =>
      rw [List.map_cons, List.foldl_cons, ih, follow, List.append_assoc]
      rfl
  rw [aim, components_pathOf h]
  exact hfold [] place

/-- The components of a path lead where its names lead. -/
theorem foldl_components (home : Place) (p : Path) : p.components.foldl follow home =
    (p.names.filterMap (Path.component? false)).foldl follow (if p.isAbsolute then [] else home) := by
  by_cases habsolute : p.isAbsolute
  · rw [Path.components_of_isAbsolute habsolute, if_pos habsolute]
    rfl
  · rw [if_neg habsolute]
    unfold Path.components
    cases p.names with
    | nil => rfl
    | cons name rest =>
      simp only [habsolute, Bool.false_eq_true, if_false, List.filterMap_cons, List.nil_append, Option.toList_none,
        List.append_nil]
      -- a point that a relative path begins with is a component, but it leads nowhere else
      by_cases hhere : name = ['.']
      · subst hhere
        rfl
      · have hsame : Path.component? true name = Path.component? false name := by
          unfold Path.component?
          rw [if_neg hhere, if_neg hhere]
        rw [hsame]
        cases Path.component? false name <;> rfl

theorem walk_start {start : Place} (hstart : d.start p = .ok start) (h : d.walk reaches start p.names = .ok q) :
    q = d.aim p := by
  rw [walk_eq h, aim, foldl_components, start_eq_ok hstart]

theorem eq_aim_of_resolve (h : d.resolve p = .ok q) : q = d.aim p := by
  unfold resolve resolveNames at h
  split at h
  · cases h
  · split at h
    · cases h
    · exact walk_start ‹_› h

end Disk

/-!
## Sorted paths

The order of paths is one of their components, and of two paths with different components one comes before the other.
So it does not matter in which order paths are put into a sorted list, unless they are two spellings of one path.
-/
namespace Path
variable {p q : Path} {a b c : Component} {as bs cs : List Component}

namespace Component

theorem not_before_self (a : Component) : a.before a = false := by
  cases a <;> simp [before]

theorem before_normal {a b : String} : (normal a).before (normal b) = true ↔ a < b := decide_eq_true_iff

theorem before_or_eq (a b : Component) : a.before b = true ∨ a = b ∨ b.before a = true := by
  cases a <;> cases b
  case normal.normal a b =>
    rw [before_normal, before_normal]
    by_cases hab : a < b
    · exact .inl hab
    · by_cases hba : b < a
      · exact .inr (.inr hba)
      · exact .inr (.inl (congrArg normal (String.le_antisymm (String.not_lt.mp hba) (String.not_lt.mp hab))))
  all_goals simp [before, rank]

theorem before_trans (h : a.before b = true) (h' : b.before c = true) : a.before c = true := by
  cases a <;> cases b <;> cases c
  case normal.normal.normal =>
    exact before_normal.mpr (String.lt_trans (before_normal.mp h) (before_normal.mp h'))
  all_goals simp_all [before, rank]

end Component

theorem not_beforeList_self (as : List Component) : beforeList as as = false := by
  induction as with
  | nil => rfl
  | cons a as ih => rw [beforeList, if_pos rfl, ih]

theorem beforeList_or_eq (as bs : List Component) : beforeList as bs = true ∨ as = bs ∨ beforeList bs as = true := by
  induction as generalizing bs with
  | nil =>
    cases bs with
    | nil => exact .inr (.inl rfl)
    | cons b bs => exact .inl rfl
  | cons a as ih =>
    cases bs with
    | nil => exact .inr (.inr rfl)
    | cons b bs =>
      by_cases hab : a = b
      · subst hab
        rw [beforeList, beforeList, if_pos rfl, if_pos rfl]
        exact (ih bs).imp_right (.imp_left (congrArg (a :: ·)))
      · rw [beforeList, beforeList, if_neg hab, if_neg (Ne.symm hab)]
        exact (a.before_or_eq b).imp_right fun h => .inr (h.resolve_left hab)

theorem beforeList_trans (h : beforeList as bs = true) (h' : beforeList bs cs = true) : beforeList as cs = true := by
  induction as generalizing bs cs with
  | nil =>
    cases cs with
    | nil => cases bs <;> cases h'
    | cons c cs => rfl
  | cons a as ih =>
    cases bs with
    | nil => cases h
    | cons b bs =>
      cases cs with
      | nil => cases h'
      | cons c cs =>
        rw [beforeList] at h h' ⊢
        split at h
        · subst a
          split at h'
          · subst b
            rw [if_pos rfl]
            exact ih h h'
          · rwa [if_neg ‹_›]
        · split at h'
          · subst b
            rwa [if_neg ‹_›]
          · have hac := Component.before_trans h h'
            rw [if_neg (fun heq => by rw [heq, c.not_before_self] at hac; cases hac)]
            exact hac

/-! ### Paths in a sorted list -/

theorem before_trans {r : Path} (h : p.before q = true) (h' : q.before r = true) : p.before r = true :=
  beforeList_trans h h'

theorem not_before_of_before (h : p.before q = true) : q.before p = false := by
  rw [← Bool.not_eq_true]
  intro h'
  have hself : p.before p = true := before_trans h h'
  rw [before, not_beforeList_self] at hself
  cases hself

theorem not_same_of_before (h : p.before q = true) : p.same q = false ∧ q.same p = false := by
  have hne : p.components ≠ q.components := by
    intro heq
    rw [before, heq, not_beforeList_self] at h
    cases h
  exact ⟨decide_eq_false hne, decide_eq_false hne.symm⟩

theorem insertSorted_of_same {r : Path} (h : p.same r = true) (rs : List Path) : insertSorted p (r :: rs) = r :: rs := by
  rw [insertSorted, if_pos h]

theorem insertSorted_of_before {r : Path} (h : p.before r = true) (rs : List Path) :
    insertSorted p (r :: rs) = p :: r :: rs := by
  rw [insertSorted, if_neg (Bool.not_eq_true _ ▸ (not_same_of_before h).1), if_pos h]

theorem insertSorted_of_after {r : Path} (h : r.before p = true) (rs : List Path) :
    insertSorted p (r :: rs) = r :: insertSorted p rs := by
  rw [insertSorted, if_neg (Bool.not_eq_true _ ▸ (not_same_of_before h).2),
    if_neg (Bool.not_eq_true _ ▸ not_before_of_before h)]

/-- Two paths, of which the first comes before the second, can be put into a list in either order. -/
theorem insertSorted_comm_of_before (h : p.before q = true) (rs : List Path) :
    insertSorted p (insertSorted q rs) = insertSorted q (insertSorted p rs) := by
  induction rs with
  | nil => exact (insertSorted_of_before h []).trans (insertSorted_of_after h []).symm
  | cons r rs ih =>
    rcases beforeList_or_eq p.components r.components with hp | hp | hp
    · rw [insertSorted_of_before (r := r) hp, insertSorted_of_after h]
      -- whatever comes first when `q` is put in, `p` comes before it
      rcases beforeList_or_eq q.components r.components with hq | hq | hq
      · rw [insertSorted_of_before (r := r) hq, insertSorted_of_before h]
      · rw [insertSorted_of_same (r := r) (decide_eq_true hq), insertSorted_of_before hp]
      · rw [insertSorted_of_after (r := r) hq, insertSorted_of_before hp]
    · have hq : r.before q = true := by rwa [before, ← hp]
      rw [insertSorted_of_same (decide_eq_true hp), insertSorted_of_after hq, insertSorted_of_same (decide_eq_true hp)]
    · have hq : r.before q = true := beforeList_trans hp h
      rw [insertSorted_of_after (r := r) hp, insertSorted_of_after hq, insertSorted_of_after hq,
        insertSorted_of_after (r := r) hp, ih]

/-- Paths can be put into a list in either order, if they are not two spellings of one path. -/
theorem insertSorted_comm (h : p.same q = true → p = q) (rs : List Path) :
    insertSorted p (insertSorted q rs) = insertSorted q (insertSorted p rs) := by
  rcases beforeList_or_eq p.components q.components with hpq | hpq | hpq
  · exact insertSorted_comm_of_before hpq rs
  · rw [h (decide_eq_true hpq)]
  · exact (insertSorted_comm_of_before hpq rs).symm

end Path
end AssetPack
