import Mathlib.Data.List.Basic
import Mathlib.Data.List.DropRight
import AssetPack.Proofs.Files.Places

/-!
# Places behind a directory

Where a path leads that is put behind a directory: to a place of its own for a plain name, and inside the directory or
out of it for a relative path.
-/
namespace AssetPack

/-!
## Names in a directory

A plain name behind a directory leads to the place of that name in the place of the directory, if it leads anywhere.
So different plain names lead to different places.
-/

namespace Path
variable {sep : Char} {dir : Path} {name : String}

theorem splitAt_append_sep (cs rest : List Char) :
    splitAt sep (cs ++ sep :: rest) = splitAt sep cs ++ splitAt sep rest := by
  induction cs with
  | nil => exact splitAt_append List.not_mem_nil rest
  | cons c cs ih =>
    rw [List.cons_append, splitAt, splitAt, ih]
    cases hsplit : splitAt sep cs with
    | nil => exact (splitAt_ne_nil sep cs hsplit).elim
    | cons part parts =>
      dsimp only [List.cons_append]
      split <;> rfl

theorem not_isAbsolute (h : '/' ∉ name.toList) : isAbsolute name = false := by
  rw [isAbsolute]
  cases hname : name.toList with
  | nil => rfl
  | cons c cs =>
    have hne : c ≠ '/' := fun hc => h (hname ▸ hc ▸ List.mem_cons_self)
    simpa using hne

/-- Between a directory and a name stands a slash. -/
theorem toList_join (hdir : dir ≠ "") : ∃ front, ∀ name : String, '/' ∉ name.toList →
    (join dir name).toList = front ++ '/' :: name.toList := by
  by_cases hslash : dir.toList.getLast? = some '/'
  · refine ⟨dir.toList.dropLast, fun name hname => ?_⟩
    rw [join, not_isAbsolute hname, if_neg Bool.false_ne_true, if_pos (by simp [hslash]), String.toList_append,
      List.append_cons, List.dropLast_append_getLast? '/' hslash]
  · refine ⟨dir.toList, fun name hname => ?_⟩
    rw [join, not_isAbsolute hname, if_neg Bool.false_ne_true, if_neg (by simp [hslash, hdir]), String.toList_append,
      String.toList_append]
    simp

/-- The name is the last one of the path, and the rest depends on the directory alone. -/
theorem names_join (dir : Path) : ∃ front absolute, ∀ name : String, '/' ∉ name.toList →
    (join dir name).names = front ++ [name.toList] ∧ (join dir name).isAbsolute = absolute := by
  by_cases hdir : dir = ""
  · subst hdir
    refine ⟨[], false, fun name hname => ?_⟩
    have hjoin : join "" name = name := by
      rw [join, not_isAbsolute hname, if_neg Bool.false_ne_true, if_pos (by decide), String.empty_append]
    rw [hjoin, names, not_isAbsolute hname, if_neg Bool.false_ne_true, splitAt_of_not_mem hname]
    exact ⟨rfl, rfl⟩
  · obtain ⟨front, hfront⟩ := toList_join hdir
    cases front with
    | nil =>
      refine ⟨[], true, fun name hname => ?_⟩
      have habsolute : (join dir name).isAbsolute = true := by
        rw [isAbsolute, hfront name hname]
        rfl
      rw [names, habsolute, if_pos rfl, hfront name hname]
      exact ⟨splitAt_of_not_mem hname, rfl⟩
    | cons c cs =>
      refine ⟨if c = '/' then splitAt '/' cs else splitAt '/' (c :: cs), decide (c = '/'), fun name hname => ?_⟩
      have habsolute : (join dir name).isAbsolute = decide (c = '/') := by
        rw [isAbsolute, hfront name hname]
        rfl
      rw [names, habsolute, hfront name hname]
      by_cases hc : c = '/'
      · rw [decide_eq_true hc, if_pos rfl, if_pos hc, ← splitAt_of_not_mem hname, ← splitAt_append_sep]
        exact ⟨rfl, rfl⟩
      · rw [decide_eq_false hc, if_neg Bool.false_ne_true, if_neg hc, ← splitAt_of_not_mem hname, ← splitAt_append_sep]
        exact ⟨rfl, rfl⟩

theorem component?_of_plain (h : Plain name) : component? false name.toList = some (.normal name) := by
  rw [component?, if_neg h.ne_nil, if_neg h.ne_here, if_neg h.ne_up, String.ofList_toList]

end Path

namespace Disk
variable {d : Disk} {p q : Path}

/-- A plain name in a directory leads to the place of that name. -/
theorem resolve_join (d : Disk) (dir : Path) : ∃ parent : Place, ∀ name q, Path.Plain name →
    d.resolve (Path.join dir name) = .ok q → q = parent ++ [name] := by
  obtain ⟨front, absolute, hjoin⟩ := Path.names_join dir
  refine ⟨(front.filterMap (Path.component? false)).foldl follow (if absolute then [] else d.home), ?_⟩
  intro name q hname hresolve
  obtain ⟨hnames, habsolute⟩ := hjoin name hname.slash
  unfold resolve resolveNames at hresolve
  split at hresolve
  · cases hresolve
  · rename_i start hstart
    split at hresolve
    · cases hresolve
    · rw [walk_eq hresolve, start_eq_ok hstart, hnames, habsolute, List.filterMap_append, List.foldl_append,
        List.filterMap_cons_some (Path.component?_of_plain hname)]
      rfl

/-- Both paths lead to one place. -/
def SamePlace (d : Disk) (p q : Path) : Prop := ∃ place, d.resolve p = .ok place ∧ d.resolve q = .ok place

theorem SamePlace.name_eq {dir : Path} {name other : String}
    (h : d.SamePlace (Path.join dir name) (Path.join dir other)) (hname : Path.Plain name)
    (hother : Path.Plain other) : name = other := by
  obtain ⟨place, hplace, hplace'⟩ := h
  obtain ⟨parent, hparent⟩ := d.resolve_join dir
  have hsame := (hparent name place hname hplace).symm.trans (hparent other place hother hplace')
  exact List.singleton_inj.mp (List.append_cancel_left hsame)

end Disk

/-!
## Paths inside a directory

Where a path leads once its points are resolved, and when that is inside a directory. A relative path takes some names
away from where it begins and adds others, so whether it stays inside is decided by those two alone.
-/

namespace Path
variable {home : Place} {dir p name : Path}

/-- The place that a path names as seen from `home`, with its points resolved. -/
def target (home : Place) (p : Path) : Place := p.components.foldl Disk.follow home

/-- The path leads to the directory or into it. -/
def Inside (home : Place) (dir p : Path) : Prop := dir.target home <+: p.target home

instance : Decidable (Inside home dir p) := inferInstanceAs (Decidable (_ <+: _))


/-! ### What a relative path takes away and adds -/

/-- How a relative path goes on: so many names up, and then down these. -/
structure Course where
  ups : Nat
  down : List String
  deriving DecidableEq

namespace Course

/-- Where a course leads from a place. -/
def follow (c : Course) (place : Place) : Place := place.rdrop c.ups ++ c.down

/-- One more component. -/
def step (c : Course) : Component → Course
  | .up => if c.down = [] then ⟨c.ups + 1, []⟩ else ⟨c.ups, c.down.dropLast⟩
  | .normal name => ⟨c.ups, c.down ++ [name]⟩
  | .root | .here => c

theorem follow_step {component : Component} (h : component ≠ .root) (c : Course) (place : Place) :
    (c.step component).follow place = Disk.follow (c.follow place) component := by
  cases component with
  | root => exact (h rfl).elim
  | here => rfl
  | normal name => exact (List.append_assoc _ _ _).symm
  | up =>
    rw [step, Disk.follow, follow]
    split
    · rename_i hdown
      have hup : (place.rdrop c.ups).dropLast = place.rdrop (c.ups + 1) := by
        rw [List.rdrop, List.dropLast_eq_take, List.length_take, List.take_take, List.rdrop]
        congr 1
        omega
      rw [follow, hdown, List.append_nil, List.append_nil, hup]
    · exact (List.dropLast_append_of_ne_nil ‹_›).symm

theorem follow_foldl {components : List Component} (h : ∀ component ∈ components, component ≠ .root) (c : Course)
    (place : Place) : (components.foldl step c).follow place = components.foldl Disk.follow (c.follow place) := by
  induction components generalizing c with
  | nil => rfl
  | cons component rest ih =>
    obtain ⟨hfirst, hrest⟩ := List.forall_mem_cons.mp h
    rw [List.foldl_cons, List.foldl_cons, ih hrest, follow_step hfirst]

end Course

/-- The components that count behind the root. -/
def behind (p : Path) : List Component := p.names.filterMap (component? false)

/-- The course of a relative path. -/
def course (p : Path) : Course := p.behind.foldl Course.step ⟨0, []⟩

theorem component?_ne_root {first : Bool} {part : List Char} {component : Component}
    (h : component? first part = some component) : component ≠ .root := by
  rintro rfl
  unfold component? at h
  repeat' split at h
  all_goals cases h

theorem behind_ne_root : ∀ component ∈ p.behind, component ≠ .root := fun _ h =>
  have ⟨_, _, hpart⟩ := List.mem_filterMap.mp h
  component?_ne_root hpart

theorem target_eq (home : Place) (p : Path) :
    p.target home = p.behind.foldl Disk.follow (if p.isAbsolute then [] else home) := Disk.foldl_components home p

/-! ### Behind a directory -/

/-- A path with a slash in it, before which there is something. -/
theorem behind_of_slash {front rest : List Char} (hfront : front ≠ []) (hp : p.toList = front ++ '/' :: rest) :
    p.isAbsolute = isAbsolute (String.ofList front) ∧
      p.behind = behind (String.ofList front) ++ (splitAt '/' rest).filterMap (component? false) := by
  obtain ⟨c, cs, rfl⟩ := List.exists_cons_of_ne_nil hfront
  have habsolute : p.isAbsolute = isAbsolute (String.ofList (c :: cs)) := by
    rw [isAbsolute, isAbsolute, hp, String.toList_ofList]
    rfl
  refine ⟨habsolute, ?_⟩
  rw [behind, behind, ← List.filterMap_append, names, names, habsolute, hp, String.toList_ofList]
  cases hc : isAbsolute (String.ofList (c :: cs))
  · simp only [Bool.false_eq_true, if_false, splitAt_append_sep]
  · simp only [if_true, List.cons_append, List.drop_succ_cons, List.drop_zero, splitAt_append_sep]

/-- The components of a relative path come behind those of the directory. -/
theorem behind_join (dir : Path) (h : name.isAbsolute = false) : (join dir name).isAbsolute = dir.isAbsolute ∧
    (join dir name).behind = dir.behind ++ name.behind := by
  have hbehind : name.behind = (splitAt '/' name.toList).filterMap (component? false) := by
    rw [behind, names, h, if_neg Bool.false_ne_true]
  rw [join, h, if_neg Bool.false_ne_true, hbehind]
  by_cases hslash : dir.toList.getLast? = some '/'
  · rw [if_pos (by simp [hslash])]
    obtain ⟨front, hdir⟩ := List.getLast?_eq_some_iff.mp hslash
    have happend : (dir ++ name).toList = front ++ '/' :: name.toList := by
      rw [String.toList_append, hdir, List.append_assoc]
      rfl
    by_cases hfront : front = []
    · -- the directory is the root
      subst hfront
      have hroot : dir.isAbsolute = true ∧ (dir ++ name).isAbsolute = true := by
        rw [isAbsolute, isAbsolute, hdir, happend]
        exact ⟨rfl, rfl⟩
      rw [hroot.1, hroot.2, behind, behind, names, names, hroot.1, hroot.2, hdir, happend]
      exact ⟨rfl, rfl⟩
    · obtain ⟨habsolute, hcomponents⟩ := behind_of_slash hfront happend
      have hends : dir.toList = front ++ '/' :: [] := hdir
      obtain ⟨habsolute', hcomponents'⟩ := behind_of_slash hfront hends
      rw [habsolute, hcomponents, habsolute', hcomponents']
      exact ⟨rfl, by simp [splitAt, component?]⟩
  · by_cases hdir : dir = ""
    · subst hdir
      rw [if_pos (by decide), String.empty_append, h, hbehind]
      exact ⟨rfl, rfl⟩
    · rw [if_neg (by simp [hslash, hdir])]
      have hfront : dir.toList ≠ [] := fun hnil => hdir (String.toList_inj.mp hnil)
      have happend : (dir ++ "/" ++ name).toList = dir.toList ++ '/' :: name.toList := by
        rw [String.toList_append, String.toList_append, List.append_assoc]
        rfl
      have hsplit := behind_of_slash hfront happend
      rwa [String.ofList_toList] at hsplit

/-- A relative path leads on from the directory on its course. -/
theorem target_join (home : Place) (dir : Path) (h : name.isAbsolute = false) :
    (join dir name).target home = name.course.follow (dir.target home) := by
  obtain ⟨habsolute, hbehind⟩ := behind_join dir h
  rw [target_eq, target_eq, habsolute, hbehind, List.foldl_append, course,
    Course.follow_foldl behind_ne_root, Course.follow, List.rdrop_zero, List.append_nil]

/-- A relative path leads out of the directory unless it goes down again through the names that it went up. -/
theorem inside_join_iff (home : Place) (dir : Path) (h : name.isAbsolute = false) :
    Inside home dir (join dir name) ↔ (dir.target home).rtake name.course.ups <+: name.course.down := by
  have hsplit : (dir.target home).rdrop name.course.ups ++ (dir.target home).rtake name.course.ups =
      dir.target home := List.take_append_drop _ _
  rw [Inside, target_join home dir h, Course.follow]
  conv_lhs => lhs; rw [← hsplit]
  exact List.prefix_append_right_inj _

/-- A name without slashes stays in the directory, unless it is the way up. -/
theorem inside_join_of_name (home : Place) (dir : Path) (hslash : '/' ∉ name.toList) (hup : name ≠ "..") :
    Inside home dir (join dir name) := by
  have hups : name.course.ups = 0 := by
    rw [course, behind, names, not_isAbsolute hslash, if_neg Bool.false_ne_true, splitAt_of_not_mem hslash,
      List.filterMap_cons, List.filterMap_nil]
    have hne : name.toList ≠ ['.', '.'] := fun h => hup (String.toList_inj.mp h)
    unfold component?
    simp only [if_neg hne, Bool.false_eq_true, if_false]
    split_ifs <;> rfl
  rw [inside_join_iff home dir (not_isAbsolute hslash), hups, List.rtake_zero]
  exact List.nil_prefix

end Path

end AssetPack
