import AssetPack.Proofs.Files.Later

/-!
# What is answered as before

A path that led somewhere keeps its canonical name, or goes on having none. A file that can be read has the bytes
that it had, if what is listed for it is not newer.
-/
namespace AssetPack
namespace Disk
variable {d d' : Disk} {reaches : Place → Bool} {place q : Place} {names : List (List Char)} {p f : Path}

/-! ## Names of what is there -/

/-- By these names one only comes to what is there. -/
def Passes (d : Disk) (place : Place) : List (List Char) → Prop
  | [] => True
  | name :: rest => (d.find? place).isSome ∧
      if name = [] ∨ name = ['.'] then d.Passes place rest
      else if name = ['.', '.'] then d.Passes place.dropLast rest
      else (d.find? (place ++ [String.ofList name])).isSome ∧ d.Passes (place ++ [String.ofList name]) rest

theorem passes_of_walk (h : d.walk reaches place names = .ok q) : d.Passes place names := by
  induction names generalizing place with
  | nil => trivial
  | cons name rest ih =>
    obtain ⟨hdir, hcases⟩ := walk_cons h
    refine ⟨isSome_of_isDir hdir, ?_⟩
    obtain ⟨hhere, hrest⟩ | ⟨rfl, hrest⟩ | ⟨⟨hnil, hhere, hup⟩, _, _, hfound, hrest⟩ := hcases
    · rw [if_pos hhere]
      exact ih hrest
    · rw [if_neg (by decide), if_pos rfl]
      exact ih hrest
    · rw [if_neg (not_or.mpr ⟨hnil, hhere⟩), if_neg hup]
      exact ⟨hfound, ih hrest⟩

/-- A walk by such names ends as it did, also where it cannot be gone on. -/
theorem Later.walk (h : d.Later d') (hpasses : d.Passes place names) :
    d'.walk reaches place names = d.walk reaches place names := by
  induction names generalizing place with
  | nil => rfl
  | cons name rest ih =>
    obtain ⟨hplace, hpasses⟩ := hpasses
    rw [Disk.walk, Disk.walk, (isSome_of_kept h.kept hplace).2]
    split at hpasses
    · simp only [if_pos ‹name = [] ∨ name = ['.']›, ih hpasses]
    · split at hpasses
      · simp only [if_neg ‹¬(name = [] ∨ name = ['.'])›, if_pos ‹name = ['.', '.']›, ih hpasses]
      · obtain ⟨hnext, hpasses⟩ := hpasses
        have hnone : (d'.find? (place ++ [String.ofList name])).isNone =
            (d.find? (place ++ [String.ofList name])).isNone := by
          rw [← Option.not_isSome, ← Option.not_isSome, hnext, h.isSome hnext]
        simp only [if_neg ‹¬(name = [] ∨ name = ['.'])›, if_neg ‹¬name = ['.', '.']›, hnone, ih hpasses]

theorem Sound.isSome_of_append (hd : d.Sound) {front rest : Place} (h : (d.find? (front ++ rest)).isSome) :
    (d.find? front).isSome := by
  induction rest generalizing front with
  | nil => rwa [List.append_nil] at h
  | cons name rest ih =>
    rw [List.append_cons] at h
    exact isSome_of_isDir (hd.parents front name (ih h))

theorem Sound.isSome_dropLast (hd : d.Sound) (h : (d.find? place).isSome) : (d.find? place.dropLast).isSome := by
  obtain rfl | ⟨parent, name, rfl⟩ := List.eq_nil_or_concat place
  · exact h
  · rw [List.concat_eq_append] at h ⊢
    rw [List.dropLast_concat]
    exact hd.isSome_of_append h

/-- Whatever a walk leads to is there. -/
theorem Sound.isSome_of_walk (hd : d.Sound) (hplace : (d.find? place).isSome)
    (h : d.walk reaches place names = .ok q) : (d.find? q).isSome := by
  induction names generalizing place with
  | nil =>
    cases h
    exact hplace
  | cons name rest ih =>
    obtain ⟨_, ⟨_, hrest⟩ | ⟨_, hrest⟩ | ⟨_, _, _, hfound, hrest⟩⟩ := walk_cons h
    · exact ih hplace hrest
    · exact ih (hd.isSome_dropLast hplace) hrest
    · exact ih hfound hrest

theorem Sound.passes_pathOf (hd : d.Sound) (hplain : Plain place) (h : (d.find? place).isSome) :
    d.Passes [] (Path.names (pathOf place)) := by
  have hall (rest : Place) (hplain : Plain rest) (front : Place) (h : (d.find? (front ++ rest)).isSome) :
      d.Passes front (rest.map String.toList) := by
    induction rest generalizing front with
    | nil => trivial
    | cons name rest ih =>
      obtain ⟨hname, hrest⟩ := List.forall_mem_cons.mp hplain
      rw [List.append_cons] at h
      rw [List.map_cons, Passes, if_neg (not_or.mpr ⟨hname.ne_nil, hname.ne_here⟩), if_neg hname.ne_up,
        String.ofList_toList]
      exact ⟨hd.isSome_of_append (hd.isSome_of_append h), hd.isSome_of_append h, ih hrest _ h⟩
  by_cases hplace : place = []
  · subst hplace
    exact ⟨h, trivial⟩
  · rw [names_pathOf hplain hplace]
    exact hall place hplain [] h

/-- A canonical name is the path of a place where something is. -/
theorem Sound.of_canonical (hd : d.Sound) {q : Path} (h : d.canonical p = .ok q) :
    q = pathOf (d.aim p) ∧ Plain (d.aim p) ∧ (d.find? (d.aim p)).isSome := by
  unfold canonical at h
  split at h
  · cases h
  · rename_i start hstart
    split at h
    · cases h
    · rename_i place hwalk
      cases h
      have hsome : (d.find? start).isSome := by
        cases hnames : p.names with
        | nil => exact (Path.splitAt_ne_nil _ _ hnames).elim
        | cons name rest =>
          rw [hnames] at hwalk
          exact isSome_of_isDir (walk_cons hwalk).1
      rw [← walk_start hstart hwalk]
      exact ⟨rfl, plain_walk (fun _ => Path.not_mem_of_mem_names) (plain_start hd.home hstart) hwalk,
        hd.isSome_of_walk hsome hwalk⟩

/-! ## Answers -/

/-- A path that leads somewhere keeps its canonical name, or goes on having none. -/
theorem Later.canonical (hd : d.Sound) (h : d.Later d') (hp : d.files.Leads p) : d'.canonical p = d.canonical p := by
  have hpasses (start : Place) (hstart : d.start p = .ok start) : d.Passes start p.names := by
    cases hp with
    | read hread =>
      obtain ⟨place, hplace, _⟩ := exists_of_read hread
      unfold Disk.resolve resolveNames at hplace
      rw [hstart] at hplace
      dsimp only at hplace
      split at hplace
      · cases hplace
      · exact passes_of_walk hplace
    | canonical hq =>
      change d.canonical p = _ at hq
      unfold Disk.canonical at hq
      rw [hstart] at hq
      dsimp only at hq
      split at hq
      · cases hq
      · exact passes_of_walk ‹_›
    | name hq =>
      obtain ⟨rfl, hplain, hsome⟩ := hd.of_canonical hq
      rw [start_eq_ok hstart, if_pos (isAbsolute_pathOf _)]
      exact hd.passes_pathOf hplain hsome
  unfold Disk.canonical
  rw [h.start]
  cases hstart : d.start p with
  | error e => rfl
  | ok start =>
    dsimp only
    rw [h.walk (hpasses start hstart)]

/-- Two paths with the same canonical name read the same file, if they can be resolved at all. -/
theorem read_congr (hd : d.Sound) {p' q : Path} (hq : d.canonical p = .ok q) (hq' : d.canonical p' = .ok q)
    {bs : Bytes} (hread : d.files.read p = .ok bs) {s : Status} (hs : d.files.status p' = some s) :
    d.files.read p' = .ok bs := by
  obtain ⟨place, hplace, hread⟩ := exists_of_read hread
  obtain ⟨place', _, hplace', _⟩ := exists_of_status hs
  obtain ⟨rfl, hplain, _⟩ := hd.of_canonical hq
  obtain ⟨hpath, hplain', _⟩ := hd.of_canonical hq'
  have haim : d.aim p = d.aim p' := by
    rw [← aim_pathOf (d := d) hplain, hpath, aim_pathOf hplain']
  obtain rfl : place = place' := (eq_aim_of_resolve hplace).trans (haim.trans (eq_aim_of_resolve hplace').symm)
  exact (read_of_resolve hplace').trans hread

/-- What can be read at a path lies where its canonical name leads. -/
theorem aim_settle (hd : d.Sound) (hplace : d.resolve p = .ok place) :
    d.aim ((Look.settle p).eval d.files) = place := by
  rw [Look.eval_settle, eq_aim_of_resolve hplace]
  split
  · obtain ⟨rfl, hplain, _⟩ := hd.of_canonical ‹d.files.canonical p = _›
    exact aim_pathOf hplain
  · rfl

namespace Later

/-- What is read at a path is the same while what is there is not newer, by whatever spelling of its name it is
known. -/
theorem read_of_same (hd : d.Sound) (h : d.Later d') {bs : Bytes} (hread : d.files.read p = .ok bs)
    (hsame : Path.same f ((Look.settle p).eval d.files)) {s : Status} (hs : d'.files.status f = some s)
    (htime : s.time ≤ d.clock) : d'.files.read p = .ok bs := by
  obtain ⟨place, hplace, hread⟩ := exists_of_read hread
  obtain ⟨place', e', hplace', he', rfl⟩ := exists_of_status hs
  have haim : d'.aim f = place := by
    rw [← aim_settle hd hplace, aim, aim, h.home, of_decide_eq_true hsame]
  rw [eq_aim_of_resolve hplace', haim] at he'
  rw [read_of_resolve (h.resolve hplace)]
  exact h.readAt hread he' htime

/-- What is read at a path is the same while what is there is not newer. -/
theorem read (h : d.Later d') {bs : Bytes} (hread : d.files.read p = .ok bs) {s : Status}
    (hs : d'.files.status p = some s) (htime : s.time ≤ d.clock) : d'.files.read p = .ok bs := by
  obtain ⟨place, hplace, hread⟩ := exists_of_read hread
  obtain ⟨place', e', hplace', he', rfl⟩ := exists_of_status hs
  have hresolve := h.resolve hplace
  obtain rfl := Except.ok.inj (hplace'.symm.trans hresolve)
  rw [read_of_resolve hresolve]
  exact h.readAt hread he' htime

/-- What can be read can be read later as well, perhaps with other bytes. -/
theorem exists_read (h : d.Later d') {bs : Bytes} (hread : d.files.read p = .ok bs) :
    ∃ bs, d'.files.read p = .ok bs := by
  obtain ⟨place, hplace, hread⟩ := exists_of_read hread
  rw [read_of_resolve (h.resolve hplace)]
  unfold Disk.readAt at hread
  split at hread
  · rename_i old time hold
    obtain ⟨⟨bytes, time'⟩, he, hkept⟩ := h.kept place _ hold
    obtain ⟨bs, rfl⟩ := Option.isSome_iff_exists.mp hkept.kind
    refine ⟨bs, ?_⟩
    rw [Disk.readAt, he]
  · cases hread
  · cases hread

/-- A path that leads somewhere goes on doing so. -/
theorem leads (hd : d.Sound) (h : d.Later d') (hp : d.files.Leads p) : d'.files.Leads p := by
  cases hp with
  | read hread =>
    obtain ⟨bs, hread⟩ := h.exists_read hread
    exact .read hread
  | canonical hq => exact .canonical ((h.canonical hd (.canonical hq)).trans hq)
  | name hq => exact .name ((h.canonical hd (.canonical hq)).trans hq)

/-- A question about listed files stays one while its answer is the same. -/
theorem listed (hd : d.Sound) (h : d.Later d') {files : List Path} {q : Question} (hq : q.Listed d.files files)
    (hsame : d'.files.answer q = d.files.answer q) : q.Listed d'.files files := by
  cases q with
  | canonical p => exact h.leads hd hq
  | read p =>
    obtain ⟨⟨bs, hread⟩, f, hmem, hf⟩ := hq
    have hcanonical : d'.files.canonical p = d.files.canonical p := h.canonical hd (.read hread)
    refine ⟨⟨bs, hsame.trans hread⟩, f, hmem, ?_⟩
    rw [Look.eval_settle] at hf ⊢
    rwa [hcanonical]
  | status p => exact hq

/-- While the listed files are not newer, questions about them have the same answers. -/
theorem answer_of_listed (hd : d.Sound) (h : d.Later d') {files : List Path}
    (hfiles : ∀ f ∈ files, ∃ s, d'.files.status f = some s ∧ s.time ≤ d.clock) {q : Question}
    (hq : q.Listed d.files files) : d'.files.answer q = d.files.answer q := by
  cases q with
  | canonical p => exact h.canonical hd hq
  | read p =>
    obtain ⟨⟨bs, hread⟩, f, hmem, hsame⟩ := hq
    obtain ⟨s, hs, htime⟩ := hfiles f hmem
    exact (h.read_of_same hd hread hsame hs htime).trans hread.symm
  | status p => exact hq.elim

end Later
end Disk
end AssetPack
