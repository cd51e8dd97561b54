import AssetPack.Description.Context
import AssetPack.Proofs.Dict
import AssetPack.Proofs.Files.Answers

/-!
# Consulted files

The files that are consulted for an entry are recorded under their canonical names. An import that has
none is recorded as it is spelled. Either is absolute if the compile can rely on its files.
-/
namespace AssetPack

/-- What a compile from `base` relies on. That whatever can be read has a canonical name only counts
where spellings that are not absolute would be recorded. -/
structure Files.Canonical (fs : Files) (debug : Bool) (base : Path) : Prop where
  absolute : ∀ p q, fs.canonical p = .ok q → q.isAbsolute
  readable : debug = true → base.isAbsolute = false → ∀ p bs, fs.read p = .ok bs → ∃ q, fs.canonical p = .ok q

/-- The names under which a compile from `base` may record a file. -/
inductive Files.Known (fs : Files) (base : Path) : Path → Prop
  | canonical {p q : Path} : fs.canonical p = .ok q → Known fs base q
  | spelled {relative : Path} {bs : Bytes} {e : FileError} : fs.canonical (Path.join base relative) = .error e →
      fs.read (Path.join base relative) = .ok bs → Known fs base (Path.join base relative)

/-- The context of a compile that records the files of its entries under such names. -/
structure Context.Consulted (fs : Files) (debug : Bool) (base : Path) (c : Context) : Prop where
  base_eq : c.base = base
  debug_eq : c.debug = debug
  files : ∀ entry ∈ c.entryFiles.entries, ∀ p ∈ entry.2, fs.Known base p

namespace Path

theorem mem_insertSorted {p q : Path} {ps : List Path} (h : q ∈ insertSorted p ps) : q = p ∨ q ∈ ps := by
  induction ps with
  | nil => exact .inl (List.mem_singleton.mp h)
  | cons r rs ih =>
    rw [insertSorted] at h
    split at h
    · exact .inr h
    · split at h
      · exact List.mem_cons.mp h
      · rcases List.mem_cons.mp h with rfl | h
        · exact .inr List.mem_cons_self
        · exact (ih h).imp id (List.mem_cons_of_mem r)

theorem subset_insertSorted (p : Path) (ps : List Path) : ps ⊆ insertSorted p ps := by
  induction ps with
  | nil => exact List.nil_subset _
  | cons q qs ih =>
    rw [insertSorted]
    split
    · exact List.Subset.refl _
    · split
      · exact List.subset_cons_self _ _
      · exact List.cons_subset_cons q ih

/-- What is inserted is there, perhaps in another spelling. -/
theorem exists_same_insertSorted (p : Path) (ps : List Path) : ∃ q ∈ insertSorted p ps, q.same p := by
  have hself : p.same p := decide_eq_true rfl
  induction ps with
  | nil => exact ⟨p, List.mem_cons_self, hself⟩
  | cons q qs ih =>
    rw [insertSorted]
    split
    · have hsame : p.components = q.components := of_decide_eq_true ‹p.same q = true›
      exact ⟨q, List.mem_cons_self, decide_eq_true hsame.symm⟩
    · split
      · exact ⟨p, List.mem_cons_self, hself⟩
      · obtain ⟨r, hr, hsame⟩ := ih
        exact ⟨r, List.mem_cons_of_mem q hr, hsame⟩

theorem isAbsolute_append {p q : Path} (h : p.isAbsolute) : isAbsolute (p ++ q) := by
  have hhead : p.toList.head? = some '/' := by simpa [isAbsolute] using h
  rw [isAbsolute, String.toList_append, List.head?_append, hhead]
  rfl

theorem isAbsolute_join {base : Path} (h : base.isAbsolute) (rest : Path) : (join base rest).isAbsolute := by
  rw [join]
  split
  · assumption
  · split
    · exact isAbsolute_append h
    · rw [String.append_assoc]
      exact isAbsolute_append h

end Path

variable {fs : Files} {debug : Bool} {base : Path}

namespace Context

theorem files_addFile (c : Context) (owner : Option String) (path : Path) :
    ((c.addFile owner path).eval fs).files = Path.insertSorted ((Look.settle path).eval fs) c.files := by
  rw [addFile, Look.eval_bind, Look.eval_pure]
  rfl

theorem asked_addFile (c : Context) (owner : Option String) (path : Path) :
    (c.addFile owner path).asked fs = [.canonical path] := by
  rw [addFile, Look.asked_map, Look.asked_settle]

end Context

namespace Context.Consulted
variable {c : Context}

theorem start : (Context.start base debug).Consulted fs debug base := by
  refine ⟨rfl, rfl, ?_⟩
  intro entry hentry
  cases hentry

theorem filesFor (h : c.Consulted fs debug base) (name : String) : ∀ p ∈ c.filesFor name, fs.Known base p := by
  intro p hp
  rw [Context.filesFor] at hp
  cases hget : c.entryFiles.get? name with
  | none =>
    rw [hget] at hp
    cases hp
  | some ps =>
    rw [hget] at hp
    exact h.files _ (Dict.mem_of_get? hget) p hp

theorem addSettled (h : c.Consulted fs debug base) {path : Path} (hpath : fs.Known base path)
    (owner : Option String) : (c.addSettled owner path).Consulted fs debug base := by
  refine ⟨h.base_eq, h.debug_eq, fun entry hentry => ?_⟩
  cases owner with
  | none => exact h.files entry hentry
  | some name =>
    simp only [Context.addSettled] at hentry
    split at hentry
    · exact h.files entry hentry
    · rcases Dict.mem_set hentry with rfl | hentry
      · intro p hp
        rcases Path.mem_insertSorted hp with rfl | hp
        · exact hpath
        · exact h.filesFor name p hp
      · exact h.files entry hentry

theorem addFile (h : c.Consulted fs debug base) {path : Path} (hpath : fs.Known base path)
    (owner : Option String) : ((c.addFile owner path).eval fs).Consulted fs debug base := by
  rw [Context.addFile, Look.eval_bind, Look.eval_settle, Look.eval_pure]
  refine h.addSettled ?_ owner
  split
  · exact .canonical ‹_›
  · exact hpath

end Context.Consulted

/-- An import that is read is recorded under such a name. -/
theorem Files.known_settle {relative : Path} {text : String}
    (h : (Look.readText ((Look.settle (Path.join base relative)).eval fs)).eval fs = .ok text) :
    fs.Known base ((Look.settle (Path.join base relative)).eval fs) := by
  rw [Look.eval_settle] at h ⊢
  cases hcanonical : fs.canonical (Path.join base relative) with
  | ok q => exact .canonical hcanonical
  | error e =>
    rw [hcanonical] at h
    obtain ⟨bs, hread⟩ := Look.read_of_readText fs h
    exact .spelled hcanonical hread

/-- For debugging all these names are absolute. -/
theorem Files.Canonical.isAbsolute (hfs : fs.Canonical debug base) (hdebug : debug = true) {p : Path}
    (h : fs.Known base p) : p.isAbsolute := by
  cases h with
  | canonical h => exact hfs.absolute _ _ h
  | @spelled relative bs e herror hread =>
    by_cases hbase : base.isAbsolute
    · exact Path.isAbsolute_join hbase relative
    · obtain ⟨q, hq⟩ := hfs.readable hdebug (by simpa using hbase) _ _ hread
      rw [herror] at hq
      cases hq

end AssetPack
