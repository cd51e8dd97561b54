import AssetPack.Pack.Cache
import AssetPack.Proofs.Files.Answers

/-!
# Current caches

What a cache is found to be among given files: current, if all files that it lists are there and none is newer,
and a compile of a description, if that is one of them.
-/
namespace AssetPack
variable {fs : Files}

namespace Look

theorem eval_status (p : Path) : (status p).eval fs = fs.status p := rfl

theorem eval_time (p : Path) : (time p).eval fs = (fs.status p).map (·.time) := by
  rw [time, eval_bind, eval_status, eval_pure]

end Look

namespace Cache

/-- The files are there, and none is newer than `time`. -/
def Current (fs : Files) (time : Nat) (files : List Path) : Prop :=
  ∀ f ∈ files, ∃ s, fs.status f = some s ∧ s.time ≤ time

theorem eval_allCurrent (time : Nat) (files : List Path) :
    (allCurrent time files).eval fs = true ↔ Current fs time files := by
  induction files with
  | nil => exact ⟨fun _ _ hf => (nomatch hf), fun _ => rfl⟩
  | cons f rest ih =>
    rw [allCurrent, Look.eval_bind, Look.eval_time, Current, List.forall_mem_cons, ← Current, ← ih]
    cases fs.status f with
    | none => exact ⟨(nomatch ·), fun ⟨⟨_, hs, _⟩, _⟩ => (nomatch hs)⟩
    | some s =>
      rw [Option.map_some]
      dsimp only
      split
      · rename_i hlate
        refine ⟨(nomatch ·), ?_⟩
        rintro ⟨⟨_, ⟨⟩, hle⟩, _⟩
        exact absurd hlate (Nat.not_lt.mpr hle)
      · exact ⟨fun h => ⟨⟨s, rfl, Nat.not_lt.mp ‹_›⟩, h⟩, fun h => h.2⟩

theorem eval_anyIs (source : Path) (files : List Path) : (anyIs source files).eval fs = true ↔
    ∃ f ∈ files, ∃ q, fs.canonical f = .ok q ∧ Path.same q source = true := by
  induction files with
  | nil => exact ⟨(nomatch ·), fun ⟨_, hf, _⟩ => (nomatch hf)⟩
  | cons f rest ih =>
    rw [anyIs, Look.eval_bind, Look.eval_canonical]
    simp only [List.mem_cons, exists_eq_or_imp, ← ih]
    cases fs.canonical f with
    | error e => exact ⟨.inr, fun h => h.resolve_left fun ⟨_, hq, _⟩ => (nomatch hq)⟩
    | ok q =>
      dsimp only
      split
      · exact ⟨fun _ => .inl ⟨q, rfl, ‹_›⟩, fun _ => rfl⟩
      · rename_i hother
        refine ⟨.inr, fun h => h.resolve_left ?_⟩
        rintro ⟨_, ⟨⟩, hsame⟩
        exact hother hsame

theorem eval_readPack (p : Path) : (Pack.read p).eval fs = match fs.read p with
    | .ok bs => Dict.decode bs
    | .error e => .error (.file e) := by
  rw [Pack.read, Look.eval_bind, Pack.readBytes, Look.eval_bind, Look.eval_read]
  cases fs.read p <;> rfl

/-- What a current cache holds. -/
theorem eval_load? (p : Path) (d : Dict Value) : (load? p).eval fs = some d ↔
    ∃ s bs, fs.status p = some s ∧ fs.read p = .ok bs ∧ Dict.decode bs = .ok d ∧ Current fs s.time (Pack.files d) := by
  rw [load?, Look.eval_bind, Look.eval_time]
  cases fs.status p with
  | none => exact ⟨(nomatch ·), fun ⟨_, _, hs, _⟩ => (nomatch hs)⟩
  | some s =>
    rw [Option.map_some]
    dsimp only
    rw [Look.eval_bind, eval_readPack]
    cases fs.read p with
    | error e => exact ⟨(nomatch ·), fun ⟨_, _, _, hread, _⟩ => (nomatch hread)⟩
    | ok bs =>
      dsimp only
      cases hdecode : Dict.decode bs with
      | error f =>
        refine ⟨(nomatch ·), ?_⟩
        rintro ⟨_, _, _, ⟨⟩, hd, _⟩
        cases hdecode.symm.trans hd
      | ok e =>
        dsimp only
        rw [Look.eval_bind]
        constructor
        · intro h
          split at h
          · cases h
            exact ⟨s, bs, rfl, rfl, hdecode, (eval_allCurrent _ _).mp ‹_›⟩
          · cases h
        · rintro ⟨_, _, ⟨⟩, ⟨⟩, hd, hcurrent⟩
          cases hdecode.symm.trans hd
          rw [if_pos ((eval_allCurrent _ _).mpr hcurrent)]
          rfl

/-- When a cache is found to be current and compiled from a description. -/
theorem eval_isUpdated (source cache : Path) : (isUpdated source cache).eval fs = true ↔
    ∃ d s t q, (load? cache).eval fs = some d ∧ fs.status cache = some s ∧ fs.status source = some t ∧
      t.time ≤ s.time ∧ fs.canonical source = .ok q ∧
      ∃ f ∈ Pack.files d, ∃ p, fs.canonical f = .ok p ∧ Path.same p q = true := by
  rw [isUpdated, Look.eval_bind]
  cases (load? cache).eval fs with
  | none => exact ⟨(nomatch ·), fun ⟨_, _, _, _, hd, _⟩ => (nomatch hd)⟩
  | some d =>
    dsimp only
    rw [Look.eval_bind, Look.eval_bind, Look.eval_time, Look.eval_time]
    cases fs.status source with
    | none => exact ⟨(nomatch ·), fun ⟨_, _, _, _, _, _, ht, _⟩ => (nomatch ht)⟩
    | some t =>
      cases fs.status cache with
      | none => exact ⟨(nomatch ·), fun ⟨_, _, _, _, _, hs, _⟩ => (nomatch hs)⟩
      | some s =>
        rw [Option.map_some, Option.map_some]
        dsimp only
        split
        · rename_i hlate
          refine ⟨(nomatch ·), ?_⟩
          rintro ⟨_, _, _, _, _, ⟨⟩, ⟨⟩, hle, _⟩
          exact absurd hlate (Nat.not_lt.mpr hle)
        · rename_i hle
          rw [Look.eval_bind, Look.eval_canonical]
          cases fs.canonical source with
          | error e => exact ⟨(nomatch ·), fun ⟨_, _, _, _, _, _, _, _, hq, _⟩ => (nomatch hq)⟩
          | ok q =>
            refine (eval_anyIs q (Pack.files d)).trans ⟨fun h => ?_, ?_⟩
            · exact ⟨d, s, t, q, rfl, rfl, rfl, Nat.not_lt.mp hle, rfl, h⟩
            · rintro ⟨_, _, _, _, ⟨⟩, _, _, _, ⟨⟩, h⟩
              exact h

end Cache
end AssetPack
