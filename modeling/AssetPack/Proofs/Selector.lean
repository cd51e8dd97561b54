import AssetPack.Proofs.Decimal
import AssetPack.Selector
import Mathlib.Data.List.Forall2

/-!
# Selectors as they are written

A selector is written as segments, the first of which is a name: a slash with the name behind it, or digits in
brackets. Just such texts are read, and each as the steps of its segments. So steps are read back from what they are
written as, and a selector that was read is written as it stood but for zeros in front of an index.
-/
namespace AssetPack.Selector
open Json (Digits takeWhile_ends dropWhile_ends takeWhile_digits dropWhile_digits)

/-! ## Segments -/

/-- A part of a selector as it stands in the text. -/
inductive Segment where
  | name (run : List Char)
  | index (digits : List Char)

namespace Segment

def text : Segment → List Char
  | name run => '/' :: run
  | index digits => '[' :: (digits ++ [']'])

/-- No slash and no opening bracket is in a name. An index has digits, of a number of no more than 64 bits. -/
inductive Sound : Segment → Prop
  | name {run : List Char} : (∀ c ∈ run, c ≠ '/' ∧ c ≠ '[') → Sound (.name run)
  | index {digits : List Char} : Digits digits → Nat.ofDigitChars 10 digits 0 < 0x10000000000000000 →
      Sound (.index digits)

/-- The step that a segment stands for. -/
def step : Segment → Step
  | name run => .name (String.ofList run)
  | index digits => .index (Nat.ofDigitChars 10 digits 0)

/-- The segment that a step is written as. -/
def ofStep : Step → Segment
  | .name s => .name s.toList
  | .index n => .index (Nat.toDigits 10 n)

/-- The second is the first without some of the zeros in front of an index. -/
inductive Trims : Segment → Segment → Prop
  | name (run : List Char) : Trims (.name run) (.name run)
  | index (zeros : Nat) {digits : List Char} : digits ≠ [] →
      Trims (.index (List.replicate zeros '0' ++ digits)) (.index digits)

theorem step_ofStep (step : Step) : (ofStep step).step = step := by
  cases step with
  | name s => exact congrArg Step.name String.ofList_toList
  | index n => exact congrArg Step.index Nat.ofDigitChars_ten_toDigits

theorem toList_renderStep (step : Step) : (renderStep step).toList = (ofStep step).text := by
  cases step <;> simp [renderStep, ofStep, text]

end Segment

/-- The text of segments. -/
def written (segments : List Segment) : List Char := segments.flatMap Segment.text

theorem written_cons (x : Segment) (segments : List Segment) : written (x :: segments) = x.text ++ written segments :=
  rfl

theorem toList_render (steps : List Step) : (render steps).toList = written (steps.map Segment.ofStep) := by
  have hstep : String.toList ∘ renderStep = Segment.text ∘ Segment.ofStep := funext Segment.toList_renderStep
  rw [render, String.toList_join, written, List.flatMap_map, List.flatMap_map]
  exact congrArg (List.flatMap · steps) hstep

/-- A slash-led sequence of segments. -/
def IsSelector (text : List Char) : Prop :=
  ∃ run segments, (∀ x ∈ Segment.name run :: segments, x.Sound) ∧ text = written (.name run :: segments)

/-- A text of sound segments, and the same text without some of the zeros in front of indices. -/
def UpToZeros (text text' : List Char) : Prop :=
  ∃ segments segments', (∀ x ∈ segments, x.Sound) ∧ List.Forall₂ Segment.Trims segments segments' ∧
    text = written segments ∧ text' = written segments'

/-! ## What is read -/

theorem inName_iff {c : Char} : inName c = true ↔ c ≠ '/' ∧ c ≠ '[' := by simp [inName]

/-- What is written behind a name or an index ends it. -/
theorem head_written (segments : List Segment) : ∀ c ∈ (written segments).head?, c = '/' ∨ c = '[' := by
  cases segments with
  | nil => exact nofun
  | cons x segments => cases x <;> simp [written_cons, Segment.text]

/-- Sound segments are read as their steps. -/
theorem read_written {segments : List Segment} (h : ∀ x ∈ segments, x.Sound) {fuel : Nat}
    (hfuel : (written segments).length ≤ fuel) : read fuel (written segments) = some (segments.map Segment.step) := by
  induction segments generalizing fuel with
  | nil => cases fuel <;> rfl
  | cons x segments ih =>
    obtain ⟨hx, hsegments⟩ := List.forall_mem_cons.mp h
    have hhead := head_written segments
    rw [written_cons, List.length_append] at hfuel
    rw [written_cons]
    cases hx with
    | @name run hrun =>
      rw [Segment.text, List.length_cons] at hfuel
      obtain ⟨fuel, rfl⟩ : ∃ n, fuel = n + 1 := ⟨fuel - 1, by omega⟩
      have hname : ∀ c ∈ run, inName c = true := fun c hc => inName_iff.mpr (hrun c hc)
      have hends : ∀ c ∈ (written segments).head?, ¬inName c = true := by
        intro c hc
        rcases hhead c hc with rfl | rfl <;> decide
      rw [Segment.text, List.cons_append, read, List.takeWhile_append_of_pos hname, List.dropWhile_append_of_pos hname,
        takeWhile_ends hends, dropWhile_ends hends, ih hsegments (by omega), List.append_nil]
      rfl
    | @index digits hdigits hlimit =>
      rw [Segment.text, List.length_cons, List.length_append] at hfuel
      obtain ⟨fuel, rfl⟩ : ∃ n, fuel = n + 1 := ⟨fuel - 1, by omega⟩
      have hends : ∀ c ∈ (']' :: written segments).head?, ¬c.isDigit := by
        rintro _ ⟨⟩
        decide
      have hrest : ']' :: written segments = [']'] ++ written segments := rfl
      have hnone : ¬(digits.isEmpty = true ∨ indexLimit ≤ Nat.ofDigitChars 10 digits 0) := by
        rw [List.isEmpty_iff, not_or, Nat.not_le]
        exact ⟨hdigits.nonempty, hlimit⟩
      rw [Segment.text, List.cons_append, List.append_assoc, ← hrest, read, takeWhile_digits hdigits.digit hends,
        dropWhile_digits hdigits.digit hends]
      simp only [hnone, if_false]
      rw [ih hsegments (by omega)]
      rfl

/-- What is read is sound segments. -/
theorem exists_of_read {fuel : Nat} {text : List Char} {steps : List Step} (h : read fuel text = some steps) :
    ∃ segments, (∀ x ∈ segments, x.Sound) ∧ text = written segments ∧ steps = segments.map Segment.step := by
  fun_induction read fuel text generalizing steps with
  | case1 =>
    cases h
    exact ⟨[], List.forall_mem_nil _, rfl, rfl⟩
  | case3 fuel rest ih =>
    obtain ⟨tail, htail, rfl⟩ := Option.map_eq_some_iff.mp h
    obtain ⟨segments, hsound, hrest, rfl⟩ := ih htail
    refine ⟨.name (rest.takeWhile inName) :: segments, List.forall_mem_cons.mpr ⟨.name fun c hc => ?_, hsound⟩, ?_, rfl⟩
    · exact inName_iff.mp (List.all_eq_true.mp List.all_takeWhile c hc)
    · rw [written_cons, Segment.text, ← hrest, List.cons_append, List.takeWhile_append_dropWhile]
  | case5 fuel text digits n rest hclose hlimit =>
    rename_i ih
    obtain ⟨tail, htail, rfl⟩ := Option.map_eq_some_iff.mp h
    obtain ⟨segments, hsound, hrest, rfl⟩ := ih htail
    rw [List.isEmpty_iff, not_or, Nat.not_le] at hlimit
    have hdigits : Digits digits := ⟨hlimit.1, fun c hc => List.all_eq_true.mp List.all_takeWhile c hc⟩
    refine ⟨.index digits :: segments, List.forall_mem_cons.mpr ⟨.index hdigits hlimit.2, hsound⟩, ?_, rfl⟩
    · rw [written_cons, Segment.text, ← hrest, List.cons_append, List.append_assoc, List.singleton_append, ← hclose,
        List.takeWhile_append_dropWhile]
  | _ => cases h

/-- A selector is read just as the steps of its segments, the first of which is a name. -/
theorem parse?_eq_some_iff {s : String} {steps : List Step} : parse? s = some steps ↔
    ∃ run segments, (∀ x ∈ Segment.name run :: segments, x.Sound) ∧ s.toList = written (.name run :: segments) ∧
      steps = (Segment.name run :: segments).map Segment.step := by
  constructor
  · intro h
    rw [parse?] at h
    split at h
    · rename_i hfirst
      obtain ⟨segments, hsound, htext, hsteps⟩ := exists_of_read h
      rw [htext] at hfirst
      cases segments with
      | nil => cases hfirst
      | cons x segments =>
        cases x with
        | name run => exact ⟨run, segments, hsound, htext, hsteps⟩
        | index digits => cases hfirst
    · cases h
  · rintro ⟨run, segments, hsound, htext, rfl⟩
    have hfirst : (written (.name run :: segments)).head? = some '/' := rfl
    rw [parse?, htext, if_pos hfirst, read_written hsound (Nat.le_refl _)]

/-! ## What is written -/

/-- Steps that can be written so that they are read back. -/
def Writable : Step → Prop
  | .name name => ∀ c ∈ name.toList, c ≠ '/' ∧ c ≠ '['
  | .index n => n < 0x10000000000000000

instance : DecidablePred Writable
  | .name name => List.decidableBAll _ name.toList
  | .index n => Nat.decLt n _

theorem Writable.sound {step : Step} (h : Writable step) : (Segment.ofStep step).Sound := by
  cases step with
  | name name => exact .name h
  | index n =>
    refine .index (Decimal.digits_toDigits n) ?_
    rw [Nat.ofDigitChars_ten_toDigits]
    exact h

/-- Steps that begin with a name are read from what they are written as. -/
theorem parse?_render {name : String} {steps : List Step} (h : ∀ step ∈ .name name :: steps, Writable step) :
    parse? (render (.name name :: steps)) = some (.name name :: steps) := by
  refine parse?_eq_some_iff.mpr ⟨name.toList, steps.map Segment.ofStep, ?_, toList_render _, ?_⟩
  · exact List.forall_mem_map (l := .name name :: steps).mpr fun step hstep => (h step hstep).sound
  · have hsteps : (steps.map Segment.ofStep).map Segment.step = steps := by
      rw [List.map_map]
      exact List.map_id'' Segment.step_ofStep steps
    rw [List.map_cons, hsteps]
    exact congrArg (· :: steps) (Segment.step_ofStep (.name name)).symm

/-- A digit is the numeral of its number. -/
theorem toDigits_of_isDigit {c : Char} (h : c.isDigit) :
    c.toNat - '0'.toNat < 10 ∧ Nat.toDigits 10 (c.toNat - '0'.toNat) = [c] := by
  have hall : ∀ n < 10, Nat.digitChar n = Char.ofNat ('0'.toNat + n) := by decide
  obtain ⟨hfirst, hlast⟩ := Char.isDigit_iff_toNat.mp h
  have hlt : c.toNat - '0'.toNat < 10 := by
    have hnine : '9'.toNat = '0'.toNat + 9 := rfl
    omega
  refine ⟨hlt, ?_⟩
  rw [Nat.toDigits_of_lt_base hlt, hall _ hlt, Nat.add_sub_cancel' hfirst, Char.ofNat_toNat]

/-- Digits are the numeral of their number behind zeros. -/
theorem exists_zeros {digits : List Char} (h : Digits digits) :
    ∃ n, digits = List.replicate n '0' ++ Nat.toDigits 10 (Nat.ofDigitChars 10 digits 0) := by
  obtain ⟨hne, hdigit⟩ := h
  induction digits using List.reverseRecOn with
  | nil => exact absurd rfl hne
  | append_singleton front c ih =>
    obtain ⟨hfront, hc⟩ := List.forall_mem_append.mp hdigit
    obtain ⟨hlt, hnumeral⟩ := toDigits_of_isDigit (hc c List.mem_cons_self)
    have hvalue : Nat.ofDigitChars 10 (front ++ [c]) 0 =
        10 * Nat.ofDigitChars 10 front 0 + (c.toNat - '0'.toNat) := by
      rw [Nat.ofDigitChars_append, Nat.ofDigitChars_cons, Nat.ofDigitChars_nil]
    rw [hvalue]
    by_cases hempty : front = []
    · subst hempty
      exact ⟨0, by simpa using hnumeral.symm⟩
    obtain ⟨n, hn⟩ := ih hempty hfront
    rcases Nat.eq_zero_or_pos (Nat.ofDigitChars 10 front 0) with hzero | hpos
    · -- the front is zeros only, its last one the numeral of its number
      rw [hzero] at hn ⊢
      refine ⟨n + 1, ?_⟩
      rw [Nat.mul_zero, Nat.zero_add, hnumeral, List.replicate_succ', hn]
      rfl
    · refine ⟨n, ?_⟩
      rw [← Nat.toDigits_append_toDigits (by decide) hpos hlt, hnumeral, ← List.append_assoc, ← hn]

theorem Segment.Sound.trims {x : Segment} (h : x.Sound) : x.Trims (.ofStep x.step) := by
  cases h with
  | @name run _ =>
    have hsame : Segment.ofStep (Segment.name run).step = .name run := congrArg Segment.name String.toList_ofList
    rw [hsame]
    exact .name run
  | @index digits hdigits _ =>
    obtain ⟨n, hn⟩ := exists_zeros hdigits
    have htrims := Segment.Trims.index n (Nat.toDigits_ne_nil (b := 10) (n := Nat.ofDigitChars 10 digits 0))
    rwa [← hn] at htrims

/-- What was read is written as it stood but for zeros in front of indices. -/
theorem upToZeros_of_parse? {s : String} {steps : List Step} (h : parse? s = some steps) :
    UpToZeros s.toList (render steps).toList := by
  obtain ⟨run, segments, hsound, htext, rfl⟩ := parse?_eq_some_iff.mp h
  refine ⟨_, _, hsound, ?_, htext, toList_render _⟩
  rw [List.map_map, List.forall₂_map_right_iff]
  exact List.forall₂_same.mpr fun x hx => (hsound x hx).trims

/-- A text is read just if it is a slash-led sequence of segments. Steps that begin with a name are read from what they
are written as, if no name has a slash or an opening bracket and no index has more than 64 bits. What was read is
written as it stood but for zeros in front of indices. -/
theorem parse?_exact :
    (∀ s : String, (parse? s).isSome ↔ IsSelector s.toList) ∧
    (∀ name steps, (∀ step ∈ .name name :: steps, Writable step) →
      parse? (render (.name name :: steps)) = some (.name name :: steps)) ∧
    ∀ s steps, parse? s = some steps → UpToZeros s.toList (render steps).toList := by
  refine ⟨fun s => ?_, fun name steps h => parse?_render h, fun s steps h => upToZeros_of_parse? h⟩
  constructor
  · intro h
    obtain ⟨steps, hsteps⟩ := Option.isSome_iff_exists.mp h
    obtain ⟨run, segments, hsound, htext, _⟩ := parse?_eq_some_iff.mp hsteps
    exact ⟨run, segments, hsound, htext⟩
  · rintro ⟨run, segments, hsound, htext⟩
    exact Option.isSome_iff_exists.mpr ⟨_, parse?_eq_some_iff.mpr ⟨run, segments, hsound, htext, rfl⟩⟩

theorem parse?_exact_emptyName :
    IsSelector "/a[007]/".toList ∧ ¬IsSelector "/a[18446744073709551616]".toList ∧
    parse? (render [.name "", .index 7, .name "é]"]) = some [.name "", .index 7, .name "é]"] ∧
    parse? "/a[007]/" = some [.name "a", .index 7, .name ""] ∧
    UpToZeros "/a[007]/".toList (render [.name "a", .index 7, .name ""]).toList := by
  obtain ⟨haccepts, hrender, htext⟩ := parse?_exact
  have hparse : parse? "/a[007]/" = some [.name "a", .index 7, .name ""] := by decide
  have hlimit : ¬(parse? "/a[18446744073709551616]").isSome := by decide
  refine ⟨(haccepts _).mp (by rw [hparse]; rfl), fun h => hlimit ((haccepts _).mpr h), ?_, hparse, htext _ _ hparse⟩
  exact hrender "" [.index 7, .name "é]"] (by decide)

end AssetPack.Selector
