import AssetPack.Proofs.Json.Lexing
import AssetPack.Proofs.Json.Parts

/-!
# What is parsed is sound

Every number token is a numeral, and the machine keeps two things of all that it has read so far: it
is sound, and it is not deeper than the containers that are open leave room for. So the root of
every text that is accepted is sound and not too deep.
-/
namespace AssetPack.Json

/-! ## Tokens -/

theorem digits_of_splitDigits? {text digits rest : List Char} (h : splitDigits? text = some (digits, rest)) :
    Digits digits := by
  unfold splitDigits? at h
  split at h
  · cases h
  · rename_i hne
    cases h
    refine ⟨hne, fun c hc => ?_⟩
    exact List.all_eq_true.mp List.all_takeWhile c hc

theorem isFraction_of_splitFraction? {text fraction rest : List Char}
    (h : splitFraction? text = some (fraction, rest)) : IsFraction fraction := by
  unfold splitFraction? at h
  split at h
  · obtain ⟨⟨digits, _⟩, hdigits, heq⟩ := Option.map_eq_some_iff.mp h
    cases heq
    exact .point (digits_of_splitDigits? hdigits)
  · cases h
    exact .none

theorem splitExponentSign_cases (text : List Char) : (splitExponentSign text).1 = [] ∨
    ∃ sign, (sign = '+' ∨ sign = '-') ∧ (splitExponentSign text).1 = [sign] := by
  unfold splitExponentSign
  split
  · rename_i c text
    split
    · rename_i hsign
      exact .inr ⟨c, by simpa using hsign, rfl⟩
    · exact .inl rfl
  · exact .inl rfl

theorem isExponent_of_splitExponent? {text exponent rest : List Char}
    (h : splitExponent? text = some (exponent, rest)) : IsExponent exponent := by
  cases text with
  | nil =>
    cases h
    exact .none
  | cons mark text =>
    rw [splitExponent?] at h
    split at h
    · rename_i hmark
      have hmark : mark = 'e' ∨ mark = 'E' := by simpa using hmark
      obtain ⟨⟨digits, _⟩, hdigits, heq⟩ := Option.map_eq_some_iff.mp h
      cases heq
      have hdigits := digits_of_splitDigits? hdigits
      show IsExponent (mark :: (splitExponentSign text).1 ++ digits)
      rcases splitExponentSign_cases text with hsign | ⟨sign, hsign, heq⟩
      · rw [hsign]
        exact .plain hmark hdigits
      · rw [heq]
        exact .signed hmark hsign hdigits
    · cases h
      exact .none

theorem isNumeral_of_splitNumeral? {text numeral rest : List Char}
    (h : splitNumeral? text = some (numeral, rest)) : IsNumeral numeral := by
  unfold splitNumeral? at h
  simp only [Option.bind_eq_bind, Option.bind_eq_some_iff, Prod.exists] at h
  obtain ⟨whole, text₁, h₁, fraction, text₂, h₂, exponent, text₃, h₃, heq⟩ := h
  cases heq
  have hsign : (splitMinus text).1 = [] ∨ (splitMinus text).1 = ['-'] := by
    unfold splitMinus
    split
    · exact .inr rfl
    · exact .inl rfl
  exact .mk hsign (digits_of_splitDigits? h₁) (isFraction_of_splitFraction? h₂)
    (isExponent_of_splitExponent? h₃)

/-- A number token is a numeral. -/
def Token.Sound : Token → Prop
  | .number numeral => IsNumeral numeral.toList
  | _ => True

theorem sound_nextToken (text : List Char) : (nextToken text).1.Sound := by
  unfold nextToken
  split
  · trivial
  · split
    · split
      · split <;> trivial
      · trivial
    · split
      · split
        · have := isNumeral_of_splitNumeral? ‹_›
          simpa only [Token.Sound, String.toList_ofList] using this
        · trivial
      · split
        · unfold wordToken
          repeat' split
          all_goals trivial
        · unfold markToken
          split <;> trivial

theorem sound_lexFrom (fuel : Nat) (text : List Char) : ∀ l ∈ lexFrom fuel text, l.token.Sound := by
  induction fuel generalizing text with
  | zero => simp [lexFrom]
  | succ fuel ih =>
    intro l hl
    simp only [lexFrom, List.mem_cons] at hl
    rcases hl with rfl | hl
    · exact sound_nextToken _
    · split at hl
      · cases hl
      · exact ih _ l hl

/-! ## The machine -/

/-- What a container has so far is sound and leaves `room` for the depth of each part. -/
def Open.Holds (room : Nat) : Open → Prop
  | .items done | .afterItem done => ∀ j ∈ done, j.Sound ∧ j.depth ≤ room
  | .members done | .colon done _ | .field done _ | .afterMember done =>
    done.Distinct ∧ ∀ m ∈ done.entries, m.2.Sound ∧ m.2.depth ≤ room

/-- The same of all open containers, the innermost one first. -/
def StackHolds : List Open → Prop
  | [] => True
  | top :: below => below.length ≤ deepestContainer ∧
    top.Holds (deepestContainer - below.length) ∧ StackHolds below

/-- What the machine keeps. -/
def State.Holds : State → Prop
  | start => True
  | inside top below => StackHolds (top :: below)
  | done root => root.Sound ∧ root.depth ≤ deepestContainer

theorem Open.Holds.put {top top' : Open} {room : Nat} {j : Json} (h : top.Holds room) (hj : j.Sound)
    (hdepth : j.depth ≤ room) (hput : top.put? j = some top') : top'.Holds room := by
  cases top with
  | items done =>
    cases hput
    intro k hk
    rcases List.mem_cons.mp hk with rfl | hk
    · exact ⟨hj, hdepth⟩
    · exact h k hk
  | field done name =>
    cases hput
    refine ⟨Dict.distinct_set h.1 name j, fun m hm => ?_⟩
    rcases Dict.mem_set hm with rfl | hm
    · exact ⟨hj, hdepth⟩
    · exact h.2 m hm
  | _ => cases hput

/-- A value that is put into the innermost container. -/
theorem StackHolds.put {below : List Open} {j : Json} {s : State} (h : StackHolds below) (hj : j.Sound)
    (hdepth : j.depth + below.length ≤ deepestContainer + 1) (hput : State.put? j below = some s) :
    s.Holds := by
  cases below with
  | nil => cases hput
  | cons top below =>
    obtain ⟨top', htop, rfl⟩ := Option.map_eq_some_iff.mp hput
    obtain ⟨hlen, hhold, hrest⟩ := h
    rw [List.length_cons] at hdepth
    exact ⟨hlen, hhold.put hj (by omega) htop, hrest⟩

theorem Open.Holds.array {top : Open} {room : Nat} {j : Json} (h : top.Holds room)
    (hclose : top.closeBracket? = some j) : j.Sound ∧ j.depth ≤ room + 1 := by
  have hitems {items : List Json} (h : ∀ j ∈ items, j.Sound ∧ j.depth ≤ room) :
      (Json.array items.reverse).Sound ∧ (Json.array items.reverse).depth ≤ room + 1 := by
    rw [Json.Sound, Json.depth, soundItems_iff]
    have hdepth : depthItems items.reverse ≤ room :=
      depthItems_le_iff.mpr fun j hj => (h j (List.mem_reverse.mp hj)).2
    exact ⟨fun j hj => (h j (List.mem_reverse.mp hj)).1, Nat.succ_le_succ hdepth⟩
  cases top with
  | items done =>
    cases hclose
    exact hitems h
  | afterItem done =>
    cases hclose
    exact hitems h
  | _ => cases hclose

theorem Open.Holds.object {top : Open} {room : Nat} {members : Dict Json} (h : top.Holds room)
    (hclose : top.closeBrace? = some members) : members.Sound ∧ members.depth ≤ room := by
  cases top with
  | members done | afterMember done =>
    cases hclose
    exact ⟨Dict.sound_iff.mpr ⟨h.1, fun m hm => (h.2 m hm).1⟩, Dict.depth_le_iff.mpr fun m hm => (h.2 m hm).2⟩
  | _ => cases hclose

/-- Every step keeps what the machine keeps. -/
theorem State.Holds.step {s s' : State} {t : Token} (h : s.Holds) (ht : t.Sound)
    (hstep : s.step? t = some s') : s'.Holds := by
  cases s with
  | start =>
    cases t with
    | openBrace =>
      cases hstep
      exact ⟨Nat.zero_le _, ⟨List.nodup_nil, by simp⟩, trivial⟩
    | _ => cases hstep
  | done root =>
    cases t with
    | finish =>
      cases hstep
      exact h
    | _ => cases hstep
  | inside top below =>
    have hput {j : Json} (hj : j.Sound) (hdepth : j.depth = 0)
        (hput : State.put? j (top :: below) = some s') : s'.Holds := by
      have hlen := h.1
      exact h.put hj (by rw [List.length_cons]; omega) hput
    have henter {new : Open} (hnew : ∀ room, new.Holds room) (henter : enter? new top below = some s') :
        s'.Holds := by
      unfold enter? at henter
      split at henter
      · rename_i hroom
        cases henter
        exact ⟨hroom.2, hnew _, h⟩
      · cases henter
    obtain ⟨hlen, hhold, hrest⟩ := h
    cases t with
    | openBrace =>
      have hnew (room : Nat) : (Open.members ∅).Holds room := ⟨List.nodup_nil, by simp⟩
      exact henter hnew hstep
    | openBracket =>
      have hnew (room : Nat) : (Open.items []).Holds room := by simp [Open.Holds]
      exact henter hnew hstep
    | closeBracket =>
      obtain ⟨j, hclose, hstep⟩ := Option.bind_eq_some_iff.mp hstep
      obtain ⟨hj, hdepth⟩ := hhold.array hclose
      exact hrest.put hj (by omega) hstep
    | closeBrace =>
      obtain ⟨members, hclose, hstep⟩ := Option.bind_eq_some_iff.mp hstep
      obtain ⟨hmembers, hdepth⟩ := hhold.object hclose
      split at hstep
      · cases hstep
        exact ⟨hmembers, by omega⟩
      · have hobject : (Json.object members).depth ≤ deepestContainer - below.length + 1 := by
          rw [Json.depth]
          omega
        exact hrest.put (j := .object members) hmembers (by omega) hstep
    | comma =>
      cases top with
      | afterItem held | afterMember held =>
        cases hstep
        exact ⟨hlen, hhold, hrest⟩
      | _ => cases hstep
    | colon =>
      cases top with
      | colon held name =>
        cases hstep
        exact ⟨hlen, hhold, hrest⟩
      | _ => cases hstep
    | string s =>
      cases top with
      | members held =>
        cases hstep
        exact ⟨hlen, hhold, hrest⟩
      | _ => exact hput (j := .string s) trivial rfl hstep
    | null => exact hput (j := .null) trivial rfl hstep
    | bool b => exact hput (j := .bool b) trivial rfl hstep
    | number numeral => exact hput (j := .number numeral) ht rfl hstep
    | finish => cases hstep
    | bad => cases hstep

theorem State.Holds.run {s : State} {lexemes : List Lexeme} {root : Dict Json} (h : s.Holds)
    (hsound : ∀ l ∈ lexemes, l.token.Sound) (hrun : runTokens s lexemes = .ok root) :
    root.Sound ∧ root.depth ≤ deepestContainer := by
  induction lexemes generalizing s with
  | nil =>
    cases s with
    | done root' =>
      cases hrun
      exact h
    | _ => cases hrun
  | cons l rest ih =>
    rw [runTokens] at hrun
    cases hstep : s.step? l.token with
    | some s' =>
      rw [hstep] at hrun
      exact ih (h.step (hsound l List.mem_cons_self) hstep) (fun l hl => hsound l (List.mem_cons_of_mem _ hl)) hrun
    | none =>
      rw [hstep] at hrun
      cases hrun

/-- The root of every accepted text is sound and not too deep. -/
theorem sound_of_parse {text : String} {root : Dict Json} (h : parse text = .ok root) :
    root.Sound ∧ root.depth ≤ deepestContainer := by
  unfold parse at h
  split at h
  · cases h
    have hstart : State.start.Holds := trivial
    exact hstart.run (sound_lexFrom _ _) ‹_›
  · cases h

end AssetPack.Json
