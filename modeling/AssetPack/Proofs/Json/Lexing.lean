import AssetPack.Json.Read
import AssetPack.Proofs.Json.Parts
import AssetPack.Proofs.Json.Quoted

/-!
# Tokens of a text

A text of JSON is read token by token. Quoted texts are the tokens that may hold anything.
-/
namespace AssetPack

/-!
## Tokens of a text

Every token but the last takes a character, so there is always fuel for the whole text. Reading a
text is then a matter of its first token: the machine takes a step, and goes on with the text behind
it. A blank in front of a text makes no difference.
-/

namespace Json

/-! ### Fuel -/

/-- The text a gap falls back to if it is not closed. -/
def Gap.fallback : Gap → List Char
  | .comment start => start
  | _ => []

theorem length_skipGap_le (g : Gap) (text : List Char) :
    (skipGap g text).length ≤ max text.length g.fallback.length := by
  fun_induction skipGap g text with
  | case4 c rest hspace => exact Nat.le_max_left _ _
  | case5 | case8 => exact Nat.zero_le _
  | case11 start => exact Nat.le_max_right _ _
  | _ =>
    simp only [Gap.fallback, List.length_cons, List.length_nil] at *
    omega

theorem length_splitQuoted? {text body rest : List Char} (h : splitQuoted? text = some (body, rest)) :
    rest.length < text.length := by
  fun_induction splitQuoted? text generalizing body with
  | case1 tail =>
    cases h
    exact Nat.lt_succ_self _
  | case2 a b c d tail hhex ih =>
    obtain ⟨⟨inner, _⟩, hinner, heq⟩ := Option.map_eq_some_iff.mp h
    cases heq
    have := ih hinner
    simp only [List.length_cons]
    omega
  | case4 c tail hnot hescape ih =>
    obtain ⟨⟨inner, _⟩, hinner, heq⟩ := Option.map_eq_some_iff.mp h
    cases heq
    have := ih hinner
    simp only [List.length_cons]
    omega
  | case7 c tail hquote hunit hshort hplain ih =>
    obtain ⟨⟨inner, _⟩, hinner, heq⟩ := Option.map_eq_some_iff.mp h
    cases heq
    have := ih hinner
    simp only [List.length_cons]
    omega
  | _ => cases h

theorem length_dropWhile_le (p : Char → Bool) (text : List Char) :
    (text.dropWhile p).length ≤ text.length := (List.dropWhile_suffix p).length_le

theorem length_splitDigits? {text digits rest : List Char} (h : splitDigits? text = some (digits, rest)) :
    rest.length < text.length := by
  unfold splitDigits? at h
  have hall : (text.takeWhile Char.isDigit ++ text.dropWhile Char.isDigit).length = text.length := by
    rw [List.takeWhile_append_dropWhile]
  rw [List.length_append] at hall
  split at h
  · cases h
  · rename_i hne
    cases h
    have : (text.takeWhile Char.isDigit).length ≠ 0 := fun h => hne (List.eq_nil_of_length_eq_zero h)
    omega

theorem length_splitMinus_le (text : List Char) : (splitMinus text).2.length ≤ text.length := by
  unfold splitMinus
  split
  · exact Nat.le_succ _
  · exact Nat.le_refl _

theorem length_splitExponentSign_le (text : List Char) :
    (splitExponentSign text).2.length ≤ text.length := by
  unfold splitExponentSign
  split
  · split
    · exact Nat.le_succ _
    · exact Nat.le_refl _
  · exact Nat.le_refl _

theorem length_splitFraction? {text fraction rest : List Char}
    (h : splitFraction? text = some (fraction, rest)) : rest.length ≤ text.length := by
  unfold splitFraction? at h
  split at h
  · obtain ⟨⟨digits, _⟩, hdigits, heq⟩ := Option.map_eq_some_iff.mp h
    cases heq
    have := length_splitDigits? hdigits
    simp only [List.length_cons]
    omega
  · cases h
    exact Nat.le_refl _

theorem length_splitExponent? {text exponent rest : List Char}
    (h : splitExponent? text = some (exponent, rest)) : rest.length ≤ text.length := by
  cases text with
  | nil =>
    cases h
    exact Nat.le_refl _
  | cons e tail =>
    rw [splitExponent?] at h
    split at h
    · obtain ⟨⟨digits, _⟩, hdigits, heq⟩ := Option.map_eq_some_iff.mp h
      cases heq
      have hsplit : splitDigits? (splitExponentSign tail).2 = some (digits, rest) := hdigits
      have hsign := length_splitExponentSign_le tail
      have := length_splitDigits? hsplit
      simp only [List.length_cons]
      omega
    · cases h
      exact Nat.le_refl _

theorem length_splitNumeral? {text numeral rest : List Char}
    (h : splitNumeral? text = some (numeral, rest)) : rest.length < text.length := by
  unfold splitNumeral? at h
  simp only [Option.bind_eq_bind, Option.bind_eq_some_iff, Prod.exists] at h
  obtain ⟨whole, text₁, h₁, fraction, text₂, h₂, exponent, text₃, h₃, heq⟩ := h
  cases heq
  have hminus := length_splitMinus_le text
  have hwhole := length_splitDigits? h₁
  have hfraction := length_splitFraction? h₂
  have hexponent := length_splitExponent? h₃
  omega

/-- Every token but the last takes a character. -/
theorem length_nextToken {text rest : List Char} {t : Token} (h : nextToken text = (t, rest))
    (ht : t ≠ .finish) : rest.length < text.length := by
  unfold nextToken at h
  split at h
  · cases h
    exact (ht rfl).elim
  · rename_i c tail
    split at h
    · split at h
      · have := length_splitQuoted? ‹_›
        simp only [List.length_cons]
        split at h <;> cases h <;> omega
      · cases h
        exact Nat.lt_succ_self _
    · split at h
      · split at h
        · cases h
          exact length_splitNumeral? ‹_›
        · cases h
          exact Nat.lt_succ_self _
      · split at h
        · rename_i hword
          cases h
          have hc : c.isAlphanum := by
            simp only [Bool.or_eq_true, decide_eq_true_eq] at hword
            rcases hword with (rfl | rfl) | rfl <;> decide
          rw [List.dropWhile_cons, if_pos hc]
          have := length_dropWhile_le Char.isAlphanum tail
          simp only [List.length_cons]
          omega
        · cases h
          exact Nat.lt_succ_self _

/-- More fuel than the text has characters gives no other tokens. -/
theorem lexFrom_fuel {fuel fuel' : Nat} {text : List Char} (h : text.length < fuel)
    (h' : text.length < fuel') : lexFrom fuel text = lexFrom fuel' text := by
  induction fuel generalizing text fuel' with
  | zero => omega
  | succ fuel ih =>
    obtain _ | fuel' := fuel'
    · omega
    · unfold lexFrom
      simp only [List.cons.injEq, true_and]
      split
      · rfl
      · rename_i ht
        rw [not_or] at ht
        have hgap := length_skipGap_le .between text
        have hnext : (nextToken (skipGap .between text)).2.length < (skipGap .between text).length :=
          length_nextToken rfl ht.1
        simp only [Gap.fallback, List.length_nil] at hgap
        exact ih (by omega) (by omega)

/-! ### One token at a time -/

/-- Read a text from a state on. -/
def runText (s : State) (text : List Char) : Except (List Char) (Dict Json) := runTokens s (lex text)

/-- The tokens of a text are those of the text behind a gap in front of it. -/
theorem lex_congr {text text' : List Char} (h : skipGap .between text = skipGap .between text') :
    lex text = lex text' := by
  have hlong : lex text = lexFrom (text.length + text'.length + 1) text :=
    lexFrom_fuel (by omega) (by omega)
  have hlong' : lex text' = lexFrom (text.length + text'.length + 1) text' :=
    lexFrom_fuel (by omega) (by omega)
  rw [hlong, hlong']
  simp only [lexFrom, h]

theorem skipGap_space {c : Char} (h : isSpace c) (text : List Char) :
    skipGap .between (c :: text) = skipGap .between text := by
  have hslash : c ≠ '/' := by rintro rfl; exact absurd h (by decide)
  simp [skipGap, hslash, h]

theorem runText_space (s : State) {c : Char} (h : isSpace c) (text : List Char) :
    runText s (c :: text) = runText s text := by
  rw [runText, runText, lex_congr (skipGap_space h text)]

/-- A token that the machine has a step for. -/
theorem runText_token {s s' : State} {text rest : List Char} {t : Token}
    (hnext : nextToken (skipGap .between text) = (t, rest)) (ht : t ≠ .finish) (hbad : t ≠ .bad)
    (hstep : s.step? t = some s') : runText s text = runText s' rest := by
  have hgap := length_skipGap_le .between text
  have hlen := length_nextToken hnext ht
  simp only [Gap.fallback, List.length_nil] at hgap
  have hrest : lexFrom text.length rest = lex rest := lexFrom_fuel (by omega) (by omega)
  rw [runText, lex, lexFrom]
  simp only [hnext, ht, hbad, or_self, if_false, runTokens, hstep, hrest]
  rfl

/-- The end of the text behind the root. -/
theorem runText_finish (root : Dict Json) : runText (.done root) [] = .ok root := rfl

/-! ### Single tokens -/

/-- No character of a numeral or a word stands at the front. -/
def Stops (tail : List Char) : Prop := ∀ c ∈ tail.head?, ¬c.isAlphanum ∧ c ≠ '.'

theorem Stops.ends {tail : List Char} (h : Stops tail) : Ends tail := by
  intro c hc
  obtain ⟨halphanum, hpoint⟩ := h c hc
  refine ⟨fun hdigit => halphanum ?_, hpoint, ?_, ?_⟩
  · rw [Char.isAlphanum, hdigit, Bool.or_true]
  · rintro rfl
    exact halphanum (by decide)
  · rintro rfl
    exact halphanum (by decide)

theorem skipGap_self {c : Char} (hslash : c ≠ '/') (hspace : isSpace c = false) (rest : List Char) :
    skipGap .between (c :: rest) = c :: rest := by
  simp [skipGap, hslash, hspace]

theorem runText_mark {s s' : State} {c : Char} {rest : List Char} (hstep : s.step? (markToken c) = some s')
    (hc : c ∈ ['\x7b', '\x7d', '[', ']', ',', ':']) : runText s (c :: rest) = runText s' rest := by
  have hnext : nextToken (skipGap .between (c :: rest)) = (markToken c, rest) ∧
      markToken c ≠ .finish ∧ markToken c ≠ .bad := by
    simp only [List.mem_cons, List.not_mem_nil, or_false] at hc
    rcases hc with rfl | rfl | rfl | rfl | rfl | rfl <;> exact ⟨rfl, by decide, by decide⟩
  exact runText_token hnext.1 hnext.2.1 hnext.2.2 hstep

theorem nextToken_word {c : Char} (hc : c = 't' ∨ c = 'f' ∨ c = 'n') (rest : List Char) :
    nextToken (c :: rest) = (wordToken (String.ofList ((c :: rest).takeWhile Char.isAlphanum)),
      (c :: rest).dropWhile Char.isAlphanum) := by
  rcases hc with rfl | rfl | rfl <;> rfl

theorem wordToken_ne_finish (word : String) : wordToken word ≠ .finish := by
  unfold wordToken
  repeat' split
  all_goals exact Token.noConfusion

theorem runText_word {s s' : State} {c : Char} {word tail : List Char} (hc : c = 't' ∨ c = 'f' ∨ c = 'n')
    (hword : (c :: word).all Char.isAlphanum = true) (hbad : wordToken (String.ofList (c :: word)) ≠ .bad)
    (hstep : s.step? (wordToken (String.ofList (c :: word))) = some s') (htail : Stops tail) :
    runText s (c :: (word ++ tail)) = runText s' tail := by
  have hword := List.all_eq_true.mp hword
  have htake : ((c :: word) ++ tail).takeWhile Char.isAlphanum = c :: word := by
    rw [List.takeWhile_append_of_pos hword, takeWhile_ends fun c hc => (htail c hc).1, List.append_nil]
  have hdrop : ((c :: word) ++ tail).dropWhile Char.isAlphanum = tail := by
    rw [List.dropWhile_append_of_pos hword, dropWhile_ends fun c hc => (htail c hc).1]
  have hnext : nextToken (skipGap .between (c :: (word ++ tail))) =
      (wordToken (String.ofList (c :: word)), tail) := by
    rw [skipGap_self (by rcases hc with rfl | rfl | rfl <;> decide)
      (by rcases hc with rfl | rfl | rfl <;> decide), nextToken_word hc, ← List.cons_append, htake, hdrop]
  exact runText_token hnext (wordToken_ne_finish _) hbad hstep

theorem runText_quoted {s s' : State} {body : List Char} (h : IsQuoted body)
    (hstep : s.step? (.string (String.ofList (unescape body))) = some s') (tail : List Char) :
    runText s ('"' :: (body ++ '"' :: tail)) = runText s' tail := by
  have hnext : nextToken (skipGap .between ('"' :: (body ++ '"' :: tail))) =
      (.string (String.ofList (unescape body)), tail) := by
    rw [skipGap_self (by decide) (by decide)]
    simp only [nextToken, if_true, splitQuoted?_append h, unescape?_of_isQuoted h]
  exact runText_token hnext Token.noConfusion Token.noConfusion hstep

/-- A numeral begins with a minus or a digit. -/
theorem IsNumeral.head {numeral : List Char} (h : IsNumeral numeral) :
    ∃ c rest, numeral = c :: rest ∧ (c = '-' ∨ c.isDigit) := by
  cases h with
  | @mk sign whole fraction exponent hsign hwhole _ _ =>
    rcases hsign with rfl | rfl
    · cases whole with
      | nil => exact (hwhole.nonempty rfl).elim
      | cons c whole => exact ⟨c, _, rfl, .inr (hwhole.digit c List.mem_cons_self)⟩
    · exact ⟨'-', _, rfl, .inl rfl⟩

theorem runText_numeral {s s' : State} {numeral : String} (h : IsNumeral numeral.toList)
    (hstep : s.step? (.number numeral) = some s') {tail : List Char} (htail : Stops tail) :
    runText s (numeral.toList ++ tail) = runText s' tail := by
  obtain ⟨c, rest, hcons, hc⟩ := h.head
  have hslash : c ≠ '/' := by
    rintro rfl
    exact absurd hc (by decide)
  have hquote : c ≠ '"' := by
    rintro rfl
    exact absurd hc (by decide)
  have hspace : isSpace c = false := by
    unfold isSpace
    simp only [Bool.or_eq_false_iff, beq_eq_false_iff_ne]
    refine ⟨⟨⟨⟨?_, ?_⟩, ?_⟩, ?_⟩, ?_⟩ <;> (rintro rfl; exact absurd hc (by decide))
  have hnext : nextToken (skipGap .between (numeral.toList ++ tail)) = (.number numeral, tail) := by
    have hsplit := splitNumeral?_append h htail.ends
    rw [hcons, List.cons_append] at hsplit ⊢
    rw [skipGap_self hslash hspace, nextToken, if_neg hquote, if_pos (by simpa using hc), hsplit]
    simp only [← hcons, String.ofList_toList]
  exact runText_token hnext Token.noConfusion Token.noConfusion hstep

end Json

end AssetPack
