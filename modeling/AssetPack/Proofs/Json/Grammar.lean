import AssetPack.Proofs.Json.Written

/-!
# The grammar of descriptions

Which texts stand for JSON, put together from gaps, quoted texts and numerals, and what they stand
for. Every such text is read: a gap leads nowhere, a value to where the machine has it, and what is
left of a container to where it is closed.
-/
namespace AssetPack.Json

/-- Blanks, comments up to the end of their line and closed comments, in any mix. The last gap may
end within a line. -/
inductive IsGap (last : Bool) : List Char → Prop
  | nil : IsGap last []
  | space {c : Char} {rest : List Char} : c ∈ [' ', '\t', '\n', '\x0c', '\r'] → IsGap last rest →
      IsGap last (c :: rest)
  | line {body rest : List Char} {c : Char} : '\n' ∉ body → '\r' ∉ body → c = '\n' ∨ c = '\r' →
      IsGap last rest → IsGap last ('/' :: '/' :: (body ++ c :: rest))
  | comment {body rest : List Char} : ¬['*', '/'] <:+: body → IsGap last rest →
      IsGap last ('/' :: '*' :: (body ++ '*' :: '/' :: rest))
  | finish {body : List Char} : last = true → '\n' ∉ body → '\r' ∉ body → IsGap last ('/' :: '/' :: body)

mutual

/-- The text is one value. At most `room` containers are open at once in it. -/
inductive IsValue : (room : Nat) → Json → List Char → Prop
  | null {room : Nat} : IsValue room .null ['n', 'u', 'l', 'l']
  | true {room : Nat} : IsValue room (.bool true) ['t', 'r', 'u', 'e']
  | false {room : Nat} : IsValue room (.bool false) ['f', 'a', 'l', 's', 'e']
  | number {room : Nat} {numeral : List Char} : IsNumeral numeral →
      IsValue room (.number (String.ofList numeral)) numeral
  | string {room : Nat} {body : List Char} : IsQuoted body →
      IsValue room (.string (String.ofList (unescape body))) ('"' :: (body ++ ['"']))
  | array {room : Nat} {items : List Json} {body : List Char} : IsItems room items body →
      IsValue (room + 1) (.array items) ('[' :: (body ++ [']']))
  | object {room : Nat} {members : List (String × Json)} {body : List Char} :
      IsMembers room members body →
      IsValue (room + 1) (.object (.gathered members)) ('\x7b' :: (body ++ ['\x7d']))

/-- What stands between the brackets of an array. -/
inductive IsItems : (room : Nat) → List Json → List Char → Prop
  | none {room : Nat} {gap : List Char} : IsGap false gap → IsItems room [] gap
  | item {room : Nat} {j : Json} {items : List Json} {gap text rest : List Char} : IsGap false gap →
      IsValue room j text → IsMoreItems room items rest → IsItems room (j :: items) (gap ++ (text ++ rest))

/-- What stands behind an item. -/
inductive IsMoreItems : (room : Nat) → List Json → List Char → Prop
  | none {room : Nat} {gap : List Char} : IsGap false gap → IsMoreItems room [] gap
  | comma {room : Nat} {items : List Json} {gap rest : List Char} : IsGap false gap →
      IsItems room items rest → IsMoreItems room items (gap ++ ',' :: rest)

/-- What stands between the braces of an object. -/
inductive IsMembers : (room : Nat) → List (String × Json) → List Char → Prop
  | none {room : Nat} {gap : List Char} : IsGap false gap → IsMembers room [] gap
  | member {room : Nat} {j : Json} {members : List (String × Json)}
      {gap name behind before text rest : List Char} : IsGap false gap → IsQuoted name →
      IsGap false behind → IsGap false before → IsValue room j text → IsMoreMembers room members rest →
      IsMembers room ((String.ofList (unescape name), j) :: members)
        (gap ++ '"' :: (name ++ '"' :: (behind ++ ':' :: (before ++ (text ++ rest)))))

/-- What stands behind a member. -/
inductive IsMoreMembers : (room : Nat) → List (String × Json) → List Char → Prop
  | none {room : Nat} {gap : List Char} : IsGap false gap → IsMoreMembers room [] gap
  | comma {room : Nat} {members : List (String × Json)} {gap rest : List Char} : IsGap false gap →
      IsMembers room members rest → IsMoreMembers room members (gap ++ ',' :: rest)

end

/-- The text is one object with these members, and gaps around it. -/
def IsDescription (members : List (String × Json)) (text : List Char) : Prop :=
  ∃ front body back, IsGap false front ∧ IsMembers deepestContainer members body ∧ IsGap true back ∧
    text = front ++ '\x7b' :: (body ++ '\x7d' :: back)

/-! ## Gaps -/

theorem isSpace_iff {c : Char} : isSpace c ↔ c ∈ [' ', '\t', '\n', '\x0c', '\r'] := by
  simp [isSpace, or_assoc]

theorem skipGap_line {body : List Char} (hline : '\n' ∉ body) (hreturn : '\r' ∉ body) (tail : List Char) :
    skipGap .line (body ++ tail) = skipGap .line tail := by
  induction body with
  | nil => rfl
  | cons c body ih =>
    rw [List.mem_cons, not_or] at hline hreturn
    have hc : ¬(c = '\n' ∨ c = '\r') := fun h => h.elim (fun h => hline.1 h.symm) fun h => hreturn.1 h.symm
    rw [List.cons_append, skipGap]
    simp only [Bool.or_eq_true, decide_eq_true_eq, hc, if_false]
    exact ih hline.2 hreturn.2

theorem skipGap_newline {c : Char} (h : c = '\n' ∨ c = '\r') (tail : List Char) :
    skipGap .line (c :: tail) = skipGap .between tail := by
  rw [skipGap, if_pos (by simpa using h)]

theorem skipGap_comment {body : List Char} (hbody : ¬['*', '/'] <:+: body) (start tail : List Char) :
    skipGap (.comment start) (body ++ '*' :: '/' :: tail) = skipGap .between tail := by
  induction body with
  | nil => rfl
  | cons c body ih =>
    have hrest : ¬['*', '/'] <:+: body := fun h => hbody (List.infix_cons h)
    rw [List.cons_append, skipGap]
    · exact ih hrest
    · intro rest hc heq
      cases body with
      | nil => cases heq
      | cons d body =>
        cases heq
        exact hbody (hc ▸ ⟨[], body, rfl⟩)

/-- A gap in front of a text is passed over. -/
theorem IsGap.skip {gap : List Char} (h : IsGap false gap) (text : List Char) :
    skipGap .between (gap ++ text) = skipGap .between text := by
  induction h with
  | nil => rfl
  | @space c rest hspace _ ih => rw [List.cons_append, skipGap_space (isSpace_iff.mpr hspace), ih]
  | @line body rest c hline hreturn hc _ ih =>
    rw [List.cons_append, List.cons_append, List.append_assoc, skipGap, skipGap_line hline hreturn,
      List.cons_append, skipGap_newline hc, ih]
  | @comment body rest hbody _ ih =>
    rw [List.cons_append, List.cons_append, List.append_assoc, skipGap, List.cons_append, List.cons_append,
      skipGap_comment hbody, ih]
  | finish hlast _ _ => cases hlast

/-- Behind the last gap of a text is nothing. -/
theorem IsGap.skip_last {gap : List Char} (h : IsGap true gap) : skipGap .between gap = [] := by
  induction h with
  | nil => rfl
  | space hspace _ ih => rw [skipGap_space (isSpace_iff.mpr hspace), ih]
  | line hline hreturn hc _ ih => rw [skipGap, skipGap_line hline hreturn, skipGap_newline hc, ih]
  | comment hbody _ ih => rw [skipGap, skipGap_comment hbody, ih]
  | @finish body _ hline hreturn =>
    have h := skipGap_line hline hreturn []
    rw [List.append_nil] at h
    rw [skipGap, h, skipGap]

theorem runText_gap {gap : List Char} (h : IsGap false gap) (s : State) (text : List Char) :
    runText s (gap ++ text) = runText s text := by
  rw [runText, runText, lex_congr (h.skip text)]

theorem runText_last {gap : List Char} (h : IsGap true gap) (root : Dict Json) :
    runText (.done root) gap = .ok root := by
  have hgap : skipGap .between gap = skipGap .between [] := h.skip_last
  rw [runText, lex_congr hgap]
  rfl

/-- A word or a numeral ends where a gap or a mark begins. -/
theorem stops_gap {gap : List Char} (h : IsGap false gap) {tail : List Char} (htail : Stops tail) :
    Stops (gap ++ tail) := by
  cases h with
  | nil => exact htail
  | @space c rest hspace _ =>
    intro d hd
    cases hd
    simp only [List.mem_cons, List.not_mem_nil, or_false] at hspace
    rcases hspace with rfl | rfl | rfl | rfl | rfl <;> decide
  | line | comment =>
    intro d hd
    cases hd
    decide
  | finish hlast _ _ => cases hlast

theorem stops_mark {c : Char} (hc : c ∈ [']', '\x7d', ',']) (tail : List Char) : Stops (c :: tail) := by
  intro d hd
  cases hd
  simp only [List.mem_cons, List.not_mem_nil, or_false] at hc
  rcases hc with rfl | rfl | rfl <;> decide

theorem IsMoreItems.stops {room : Nat} {items : List Json} {rest : List Char} (h : IsMoreItems room items rest)
    (tail : List Char) : Stops (rest ++ ']' :: tail) := by
  cases h with
  | none hgap => exact stops_gap hgap (stops_mark (by decide) tail)
  | comma hgap _ =>
    rw [List.append_assoc]
    exact stops_gap hgap (stops_mark (by decide) _)

theorem IsMoreMembers.stops {room : Nat} {members : List (String × Json)} {rest : List Char}
    (h : IsMoreMembers room members rest) (tail : List Char) : Stops (rest ++ '\x7d' :: tail) := by
  cases h with
  | none hgap => exact stops_gap hgap (stops_mark (by decide) tail)
  | comma hgap _ =>
    rw [List.append_assoc]
    exact stops_gap hgap (stops_mark (by decide) _)

/-! ## Every description is read -/

/-- What the closing brace of an object leads to within these containers. -/
def State.close? (members : Dict Json) (below : List Open) : Option State :=
  if below.isEmpty then some (.done members) else put? (.object members) below

theorem State.step?_closeBrace {top : Open} {members : Dict Json} (h : top.closeBrace? = some members)
    (below : List Open) : (inside top below).step? .closeBrace = close? members below := by
  show top.closeBrace?.bind (close? · below) = _
  rw [h, Option.bind_some]

theorem State.step?_closeBracket {top : Open} {j : Json} (h : top.closeBracket? = some j)
    (below : List Open) : (inside top below).step? .closeBracket = put? j below := by
  show top.closeBracket?.bind (put? · below) = _
  rw [h, Option.bind_some]

mutual

/-- A value leads the machine to where it has it. -/
theorem IsValue.run {room : Nat} {j : Json} {text : List Char} : IsValue room j text →
    ∀ {top top' : Open} {below : List Open} {tail : List Char}, top.waits → top.put? j = some top' →
      room + below.length ≤ deepestContainer → Stops tail →
      runText (.inside top below) (text ++ tail) = runText (.inside top' below) tail
  | .null, _, _, below, _, _, hput, _, htail =>
    @runText_word _ _ _ ['u', 'l', 'l'] _ (.inr (.inr rfl)) (by decide) (by decide) (put?_cons hput below) htail
  | .true, _, _, below, _, _, hput, _, htail =>
    @runText_word _ _ _ ['r', 'u', 'e'] _ (.inl rfl) (by decide) (by decide) (put?_cons hput below) htail
  | .false, _, _, below, _, _, hput, _, htail =>
    @runText_word _ _ _ ['a', 'l', 's', 'e'] _ (.inr (.inl rfl)) (by decide) (by decide) (put?_cons hput below) htail
  | @IsValue.number _ numeral hnumeral, top, top', below, tail, _, hput, _, htail => by
    have hstep : (State.inside top below).step? (.number (String.ofList numeral)) = some (.inside top' below) :=
      put?_cons hput below
    have hrun := runText_numeral (by rwa [String.toList_ofList]) hstep htail
    rwa [String.toList_ofList] at hrun
  | .string hbody, _, _, below, tail, hw, hput, _, _ => by
    rw [List.cons_append, List.append_assoc]
    exact runText_quoted hbody (step?_string hw hput below) tail
  | .array hitems, top, _, below, tail, hw, hput, hroom, _ => by
    have henter := step?_enter (.inl ⟨rfl, rfl⟩) hw (by omega : below.length < deepestContainer)
    rw [List.cons_append, List.append_assoc]
    refine (runText_mark henter (by decide)).trans
      (@IsItems.run _ _ _ hitems [] (top :: below) _ tail ?_ (put?_cons hput below))
    rw [List.length_cons]
    omega
  | .object hmembers, top, _, below, tail, hw, hput, hroom, _ => by
    have henter := step?_enter (.inr ⟨rfl, rfl⟩) hw (by omega : below.length < deepestContainer)
    rw [← Dict.ofList_eq_gathered] at hput
    rw [List.cons_append, List.append_assoc]
    refine (runText_mark henter (by decide)).trans
      (@IsMembers.run _ _ _ hmembers ∅ (top :: below) _ tail ?_ (put?_cons hput below))
    rw [List.length_cons]
    omega

/-- What is left of an array leads the machine to where it has the array. -/
theorem IsItems.run {room : Nat} {items : List Json} {text : List Char} : IsItems room items text →
    ∀ {done : List Json} {below : List Open} {s : State} {tail : List Char},
      room + below.length ≤ deepestContainer → State.put? (.array (done.reverse ++ items)) below = some s →
      runText (.inside (.items done) below) (text ++ ']' :: tail) = runText s tail
  | .none hgap, done, below, s, tail, _, hput => by
    rw [List.append_nil] at hput
    rw [runText_gap hgap]
    exact runText_mark ((State.step?_closeBracket rfl below).trans hput) (by decide)
  | .item hgap hvalue hmore, done, below, s, tail, hroom, hput => by
    rw [List.append_assoc, List.append_assoc, runText_gap hgap,
      @IsValue.run _ _ _ hvalue (.items done) _ _ _ rfl rfl hroom (hmore.stops tail)]
    refine hmore.run hroom ?_
    rwa [List.reverse_cons, List.append_assoc]

theorem IsMoreItems.run {room : Nat} {items : List Json} {text : List Char} : IsMoreItems room items text →
    ∀ {done : List Json} {below : List Open} {s : State} {tail : List Char},
      room + below.length ≤ deepestContainer → State.put? (.array (done.reverse ++ items)) below = some s →
      runText (.inside (.afterItem done) below) (text ++ ']' :: tail) = runText s tail
  | .none hgap, done, below, s, tail, _, hput => by
    rw [List.append_nil] at hput
    rw [runText_gap hgap]
    exact runText_mark ((State.step?_closeBracket rfl below).trans hput) (by decide)
  | .comma hgap hitems, done, below, s, tail, hroom, hput => by
    have hcomma : (State.inside (.afterItem done) below).step? (markToken ',') =
        some (.inside (.items done) below) := rfl
    rw [List.append_assoc, runText_gap hgap, List.cons_append, runText_mark hcomma (by decide)]
    exact hitems.run hroom hput

/-- What is left of an object leads the machine to where it has the object. -/
theorem IsMembers.run {room : Nat} {members : List (String × Json)} {text : List Char} :
    IsMembers room members text →
    ∀ {held : Dict Json} {below : List Open} {s : State} {tail : List Char},
      room + below.length ≤ deepestContainer → State.close? (held.setAll members) below = some s →
      runText (.inside (.members held) below) (text ++ '\x7d' :: tail) = runText s tail
  | .none hgap, held, below, s, tail, _, hclose => by
    rw [runText_gap hgap]
    exact runText_mark ((State.step?_closeBrace rfl below).trans hclose) (by decide)
  | @IsMembers.member _ _ _ _ name _ _ _ _ hgap hname hbehind hbefore hvalue hmore, held, below, s, tail, hroom, hclose => by
    have hstring : (State.inside (.members held) below).step? (.string (String.ofList (unescape name))) =
        some (.inside (.colon held (String.ofList (unescape name))) below) := rfl
    have hcolon : (State.inside (.colon held (String.ofList (unescape name))) below).step? (markToken ':') =
        some (.inside (.field held (String.ofList (unescape name))) below) := rfl
    simp only [List.append_assoc, List.cons_append]
    rw [runText_gap hgap, runText_quoted hname hstring, runText_gap hbehind, runText_mark hcolon (by decide),
      runText_gap hbefore, @IsValue.run _ _ _ hvalue (.field held _) _ _ _ rfl rfl hroom (hmore.stops tail)]
    exact hmore.run hroom hclose

theorem IsMoreMembers.run {room : Nat} {members : List (String × Json)} {text : List Char} :
    IsMoreMembers room members text →
    ∀ {held : Dict Json} {below : List Open} {s : State} {tail : List Char},
      room + below.length ≤ deepestContainer → State.close? (held.setAll members) below = some s →
      runText (.inside (.afterMember held) below) (text ++ '\x7d' :: tail) = runText s tail
  | .none hgap, held, below, s, tail, _, hclose => by
    rw [runText_gap hgap]
    exact runText_mark ((State.step?_closeBrace rfl below).trans hclose) (by decide)
  | .comma hgap hmembers, held, below, s, tail, hroom, hclose => by
    have hcomma : (State.inside (.afterMember held) below).step? (markToken ',') =
        some (.inside (.members held) below) := rfl
    rw [List.append_assoc, runText_gap hgap, List.cons_append, runText_mark hcomma (by decide)]
    exact hmembers.run hroom hclose

end

/-- Every description is read, as the object of its members. -/
theorem IsDescription.parse {text : String} {members : List (String × Json)}
    (h : IsDescription members text.toList) : parse text = .ok (.gathered members) := by
  obtain ⟨front, body, back, hfront, hbody, hback, htext⟩ := h
  have hstart : State.start.step? (markToken '\x7b') = some (.inside (.members ∅) []) := rfl
  have hrun : runText .start text.toList = .ok (.gathered members) := by
    rw [htext, runText_gap hfront, runText_mark hstart (by decide), hbody.run (Nat.le_refl _) rfl,
      runText_last hback, ← Dict.ofList_eq_gathered]
    rfl
  rw [runText] at hrun
  rw [Json.parse, hrun]

end AssetPack.Json
