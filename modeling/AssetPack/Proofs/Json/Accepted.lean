import AssetPack.Proofs.Json.Grammar
import AssetPack.Proofs.Json.Parsed

/-!
# What is read is a description

A text that the machine takes to its end is a description. Each token stands in the text behind a gap,
and what follows it completes every container that is open: that is carried back over the tokens, from
the end of the text to its beginning.

Where a text is found wrong, what stands in front of that place begins a description: the containers that are open
there can be closed, whichever token came last. So each error points at the first token that cannot stand where it is.
-/
namespace AssetPack.Json

/-! ## Gaps -/

/-- A gap with this text behind it. -/
def Leaves (gap rest : List Char) : Prop := IsGap false gap ∨ rest = [] ∧ IsGap true gap

theorem Leaves.imp {gap gap' rest : List Char} (h : Leaves gap rest)
    (hgap : ∀ last, IsGap last gap → IsGap last gap') : Leaves gap' rest :=
  Or.imp (hgap false) (fun h => ⟨h.1, hgap true h.2⟩) h

/-- What stands in a text in front of the part that is left of it, from a place in a gap on. -/
def Gap.Skipped : Gap → List Char → List Char → Prop
  | .between, text, rest => ∃ gap, text = gap ++ rest ∧ Leaves gap rest
  | .line, text, rest => (∃ body c gap, '\n' ∉ body ∧ '\r' ∉ body ∧ (c = '\n' ∨ c = '\r') ∧
      text = body ++ c :: (gap ++ rest) ∧ Leaves gap rest) ∨ '\n' ∉ text ∧ '\r' ∉ text ∧ rest = []
  | .comment start, text, rest => (∃ body gap, ¬['*', '/'] <:+: body ∧
      text = body ++ '*' :: '/' :: (gap ++ rest) ∧ Leaves gap rest) ∨ rest = start

theorem skipped (g : Gap) (text : List Char) : g.Skipped text (skipGap g text) := by
  fun_induction skipGap g text with
  | case1 rest ih =>
    rcases ih with ⟨body, c, gap, hline, hreturn, hc, htext, hleaves⟩ | ⟨hline, hreturn, hrest⟩
    · refine ⟨'/' :: '/' :: (body ++ c :: gap), ?_, hleaves.imp fun _ => .line hline hreturn hc⟩
      rw [List.cons_append, List.cons_append, List.append_assoc, List.cons_append, ← htext]
    · exact ⟨'/' :: '/' :: rest, by rw [hrest, List.append_nil], .inr ⟨hrest, .finish rfl hline hreturn⟩⟩
  | case2 rest ih =>
    rcases ih with ⟨body, gap, hbody, htext, hleaves⟩ | hstart
    · refine ⟨'/' :: '*' :: (body ++ '*' :: '/' :: gap), ?_, hleaves.imp fun _ => .comment hbody⟩
      rw [List.cons_append, List.cons_append, List.append_assoc, List.cons_append, List.cons_append, ← htext]
    · exact ⟨[], by rw [hstart, List.nil_append], .inl .nil⟩
  | case3 c rest hline hcomment hspace ih =>
    obtain ⟨gap, htext, hleaves⟩ := ih
    exact ⟨c :: gap, by rw [List.cons_append, ← htext], hleaves.imp fun _ => .space (isSpace_iff.mp hspace)⟩
  | case4 c rest hline hcomment hspace => exact ⟨[], rfl, .inl .nil⟩
  | case5 => exact ⟨[], rfl, .inl .nil⟩
  | case6 c rest hc ih =>
    obtain ⟨gap, htext, hleaves⟩ := ih
    refine .inl ⟨[], c, gap, List.not_mem_nil, List.not_mem_nil, by simpa using hc, ?_, hleaves⟩
    rw [List.nil_append, ← htext]
  | case7 c rest hc ih =>
    simp only [Bool.or_eq_true, decide_eq_true_eq, not_or] at hc
    have hnewline : '\n' ≠ c := fun h => hc.1 h.symm
    have hback : '\r' ≠ c := fun h => hc.2 h.symm
    rcases ih with ⟨body, d, gap, hline, hreturn, hd, htext, hleaves⟩ | ⟨hline, hreturn, hrest⟩
    · exact .inl ⟨c :: body, d, gap, List.not_mem_cons_of_ne_of_not_mem hnewline hline,
        List.not_mem_cons_of_ne_of_not_mem hback hreturn, hd, by rw [List.cons_append, ← htext], hleaves⟩
    · exact .inr ⟨List.not_mem_cons_of_ne_of_not_mem hnewline hline,
        List.not_mem_cons_of_ne_of_not_mem hback hreturn, hrest⟩
  | case8 => exact .inr ⟨List.not_mem_nil, List.not_mem_nil, rfl⟩
  | case9 start rest ih =>
    obtain ⟨gap, htext, hleaves⟩ := ih
    exact .inl ⟨[], gap, by decide, by rw [List.nil_append, ← htext], hleaves⟩
  | case10 start c rest hne ih =>
    rcases ih with ⟨body, gap, hbody, htext, hleaves⟩ | hstart
    · refine .inl ⟨c :: body, gap, fun hinfix => ?_, by rw [List.cons_append, ← htext], hleaves⟩
      rcases List.infix_cons_iff.mp hinfix with hfront | hinfix
      · -- a mark that began in front of this comment's end would have closed it
        obtain ⟨hc, d, hd⟩ := List.cons_prefix_cons.mp hfront
        rw [← hd] at htext
        exact hne _ hc.symm htext
      · exact hbody hinfix
    · exact .inr hstart
  | case11 start => exact .inr rfl

theorem IsGap.last {gap : List Char} (h : IsGap false gap) : IsGap true gap := by
  induction h with
  | nil => exact .nil
  | space hspace _ ih => exact .space hspace ih
  | line hline hreturn hc _ ih => exact .line hline hreturn hc ih
  | comment hbody _ ih => exact .comment hbody ih
  | finish hlast _ _ => cases hlast

/-- A last gap is a gap, if need be with an end of the line behind it. -/
theorem IsGap.ended {last : Bool} {gap : List Char} (h : IsGap last gap) : ∃ back, IsGap false (gap ++ back) := by
  induction h with
  | nil => exact ⟨[], .nil⟩
  | space hspace _ ih =>
    obtain ⟨back, hback⟩ := ih
    exact ⟨back, .space hspace hback⟩
  | @line body rest c hline hreturn hc _ ih =>
    obtain ⟨back, hback⟩ := ih
    refine ⟨back, ?_⟩
    rw [List.cons_append, List.cons_append, List.append_assoc, List.cons_append]
    exact .line hline hreturn hc hback
  | @comment body rest hbody _ ih =>
    obtain ⟨back, hback⟩ := ih
    refine ⟨back, ?_⟩
    rw [List.cons_append, List.cons_append, List.append_assoc, List.cons_append, List.cons_append]
    exact .comment hbody hback
  | finish _ hline hreturn => exact ⟨['\n'], .line hline hreturn (.inl rfl) .nil⟩

theorem Leaves.ended {gap rest : List Char} (h : Leaves gap rest) : ∃ back, IsGap false (gap ++ back) :=
  h.elim IsGap.ended fun h => h.2.ended

/-! ## Tokens -/

/-- The text is the token. -/
def Token.Spelled : Token → List Char → Prop
  | .openBrace, text => text = ['\x7b']
  | .closeBrace, text => text = ['\x7d']
  | .openBracket, text => text = ['[']
  | .closeBracket, text => text = [']']
  | .comma, text => text = [',']
  | .colon, text => text = [':']
  | .null, text => text = ['n', 'u', 'l', 'l']
  | .bool true, text => text = ['t', 'r', 'u', 'e']
  | .bool false, text => text = ['f', 'a', 'l', 's', 'e']
  | .number numeral, text => IsNumeral text ∧ numeral = String.ofList text
  | .string s, text => ∃ body, IsQuoted body ∧ s = String.ofList (unescape body) ∧ text = '"' :: (body ++ ['"'])
  | .finish, text => text = []
  | .bad, _ => False

theorem append_of_splitDigits? {text digits rest : List Char} (h : splitDigits? text = some (digits, rest)) :
    text = digits ++ rest := by
  unfold splitDigits? at h
  split at h
  · cases h
  · cases h
    exact List.takeWhile_append_dropWhile.symm

theorem append_splitMinus (text : List Char) : text = (splitMinus text).1 ++ (splitMinus text).2 := by
  unfold splitMinus
  split <;> rfl

theorem append_splitExponentSign (text : List Char) :
    text = (splitExponentSign text).1 ++ (splitExponentSign text).2 := by
  unfold splitExponentSign
  split
  · split <;> rfl
  · rfl

theorem append_of_splitFraction? {text fraction rest : List Char}
    (h : splitFraction? text = some (fraction, rest)) : text = fraction ++ rest := by
  unfold splitFraction? at h
  split at h
  · obtain ⟨⟨digits, _⟩, hdigits, heq⟩ := Option.map_eq_some_iff.mp h
    cases heq
    rw [append_of_splitDigits? hdigits, List.cons_append]
  · cases h
    rfl

theorem append_of_splitExponent? {text exponent rest : List Char}
    (h : splitExponent? text = some (exponent, rest)) : text = exponent ++ rest := by
  cases text with
  | nil =>
    cases h
    rfl
  | cons mark text =>
    rw [splitExponent?] at h
    split at h
    · obtain ⟨⟨digits, _⟩, hdigits, heq⟩ := Option.map_eq_some_iff.mp h
      cases heq
      have hsplit : splitDigits? (splitExponentSign text).2 = some (digits, rest) := hdigits
      show mark :: text = mark :: ((splitExponentSign text).1 ++ digits) ++ rest
      rw [List.cons_append, List.append_assoc, ← append_of_splitDigits? hsplit, ← append_splitExponentSign]
    · cases h
      rfl

theorem append_of_splitNumeral? {text numeral rest : List Char}
    (h : splitNumeral? text = some (numeral, rest)) : text = numeral ++ rest := by
  unfold splitNumeral? at h
  simp only [Option.bind_eq_bind, Option.bind_eq_some_iff, Prod.exists] at h
  obtain ⟨whole, text₁, h₁, fraction, text₂, h₂, exponent, text₃, h₃, heq⟩ := h
  cases heq
  simp only [List.append_assoc]
  rw [← append_of_splitExponent? h₃, ← append_of_splitFraction? h₂, ← append_of_splitDigits? h₁]
  exact append_splitMinus text

theorem spelled_wordToken {word : List Char} (h : wordToken (String.ofList word) ≠ .bad) :
    (wordToken (String.ofList word)).Spelled word := by
  have hlist {s : String} (h : String.ofList word = s) : word = s.toList := by
    rw [← h, String.toList_ofList]
  unfold wordToken at h ⊢
  by_cases htrue : String.ofList word = "true"
  · rw [if_pos htrue]
    exact hlist htrue
  by_cases hfalse : String.ofList word = "false"
  · rw [if_neg htrue, if_pos hfalse]
    exact hlist hfalse
  by_cases hnull : String.ofList word = "null"
  · rw [if_neg htrue, if_neg hfalse, if_pos hnull]
    exact hlist hnull
  · rw [if_neg htrue, if_neg hfalse, if_neg hnull] at h
    exact (h rfl).elim

theorem spelled_markToken {c : Char} (h : markToken c ≠ .bad) : (markToken c).Spelled [c] := by
  revert h
  unfold markToken
  split <;> intro h
  all_goals first | rfl | exact (h rfl).elim

theorem nextToken_finish {text rest : List Char} (h : nextToken text = (.finish, rest)) : text = [] := by
  unfold nextToken at h
  split at h
  · rfl
  · split at h
    · split at h
      · split at h <;> cases h
      · cases h
    · split at h
      · split at h <;> cases h
      · split at h
        · exact (wordToken_ne_finish _ (congrArg Prod.fst h)).elim
        · have hmark := congrArg Prod.fst h
          unfold markToken at hmark
          split at hmark <;> cases hmark

/-- A text begins with its first token. -/
theorem spelled_nextToken {text rest : List Char} {t : Token} (h : nextToken text = (t, rest)) (ht : t ≠ .bad) :
    ∃ front, text = front ++ rest ∧ t.Spelled front := by
  unfold nextToken at h
  split at h
  · cases h
    exact ⟨[], rfl, rfl⟩
  · rename_i c tail
    split at h
    · rename_i hquote
      split at h
      · obtain ⟨hbody, rfl⟩ := quoted_of_splitQuoted? ‹_›
        rw [unescape?_of_isQuoted hbody] at h
        cases h
        exact ⟨_, by rw [hquote, List.cons_append, List.append_assoc]; rfl, _, hbody, rfl, rfl⟩
      · cases h
        exact (ht rfl).elim
    · split at h
      · split at h
        · cases h
          exact ⟨_, append_of_splitNumeral? ‹_›, isNumeral_of_splitNumeral? ‹_›, rfl⟩
        · cases h
          exact (ht rfl).elim
      · split at h
        · cases h
          exact ⟨_, List.takeWhile_append_dropWhile.symm, spelled_wordToken ht⟩
        · cases h
          exact ⟨[c], rfl, spelled_markToken ht⟩

/-! ## The machine -/

/-- The text is what is left of a container up to its closing bracket, which makes it this value. -/
def Open.Closes (room : Nat) : Open → List Char → Json → Prop
  | items done, text, j => ∃ items body, IsItems room items body ∧ text = body ++ [']'] ∧
      j = .array (done.reverse ++ items)
  | afterItem done, text, j => ∃ items body, IsMoreItems room items body ∧ text = body ++ [']'] ∧
      j = .array (done.reverse ++ items)
  | members held, text, j => ∃ members body, IsMembers room members body ∧ text = body ++ ['\x7d'] ∧
      j = .object (held.setAll members)
  | colon held name, text, j => ∃ behind before value k members rest, IsGap false behind ∧ IsGap false before ∧
      IsValue room k value ∧ IsMoreMembers room members rest ∧
      text = behind ++ ':' :: (before ++ (value ++ (rest ++ ['\x7d']))) ∧
      j = .object ((held.set name k).setAll members)
  | field held name, text, j => ∃ before value k members rest, IsGap false before ∧ IsValue room k value ∧
      IsMoreMembers room members rest ∧ text = before ++ (value ++ (rest ++ ['\x7d'])) ∧
      j = .object ((held.set name k).setAll members)
  | afterMember held, text, j => ∃ members body, IsMoreMembers room members body ∧ text = body ++ ['\x7d'] ∧
      j = .object (held.setAll members)

/-- The text closes all containers that are open, one after the other, and a gap is left. -/
def Open.Completes (top : Open) : (below : List Open) → List Char → Dict Json → Prop
  | [], text, root => ∃ front back, top.Closes deepestContainer front (.object root) ∧ IsGap true back ∧
      text = front ++ back
  | next :: below, text, root => ∃ front back j next', top.Closes (deepestContainer - (below.length + 1)) front j ∧
      next.put? j = some next' ∧ next'.Completes below back root ∧ text = front ++ back

/-- The text completes what the machine has read to a description of the root. -/
def State.Completes : State → List Char → Dict Json → Prop
  | start, text, root => ∃ members, IsDescription members text ∧ root = .gathered members
  | inside top below, text, root => top.Completes below text root
  | done held, text, root => IsGap true text ∧ root = held

variable {top top' : Open} {below : List Open} {text front gap rest : List Char} {root : Dict Json}

/-- What stands in front of what closes the innermost container stands in front of all. -/
theorem Open.Completes.behind (h : top'.Completes below text root)
    (hclose : ∀ text j, top'.Closes (deepestContainer - below.length) text j →
      top.Closes (deepestContainer - below.length) (front ++ text) j) :
    top.Completes below (front ++ text) root := by
  cases below with
  | nil =>
    obtain ⟨text, back, htop, hback, rfl⟩ := h
    exact ⟨front ++ text, back, hclose _ _ htop, hback, (List.append_assoc ..).symm⟩
  | cons next below =>
    obtain ⟨text, back, j, next', htop, hput, hnext, rfl⟩ := h
    exact ⟨front ++ text, back, j, next', hclose _ _ htop, hput, hnext, (List.append_assoc ..).symm⟩

/-- A value that the innermost container waits for. -/
theorem Open.Completes.value {j : Json} {value : List Char} (hgap : IsGap false gap)
    (hvalue : IsValue (deepestContainer - below.length) j value) (hput : top.put? j = some top')
    (h : top'.Completes below rest root) : top.Completes below (gap ++ (value ++ rest)) root := by
  rw [← List.append_assoc]
  refine h.behind fun text k hclose => ?_
  rw [List.append_assoc]
  cases top with
  | items done =>
    cases hput
    obtain ⟨items, body, hmore, rfl, rfl⟩ := hclose
    refine ⟨j :: items, _, .item hgap hvalue hmore, ?_, ?_⟩
    · rw [List.append_assoc, List.append_assoc]
    · rw [List.reverse_cons, List.append_assoc, List.singleton_append]
  | field held name =>
    cases hput
    obtain ⟨members, body, hmore, rfl, rfl⟩ := hclose
    exact ⟨gap, value, j, members, body, hgap, hvalue, hmore, rfl, rfl⟩
  | _ => cases hput

theorem State.Completes.put {j : Json} {s : State} (hput : State.put? j (top :: below) = some s)
    (h : s.Completes rest root) : ∃ top', top.put? j = some top' ∧ top'.Completes below rest root := by
  obtain ⟨top', htop, rfl⟩ := Option.map_eq_some_iff.mp hput
  exact ⟨top', htop, h⟩

/-- A value that is a container. -/
theorem Open.Completes.enter {new : Open} {mark : Char} (hgap : IsGap false gap)
    (hnew : ∀ room front j, new.Closes room front j → IsValue (room + 1) j (mark :: front))
    (hroom : below.length < deepestContainer) (h : new.Completes (top :: below) rest root) :
    top.Completes below (gap ++ ([mark] ++ rest)) root := by
  obtain ⟨front, back, j, top', hclose, hput, hnext, rfl⟩ := h
  have hvalue := hnew _ front j hclose
  rw [show deepestContainer - (below.length + 1) + 1 = deepestContainer - below.length by omega] at hvalue
  show top.Completes below (gap ++ (mark :: front ++ back)) root
  exact hnext.value hgap hvalue hput

theorem Open.Completes.close {j : Json} {s : State} (htop : ∀ room, top.Closes room front j)
    (hput : State.put? j below = some s) (h : s.Completes rest root) :
    top.Completes below (front ++ rest) root := by
  cases below with
  | nil => cases hput
  | cons next below =>
    obtain ⟨next', hput, hnext⟩ := h.put hput
    exact ⟨front, rest, j, next', htop _, hput, hnext, rfl⟩

theorem Open.closes_of_closeBracket? {room : Nat} {j : Json} (hgap : IsGap false gap)
    (h : top.closeBracket? = some j) : top.Closes room (gap ++ [']']) j := by
  cases top with
  | items done =>
    cases h
    exact ⟨[], gap, .none hgap, rfl, by rw [List.append_nil]⟩
  | afterItem done =>
    cases h
    exact ⟨[], gap, .none hgap, rfl, by rw [List.append_nil]⟩
  | _ => cases h

theorem Open.closes_of_closeBrace? {room : Nat} {held : Dict Json} (hgap : IsGap false gap)
    (h : top.closeBrace? = some held) : top.Closes room (gap ++ ['\x7d']) (.object held) := by
  cases top with
  | members done =>
    cases h
    exact ⟨[], gap, .none hgap, rfl, rfl⟩
  | afterMember done =>
    cases h
    exact ⟨[], gap, .none hgap, rfl, rfl⟩
  | _ => cases h

theorem State.enter_of_enter? {new : Open} {s : State} (h : enter? new top below = some s) :
    top.waits ∧ below.length < deepestContainer ∧ s = inside new (top :: below) := by
  unfold enter? at h
  split at h
  · rename_i hroom
    cases h
    exact ⟨hroom.1, hroom.2, rfl⟩
  · cases h

/-- Inside a container, a token behind a gap completes if what it leads to does. -/
theorem State.Completes.stepInside {t : Token} {s : State} (hgap : IsGap false gap) (ht : t.Spelled front)
    (hstep : stepInside? top below t = some s) (h : s.Completes rest root) :
    top.Completes below (gap ++ (front ++ rest)) root := by
  have hvalue {j : Json} (hj : IsValue (deepestContainer - below.length) j front)
      (hput : State.put? j (top :: below) = some s) : top.Completes below (gap ++ (front ++ rest)) root := by
    obtain ⟨top', hput, htop⟩ := h.put hput
    exact htop.value hgap hj hput
  cases t with
  | openBrace =>
    obtain rfl := ht
    obtain ⟨-, hroom, rfl⟩ := enter_of_enter? hstep
    refine Open.Completes.enter hgap (fun room front j hclose => ?_) hroom h
    obtain ⟨members, body, hmembers, rfl, rfl⟩ := hclose
    have hobject := IsValue.object hmembers
    rwa [← Dict.ofList_eq_gathered] at hobject
  | openBracket =>
    obtain rfl := ht
    obtain ⟨-, hroom, rfl⟩ := enter_of_enter? hstep
    refine Open.Completes.enter hgap (fun room front j hclose => ?_) hroom h
    obtain ⟨items, body, hitems, rfl, rfl⟩ := hclose
    exact .array hitems
  | closeBracket =>
    obtain rfl := ht
    obtain ⟨j, hclose, hput⟩ := Option.bind_eq_some_iff.mp hstep
    rw [← List.append_assoc]
    exact Open.Completes.close (fun _ => Open.closes_of_closeBracket? hgap hclose) hput h
  | closeBrace =>
    obtain rfl := ht
    obtain ⟨held, hclose, hput⟩ := Option.bind_eq_some_iff.mp hstep
    have htop (room : Nat) : top.Closes room (gap ++ ['\x7d']) (.object held) := Open.closes_of_closeBrace? hgap hclose
    rw [← List.append_assoc]
    cases below with
    | nil =>
      cases hput
      obtain ⟨hback, rfl⟩ := h
      exact ⟨gap ++ ['\x7d'], rest, htop _, hback, rfl⟩
    | cons next below => exact Open.Completes.close htop hput h
  | comma =>
    obtain rfl := ht
    rw [← List.append_assoc]
    cases top with
    | afterItem done =>
      cases hstep
      refine Open.Completes.behind h fun text j hclose => ?_
      obtain ⟨items, body, hitems, rfl, rfl⟩ := hclose
      exact ⟨items, _, .comma hgap hitems, by simp only [List.append_assoc, List.cons_append, List.nil_append], rfl⟩
    | afterMember held =>
      cases hstep
      refine Open.Completes.behind h fun text j hclose => ?_
      obtain ⟨members, body, hmembers, rfl, rfl⟩ := hclose
      exact ⟨members, _, .comma hgap hmembers, by simp only [List.append_assoc, List.cons_append, List.nil_append], rfl⟩
    | _ => cases hstep
  | colon =>
    obtain rfl := ht
    rw [← List.append_assoc]
    cases top with
    | colon held name =>
      cases hstep
      refine Open.Completes.behind h fun text j hclose => ?_
      obtain ⟨before, value, k, members, rest, hbefore, hvalue, hmore, rfl, rfl⟩ := hclose
      exact ⟨gap, before, value, k, members, rest, hgap, hbefore, hvalue, hmore, by
        simp only [List.append_assoc, List.cons_append, List.nil_append], rfl⟩
    | _ => cases hstep
  | string s =>
    obtain ⟨body, hbody, rfl, rfl⟩ := ht
    cases top with
    | members held =>
      cases hstep
      rw [← List.append_assoc]
      refine Open.Completes.behind h fun text j hclose => ?_
      obtain ⟨behind, before, value, k, members, rest, hbehind, hbefore, hvalue, hmore, rfl, rfl⟩ := hclose
      exact ⟨(_, k) :: members, _, .member hgap hbody hbehind hbefore hvalue hmore, by
        simp only [List.append_assoc, List.cons_append, List.nil_append], rfl⟩
    | _ => exact hvalue (.string hbody) hstep
  | null =>
    obtain rfl := ht
    exact hvalue .null hstep
  | bool b =>
    cases b <;> obtain rfl := ht
    · exact hvalue .false hstep
    · exact hvalue .true hstep
  | number numeral =>
    obtain ⟨hnumeral, rfl⟩ := ht
    exact hvalue (.number hnumeral) hstep
  | finish => cases hstep
  | bad => cases hstep

theorem State.step?_bad (s : State) : s.step? .bad = none := by cases s <;> rfl

theorem State.done_of_step?_finish {s s' : State} (h : s.step? .finish = some s') : ∃ root, s = done root := by
  cases s with
  | done root => exact ⟨root, rfl⟩
  | _ => cases h

/-- A token behind a gap completes if what it leads to does. -/
theorem State.Completes.step {s s' : State} {t : Token} (hgap : IsGap false gap) (ht : t.Spelled front)
    (hfinish : t ≠ .finish) (hstep : s.step? t = some s') (h : s'.Completes rest root) :
    s.Completes (gap ++ (front ++ rest)) root := by
  cases s with
  | start =>
    cases t with
    | openBrace =>
      cases hstep
      obtain rfl := ht
      obtain ⟨_, back, ⟨members, body, hmembers, rfl, hroot⟩, hback, rfl⟩ := h
      cases hroot
      refine ⟨members, ⟨gap, body, back, hgap, hmembers, hback, ?_⟩, Dict.ofList_eq_gathered members⟩
      rw [List.append_assoc, List.singleton_append, List.singleton_append]
    | _ => cases hstep
  | inside top below => exact h.stepInside hgap ht hstep
  | done held =>
    cases t with
    | finish => exact (hfinish rfl).elim
    | _ => cases hstep

/-- A text is wrong behind its first gap, or ends there, or goes on behind its first token. -/
theorem runText_cases (s : State) (text : List Char) : ∃ gap rest, text = gap ++ rest ∧ Leaves gap rest ∧
    (runText s text = .error rest ∨ (∃ root, s = .done root ∧ rest = [] ∧ runText s text = .ok root) ∨
      ∃ t s' front tail, IsGap false gap ∧ rest = front ++ tail ∧ t.Spelled front ∧ t ≠ .finish ∧
        s.step? t = some s' ∧ tail.length < text.length ∧ runText s text = runText s' tail) := by
  obtain ⟨gap, htext, hleaves⟩ : Gap.between.Skipped text (skipGap .between text) := skipped .between text
  obtain ⟨t, tail, hnext⟩ : ∃ t tail, nextToken (skipGap .between text) = (t, tail) := ⟨_, _, rfl⟩
  refine ⟨gap, skipGap .between text, htext, hleaves, ?_⟩
  cases hstep : s.step? t with
  | none =>
    refine .inl ?_
    rw [runText, lex, lexFrom]
    simp only [hnext, runTokens, hstep]
  | some s' =>
    refine .inr ?_
    by_cases hfinish : t = .finish
    · -- only the end of the text ends the reading, and only behind the root
      subst hfinish
      obtain ⟨root, rfl⟩ := State.done_of_step?_finish hstep
      refine .inl ⟨root, rfl, nextToken_finish hnext, ?_⟩
      rw [runText, lex, lexFrom]
      simp only [hnext, true_or, if_true]
      rfl
    · have hbad : t ≠ .bad := by
        rintro rfl
        rw [State.step?_bad] at hstep
        cases hstep
      obtain ⟨front, hfront, ht⟩ := spelled_nextToken hnext hbad
      have hshort := length_nextToken hnext hfinish
      have hgap : IsGap false gap := by
        refine hleaves.elim id fun h => ?_
        rw [h.1] at hshort
        cases hshort
      have hle := length_skipGap_le .between text
      simp only [Gap.fallback, List.length_nil] at hle
      exact .inr ⟨t, s', front, tail, hgap, hfront, ht, hfinish, hstep, by omega,
        runText_token hnext hfinish hbad hstep⟩

/-- A text that the machine takes to its end completes what it has read. -/
theorem State.Completes.of_runText {s : State} (h : runText s text = .ok root) : s.Completes text root := by
  induction hlen : text.length using Nat.strongRecOn generalizing s text with
  | ind n ih =>
    obtain ⟨gap, behind, rfl, hleaves, hcases⟩ := runText_cases s text
    rcases hcases with herror | ⟨held, rfl, rfl, hok⟩ |
      ⟨t, s', front, tail, hgap, rfl, ht, hfinish, hstep, hshort, hgoes⟩
    · cases herror.symm.trans h
    · obtain rfl : held = root := Except.ok.inj (hok.symm.trans h)
      rw [List.append_nil]
      exact ⟨hleaves.elim (·.last) (·.2), rfl⟩
    · exact (ih tail.length (hlen ▸ hshort) (hgoes ▸ h) rfl).step hgap ht hfinish hstep

/-- A text is read just if it is a description, as the object of its members. -/
theorem parse_eq_ok_iff {text : String} {root : Dict Json} :
    parse text = .ok root ↔ ∃ members, IsDescription members text.toList ∧ root = .gathered members := by
  constructor
  · intro h
    have hrun : runText .start text.toList = .ok root := by
      rw [parse] at h
      split at h
      · cases h
        assumption
      · cases h
    exact State.Completes.of_runText hrun
  · rintro ⟨members, hdescription, rfl⟩
    exact hdescription.parse

/-- The texts that are accepted are just the descriptions. Every name of a description stands in the
dictionary once, where it was first, with the value that its last text stands for. -/
theorem parseDict_eq_ok_iff {text : String} {d : Dict Value} :
    parseDict text = .ok d ↔
      ∃ members, IsDescription members text.toList ∧ d = (Dict.gathered members).map value := by
  have hvalue (root : Dict Json) : root.jsonValue = root.map value := Dict.jsonValue_eq root
  constructor
  · intro h
    unfold parseDict at h
    split at h
    · obtain ⟨members, hdescription, rfl⟩ := parse_eq_ok_iff.mp ‹_›
      cases h
      exact ⟨members, hdescription, hvalue _⟩
    · cases h
  · rintro ⟨members, hdescription, rfl⟩
    rw [parseDict, hdescription.parse, ← hvalue]

/-! ## Containers within containers -/

namespace Open
variable {top top' next : Open} {below : List Open} {gap : List Char}

/-- An object is read, not an array. -/
def isObject : Open → Bool
  | items _ => false
  | afterItem _ => false
  | _ => true

theorem isObject_of_put? {j : Json} (h : top.put? j = some top') : top'.isObject = top.isObject := by
  cases top with
  | items done | field done name =>
    cases h
    rfl
  | _ => cases h

theorem put?_of_waits (h : next.waits) (j : Json) : ∃ next', next.put? j = some next' := by
  cases next with
  | items done => exact ⟨_, rfl⟩
  | field done name => exact ⟨_, rfl⟩
  | _ => cases h

/-- Every container waits for the one within it, and the outermost one is an object. -/
def Nested (top : Open) : List Open → Prop
  | [] => top.isObject
  | next :: below => next.waits ∧ next.Nested below

theorem Nested.congr (h : top.Nested below) (hobject : top'.isObject = top.isObject) : top'.Nested below := by
  cases below with
  | nil => exact hobject.trans h
  | cons next below => exact h

theorem exists_closes_object (h : top.isObject) (hgap : IsGap false gap) :
    ∃ more held, ∀ room, top.Closes room (gap ++ more) (.object held) := by
  cases top with
  | items done => cases h
  | afterItem done => cases h
  | members held => exact ⟨['\x7d'], held, fun _ => closes_of_closeBrace? hgap rfl⟩
  | afterMember held => exact ⟨['\x7d'], held, fun _ => closes_of_closeBrace? hgap rfl⟩
  | colon held name =>
    exact ⟨[':', 'n', 'u', 'l', 'l', '\x7d'], held.set name .null,
      fun _ => ⟨gap, [], _, .null, [], [], hgap, .nil, .null, .none .nil, rfl, rfl⟩⟩
  | field held name =>
    exact ⟨['n', 'u', 'l', 'l', '\x7d'], held.set name .null,
      fun _ => ⟨gap, _, .null, [], [], hgap, .null, .none .nil, rfl, rfl⟩⟩

theorem exists_closes (top : Open) (hgap : IsGap false gap) :
    ∃ more j, ∀ room, top.Closes room (gap ++ more) j := by
  by_cases h : top.isObject
  · obtain ⟨more, held, hcloses⟩ := exists_closes_object h hgap
    exact ⟨more, .object held, hcloses⟩
  · cases top with
    | items done => exact ⟨[']'], .array done.reverse, fun _ => closes_of_closeBracket? hgap rfl⟩
    | afterItem done => exact ⟨[']'], .array done.reverse, fun _ => closes_of_closeBracket? hgap rfl⟩
    | _ => exact absurd rfl h

/-- Behind a gap, containers within each other can be closed. -/
theorem Nested.exists_completes (h : top.Nested below) (hgap : IsGap false gap) :
    ∃ more root, top.Completes below (gap ++ more) root := by
  induction below generalizing top gap with
  | nil =>
    obtain ⟨more, root, hcloses⟩ := exists_closes_object h hgap
    exact ⟨more, root, gap ++ more, [], hcloses _, .nil, (List.append_nil _).symm⟩
  | cons next below ih =>
    obtain ⟨hwaits, hnext⟩ := h
    obtain ⟨more, j, hcloses⟩ := exists_closes top hgap
    obtain ⟨next', hput⟩ := put?_of_waits hwaits j
    obtain ⟨back, root, hcompletes⟩ := ih (hnext.congr (isObject_of_put? hput)) .nil
    exact ⟨more ++ back, root, gap ++ more, back, j, next', hcloses _, hput, hcompletes, (List.append_assoc ..).symm⟩

end Open

namespace State
variable {s s' : State} {t : Token} {text rest gap : List Char}

/-- Each open container waits for the one within it. -/
def Nested : State → Prop
  | inside top below => top.Nested below
  | _ => True

theorem nested_of_put? {top : Open} {below : List Open} {j : Json} (h : top.Nested below)
    (hput : put? j (top :: below) = some s) : s.Nested := by
  obtain ⟨top', htop, rfl⟩ := Option.map_eq_some_iff.mp hput
  exact h.congr (Open.isObject_of_put? htop)

theorem nested_of_close {top : Open} {below : List Open} {j : Json} (h : top.Nested below)
    (hput : put? j below = some s) : s.Nested := by
  cases below with
  | nil => cases hput
  | cons next below => exact nested_of_put? h.2 hput

theorem nested_of_enter? {new top : Open} {below : List Open} (h : top.Nested below)
    (henter : enter? new top below = some s) : s.Nested := by
  obtain ⟨hwaits, -, rfl⟩ := enter_of_enter? henter
  exact ⟨hwaits, h⟩

theorem Nested.step (h : s.Nested) (hstep : s.step? t = some s') : s'.Nested := by
  cases s with
  | start =>
    cases t with
    | openBrace =>
      cases hstep
      rfl
    | _ => cases hstep
  | done root =>
    cases t with
    | finish =>
      cases hstep
      trivial
    | _ => cases hstep
  | inside top below =>
    cases t with
    | openBrace => exact nested_of_enter? h hstep
    | openBracket => exact nested_of_enter? h hstep
    | closeBracket =>
      obtain ⟨j, -, hput⟩ := Option.bind_eq_some_iff.mp hstep
      exact nested_of_close h hput
    | closeBrace =>
      obtain ⟨held, -, hput⟩ := Option.bind_eq_some_iff.mp hstep
      split at hput
      · cases hput
        trivial
      · exact nested_of_close h hput
    | comma =>
      cases top with
      | afterItem held | afterMember held =>
        cases hstep
        exact Open.Nested.congr h rfl
      | _ => cases hstep
    | colon =>
      cases top with
      | colon held name =>
        cases hstep
        exact Open.Nested.congr h rfl
      | _ => cases hstep
    | string name =>
      cases top with
      | members held =>
        cases hstep
        exact Open.Nested.congr h rfl
      | _ => exact nested_of_put? (j := .string name) h hstep
    | null => exact nested_of_put? (j := .null) h hstep
    | bool b => exact nested_of_put? (j := .bool b) h hstep
    | number numeral => exact nested_of_put? (j := .number numeral) h hstep
    | finish => cases hstep
    | bad => cases hstep

theorem Nested.exists_completes (h : s.Nested) (hgap : IsGap false gap) :
    ∃ more root, s.Completes (gap ++ more) root := by
  cases s with
  | start => exact ⟨['\x7b', '\x7d'], .gathered [], [], ⟨gap, [], [], hgap, .none .nil, .nil, rfl⟩, rfl⟩
  | inside top below => exact Open.Nested.exists_completes h hgap
  | done root =>
    refine ⟨[], root, ?_, rfl⟩
    rw [List.append_nil]
    exact hgap.last

/-- What stands in front of what is wrong can be completed. -/
theorem Nested.viable (h : s.Nested) (hrun : runText s text = .error rest) :
    ∃ front, text = front ++ rest ∧ ∃ more root, s.Completes (front ++ more) root := by
  induction hlen : text.length using Nat.strongRecOn generalizing s text with
  | ind n ih =>
    obtain ⟨gap, behind, rfl, hleaves, hcases⟩ := runText_cases s text
    rcases hcases with herror | ⟨root, -, -, hok⟩ | ⟨t, s', front, tail, hgap, rfl, ht, hfinish, hstep, hshort, hgoes⟩
    · obtain rfl : behind = rest := Except.error.inj (herror.symm.trans hrun)
      obtain ⟨back, hback⟩ := hleaves.ended
      obtain ⟨more, root, hcompletes⟩ := h.exists_completes hback
      exact ⟨gap, rfl, back ++ more, root, by rwa [← List.append_assoc]⟩
    · cases hok.symm.trans hrun
    · obtain ⟨front', rfl, more, root, hcompletes⟩ := ih tail.length (hlen ▸ hshort) (h.step hstep) (hgoes ▸ hrun) rfl
      refine ⟨gap ++ (front ++ front'), by simp only [List.append_assoc], more, root, ?_⟩
      simp only [List.append_assoc]
      exact hcompletes.step hgap ht hfinish hstep

end State

/-! ## Errors -/

/-- The fault of a text is placed at the beginning of a character, or at the end, and shows what is there. What stands
in front of it is the beginning of a text that is read. -/
theorem viable_of_parseDict {text : String} {f : Fault} (h : parseDict text = .error f) :
    ∃ front rest : String, text = front ++ rest ∧
      (⟨front.utf8ByteSize⟩ : String.Pos.Raw).IsValid text ∧ front.utf8ByteSize ≤ text.utf8ByteSize ∧
      f = .badDescription front.utf8ByteSize (String.ofList (rest.toList.take excerptLength)) ∧
      ∃ (more : String) (d : Dict Value), parseDict (front ++ more) = .ok d := by
  obtain ⟨rest, hrun, rfl⟩ : ∃ rest, runText .start text.toList = .error rest ∧ f = faultAt text rest := by
    rw [parseDict, parse] at h
    cases hrun : runText .start text.toList with
    | ok root =>
      rw [runText] at hrun
      rw [hrun] at h
      cases h
    | error rest =>
      rw [runText] at hrun
      rw [hrun] at h
      exact ⟨rest, rfl, (Except.error.inj h).symm⟩
  have hstart : State.start.Nested := trivial
  obtain ⟨front, htext, more, root, members, hdescription, -⟩ := hstart.viable hrun
  have hsplit : text = String.ofList front ++ String.ofList rest := by
    rw [← String.ofList_append, ← htext, String.ofList_toList]
  refine ⟨String.ofList front, String.ofList rest, hsplit, ?_, ?_, ?_, String.ofList more,
    (Dict.gathered members).map value, ?_⟩
  · exact String.Pos.Raw.isValid_iff_exists_append.mpr ⟨_, _, hsplit, rfl⟩
  · rw [hsplit, String.utf8ByteSize_append]
    exact Nat.le_add_right _ _
  · rw [faultAt, hsplit, String.utf8ByteSize_append, Nat.add_sub_cancel, String.toList_ofList]
  · refine parseDict_eq_ok_iff.mpr ⟨members, ?_, rfl⟩
    rwa [← String.ofList_append, String.toList_ofList]

/-- A list that goes on without a comma, within an object. -/
def withoutComma : String := "\x7b\"ä\":[1,2 true,\"a long text that is not shown to its end\"]\x7d"

theorem viable_of_parseDict_withoutComma :
    parseDict withoutComma = .error (.badDescription 11 "true,\"a long text that is not sh") ∧
    ∃ front rest : String, withoutComma = front ++ rest ∧
      (⟨front.utf8ByteSize⟩ : String.Pos.Raw).IsValid withoutComma ∧
      front.utf8ByteSize ≤ withoutComma.utf8ByteSize ∧
      Fault.badDescription 11 "true,\"a long text that is not sh" =
        .badDescription front.utf8ByteSize (String.ofList (rest.toList.take excerptLength)) ∧
      ∃ (more : String) (d : Dict Value), parseDict (front ++ more) = .ok d := by
  have herror : parseDict withoutComma = .error (.badDescription 11 "true,\"a long text that is not sh") := rfl
  exact ⟨herror, viable_of_parseDict herror⟩

end AssetPack.Json
