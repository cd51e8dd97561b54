import AssetPack.Json.Write
import AssetPack.Proofs.Json.Lexing
import AssetPack.Proofs.Json.Parts

/-!
# Written JSON is read back

Reading the text of a value brings the machine from a state that waits for a value to the one in which
it has it. The law is for any text behind the value that begins with a comma or a line break, and is
proved along the value; for the members of a container it is carried from one to the next.
-/
namespace AssetPack.Json

/-- What stands behind a written value: a comma or the end of the line. -/
def Behind (tail : List Char) : Prop := ∃ rest, tail = ',' :: rest ∨ tail = '\n' :: rest

theorem Behind.stops {tail : List Char} (h : Behind tail) : Stops tail := by
  obtain ⟨rest, rfl | rfl⟩ := h <;> (intro c hc; cases hc; decide)

theorem behind_separator {last : Bool} {tail : List Char} (h : last = true → Behind tail) :
    Behind (separator last tail) := by
  cases last with
  | true => exact h rfl
  | false => exact ⟨tail, .inl rfl⟩

theorem runText_quote {s s' : State} {text : String} (hstep : s.step? (.string text) = some s')
    (tail : List Char) : runText s (quote text tail) = runText s' tail := by
  refine runText_quoted (isQuoted_escape text.toList) ?_ tail
  rwa [unescape_escape, String.ofList_toList]

theorem runText_indent (s : State) (level : Nat) (text : List Char) :
    runText s ('\n' :: indent level text) = runText s text := by
  have hblanks (n : Nat) : runText s (List.replicate n ' ' ++ text) = runText s text := by
    induction n with
    | zero => rfl
    | succ n ih => rw [List.replicate_succ, List.cons_append, runText_space s (by decide), ih]
  rw [runText_space s (by decide), indent, hblanks]

/-! ## Values -/

/-- The machine has read `j` where it waited for a value. -/
def Wrote (level : Nat) (j : Json) : Prop :=
  ∀ (top top' : Open) (below : List Open) (tail : List Char), top.waits → top.put? j = some top' →
    j.depth + below.length ≤ deepestContainer → Behind tail →
    runText (.inside top below) (j.write level tail) = runText (.inside top' below) tail

theorem put?_cons {j : Json} {top top' : Open} (h : top.put? j = some top') (below : List Open) :
    State.put? j (top :: below) = some (.inside top' below) := by
  rw [State.put?, h]
  rfl

/-- A string where a value may stand. -/
theorem step?_string {s : String} {top top' : Open} (hw : top.waits) (h : top.put? (.string s) = some top')
    (below : List Open) : (State.inside top below).step? (.string s) = some (.inside top' below) := by
  cases top with
  | items done => exact put?_cons h below
  | field done name => exact put?_cons h below
  | _ => cases hw

theorem step?_enter {top new : Open} {below : List Open} {t : Token}
    (ht : t = .openBracket ∧ new = .items [] ∨ t = .openBrace ∧ new = .members ∅) (hw : top.waits)
    (hdepth : below.length < deepestContainer) :
    (State.inside top below).step? t = some (.inside new (top :: below)) := by
  rcases ht with ⟨rfl, rfl⟩ | ⟨rfl, rfl⟩ <;> exact if_pos ⟨hw, hdepth⟩

theorem runText_items {level : Nat} {items : List Json} (hitems : ∀ j ∈ items, j.Wrote level)
    {below : List Open} (hdepth : ∀ j ∈ items, j.depth + below.length ≤ deepestContainer)
    (hne : items ≠ []) (done : List Json) {tail : List Char} (htail : Behind tail) :
    runText (.inside (.items done) below) (writeItems level items tail) =
      runText (.inside (.afterItem (items.reverse ++ done)) below) tail := by
  induction items generalizing done with
  | nil => exact (hne rfl).elim
  | cons j js ih =>
    have hbehind : Behind (separator js.isEmpty (writeItems level js tail)) := by
      refine behind_separator fun hempty => ?_
      rw [List.isEmpty_iff.mp hempty]
      exact htail
    have hj := hitems j List.mem_cons_self (.items done) (.afterItem (j :: done)) below _ rfl rfl
      (hdepth j List.mem_cons_self) hbehind
    rw [writeItems, runText_indent, hj]
    cases js with
    | nil => rfl
    | cons k ks =>
      have hrest := ih (fun k hk => hitems k (List.mem_cons_of_mem j hk))
        (fun k hk => hdepth k (List.mem_cons_of_mem j hk)) (List.cons_ne_nil k ks) (j :: done)
      have hcomma : (State.inside (.afterItem (j :: done)) below).step? (markToken ',') =
          some (.inside (.items (j :: done)) below) := rfl
      rw [List.isEmpty_cons, separator, if_neg Bool.false_ne_true, runText_mark hcomma (by decide), hrest,
        List.reverse_cons (a := j), List.append_assoc, List.singleton_append]

theorem runText_members {level : Nat} {members : List (String × Json)}
    (hmembers : ∀ m ∈ members, m.2.Wrote level) {below : List Open}
    (hdepth : ∀ m ∈ members, m.2.depth + below.length ≤ deepestContainer) (hne : members ≠ [])
    (done : Dict Json) {tail : List Char} (htail : Behind tail) :
    runText (.inside (.members done) below) (writeMembers level members tail) =
      runText (.inside (.afterMember (done.setAll members)) below) tail := by
  induction members generalizing done with
  | nil => exact (hne rfl).elim
  | cons m rest ih =>
    obtain ⟨name, j⟩ := m
    have hbehind : Behind (separator rest.isEmpty (writeMembers level rest tail)) := by
      refine behind_separator fun hempty => ?_
      rw [List.isEmpty_iff.mp hempty]
      exact htail
    have hname : (State.inside (.members done) below).step? (.string name) =
        some (.inside (.colon done name) below) := rfl
    have hcolon : (State.inside (.colon done name) below).step? (markToken ':') =
        some (.inside (.field done name) below) := rfl
    have hj := hmembers (name, j) List.mem_cons_self (.field done name) (.afterMember (done.set name j))
      below _ rfl rfl (hdepth (name, j) List.mem_cons_self) hbehind
    rw [writeMembers, runText_indent, runText_quote hname, runText_mark hcolon (by decide),
      runText_space _ (by decide), hj]
    cases rest with
    | nil => rfl
    | cons m' rest' =>
      have hrest := ih (fun m hm => hmembers m (List.mem_cons_of_mem _ hm))
        (fun m hm => hdepth m (List.mem_cons_of_mem _ hm)) (List.cons_ne_nil m' rest') (done.set name j)
      have hcomma : (State.inside (.afterMember (done.set name j)) below).step? (markToken ',') =
          some (.inside (.members (done.set name j)) below) := rfl
      rw [List.isEmpty_cons, separator, if_neg Bool.false_ne_true, runText_mark hcomma (by decide), hrest]
      rfl

/-- An object is read back up to its closing brace, which leads wherever it does. -/
theorem runText_object (level : Nat) (below : List Open) (tail : List Char) {members : Dict Json}
    (hdistinct : members.Distinct) (hmembers : ∀ m ∈ members.entries, m.2.Wrote (level + 1))
    (hdepth : members.depth + below.length ≤ deepestContainer) {s : State}
    (hclose : ∀ top, top.closeBrace? = some members → (State.inside top below).step? .closeBrace = some s) :
    ∃ body, members.writeObject level tail = '\x7b' :: body ∧
      runText (.inside (.members ∅) below) body = runText s tail := by
  obtain ⟨members⟩ := members
  rw [Dict.writeObject]
  cases members with
  | nil => exact ⟨_, rfl, runText_mark (hclose (.members ∅) rfl) (by decide)⟩
  | cons m rest =>
    refine ⟨_, rfl, ?_⟩
    have hdepth' : ∀ m' ∈ m :: rest, m'.2.depth + below.length ≤ deepestContainer := by
      intro m' hm'
      have := Dict.depth_le_iff.mp (Nat.le_refl _) m' hm'
      omega
    have hall : (∅ : Dict Json).setAll (m :: rest) = ⟨m :: rest⟩ := Dict.ofList_of_nodup hdistinct
    rw [runText_members hmembers hdepth' (List.cons_ne_nil m rest) ∅ ⟨_, .inr rfl⟩, hall, runText_indent]
    exact runText_mark (hclose (.afterMember ⟨m :: rest⟩) rfl) (by decide)

/-- Sound JSON is read back where it was written. -/
theorem Sound.wrote {j : Json} (h : j.Sound) (level : Nat) : j.Wrote level := by
  induction j generalizing level with
  | null =>
    intro top top' below tail _ hput _ htail
    have hstep : (State.inside top below).step? .null = some (.inside top' below) := put?_cons hput below
    show runText _ ('n' :: (['u', 'l', 'l'] ++ tail)) = _
    exact runText_word (.inr (.inr rfl)) (by decide) (by decide) hstep htail.stops
  | bool b =>
    intro top top' below tail _ hput _ htail
    have hstep : (State.inside top below).step? (.bool b) = some (.inside top' below) := put?_cons hput below
    cases b with
    | true =>
      show runText _ ('t' :: (['r', 'u', 'e'] ++ tail)) = _
      exact runText_word (.inl rfl) (by decide) (by decide) hstep htail.stops
    | false =>
      show runText _ ('f' :: (['a', 'l', 's', 'e'] ++ tail)) = _
      exact runText_word (.inr (.inl rfl)) (by decide) (by decide) hstep htail.stops
  | number numeral =>
    intro top top' below tail _ hput _ htail
    have hstep : (State.inside top below).step? (.number numeral) = some (.inside top' below) :=
      put?_cons hput below
    exact runText_numeral h hstep htail.stops
  | string s =>
    intro top top' below tail hw hput _ _
    exact runText_quote (step?_string hw hput below) tail
  | array items ih =>
    intro top top' below tail hw hput hdepth htail
    rw [Json.depth] at hdepth
    have henter := step?_enter (.inl ⟨rfl, rfl⟩) hw (by omega : below.length < deepestContainer)
    have hclose (top₁ : Open) (h : top₁.closeBracket? = some (.array items)) :
        (State.inside top₁ (top :: below)).step? (markToken ']') = some (.inside top' below) := by
      show top₁.closeBracket?.bind (State.put? · (top :: below)) = _
      rw [h]
      exact put?_cons hput below
    cases items with
    | nil =>
      exact (runText_mark henter (by decide)).trans (runText_mark (hclose (.items []) rfl) (by decide))
    | cons j js =>
      have hsound := soundItems_iff.mp h
      have hitems : ∀ k ∈ j :: js, k.depth + (top :: below).length ≤ deepestContainer := by
        intro k hk
        have := depthItems_le_iff.mp (Nat.le_refl _) k hk
        rw [List.length_cons]
        omega
      have hbehind : Behind ('\n' :: indent level (']' :: tail)) := ⟨_, .inr rfl⟩
      have hread := runText_items (fun k hk => ih k hk (hsound k hk) (level + 1)) hitems
        (List.cons_ne_nil j js) [] hbehind
      refine (runText_mark henter (by decide)).trans (hread.trans ?_)
      rw [runText_indent, List.append_nil]
      refine runText_mark (hclose _ ?_) (by decide)
      rw [Open.closeBracket?, List.reverse_reverse]
  | object members ih =>
    intro top top' below tail hw hput hdepth htail
    rw [Json.depth] at hdepth
    have henter := step?_enter (.inr ⟨rfl, rfl⟩) hw (by omega : below.length < deepestContainer)
    obtain ⟨hdistinct, hsound⟩ := Dict.sound_iff.mp h
    have hclose (top₁ : Open) (h : top₁.closeBrace? = some members) :
        (State.inside top₁ (top :: below)).step? .closeBrace = some (.inside top' below) := by
      show top₁.closeBrace?.bind (fun members => State.put? (.object members) (top :: below)) = _
      rw [h]
      exact put?_cons hput below
    obtain ⟨body, hbody, hread⟩ := runText_object level (top :: below) tail hdistinct
      (fun m hm => ih m hm (hsound m hm) (level + 1)) (by rw [List.length_cons]; omega) hclose
    rw [Json.write, hbody]
    exact (runText_mark henter (by decide)).trans hread

/-- The text of an object that is sound and not too deep is read back as that object. -/
theorem parse_writeObject {members : Dict Json} (h : members.Sound)
    (hdepth : members.depth ≤ deepestContainer) :
    parse (String.ofList (members.writeObject 0 ['\n'])) = .ok members := by
  obtain ⟨hdistinct, hsound⟩ := Dict.sound_iff.mp h
  have hclose (top : Open) (h : top.closeBrace? = some members) :
      (State.inside top []).step? .closeBrace = some (.done members) := by
    show top.closeBrace?.bind (fun members => some (State.done members)) = _
    rw [h]
    rfl
  obtain ⟨body, hbody, hread⟩ := runText_object 0 [] ['\n'] hdistinct
    (fun m hm => (hsound m hm).wrote 1) (by rwa [List.length_nil, Nat.add_zero]) hclose
  have hstart : State.start.step? (markToken '\x7b') = some (.inside (.members ∅) []) := rfl
  have hrun : runText .start (members.writeObject 0 ['\n']) = .ok members := by
    rw [hbody, runText_mark hstart (by decide), hread, runText_space _ (by decide), runText_finish]
  rw [runText] at hrun
  rw [parse, String.toList_ofList, hrun]

end AssetPack.Json
