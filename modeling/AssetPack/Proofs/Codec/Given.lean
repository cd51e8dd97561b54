import AssetPack.Proofs.Codec.Reading
import AssetPack.Proofs.Dict
import AssetPack.Proofs.Value.Vocabulary

/-!
# What was read stands in the bytes

A reader gives a property of its answer and of the bytes it took. Like the reading of what was
written, this composes along the steps of a reader. All forms that a value was read with are
parts of the bytes it was read from, and a block begins with its mark.
-/
namespace AssetPack
namespace Reader
variable {α β : Type}

/-- Whenever the reader answers, `P` holds of the answer and of the bytes it took. -/
def Gives (r : Reader α) (P : α → Bytes → Prop) : Prop :=
  ∀ ⦃c a c'⦄, EStateM.run r c = .ok a c' → ∃ used, c.rest = used ++ c'.rest ∧ P a used

variable {P : α → Bytes → Prop} {Q : β → Bytes → Prop}

theorem Gives.pure {a : α} (h : P a []) : Gives (Pure.pure a) P := by
  intro c b c' hrun
  cases hrun
  exact ⟨[], rfl, h⟩

theorem Gives.throw (f : Fault) : Gives (throw f : Reader α) P := by
  intro c a c' hrun
  cases hrun

theorem Gives.bind {r : Reader α} {g : α → Reader β} (hr : Gives r P)
    (hg : ∀ a, Gives (g a) fun b more => ∀ used, P a used → Q b (used ++ more)) :
    Gives (r >>= g) Q := by
  intro c b c' hrun
  rw [run_bind] at hrun
  cases hfirst : EStateM.run r c with
  | ok a c₁ =>
    rw [hfirst] at hrun
    obtain ⟨used, hused, ha⟩ := hr hfirst
    obtain ⟨more, hmore, hb⟩ := hg a hrun
    exact ⟨used ++ more, by rw [hused, hmore, List.append_assoc], hb used ha⟩
  | error f c₁ =>
    rw [hfirst] at hrun
    cases hrun

theorem Gives.mono {r : Reader α} {P' : α → Bytes → Prop} (h : Gives r P)
    (hmono : ∀ a used, P a used → P' a used) : Gives r P' := by
  intro c a c' hrun
  obtain ⟨used, hused, ha⟩ := h hrun
  exact ⟨used, hused, hmono a used ha⟩

theorem gives_offset : Gives offset fun _ used => used = [] := by
  intro c a c' hrun
  cases hrun
  exact ⟨[], rfl, rfl⟩

theorem gives_take (n : Nat) : Gives (take n) fun bs used => used = bs ∧ bs.length = n := by
  intro c bs c' hrun
  unfold take at hrun
  rw [run_bind] at hrun
  simp only [EStateM.run_get] at hrun
  split at hrun
  · cases hrun
  · rename_i hlen
    split at hrun
    · cases hrun
    · cases hrun
      have hle := List.length_take_le n c.rest
      exact ⟨_, (List.take_append_drop n c.rest).symm, rfl, by omega⟩

theorem gives_nat (width : Nat) : Gives (nat width) fun n used => used = Bytes.ofNat width n := by
  refine (gives_take width).bind fun bs => .pure ?_
  rintro _ ⟨rfl, hlen⟩
  rw [List.append_nil, ← hlen, Bytes.ofNat_toNat]

theorem gives_int32 : Gives int32 fun _ _ => True :=
  (gives_nat 4).bind fun _ => .pure fun _ _ => trivial

theorem gives_double : Gives double fun _ _ => True :=
  (gives_nat 8).bind fun _ => .pure fun _ _ => trivial

theorem gives_bytes : Gives bytes fun bs used => ∃ head, used = head ++ bs :=
  (gives_nat 4).bind fun n => (gives_take n).mono fun _ _ h used _ => ⟨used, by rw [h.1]⟩

theorem gives_text : Gives text fun _ _ => True := by
  refine gives_offset.bind fun start => gives_bytes.bind fun bs => ?_
  split
  · exact .pure fun _ _ _ _ => trivial
  · exact .throw _

/-- What holds of each answer, whatever stands around its bytes, holds of all of them. -/
theorem gives_many {item : Reader α} {P : α → Bytes → Prop} (hitem : Gives item P)
    (hmono : ∀ a front used back, P a used → P a (front ++ used ++ back)) (n : Nat) :
    Gives (many item n) fun as used => ∀ a ∈ as, P a used := by
  induction n with
  | zero => exact .pure (by simp)
  | succ n ih =>
    refine hitem.bind fun a => ih.bind fun as => .pure ?_
    intro more has used ha b hb
    rw [List.append_nil]
    rcases List.mem_cons.mp hb with rfl | hb
    · exact hmono _ [] used more ha
    · have hall := hmono b used more [] (has b hb)
      rwa [List.append_nil] at hall

end Reader

/-- The value is no open dictionary, and if it is a form its bytes stand in `bs`. -/
def Value.FormIn (bs : Bytes) : Value → Prop
  | .dict _ => False
  | .block b => b.bytes <:+: bs
  | .saved p => p.stored <:+: bs
  | _ => True

namespace Value

/-- No dictionary in the value is open, and the bytes of each form in it stand in `bs`. -/
def FormsIn (bs : Bytes) (v : Value) : Prop := v.Each (FormIn bs)

theorem FormsIn.wider {bs cs : Bytes} {v : Value} (h : v.FormsIn bs) (hbs : bs <:+: cs) :
    v.FormsIn cs := by
  refine Each.mono h fun u hu => ?_
  cases u with
  | dict d => exact hu
  | block b => exact List.IsInfix.trans hu hbs
  | saved p => exact List.IsInfix.trans hu hbs
  | _ => trivial

theorem FormsIn.behind {bs : Bytes} {v : Value} (h : v.FormsIn bs) (front : Bytes) :
    v.FormsIn (front ++ bs) := h.wider (List.suffix_append front bs).isInfix

end Value

namespace Reader
variable {α : Type} {P : α → Bytes → Prop}

/-- What is read before a value has no forms. -/
theorem Gives.value {r : Reader α} {g : α → Reader Value} (hr : Gives r P)
    (hg : ∀ a, Gives (g a) fun v used => v.FormsIn used) :
    Gives (r >>= g) fun v used => v.FormsIn used :=
  hr.bind fun a => (hg a).mono fun _ _ hv used _ => hv.behind used

theorem gives_atom (a : Atom) : Gives (Pure.pure (Value.atom a)) fun v used => v.FormsIn used :=
  .pure ((Value.each_atom a).mpr trivial)

theorem gives_liftExcept (e : Except Fault α) : Gives (content.liftExcept e) fun _ _ => True := by
  cases e with
  | ok a => exact .pure trivial
  | error f => exact .throw f

/-- The forms in a content stand in its bytes if those of the items do. -/
theorem gives_content {items : Reader Value} (h : Gives items fun v used => v.FormsIn used)
    (k : Kind) : Gives (content items k) fun v used => v.FormsIn used := by
  cases k with
  | null => exact gives_atom _
  | bool => exact (gives_nat 1).value fun _ => gives_atom _
  | int => exact gives_int32.value fun _ => gives_atom _
  | double => exact gives_double.value fun _ => gives_atom _
  | string => exact gives_text.value fun _ => gives_atom _
  | bytes => exact (gives_nat 8).value fun n => (gives_take n).value fun _ => gives_atom _
  | struct => exact gives_bytes.value fun _ => gives_atom _
  | ref => exact gives_text.value fun _ => gives_atom _
  | list =>
    refine (gives_nat 4).value fun n => ?_
    have hmany := gives_many h (fun v front used back hv => hv.wider ⟨front, back, rfl⟩) n
    refine hmany.bind fun vs => .pure ?_
    intro used hvs
    rw [List.append_nil]
    exact (Value.each_list vs).mpr ⟨trivial, hvs⟩
  | dict =>
    refine (gives_nat 8).value fun n => gives_offset.value fun start =>
      (gives_take n).bind fun bs => .pure ?_
    rintro _ ⟨rfl, _⟩
    rw [List.append_nil]
    exact (Value.each_block _).mpr List.infix_rfl
  | saved =>
    refine (gives_nat 1).value fun _ => (gives_liftExcept _).value fun content => ?_
    refine (gives_nat 1).value fun _ => (gives_liftExcept _).value fun compression => ?_
    refine (gives_nat 8).value fun length => (gives_nat 8).value fun n => ?_
    refine (gives_take n).bind fun bs => .pure ?_
    rintro _ ⟨rfl, _⟩
    rw [List.append_nil]
    exact (Value.each_saved _).mpr List.infix_rfl

theorem gives_value (levels : Nat) : Gives (value levels) fun v used => v.FormsIn used := by
  induction levels with
  | zero => exact gives_offset.value fun _ => .throw _
  | succ levels ih =>
    refine gives_offset.value fun start => (gives_nat 1).value fun tag => ?_
    split
    · exact gives_content ih _
    · exact .throw _

theorem gives_entry : Gives entry fun entry used => entry.2.FormsIn used :=
  gives_text.bind fun _ => (gives_value _).bind fun _ => .pure fun used hv front _ => by
    rw [List.append_nil]
    exact hv.behind front

theorem gives_atEnd : Gives atEnd fun _ used => used = [] := by
  intro c a c' hrun
  unfold atEnd at hrun
  rw [run_bind] at hrun
  simp only [EStateM.run_get] at hrun
  split at hrun
  · cases hrun
  · cases hrun
    exact ⟨[], rfl, rfl⟩

/-- A block is its mark and bytes in which all forms of its entries stand. No name stands twice in it. -/
theorem gives_block : Gives block fun d used => d.Distinct ∧
    ∃ more, used = Bytes.ofNat 4 blockMagic ++ more ∧ ∀ entry ∈ d.entries, entry.2.FormsIn more := by
  have hentries (n : Nat) : Gives (do
      let entries ← many entry n
      atEnd
      return Dict.ofList entries) fun d used => d.Distinct ∧ ∀ entry ∈ d.entries, entry.2.FormsIn used := by
    have hmany := gives_many gives_entry (fun _ front used back h => h.wider ⟨front, back, rfl⟩) n
    refine hmany.bind fun entries => gives_atEnd.bind fun _ => .pure ?_
    rintro _ rfl used hused
    refine ⟨Dict.distinct_ofList entries, fun entry hentry => ?_⟩
    rw [List.append_nil]
    exact (hused entry (Dict.mem_ofList hentry)).wider ⟨[], [], by simp⟩
  refine gives_offset.bind fun start => (gives_nat 4).bind fun found => ?_
  split
  · exact .throw _
  · rename_i hfound
    obtain rfl : found = blockMagic := Decidable.not_not.mp hfound
    refine (gives_nat 4).bind fun n => (hentries n).mono ?_
    rintro d used ⟨hdistinct, hd⟩ front _ _ rfl _ rfl
    exact ⟨hdistinct, front ++ used, rfl, fun entry h => (hd entry h).behind front⟩

end Reader

namespace Block
variable {b : Block} {d : Dict Value}

/-- A block that opens begins with its mark, and all forms in its entries stand behind it. -/
theorem forms_of_load (h : b.load = .ok d) : d.Distinct ∧
    ∃ more, b.bytes = Bytes.ofNat 4 blockMagic ++ more ∧ ∀ entry ∈ d.entries, entry.2.FormsIn more := by
  unfold load Reader.runFrom at h
  split at h
  · rename_i c hrun
    cases h
    obtain ⟨_, hbytes, hdistinct, more, rfl, hforms⟩ := Reader.gives_block hrun
    refine ⟨hdistinct, more ++ c.rest, by rw [← List.append_assoc]; exact hbytes, fun entry hentry => ?_⟩
    exact (hforms entry hentry).wider (List.prefix_append more c.rest).isInfix
  · cases h

end Block
end AssetPack
