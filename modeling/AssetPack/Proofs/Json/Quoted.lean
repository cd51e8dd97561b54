import AssetPack.Json.Token
import Mathlib.Tactic.Ring

/-!
# Quoted texts

Between quotes a text is written without a quote, a lone backslash or a control character, so the closing quote is found
where it was put, and each escape is read as the character it stands for. What was found between quotes is always read:
plain characters stand for themselves, short escapes for one character, and numbered escapes in a row for what their
code units are in UTF-16, where a surrogate without its partner is lost and takes no other unit with it.
-/
namespace AssetPack

/-! ## What stands between quotes -/

namespace Json

/-- What may stand between quotes. -/
inductive IsQuoted : List Char → Prop
  | nil : IsQuoted []
  | plain {c : Char} {rest : List Char} : c ≠ '"' → c ≠ '\\' → ¬c < ' ' → IsQuoted rest →
      IsQuoted (c :: rest)
  | short {e : Char} {rest : List Char} : e ∈ ['"', '\\', '/', 'b', 'f', 'n', 'r', 't'] → IsQuoted rest →
      IsQuoted ('\\' :: e :: rest)
  | numbered {a b c d : Char} {rest : List Char} : isHex a → isHex b → isHex c → isHex d → IsQuoted rest →
      IsQuoted ('\\' :: 'u' :: a :: b :: c :: d :: rest)

theorem isSome_shortEscape?_iff {e : Char} :
    (shortEscape? e).isSome ↔ e ∈ ['"', '\\', '/', 'b', 'f', 'n', 'r', 't'] := by
  unfold shortEscape?
  split <;> simp_all

/-- A short escape is no numbered one. -/
theorem ne_of_shortEscape? {e c : Char} (h : shortEscape? e = some c) : e ≠ 'u' := by
  rintro rfl
  cases h

theorem quoted_of_splitQuoted? {text body rest : List Char} (h : splitQuoted? text = some (body, rest)) :
    IsQuoted body ∧ text = body ++ '"' :: rest := by
  fun_induction splitQuoted? text generalizing body with
  | case1 tail =>
    cases h
    exact ⟨.nil, rfl⟩
  | case2 a b c d tail hhex ih =>
    obtain ⟨⟨inner, _⟩, hinner, heq⟩ := Option.map_eq_some_iff.mp h
    cases heq
    obtain ⟨hbody, rfl⟩ := ih hinner
    simp only [Bool.and_eq_true] at hhex
    exact ⟨.numbered hhex.1.1.1 hhex.1.1.2 hhex.1.2 hhex.2 hbody, rfl⟩
  | case4 c tail hnot hescape ih =>
    obtain ⟨⟨inner, _⟩, hinner, heq⟩ := Option.map_eq_some_iff.mp h
    cases heq
    obtain ⟨hbody, rfl⟩ := ih hinner
    exact ⟨.short (isSome_shortEscape?_iff.mp hescape) hbody, rfl⟩
  | case7 c tail hquote hunit hshort hplain ih =>
    obtain ⟨⟨inner, _⟩, hinner, heq⟩ := Option.map_eq_some_iff.mp h
    cases heq
    obtain ⟨hbody, rfl⟩ := ih hinner
    simp only [Bool.or_eq_true, decide_eq_true_eq, not_or] at hplain
    exact ⟨.plain hquote hplain.1 hplain.2 hbody, rfl⟩
  | _ => cases h

/-- The closing quote is found behind the text. -/
theorem splitQuoted?_append {body : List Char} (h : IsQuoted body) (tail : List Char) :
    splitQuoted? (body ++ '"' :: tail) = some (body, tail) := by
  induction h with
  | nil => rfl
  | plain hquote hback hctrl _ ih => simp [splitQuoted?, ih, hback, hctrl]
  | @short e rest he _ ih =>
    obtain ⟨c, hc⟩ := Option.isSome_iff_exists.mp (isSome_shortEscape?_iff.mpr he)
    simp [splitQuoted?, ih, ne_of_shortEscape? hc, hc]
  | numbered ha hb hc hd _ ih => simp [splitQuoted?, ih, ha, hb, hc, hd]

/-! ## Pieces -/

/-- The pieces between quotes. -/
def pieces : List Char → List Piece
  | '\\' :: 'u' :: a :: b :: c :: d :: rest => .unit (codeUnit [a, b, c, d]) :: pieces rest
  | '\\' :: c :: rest => .char ((shortEscape? c).getD c) :: pieces rest
  | c :: rest => .char c :: pieces rest
  | [] => []

/-- The text that stands between quotes as these characters. -/
def unescape (body : List Char) : List Char := joinPieces (pieces body)

/-- Between quotes there are always pieces. -/
theorem pieces?_of_isQuoted {body : List Char} (h : IsQuoted body) : pieces? body = some (pieces body) := by
  induction h with
  | nil => rfl
  | plain _ hback _ _ ih => simp [pieces?, pieces, hback, ih]
  | @short e rest he _ ih =>
    obtain ⟨c, hc⟩ := Option.isSome_iff_exists.mp (isSome_shortEscape?_iff.mpr he)
    simp [pieces?, pieces, ne_of_shortEscape? hc, hc, ih]
  | numbered ha hb hc hd _ ih => simp [pieces?, pieces, ha, hb, hc, hd, ih]

theorem unescape?_of_isQuoted {body : List Char} (h : IsQuoted body) : unescape? body = some (unescape body) := by
  rw [unescape?, pieces?_of_isQuoted h]
  rfl

/-- A code unit is joined to nothing, if it is not the first of two surrogates that make one. -/
theorem joinPieces_unit {n : Nat} {ps : List Piece}
    (h : ∀ low rest, ps = .unit low :: rest → (isHighSurrogate n && isLowSurrogate low) = false) :
    joinPieces (.unit n :: ps) = unitChar n :: joinPieces ps := by
  cases ps with
  | nil => simp [joinPieces]
  | cons p ps =>
    cases p with
    | char c => simp [joinPieces]
    | unit low => rw [joinPieces, h low ps rfl, if_neg Bool.false_ne_true]

theorem not_surrogate_toNat (c : Char) : isHighSurrogate c.toNat = false ∧ isLowSurrogate c.toNat = false := by
  have hvalid : c.toNat < 0xD800 ∨ 0xDFFF < c.toNat ∧ c.toNat < 0x110000 := c.valid
  simp only [isHighSurrogate, isLowSurrogate, Bool.and_eq_false_iff, decide_eq_false_iff_not]
  omega

theorem unitChar_toNat (c : Char) : unitChar c.toNat = c := by
  obtain ⟨hhigh, hlow⟩ := not_surrogate_toNat c
  rw [unitChar, hhigh, hlow, Bool.or_self, if_neg Bool.false_ne_true, Char.ofNat_toNat]

theorem joinPieces_toNat (c : Char) (ps : List Piece) : joinPieces (.unit c.toNat :: ps) = c :: joinPieces ps := by
  rw [joinPieces_unit fun _ _ _ => by rw [(not_surrogate_toNat c).1, Bool.false_and], unitChar_toNat]

/-! ## What is written is read back -/

/-- Control characters are written by a numbered escape of four digits. -/
theorem hexChars_control {n : Nat} (h : n < 32) : ∃ a b c d, Text.hexChars 4 n = [a, b, c, d] ∧
    isHex a ∧ isHex b ∧ isHex c ∧ isHex d ∧ codeUnit [a, b, c, d] = n := by
  have hall : ∀ n : Fin 32, (Text.hexChars 4 n).length = 4 ∧ (Text.hexChars 4 n).all isHex = true ∧
      codeUnit (Text.hexChars 4 n) = n := by decide
  obtain ⟨hlength, hhex, hunit⟩ := hall ⟨n, h⟩
  simp only at hlength hhex hunit
  generalize Text.hexChars 4 n = digits at hlength hhex hunit ⊢
  obtain ⟨a, b, c, d, rfl⟩ : ∃ a b c d, digits = [a, b, c, d] := by
    obtain _ | ⟨a, _ | ⟨b, _ | ⟨c, _ | ⟨d, _ | ⟨e, rest⟩⟩⟩⟩⟩ := digits
    all_goals simp at hlength ⊢
  simp only [List.all_cons, List.all_nil, Bool.and_true, Bool.and_eq_true] at hhex
  exact ⟨a, b, c, d, rfl, hhex.1, hhex.2.1, hhex.2.2.1, hhex.2.2.2, hunit⟩

/-- How a character is written: by a short escape, a numbered one, or as it is. -/
theorem escapeChar_cases (c : Char) :
    (∃ e, escapeChar c = ['\\', e] ∧ e ≠ 'u' ∧ shortEscape? e = some c) ∨
    (∃ a b d e, escapeChar c = ['\\', 'u', a, b, d, e] ∧ isHex a ∧ isHex b ∧ isHex d ∧ isHex e ∧
      codeUnit [a, b, d, e] = c.toNat ∧ c.toNat < 32) ∨
    (escapeChar c = [c] ∧ c ≠ '"' ∧ c ≠ '\\' ∧ ¬c < ' ') := by
  by_cases h₁ : c = '"'
  · exact .inl ⟨'"', by rw [h₁]; decide, by decide, by rw [h₁]; rfl⟩
  by_cases h₂ : c = '\\'
  · exact .inl ⟨'\\', by rw [h₂]; decide, by decide, by rw [h₂]; rfl⟩
  by_cases h₃ : c = '\x08'
  · exact .inl ⟨'b', by rw [h₃]; decide, by decide, by rw [h₃]; rfl⟩
  by_cases h₄ : c = '\x0c'
  · exact .inl ⟨'f', by rw [h₄]; decide, by decide, by rw [h₄]; rfl⟩
  by_cases h₅ : c = '\n'
  · exact .inl ⟨'n', by rw [h₅]; decide, by decide, by rw [h₅]; rfl⟩
  by_cases h₆ : c = '\r'
  · exact .inl ⟨'r', by rw [h₆]; decide, by decide, by rw [h₆]; rfl⟩
  by_cases h₇ : c = '\t'
  · exact .inl ⟨'t', by rw [h₇]; decide, by decide, by rw [h₇]; rfl⟩
  by_cases h₈ : c < ' '
  · have hlt : c.toNat < 32 := h₈
    obtain ⟨a, b, d, e, hhex, ha, hb, hd, he, hunit⟩ := hexChars_control hlt
    refine .inr (.inl ⟨a, b, d, e, ?_, ha, hb, hd, he, hunit, hlt⟩)
    simp only [escapeChar, h₁, h₂, h₃, h₄, h₅, h₆, h₇, h₈, if_true, if_false, hhex]
  · refine .inr (.inr ⟨?_, h₁, h₂, h₈⟩)
    simp only [escapeChar, h₁, h₂, h₃, h₄, h₅, h₆, h₇, h₈, if_false]

theorem isQuoted_escape (text : List Char) : IsQuoted (escape text) := by
  induction text with
  | nil => exact .nil
  | cons c text ih =>
    rw [escape, List.flatMap_cons, ← escape]
    rcases escapeChar_cases c with ⟨e, hesc, _, he⟩ | ⟨a, b, d, e, hesc, ha, hb, hd, he, _⟩ |
      ⟨hesc, hquote, hback, hctrl⟩
    · rw [hesc]
      exact .short (isSome_shortEscape?_iff.mp (by rw [he]; rfl)) ih
    · rw [hesc]
      exact .numbered ha hb hd he ih
    · rw [hesc]
      exact .plain hquote hback hctrl ih

/-- Every text is read back from between its quotes. -/
theorem unescape_escape (text : List Char) : unescape (escape text) = text := by
  unfold unescape
  induction text with
  | nil => rfl
  | cons c text ih =>
    rw [escape, List.flatMap_cons, ← escape]
    rcases escapeChar_cases c with ⟨e, hesc, hne, he⟩ | ⟨a, b, d, e, hesc, _, _, _, _, hunit, hlt⟩ |
      ⟨hesc, _, hback, _⟩
    · rw [hesc]
      simp [pieces, hne, he, joinPieces, ih]
    · rw [hesc]
      simp only [List.cons_append, List.nil_append, pieces, hunit]
      rw [joinPieces_toNat, ih]
    · rw [hesc]
      simp [pieces, hback, joinPieces, ih]

end Json

/-! ## Code units of UTF-16 -/

namespace Utf16
open Json (isHighSurrogate isLowSurrogate pairChar)

/-- The code units of a character. -/
def encode (c : Char) : List Nat :=
  if c.toNat < 0x10000 then [c.toNat]
  else [0xD800 + (c.toNat - 0x10000) / 0x400, 0xDC00 + (c.toNat - 0x10000) % 0x400]

/-- A text that code units are decoded to. Where they begin with no character, the first unit alone gives the
replacement character. -/
inductive Decodes : List Nat → List Char → Prop
  | nil : Decodes [] []
  | char (c : Char) {units : List Nat} {text : List Char} : Decodes units text → Decodes (encode c ++ units) (c :: text)
  | lost {unit : Nat} {units : List Nat} {text : List Char} : (∀ c, ¬encode c <+: unit :: units) →
      Decodes units text → Decodes (unit :: units) ('\uFFFD' :: text)

theorem encode_ne_nil (c : Char) : encode c ≠ [] := by
  rw [encode]
  split <;> exact List.cons_ne_nil _ _

/-- A code unit that is no surrogate is that of a character. -/
theorem encode_ofNat {n : Nat} (hlt : n < 0x10000) (hhigh : isHighSurrogate n = false)
    (hlow : isLowSurrogate n = false) : encode (Char.ofNat n) = [n] := by
  have hvalid : n.isValidChar := by
    simp only [isHighSurrogate, isLowSurrogate, Bool.and_eq_false_iff, decide_eq_false_iff_not] at hhigh hlow
    simp only [Nat.isValidChar]
    omega
  have hn : (Char.ofNat n).toNat = n := by
    rw [Char.ofNat, dif_pos hvalid]
    rfl
  rw [encode, hn, if_pos hlt]

theorem toNat_pairChar {high low : Nat} (hhigh : isHighSurrogate high) (hlow : isLowSurrogate low) :
    (pairChar high low).toNat = 0x10000 + (high - 0xD800) * 0x400 + (low - 0xDC00) := by
  simp only [isHighSurrogate, isLowSurrogate, Bool.and_eq_true, decide_eq_true_eq] at hhigh hlow
  have hvalid : (0x10000 + (high - 0xD800) * 0x400 + (low - 0xDC00)).isValidChar := by
    simp only [Nat.isValidChar]
    omega
  rw [pairChar, Char.ofNat, dif_pos hvalid]
  rfl

/-- A high surrogate with a low one behind it is a character. -/
theorem encode_pairChar {high low : Nat} (hhigh : isHighSurrogate high) (hlow : isLowSurrogate low) :
    encode (pairChar high low) = [high, low] := by
  have hn := toNat_pairChar hhigh hlow
  simp only [isHighSurrogate, isLowSurrogate, Bool.and_eq_true, decide_eq_true_eq] at hhigh hlow
  rw [encode, if_neg (by omega), hn]
  simp only [List.cons.injEq, and_true]
  omega

/-- A character is one code unit that is no surrogate, or a high surrogate and a low one. -/
theorem encode_cases (c : Char) : encode c = [c.toNat] ∨
    ∃ high low, encode c = [high, low] ∧ isHighSurrogate high ∧ isLowSurrogate low ∧ pairChar high low = c := by
  rw [encode]
  split
  · exact .inl rfl
  · have hvalid : c.toNat < 0xD800 ∨ 0xDFFF < c.toNat ∧ c.toNat < 0x110000 := c.valid
    have hhigh : isHighSurrogate (0xD800 + (c.toNat - 0x10000) / 0x400) := by
      simp only [isHighSurrogate, Bool.and_eq_true, decide_eq_true_eq]
      omega
    have hlow : isLowSurrogate (0xDC00 + (c.toNat - 0x10000) % 0x400) := by
      simp only [isLowSurrogate, Bool.and_eq_true, decide_eq_true_eq]
      omega
    refine .inr ⟨_, _, rfl, hhigh, hlow, Char.ext_iff.mpr (UInt32.toNat_inj.mp ?_)⟩
    refine (toNat_pairChar hhigh hlow).trans (Eq.trans ?_ Char.toNat_val.symm)
    omega

/-- Code units are always decoded to something. -/
theorem exists_decodes (units : List Nat) : ∃ text, Decodes units text := by
  induction hlength : units.length using Nat.strongRecOn generalizing units with
  | ind n ih =>
    subst hlength
    cases units with
    | nil => exact ⟨[], .nil⟩
    | cons unit units =>
      by_cases hchar : ∃ c, encode c <+: unit :: units
      · obtain ⟨c, rest, hrest⟩ := hchar
        have hlength : (encode c).length + rest.length = (unit :: units).length := by rw [← hrest, List.length_append]
        have hpos : 0 < (encode c).length := List.length_pos_iff.mpr (encode_ne_nil c)
        obtain ⟨text, htext⟩ := ih rest.length (by omega) rest rfl
        exact ⟨c :: text, hrest ▸ .char c htext⟩
      · obtain ⟨text, htext⟩ := ih units.length (Nat.lt_succ_self _) units rfl
        exact ⟨_, .lost (not_exists.mp hchar) htext⟩

end Utf16

/-! ## What is read between quotes -/

namespace Json
open Utf16

theorem joinPieces_pair {high low : Nat} (hhigh : isHighSurrogate high) (hlow : isLowSurrogate low) (ps : List Piece) :
    joinPieces (.unit high :: .unit low :: ps) = pairChar high low :: joinPieces ps := by
  rw [joinPieces, hhigh, hlow, Bool.and_self, if_pos rfl]

/-- Code units in a row are joined to what they are decoded to. -/
theorem joinPieces_run {units : List Nat} {front : List Char} (h : Decodes units front)
    (hunits : ∀ n ∈ units, n < 0x10000) {ps : List Piece} (hps : ∀ n rest, ps ≠ .unit n :: rest) :
    joinPieces (units.map .unit ++ ps) = front ++ joinPieces ps := by
  induction h with
  | nil => rfl
  | @char c units text _ ih =>
    have ih := ih fun n hn => hunits n (List.mem_append_right _ hn)
    rcases encode_cases c with hone | ⟨high, low, htwo, hhigh, hlow, hpair⟩
    · rw [hone, List.singleton_append, List.map_cons, List.cons_append, joinPieces_toNat, ih, List.cons_append]
    · rw [htwo, List.cons_append, List.singleton_append, List.map_cons, List.map_cons, List.cons_append,
        List.cons_append, joinPieces_pair hhigh hlow, hpair, ih, List.cons_append]
  | @lost unit units text hnone _ ih =>
    obtain ⟨hunit, hunits⟩ := List.forall_mem_cons.mp hunits
    have hchar : unitChar unit = '\uFFFD' := by
      rw [unitChar, if_pos]
      · rfl
      · by_contra hplain
        rw [Bool.not_eq_true, Bool.or_eq_false_iff] at hplain
        have hencode : encode (Char.ofNat unit) = [unit] := encode_ofNat hunit hplain.1 hplain.2
        exact hnone _ ⟨units, by rw [hencode, List.singleton_append]⟩
    rw [List.map_cons, List.cons_append, joinPieces_unit, hchar, ih hunits]
    · rfl
    · intro low rest hnext
      by_contra hpair
      rw [Bool.not_eq_false, Bool.and_eq_true] at hpair
      cases units with
      | nil => exact hps low rest hnext
      | cons next units =>
        cases hnext
        exact hnone _ ⟨units, by rw [encode_pairChar hpair.1 hpair.2]; rfl⟩

/-- The letters that stand behind a backslash for one character, each with that character. -/
def shortEscapes : List (Char × Char) :=
  [('"', '"'), ('\\', '\\'), ('/', '/'), ('b', '\x08'), ('f', '\x0c'), ('n', '\n'), ('r', '\r'), ('t', '\t')]

theorem shortEscape?_eq_some_iff {e c : Char} : shortEscape? e = some c ↔ (e, c) ∈ shortEscapes := by
  unfold shortEscape?
  split <;> simp_all [shortEscapes, eq_comm]

/-- Numbered escapes in a row, and their code units. -/
inductive Escapes : List Char → List Nat → Prop
  | nil : Escapes [] []
  | cons {a b c d : Char} {p q r s : Nat} {text : List Char} {units : List Nat} : Text.hexValue? a = some p →
      Text.hexValue? b = some q → Text.hexValue? c = some r → Text.hexValue? d = some s → Escapes text units →
      Escapes ('\\' :: 'u' :: a :: b :: c :: d :: text) ((0x1000 * p + 0x100 * q + 0x10 * r + s) :: units)

/-- The text that stands between quotes as these characters. Numbered escapes are taken together as far as they stand in
a row. -/
inductive Stands : List Char → List Char → Prop
  | nil : Stands [] []
  | plain {c : Char} {body text : List Char} : c ≠ '\\' → Stands body text → Stands (c :: body) (c :: text)
  | short {e c : Char} {body text : List Char} : (e, c) ∈ shortEscapes → Stands body text →
      Stands ('\\' :: e :: body) (c :: text)
  | run {escapes body front text : List Char} {units : List Nat} : escapes ≠ [] → Escapes escapes units →
      ¬['\\', 'u'] <+: body → Decodes units front → Stands body text → Stands (escapes ++ body) (front ++ text)

/-! ### What stands between quotes is read -/

theorem hexValue?_lt {c : Char} {p : Nat} (h : Text.hexValue? c = some p) : p < 16 := by
  unfold Text.hexValue? at h
  split at h
  · rename_i hdigit
    have hle : c.toNat ≤ 57 := (Char.isDigit_iff_toNat.mp hdigit).2
    cases h
    simp only [show '0'.toNat = 48 from rfl]
    omega
  · split at h
    · rename_i hsmall
      have hle : c.toNat ≤ 102 := hsmall.2
      cases h
      simp only [show 'a'.toNat = 97 from rfl]
      omega
    · split at h
      · rename_i hlarge
        have hle : c.toNat ≤ 70 := hlarge.2
        cases h
        simp only [show 'A'.toNat = 65 from rfl]
        omega
      · cases h

/-- The code units that escapes in a row stand for are their pieces. -/
theorem Escapes.pieces?_append {text : List Char} {units : List Nat} (h : Escapes text units) (body : List Char) :
    pieces? (text ++ body) = (pieces? body).map (units.map .unit ++ ·) := by
  induction h with
  | nil => simp
  | @cons a b c d p q r s text units ha hb hc hd _ ih =>
    have hunit : codeUnit [a, b, c, d] = 0x1000 * p + 0x100 * q + 0x10 * r + s := by
      simp only [codeUnit, List.foldl_cons, List.foldl_nil, ha, hb, hc, hd, Option.getD_some]
      ring
    simp [pieces?, isHex, ha, hb, hc, hd, ih, hunit, Option.map_map, Function.comp_def]

theorem Escapes.lt {text : List Char} {units : List Nat} (h : Escapes text units) : ∀ n ∈ units, n < 0x10000 := by
  induction h with
  | nil => simp
  | cons ha hb hc hd _ ih =>
    have hp := hexValue?_lt ha
    have hq := hexValue?_lt hb
    have hr := hexValue?_lt hc
    have hs := hexValue?_lt hd
    exact List.forall_mem_cons.mpr ⟨by omega, ih⟩

theorem Escapes.starts {text : List Char} {units : List Nat} (h : Escapes text units) (hne : text ≠ []) :
    ['\\', 'u'] <+: text := by
  cases h with
  | nil => exact absurd rfl hne
  | cons => exact ⟨_, rfl⟩

theorem Escapes.concat {text more : List Char} {units units' : List Nat} (h : Escapes text units)
    (hmore : Escapes more units') : Escapes (text ++ more) (units ++ units') := by
  induction h with
  | nil => exact hmore
  | cons ha hb hc hd _ ih => exact .cons ha hb hc hd ih

/-- The text that stands between quotes is what is read there. -/
theorem Stands.exists_pieces {body out : List Char} (h : Stands body out) : ∃ ps, pieces? body = some ps ∧
    joinPieces ps = out ∧ (¬['\\', 'u'] <+: body → ∀ n rest, ps ≠ .unit n :: rest) := by
  induction h with
  | nil => exact ⟨[], rfl, rfl, fun _ _ _ h => nomatch h⟩
  | @plain c body text hback _ ih =>
    obtain ⟨ps, hps, rfl, _⟩ := ih
    exact ⟨.char c :: ps, by simp [pieces?, hback, hps], rfl, fun _ _ _ h => nomatch h⟩
  | @short e c body text hmem _ ih =>
    obtain ⟨ps, hps, rfl, _⟩ := ih
    have hc : shortEscape? e = some c := shortEscape?_eq_some_iff.mpr hmem
    exact ⟨.char c :: ps, by simp [pieces?, ne_of_shortEscape? hc, hc, hps], rfl, fun _ _ _ h => nomatch h⟩
  | @run escapes body front text units hne hescapes hbehind hdecodes _ ih =>
    obtain ⟨ps, hps, rfl, hfirst⟩ := ih
    refine ⟨units.map .unit ++ ps, by rw [hescapes.pieces?_append, hps]; rfl,
      joinPieces_run hdecodes hescapes.lt (hfirst hbehind), fun hnot => ?_⟩
    exact absurd ((hescapes.starts hne).trans (List.prefix_append _ _)) hnot

theorem Stands.unescape?_eq {body out : List Char} (h : Stands body out) : unescape? body = some out := by
  obtain ⟨ps, hps, rfl, _⟩ := h.exists_pieces
  rw [unescape?, hps]
  rfl

/-- Escapes are a run in front of what does not go on with one. -/
theorem Stands.exists_append {body out escapes : List Char} {units : List Nat} (h : Stands body out)
    (hbehind : ¬['\\', 'u'] <+: body) (hescapes : Escapes escapes units) : ∃ out, Stands (escapes ++ body) out := by
  by_cases hne : escapes = []
  · exact ⟨out, by rwa [hne, List.nil_append]⟩
  · obtain ⟨front, hfront⟩ := exists_decodes units
    exact ⟨_, .run hne hescapes hbehind hfront h⟩

/-- What may stand between quotes stands for a text. The escapes right in front of it are kept open, since what is
behind them tells where their run ends. -/
theorem IsQuoted.exists_stands {body escapes : List Char} {units : List Nat} (h : IsQuoted body)
    (hescapes : Escapes escapes units) : ∃ out, Stands (escapes ++ body) out := by
  induction h generalizing escapes units with
  | nil => exact Stands.nil.exists_append (by simp) hescapes
  | plain _ hback _ _ ih =>
    obtain ⟨out, hout⟩ := ih .nil
    exact (Stands.plain hback hout).exists_append (by simp [hback.symm]) hescapes
  | @short e rest he _ ih =>
    obtain ⟨out, hout⟩ := ih .nil
    obtain ⟨c, hc⟩ := Option.isSome_iff_exists.mp (isSome_shortEscape?_iff.mpr he)
    have hbehind : ¬['\\', 'u'] <+: '\\' :: e :: rest := by simp [(ne_of_shortEscape? hc).symm]
    exact (Stands.short (shortEscape?_eq_some_iff.mp hc) hout).exists_append hbehind hescapes
  | numbered ha hb hc hd _ ih =>
    obtain ⟨p, hp⟩ := Option.isSome_iff_exists.mp ha
    obtain ⟨q, hq⟩ := Option.isSome_iff_exists.mp hb
    obtain ⟨r, hr⟩ := Option.isSome_iff_exists.mp hc
    obtain ⟨s, hs⟩ := Option.isSome_iff_exists.mp hd
    obtain ⟨out, hout⟩ := ih (hescapes.concat (.cons hp hq hr hs .nil))
    exact ⟨out, by simpa using hout⟩

/-- Whatever is found between quotes is read, as the one text that stands there. -/
theorem decoded_of_splitQuoted? {text body rest : List Char} (h : splitQuoted? text = some (body, rest)) :
    ∃ out, unescape? body = some out ∧ (∀ out', Stands body out' ↔ out' = out) ∧
      nextToken ('"' :: text) = (.string (String.ofList out), rest) := by
  obtain ⟨out, hout⟩ := (quoted_of_splitQuoted? h).1.exists_stands .nil
  have hread : unescape? body = some out := hout.unescape?_eq
  refine ⟨out, hread, fun out' => ⟨fun h' => ?_, fun h' => h' ▸ hout⟩, ?_⟩
  · exact Option.some.inj (h'.unescape?_eq.symm.trans hread)
  · simp only [nextToken, if_true, h, hread]

/-- Of two high surrogates only the second is paired with the low one behind them; a low one alone and a high one in
front of a plain character are lost. -/
theorem decoded_of_splitQuoted?_lost :
    splitQuoted? "\\uD83D\\ud83d\\uDE00\\n\\uDC00\\ud800x\", 1]".toList =
      some ("\\uD83D\\ud83d\\uDE00\\n\\uDC00\\ud800x".toList, ", 1]".toList) ∧
    Stands "\\uD83D\\ud83d\\uDE00\\n\\uDC00\\ud800x".toList ['\uFFFD', '😀', '\n', '\uFFFD', '\uFFFD', 'x'] ∧
    nextToken "\"\\uD83D\\ud83d\\uDE00\\n\\uDC00\\ud800x\", 1]".toList =
      (.string (String.ofList ['\uFFFD', '😀', '\n', '\uFFFD', '\uFFFD', 'x']), ", 1]".toList) := by
  have hsplit : splitQuoted? "\\uD83D\\ud83d\\uDE00\\n\\uDC00\\ud800x\", 1]".toList =
      some ("\\uD83D\\ud83d\\uDE00\\n\\uDC00\\ud800x".toList, ", 1]".toList) := by decide +kernel
  obtain ⟨out, hread, hstands, htoken⟩ := decoded_of_splitQuoted? hsplit
  have hout : out = ['\uFFFD', '😀', '\n', '\uFFFD', '\uFFFD', 'x'] :=
    Option.some.inj (hread.symm.trans (by decide +kernel))
  exact ⟨hsplit, hout ▸ (hstands out).mpr rfl, hout ▸ htoken⟩

end Json
end AssetPack
