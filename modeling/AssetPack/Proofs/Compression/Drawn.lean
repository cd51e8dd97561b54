import AssetPack.Compression
import AssetPack.Tree

/-!
# Frames make no changes of their own

What a row of frames holds is drawn from its bytes: bytes are left out and bytes are repeated, but
none is added and none is moved. So the places where a byte differs from the one before are no more
than in the frames. Nothing is asked of the checks that a frame is put through.
-/
namespace AssetPack

namespace Bytes

theorem changes_cons (a b : UInt8) (bs : Bytes) :
    changes (a :: b :: bs) = (if a = b then 0 else 1) + changes (b :: bs) := rfl

/-- A byte in front takes no change away, and leaving one out adds none. -/
theorem changes_skip (a b : UInt8) (bs : Bytes) : changes (a :: bs) ≤ changes (a :: b :: bs) := by
  cases bs with
  | nil => exact Nat.zero_le _
  | cons c cs =>
    simp only [changes_cons]
    by_cases hab : a = b
    · subst hab
      simp
    · by_cases hbc : b = c
      · subst hbc
        simp [hab]
      · simp only [hab, hbc, if_false]
        split <;> omega

theorem changes_le_cons (a : UInt8) (bs : Bytes) : changes bs ≤ changes (a :: bs) := by
  cases bs with
  | nil => exact Nat.zero_le _
  | cons b bs =>
    rw [changes_cons]
    omega

/-- `held` is drawn from `used`: each byte stands in it some number of times, in its place. -/
inductive Drawn : Bytes → Bytes → Prop
  | nil : Drawn [] []
  | times (n : Nat) (b : UInt8) {held used : Bytes} :
      Drawn held used → Drawn (List.replicate n b ++ held) (b :: used)

namespace Drawn
variable {held used held' used' : Bytes}

theorem refl (bs : Bytes) : Drawn bs bs := by
  induction bs with
  | nil => exact nil
  | cons b bs ih => exact times 1 b ih

theorem none (bs : Bytes) : Drawn [] bs := by
  induction bs with
  | nil => exact nil
  | cons b bs ih => exact times 0 b ih

theorem append (h : Drawn held used) (h' : Drawn held' used') :
    Drawn (held ++ held') (used ++ used') := by
  induction h with
  | nil => exact h'
  | times n b _ ih =>
    rw [List.append_assoc]
    exact times n b ih

/-- A byte of the input repeated. -/
theorem replicate {b : UInt8} {bs : Bytes} (h : bs.head? = some b) (n : Nat) :
    Drawn (List.replicate n b) bs := by
  cases bs with
  | nil => cases h
  | cons c bs =>
    cases h
    have hdrawn := times n b (none bs)
    rwa [List.append_nil] at hdrawn

/-- Behind one and the same byte no change is added. -/
theorem changes_cons_le (h : Drawn held used) (a : UInt8) :
    changes (a :: held) ≤ changes (a :: used) := by
  induction h generalizing a with
  | nil => exact Nat.le_refl _
  | @times n b held used _ ih =>
    cases n with
    | zero => exact Nat.le_trans (ih a) (changes_skip a b used)
    | succ n =>
      have hsame (n : Nat) : changes (b :: (List.replicate n b ++ held)) = changes (b :: held) := by
        induction n with
        | zero => rfl
        | succ n ih =>
          rw [List.replicate_succ, List.cons_append, changes_cons, ih]
          simp
      have hb := ih b
      rw [List.replicate_succ, List.cons_append, changes_cons, changes_cons, hsame]
      omega

/-- What is drawn has no more changes. -/
theorem changes_le (h : Drawn held used) : changes held ≤ changes used := by
  cases h with
  | nil => exact Nat.le_refl _
  | @times n b held used h =>
    have hhead := h.changes_cons_le b
    have hall := (times n b h).changes_cons_le b
    rw [changes_cons, if_pos rfl, Nat.zero_add] at hall
    exact Nat.le_trans (changes_le_cons b _) hall

end Drawn
end Bytes

namespace Frame
open Bytes (Drawn)

/-- From `s` to `t` the bytes are read that `held` is drawn from. -/
def Yields (s : Input) (held : Bytes) (t : Input) : Prop :=
  ∃ used, s.rest = used ++ t.rest ∧ Drawn held used

namespace Yields
variable {s t u : Input} {held held' : Bytes}

theorem append (h : Yields s held t) (h' : Yields t held' u) : Yields s (held ++ held') u := by
  obtain ⟨used, hs, hdrawn⟩ := h
  obtain ⟨used', ht, hdrawn'⟩ := h'
  refine ⟨used ++ used', ?_, hdrawn.append hdrawn'⟩
  rw [hs, ht, List.append_assoc]

/-- Nothing is held of what was read before. -/
theorem after (h : Yields s [] t) (h' : Yields t held u) : Yields s held u := h.append h'

/-- Nothing is held of what is read behind. -/
theorem before (h : Yields s held t) (h' : Yields t [] u) : Yields s held u := by
  have hall := h.append h'
  rwa [List.append_nil] at hall

/-- The bytes read may be held in another form, or not at all. -/
theorem refl (s : Input) : Yields s [] s := ⟨[], rfl, .nil⟩

end Yields

theorem take?_eq {s t : Input} {n : Nat} {bs : Bytes} (h : s.take? n = some (bs, t)) :
    s.rest = bs ++ t.rest := by
  unfold Input.take? at h
  simp only at h
  split at h
  · simp only [Option.some.injEq, Prod.mk.injEq] at h
    obtain ⟨rfl, rfl⟩ := h
    exact (List.take_append_drop n s.rest).symm
  · cases h

theorem take?_yields {s t : Input} {n : Nat} {bs : Bytes} (h : s.take? n = some (bs, t)) :
    Yields s bs t := ⟨bs, take?_eq h, .refl bs⟩

theorem skip?_yields {s t : Input} {n : Nat} (h : s.skip? n = some t) : Yields s [] t := by
  unfold Input.skip? at h
  obtain ⟨⟨bs, t⟩, htake, rfl⟩ := Option.map_eq_some_iff.mp h
  exact ⟨bs, take?_eq htake, .none bs⟩

theorem number?_yields {s t : Input} {width n : Nat} (h : s.number? width = some (n, t)) :
    Yields s [] t := by
  unfold Input.number? at h
  obtain ⟨⟨bs, u⟩, htake, heq⟩ := Option.map_eq_some_iff.mp h
  cases heq
  exact ⟨bs, take?_eq htake, .none bs⟩

/-! ## Frames of the present version -/

theorem header?_yields {s t : Input} {h : Header} (hread : header? s = some (h, t)) : Yields s [] t := by
  unfold header? at hread
  simp only [Option.bind_eq_bind, Option.bind_eq_some_iff, Prod.exists] at hread
  obtain ⟨descriptor, s₁, h₁, hread⟩ := hread
  by_cases hreserved : descriptor / 8 % 2 = 1
  · rw [if_pos hreserved] at hread
    cases hread
  · rw [if_neg hreserved] at hread
    simp only [Option.pure_def] at hread
    split at hread
    · simp only [Option.bind_some, Option.bind_eq_some_iff, Prod.exists] at hread
      obtain ⟨dictionary, s₃, h₃, number, s₄, h₄, heq⟩ := hread
      cases heq
      exact (number?_yields h₁).after ((number?_yields h₃).after (number?_yields h₄))
    · simp only [Option.bind_some, Option.bind_eq_some_iff, Prod.exists] at hread
      obtain ⟨byte, s₂, h₂, window, _, dictionary, s₃, h₃, number, s₄, h₄, heq⟩ := hread
      cases heq
      exact (number?_yields h₁).after ((number?_yields h₂).after
        ((number?_yields h₃).after (number?_yields h₄)))

theorem opening?_yields {s t : Input} {o : Opening} (hread : opening? s = some (o, t)) :
    Yields s [] t := by
  unfold opening? at hread
  simp only [Option.bind_eq_bind, Option.bind_eq_some_iff, Prod.exists] at hread
  obtain ⟨found, s₁, h₁, hread⟩ := hread
  split at hread
  · simp only [Option.bind_eq_some_iff, Prod.exists] at hread
    obtain ⟨size, _, hsize, heq⟩ := hread
    cases heq
    exact (number?_yields h₁).after (number?_yields hsize)
  · split at hread
    · simp only [Option.bind_eq_some_iff, Prod.exists] at hread
      obtain ⟨h, _, hheader, heq⟩ := hread
      cases heq
      exact (number?_yields h₁).after (header?_yields hheader)
    · cases hread

theorem blockHead?_yields {s t : Input} {b : BlockHead} (hread : blockHead? s = some (b, t)) :
    Yields s [] t := by
  unfold blockHead? at hread
  simp only [Option.bind_eq_bind, Option.bind_eq_some_iff, Prod.exists] at hread
  obtain ⟨number, s₁, h₁, hread⟩ := hread
  split at hread
  · cases hread
  · cases hread
    exact number?_yields h₁

theorem open?_drawn {bounds : Bounds} {head : BlockHead} {stored held : Bytes}
    (h : bounds.open? head stored = some held) : Drawn held stored := by
  unfold Bounds.open? BlockHead.open? at h
  split at h
  · cases h
    exact .none stored
  · split at h
    · cases h
      exact .refl stored
    · obtain ⟨b, hb, rfl⟩ := Option.map_eq_some_iff.mp h
      exact .replicate hb head.size
    · cases h
    · cases h

/-- A row of blocks holds what the blocks before hold, and what is drawn from the bytes read. -/
theorem rowFrom?_yields {bounds : Bounds} {fuel : Nat} {back : List Bytes} {total : Nat} {s t : Input}
    {row : Row} (h : rowFrom? bounds fuel back total s = some (row, t)) :
    ∃ held, row.held = back.reverse.flatten ++ held ∧ Yields s held t := by
  induction fuel generalizing back total s with
  | zero => cases h
  | succ fuel ih =>
    unfold rowFrom? at h
    simp only [Option.bind_eq_bind, Option.bind_eq_some_iff, Prod.exists] at h
    obtain ⟨head, s₁, h₁, h⟩ := h
    split at h
    · cases h
    · simp only [Option.bind_eq_some_iff, Prod.exists] at h
      obtain ⟨stored, s₂, h₂, held, hopen, h⟩ := h
      have hblock : Yields s held s₂ :=
        (blockHead?_yields h₁).after ⟨stored, take?_eq h₂, open?_drawn hopen⟩
      split at h
      · cases h
      · split at h
        · cases h
          exact ⟨held, by simp, hblock⟩
        · obtain ⟨more, hrow, hyields⟩ := ih h
          exact ⟨held ++ more, by simp [hrow], hblock.append hyields⟩

theorem body?_yields {h : Header} {bounds : Bounds} {fuel : Nat} {s t : Input} {held : Bytes}
    (hread : h.body? bounds fuel s = some (held, t)) : Yields s held t := by
  unfold Header.body? at hread
  split at hread
  · cases hread
  · simp only [row?, Option.bind_eq_bind, Option.bind_eq_some_iff, Prod.exists] at hread
    obtain ⟨row, s₁, h₁, hclose⟩ := hread
    obtain ⟨_, hrow, hyields⟩ := rowFrom?_yields h₁
    obtain rfl : row.held = _ := hrow
    unfold Header.close? at hclose
    split at hclose
    · cases hclose
    · split at hclose
      · simp only [Option.bind_eq_bind, Option.bind_eq_some_iff, Prod.exists] at hclose
        obtain ⟨check, s₂, h₂, hclose⟩ := hclose
        split at hclose
        · cases hclose
        · cases hclose
          exact hyields.before (number?_yields h₂)
      · cases hclose
        exact hyields

theorem inOneGo?_yields {fuel : Nat} {s t : Input} {held : Bytes}
    (h : inOneGo? fuel s = some (held, t)) : Yields s held t := by
  unfold inOneGo? at h
  simp only [Option.bind_eq_bind, Option.bind_eq_some_iff, Prod.exists] at h
  obtain ⟨opening, s₁, h₁, h⟩ := h
  cases opening with
  | skip size =>
    simp only [Option.bind_eq_some_iff] at h
    obtain ⟨s₂, h₂, heq⟩ := h
    cases heq
    exact (opening?_yields h₁).after (skip?_yields h₂)
  | data header => exact (opening?_yields h₁).after (body?_yields h)

theorem stepwise?_yields {fuel : Nat} {room room' : Room} {header : Header} {s t : Input} {held : Bytes}
    (h : stepwise? fuel room header s = some (held, t, room')) : Yields s held t := by
  unfold stepwise? at h
  split at h
  · cases h
  · simp only [Option.bind_eq_bind, Option.bind_eq_some_iff, Prod.exists] at h
    obtain ⟨held, s₁, h₁, heq⟩ := h
    cases heq
    exact body?_yields h₁

theorem nearest?_yields {start behind near : Input} (h : nearest? start behind = some near) :
    Yields start [] near := by
  unfold nearest? at h
  split at h
  · cases h
    exact .refl start
  · exact skip?_yields h

theorem present?_yields {fuel : Nat} {room room' : Room} {s t : Input} {held : Bytes}
    (h : present? fuel room s = some (held, t, room')) : Yields s held t := by
  unfold present? at h
  simp only [Option.bind_eq_bind, Option.bind_eq_some_iff, Prod.exists] at h
  obtain ⟨opening, s₁, h₁, h⟩ := h
  cases opening with
  | skip size =>
    simp only [Option.bind_eq_some_iff] at h
    obtain ⟨s₂, h₂, heq⟩ := h
    cases heq
    exact (opening?_yields h₁).after (skip?_yields h₂)
  | data header =>
    simp only [Option.bind_eq_some_iff] at h
    obtain ⟨near, hnear, h⟩ := h
    split at h
    · simp only [Option.bind_eq_some_iff, Prod.exists] at h
      obtain ⟨held, s₂, h₂, heq⟩ := h
      cases heq
      exact (nearest?_yields hnear).after (inOneGo?_yields h₂)
    · exact (opening?_yields h₁).after (stepwise?_yields h)

/-! ## Frames of earlier versions -/

theorem early_header?_yields {v : Early.Version} {s t : Input} {h : Early.Header}
    (hread : Early.header? v s = some (h, t)) : Yields s [] t := by
  cases v with
  | four | five =>
    simp only [Early.header?, Option.bind_eq_bind, Option.bind_eq_some_iff, Prod.exists] at hread
    obtain ⟨descriptor, s₁, h₁, hread⟩ := hread
    split at hread
    · cases hread
    · cases hread
      exact number?_yields h₁
  | six =>
    simp only [Early.header?, Option.bind_eq_bind, Option.bind_eq_some_iff, Prod.exists] at hread
    obtain ⟨descriptor, s₁, h₁, hread⟩ := hread
    split at hread
    · cases hread
    · simp only [Option.bind_eq_some_iff] at hread
      obtain ⟨s₂, h₂, heq⟩ := hread
      cases heq
      exact (number?_yields h₁).after (skip?_yields h₂)
  | seven =>
    simp only [Early.header?, Option.bind_eq_bind, Option.bind_eq_some_iff, Prod.exists] at hread
    obtain ⟨header, s₁, h₁, hread⟩ := hread
    split at hread
    · cases hread
    · cases hread
      exact header?_yields h₁

theorem early_close?_eq {check : Option Nat} {back : List Bytes} {held : Bytes}
    (h : Early.close? check back = some held) : held = back.reverse.flatten := by
  unfold Early.close? at h
  simp only at h
  split at h
  · cases h
  · cases h
    rfl

theorem early_rowFrom?_yields {r : Early.Room} {block : Nat} {checked : Bool} {fuel : Nat}
    {back : List Bytes} {filled : Nat} {s t : Input} {all : Bytes}
    (h : Early.rowFrom? r block checked fuel back filled s = some (all, t)) :
    ∃ held, all = back.reverse.flatten ++ held ∧ Yields s held t := by
  induction fuel generalizing back filled s with
  | zero => cases h
  | succ fuel ih =>
    unfold Early.rowFrom? at h
    simp only [Option.bind_eq_bind, Option.bind_eq_some_iff, Prod.exists] at h
    obtain ⟨head, s₁, h₁, h⟩ := h
    have hhead : Yields s [] s₁ := by
      obtain ⟨⟨bs, _⟩, htake, heq⟩ := Option.map_eq_some_iff.mp h₁
      cases heq
      exact ⟨bs, take?_eq htake, .none bs⟩
    have hclosed {check : Option Nat}
        (h : (Early.close? check back).bind (fun held => some (held, s₁)) = some (all, t)) :
        ∃ held, all = back.reverse.flatten ++ held ∧ Yields s held t := by
      obtain ⟨held, hclose, heq⟩ := Option.bind_eq_some_iff.mp h
      cases heq
      exact ⟨[], by rw [early_close?_eq hclose, List.append_nil], hhead⟩
    split at h
    · exact hclosed h
    · cases h
    · split at h
      · exact hclosed h
      · cases h
    · split at h
      · exact hclosed h
      · split at h
        · cases h
        · simp only [Option.bind_eq_some_iff, Prod.exists] at h
          obtain ⟨stored, s₂, h₂, h⟩ := h
          obtain ⟨more, hall, hyields⟩ := ih h
          refine ⟨stored ++ more, by simp [hall], ?_⟩
          exact (hhead.after (take?_yields h₂)).append hyields

theorem early_frame?_yields {fuel : Nat} {old : Option Early.Room} {v : Early.Version} {s t : Input}
    {held : Bytes} {room : Early.Room} (h : Early.frame? fuel old v s = some (held, t, room)) :
    Yields s held t := by
  unfold Early.frame? at h
  simp only [Option.bind_eq_bind, Option.bind_eq_some_iff, Prod.exists] at h
  obtain ⟨s₁, h₁, header, s₂, h₂, all, s₃, h₃, heq⟩ := h
  cases heq
  obtain ⟨held, rfl, hyields⟩ := early_rowFrom?_yields h₃
  exact (skip?_yields h₁).after ((early_header?_yields h₂).after hyields)

/-! ## Rows of frames -/

theorem frame?_yields {fuel : Nat} {b b' : Buffers} {s t : Input} {held : Bytes}
    (h : frame? fuel b s = some (held, t, b')) : Yields s held t := by
  unfold frame? at h
  split at h
  · simp only [Option.bind_eq_bind, Option.bind_eq_some_iff, Prod.exists] at h
    obtain ⟨held, s₁, early, h₁, heq⟩ := h
    cases heq
    exact early_frame?_yields h₁
  · simp only [Option.bind_eq_bind, Option.bind_eq_some_iff, Prod.exists] at h
    obtain ⟨held, s₁, room, h₁, heq⟩ := h
    cases heq
    exact present?_yields h₁

theorem framesFrom?_drawn {length fuel : Nat} {back : List Bytes} {buffers : Buffers} {s : Input}
    {all : Bytes} (h : framesFrom? length fuel back buffers s = some all) :
    ∃ held, all = back.reverse.flatten ++ held ∧ Drawn held s.rest := by
  induction fuel generalizing back buffers s with
  | zero => cases h
  | succ fuel ih =>
    unfold framesFrom? at h
    simp only [Option.bind_eq_bind, Option.bind_eq_some_iff, Prod.exists] at h
    obtain ⟨held, s₁, buffers', h₁, h⟩ := h
    obtain ⟨used, hrest, hdrawn⟩ := frame?_yields h₁
    split at h
    · cases h
      refine ⟨held, by simp, ?_⟩
      have hall := hdrawn.append (.none s₁.rest)
      rwa [List.append_nil, ← hrest] at hall
    · obtain ⟨more, hall, hmore⟩ := ih h
      refine ⟨held ++ more, by simp [hall], ?_⟩
      rw [hrest]
      exact hdrawn.append hmore

/-- What frames hold is drawn from their bytes. -/
theorem decode?_drawn {bs held : Bytes} (h : decode? bs = some held) : Drawn held bs := by
  obtain ⟨_, rfl, hdrawn⟩ := framesFrom?_drawn h
  exact hdrawn

end Frame

/-- Unpacking makes no changes. -/
theorem Payload.changes_unpack_le {p : Payload} {bs : Bytes} (h : p.unpack = .ok bs) :
    bs.changes ≤ p.stored.changes := by
  have hdrawn : Bytes.Drawn bs p.stored := by
    unfold Payload.unpack Compression.decode at h
    cases hc : p.compression with
    | none =>
      simp only [hc] at h
      split at h
      · cases h
        exact .refl p.stored
      · cases h
    | zstd =>
      simp only [hc] at h
      cases hframes : Frame.decode? p.stored with
      | none =>
        simp only [hframes] at h
        cases h
      | some held =>
        simp only [hframes] at h
        have hheld : held = bs := by
          by_cases hlarge : largestUnpacked < held.length
          · simp only [hlarge, if_true] at h
            cases h
          · simp only [hlarge, if_false] at h
            split at h
            · cases h
              rfl
            · cases h
        exact hheld ▸ Frame.decode?_drawn hframes
  exact hdrawn.changes_le

end AssetPack
