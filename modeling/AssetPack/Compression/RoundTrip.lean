import AssetPack.Compression.Frame

/-!
# Reading what was written

A written frame tells no size, so it is opened block by block, and its window admits every
plain block. The main statement is `decode?_encode`: the bytes written into a frame are read back.
-/
namespace AssetPack.Frame

/-- The bounds that the blocks of a written frame are read in. -/
def plainBounds : Bounds := ⟨some largestBlock, none, true⟩

/-- What the header of a written frame declares. -/
def plainHeader : Header := ⟨largestBlock, none, 0, false⟩

/-- Plain blocks hold what was written into them, whatever came before. -/
theorem rowFrom?_plainBlocks (bs : Bytes) (fuel : Nat) (hf : bs.length < fuel) (steps : Nat)
    (hs : bs.length < steps) (back : List Bytes) (total past : Nat) :
    ∃ passed past', rowFrom? plainBounds steps back total ⟨plainBlocks fuel bs, past⟩ =
      some (⟨back.reverse.flatten ++ bs, passed⟩, ⟨[], past'⟩) := by
  induction fuel generalizing bs steps back total past with
  | zero => omega
  | succ fuel ih =>
    obtain _ | steps := steps
    · omega
    let head : BlockHead := ⟨(bs.drop largestBlock).isEmpty, .plain, min bs.length largestBlock⟩
    have hn : head.toNat < Nat.pow 256 3 := by
      have := Bool.toNat_lt head.last
      have : head.size ≤ 131072 := Nat.min_le_right ..
      show 8 * head.size + 2 * 0 + head.last.toNat < 16777216
      omega
    have htake : (bs.take largestBlock).length = head.size := by simp [head, Nat.min_comm]
    have hread : ∀ rest : Bytes, blockHead? ⟨Bytes.ofNat 3 head.toNat ++ rest, past⟩ =
        some (head, ⟨rest, past + 3⟩) := by
      intro rest
      simp [blockHead?, Input.number?_append 3 _ hn, head]
    have hstored : head.stored = head.size := by simp [BlockHead.stored, head]
    have hmax : ¬ largestBlock < max head.stored head.size := by
      simp only [hstored, Nat.max_self, head]; omega
    have hheld : plainBounds.open? head (bs.take largestBlock) = some (bs.take largestBlock) := by
      by_cases h : head.size = 0
      · have : bs.take largestBlock = [] := List.eq_nil_of_length_eq_zero (by omega)
        simp [plainBounds, Bounds.open?, Bounds.passes, hstored, h, this]
      · simp [Bounds.open?, Bounds.passes, hstored, h, head, BlockHead.open?]
    have hbody : ∀ rest past, Input.take? ⟨bs.take largestBlock ++ rest, past⟩ head.stored =
        some (bs.take largestBlock, ⟨rest, past + head.stored⟩) := by
      intro rest past
      have := Input.take?_append (bs.take largestBlock) rest past
      rwa [htake, ← hstored] at this
    have hwhole := List.take_append_drop largestBlock bs
    have hstep : ∀ rest : Bytes, rowFrom? plainBounds (steps + 1) back total
        ⟨Bytes.ofNat 3 head.toNat ++ (bs.take largestBlock ++ rest), past⟩ =
        if head.last then
          some (⟨(bs.take largestBlock :: back).reverse.flatten, plainBounds.passes head⟩,
            ⟨rest, past + 3 + head.stored⟩)
        else rowFrom? plainBounds steps (bs.take largestBlock :: back)
          (total + (bs.take largestBlock).length) ⟨rest, past + 3 + head.stored⟩ := by
      intro rest
      rw [rowFrom?]
      have hblock : plainBounds.block.any (· < max head.stored head.size) = false := by
        simp only [plainBounds, Option.any_some, hmax, decide_false]
      have htotal (n : Nat) : plainBounds.total.any (· < n) = false := rfl
      simp only [hread, hbody, hheld, hblock, htotal, Option.bind_eq_bind, Option.bind_some,
        Bool.false_eq_true, if_false, Option.pure_def]
    have hshape : plainBlocks (fuel + 1) bs = Bytes.ofNat 3 head.toNat ++ (bs.take largestBlock ++
        if head.last then [] else plainBlocks fuel (bs.drop largestBlock)) := by
      simp only [plainBlocks, List.append_assoc, head]
    rw [hshape, hstep]
    by_cases hl : head.last
    · have hrest : bs.drop largestBlock = [] := by simpa [head] using hl
      have heq : bs.take largestBlock = bs := by rw [hrest, List.append_nil] at hwhole; exact hwhole
      simp only [hl, if_true, heq]
      exact ⟨plainBounds.passes head, past + 3 + head.stored, by simp⟩
    · have hdrop : (bs.drop largestBlock).length < bs.length := by
        have : bs.drop largestBlock ≠ [] := by simpa [head] using hl
        have := List.length_pos_iff.mpr this
        simp only [List.length_drop, largestBlock] at this ⊢
        omega
      simp only [hl, if_false, Bool.false_eq_true]
      obtain ⟨passed, past', h⟩ := ih (bs.drop largestBlock) (by omega) steps (by omega)
        (bs.take largestBlock :: back) (total + (bs.take largestBlock).length) (past + 3 + head.stored)
      refine ⟨passed, past', ?_⟩
      rw [h]
      simp [hwhole]

/-- Plain blocks are longer than what they hold. -/
theorem length_plainBlocks (bs : Bytes) (fuel : Nat) (hf : bs.length < fuel) :
    bs.length < (plainBlocks fuel bs).length := by
  induction fuel generalizing bs with
  | zero => omega
  | succ fuel ih =>
    simp only [plainBlocks, List.length_append, Bytes.length_ofNat, List.length_take]
    by_cases h : (bs.drop largestBlock).isEmpty
    · have : bs.drop largestBlock = [] := by simpa using h
      have := List.drop_eq_nil_iff.mp this
      simp only [h, if_true, List.length_nil]
      omega
    · have hne : bs.drop largestBlock ≠ [] := by simpa using h
      have hpos := List.length_pos_iff.mpr hne
      have := ih (bs.drop largestBlock) (by simp only [List.length_drop, largestBlock] at hpos ⊢; omega)
      simp only [h, Bool.false_eq_true, if_false, List.length_drop] at this ⊢
      omega

/-- What a written frame begins with. -/
theorem opening?_append (rest : Bytes) :
    opening? ⟨Bytes.ofNat 4 magic ++ ([0, blockWindow] ++ rest), 0⟩ =
      some (.data plainHeader, ⟨rest, 6⟩) := by
  have hsmall : magic < Nat.pow 256 4 := by
    show 0xFD2FB528 < 4294967296
    omega
  have hmagic := Input.number?_append 4 magic hsmall ([0, blockWindow] ++ rest) 0
  have hwindow : windowSize? 56 = some largestBlock := rfl
  have hheader : header? ⟨[0, blockWindow] ++ rest, 0 + 4⟩ = some (plainHeader, ⟨rest, 6⟩) := by
    simp [header?, Input.number?, Input.take?, Bytes.toNat, blockWindow, hwindow, plainHeader]
  have hne : ¬ magic / 16 = skipMagic := by
    simp only [magic, skipMagic]
    omega
  simp only [opening?, hmagic, hheader, hne, Option.bind_eq_bind, Option.bind_some, if_false,
    if_true, Option.pure_def]

/-- A written frame is of the present version. -/
theorem version?_append (rest : Bytes) :
    Early.version? ⟨Bytes.ofNat 4 magic ++ ([0, blockWindow] ++ rest), 0⟩ = none := by
  have hsmall : magic < Nat.pow 256 4 := by
    show 0xFD2FB528 < 4294967296
    omega
  have hmagic := Input.number?_append 4 magic hsmall ([0, blockWindow] ++ rest) 0
  have hnone : Early.Version.ofMagic? magic = none := by decide
  simp only [Early.version?, hmagic, hnone, Option.bind_eq_bind, Option.bind_some]
  cases Input.skip? ⟨Bytes.ofNat 4 magic ++ ([0, blockWindow] ++ rest), 0⟩ Early.sightWidth with
  | none => rfl
  | some behind => simp

/-- What is written into a frame is read back. -/
theorem decode?_encode (bs : Bytes) : decode? (encode bs) = some bs := by
  let blocks := plainBlocks (bs.length + 1) bs
  have hshape : encode bs = Bytes.ofNat 4 magic ++ ([0, blockWindow] ++ blocks) := by
    simp [encode, blocks]
  have hlen : bs.length < (encode bs).length := by
    have := length_plainBlocks bs (bs.length + 1) (by omega)
    rw [hshape]
    simp only [List.length_append, blocks]
    omega
  obtain ⟨passed, past, hrow⟩ := rowFrom?_plainBlocks bs (bs.length + 1) (by omega) _ hlen [] 0 6
  have hbody : plainHeader.body? plainBounds (encode bs).length ⟨blocks, 6⟩ =
      some (bs, ⟨[], past⟩) := by
    simp [plainHeader, Header.body?, row?, blocks, hrow, Header.close?]
  have hstep : stepwise? (encode bs).length .empty plainHeader ⟨blocks, 6⟩ =
      some (bs, ⟨[], past⟩, Room.fitFrame .empty largestBlock largestBlock unknownSize) := by
    have hblock : plainHeader.block = largestBlock := by decide
    have hwide : plainHeader.window = largestBlock := rfl
    have hbounds : (⟨some largestBlock, none, true⟩ : Bounds) = plainBounds := rfl
    have hsize : plainHeader.size = unknownSize := rfl
    have hroom : (Room.fitFrame .empty largestBlock largestBlock unknownSize).output < unknownSize := by
      decide
    have hwindow : ¬ largestWindow < largestBlock := by decide
    simp only [stepwise?, hwide, hblock, hsize, hroom, hwindow, hbounds, hbody, if_true, if_false,
      Option.bind_eq_bind, Option.bind_some, Option.pure_def]
  have hat : Input.ofBytes (encode bs) = ⟨Bytes.ofNat 4 magic ++ ([0, blockWindow] ++ blocks), 0⟩ := by
    rw [← hshape]; rfl
  have hpresent : present? (encode bs).length .empty (.ofBytes (encode bs)) =
      some (bs, ⟨[], past⟩, Room.fitFrame .empty largestBlock largestBlock unknownSize) := by
    have hlarge : (decide (plainHeader.size ≤ smallFrame)) = false := by decide
    have hnear : nearest? (Input.ofBytes (encode bs)) ⟨blocks, 6⟩ = some (Input.ofBytes (encode bs)) := by
      simp [nearest?, Input.ofBytes, Input.pieceEnd, Input.pieceSize]
    simp only [present?, hat ▸ opening?_append blocks, hnear, hlarge, hstep, Bool.false_and,
      Bool.false_eq_true, if_false, Option.bind_eq_bind, Option.bind_some]
  have hversion : Early.version? (.ofBytes (encode bs)) = none := by
    rw [hat]
    exact version?_append _
  have hframe : frame? (encode bs).length .empty (.ofBytes (encode bs)) =
      some (bs, ⟨[], past⟩, ⟨Room.fitFrame .empty largestBlock largestBlock unknownSize, none⟩) := by
    have hempty : Buffers.empty = ⟨.empty, none⟩ := rfl
    simp only [frame?, hversion, hempty, hpresent, Option.bind_eq_bind, Option.bind_some, Option.pure_def]
  unfold decode?
  obtain ⟨n, hn⟩ : ∃ n, (encode bs).length = n + 1 := ⟨_, (Nat.succ_pred_eq_of_pos (by omega)).symm⟩
  conv => lhs; arg 2; rw [hn]
  rw [framesFrom?, hframe]
  simp

end AssetPack.Frame
