import AssetPack.Codec.Decode

/-!
# Reading what was written

A reader reads a run of bytes at an offset if it takes just these bytes there, whatever follows
them, and a reader faults on a run of bytes if it fails there, whatever follows. Both notions
compose along the steps of a reader, so the law of a whole format is put together from those
of its fields.
-/
namespace AssetPack.Reader
variable {α β : Type}

/-- At `place` the reader takes the bytes `bs`, whatever follows, and answers `a`. -/
def Reads (r : Reader α) (place : Nat) (bs : Bytes) (a : α) : Prop :=
  ∀ rest, EStateM.run r ⟨place, bs ++ rest, true⟩ = .ok a ⟨place + bs.length, rest, true⟩

/-- At `place` the reader fails on the bytes `bs`, whatever follows. -/
def Faults (r : Reader α) (place : Nat) (bs : Bytes) (f : Fault) : Prop :=
  ∀ rest, ∃ c, EStateM.run r ⟨place, bs ++ rest, true⟩ = .error f c

theorem run_bind (r : Reader α) (g : α → Reader β) (c : Cursor) :
    EStateM.run (r >>= g) c = match EStateM.run r c with
      | .ok a c => EStateM.run (g a) c
      | .error f c => .error f c := by
  show EStateM.bind r g c = _
  unfold EStateM.bind EStateM.run
  cases r c <;> rfl

theorem Reads.pure (place : Nat) (a : α) : Reads (Pure.pure a) place [] a := by
  intro rest
  rfl

theorem Reads.bind {r : Reader α} {g : α → Reader β} {place : Nat} {bs cs : Bytes} {a : α} {b : β}
    (hr : Reads r place bs a) (hg : Reads (g a) (place + bs.length) cs b) :
    Reads (r >>= g) place (bs ++ cs) b := by
  intro rest
  rw [run_bind, List.append_assoc, hr]
  show EStateM.run (g a) _ = _
  rw [hg, List.length_append, Nat.add_assoc]

/-- A reader that takes nothing followed by another. -/
theorem Reads.silent {r : Reader α} {g : α → Reader β} {place : Nat} {cs : Bytes} {a : α} {b : β}
    (hr : Reads r place [] a) (hg : Reads (g a) place cs b) : Reads (r >>= g) place cs b :=
  hr.bind hg

/-- A reader followed by one that takes nothing. -/
theorem Reads.map {r : Reader α} {g : α → Reader β} {place : Nat} {bs : Bytes} {a : α} {b : β}
    (hr : Reads r place bs a) (hg : Reads (g a) (place + bs.length) [] b) :
    Reads (r >>= g) place bs b := by
  have h := hr.bind hg
  rwa [List.append_nil] at h

theorem Faults.bind_append {r : Reader α} {place : Nat} {bs : Bytes} {f : Fault}
    (hr : Faults r place bs f) (g : α → Reader β) (cs : Bytes) :
    Faults (r >>= g) place (bs ++ cs) f := by
  intro rest
  obtain ⟨c, h⟩ := hr (cs ++ rest)
  exact ⟨c, by rw [run_bind, List.append_assoc, h]⟩

theorem Faults.bind {r : Reader α} {place : Nat} {bs : Bytes} {f : Fault}
    (hr : Faults r place bs f) (g : α → Reader β) : Faults (r >>= g) place bs f := by
  have h := hr.bind_append g []
  rwa [List.append_nil] at h

theorem Reads.faults_bind {r : Reader α} {g : α → Reader β} {place : Nat} {bs cs : Bytes} {a : α}
    {f : Fault} (hr : Reads r place bs a) (hg : Faults (g a) (place + bs.length) cs f) :
    Faults (r >>= g) place (bs ++ cs) f := by
  intro rest
  obtain ⟨c, h⟩ := hg rest
  refine ⟨c, ?_⟩
  rw [run_bind, List.append_assoc, hr]
  exact h

theorem Reads.faults_silent {r : Reader α} {g : α → Reader β} {place : Nat} {cs : Bytes} {a : α}
    {f : Fault} (hr : Reads r place [] a) (hg : Faults (g a) place cs f) :
    Faults (r >>= g) place cs f :=
  hr.faults_bind hg

theorem reads_offset (place : Nat) : Reads offset place [] place := by
  intro rest
  rfl

theorem reads_take (place : Nat) (bs : Bytes) : Reads (take bs.length) place bs bs := by
  intro rest
  have hfits : ¬ ((bs ++ rest).take bs.length).length < bs.length := by
    rw [List.take_left]
    exact Nat.lt_irrefl _
  have hrun : EStateM.run (take bs.length) ⟨place, bs ++ rest, true⟩ =
      .ok ((bs ++ rest).take bs.length) ⟨place + bs.length, (bs ++ rest).drop bs.length, true⟩ := by
    unfold take
    rw [run_bind]
    simp only [EStateM.run_get]
    rw [if_neg hfits]
    rfl
  rw [hrun, List.take_left, List.drop_left]

theorem reads_nat (place : Nat) {width n : Nat} (h : n < Nat.pow 256 width) :
    Reads (nat width) place (Bytes.ofNat width n) n := by
  have htake := reads_take place (Bytes.ofNat width n)
  rw [Bytes.length_ofNat] at htake
  have hread := htake.map (g := fun bs => Pure.pure bs.toNat) (Reads.pure _ _)
  rwa [Bytes.toNat_ofNat, Nat.mod_eq_of_lt h] at hread

theorem reads_bytes (place : Nat) {bs : Bytes} (h : bs.length < Nat.pow 256 4) :
    Reads bytes place (encodeRun bs) bs :=
  (reads_nat place h).bind (reads_take _ bs)

theorem reads_text (place : Nat) {s : String} (h : (Bytes.ofString s).length < Nat.pow 256 4) :
    Reads text place (encodeText s) s := by
  refine (reads_offset place).bind ((reads_bytes place h).map ?_)
  simp only [Bytes.toString?_ofString]
  exact Reads.pure _ _

/-- What `many` reads where things are written one after the other from `place` on: each thing `x`
is written as `enc x` and read back as `back place x` at its place. -/
def placed {γ : Type} (enc : γ → Bytes) (back : Nat → γ → α) (place : Nat) : List γ → List α
  | [] => []
  | x :: xs => back place x :: placed enc back (place + (enc x).length) xs

section
variable {γ : Type} {enc : γ → Bytes} {back : Nat → γ → α} {item : Reader α}

@[simp] theorem length_placed (place : Nat) (xs : List γ) : (placed enc back place xs).length = xs.length := by
  induction xs generalizing place with
  | nil => rfl
  | cons x xs ih => rw [placed, List.length_cons, List.length_cons, ih]

/-- Things are read back one by one if each of them is. -/
theorem reads_many {xs : List γ} (place : Nat)
    (h : ∀ x ∈ xs, ∀ place, Reads item place (enc x) (back place x)) :
    Reads (many item xs.length) place (xs.flatMap enc) (placed enc back place xs) := by
  induction xs generalizing place with
  | nil => exact Reads.pure place []
  | cons x xs ih =>
    have hx := h x List.mem_cons_self place
    have hxs := ih (place + (enc x).length) fun y hy => h y (List.mem_cons_of_mem x hy)
    exact hx.bind (hxs.map (Reads.pure _ _))

/-- The first thing that is not read back makes `many` fail. -/
theorem faults_many {Good : γ → Prop} {Bad : Fault → Prop} {xs : List γ} (place : Nat)
    (hreads : ∀ x ∈ xs, Good x → ∀ place, Reads item place (enc x) (back place x))
    (hfaults : ∀ x ∈ xs, ¬Good x → ∀ place, ∃ f, Bad f ∧ Faults item place (enc x) f)
    (hbad : ∃ x ∈ xs, ¬Good x) :
    ∃ f, Bad f ∧ Faults (many item xs.length) place (xs.flatMap enc) f := by
  induction xs generalizing place with
  | nil =>
    obtain ⟨x, hx, _⟩ := hbad
    cases hx
  | cons x xs ih =>
    by_cases hx : Good x
    · have hread := hreads x List.mem_cons_self hx place
      obtain ⟨y, hy, hbad⟩ := hbad
      have hy : y ∈ xs := by
        rcases List.mem_cons.mp hy with rfl | hy
        · exact (hbad hx).elim
        · exact hy
      obtain ⟨f, hf, hfault⟩ := ih (place + (enc x).length)
        (fun y hy => hreads y (List.mem_cons_of_mem x hy))
        (fun y hy => hfaults y (List.mem_cons_of_mem x hy)) ⟨y, hy, hbad⟩
      exact ⟨f, hf, hread.faults_bind (hfault.bind _)⟩
    · obtain ⟨f, hf, hfault⟩ := hfaults x List.mem_cons_self hx place
      exact ⟨f, hf, hfault.bind_append _ _⟩

end

/-- A reader that takes all bytes leaves nothing behind. -/
theorem Reads.runFrom {r : Reader α} {place : Nat} {bs : Bytes} {a : α} (h : Reads r place bs a)
    (g : α → β) : (do let a ← r; atEnd; return g a : Reader β).runFrom ⟨place, bs, true⟩ = .ok (g a) := by
  have hrun := h []
  rw [List.append_nil] at hrun
  simp only [Reader.runFrom, run_bind, hrun]
  rfl

theorem Faults.runFrom {r : Reader α} {place : Nat} {bs : Bytes} {f : Fault} (h : Faults r place bs f) :
    r.runFrom ⟨place, bs, true⟩ = .error f := by
  obtain ⟨c, hrun⟩ := h []
  rw [List.append_nil] at hrun
  simp only [Reader.runFrom, hrun]

end AssetPack.Reader
