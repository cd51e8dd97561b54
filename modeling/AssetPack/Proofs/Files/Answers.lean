import AssetPack.Files.Disk

/-!
# What a computation asks and answers

A computation that looks at files is told by what it asks, and its answers by those it gets.
-/
namespace AssetPack

/-!
## What a computation answers

What a look finds among given files, and, for computations built on looks, which answers they may end
with. An invariant of a state and a property of answers are then carried along sequences.
-/

namespace Look
variable {α β : Type} (fs : Files)

theorem eval_pure (a : α) : (pure a : Look α).eval fs = a := rfl

theorem eval_bind (x : Look α) (f : α → Look β) : (x >>= f).eval fs = (f (x.eval fs)).eval fs := by
  rw [eval, Plan.bind_def, Plan.run_bind]
  rfl

theorem eval_canonical (p : Path) : (canonical p).eval fs = fs.canonical p := rfl

theorem eval_settle (p : Path) : (settle p).eval fs = match fs.canonical p with
    | .ok q => q
    | .error _ => p := by
  rw [settle, eval_bind, eval_canonical]
  cases fs.canonical p <;> rfl

theorem eval_read (p : Path) : (read p).eval fs = fs.read p := rfl

theorem eval_readText (p : Path) : (readText p).eval fs = match fs.read p with
    | .ok bs => match bs.toString? with
      | some s => .ok s
      | none => .error .notText
    | .error e => .error e := by
  rw [readText, eval_bind, eval_read]
  cases fs.read p with
  | error e => rfl
  | ok bs =>
    dsimp only
    cases bs.toString? <;> rfl

/-- A file whose text is read can be read. -/
theorem read_of_readText {p : Path} {text : String} (h : (readText p).eval fs = .ok text) :
    ∃ bs, fs.read p = .ok bs := by
  rw [eval_readText] at h
  cases hread : fs.read p with
  | ok bs => exact ⟨bs, rfl⟩
  | error e =>
    rw [hread] at h
    cases h

end Look

/-- Which answers a computation may end with. What a sequence answers is an answer of its last part
after one of the first. -/
structure Answers (m : Type → Type) [Monad m] where
  May {α : Type} : m α → α → Prop
  eq_of_pure {α : Type} {a b : α} : May (pure a) b → b = a
  of_bind {α β : Type} {x : m α} {f : α → m β} {b : β} : May (x >>= f) b → ∃ a, May x a ∧ May (f a) b

namespace Answers
variable {m : Type → Type} [Monad m]

/-- The one answer of a computation without effects. -/
def plain : Answers Id where
  May x a := a = x
  eq_of_pure h := h
  of_bind h := ⟨_, rfl, h⟩

/-- What a look finds among these files. -/
def files (fs : Files) : Answers Look where
  May x a := a = x.eval fs
  eq_of_pure h := h
  of_bind {_ _ x f _} h := ⟨x.eval fs, rfl, h.trans (Look.eval_bind fs x f)⟩

/-- The answers that are there. -/
def option (A : Answers m) : Answers (OptionT m) where
  May x a := A.May x.run (some a)
  eq_of_pure h := Option.some.inj (A.eq_of_pure h)
  of_bind h := by
    obtain ⟨a?, hx, hf⟩ := A.of_bind h
    cases a? with
    | none => cases A.eq_of_pure hf
    | some a => exact ⟨a, hx, hf⟩

theorem not_may_failure (A : Answers m) {α : Type} (a : α) : ¬A.option.May failure a := by
  intro h
  cases A.eq_of_pure h

end Answers

section
variable {m : Type → Type} [Monad m] {A : Answers m} {S α β : Type} {I : S → Prop}

/-- Where the invariant holds it holds after `x`, and the answer is as stated. -/
def Keeps (A : Answers m) (I : S → Prop) (x : StateT S m α) (Q : α → Prop) : Prop :=
  ∀ s a s', A.May (x.run s) (a, s') → I s → I s' ∧ Q a

namespace Keeps
variable {x : StateT S m α} {Q R : α → Prop}

theorem pure {a : α} (h : Q a) : Keeps A I (Pure.pure a : StateT S m α) Q := by
  intro s b s' hmay hs
  cases A.eq_of_pure hmay
  exact ⟨hs, h⟩

theorem bind {f : α → StateT S m β} {T : β → Prop} (hx : Keeps A I x Q)
    (hf : ∀ a, Q a → Keeps A I (f a) T) : Keeps A I (x >>= f) T := by
  intro s b s'' hmay hs
  rw [StateT.run_bind] at hmay
  obtain ⟨⟨a, s'⟩, hx', hf'⟩ := A.of_bind hmay
  obtain ⟨hs', ha⟩ := hx s a s' hx' hs
  exact hf a ha s' b s'' hf' hs'

theorem mono (hx : Keeps A I x Q) (h : ∀ a, Q a → R a) : Keeps A I x R := by
  intro s a s' hmay hs
  obtain ⟨hs', ha⟩ := hx s a s' hmay hs
  exact ⟨hs', h a ha⟩

theorem ask : Keeps A I (get : StateT S m S) I := by
  intro s a s' hmay hs
  cases A.eq_of_pure hmay
  exact ⟨hs, hs⟩

theorem put {s : S} (h : I s) : Keeps A I (set s : StateT S m PUnit) fun _ => True := by
  intro _ a s' hmay _
  cases A.eq_of_pure hmay
  exact ⟨h, trivial⟩

theorem change {f : S → S} (h : ∀ s, I s → I (f s)) :
    Keeps A I (modify f : StateT S m PUnit) fun _ => True := by
  intro s a s' hmay hs
  cases A.eq_of_pure hmay
  exact ⟨h s hs, trivial⟩

/-- `x` between two changes that keep the invariant. -/
theorem around {f g : S → S} (hf : ∀ s, I s → I (f s)) (hg : ∀ s, I s → I (g s)) (h : Keeps A I x Q) :
    Keeps A I (do modify f; let a ← x; modify g; return a) Q :=
  Keeps.bind (Keeps.change hf) fun _ _ => Keeps.bind h fun _ ha =>
    Keeps.bind (Keeps.change hg) fun _ _ => Keeps.pure ha

theorem forM {γ : Type} {f : γ → StateT S m PUnit} {items : List γ}
    (h : ∀ a ∈ items, Keeps A I (f a) fun _ => True) : Keeps A I (items.forM f) fun _ => True := by
  induction items with
  | nil => exact Keeps.pure trivial
  | cons a rest ih =>
    obtain ⟨ha, hrest⟩ := List.forall_mem_cons.mp h
    exact Keeps.bind ha fun _ _ => ih hrest

/-- A look does not touch the state. -/
theorem look {fs : Files} (x : Look α) :
    Keeps (Answers.files fs) I (liftM x : StateT S Look α) fun a => a = x.eval fs := by
  intro s b s' hmay hs
  obtain ⟨a, hx, heq⟩ := (Answers.files fs).of_bind hmay
  cases (Answers.files fs).eq_of_pure heq
  exact ⟨hs, hx⟩

end Keeps
end

/-!
## What a look asks

Among given files a look asks certain questions, and what it finds depends on their answers only. A look
whose questions are all about listed files finds the same as long as these files stay as they are.
-/

namespace Look
variable {α β : Type} {fs fs' : Files}

/-- The questions that a look asks, in order. -/
def asked (fs : Files) : Look α → List Question
  | .done _ => []
  | .ask q next => q :: asked fs (next (fs.answer q))

theorem eval_ask (q : Question) (next : q.Answer → Look α) :
    eval fs (.ask q next) = (next (fs.answer q)).eval fs := rfl

theorem asked_bind (x : Look α) (f : α → Look β) : (x >>= f).asked fs = x.asked fs ++ (f (x.eval fs)).asked fs := by
  induction x with
  | done a => rfl
  | ask q next ih => exact congrArg (q :: ·) (ih _)

theorem asked_map (f : α → β) (x : Look α) : (x >>= fun a => pure (f a)).asked fs = x.asked fs := by
  rw [asked_bind]
  exact List.append_nil _

theorem asked_settle (p : Path) : (settle p).asked fs = [.canonical p] := by
  rw [settle, asked_bind]
  cases (canonical p).eval fs <;> rfl

theorem asked_readText (p : Path) : (readText p).asked fs = [.read p] := by
  rw [readText, asked_bind]
  cases (read p).eval fs with
  | error e => rfl
  | ok bs =>
    dsimp only
    cases bs.toString? <;> rfl

/-- Without an answer nothing more is asked. -/
theorem asked_optionT_bind (x : OptionT Look α) (f : α → OptionT Look β) :
    (x >>= f).run.asked fs = x.run.asked fs ++ (x.run.eval fs).elim [] fun a => (f a).run.asked fs := by
  rw [OptionT.run_bind, Option.elimM, asked_bind]
  cases x.run.eval fs <;> rfl

theorem asked_optionT_map (f : α → β) (x : OptionT Look α) :
    (x >>= fun a => pure (f a)).run.asked fs = x.run.asked fs := by
  rw [asked_optionT_bind]
  cases x.run.eval fs <;> exact List.append_nil _

theorem asked_optionT_lift (x : Look α) : (OptionT.lift x).run.asked fs = x.asked fs := by
  rw [OptionT.run_lift]
  exact asked_map some x

/-- Files that answer the questions of a look alike are the same to it. -/
theorem eval_congr {x : Look α} (h : ∀ q ∈ x.asked fs, fs'.answer q = fs.answer q) : x.eval fs' = x.eval fs := by
  induction x with
  | done a => rfl
  | ask q next ih =>
    obtain ⟨hfirst, hrest⟩ := List.forall_mem_cons.mp h
    rw [eval_ask, eval_ask, hfirst]
    exact ih _ hrest

end Look

/-- The path leads somewhere: something can be read there, or it has a canonical name or is one. -/
inductive Files.Leads (fs : Files) : Path → Prop
  | read {p : Path} {bs : Bytes} : fs.read p = .ok bs → Leads fs p
  | canonical {p q : Path} : fs.canonical p = .ok q → Leads fs p
  | name {p q : Path} : fs.canonical p = .ok q → Leads fs q

/-- What can be read under its canonical name leads somewhere. -/
theorem Files.leads_of_read_settle {fs : Files} {p : Path} {bs : Bytes}
    (h : fs.read ((Look.settle p).eval fs) = .ok bs) : fs.Leads p := by
  rw [Look.eval_settle] at h
  cases hcanonical : fs.canonical p with
  | ok q => exact .canonical hcanonical
  | error e =>
    rw [hcanonical] at h
    exact .read h

/-- The question is about something that is there, and if it asks for the bytes of a file, that file is
listed by the name it goes by. -/
def Question.Listed (fs : Files) (files : List Path) : Question → Prop
  | canonical p => fs.Leads p
  | read p => (∃ bs, fs.read p = .ok bs) ∧ ∃ f ∈ files, Path.same f ((Look.settle p).eval fs)
  | status _ => False

theorem Question.Listed.mono {fs : Files} {files files' : List Path} {q : Question} (h : q.Listed fs files)
    (hsubset : files ⊆ files') : q.Listed fs files' := by
  cases q with
  | canonical p => exact h
  | read p =>
    obtain ⟨f, hf, hsame⟩ := h.2
    exact ⟨h.1, f, hsubset hf, hsame⟩
  | status p => exact h

end AssetPack
