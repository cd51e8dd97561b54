import AssetPack.Proofs.Files.Answers
import AssetPack.Proofs.Files.Later

/-!
# File systems and scripts

File systems carry out the requests of scripts. What a script leaves of a state depends on its requests alone.
-/
namespace AssetPack

/-!
## Scripts that remove nothing

A script all of whose requests spare what is there leaves a later disk behind. A look leaves the disk as it is.
-/

namespace Plan
variable {I : Interface} {α β : Type} {P : I.Request → Prop}

/-- All requests that a plan may ask are as stated, whatever the answers are. -/
def Asks (P : I.Request → Prop) : Plan I α → Prop
  | done _ => True
  | ask r next => P r ∧ ∀ answer, (next answer).Asks P

theorem Asks.bind {x : Plan I α} {f : α → Plan I β} (hx : x.Asks P) (hf : ∀ a, (f a).Asks P) :
    (x >>= f).Asks P := by
  induction x with
  | done a => exact hf a
  | ask r next ih => exact ⟨hx.1, fun answer => ih answer (hx.2 answer)⟩

end Plan

theorem Look.asks_toScript {α : Type} (x : Look α) : x.toScript.Asks Action.Sparing := by
  induction x with
  | done a => trivial
  | ask q next ih => exact ⟨trivial, ih⟩

namespace Script
variable {α β : Type} {d : Disk} {x : Script α}

theorem runOn_bind (d : Disk) (x : Script α) (f : α → Script β) :
    (x >>= f).runOn d = (f (x.runOn d).1).runOn (x.runOn d).2 := by
  induction x generalizing d with
  | done a => rfl
  | ask a next ih => exact ih _ _

theorem later_runOn (hd : d.Sound) (hx : x.Asks Action.Sparing) : d.Later (x.runOn d).2 := by
  induction x generalizing d with
  | done a => exact .refl hd
  | ask a next ih =>
    have hstep := Disk.later_perform hd hx.1
    exact hstep.trans (ih _ hstep.sound (hx.2 _))

end Script

/-!
## File systems

A file system carries out actions and goes from state to state. In each state it has an answer to every question,
and a question changes nothing. A disk is one; others may have links or refuse what they like.
-/

/-- The answer to an action that was carried out. -/
def Action.Done : (a : Action) → a.Answer → Prop
  | makeDirs _, answer | write _ _, answer | remove _, answer => answer = .ok ()
  | look _, _ | scratch, _ => True

/-- A file system with states `S`. -/
structure FileSystem (S : Type) where
  files : S → Files
  perform : S → (a : Action) → a.Answer × S
  perform_look : ∀ s q, perform s (.look q) = ((files s).answer q, s)

def Disk.system : FileSystem Disk := ⟨Disk.files, Disk.perform, fun _ _ => rfl⟩

namespace FileSystem
variable {S α β : Type} {P : Action → Prop}

/-- What a script answers, and the state that it leaves. -/
def run (m : FileSystem S) (s : S) : Script α → α × S
  | .done a => (a, s)
  | .ask action next => m.run (m.perform s action).2 (next (m.perform s action).1)

/-- The actions of a script, in order. -/
def actions (m : FileSystem S) (s : S) : Script α → List Action
  | .done _ => []
  | .ask action next => action :: m.actions (m.perform s action).2 (next (m.perform s action).1)

variable {m : FileSystem S} {s : S}

theorem run_bind (x : Script α) (f : α → Script β) : m.run s (x >>= f) = m.run (m.run s x).2 (f (m.run s x).1) := by
  induction x generalizing s with
  | done a => rfl
  | ask action next ih => exact ih _

theorem actions_bind (x : Script α) (f : α → Script β) :
    m.actions s (x >>= f) = m.actions s x ++ m.actions (m.run s x).2 (f (m.run s x).1) := by
  induction x generalizing s with
  | done a => rfl
  | ask action next ih => exact congrArg (action :: ·) (ih _)

theorem run_toScript (x : Look α) : m.run s x.toScript = (x.eval (m.files s), s) := by
  induction x with
  | done a => rfl
  | ask q next ih =>
    rw [Look.toScript, run, m.perform_look]
    exact ih _

theorem actions_toScript (x : Look α) : m.actions s x.toScript = (x.asked (m.files s)).map .look := by
  induction x with
  | done a => rfl
  | ask q next ih =>
    rw [Look.toScript, actions, m.perform_look]
    exact congrArg (_ :: ·) (ih _)

/-- Whatever is answered, only such actions are taken. -/
theorem of_mem_actions {x : Script α} (hx : x.Asks P) : ∀ action ∈ m.actions s x, P action := by
  induction x generalizing s with
  | done a => exact fun _ h => nomatch h
  | ask action next ih => exact List.forall_mem_cons.mpr ⟨hx.1, ih _ (hx.2 _)⟩

/-! ### Changes that are granted -/

/-- All these actions are carried out when they come one after the other. -/
def Grants (m : FileSystem S) : S → List Action → Prop
  | _, [] => True
  | s, a :: rest => a.Done (m.perform s a).1 ∧ m.Grants (m.perform s a).2 rest

/-- The state after these actions. -/
def after (m : FileSystem S) (s : S) (actions : List Action) : S := actions.foldl (fun s a => (m.perform s a).2) s

theorem grants_append {actions more : List Action} :
    m.Grants s (actions ++ more) ↔ m.Grants s actions ∧ m.Grants (m.after s actions) more := by
  induction actions generalizing s with
  | nil => exact (and_iff_right trivial).symm
  | cons a rest ih =>
    rw [List.cons_append, Grants, Grants, ih, and_assoc]
    rfl

theorem after_append {actions more : List Action} :
    m.after s (actions ++ more) = m.after (m.after s actions) more := List.foldl_append

end FileSystem

theorem Script.runOn_eq_run {α : Type} (d : Disk) (x : Script α) : x.runOn d = Disk.system.run d x := by
  induction x generalizing d with
  | done a => rfl
  | ask action next ih => exact ih _ _

end AssetPack
