import AssetPack.Resource.Holder

/-!
# Rebuilding

What a holder goes through: requests, new listeners and replacements from anywhere, and between them single steps
of its workers. A history notes which rebuilds ran and which were replaced before they did. The rebuilds that are
under way or pending, the ones that ran and the ones that were replaced are together all that were requested, each
once; and what was requested last comes last.
-/
namespace AssetPack
variable {S σ : Type}

/-- The rebuild that a worker is about to run. -/
def Worker.due : Worker S σ → Option (Rebuild S σ)
  | .building r => some r
  | _ => none

/-- The snapshot in place after a swap that is next. -/
def Worker.settled : Worker S σ → S → S
  | .swapping next, _ => next
  | _, current => current

namespace Holder

/-- What may happen next. -/
inductive Event (S σ : Type) where
  | request (b : Build S σ)
  /-- a worker goes one step -/
  | work (i : Nat)
  | listen (l : Listener S σ)
  | replace (s : S)

/-- A rebuild that ran, and the snapshot it made. -/
structure Run (S σ : Type) where
  rebuild : Rebuild S σ
  made : Option S

/-- A holder with what became of its requests. -/
structure History (S σ : Type) where
  holder : Holder S σ
  world : σ
  /-- the rebuilds that ran, in order -/
  runs : List (Run S σ)
  /-- the numbers of those that gave way to a later request -/
  replaced : List Nat

/-- The builds that are requested, in order. -/
def requested (events : List (Event S σ)) : List (Build S σ) :=
  events.filterMap fun
    | .request b => some b
    | _ => none

/-- The rebuild that the next request takes the place of. -/
def waiting (h : Holder S σ) : Option (Rebuild S σ) := if h.running then h.pending else none

/-- The rebuilds that are to run: those of the workers, then what is pending. -/
def due (h : Holder S σ) : List (Rebuild S σ) := h.workers.filterMap Worker.due ++ h.pending.toList

/-- The snapshot in place after the swaps that are next. -/
def settled (h : Holder S σ) : S := h.workers.foldl (fun current w => w.settled current) h.current

/-- Nothing runs and nothing waits. -/
structure Idle (h : Holder S σ) : Prop where
  running : h.running = false
  workers : h.workers = []
  pending : h.pending = none

/-- One worker is at work. -/
structure Busy (h : Holder S σ) (w : Worker S σ) : Prop where
  running : h.running = true
  workers : h.workers = [w]

namespace History

def start (s : S) (world : σ) : History S σ := ⟨.start s, world, [], []⟩

def step (h : History S σ) : Event S σ → History S σ
  | .request b =>
    { h with
      holder := (h.holder.request b).2
      replaced := h.replaced ++ (h.holder.waiting.map (·.number)).toList }
  | .work i =>
    { h with
      holder := (h.holder.work i h.world).1
      world := (h.holder.work i h.world).2
      runs := h.runs ++ ((h.holder.workers[i]?.bind Worker.due).map fun r => ⟨r, (r.build h.world).1⟩).toList }
  | .listen l => { h with holder := h.holder.listen l }
  | .replace s => { h with holder := (h.holder.replace s).2 }

/-- The history after these events. -/
def after (h : History S σ) (events : List (Event S σ)) : History S σ := events.foldl step h

/-- The numbers of the rebuilds that ran. -/
def ran (h : History S σ) : List Nat := h.runs.map (·.rebuild.number)

/-- The rebuilds that ran, then those that are to run. -/
def sequence (h : History S σ) : List (Rebuild S σ) := h.runs.map (·.rebuild) ++ h.holder.due

/-- The last snapshot that a rebuild made. -/
def lastMade (h : History S σ) : Option S := (h.runs.filterMap (·.made)).getLast?

end History

theorem foldl_listen (new : List (Listener S σ)) (h : Holder S σ) :
    new.foldl listen h = { h with listeners := h.listeners ++ new } := by
  induction new generalizing h with
  | nil => rw [List.foldl_nil, List.append_nil]
  | cons l rest ih => rw [List.foldl_cons, ih, listen, List.append_assoc, List.singleton_append]

theorem requested_concat (events : List (Event S σ)) (e : Event S σ) :
    requested (events ++ [e]) = requested events ++ requested [e] := List.filterMap_append

/-- A request takes the place of the rebuild that waits. -/
theorem due_request {h : Holder S σ} (halone : h.Idle ∨ ∃ w, h.Busy w) (b : Build S σ) :
    ∃ before, h.due = before ++ h.waiting.toList ∧ (h.request b).2.due = before ++ [⟨h.asked, b⟩] := by
  obtain ⟨current, running, pending, workers, listeners, asked⟩ := h
  rcases halone with ⟨hrunning, hworkers, hpending⟩ | ⟨w, hrunning, hworkers⟩
  · cases hrunning
    cases hworkers
    cases hpending
    exact ⟨[], rfl, rfl⟩
  · cases hrunning
    cases hworkers
    exact ⟨[w].filterMap Worker.due, rfl, rfl⟩

theorem asked_request (h : Holder S σ) (b : Build S σ) : (h.request b).2.asked = h.asked + 1 := by
  rw [request]
  split <;> rfl

theorem alone_request {h : Holder S σ} (halone : h.Idle ∨ ∃ w, h.Busy w) (b : Build S σ) :
    ∃ w, (h.request b).2.Busy w := by
  rcases halone with ⟨hrunning, hworkers, -⟩ | ⟨w, hrunning, hworkers⟩
  · rw [request, hrunning]
    exact ⟨.building ⟨h.asked, b⟩, rfl, congrArg (· ++ _) hworkers⟩
  · rw [request, hrunning]
    exact ⟨w, rfl, hworkers⟩

theorem settled_request {h : Holder S σ} (halone : h.Idle ∨ ∃ w, h.Busy w) (b : Build S σ) :
    (h.request b).2.settled = h.settled := by
  rcases halone with ⟨hrunning, hworkers, -⟩ | ⟨w, hrunning, hworkers⟩
  · rw [request, hrunning, settled, settled, hworkers]
    rfl
  · rw [request, hrunning]
    rfl

theorem move_of_busy {h : Holder S σ} {w : Worker S σ} (hbusy : h.Busy w) (w' : Worker S σ) :
    h.move 0 w' = { h with workers := [w'] } := by
  rw [move, hbusy.workers]
  rfl

namespace History
variable {h : History S σ} {next : S}

/-- A step of a worker that is not about to run a rebuild. -/
theorem step_work_of_busy {w : Worker S σ} (hbusy : h.holder.Busy w) (hdue : w.due = none) :
    h.step (.work 0) = { h with holder := (h.holder.work 0 h.world).1, world := (h.holder.work 0 h.world).2 } := by
  simp [step, hbusy.workers, hdue]

theorem step_building {r : Rebuild S σ} (hbusy : h.holder.Busy (.building r)) :
    h.step (.work 0) = { h with
      holder := { h.holder with workers := [match (r.build h.world).1 with
        | some next => .swapping next
        | none => .settling] }
      world := (r.build h.world).2
      runs := h.runs ++ [⟨r, (r.build h.world).1⟩] } := by
  rcases hmade : r.build h.world with ⟨_ | next, world⟩ <;>
    simp [step, work, hbusy.workers, Worker.due, hmade, move_of_busy hbusy]

theorem step_swapping (hbusy : h.holder.Busy (.swapping next)) :
    h.step (.work 0) = { h with holder := { h.holder with current := next, workers := [.announcing next] } } := by
  rw [step_work_of_busy hbusy rfl]
  simp [work, hbusy.workers, move, Holder.replace]

theorem step_announcing (hbusy : h.holder.Busy (.announcing next)) :
    h.step (.work 0) =
      { h with holder := { h.holder with workers := [.telling next h.holder.listeners] } } := by
  rw [step_work_of_busy hbusy rfl]
  simp [work, hbusy.workers, move]

theorem step_telling {l : Listener S σ} {rest : List (Listener S σ)}
    (hbusy : h.holder.Busy (.telling next (l :: rest))) :
    h.step (.work 0) = { h with
      holder := { h.holder with
        workers := [.telling next rest], listeners := h.holder.listeners ++ (l.hear next h.world).1 }
      world := (l.hear next h.world).2 } := by
  rw [step_work_of_busy hbusy rfl]
  simp [work, hbusy.workers, move, foldl_listen]

theorem step_told (hbusy : h.holder.Busy (.telling next [])) :
    h.step (.work 0) = { h with holder := { h.holder with workers := [.settling] } } := by
  rw [step_work_of_busy hbusy rfl]
  simp [work, hbusy.workers, move]

theorem step_settling_of_some {r : Rebuild S σ} (hbusy : h.holder.Busy .settling) (hr : h.holder.pending = some r) :
    h.step (.work 0) = { h with holder := { h.holder with workers := [.building r], pending := none } } := by
  rw [step_work_of_busy hbusy rfl]
  simp [work, hbusy.workers, settle, hr, move]

theorem step_settling_of_none (hbusy : h.holder.Busy .settling) (hr : h.holder.pending = none) :
    h.step (.work 0) = { h with holder := { h.holder with running := false, workers := [] } } := by
  rw [step_work_of_busy hbusy rfl]
  simp [work, hbusy.workers, settle, hr]

theorem map_number_sequence (h : History S σ) :
    h.sequence.map (·.number) = h.ran ++ h.holder.due.map (·.number) := by
  rw [sequence, List.map_append, List.map_map]
  rfl

/-- A step of a worker that is not there. -/
theorem step_work_of_none {i : Nat} (hi : h.holder.workers[i]? = none) : h.step (.work i) = h := by
  simp [step, work, hi]

end History

/-- What holds of a holder and its history at any time, `s` being the first snapshot. -/
structure History.Sound (s : S) (events : List (Event S σ)) (h : History S σ) : Prop where
  alone : h.holder.Idle ∨ ∃ w, h.holder.Busy w
  asked : h.holder.asked = (requested events).length
  /-- each request is in the sequence or was replaced -/
  accounted : (h.sequence.map (·.number) ++ h.replaced).Perm (List.range h.holder.asked)
  /-- what was requested last comes last -/
  last : (h.sequence.map (·.number)).getLast? = (List.range h.holder.asked).getLast?
  builds : ∀ r ∈ h.sequence, (requested events)[r.number]? = some r.build
  snapshot : (∀ s', .replace s' ∉ events) → h.holder.settled = h.lastMade.getD s

namespace History.Sound
variable {s : S} {world : σ} {events : List (Event S σ)} {h : History S σ}

theorem start (s : S) (world : σ) : (History.start s world).Sound s [] where
  alone := .inl ⟨rfl, rfl, rfl⟩
  asked := rfl
  accounted := .refl _
  last := rfl
  builds _ hr := nomatch hr
  snapshot _ := rfl

/-- What keeps the sequence, where nothing is requested, is sound again. -/
theorem of_sequence (hs : h.Sound s events) {e : Event S σ} (he : requested [e] = []) {h' : History S σ}
    (halone : h'.holder.Idle ∨ ∃ w, h'.holder.Busy w) (hasked : h'.holder.asked = h.holder.asked)
    (hsequence : h'.sequence = h.sequence) (hreplaced : h'.replaced = h.replaced)
    (hsnapshot : (∀ s', .replace s' ∉ events ++ [e]) → h.holder.settled = h.lastMade.getD s →
      h'.holder.settled = h'.lastMade.getD s) : h'.Sound s (events ++ [e]) := by
  have hevents : requested (events ++ [e]) = requested events := by
    rw [requested_concat, he, List.append_nil]
  refine ⟨halone, ?_, ?_, ?_, ?_, ?_⟩
  · rw [hasked, hevents, hs.asked]
  · rw [hsequence, hreplaced, hasked]
    exact hs.accounted
  · rw [hsequence, hasked]
    exact hs.last
  · rw [hsequence, hevents]
    exact hs.builds
  · intro hr
    exact hsnapshot hr (hs.snapshot fun s' h' => hr s' (List.mem_append_left _ h'))

theorem listen (hs : h.Sound s events) (l : Listener S σ) : (h.step (.listen l)).Sound s (events ++ [.listen l]) :=
  hs.of_sequence rfl (hs.alone.imp (fun ⟨h1, h2, h3⟩ => ⟨h1, h2, h3⟩) (fun ⟨w, h1, h2⟩ => ⟨w, h1, h2⟩)) rfl rfl rfl
    fun _ h => h

theorem replace (hs : h.Sound s events) (s' : S) : (h.step (.replace s')).Sound s (events ++ [.replace s']) :=
  hs.of_sequence rfl (hs.alone.imp (fun ⟨h1, h2, h3⟩ => ⟨h1, h2, h3⟩) (fun ⟨w, h1, h2⟩ => ⟨w, h1, h2⟩)) rfl rfl rfl
    fun h => absurd (List.mem_append_right _ List.mem_cons_self) (h s')

theorem request (hs : h.Sound s events) (b : Build S σ) : (h.step (.request b)).Sound s (events ++ [.request b]) := by
  obtain ⟨before, hold, hnew⟩ := due_request hs.alone b
  have hsequence : (h.step (.request b)).sequence = h.runs.map (·.rebuild) ++ before ++ [⟨h.holder.asked, b⟩] := by
    rw [sequence, List.append_assoc, ← hnew]
    rfl
  have hbefore : h.sequence = h.runs.map (·.rebuild) ++ before ++ h.holder.waiting.toList := by
    rw [sequence, hold, List.append_assoc]
  have hasked : (h.step (.request b)).holder.asked = h.holder.asked + 1 := asked_request h.holder b
  have hevents : requested (events ++ [.request b]) = requested events ++ [b] := requested_concat events _
  refine ⟨.inr (alone_request hs.alone b), ?_, ?_, ?_, ?_, ?_⟩
  · rw [hasked, hevents, List.length_append, hs.asked]
    rfl
  · have hgrown := hs.accounted.append_right [h.holder.asked]
    rw [← List.range_succ, hbefore] at hgrown
    rw [hasked, hsequence]
    refine .trans (List.perm_iff_count.mpr fun n => ?_) hgrown
    simp only [step, List.map_append, List.map_cons, List.map_nil, Option.toList_map, List.count_append]
    omega
  · rw [hasked, hsequence, List.range_succ, List.map_append]
    exact List.getLast?_concat.trans List.getLast?_concat.symm
  · intro r hr
    rw [hsequence, List.mem_append, List.mem_singleton] at hr
    rw [hevents]
    rcases hr with hr | rfl
    · have hthere := hs.builds r (hbefore ▸ List.mem_append_left _ hr)
      rwa [List.getElem?_append_left (List.getElem?_eq_some_iff.mp hthere).1]
    · rw [hs.asked, List.getElem?_concat_length]
  · intro hr
    exact (settled_request hs.alone b).trans (hs.snapshot fun s' h' => hr s' (List.mem_append_left _ h'))

/-- A worker that goes on to a place with the same rebuild and snapshot. -/
theorem goes_on {w : Worker S σ} (hs : h.Sound s events) (hbusy : h.holder.Busy w) (w' : Worker S σ)
    {holder : Holder S σ} {world : σ}
    (hbusy' : holder.Busy w') (hdue : w'.due = w.due) (hsettled : w'.settled holder.current = w.settled h.holder.current)
    (hpending : holder.pending = h.holder.pending) (hasked : holder.asked = h.holder.asked) :
    ({ h with holder, world } : History S σ).Sound s (events ++ [.work 0]) := by
  refine hs.of_sequence rfl (.inr ⟨w', hbusy'⟩) hasked ?_ rfl fun _ hlast => ?_
  · rw [sequence, sequence, due, due, hbusy.workers, hbusy'.workers, hpending, List.filterMap_cons, List.filterMap_cons,
      hdue]
  · rw [settled, hbusy.workers] at hlast
    rw [settled, hbusy'.workers]
    exact hsettled.trans hlast

/-- A rebuild that runs moves from those that are to run to those that ran. -/
theorem runs {r : Rebuild S σ} (hs : h.Sound s events) (hbusy : h.holder.Busy (.building r)) :
    (h.step (.work 0)).Sound s (events ++ [.work 0]) := by
  rw [step_building hbusy]
  refine hs.of_sequence rfl (.inr ⟨_, hbusy.running, rfl⟩) rfl ?_ rfl fun _ hlast => ?_
  · rw [sequence, sequence, due, due, hbusy.workers, List.map_append, List.append_assoc]
    cases (r.build h.world).1 <;> rfl
  · rw [settled, hbusy.workers] at hlast
    cases (r.build h.world).1 with
    | some next => simp [settled, lastMade, Worker.settled]
    | none => exact hlast.trans (by simp [lastMade])

/-- What is pending comes to run next. -/
theorem settles (hs : h.Sound s events) (hbusy : h.holder.Busy .settling) :
    (h.step (.work 0)).Sound s (events ++ [.work 0]) := by
  cases hpending : h.holder.pending with
  | some r =>
    rw [step_settling_of_some hbusy hpending]
    refine hs.of_sequence rfl (.inr ⟨_, hbusy.running, rfl⟩) rfl ?_ rfl fun _ hlast => ?_
    · rw [sequence, sequence, due, due, hbusy.workers, hpending]
      rfl
    · rwa [settled, hbusy.workers] at hlast
  | none =>
    rw [step_settling_of_none hbusy hpending]
    refine hs.of_sequence rfl (.inl ⟨rfl, rfl, hpending⟩) rfl ?_ rfl fun _ hlast => ?_
    · rw [sequence, sequence, due, due, hbusy.workers]
      rfl
    · rwa [settled, hbusy.workers] at hlast

theorem work_of_busy {w : Worker S σ} (hs : h.Sound s events) (hbusy : h.holder.Busy w) :
    (h.step (.work 0)).Sound s (events ++ [.work 0]) := by
  cases w with
  | building r => exact hs.runs hbusy
  | swapping next =>
    rw [step_swapping hbusy]
    exact hs.goes_on hbusy (.announcing next) ⟨hbusy.running, rfl⟩ rfl rfl rfl rfl
  | announcing next =>
    rw [step_announcing hbusy]
    exact hs.goes_on hbusy (.telling next h.holder.listeners) ⟨hbusy.running, rfl⟩ rfl rfl rfl rfl
  | telling next rest =>
    cases rest with
    | cons l rest =>
      rw [step_telling hbusy]
      exact hs.goes_on hbusy (.telling next rest) ⟨hbusy.running, rfl⟩ rfl rfl rfl rfl
    | nil =>
      rw [step_told hbusy]
      exact hs.goes_on hbusy .settling ⟨hbusy.running, rfl⟩ rfl rfl rfl rfl
  | settling => exact hs.settles hbusy

theorem work (hs : h.Sound s events) (i : Nat) : (h.step (.work i)).Sound s (events ++ [.work i]) := by
  cases hi : h.holder.workers[i]? with
  | none =>
    rw [step_work_of_none hi]
    exact hs.of_sequence rfl hs.alone rfl rfl rfl fun _ h => h
  | some w =>
    rcases hs.alone with hidle | ⟨v, hbusy⟩
    · rw [hidle.workers] at hi
      cases hi
    · rw [hbusy.workers, List.getElem?_singleton] at hi
      split at hi
      · rename_i hzero
        rw [hzero]
        exact hs.work_of_busy hbusy
      · cases hi

theorem step (hs : h.Sound s events) (e : Event S σ) : (h.step e).Sound s (events ++ [e]) := by
  cases e with
  | request b => exact hs.request b
  | work i => exact hs.work i
  | listen l => exact hs.listen l
  | replace s' => exact hs.replace s'

theorem after (hs : h.Sound s events) (more : List (Event S σ)) : (h.after more).Sound s (events ++ more) := by
  induction more generalizing h events with
  | nil => rwa [List.append_nil]
  | cons e rest ih =>
    rw [List.append_cons]
    exact ih (hs.step e)

/-- A request that was replaced never runs, and a later one was there to replace it. -/
theorem of_mem_replaced (hs : h.Sound s events) {n : Nat} (hn : n ∈ h.replaced) :
    n ∉ h.ran ∧ n + 1 < (requested events).length := by
  have hnodup := List.nodup_append.mp (hs.accounted.nodup_iff.mpr List.nodup_range)
  have hlt : n < h.holder.asked := List.mem_range.mp (hs.accounted.mem_iff.mp (List.mem_append_right _ hn))
  have hapart : n ∉ h.sequence.map (·.number) := fun h' => hnodup.2.2 n h' n hn rfl
  refine ⟨fun h' => hapart (map_number_sequence h ▸ List.mem_append_left _ h'), ?_⟩
  have hne : n + 1 ≠ h.holder.asked := by
    intro heq
    have hlast := hs.last
    rw [← heq, List.range_succ, List.getLast?_concat] at hlast
    exact hapart (List.mem_of_getLast? hlast)
  rw [← hs.asked]
  omega

/-- What is said of a holder at rest. -/
theorem of_idle (hs : h.Sound s events) (hidle : h.holder.Idle) :
    (∀ n < (requested events).length, h.ran.count n + h.replaced.count n = 1) ∧
      (∀ n, n + 1 = (requested events).length → h.ran.getLast? = some n) ∧
      ((∀ s', .replace s' ∉ events) → h.holder.current = h.lastMade.getD s) := by
  have hran : h.sequence.map (·.number) = h.ran := by
    rw [map_number_sequence, due, hidle.workers, hidle.pending]
    exact List.append_nil _
  have haccounted := hs.accounted
  have hlast := hs.last
  rw [hran, hs.asked] at haccounted hlast
  refine ⟨fun n hn => ?_, fun n hn => ?_, fun hr => ?_⟩
  · rw [← List.count_append, haccounted.count_eq, List.count_range, if_pos hn]
  · rw [hlast, ← hn, List.range_succ, List.getLast?_concat]
  · have hsnapshot := hs.snapshot hr
    rwa [settled, hidle.workers] at hsnapshot

end History.Sound

/-- What requests come to, whatever comes between the steps of the workers. One worker at most is at work, and while
none is nothing waits. A request says whether it started a worker. At rest each request has run once or gave way to a
later one before it ran, the last one ran last, and the snapshot is the last one that was made. A build that fails
leaves everything but the place of its worker. -/
theorem rebuilding (s : S) (world : σ) (events : List (Event S σ)) :
    let h := (History.start s world).after events
    h.holder.workers.length ≤ 1 ∧
      (h.holder.isRebuilding = true ↔ h.holder.workers ≠ []) ∧
      (h.holder.isRebuilding = false → h.holder.pending = none) ∧
      (∀ b, (h.holder.request b).1 = true ↔ ∃ w, (h.holder.request b).2.workers = h.holder.workers ++ [w]) ∧
      (∀ run ∈ h.runs, (requested events)[run.rebuild.number]? = some run.rebuild.build) ∧
      (∀ n ∈ h.replaced, n ∉ h.ran ∧ n + 1 < (requested events).length) ∧
      (h.holder.isRebuilding = false →
        (∀ n < (requested events).length, h.ran.count n + h.replaced.count n = 1) ∧
        (∀ n, n + 1 = (requested events).length → h.ran.getLast? = some n) ∧
        ((∀ s', .replace s' ∉ events) → h.holder.current = h.lastMade.getD s)) ∧
      (∀ i r, h.holder.workers[i]? = some (.building r) → (r.build h.world).1 = none →
        (h.holder.work i h.world).1 = h.holder.move i .settling) := by
  intro h
  have hs : h.Sound s events := (History.Sound.start s world).after events
  have hidle (hnot : h.holder.isRebuilding = false) : h.holder.Idle :=
    hs.alone.resolve_right fun ⟨w, hbusy⟩ => nomatch hbusy.running.symm.trans hnot
  refine ⟨?_, ?_, fun hnot => (hidle hnot).pending, fun b => ?_, fun run hrun => ?_, fun n => hs.of_mem_replaced,
    fun hnot => hs.of_idle (hidle hnot), fun i r hi hmade => ?_⟩
  · rcases hs.alone with hidle | ⟨w, hbusy⟩
    · rw [hidle.workers]
      exact Nat.zero_le 1
    · rw [hbusy.workers]
      exact Nat.le_refl 1
  · rcases hs.alone with hidle | ⟨w, hbusy⟩
    · simp [isRebuilding, hidle.running, hidle.workers]
    · simp [isRebuilding, hbusy.running, hbusy.workers]
  · rw [request]
    cases h.holder.running <;> simp
  · exact hs.builds _ (List.mem_append_left _ (List.mem_map_of_mem hrun))
  · rcases hbuild : r.build h.world with ⟨made, world'⟩
    rw [hbuild] at hmade
    cases hmade
    rw [work, hi]
    dsimp only
    rw [hbuild]

/-- Three requests, of which the second gives way to the third, and the steps until nothing is left to do. -/
def threeRequests : List (Event Nat Unit) :=
  [.request fun world => (some 1, world), .work 0, .request fun world => (none, world),
    .request fun world => (some 3, world)] ++ List.replicate 9 (.work 0)

theorem rebuilding_threeRequests :
    let h := (History.start 0 ()).after threeRequests
    h.holder.isRebuilding = false ∧ h.ran = [0, 2] ∧ h.replaced = [1] ∧ h.holder.current = 3 ∧
      ∀ n < (requested threeRequests).length, h.ran.count n + h.replaced.count n = 1 := by
  have hidle : ((History.start 0 ()).after threeRequests).holder.isRebuilding = false := rfl
  exact ⟨hidle, rfl, rfl, rfl, ((rebuilding 0 () threeRequests).2.2.2.2.2.2.1 hidle).1⟩

/-! ## Waiting -/

/-- The history after so many steps of the first worker. -/
theorem after_work (h : History S σ) (n : Nat) :
    workFor n h.holder h.world =
      ((h.after (.replicate n (.work 0))).holder, (h.after (.replicate n (.work 0))).world) := by
  induction n generalizing h with
  | zero => rfl
  | succ n ih => exact ih (h.step (.work 0))

/-- A step takes what is pending or comes nearer to it. -/
theorem unsettled_step {h : History S σ} {w : Worker S σ} (hbusy : h.holder.Busy w) :
    (h.step (.work 0)).holder.pending = none ∧ h.holder.pending ≠ none ∨
      (h.step (.work 0)).holder.pending = h.holder.pending ∧
        (h.step (.work 0)).holder.unsettled < h.holder.unsettled := by
  rw [unsettled, unsettled, hbusy.workers]
  cases w with
  | building r =>
    rw [History.step_building hbusy]
    refine .inr ⟨rfl, ?_⟩
    cases (r.build h.world).1 <;> simp
  | swapping next =>
    rw [History.step_swapping hbusy]
    exact .inr ⟨rfl, Nat.lt_succ_self _⟩
  | announcing next =>
    rw [History.step_announcing hbusy]
    exact .inr ⟨rfl, Nat.lt_succ_self _⟩
  | telling next rest =>
    cases rest with
    | cons l rest =>
      rw [History.step_telling hbusy]
      exact .inr ⟨rfl, Nat.lt_succ_self _⟩
    | nil =>
      rw [History.step_told hbusy]
      exact .inr ⟨rfl, Nat.lt_succ_self _⟩
  | settling =>
    cases hpending : h.holder.pending with
    | some r =>
      rw [History.step_settling_of_some hbusy hpending]
      exact .inl ⟨rfl, nofun⟩
    | none =>
      rw [History.step_settling_of_none hbusy hpending]
      exact .inr ⟨hpending, Nat.lt_succ_self _⟩

namespace History.Sound
variable {s : S} {events : List (Event S σ)} {h : History S σ}

theorem idle_of_unsettled (hs : h.Sound s events) (hn : h.holder.unsettled ≤ 0) : h.holder.Idle := by
  refine hs.alone.resolve_right fun ⟨w, hbusy⟩ => ?_
  rw [unsettled, hbusy.workers] at hn
  rcases w with r | next | next | ⟨next, rest⟩ | _ <;> exact absurd hn (Nat.not_succ_le_zero _)

/-- With enough steps nothing is pending, however long that was so already. -/
theorem pending_after_work (hs : h.Sound s events) {n : Nat}
    (hn : h.holder.pending = none ∨ h.holder.unsettled ≤ n) :
    (h.after (.replicate n (.work 0))).holder.pending = none := by
  induction n generalizing h events with
  | zero => exact hn.elim id fun hn => (hs.idle_of_unsettled hn).pending
  | succ n ih =>
    refine ih (hs.step (.work 0)) ?_
    rcases hs.alone with hidle | ⟨w, hbusy⟩
    · rw [step_work_of_none (by rw [hidle.workers]; rfl)]
      exact .inl hidle.pending
    · rcases unsettled_step hbusy with ⟨hnone, -⟩ | ⟨heq, hlt⟩
      · exact .inl hnone
      · exact hn.imp heq.trans fun hn => Nat.le_of_lt_succ (Nat.lt_of_lt_of_le hlt hn)

theorem idle_after_work (hs : h.Sound s events) (hpending : h.holder.pending = none) {n : Nat}
    (hn : h.holder.unsettled ≤ n) : (h.after (.replicate n (.work 0))).holder.Idle := by
  induction n generalizing h events with
  | zero => exact hs.idle_of_unsettled hn
  | succ n ih =>
    rcases hs.alone with hidle | ⟨w, hbusy⟩
    · have hstay : h.step (.work 0) = h := step_work_of_none (by rw [hidle.workers]; rfl)
      refine ih (hs.step (.work 0)) (by rw [hstay, hpending]) ?_
      rw [hstay, unsettled, hidle.workers]
      exact Nat.zero_le n
    · rcases unsettled_step hbusy with ⟨-, hsome⟩ | ⟨heq, hlt⟩
      · exact absurd hpending hsome
      · exact ih (hs.step (.work 0)) (heq.trans hpending) (Nat.le_of_lt_succ (Nat.lt_of_lt_of_le hlt hn))

end History.Sound

/-- Waiting comes to an end. -/
theorem isRebuilding_wait (s : S) (world : σ) (events : List (Event S σ)) :
    let h := (History.start s world).after events
    (h.holder.wait h.world).1.isRebuilding = false := by
  intro h
  have hs : h.Sound s events := (History.Sound.start s world).after events
  have hpending := hs.pending_after_work (.inr (Nat.le_refl _))
  rw [wait, after_work]
  dsimp only
  rw [after_work]
  exact ((hs.after _).idle_after_work hpending (Nat.le_refl _)).running

end Holder
end AssetPack
