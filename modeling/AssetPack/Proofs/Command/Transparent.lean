import AssetPack.Proofs.Command.Executed
import AssetPack.Proofs.Files.Unchanged
import AssetPack.Proofs.Pack.Current

/-!
# When a build may do nothing

A build does nothing if its output is a pack that lists the description and is not older than any file it
lists. That alone does not tell that the pack was made from this description, nor how. If it was, by a build
that asked about nothing but the files it lists and left them alone, then the pack is what would be made again,
whatever was written or built in the meantime.
-/
namespace AssetPack
open Compiling (Ends)

instance : (q : Question) → DecidableEq q.Answer
  | .canonical _ => inferInstanceAs (DecidableEq (Except FileError Path))
  | .read _ => inferInstanceAs (DecidableEq (Except FileError Bytes))
  | .status _ => inferInstanceAs (DecidableEq (Option Status))

/-- The question is plainly about a listed file: the path has a canonical name, and what is read goes by a
listed one. -/
def Question.isListed (fs : Files) (files : List Path) : Question → Bool
  | canonical p => (fs.canonical p).isOk
  | read p => (fs.read p).isOk && files.any fun f => Path.same f ((Look.settle p).eval fs)
  | status _ => false

theorem Question.listed_of_isListed {fs : Files} {files : List Path} {q : Question} (h : q.isListed fs files = true) :
    q.Listed fs files := by
  cases q with
  | canonical p =>
    rw [isListed] at h
    cases hp : fs.canonical p with
    | ok q => exact .canonical hp
    | error e =>
      rw [hp] at h
      cases h
  | read p =>
    obtain ⟨hread, hfiles⟩ := (Bool.and_eq_true ..).mp h
    obtain ⟨f, hf, hsame⟩ := List.any_eq_true.mp hfiles
    refine ⟨?_, f, hf, hsame⟩
    cases hp : fs.read p with
    | ok bs => exact ⟨bs, rfl⟩
    | error e =>
      rw [hp] at hread
      cases hread
  | status p => cases h

namespace Command

/-- Something that happens to a disk. -/
inductive Event where
  | write (p : Path) (bs : Bytes)
  | build (r : BuildRequest)

/-- The disk after an event. -/
def Event.on (d : Disk) : Event → Disk
  | write p bs => (d.write p bs).2
  | build r => ((Command.build r).report.run.runOn d).2

/-- The disk after events, one after the other. -/
def history (d : Disk) (events : List Event) : Disk := events.foldl Event.on d

theorem history_append (d : Disk) (before after : List Event) :
    history d (before ++ after) = history (history d before) after := List.foldl_append

theorem Event.later (e : Event) {d : Disk} (hd : d.Sound) : d.Later (e.on d) := by
  cases e with
  | write p bs => exact Disk.later_write hd p bs
  | build r =>
    refine Script.later_runOn hd (Plan.Asks.bind (sparing_build r .empty) fun r => ?_)
    match r with
    | none => trivial
    | some (.ok (), _) => trivial
    | some (.error _, _) => trivial

theorem later_history {d : Disk} (hd : d.Sound) (events : List Event) : d.Later (history d events) := by
  induction events generalizing d with
  | nil => exact .refl hd
  | cons e rest ih =>
    have hfirst := e.later hd
    exact hfirst.trans (ih hfirst.sound)

/-- What is not as it was at first was changed by some event for the last time. -/
theorem exists_last_change {α : Type} (f : List Event → α) {events : List Event} (h : f events ≠ f []) :
    ∃ before e after, events = before ++ e :: after ∧ f (before ++ [e]) ≠ f before ∧ f events = f (before ++ [e]) := by
  induction events using List.reverseRecOn with
  | nil => exact (h rfl).elim
  | append_singleton events e ih =>
    by_cases hlast : f (events ++ [e]) = f events
    · obtain ⟨before, e', after, rfl, hchange, hkept⟩ := ih (hlast ▸ h)
      refine ⟨before, e', after ++ [e], by simp, hchange, hlast.trans hkept⟩
    · exact ⟨events, e, [], rfl, hlast, rfl⟩

namespace BuildRequest

/-- If the build finds nothing to do, its output holds what it would write if it were forced. -/
def Transparent (r : BuildRequest) (d : Disk) : Prop :=
  r.isCurrent.eval d.files = true →
    ∃ pack, Ends d.files r.compiling () pack () ∧ d.files.read r.outputPath = .ok pack.encode

/-- The questions that the compile of a build asks. -/
def asked (fs : Files) (r : BuildRequest) : List Question := (((r.compiling.run).run ()).run).asked fs

/-- The build `made` puts a pack of the same description, made in the same way, where the build `r` has its
output. It asks about nothing but files that this pack lists when it is read back, and leaves them as they
were. -/
structure Serves (made r : BuildRequest) (d : Disk) (pack : Dict Value) : Prop where
  ends : Ends d.files made.compiling () pack ()
  source : ∃ q, d.canonical made.input = .ok q ∧ d.canonical r.input = .ok q
  debug : r.debug = made.debug
  listed : ∀ e, Dict.decode pack.encode = .ok e → ∀ q ∈ made.asked d.files, q.Listed d.files (Pack.files e)
  undisturbed : ∀ q ∈ made.asked d.files, ((Event.build made).on d).files.answer q = d.files.answer q
  written : ((Event.build made).on d).files.read r.outputPath = .ok pack.encode

variable {d d' : Disk} {made r : BuildRequest} {pack : Dict Value}

/-- As long as the output is left alone, a build that would do nothing would write the same again. -/
theorem Serves.transparent (h : made.Serves r d pack) (hd : d.Sound) (hlater : ((Event.build made).on d).Later d')
    (houtput : d'.files.status r.outputPath = ((Event.build made).on d).files.status r.outputPath) :
    r.Transparent d' := by
  have hbuilt := (Event.build made).later hd
  intro hcurrent
  obtain ⟨_, _, hupdated⟩ := (eval_isCurrent r).mp hcurrent
  obtain ⟨e, s, t, _, hload, hs, ht, _⟩ := (Cache.eval_isUpdated r.input r.outputPath).mp hupdated
  obtain ⟨s', bs, hs', hread, hdecode, hfiles⟩ := (Cache.eval_load? r.outputPath e).mp hload
  obtain rfl := Option.some.inj (hs'.symm.trans hs)
  -- the output is as old as it was, so it is still the pack that was made
  have hold : s'.time ≤ ((Event.build made).on d).clock := hbuilt.sound.time_le (houtput ▸ hs)
  have hpack := hlater.read h.written hs hold
  obtain rfl := Except.ok.inj (hread.symm.trans hpack)
  -- and the files that it lists are not newer, so what was asked about them has the same answers
  have hanswers : ∀ q ∈ made.asked d.files, d'.files.answer q = d.files.answer q := by
    intro q hq
    have hsame := h.undisturbed q hq
    refine (hlater.answer_of_listed hbuilt.sound (fun f hf => ?_)
      (hbuilt.listed hd (h.listed e hdecode q hq) hsame)).trans hsame
    obtain ⟨u, hu, hle⟩ := hfiles f hf
    exact ⟨u, hu, Nat.le_trans hle hold⟩
  have hends : Ends d'.files made.compiling () pack () := (Look.eval_congr hanswers).trans h.ends
  have hall := hbuilt.trans hlater
  obtain ⟨q, hmade, hsource⟩ := h.source
  obtain ⟨text, htext⟩ := hends.exists_read
  have hmade := (hall.canonical hd (.canonical hmade)).trans hmade
  have hsource := (hall.canonical hd (.canonical hsource)).trans hsource
  have hread := Disk.read_congr hall.sound hmade hsource htext ht
  refine ⟨pack, ?_, hpack⟩
  have hoptions : r.options = made.options := by rw [options, options, h.debug]
  rw [compiling, hoptions]
  exact hends.of_same (hread.trans htext.symm) hmade hsource

end BuildRequest

/-- Whatever was written and built before, if a build finds nothing to do, then its output holds what it would
write if it were forced to. All that was ever put there must have been put there by builds that serve it. -/
theorem BuildRequest.transparent_history {d : Disk} (hd : d.Sound) (events : List Event) (r : BuildRequest)
    (hnew : d.files.status r.outputPath = none)
    (hserved : ∀ before e after, events = before ++ e :: after →
      (history d (before ++ [e])).files.status r.outputPath ≠ (history d before).files.status r.outputPath →
      ∃ made pack, e = .build made ∧ made.Serves r (history d before) pack) :
    r.Transparent (history d events) := by
  intro hcurrent
  have hthere : (history d events).files.status r.outputPath ≠ (history d []).files.status r.outputPath := by
    obtain ⟨_, _, hupdated⟩ := (eval_isCurrent r).mp hcurrent
    obtain ⟨_, s, _, _, _, hs, _⟩ := (Cache.eval_isUpdated r.input r.outputPath).mp hupdated
    rw [hs, history, List.foldl_nil, hnew]
    exact Option.some_ne_none s
  obtain ⟨before, e, after, rfl, hchange, hkept⟩ :=
    exists_last_change (fun events => (history d events).files.status r.outputPath) hthere
  obtain ⟨made, pack, rfl, hserves⟩ := hserved before e after rfl hchange
  have hsound := (later_history hd before).sound
  have hlater := later_history ((Event.build made).later hsound).sound after
  have hbuilt : history d (before ++ [.build made]) = (Event.build made).on (history d before) := history_append ..
  have hend : history d (before ++ .build made :: after) = history ((Event.build made).on (history d before)) after :=
    history_append ..
  rw [hend] at hkept hcurrent ⊢
  rw [hbuilt] at hkept
  exact hserves.transparent hsound hlater hkept hcurrent

/-- A disk with nothing on it. -/
def blankDisk : Disk := ⟨[], [], "/tmp", 0⟩

theorem sound_blankDisk : blankDisk.Sound := by
  refine ⟨fun _ hname => (nomatch hname), fun place e he => ?_, fun place name hname => ?_⟩
  · cases place with
    | nil =>
      cases he
      exact Nat.le_refl 0
    | cons name rest => cases he
  · cases place <;> cases hname

/-- A request to build a description into the pack "o". -/
def requestFor (input : Path) : BuildRequest := ⟨input, some "o", none, none, none, false, false, false, true⟩

/-- A description is written, and then one that names it and itself. -/
def twoFiles : List Event :=
  [.write "b" (Bytes.ofString "\x7b\"x\": 1\x7d"),
    .write "a" (Bytes.ofString "\x7b\"f\": \"file:a\", \"g\": \"file:b\"\x7d")]

theorem transparent_history_twoFiles :
    let events := twoFiles ++ [.build (requestFor "a"), .write "c" []]
    (requestFor "a").isCurrent.eval (history blankDisk events).files = true ∧
      (requestFor "a").Transparent (history blankDisk events) := by
  obtain ⟨pack, ⟨⟩, hends, hlisted, hundisturbed, hwritten⟩ : ∃ pack w',
      Ends (history blankDisk twoFiles).files (requestFor "a").compiling () pack w' ∧
        (∀ e ∈ (Dict.decode pack.encode).toOption, ∀ q ∈ (requestFor "a").asked (history blankDisk twoFiles).files,
          q.isListed (history blankDisk twoFiles).files (Pack.files e) = true) ∧
        (∀ q ∈ (requestFor "a").asked (history blankDisk twoFiles).files,
          ((Event.build (requestFor "a")).on (history blankDisk twoFiles)).files.answer q =
            (history blankDisk twoFiles).files.answer q) ∧
        ((Event.build (requestFor "a")).on (history blankDisk twoFiles)).files.read (requestFor "a").outputPath =
          .ok pack.encode := by
    decide +kernel
  have hserves : (requestFor "a").Serves (requestFor "a") (history blankDisk twoFiles) pack := by
    refine ⟨hends, ⟨"/a", by decide +kernel, by decide +kernel⟩, rfl, fun e he q hq => ?_, hundisturbed, hwritten⟩
    refine Question.listed_of_isListed (hlisted e ?_ q hq)
    rw [he, Except.toOption, Option.mem_some]
  refine ⟨by decide +kernel, BuildRequest.transparent_history sound_blankDisk _ _ (by decide +kernel) ?_⟩
  intro before e after hevents hchange
  rcases before with _ | ⟨_, _ | ⟨_, _ | ⟨_, _ | ⟨_, before⟩⟩⟩⟩
  · cases hevents
    exact absurd (by decide +kernel) hchange
  · cases hevents
    exact absurd (by decide +kernel) hchange
  · cases hevents
    exact ⟨_, pack, rfl, hserves⟩
  · cases hevents
    exact absurd (by decide +kernel) hchange
  · simp [twoFiles] at hevents

/-- The pack of a description that names another is taken for a pack of that other one. -/
theorem not_transparent_foreign :
    let d := history blankDisk (twoFiles ++ [.build (requestFor "a")])
    ((build (requestFor "b")).report.run.runOn d).1 = some ⟨0, ⟨[.text ((Json.ofMembers [("input", .string "b"),
      ("output", .string "o"), ("status", .string "up_to_date"), ("entries", .ofNat 2),
      ("files", .ofTexts ["/a", "/b"])]).text ++ "\n")], []⟩⟩ ∧
    ((Event.build { requestFor "b" with force := true }).on d).files.read "o" ≠ d.files.read "o" ∧
    ¬(requestFor "b").Transparent d := by
  refine ⟨by decide +kernel, by decide +kernel, fun h => ?_⟩
  obtain ⟨pack, hends, hread⟩ := h (by decide +kernel)
  obtain ⟨pack', ⟨⟩, hends', hother⟩ : ∃ pack' w',
      Ends (history blankDisk (twoFiles ++ [.build (requestFor "a")])).files (requestFor "b").compiling () pack' w' ∧
        (history blankDisk (twoFiles ++ [.build (requestFor "a")])).files.read (requestFor "b").outputPath ≠
          .ok pack'.encode := by
    decide +kernel
  obtain rfl : pack = pack' := (Prod.mk.inj (Option.some.inj (hends.symm.trans hends'))).1 |> Except.ok.inj
  exact hother hread

-- a pack that was made for debugging is taken for one that was not
example : (requestFor "b").isCurrent.eval
    (history blankDisk (twoFiles ++ [.build { requestFor "b" with debug := true }])).files = true := by
  decide +kernel

end Command
end AssetPack
