import AssetPack.Proofs.Description.Closed
import AssetPack.Proofs.Description.Entries
import AssetPack.Proofs.Description.Names
import AssetPack.Proofs.Description.Passes
import AssetPack.Proofs.Files.Edited
import AssetPack.Proofs.Pack.Combined

/-!
# Caches that are up to date

A cache that was made anew is found to be up to date for as long as the description and all files that its pack lists
are there and none is newer. The description is found in the list by its canonical name, so it must have one.
-/
namespace AssetPack
variable {σ S : Type} {fs : Files} {d e : Dict Value}

/-! ## Packs have no name twice -/

theorem distinct_addSiblings (hd : d.Distinct) (roots : List (String × Resource σ)) (context : Context) :
    (addSiblings roots d context).1.Distinct := by
  unfold addSiblings
  refine List.foldlRecOn (motive := fun s : Dict Value × Context × List Issue => s.1.Distinct) roots _ hd
    fun s hs root _ => ?_
  refine List.foldlRecOn (motive := fun s : Dict Value × Context × List Issue => s.1.Distinct) _ _ hs
    fun s hs sibling _ => ?_
  unfold addSibling
  dsimp only
  split
  · exact hs
  · exact Dict.distinct_set hs _ _

theorem distinct_withMetadata (hd : d.Distinct) (context : Context) : (withMetadata context d).Distinct :=
  Outlasts.withMetadata (P := Dict.Distinct)
    ⟨fun _ name v he _ _ => Dict.distinct_set he name v, fun _ _ name _ he _ => Dict.distinct_set he name _⟩ hd

/-- A pass that finds nothing leaves no name twice. -/
theorem Pass.distinct_of_run {registry : Registry σ} {p : Ended σ} (pass : Pass) (hd : d.Distinct)
    (h : (pass.run fs registry p d).concluded = .ok e) : e.Distinct := by
  obtain ⟨hdict, hissues⟩ := Context.of_conclude h
  obtain ⟨hissues, -⟩ := List.append_eq_nil_iff.mp hissues
  cases pass with
  | files =>
    have hnames := (frank_locate fs).names_of_visitRoot (d := d) (s := p.context) rfl hissues hdict
    rwa [Dict.Distinct, hnames]
  | references =>
    have hnames := (frank_resolveRef d).names_of_visitRoot (d := d) (s := ⟨[]⟩) rfl
      (List.append_eq_nil_iff.mp hissues).1 hdict
    rwa [Dict.Distinct, hnames]
  | objects =>
    have hnames := (frank_load fs registry).names_of_visitRoot (d := d) (s := ⟨p.context, [], p.world⟩) rfl
      hissues hdict
    rwa [Dict.Distinct, hnames]
  | finishing =>
    cases hdict
    exact hd
  | saving =>
    cases hdict
    have hsaved : (saveRoots p.roots d).1.Distinct := distinct_foldl_saveRoot (s := (d, [])) hd p.roots
    exact distinct_addSiblings hsaved p.roots p.context

/-- What the last pass is concluded with has no name twice if what the first was concluded with has none. -/
theorem Ended.distinct_of_ends {registry : Registry σ} {passes : List Pass} {p last : Ended σ}
    (hlast : (p.ends fs registry passes).getLast? = some last)
    (hp : ∀ d, p.concluded = .ok d → d.Distinct) (he : last.concluded = .ok e) : e.Distinct := by
  induction passes generalizing p with
  | nil =>
    cases hlast
    exact hp e he
  | cons pass rest ih =>
    cases hconcluded : p.concluded with
    | ok d =>
      rw [getLast?_ends_of_ok hconcluded] at hlast
      exact ih hlast fun d' hd' => pass.distinct_of_run (hp d hconcluded) hd'
    | error issues =>
      rw [ends_of_error hconcluded] at hlast
      cases hlast
      exact hp e he

namespace Compiling.Ends
variable {fuel : Nat} {o : Options σ} {base p : Path} {text : String} {w w' : σ}

theorem distinct_of_compile (hd : (Value.dict d).Distinct) (hlocalize : ∀ name, AnswersDistinct (o.localize name))
    (h : Ends fs (d.compile fuel o base) w e w') : e.Distinct := by
  have heval : Compiling.eval fs (d.compile fuel o base) w = some (.ok e, w') := h
  rw [Dict.eval_compile] at heval
  obtain ⟨last, hlast, houtcome⟩ := Option.map_eq_some_iff.mp heval
  obtain ⟨made, hmade, rfl⟩ := Ended.of_outcome_ok (congrArg Prod.fst houtcome)
  refine distinct_withMetadata ?_ _
  cases hexpand : (d.expand fuel o.localize (.start base o.debug)).run.eval fs with
  | none =>
    rw [Dict.ends, hexpand] at hlast
    cases hlast
  | some result =>
    rw [Dict.ends_of_expand hexpand] at hlast
    refine Ended.distinct_of_ends hlast (fun expanded hconcluded => ?_) hmade
    exact (Value.distinct_dict.mp (Dict.distinct_of_expand hd hlocalize hexpand (Context.of_conclude hconcluded).1)).1

theorem distinct_of_compileText (hlocalize : ∀ name, AnswersDistinct (o.localize name))
    (h : Ends fs (compileText fuel o base text) w e w') : e.Distinct := by
  rw [compileText] at h
  cases hparse : Json.parseDict text with
  | error f =>
    rw [hparse] at h
    exact (not_of_throw h).elim
  | ok d =>
    rw [hparse] at h
    exact distinct_of_compile (Value.Of.distinct (Json.of_parseDict hparse)) hlocalize h

theorem distinct_of_compileSource (hlocalize : ∀ name, AnswersDistinct (o.localize name))
    (h : Ends fs (compileSource fuel o p) w e w') : e.Distinct := by
  obtain ⟨text, made, -, hmade, rfl⟩ := h.of_compileSource
  exact Dict.distinct_set (Dict.distinct_set (hmade.distinct_of_compileText hlocalize) _ _) _ _

end Compiling.Ends

/-! ## What is found up to date -/

/-- A pack lists the same files when it was read back. -/
theorem Pack.files_of_decode (hfits : (Value.dict d).Fits) (hlen : d.encode.length < lengthLimit) (hd : d.Distinct)
    (h : Dict.decode d.encode = .ok e) : Pack.files e = Pack.files d := by
  cases Value.eq_stored_of_load hfits hlen hd h
  exact (Pack.files_alike (d.alike_stored 0)).symm

/-- The cache and all these files are there, and none of them is newer than the cache. -/
def Cache.Fresh (fs : Files) (cache : Path) (files : List Path) : Prop :=
  ∃ c, fs.status cache = some c ∧ Cache.Current fs c.time files

/-- Between these answers other files than the cache may have been edited, touched and removed. A path that still leads
somewhere leads where it did. -/
structure Files.EditedBeside (cache : Path) (fs fs' : Files) : Prop where
  read : fs'.read cache = fs.read cache
  status : fs'.status cache = fs.status cache
  canonical : ∀ p q, fs.canonical p = .ok q → (fs'.status p).isSome → fs'.canonical p = .ok q

/-- In the second state the pack is in its cache and can be read back. If the description had a canonical name in the
first state, it still has it, and so has that name itself. -/
structure FileSystem.Caches (m : FileSystem S) (s s' : S) (source cache : Path) (d : Dict Value) : Prop where
  written : (m.files s').read cache = .ok d.encode
  readable : ∃ e, Dict.decode d.encode = .ok e
  canonical : ∀ q, (m.files s).canonical source = .ok q →
    (m.files s').canonical source = .ok q ∧ (m.files s').canonical q = .ok q

namespace CompilingFile
variable {m : FileSystem S} {s : S} {fuel : Nat} {o : Options σ} {p cache : Path} {w w' : σ} {fs' : Files}

/-- The state in which a compile leaves the file system. -/
def left (m : FileSystem S) (s : S) (x : CompilingFile σ Outcome) (w : σ) : S := (m.run s (x.run w).run).2

/-- A compile that writes its pack leaves what the writing leaves. -/
theorem left_eq (h : Ends m s (compileFile fuel o p (.rebuild cache)) w d w')
    (hwritten : (m.run s (Pack.write cache d)).1 = .ok ()) :
    left m s (compileFile fuel o p (.rebuild cache)) w = (m.run s (Pack.write cache d)).2 := by
  have hends : Compiling.Ends (m.files s) (compileSource fuel o p) w d w' := ends_iff.mp h
  have heval : (((compileSource fuel o p).run).run w).run.eval (m.files s) = some (.ok d, w') := hends
  have hkeep : m.run s (keepIn cache d) = ((), (m.run s (Pack.write cache d)).2) := by
    rw [keepIn, FileSystem.run_bind, hwritten]
    rfl
  rw [left, run_compileFile, FileSystem.run_bind, FileSystem.run_toScript]
  change (m.run s ((((compileSource fuel o p).run).run w).run.toScript >>= (CacheMode.rebuild cache).keepOutcome)).2 = _
  rw [FileSystem.run_bind, FileSystem.run_toScript, heval]
  change (m.run s (keepIn cache d >>= fun _ => (pure (some (Except.ok d, w')) : Script (Option (Outcome × σ))))).2 = _
  rw [FileSystem.run_bind, hkeep]
  rfl

end CompilingFile

/-! ## Disks that are edited -/

namespace Disk
variable {disk disk' : Disk} {places : List Place} {cache : Path}

/-- Edits elsewhere are edits beside the cache. -/
theorem EditedAt.editedBeside (h : disk.EditedAt places disk') {bs : Bytes}
    (hread : (system.files disk).read cache = .ok bs) (hcache : disk.aim cache ∉ places) :
    (system.files disk).EditedBeside cache (system.files disk') := by
  obtain ⟨place, hplace, hbytes⟩ := exists_of_read hread
  rw [← eq_aim_of_resolve hplace] at hcache
  obtain ⟨hsame, hstatus⟩ := h.of_resolve hplace hbytes hcache
  exact ⟨hsame, hstatus, fun p q hq hthere => h.canonical hq hthere⟩

/-- A compile whose pack can be written and read back leaves it in the cache. -/
theorem caches_of_ends {fuel : Nat} {o : Options σ} {p : Path} {w w' : σ} (hdisk : disk.Sound)
    (h : CompilingFile.Ends system disk (compileFile fuel o p (.rebuild cache)) w d w')
    (hsettled : ∀ q, (system.files disk).canonical p = .ok q → (system.files disk).canonical q = .ok q)
    (hwritten : (system.run disk (Pack.write cache d)).1 = .ok ()) (hback : ∃ e, Dict.decode d.encode = .ok e) :
    system.Caches disk (CompilingFile.left system disk (compileFile fuel o p (.rebuild cache)) w) p cache d := by
  rw [CompilingFile.left_eq h hwritten]
  have hlater := later_run_write hdisk hwritten
  have hkeeps : system.Keeps disk cache d [] := keeps_write hdisk hwritten fun _ h => nomatch h
  refine ⟨hkeeps.read, hback, fun q hq => ⟨?_, ?_⟩⟩
  · exact (hlater.canonical hdisk (.canonical hq)).trans hq
  · exact (hlater.canonical hdisk (.name hq)).trans (hsettled q hq)

end Disk

/-! ## Whether a cache is up to date -/

theorem exists_of_isOk {ε α : Type} {x : Except ε α} (h : x.isOk) : ∃ a, x = .ok a := by
  cases x with
  | ok a => exact ⟨a, rfl⟩
  | error e => cases h

namespace CompilingFile
variable {m : FileSystem S} {s : S} {fuel : Nat} {o : Options σ} {p cache : Path} {w w' : σ} {fs' : Files}

/-- A cache that was made anew is up to date as long as the description and all files that its pack lists are there and
none is newer, whatever is done to other files than the cache. The description must also have a canonical name, by which
it is looked for in the list. It has one if it had one when it was compiled. -/
theorem isUpdated_iff (hlocalize : ∀ name, AnswersDistinct (o.localize name))
    (h : Ends m s (compileFile fuel o p (.rebuild cache)) w d w') (hfits : (Value.dict d).Fits)
    (hlen : d.encode.length < lengthLimit)
    (hcached : m.Caches s (left m s (compileFile fuel o p (.rebuild cache)) w) p cache d)
    (hedited : (m.files (left m s (compileFile fuel o p (.rebuild cache)) w)).EditedBeside cache fs') :
    ((Cache.isUpdated p cache).eval fs' = true ↔
      Cache.Fresh fs' cache (p :: Pack.files d) ∧ ∃ q, fs'.canonical p = .ok q) ∧
    ((∃ q, (m.files s).canonical p = .ok q) →
      ((Cache.isUpdated p cache).eval fs' = true ↔ Cache.Fresh fs' cache (p :: Pack.files d))) := by
  have hends : Compiling.Ends (m.files s) (compileSource fuel o p) w d w' := ends_iff.mp h
  obtain ⟨e, he⟩ := hcached.readable
  have hfiles : Pack.files e = Pack.files d :=
    Pack.files_of_decode hfits hlen (hends.distinct_of_compileSource hlocalize) he
  have hread : fs'.read cache = .ok d.encode := hedited.read.trans hcached.written
  -- the canonical name that the description had is the one that it has, and the one of that name
  have hnamed {q : Path} (hq : (m.files s).canonical p = .ok q) (hthere : (fs'.status p).isSome) :
      fs'.canonical p = .ok q := hedited.canonical p q (hcached.canonical q hq).1 hthere
  have hlisted {c : Nat} (hcurrent : Cache.Current fs' c (p :: Pack.files d)) {q : Path} (hq : fs'.canonical p = .ok q) :
      ∃ f ∈ Pack.files d, ∃ r, fs'.canonical f = .ok r ∧ Path.same r q = true := by
    obtain ⟨⟨t, ht, -⟩, hcurrent⟩ := List.forall_mem_cons.mp hcurrent
    have hsource := hends.lists_source
    rw [Look.eval_settle] at hsource
    cases hcanonical : (m.files s).canonical p with
    | error f =>
      rw [hcanonical] at hsource
      exact ⟨p, hsource, q, hq, decide_eq_true rfl⟩
    | ok r =>
      rw [hcanonical] at hsource
      obtain ⟨u, hu, -⟩ := hcurrent r hsource
      have hr : fs'.canonical r = .ok r :=
        hedited.canonical r r (hcached.canonical r hcanonical).2 (Option.isSome_iff_exists.mpr ⟨u, hu⟩)
      cases hq.symm.trans (hnamed hcanonical (Option.isSome_iff_exists.mpr ⟨t, ht⟩))
      exact ⟨q, hsource, q, hr, decide_eq_true rfl⟩
  have hupdated : (Cache.isUpdated p cache).eval fs' = true ↔
      Cache.Fresh fs' cache (p :: Pack.files d) ∧ ∃ q, fs'.canonical p = .ok q := by
    rw [Cache.eval_isUpdated]
    constructor
    · rintro ⟨e', c, t, q, hload, hc, ht, hle, hq, -⟩
      obtain ⟨c', bs, hc', hbs, he', hcurrent⟩ := (Cache.eval_load? cache e').mp hload
      cases hc'.symm.trans hc
      cases hbs.symm.trans hread
      cases he'.symm.trans he
      rw [hfiles] at hcurrent
      exact ⟨⟨c, hc, List.forall_mem_cons.mpr ⟨⟨t, ht, hle⟩, hcurrent⟩⟩, q, hq⟩
    · rintro ⟨⟨c, hc, hcurrent⟩, q, hq⟩
      obtain ⟨⟨t, ht, hle⟩, hcurrent'⟩ := List.forall_mem_cons.mp hcurrent
      refine ⟨e, c, t, q, (Cache.eval_load? cache e).mpr ⟨c, _, hc, hread, he, hfiles ▸ hcurrent'⟩, hc, ht, hle, hq, ?_⟩
      rw [hfiles]
      exact hlisted hcurrent hq
  refine ⟨hupdated, fun ⟨q, hq⟩ => hupdated.trans ⟨And.left, fun hfresh => ⟨hfresh, q, hnamed hq ?_⟩⟩⟩
  obtain ⟨c, -, hcurrent⟩ := hfresh
  obtain ⟨t, ht, -⟩ := hcurrent p List.mem_cons_self
  exact Option.isSome_iff_exists.mpr ⟨t, ht⟩

/-- A description that names itself and another one, compiled by way of the cache "c". -/
def twoFilesCached : Disk :=
  left Disk.system (Command.history Command.blankDisk Command.twoFiles)
    (compileFile ample (Command.requestFor "a").options "a" (.rebuild "c")) ()

/-- One file is made older, another one is made and removed again, and then the listed one is removed too. -/
def editsBeside : List Disk.Edit := [.touch "b" 1, .write "z" [], .remove "z", .remove "b"]

theorem isUpdated_iff_twoFiles : ∃ d, Ends Disk.system (Command.history Command.blankDisk Command.twoFiles)
      (compileFile ample (Command.requestFor "a").options "a" (.rebuild "c")) () d () ∧ Pack.files d = ["/a", "/b"] ∧
    ∀ n, (Cache.isUpdated "a" "c").eval (Disk.system.files (twoFilesCached.edited (editsBeside.take n))) = true ↔
      Cache.Fresh (Disk.system.files (twoFilesCached.edited (editsBeside.take n))) "c" ["a", "/a", "/b"] := by
  have hsound := (Command.later_history Command.sound_blankDisk Command.twoFiles).sound
  obtain ⟨d, ⟨⟩, hends, hwidth, hfiles, hwritten, hdecode⟩ : ∃ d w',
      Ends Disk.system (Command.history Command.blankDisk Command.twoFiles)
        (compileFile ample (Command.requestFor "a").options "a" (.rebuild "c")) () d w' ∧
      (Value.dict d).width < countLimit ∧ Pack.files d = ["/a", "/b"] ∧
      (Disk.system.run (Command.history Command.blankDisk Command.twoFiles) (Pack.write "c" d)).1 = .ok () ∧
      (Dict.decode d.encode).isOk := by
    decide +kernel
  rw [← Value.length_encode] at hwidth
  have hlocalize (name : String) : AnswersDistinct ((Command.requestFor "a").options.localize name) := by
    rintro v ⟨⟩
  have hnamed : (Disk.system.files (Command.history Command.blankDisk Command.twoFiles)).canonical "a" = .ok "/a" := by
    decide +kernel
  have hsettled : (Disk.system.files (Command.history Command.blankDisk Command.twoFiles)).canonical "/a" = .ok "/a" := by
    decide +kernel
  have hcached : Disk.system.Caches (Command.history Command.blankDisk Command.twoFiles) twoFilesCached
      "a" "c" d := by
    refine Disk.caches_of_ends hsound hends (fun q hq => ?_) hwritten (exists_of_isOk hdecode)
    rw [hnamed] at hq
    cases hq
    exact hsettled
  have hlater := Disk.later_run_write hsound hwritten
  rw [← left_eq hends hwritten] at hlater
  have hnested : twoFilesCached.Nested := ⟨by decide +kernel, hlater.sound.parents⟩
  have haims : twoFilesCached.aim "c" ∉ editsBeside.map fun edit => twoFilesCached.aim edit.path := by decide +kernel
  refine ⟨d, hends, hfiles, fun n => ?_⟩
  have hedited := (Disk.editedAt_edited hnested (editsBeside.take n)).editedBeside hcached.written fun hmem =>
    haims (List.map_subset _ (List.take_subset n editsBeside) hmem)
  have hiff := (isUpdated_iff hlocalize hends (Value.fits_of_length_encode hwidth)
    (Value.length_encode_lt_lengthLimit hwidth) hcached hedited).2 ⟨"/a", hnamed⟩
  rwa [hfiles] at hiff

/-- A description in the middle of directories that are as deep as a path can be long. -/
def deepDisk : Disk :=
  let names : Place := List.replicate 16 (String.ofList (List.replicate Disk.longestName 'n'))
  let directories := names.inits.reverse.map fun place => (place, (⟨none, 0⟩ : Entry))
  ⟨(names ++ ["a"], ⟨some (Bytes.ofString "\x7b\"x\": 1\x7d"), 1⟩) :: directories, names, "/tmp", 1⟩

/-- The disk once the description was compiled by way of the cache "c". -/
def deepCached : Disk :=
  left Disk.system deepDisk (compileFile ample (Command.requestFor "a").options "a" (.rebuild "c")) ()

/-- A description that can be read but has no canonical name is never found up to date, even if nothing is done at all
after its compile. -/
theorem not_isUpdated_of_deepDisk : ∃ d w', Ends Disk.system deepDisk
      (compileFile ample (Command.requestFor "a").options "a" (.rebuild "c")) () d w' ∧
    (Value.dict d).Fits ∧ d.encode.length < lengthLimit ∧ Disk.system.Caches deepDisk deepCached "a" "c" d ∧
    Cache.Fresh (Disk.system.files deepCached) "c" ("a" :: Pack.files d) ∧
      (Cache.isUpdated "a" "c").eval (Disk.system.files deepCached) = false := by
  obtain ⟨d, w', hends, hwidth, hfiles, hread, hdecode⟩ : ∃ d w', Ends Disk.system deepDisk
      (compileFile ample (Command.requestFor "a").options "a" (.rebuild "c")) () d w' ∧
        (Value.dict d).width < countLimit ∧ Pack.files d = ["a"] ∧
          (Disk.system.files deepCached).read "c" = .ok d.encode ∧ (Dict.decode d.encode).isOk := by
    decide +kernel
  have hnameless : (Disk.system.files deepDisk).canonical "a" = .error .nameTooLong := by decide +kernel
  have htimes : (Disk.system.files deepCached).status "a" = some ⟨true, 1⟩ ∧
      (Disk.system.files deepCached).status "c" = some ⟨true, 2⟩ := by
    decide +kernel
  have hstale : (Cache.isUpdated "a" "c").eval (Disk.system.files deepCached) = false := by decide +kernel
  rw [← Value.length_encode] at hwidth
  refine ⟨d, w', hends, Value.fits_of_length_encode hwidth, Value.length_encode_lt_lengthLimit hwidth,
    ⟨hread, exists_of_isOk hdecode, fun q hq => ?_⟩, ⟨_, htimes.2, ?_⟩, hstale⟩
  · rw [hnameless] at hq
    cases hq
  · rw [hfiles]
    exact List.forall_mem_cons.mpr ⟨⟨_, htimes.1, by decide⟩, List.forall_mem_singleton.mpr ⟨_, htimes.1, by decide⟩⟩

end CompilingFile
end AssetPack
