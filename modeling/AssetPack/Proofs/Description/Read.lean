import AssetPack.Proofs.Description.Listed
import AssetPack.Proofs.Description.Roots
import AssetPack.Proofs.Visit.Fields

/-!
# What the built-in types read

A resource of type `file` reads what its field `file` says when the resources are made. A text with the mark was
located by then and the file is listed. Any other text was left as it is.
-/
namespace AssetPack
variable {σ α : Type} {fs : Files} {files : List Path}

/-- The atom is a text with the mark of a file. -/
def Atom.IsMarked (a : Atom) : Prop := ((Value.atom a).string?.bind (after? Key.file)).isSome

/-! ## Located files and references -/

/-- An atom that is not marked stays, and in the place of a marked one is the name of a listed file. -/
def Atom.Settled (fs : Files) (files : List Path) (a b : Atom) : Prop :=
  ¬a.IsMarked ∧ b = a ∨
    ∃ path, b = .string path ∧ ∃ f ∈ files, Path.same f ((Look.settle path).eval fs)

theorem puts_locate : Hooks.Puts (Answers.files fs) (fun c : Context => c.files ⊆ files) (Atom.Settled fs files)
    { Hooks.keep with onValue := locate } where
  list _ _ := rfl
  saved _ _ := rfl
  dict _ _ := rfl
  atom spot a := by
    show Reply.Upholds _ _ _ _ (locate spot (.atom a)) _
    unfold locate
    split
    · rename_i hmark
      refine Reply.upholds_pure fun _ _ => ⟨a, rfl, .inl ⟨?_, rfl⟩⟩
      rw [Atom.IsMarked, hmark]
      exact Bool.false_ne_true
    · rename_i relative _
      intro c reply c' hmay hissues hfiles
      rw [StateT.run_bind, StateT.run_get, pure_bind] at hmay
      dsimp only at hmay
      rw [Look.run_liftM_bind] at hmay
      obtain ⟨_, rfl, hrest⟩ := (Answers.files fs).of_bind hmay
      rw [Look.eval_canonical] at hrest
      cases hcanonical : fs.canonical (Path.join c.base relative) with
      | error e =>
        rw [hcanonical] at hrest
        cases (Answers.files fs).eq_of_pure hrest
        rw [Issue.audible_of_own (i := .fileNotFound _) trivial] at hissues
        cases hissues
      | ok path =>
        rw [hcanonical] at hrest
        dsimp only at hrest
        rw [Look.run_liftM_bind] at hrest
        obtain ⟨_, rfl, hdone⟩ := (Answers.files fs).of_bind hrest
        cases (Answers.files fs).eq_of_pure hdone
        rw [Context.files_addFile] at hfiles
        refine ⟨List.Subset.trans (Path.subset_insertSorted _ _) hfiles,
          fun _ _ => ⟨trivial, _, rfl, .inr ⟨path, rfl, ?_⟩⟩⟩
        obtain ⟨f, hf, hsame⟩ := Path.exists_same_insertSorted ((Look.settle path).eval fs) c.files
        exact ⟨f, hfiles hf, hsame⟩

theorem eq_append_of_after? {mark text rest : String} (h : after? mark text = some rest) : text = mark ++ rest := by
  rw [after?] at h
  split at h
  · rename_i hfront
    cases h
    obtain ⟨more, hmore⟩ := List.isPrefixOf_iff_prefix.mp hfront
    apply String.ext
    rw [String.toList_append, ← hmore, String.toList_ofList, List.drop_left]
  · cases h

/-- A reference reads as the text it was. -/
theorem puts_resolveRef (root : Dict Value) : Hooks.Puts Answers.plain (fun _ => True)
    (fun a b => b.text? = a.text?) { Hooks.keep with onValue := resolveRef root } where
  list _ _ := rfl
  saved _ _ := rfl
  dict _ _ := rfl
  atom spot a := by
    show Reply.Upholds _ _ _ _ (resolveRef root spot (.atom a)) _
    unfold resolveRef
    split
    · exact Reply.upholds_pure fun _ _ => ⟨a, rfl, rfl⟩
    · rename_i name hmark
      split
      · exact Reply.upholds_pure fun hissues _ => (Reply.not_own_of_drop hissues trivial).elim
      · obtain ⟨text, htext, hafter⟩ := Option.bind_eq_some_iff.mp hmark
        have hsame : Atom.text? (.ref name) = a.text? := by
          cases a with
          | string s =>
            cases htext
            rw [eq_append_of_after? hafter]
            rfl
          | _ => cases htext
        split
        · intro s reply s' hmay _ _
          cases hmay
          exact ⟨trivial, fun _ _ => ⟨trivial, _, rfl, hsame⟩⟩
        · exact Reply.upholds_pure fun _ _ => ⟨_, rfl, hsame⟩

/-! ## Resources are made and finished -/

/-- A note that names no file. -/
def Note.IsQuiet : Note → Prop
  | .file _ _ => False
  | _ => True

theorem Context.asked_addAll (c : Context) {notes : List Note} (h : ∀ note ∈ notes, note.IsQuiet) :
    (c.addAll notes).asked fs = [] := by
  induction notes generalizing c with
  | nil => rfl
  | cons note rest ih =>
    obtain ⟨hfirst, hrest⟩ := List.forall_mem_cons.mp h
    rw [addAll, List.foldlM_cons, Look.asked_bind]
    have hnote : (c.add note).asked fs = [] := by
      cases note with
      | file owner path => exact hfirst.elim
      | _ => rfl
    rw [hnote]
    exact ih _ hrest

/-- A resource that finishes at once, without a question. -/
def Resource.FinishesAtOnce (r : Resource σ) : Prop := ∀ c, r.finish c = pure (true, [])

theorem Dict.Describes.finishesAtOnce {d : Dict Value} {t : String} {r : Resource σ} (h : d.Describes fs t r) :
    r.FinishesAtOnce := by
  cases h <;> exact fun _ => rfl

theorem inquires_noting {G : Question → Prop} {Q : α → Prop} {x : Context → StateT σ Look (α × List Note)}
    (hx : ∀ c, Inquires fs G (x c) fun r => Q r.1 ∧ ∀ note ∈ r.2, note.IsQuiet) :
    Inquires fs G (Loading.noting x) Q := by
  refine Inquires.ask.bind fun l _ => ?_
  obtain ⟨hasked, hanswer⟩ := hx l.context l.world
  refine (Inquires.lift (Q := fun r => Q r.1.1 ∧ ∀ note ∈ r.1.2, note.IsQuiet) hasked hanswer).bind fun r hr => ?_
  obtain ⟨⟨a, notes⟩, world⟩ := r
  refine (Inquires.lift (Q := fun _ => True) ?_ trivial).bind fun c _ => (Inquires.put _).bind fun _ _ => .pure hr.1
  rw [Context.asked_addAll _ hr.2]
  exact fun _ hq => nomatch hq

theorem inquires_addSymbol {G : Question → Prop} (symbol name : String) :
    Inquires fs G (Loading.addSymbol symbol name : LoadingM σ Unit) fun _ => True := by
  unfold Loading.addSymbol
  split
  · exact .change _
  · exact .pure trivial

/-- What is read is what the field `file` says. -/
def Question.ReadsField (name : String) (a : Atom) (q : Question) : Prop :=
  name = "file" ∧ ∃ path, q = .read path ∧ a.text? = some path

theorem FileResource.asked_fromSource {d : Dict Value} : ∀ q ∈ (fromSource d).asked fs,
    ∃ name a, (name, .atom a) ∈ d.entries ∧ q.ReadsField name a := by
  intro q hq
  rw [fromSource] at hq
  cases hpath : d.findAs? "file" .string with
  | none =>
    rw [hpath] at hq
    cases hq
  | some path =>
    rw [hpath] at hq
    have hread : (Look.read path).asked fs = [.read path] := rfl
    dsimp only at hq
    rw [Look.asked_bind, hread] at hq
    obtain ⟨v, hv, htext⟩ := Option.bind_eq_some_iff.mp hpath
    rw [Dict.find?, if_neg (by decide)] at hv
    obtain ⟨a, rfl, ha⟩ := Value.exists_atom_of_text htext
    rcases List.mem_append.mp hq with hq | hq
    · exact ⟨"file", a, Dict.mem_of_get? hv, rfl, path, List.mem_singleton.mp hq, ha⟩
    · cases hanswer : (Look.read path).eval fs <;> (rw [hanswer] at hq; cases hq)

theorem inquires_fromSource {t : String} {f : Factory σ} (hf : Registry.builtin.get? t = some f) (d : Dict Value)
    (c : Context) : Inquires fs (fun q => ∃ name a, (name, .atom a) ∈ d.entries ∧ q.ReadsField name a)
      (f.fromSource d c) fun r => (∀ made, r.1 = some made → made.FinishesAtOnce) ∧ ∀ note ∈ r.2, note.IsQuiet := by
  rcases List.mem_cons.mp (Dict.mem_of_get? hf) with heq | hmem
  · cases heq
    refine (Inquires.lift (Q := fun _ => True) FileResource.asked_fromSource trivial).bind fun made _ => ?_
    cases made with
    | ok file =>
      refine .pure ⟨?_, fun _ h => nomatch h⟩
      rintro _ ⟨⟩
      exact fun _ => rfl
    | error i =>
      refine .pure ⟨fun _ h => (nomatch h), fun note hnote => ?_⟩
      rw [List.mem_singleton.mp hnote]
      trivial
  · cases List.mem_singleton.mp hmem
    refine .pure ⟨?_, fun _ h => nomatch h⟩
    rintro _ ⟨⟩
    exact fun _ => rfl

theorem keptForm_ne_atom (d : Dict Value) (t : String) (r : Resource σ) (b : Atom) :
    keptForm d t r ≠ some (.atom b) := by
  intro hform
  rw [keptForm] at hform
  split at hform
  · cases hform
  · dsimp only at hform
    split at hform <;> (split at hform <;> cases hform)

theorem inquire_load : Hooks.Inquire fs (fun name a q => q.ReadsField name a)
    { Hooks.keep with onDict := Loading.load (.builtin : Registry σ) } where
  onValue _ _ := rfl
  onDict spot d := by
    obtain ⟨trail, issues⟩ := spot
    show Inquires _ _ (Loading.load .builtin _ d) _
    have hmake {t : String} {f : Factory σ} (hf : Registry.builtin.get? t = some f) :
        Inquires fs (fun q => ∃ name a, (name, .atom a) ∈ d.entries ∧ q.ReadsField name a)
          (Loading.noting (f.fromSource d)) fun made => ∀ r, made = some r → r.FinishesAtOnce :=
      inquires_noting (inquires_fromSource hf d)
    unfold Loading.load
    simp only
    split
    · exact .pure fun _ h => nomatch h
    · refine (inquires_addSymbol _ _).bind fun _ _ => ?_
      split
      · exact .pure fun _ h => nomatch h
      · split
        · exact .pure fun _ h => nomatch h
        · rename_i hf
          refine (hmake hf).bind fun made _ => ?_
          cases made with
          | none => exact .pure fun _ h => nomatch h
          | some r => exact (Inquires.change _).bind fun _ _ => .pure fun _ h => nomatch h
    · split
      · exact .pure fun _ h => nomatch h
      · split
        · exact .pure fun _ h => nomatch h
        · rename_i hf
          refine (hmake hf).bind fun made hmade => ?_
          cases made with
          | none => exact .pure fun _ h => nomatch h
          | some r =>
            dsimp only
            split
            · exact (Inquires.change _).bind fun _ _ => .pure fun _ h => nomatch h
            · refine (inquires_noting (Q := fun _ => True) fun c => ?_).bind fun ok _ => ?_
              · rw [hmade r rfl]
                exact .pure ⟨trivial, fun _ h => nomatch h⟩
              · split
                · exact .pure fun _ h => nomatch h
                · split
                  · rename_i v hv
                    exact .pure fun b hb => keptForm_ne_atom _ _ _ b (hv.trans hb)
                  · exact .pure fun _ h => nomatch h

/-- All top-level resources are of built-in types, so they finish at once. -/
theorem keepsAtOnce_load (spot : Spot) (d : Dict Value) : Keeps (Answers.files fs)
    (fun l : Loading σ => ∀ root ∈ l.roots, root.2.FinishesAtOnce) (Loading.load .builtin spot d) fun _ => True := by
  have hleft {α : Type} {x : LoadingM σ α} {Q : α → Prop}
      (hx : ∀ R, Keeps (Answers.files fs) (fun l => l.roots = R) x Q) :
      Keeps (Answers.files fs) (fun l : Loading σ => ∀ root ∈ l.roots, root.2.FinishesAtOnce) x Q := by
    intro l a l' hmay hl
    obtain ⟨hsame, hQ⟩ := hx l.roots l a l' hmay rfl
    refine ⟨?_, hQ⟩
    dsimp only
    rw [hsame]
    exact hl
  have hmake {t : String} {f : Factory σ} (hf : Registry.builtin.get? t = some f) :=
    hleft fun R => keepsRoots_noting (R := R) (Q := fun made => ∀ r, made = some r → r.FinishesAtOnce)
      (x := f.fromSource d) (by
        rintro c w _ notes w' hmay r rfl
        exact (Dict.describes_of_fromSource hf hmay).finishesAtOnce)
  obtain ⟨trail, issues⟩ := spot
  unfold Loading.load
  simp only
  split
  · exact Keeps.pure trivial
  · refine Keeps.bind (hleft fun R => keepsRoots_addSymbol _ _) fun _ _ => ?_
    split
    · exact Keeps.pure trivial
    · split
      · exact Keeps.pure trivial
      · rename_i hf
        refine Keeps.bind (hmake hf) fun made hmade => ?_
        cases made with
        | none => exact Keeps.pure trivial
        | some r =>
          refine Keeps.bind (Keeps.change fun l hl => ?_) fun _ _ => Keeps.pure trivial
          exact List.forall_mem_append.mpr ⟨hl, List.forall_mem_singleton.mpr (hmade r rfl)⟩
  · split
    · exact Keeps.pure trivial
    · split
      · exact Keeps.pure trivial
      · rename_i hf
        refine Keeps.bind (hmake hf) fun made hmade => ?_
        cases made with
        | none => exact Keeps.pure trivial
        | some r =>
          dsimp only
          split
          · refine Keeps.bind (Keeps.change fun l hl => ?_) fun _ _ => Keeps.pure trivial
            exact List.forall_mem_append.mpr ⟨hl, List.forall_mem_singleton.mpr (hmade r rfl)⟩
          · refine Keeps.bind (hleft fun R => keepsRoots_noting (Q := fun _ => True) fun _ _ _ _ _ _ => trivial)
              fun ok _ => ?_
            split
            · exact Keeps.pure trivial
            · split <;> exact Keeps.pure trivial

namespace Finishing
variable {G : Question → Prop}

theorem inquires_complete {r : Resource σ} (hr : r.FinishesAtOnce) : Inquires fs G (complete r) fun _ => True := by
  refine Inquires.ask.bind fun f _ => ?_
  rw [hr]
  refine (Inquires.lift (Q := fun a => a.1.2 = []) (fun _ hq => nomatch hq) rfl).bind fun a ha => ?_
  obtain ⟨⟨ok, notes⟩, world⟩ := a
  obtain rfl : notes = [] := ha
  exact (Inquires.lift (Q := fun _ => True) (fun _ hq => nomatch hq) trivial).bind fun c _ =>
    (Inquires.put _).bind fun _ _ => .pure trivial

theorem inquires_allFinish {finish : String → FinishingM σ Bool}
    (hfinish : ∀ name, Inquires fs G (finish name) fun _ => True) (owner : String) (names : List String) :
    Inquires fs G (allFinish finish owner names) fun _ => True := by
  induction names with
  | nil => exact .pure trivial
  | cons name rest ih =>
    refine (hfinish name).bind fun ok _ => ?_
    cases ok with
    | true => exact ih
    | false => exact (Inquires.change _).bind fun _ _ => .pure trivial

theorem inquires_finish {objects : Dict (Resource σ)} (h : ∀ entry ∈ objects.entries, entry.2.FinishesAtOnce)
    (fuel : Nat) (name : String) : Inquires fs G (finish objects fuel name) fun _ => True := by
  induction fuel generalizing name with
  | zero => exact .pure trivial
  | succ fuel ih =>
    refine Inquires.ask.bind fun f _ => ?_
    split
    · exact .pure trivial
    · exact (Inquires.change _).bind fun _ _ => .pure trivial
    · split
      · exact .pure trivial
      · rename_i r hr
        refine (Inquires.change _).bind fun _ _ => (inquires_allFinish ih name _).bind fun ready _ => ?_
        have hend (ok : Bool) : Inquires fs G (do setProgress name (.ended ok); return ok : FinishingM σ Bool)
            fun _ => True :=
          (Inquires.change _).bind fun _ _ => .pure trivial
        dsimp only
        split
        · refine (inquires_complete (h _ (Dict.mem_of_get? hr))).bind fun ok _ => ?_
          split
          · exact (Inquires.change _).bind fun _ _ => hend ok
          · exact hend ok
        · rw [pure_bind]
          split
          · exact (Inquires.change _).bind fun _ _ => hend false
          · exact hend false

end Finishing

theorem inquires_finishAll {G : Question → Prop} {roots : List (String × Resource σ)}
    (h : ∀ root ∈ roots, root.2.FinishesAtOnce) : Inquires fs G (finishAll roots) fun _ => True := by
  have hobjects : ∀ entry ∈ (Dict.ofList roots).entries, entry.2.FinishesAtOnce :=
    fun entry hentry => h entry (Dict.mem_ofList hentry)
  unfold finishAll
  generalize Dict.ofList roots = objects at hobjects
  generalize roots.length + 1 = fuel
  clear h
  dsimp only
  induction roots with
  | nil => exact .pure trivial
  | cons root rest ih =>
    exact ((Finishing.inquires_finish hobjects fuel root.1).bind (R := fun _ => True) fun _ _ => .pure trivial).bind
      fun _ _ => ih

/-! ## Through the passes -/

namespace Pass
variable {registry : Registry σ} {p : Ended σ} {d e : Dict Value}

/-- Fields are located files or what they were. -/
theorem from_files (h : (Pass.files.run fs registry p d).concluded = .ok e) {listed : List Path}
    (hlisted : (Pass.files.run fs registry p d).context.files ⊆ listed) :
    (Value.dict e).From (Atom.Settled fs listed) (.dict d) := by
  obtain ⟨he, hissues⟩ := Context.of_conclude h
  exact puts_locate.visitRoot (A := Answers.files fs) rfl (List.append_eq_nil_iff.mp hissues).1 hlisted he

/-- Fields read as the texts that they were. -/
theorem from_references (h : (references.run fs registry p d).concluded = .ok e) :
    (Value.dict e).From (fun a b => b.text? = a.text?) (.dict d) := by
  obtain ⟨he, hissues⟩ := Context.of_conclude h
  exact (puts_resolveRef d).visitRoot (A := Answers.plain) rfl
    (List.append_eq_nil_iff.mp (List.append_eq_nil_iff.mp hissues).1).1 trivial he

theorem asked_objects : ∀ q ∈ objects.asked fs .builtin p d,
    ∃ name a, (Value.dict d).HasField name a ∧ q.ReadsField name a :=
  inquire_load.visitRoot d _

theorem asked_finishing : finishing.asked fs registry (objects.run fs .builtin p d) e = [] := by
  have hkeeps : Keeps (Answers.files fs) (fun l : Loading σ => ∀ root ∈ l.roots, root.2.FinishesAtOnce)
      (d.loadObjects .builtin) fun _ => True :=
    Dict.keeps_visitRoot (fun _ _ => Keeps.pure trivial) keepsAtOnce_load d
  have hroots := (hkeeps ⟨p.context, [], p.world⟩ _ _ rfl fun _ h => nomatch h).1
  refine List.eq_nil_iff_forall_not_mem.mpr fun q hq => ?_
  exact ((inquires_finishAll (G := fun _ => False) hroots) _).1 q hq

end Pass

/-- Somewhere in the description a field `file` has no mark and reads as this path. -/
def Dict.NamesPlainly (d : Dict Value) (path : Path) : Prop :=
  ∃ a, (Value.dict d).HasField "file" a ∧ ¬a.IsMarked ∧ a.text? = some path

/-- A field that no pass but the one over files has changed was marked, and is listed, or it was plain. -/
theorem Dict.listed_or_names_of_from {d e g : Dict Value} {listed : List Path}
    (hfiles : (Value.dict e).From (Atom.Settled fs listed) (.dict d))
    (hreferences : (Value.dict g).From (fun a b => b.text? = a.text?) (.dict e)) {path : Path}
    (hread : ∃ name a, (Value.dict g).HasField name a ∧ (Question.read path).ReadsField name a) :
    (∃ f ∈ listed, Path.same f ((Look.settle path).eval fs)) ∨ d.NamesPlainly path := by
  obtain ⟨_, c, hc, rfl, _, ⟨⟩, htext⟩ := hread
  obtain ⟨b, hb, hsame⟩ := hreferences.field "file" c hc
  obtain ⟨a, ha, ⟨hmark, rfl⟩ | ⟨path', rfl, hlisted⟩⟩ := hfiles.field "file" b hb
  · exact .inr ⟨b, ha, hmark, hsame.symm.trans htext⟩
  · obtain rfl : path' = path := Option.some.inj (hsame.symm.trans htext)
    exact .inl hlisted

theorem Ended.asked_references {registry : Registry σ} (p : Ended σ) : p.asked fs registry .references = [] := by
  rw [asked]
  cases p.concluded <;> rfl

theorem Ended.asked_saving {registry : Registry σ} (p : Ended σ) : p.asked fs registry .saving = [] := by
  rw [asked]
  cases p.concluded <;> rfl

/-- Where all turns out well, what the passes read is listed at the end or was named plainly before them. -/
theorem Ended.reads_of_ends {p last : Ended σ} {d e : Dict Value}
    (hlast : (p.ends fs .builtin Pass.all).getLast? = some last) (he : last.concluded = .ok e)
    (hd : p.concluded = .ok d) {path : Path} {q : Ended σ × Pass} (hq : q ∈ p.begun fs .builtin Pass.all)
    (hread : .read path ∈ q.1.asked fs .builtin q.2) :
    (∃ f ∈ last.context.files, Path.same f ((Look.settle path).eval fs)) ∨ d.NamesPlainly path := by
  have hlisted := listed_of_ends hlast he q hq
  rw [Pass.all] at hlast hq
  rw [getLast?_ends_of_ok hd] at hlast
  rw [begun_of_ok hd] at hq
  rcases List.mem_cons.mp hq with rfl | hq
  · exact .inl (hlisted rfl _ hread).2
  obtain ⟨d₁, hd₁⟩ := exists_concluded hlast he
  have hfrom := Pass.from_files hd₁ (files_subset_of_ends hlast he)
  generalize Pass.files.run fs .builtin p d = p₁ at hlast hq hd₁
  rw [getLast?_ends_of_ok hd₁] at hlast
  rw [begun_of_ok hd₁] at hq
  rcases List.mem_cons.mp hq with rfl | hq
  · rw [asked_references] at hread
    cases hread
  obtain ⟨d₂, hd₂⟩ := exists_concluded hlast he
  have hfrom₂ := Pass.from_references hd₂
  generalize Pass.references.run fs .builtin p₁ d₁ = p₂ at hlast hq hd₂
  rw [getLast?_ends_of_ok hd₂] at hlast
  rw [begun_of_ok hd₂] at hq
  rcases List.mem_cons.mp hq with rfl | hq
  · rw [asked, hd₂] at hread
    exact Dict.listed_or_names_of_from hfrom hfrom₂ (Pass.asked_objects _ hread)
  obtain ⟨d₃, hd₃⟩ := exists_concluded hlast he
  rw [begun_of_ok hd₃] at hq
  rcases List.mem_cons.mp hq with rfl | hq
  · rw [asked, hd₃] at hread
    dsimp only at hread
    rw [Pass.asked_finishing] at hread
    cases hread
  · have hsaving := (List.of_mem_zip hq).2
    rw [List.mem_singleton.mp hsaving, asked_saving] at hread
    cases hread

namespace Dict
variable {fuel : Nat} {o : Options σ} {base : Path} {d e : Dict Value} {w w' : σ}

/-- What a description is expanded to. -/
def expanded? (fs : Files) (fuel : Nat) (o : Options σ) (base : Path) (d : Dict Value) : Option (Dict Value) :=
  ((d.expand fuel o.localize (.start base o.debug)).run.eval fs).bind fun r => r.1.dict

/-- With the built-in types a compile that ends well lists all files that it reads, but for those that the expanded
description names plainly. -/
theorem reads_of_compile (ho : o.registry = .builtin) (h : Compiling.Ends fs (d.compile fuel o base) w e w') :
    ∃ context made expanded, e = withMetadata context made ∧ d.expanded? fs fuel o base = some expanded ∧
      ∀ path, .read path ∈ Compiling.asked fs (d.compile fuel o base) w →
        (∃ f ∈ context.files, Path.same f ((Look.settle path).eval fs)) ∨ expanded.NamesPlainly path := by
  have hend : (d.ends fs fuel o base w).getLast?.map Ended.outcome = some (.ok e, w') :=
    (eval_compile fuel o base d w).symm.trans h
  obtain ⟨last, hlast, houtcome⟩ := Option.map_eq_some_iff.mp hend
  obtain ⟨made, hmade, rfl⟩ := Ended.of_outcome_ok (congrArg Prod.fst houtcome)
  rw [ends] at hlast
  simp only [asked_compile, begun, ends, expanded?]
  cases hexpand : (d.expand fuel o.localize (.start base o.debug)).run.eval fs with
  | none =>
    rw [hexpand] at hlast
    cases hlast
  | some r =>
    obtain ⟨visited, context⟩ := r
    rw [hexpand] at hlast
    dsimp only at hlast ⊢
    rw [ho] at hlast ⊢
    obtain ⟨expanded, hexpanded⟩ := Ended.exists_concluded hlast hmade
    obtain ⟨hdict, hissues⟩ := Context.of_conclude hexpanded
    refine ⟨last.context, made, expanded, rfl, hdict, fun path hq => ?_⟩
    rcases List.mem_append.mp hq with hq | hq
    · have hlisted := listed_of_expand hexpand (List.append_eq_nil_iff.mp hissues).1 _ hq
      exact .inl (hlisted.mono (Ended.files_subset_of_ends hlast hmade)).2
    · obtain ⟨q, hq, hread⟩ := List.mem_flatMap.mp hq
      exact Ended.reads_of_ends hlast hmade hexpanded hq hread

end Dict
end AssetPack
