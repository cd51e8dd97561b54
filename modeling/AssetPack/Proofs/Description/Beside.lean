import AssetPack.Proofs.Description.Noted
import AssetPack.Resource.Builtin

/-!
# Compiles with contexts that no type tells apart

The passes behind the expansion add to a context, and look at no more of it than where paths start from and which
issues there are. So if two contexts stay related whatever is added to both, and no type tells such contexts apart,
then two compiles that come to the same dictionary with related contexts go on in the same way.
-/
namespace AssetPack
variable {σ α : Type} {fs : Files} {R : Context → Context → Prop}

/-- Related contexts have one base and the same issues, and stay related when the same is added to both. -/
structure Context.Lasting (fs : Files) (R : Context → Context → Prop) : Prop where
  base : ∀ c c', R c c' → c'.base = c.base
  issues : ∀ c c', R c c' → c'.issues = c.issues
  addSymbol : ∀ c c' symbol name, R c c' → R (c.addSymbol symbol name) (c'.addSymbol symbol name)
  add : ∀ c c' note, R c c' → R ((c.add note).eval fs) ((c'.add note).eval fs)

namespace Context.Lasting
variable {c c' : Context}

theorem addAll (hR : Lasting fs R) (h : R c c') (notes : List Note) :
    R ((c.addAll notes).eval fs) ((c'.addAll notes).eval fs) := by
  induction notes generalizing c c' with
  | nil => exact h
  | cons note rest ih =>
    rw [Context.addAll, Context.addAll, List.foldlM_cons, List.foldlM_cons, Look.eval_bind, Look.eval_bind,
      ← Context.addAll, ← Context.addAll]
    exact ih (hR.add c c' note h)

theorem addFile (hR : Lasting fs R) (h : R c c') (owner : Option String) (path : Path) :
    R ((c.addFile owner path).eval fs) ((c'.addFile owner path).eval fs) :=
  hR.add c c' (.file owner path) h

end Context.Lasting

/-! ## Types that do not tell contexts apart -/

/-- The resource finishes in the same way with related contexts. -/
def Resource.BlindTo (R : Context → Context → Prop) (r : Resource σ) : Prop :=
  ∀ c c', R c c' → r.finish c' = r.finish c

/-- The type makes such resources, in the same way with related contexts. -/
structure Factory.BlindTo (fs : Files) (R : Context → Context → Prop) (f : Factory σ) : Prop where
  fromSource : ∀ d c c', R c c' → f.fromSource d c' = f.fromSource d c
  made : ∀ d c w r, ((Evaluation.files fs).after (f.fromSource d c) w).1.1 = some r → r.BlindTo R

def Registry.BlindTo (fs : Files) (R : Context → Context → Prop) (registry : Registry σ) : Prop :=
  ∀ typeName f, registry.get? typeName = some f → f.BlindTo fs R

theorem FileResource.blindTo_factory (fs : Files) (R : Context → Context → Prop) :
    (FileResource.factory : Factory σ).BlindTo fs R where
  fromSource _ _ _ _ := rfl
  made d c w r hr := by
    have hafter : ((Evaluation.files fs).after ((FileResource.factory : Factory σ).fromSource d c) w).1.1 =
        ((FileResource.fromSource d).eval fs).toOption.map FileResource.toResource := by
      have hrun : (Evaluation.files fs).run (FileResource.fromSource d) = (FileResource.fromSource d).eval fs := rfl
      rw [FileResource.factory, Evaluation.after_bind, Evaluation.after_lift, hrun]
      cases (FileResource.fromSource d).eval fs <;> rfl
    rw [hafter] at hr
    obtain ⟨f, _, rfl⟩ := Option.map_eq_some_iff.mp hr
    exact fun _ _ _ => rfl

theorem DictResource.blindTo_factory (fs : Files) (R : Context → Context → Prop) :
    (DictResource.factory : Factory σ).BlindTo fs R where
  fromSource _ _ _ _ := rfl
  made d c w r hr := by
    obtain rfl : (ofDict d).toResource = r := Option.some.inj hr
    exact fun _ _ _ => rfl

/-- The built-in types do not look at the context at all. -/
theorem Registry.blindTo_builtin (fs : Files) (R : Context → Context → Prop) :
    (builtin : Registry σ).BlindTo fs R := by
  intro typeName f hf
  have hmem := Dict.mem_of_get? hf
  simp only [builtin, List.mem_cons, Prod.mk.injEq, List.not_mem_nil, or_false] at hmem
  rcases hmem with ⟨_, rfl⟩ | ⟨_, rfl⟩
  · exact FileResource.blindTo_factory fs R
  · exact DictResource.blindTo_factory fs R

/-! ## Loading -/

namespace Loading

/-- The same but for related contexts, with resources that do not tell these apart. -/
structure Beside (R : Context → Context → Prop) (l l' : Loading σ) : Prop where
  context : R l.context l'.context
  roots : l'.roots = l.roots
  world : l'.world = l.world
  blind : ∀ root ∈ l.roots, root.2.BlindTo R

theorem Beside.addRoot {l l' : Loading σ} (h : l.Beside R l') (name : String) {r : Resource σ}
    (hr : r.BlindTo R) :
    Beside R { l with roots := l.roots ++ [(name, r)] } { l' with roots := l'.roots ++ [(name, r)] } where
  context := h.context
  roots := congrArg (· ++ [(name, r)]) h.roots
  world := h.world
  blind root hroot := by
    rcases List.mem_append.mp hroot with hroot | hroot
    · exact h.blind root hroot
    · rw [List.mem_singleton.mp hroot]
      exact hr

theorem follows_noting_of_blind (hR : Context.Lasting fs R) {x : Context → StateT σ Look (α × List Note)}
    (hx : ∀ c c', R c c' → x c' = x c) : Follows (.files fs) (Beside R) id (noting x) (noting x) := by
  intro l l' h
  have hsame : x l'.context = x l.context := hx _ _ h.context
  rw [after_noting, after_noting, hsame, h.world]
  exact ⟨rfl, hR.addAll h.context _, h.roots, rfl, h.blind⟩

theorem beside_addSymbol (hR : Context.Lasting fs R) (symbol name : String) :
    Follows (.files fs) (Beside (σ := σ) R) id (addSymbol symbol name) (addSymbol symbol name) := by
  unfold addSymbol
  split
  · exact .change fun l l' h => ⟨hR.addSymbol _ _ symbol name h.context, h.roots, h.world, h.blind⟩
  · exact .pure ()

/-- What is loaded is the same. -/
theorem beside_load (hR : Context.Lasting fs R) {registry : Registry σ} (hregistry : registry.BlindTo fs R)
    (s : Spot) (d : Dict Value) : Follows (.files fs) (Beside R) id (load registry s d) (load registry s d) := by
  have hmade {typeName : String} {factory : Factory σ} (hf : registry.get? typeName = some factory)
      {next : Option (Resource σ) → LoadingM σ Reply}
      (hnone : Follows (.files fs) (Beside R) id (next none) (next none))
      (hnext : ∀ r : Resource σ, r.BlindTo R → Follows (.files fs) (Beside R) id (next (some r)) (next (some r))) :
      Follows (.files fs) (Beside R) id (noting (factory.fromSource d) >>= next)
        (noting (factory.fromSource d) >>= next) := by
    have hblind := hregistry typeName factory hf
    refine (follows_noting_of_blind hR (hblind.fromSource d)).bind_of
      (P := fun made => ∀ r, made = some r → r.BlindTo R) (fun l _ _ r hr => ?_) fun made hanswer => ?_
    · rw [after_noting] at hr
      exact hblind.made d l.context l.world r hr
    · cases made with
      | none => exact hnone
      | some r => exact hnext r (hanswer r rfl)
  obtain ⟨trail, issues⟩ := s
  unfold load
  dsimp only
  split
  · exact .pure _
  · refine .bind (beside_addSymbol hR _ _) fun _ => ?_
    split
    · exact .pure _
    · rename_i typeName _
      cases hf : registry.get? typeName with
      | none => exact .pure _
      | some factory =>
        refine hmade hf (.pure _) fun r hr => ?_
        exact .bind (.change fun l l' h => h.addRoot _ hr) fun _ => .pure _
  · split
    · exact .pure _
    · rename_i typeName _
      cases hf : registry.get? typeName with
      | none => exact .pure _
      | some factory =>
        refine hmade hf (.pure _) fun r hr => ?_
        dsimp only
        split
        · exact .bind (.change fun l l' h => h.addRoot _ hr) fun _ => .pure _
        · refine .bind (follows_noting_of_blind hR hr) fun ok => ?_
          cases ok with
          | false => exact .pure _
          | true =>
            dsimp only [id, Bool.not_true]
            cases keptForm d typeName r <;> exact .pure _

end Loading

/-! ## Finishing -/

namespace Finishing

/-- The same but for related contexts. -/
structure Beside (R : Context → Context → Prop) (f f' : Finishing σ) : Prop where
  progress : f'.progress = f.progress
  issues : f'.issues = f.issues
  context : R f.context f'.context
  world : f'.world = f.world

theorem kin_beside : Kin (Beside (σ := σ) R) where
  progress _ _ h := h.progress
  report i _ _ h := ⟨h.progress, congrArg (· ++ [i]) h.issues, h.context, h.world⟩
  setProgress name p _ _ h := ⟨congrArg (·.set name p) h.progress, h.issues, h.context, h.world⟩

theorem beside_complete (hR : Context.Lasting fs R) {r : Resource σ} (hr : r.BlindTo R) :
    Follows (.files fs) (Beside R) id (complete r) (complete r) := by
  intro f f' h
  have hsame : r.finish f'.context = r.finish f.context := hr _ _ h.context
  rw [after_complete, after_complete, hsame, h.world]
  exact ⟨rfl, h.progress, h.issues, hR.addAll h.context _, rfl⟩

end Finishing

/-! ## The chain of passes -/

/-- The same end of a pass but for related contexts. -/
structure Ended.Beside (R : Context → Context → Prop) (p p' : Ended σ) : Prop where
  dict : p'.dict = p.dict
  issues : p'.issues = p.issues
  context : R p.context p'.context
  roots : p'.roots = p.roots
  world : p'.world = p.world
  blind : ∀ root ∈ p.roots, root.2.BlindTo R

theorem Ended.Beside.concluded (hR : Context.Lasting fs R) {p p' : Ended σ} (h : p.Beside R p') :
    p'.concluded = p.concluded := by
  rw [Ended.concluded, Ended.concluded, h.dict, h.issues]
  unfold Context.conclude
  rw [hR.issues _ _ h.context]

theorem follows_addFile (hR : Context.Lasting fs R) (owner : Option String) (path : Path) {reply : Reply}
    {c c' : Context} (h : R c c') : Follows (.files fs) R id
      (do set (← (c.addFile owner path : Look Context)); return reply)
      (do set (← (c'.addFile owner path : Look Context)); return reply) := by
  have hafter (c t : Context) : (Evaluation.files fs).after
      (do set (← (c.addFile owner path : Look Context)); return reply : StateT Context Look Reply) t =
        (reply, (c.addFile owner path).eval fs) := by
    rw [Evaluation.after_bind, Evaluation.after_lift]
    rfl
  intro t t' _
  rw [hafter, hafter]
  exact ⟨rfl, hR.addFile h owner path⟩

theorem follows_locate (hR : Context.Lasting fs R) (spot : Spot) (v : Value) :
    Follows (.files fs) R id (locate spot v) (locate spot v) := by
  unfold locate
  split
  · exact .pure _
  · rename_i relative _
    refine .ask fun c c' h => ?_
    rw [hR.base c c' h]
    refine .bind (f := id) (fun t t' ht => ?_) fun found => ?_
    · rw [Evaluation.after_lift, Evaluation.after_lift]
      exact ⟨rfl, ht⟩
    · cases found with
      | ok path => exact follows_addFile hR spot.root? path h
      | error e => exact .pure _

/-- The same dictionary and issues, and related contexts. -/
def SiblingsBeside (R : Context → Context → Prop) (s s' : Dict Value × Context × List Issue) : Prop :=
  s'.1 = s.1 ∧ R s.2.1 s'.2.1 ∧ s'.2.2 = s.2.2

theorem beside_addSibling (hR : Context.Lasting fs R) (owner : String) (sibling : String × Value)
    {s s' : Dict Value × Context × List Issue} (h : SiblingsBeside R s s') :
    SiblingsBeside R (addSibling owner s sibling) (addSibling owner s' sibling) := by
  obtain ⟨d, c, issues⟩ := s
  obtain ⟨_, c', _⟩ := s'
  obtain ⟨rfl, hcontext, rfl⟩ := h
  simp only [addSibling]
  split
  · exact ⟨rfl, hcontext, rfl⟩
  · refine ⟨rfl, ?_, rfl⟩
    dsimp only
    split
    · exact hcontext
    · exact hR.addSymbol c c' _ _ hcontext

theorem beside_addSiblings (hR : Context.Lasting fs R) (roots : List (String × Resource σ)) (d : Dict Value)
    {c c' : Context} (h : R c c') : SiblingsBeside R (addSiblings roots d c) (addSiblings roots d c') :=
  List.foldl_rel ⟨rfl, h, rfl⟩ fun root _ _ _ hs => List.foldl_rel hs fun sibling _ _ _ hs =>
    beside_addSibling hR root.1 sibling hs

theorem Pass.beside_run (hR : Context.Lasting fs R) {registry : Registry σ} (hregistry : registry.BlindTo fs R)
    {p p' : Ended σ} (h : p.Beside R p') (d : Dict Value) (pass : Pass) :
    (pass.run fs registry p d).Beside R (pass.run fs registry p' d) := by
  cases pass with
  | files =>
    have hfollow : Hooks.Follow (.files fs) (fun _ => R)
        { Hooks.keep with onValue := locate } { Hooks.keep with onValue := locate } :=
      ⟨fun _ _ _ _ h => h, fun trail v issues => follows_locate hR _ v, fun _ _ _ _ _ h => ⟨rfl, h⟩⟩
    obtain ⟨hvisited, hcontext⟩ := hfollow.visitRoot d h.context
    exact ⟨congrArg Visited.dict hvisited, congrArg Visited.issues hvisited, hcontext, h.roots, h.world, h.blind⟩
  | references => exact ⟨rfl, rfl, h.context, h.roots, h.world, h.blind⟩
  | objects =>
    have hfollow : Hooks.Follow (.files fs) (fun _ => Loading.Beside R)
        { Hooks.keep with onDict := Loading.load registry } { Hooks.keep with onDict := Loading.load registry } :=
      ⟨fun _ _ _ _ h => h, fun _ _ _ _ _ h => ⟨rfl, h⟩, fun _ d _ => Loading.beside_load hR hregistry _ d⟩
    have hstart : (⟨p.context, [], p.world⟩ : Loading σ).Beside R ⟨p'.context, [], p'.world⟩ :=
      ⟨h.context, rfl, h.world, fun _ hroot => nomatch hroot⟩
    obtain ⟨hvisited, hloaded⟩ := hfollow.visitRoot d hstart
    exact ⟨congrArg Visited.dict hvisited, congrArg Visited.issues hvisited, hloaded.context, hloaded.roots,
      hloaded.world, hloaded.blind⟩
  | finishing =>
    have hstart : (⟨∅, [], p.context, p.world⟩ : Finishing σ).Beside R ⟨∅, [], p'.context, p'.world⟩ :=
      ⟨rfl, rfl, h.context, h.world⟩
    obtain ⟨_, hfinished⟩ := Finishing.kin_beside.follows_finishAll (w := fun _ r => r) (fun _ _ => rfl) p.roots
      (fun root hroot => Finishing.beside_complete hR (h.blind root hroot)) _ _ hstart
    have hroots : p.roots.map (fun root => (root.1, root.2)) = p'.roots := by rw [h.roots, List.map_id']
    rw [hroots] at hfinished
    exact ⟨rfl, hfinished.issues, hfinished.context, h.roots, hfinished.world, h.blind⟩
  | saving =>
    obtain ⟨hdict, hcontext, hissues⟩ := beside_addSiblings hR p.roots (saveRoots p.roots d).1 h.context
    refine ⟨?_, ?_, ?_, h.roots, h.world, h.blind⟩
    · simp only [run, h.roots, hdict]
    · simp only [run, h.roots, hissues]
    · simp only [run, h.roots, hcontext]

/-- From ends that are the same but for related contexts, the passes go on in the same way. -/
theorem Ended.beside_ends (hR : Context.Lasting fs R) {registry : Registry σ}
    (hregistry : registry.BlindTo fs R) {passes : List Pass} {p p' last : Ended σ} (h : p.Beside R p')
    (hlast : (p.ends fs registry passes).getLast? = some last) :
    ∃ last', (p'.ends fs registry passes).getLast? = some last' ∧ last.Beside R last' := by
  induction passes generalizing p p' with
  | nil =>
    cases hlast
    exact ⟨p', rfl, h⟩
  | cons pass rest ih =>
    cases hconcluded : p.concluded with
    | ok d =>
      rw [getLast?_ends_of_ok hconcluded] at hlast
      rw [getLast?_ends_of_ok ((h.concluded hR).trans hconcluded)]
      exact ih (pass.beside_run hR hregistry h d) hlast
    | error issues =>
      rw [ends_of_error hconcluded] at hlast
      cases hlast
      rw [ends_of_error ((h.concluded hR).trans hconcluded)]
      exact ⟨p', rfl, h⟩

end AssetPack
