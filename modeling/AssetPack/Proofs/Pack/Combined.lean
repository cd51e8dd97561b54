import Mathlib
import AssetPack.Proofs.Files.Systems
import AssetPack.Proofs.Files.Unchanged
import AssetPack.Proofs.Files.Written
import AssetPack.Proofs.Pack.Current
import AssetPack.Proofs.Pack.Reopened
import AssetPack.Proofs.Pack.Sourced
import AssetPack.Proofs.Value.Reordered

/-!
# Combined packs

Packs are combined by their look-ups: of each name the last pack decides that has it, in the whole as in the map of
symbols, and the files are those of all packs. So it does not matter where a part was combined before and written.
-/
namespace AssetPack

/-! ## The last that has something -/

section
variable {α β γ : Type}

/-- If each step overrides a look-up, in the end the last one decides that has something. -/
theorem foldl_override {step : γ → α → γ} {f : γ → Option β} {g : α → Option β} {as : List α}
    (h : ∀ c, ∀ a ∈ as, f (step c a) = (g a).or (f c)) (c : γ) :
    f (as.foldl step c) = (as.reverse.findSome? g).or (f c) := by
  induction as generalizing c with
  | nil => rfl
  | cons a rest ih =>
    rw [List.foldl_cons, ih fun c b hb => h c b (List.mem_cons_of_mem a hb), h c a List.mem_cons_self, List.reverse_cons,
      List.findSome?_append, List.findSome?_singleton, Option.or_assoc]

theorem rel_or {R : α → β → Prop} {a a' : Option α} {b b' : Option β} (h : Option.Rel R a b) (h' : Option.Rel R a' b') :
    Option.Rel R (a.or a') (b.or b') := by
  cases h with
  | none => exact h'
  | some hab => exact .some hab

theorem exists_append_of_forall₂ {R : α → β → Prop} {as as' : List α} {bs : List β}
    (h : List.Forall₂ R (as ++ as') bs) : ∃ cs cs', bs = cs ++ cs' ∧ List.Forall₂ R as cs ∧ List.Forall₂ R as' cs' := by
  induction as generalizing bs with
  | nil => exact ⟨[], bs, rfl, .nil, h⟩
  | cons a rest ih =>
    cases h with
    | cons hab hrest =>
      obtain ⟨cs, cs', rfl, hcs, hcs'⟩ := ih hrest
      exact ⟨_ :: cs, cs', rfl, .cons hab hcs, hcs'⟩

/-- What is found in one list is related to what is found in the other. -/
theorem rel_findSome? {δ : Type} {R : β → δ → Prop} {S : α → γ → Prop} {f : α → Option β} {g : γ → Option δ}
    {as : List α} {cs : List γ} (h : List.Forall₂ S as cs) (hfg : ∀ a c, S a c → Option.Rel R (f a) (g c)) :
    Option.Rel R (as.reverse.findSome? f) (cs.reverse.findSome? g) := by
  induction h with
  | nil => exact .none
  | cons hac _ ih =>
    rw [List.reverse_cons, List.reverse_cons, List.findSome?_append, List.findSome?_append, List.findSome?_singleton,
      List.findSome?_singleton]
    exact rel_or ih (hfg _ _ hac)

end

/-- What was merged already changes nothing. -/
theorem Dict.merge_merge_self {α : Type} {d e : Dict α} (hd : d.Distinct) (he : e.Distinct) :
    (d.merge e).merge e = d.merge e := by
  have hmerged := distinct_merge hd e
  refine eq_of_get? (distinct_merge hmerged e) hmerged ?_ fun name _ => ?_
  · have hnone : e.names.filter (· ∉ (d.merge e).names) = [] :=
      List.filter_eq_nil_iff.mpr fun name hname => by simpa using names_subset_merge d e hname
    rw [names_merge _ he, hnone, List.append_nil]
  · rw [get?_merge _ he, get?_merge _ he, ← Option.or_assoc, Option.or_self]

/-! ## Packs that are ready to be combined -/

namespace Value

/-- Texts are read from items that are the same as texts. -/
theorem as?_strings_congr {items items' : List Value}
    (h : List.Forall₂ (fun v w : Value => v.as? View.string = w.as? View.string) items items') :
    (list items).as? View.strings = (list items').as? View.strings := by
  change items.mapM (fun v : Value => v.as? View.string) = items'.mapM fun v : Value => v.as? View.string
  induction h with
  | nil => rfl
  | cons hitem _ ih => rw [List.mapM_cons, List.mapM_cons, hitem, ih]

variable {v w : Value}

/-- What is opened in its place shows no other texts. -/
theorem as?_string_materialize (h : v.materialize = .ok w) : w.as? View.string = v.as? View.string :=
  induction_materialize (motive := fun v w => w.as? View.string = v.as? View.string) (fun _ => rfl)
    (fun _ _ _ => rfl) (fun _ => rfl) (fun _ _ _ => rfl) (fun _ => rfl) h

theorem as?_strings_materialize (h : v.materialize = .ok w) : w.as? View.strings = v.as? View.strings := by
  cases v with
  | list items =>
    obtain ⟨done, hdone, rfl⟩ := materialize_list_iff.mp h
    exact as?_strings_congr (hdone.flip.imp fun _ _ => as?_string_materialize)
  | block b =>
    obtain ⟨d, -, rfl⟩ := materialize_block_iff.mp h
    rfl
  | _ =>
    cases h
    rfl

/-- What is opened in its place has the same dictionary. -/
theorem dict?_materialize (h : v.materialize = .ok w) : w.dict? = v.dict? :=
  induction_materialize (motive := fun v w => w.dict? = v.dict?) (fun _ => rfl) (fun _ _ _ => rfl) (fun _ => rfl)
    (fun b d hload => by rw [dict?, dict?, hload]; rfl) (fun _ => rfl) h

theorem materialize_textList (texts : List String) : (textList texts).materialize = .ok (textList texts) :=
  materialize_list_iff.mpr ⟨_, List.forall₂_same.mpr (List.forall_mem_map.mpr fun _ _ => rfl), rfl⟩

theorem keepable_textList (texts : List String) : (textList texts).Keepable where
  distinct := (each_list _).mpr ⟨trivial, List.forall_mem_map.mpr fun _ _ => (each_atom _).mpr trivial⟩
  shallow := (each_list _).mpr ⟨trivial, List.forall_mem_map.mpr fun _ _ => (each_atom _).mpr trivial⟩
  lists := by
    have hflat : listsAround (texts.map Value.string) ≤ 1 := by
      induction texts with
      | nil => exact Nat.zero_le 1
      | cons text rest ih => exact Nat.max_le.mpr ⟨Nat.le_refl 1, ih⟩
    exact hflat.trans (by decide)

/-- Values that are alike show the same text. -/
theorem Alike.as?_string (h : v.Alike w) : v.as? View.string = w.as? View.string := by
  have hblock (u : Value) {bs : Bytes} (hu : u.block? = some bs) : u.as? View.string = none := by
    cases u <;> first | rfl | cases hu
  rcases h.cases with ⟨a, rfl, rfl⟩ | ⟨p, rfl, rfl⟩ | ⟨items, items', rfl, rfl, -⟩ | ⟨bs, hv, hw⟩
  · rfl
  · rfl
  · rfl
  · rw [hblock v hv, hblock w hw]

theorem Alike.as?_strings (h : v.Alike w) : v.as? View.strings = w.as? View.strings := by
  have hblock (u : Value) {bs : Bytes} (hu : u.block? = some bs) : u.as? View.strings = none := by
    cases u <;> first | rfl | cases hu
  rcases h.cases with ⟨a, rfl, rfl⟩ | ⟨p, rfl, rfl⟩ | ⟨items, items', rfl, rfl, halike⟩ | ⟨bs, hv, hw⟩
  · rfl
  · rfl
  · exact as?_strings_congr (halike.imp fun _ _ h => h.as?_string)
  · rw [hblock v hv, hblock w hw]

end Value

namespace Pack
variable {d e : Dict Value}

/-- The map of symbols in a pack. -/
def symbols? (d : Dict Value) : Option (Dict Value) := (d.get? Key.symbols).bind Value.dict?

theorem symbols?_opened (h : opened d = .ok e) : symbols? e = symbols? d := by
  have hget := (opened_eq_ok_iff.mp h).get? Key.symbols
  rw [symbols?, symbols?]
  generalize d.get? Key.symbols = v at hget
  generalize e.get? Key.symbols = w at hget
  cases hget with
  | none => rfl
  | some hvw => exact Value.dict?_materialize hvw

theorem files_eq (d : Dict Value) :
    files d = ((d.get? Key.files).bind fun v => v.as? View.strings).getD [] := by
  rw [files, Dict.findAs?, Dict.find?, if_neg (by decide)]

theorem files_opened (h : opened d = .ok e) : files e = files d := by
  have hget := (opened_eq_ok_iff.mp h).get? Key.files
  rw [files_eq, files_eq]
  generalize d.get? Key.files = v at hget
  generalize e.get? Key.files = w at hget
  cases hget with
  | none => rfl
  | some hvw => exact congrArg (·.getD []) (Value.as?_strings_materialize hvw)

/-- Packs that are alike have the same files. -/
theorem files_alike (h : d.Alike e) : files d = files e := by
  have hget := (Dict.alike_iff.mp h).get? Key.files
  rw [files_eq, files_eq]
  generalize d.get? Key.files = v at hget
  generalize e.get? Key.files = w at hget
  cases hget with
  | none => rfl
  | some hvw => exact congrArg (·.getD []) hvw.as?_strings

theorem symbols?_twins (h : d.Twins e) : Option.Rel Dict.Twins (symbols? d) (symbols? e) := by
  have hget := h.get? Key.symbols
  rw [symbols?, symbols?]
  generalize d.get? Key.symbols = v at hget
  generalize e.get? Key.symbols = w at hget
  cases hget with
  | none => exact .none
  | some hvw => exact hvw.dict?

theorem opened_self_iff : opened d = .ok d ↔ ∀ entry ∈ d.entries, entry.2.materialize = .ok entry.2 :=
  opened_eq_ok_iff.trans (List.forall₂_same.trans (forall₂_congr fun _ _ => and_iff_right rfl))

/-- A pack with its entries opened, which nothing hinders from being written. -/
structure Ready (d : Dict Value) : Prop where
  keepable : d.Keepable
  opened : opened d = .ok d

namespace Ready

theorem of_opened (hd : d.Keepable) (h : Pack.opened d = .ok e) : Ready e where
  keepable := hd.opened h
  opened := opened_self_iff.mpr fun entry hentry => by
    obtain ⟨_, -, -, hstep⟩ := exists_of_forall₂ (opened_eq_ok_iff.mp h) hentry
    exact Value.materialize_materialize hstep

theorem empty : Ready ∅ := ⟨.empty, rfl⟩

theorem merge (hd : Ready d) (he : Ready e) : Ready (d.merge e) where
  keepable := hd.keepable.merge he.keepable
  opened := opened_self_iff.mpr fun entry hentry =>
    (Dict.mem_setAll hentry).elim (opened_self_iff.mp hd.opened entry) (opened_self_iff.mp he.opened entry)

theorem set (hd : Ready d) {v : Value} (hv : v.Keepable) (hopen : v.materialize = .ok v) (name : String) :
    Ready (d.set name v) where
  keepable := hd.keepable.set hv name
  opened := opened_self_iff.mpr fun entry hentry => by
    rcases Dict.mem_set hentry with rfl | hentry
    · exact hopen
    · exact opened_self_iff.mp hd.opened entry hentry

/-- So it is with its map of symbols, but that no entry of that need be open. -/
theorem symbols (hd : Ready d) {symbols : Dict Value} (h : symbols? d = some symbols) : symbols.Keepable := by
  obtain ⟨v, hget, hv⟩ := Option.bind_eq_some_iff.mp h
  have hentry := Dict.mem_of_get? hget
  have hkeep := hd.keepable.entries _ hentry
  cases v with
  | dict m =>
    obtain rfl : m = symbols := Option.some.inj hv
    obtain ⟨hdistinct, hinside⟩ := Value.distinct_dict.mp hkeep.distinct
    have hshallow := (Value.each_dict m).mp hkeep.shallow
    exact ⟨hdistinct, fun entry hentry =>
      ⟨hinside entry hentry, hshallow.2 entry hentry, hshallow.1 entry hentry⟩⟩
  | block b =>
    obtain ⟨_, -, ⟨⟩⟩ := Value.materialize_block_iff.mp (opened_self_iff.mp hd.opened _ hentry)
  | _ => cases hv

end Ready

/-! ## What is combined so far -/

/-- The entry of the last of these packs that has one of the name. -/
def last? (packs : List (Dict Value)) (name : String) : Option Value := packs.reverse.findSome? (·.get? name)

theorem last?_cons (d : Dict Value) (packs : List (Dict Value)) (name : String) :
    last? (d :: packs) name = (last? packs name).or (d.get? name) := by
  rw [last?, List.reverse_cons, List.findSome?_append, List.findSome?_singleton, last?]

theorem same_last? {packs : List (Dict Value)} (h : ∀ d ∈ packs, d.Keepable) (name : String) :
    Option.Rel (fun v w : Value => v.same w = true) (last? packs name) (last? packs name) := by
  refine rel_findSome? (S := fun d e => d = e ∧ d.Keepable) (List.forall₂_same.mpr fun d hd => ⟨rfl, h d hd⟩) ?_
  rintro d _ ⟨rfl, hd⟩
  cases hget : d.get? name with
  | none => exact .none
  | some v => exact .some (Value.same_self (hd.entries _ (Dict.mem_of_get? hget)).distinct)

namespace Combined
variable {c c' : Combined} {es : List (Dict Value)}

/-- What is combined so far can be gone on with, and be written. -/
structure Sound (c : Combined) : Prop where
  dict : Ready c.dict
  files : c.files.Nodup
  symbols : c.symbols.Keepable

theorem Sound.start : Sound .start := ⟨.empty, List.nodup_nil, .empty⟩

theorem nodup_foldl_addName {names : List String} (hnames : names.Nodup) (more : List String) :
    (more.foldl addName names).Nodup := by
  induction more generalizing names with
  | nil => exact hnames
  | cons name rest ih =>
    refine ih ?_
    rw [addName]
    split
    · exact hnames
    · exact List.nodup_append.mpr ⟨hnames, List.nodup_singleton name, fun a ha b hb hab =>
        ‹name ∉ names› (List.mem_singleton.mp hb ▸ hab ▸ ha)⟩

theorem Sound.add (hc : c.Sound) (hd : Ready d) : (c.add d).Sound where
  dict := hc.dict.merge hd
  files := nodup_foldl_addName hc.files _
  symbols := by
    rw [Combined.add]
    split
    · exact hc.symbols.merge (hd.symbols ‹_›)
    · exact hc.symbols

theorem Sound.foldl (hc : c.Sound) (hes : ∀ e ∈ es, Ready e) : (es.foldl Combined.add c).Sound := by
  induction es generalizing c with
  | nil => exact hc
  | cons e rest ih =>
    obtain ⟨he, hrest⟩ := List.forall_mem_cons.mp hes
    exact ih (hc.add he) hrest

theorem Sound.finish (hc : c.Sound) : Ready c.finish :=
  (hc.dict.set (Value.keepable_textList _) (Value.materialize_textList _) _).set hc.symbols.dict rfl _

theorem get?_finish (c : Combined) {name : String} (hfiles : name ≠ Key.files) (hsymbols : name ≠ Key.symbols) :
    c.finish.get? name = c.dict.get? name := by
  rw [finish, Dict.get?_set, if_neg hsymbols, Dict.get?_set, if_neg hfiles]

theorem files_finish (c : Combined) : c.finish.get? Key.files = some (textList (c.files.mergeSort (· ≤ ·))) := by
  rw [finish, Dict.get?_set, if_neg (by decide), Dict.get?_set, if_pos rfl]

theorem symbols_finish (c : Combined) : c.finish.get? Key.symbols = some (.dict c.symbols) := by
  rw [finish, Dict.get?_set, if_pos rfl]

/-- Of each name the last pack decides that has it. -/
theorem get?_foldl (hes : ∀ e ∈ es, Ready e) (c : Combined) (name : String) :
    (es.foldl Combined.add c).dict.get? name = (last? es name).or (c.dict.get? name) :=
  foldl_override (f := fun c : Combined => c.dict.get? name) (g := fun d : Dict Value => d.get? name)
    (fun c _ he => Dict.get?_merge c.dict (hes _ he).keepable.distinct name) c

theorem symbols_add {symbols : Dict Value} (h : symbols? e = some symbols) :
    (c.add e).symbols = c.symbols.merge symbols := by
  rw [symbols?] at h
  simp only [Combined.add, h]

theorem symbols_add_of_none (h : symbols? e = none) : (c.add e).symbols = c.symbols := by
  rw [symbols?] at h
  simp only [Combined.add, h]

theorem symbols_foldl (hes : ∀ e ∈ es, Ready e) (c : Combined) (symbol : String) :
    (es.foldl Combined.add c).symbols.get? symbol =
      (last? (es.filterMap symbols?) symbol).or (c.symbols.get? symbol) := by
  have hlast : last? (es.filterMap symbols?) symbol =
      es.reverse.findSome? fun e => (symbols? e).bind (·.get? symbol) := by
    rw [last?, ← List.filterMap_reverse, ← List.head?_filterMap, List.filterMap_filterMap, List.head?_filterMap]
  rw [hlast]
  refine foldl_override (f := fun c : Combined => c.symbols.get? symbol) (fun c e he => ?_) c
  cases hsymbols : symbols? e with
  | none => rw [symbols_add_of_none hsymbols, Option.bind_none, Option.none_or]
  | some symbols =>
    rw [symbols_add hsymbols, Option.bind_some]
    exact Dict.get?_merge c.symbols ((hes e he).symbols hsymbols).distinct symbol

theorem mem_files_foldl (c : Combined) (es : List (Dict Value)) (f : String) :
    f ∈ (es.foldl Combined.add c).files ↔ f ∈ c.files ∨ ∃ e ∈ es, f ∈ Pack.files e := by
  have hadd (c : Combined) (e : Dict Value) : f ∈ (c.add e).files ↔ f ∈ c.files ∨ f ∈ Pack.files e := by
    rw [Combined.add, mem_foldl_add (P := fun name other => other = name) fun _ _ _ _ => mem_addName]
    simp
  induction es generalizing c with
  | nil => simp
  | cons e rest ih =>
    rw [List.foldl_cons]
    refine (ih _).trans ?_
    rw [hadd, or_assoc, List.exists_mem_cons_iff]

/-- The same is combined so far, but perhaps in another order and with dictionaries in other forms. -/
structure Like (c c' : Combined) : Prop where
  entries : ∀ name, name ≠ Key.files → name ≠ Key.symbols →
    Option.Rel (fun v w : Value => v.same w = true) (c.dict.get? name) (c'.dict.get? name)
  files : ∀ f, f ∈ c.files ↔ f ∈ c'.files
  symbols : ∀ symbol, Option.Rel (fun v w : Value => v.same w = true) (c.symbols.get? symbol) (c'.symbols.get? symbol)

theorem Like.finish (h : c.Like c') (hc : c.Sound) (hc' : c'.Sound) : c.finish.sameAs c'.finish = true := by
  refine Dict.Reordered.sameAs (.of_get? hc.finish.keepable.distinct hc'.finish.keepable.distinct fun name => ?_)
  by_cases hfiles : name = Key.files
  · subst hfiles
    have hsame : c.files.mergeSort (· ≤ ·) = c'.files.mergeSort (· ≤ ·) :=
      sorted_congr ((List.perm_ext_iff_of_nodup hc.files hc'.files).mpr h.files)
    rw [files_finish, files_finish, hsame]
    exact .some (Value.same_self (Value.keepable_textList _).distinct)
  · by_cases hsymbols : name = Key.symbols
    · subst hsymbols
      rw [symbols_finish, symbols_finish]
      exact .some (Dict.Reordered.sameAs (.of_get? hc.symbols.distinct hc'.symbols.distinct h.symbols))
    · rw [get?_finish c hfiles hsymbols, get?_finish c' hfiles hsymbols]
      exact h.entries name hfiles hsymbols

/-- To add a pack a second time changes nothing. -/
theorem add_add (hc : c.Sound) (he : Ready e) : (c.add e).add e = c.add e := by
  have hfiles (names more : List String) (h : ∀ name ∈ more, name ∈ names) : more.foldl addName names = names := by
    induction more with
    | nil => rfl
    | cons name rest ih =>
      obtain ⟨hname, hrest⟩ := List.forall_mem_cons.mp h
      rw [List.foldl_cons, addName, if_pos hname, ih hrest]
  have hmem : ∀ f ∈ Pack.files e, f ∈ (c.add e).files := fun f hf =>
    (mem_files_foldl c [e] f).mpr (.inr ⟨e, List.mem_singleton_self e, hf⟩)
  have hsymbols : ((c.add e).add e).symbols = (c.add e).symbols := by
    cases hfound : symbols? e with
    | none => exact symbols_add_of_none hfound
    | some symbols =>
      rw [symbols_add hfound, symbols_add hfound]
      exact Dict.merge_merge_self hc.symbols.distinct (he.symbols hfound).distinct
  have hdict : ((c.add e).add e).dict = (c.add e).dict :=
    Dict.merge_merge_self hc.dict.keepable.distinct he.keepable.distinct
  have hadded : ((c.add e).add e).files = (c.add e).files := hfiles _ _ hmem
  generalize (c.add e).add e = twice at hdict hadded hsymbols ⊢
  generalize c.add e = once at hdict hadded hsymbols ⊢
  exact (Combined.mk.injEq ..).mpr ⟨hdict, hadded, hsymbols⟩

end Combined

/-! ## Packs in files -/

/-- In these files stand these packs, and the dictionaries directly in them open. -/
def Stand (fs : Files) (paths : List Path) (packs : List (Dict Value)) : Prop :=
  List.Forall₂ (fun p d => (read p).eval fs = .ok d ∧ ∃ e, opened d = .ok e) paths packs

/-- The file is found to hold the pack, opened. -/
def Opens (fs : Files) (p : Path) (e : Dict Value) : Prop := ∃ d, (read p).eval fs = .ok d ∧ opened d = .ok e

variable {fs : Files} {paths : List Path} {packs es : List (Dict Value)}

theorem keepable_of_read {p : Path} (h : (read p).eval fs = .ok d) : d.Keepable := by
  rw [Cache.eval_readPack] at h
  split at h
  · exact .of_load (b := ⟨0, _⟩) h
  · cases h

theorem Opens.ready {p : Path} (h : Opens fs p e) : Ready e := by
  obtain ⟨d, hread, hopen⟩ := h
  exact .of_opened (keepable_of_read hread) hopen

theorem Stand.exists_opened (h : Stand fs paths packs) : ∃ es, List.Forall₂ (Opens fs) paths es ∧
    List.Forall₂ (fun d e => d.Keepable ∧ opened d = .ok e) packs es := by
  induction h with
  | nil => exact ⟨[], .nil, .nil⟩
  | cons hfirst _ ih =>
    obtain ⟨hread, e, hopen⟩ := hfirst
    obtain ⟨es, hopens, hpacks⟩ := ih
    exact ⟨e :: es, .cons ⟨_, hread, hopen⟩ hopens, .cons ⟨keepable_of_read hread, hopen⟩ hpacks⟩

/-- Packs that open are combined one after the other. -/
theorem eval_combineFrom (h : List.Forall₂ (Opens fs) paths es) (c : Combined) :
    (combineFrom c paths).eval fs = .ok (es.foldl Combined.add c).finish := by
  induction h generalizing c with
  | nil => rfl
  | cons hfirst _ ih =>
    obtain ⟨d, hread, hopen⟩ := hfirst
    rw [combineFrom, Look.eval_bind, hread]
    dsimp only
    rw [hopen]
    exact ih _

/-- What combining these packs is to give. -/
structure IsUnion (packs : List (Dict Value)) (c : Dict Value) : Prop where
  distinct : c.Distinct
  /-- the last pack that has a name decides -/
  entries : ∀ name, name ≠ Key.files → name ≠ Key.symbols →
    Option.Rel (fun v w => v.materialize = .ok w ∧ w.same v = true) (last? packs name) (c.get? name)
  files : ∃ files, c.get? Key.files = some (textList files) ∧ files.Pairwise (· < ·) ∧
    ∀ f, f ∈ files ↔ ∃ d ∈ packs, f ∈ Pack.files d
  symbols : ∃ symbols, c.get? Key.symbols = some (.dict symbols) ∧ symbols.Distinct ∧
    ∀ symbol, symbols.get? symbol = last? (packs.filterMap symbols?) symbol

theorem isUnion_finish (h : List.Forall₂ (fun d e => d.Keepable ∧ opened d = .ok e) packs es) :
    IsUnion packs (es.foldl Combined.add .start).finish := by
  have hready : ∀ e ∈ es, Ready e := fun e he => by
    obtain ⟨d, -, hd, hopen⟩ := exists_of_forall₂ h he
    exact .of_opened hd hopen
  have hsound := Combined.Sound.start.foldl hready
  refine ⟨hsound.finish.keepable.distinct, fun name hfiles hsymbols => ?_, ?_, ?_⟩
  · rw [Combined.get?_finish _ hfiles hsymbols, Combined.get?_foldl hready]
    change Option.Rel _ _ (Option.or _ none)
    rw [Option.or_none]
    refine rel_findSome? h fun d e ⟨hd, hopen⟩ => ?_
    have hentries := forall₂_and (opened_eq_ok_iff.mp hopen) hd.entries (Q := fun _ => True) fun _ _ => trivial
    have hrelated : d.Related (fun v w => v.materialize = .ok w ∧ w.same v = true) e :=
      hentries.imp fun _ _ ⟨⟨hname, hstep⟩, hkeep, _⟩ => ⟨hname, hstep, Value.same_materialize hstep hkeep.distinct⟩
    exact hrelated.get? name
  · refine ⟨_, Combined.files_finish _, ?_, fun f => ?_⟩
    · have hnodup := (List.mergeSort_perm _ (· ≤ ·)).nodup_iff.mpr hsound.files
      refine ((pairwise_sorted _).and hnodup).imp fun ⟨hle, hne⟩ => ?_
      by_contra hlt
      exact hne (String.le_antisymm hle (String.not_lt.mp hlt))
    · rw [List.mem_mergeSort, Combined.mem_files_foldl]
      have hstart : f ∉ Combined.start.files := List.not_mem_nil
      rw [or_iff_right hstart]
      constructor
      · rintro ⟨e, he, hf⟩
        obtain ⟨d, hd, -, hopen⟩ := exists_of_forall₂ h he
        exact ⟨d, hd, files_opened hopen ▸ hf⟩
      · rintro ⟨d, hd, hf⟩
        obtain ⟨e, he, -, hopen⟩ := exists_of_forall₂ h.flip hd
        exact ⟨e, he, (files_opened hopen).symm ▸ hf⟩
  · refine ⟨_, Combined.symbols_finish _, hsound.symbols.distinct, fun symbol => ?_⟩
    have hmaps : es.filterMap symbols? = packs.filterMap symbols? := by
      clear hready hsound
      induction h with
      | nil => rfl
      | cons hfirst _ ih => rw [List.filterMap_cons, List.filterMap_cons, ih, symbols?_opened hfirst.2]
    rw [Combined.symbols_foldl hready, hmaps]
    exact Option.or_none

/-- A combined pack that was written and is read back takes the place of the packs that it was made from. -/
theorem like_of_twins {c : Combined} (he : Ready e) (htwins : e.Twins c.finish)
    (hes : ∀ e ∈ es, Ready e) : ((e :: es).foldl Combined.add .start).Like (es.foldl Combined.add c) := by
  have hall : ∀ e' ∈ e :: es, Ready e' := List.forall_mem_cons.mpr ⟨he, hes⟩
  refine ⟨fun name hfiles hsymbols => ?_, fun f => ?_, fun symbol => ?_⟩
  · have hstart : Combined.start.dict.get? name = none := rfl
    rw [Combined.get?_foldl hall, Combined.get?_foldl hes, last?_cons, hstart, Option.or_none,
      ← c.get?_finish hfiles hsymbols]
    exact rel_or (same_last? (fun d hd => (hes d hd).keepable) name)
      ((htwins.related.mono fun _ _ h => h.same).get? name)
  · have hstart : f ∉ Combined.start.files := List.not_mem_nil
    rw [Combined.mem_files_foldl, Combined.mem_files_foldl, or_iff_right hstart, List.exists_mem_cons_iff,
      files_alike htwins.alike, files_of_get? c.files_finish, List.mem_mergeSort]
  · have hstart : Combined.start.symbols.get? symbol = none := rfl
    have hmaps : Option.Rel Dict.Twins (symbols? e) (some c.symbols) := by
      have hrel := symbols?_twins htwins
      rwa [show symbols? c.finish = some c.symbols by rw [symbols?, c.symbols_finish]; rfl] at hrel
    generalize hm : symbols? e = found at hmaps
    cases hmaps with
    | @some m _ hmtwins =>
      rw [Combined.symbols_foldl hall, Combined.symbols_foldl hes, List.filterMap_cons_some hm, last?_cons, hstart,
        Option.or_none]
      refine rel_or (same_last? (fun d hd => ?_) symbol) ((hmtwins.related.mono fun _ _ h => h.same).get? symbol)
      obtain ⟨e', he', hsymbols⟩ := List.mem_filterMap.mp hd
      exact (hes e' he').symbols hsymbols

end Pack

/-! ## Packs that are combined in parts -/

/-- A pack is written, is in its file from then on, and the other packs are as they were. -/
structure FileSystem.Keeps {S : Type} (m : FileSystem S) (s : S) (out : Path) (d : Dict Value) (others : List Path) :
    Prop where
  written : (m.run s (Pack.write out d)).1 = .ok ()
  read : (m.files (m.run s (Pack.write out d)).2).read out = .ok d.encode
  others : ∀ p ∈ others, (m.files (m.run s (Pack.write out d)).2).read p = (m.files s).read p

namespace Disk
variable {d d' : Disk} {out : Path} {pack : Dict Value}

theorem write_of_run (h : system.run d (Script.write out pack.encode >>= fun written => match written with
    | .ok () => (pure (.ok ()) : Script (Except Fault Unit))
    | .error e => pure (.error (.file e))) = (.ok (), d')) : d.write out pack.encode = (.ok (), d') := by
  change system.run (d.write out pack.encode).2 (match (d.write out pack.encode).1 with
    | .ok () => (pure (.ok ()) : Script (Except Fault Unit))
    | .error e => pure (.error (.file e))) = _ at h
  generalize d.write out pack.encode = written at h ⊢
  obtain ⟨_ | _, after⟩ := written
  · cases h
  · cases h
    rfl

/-- The directories for a pack are made first, then the file is written. -/
theorem run_write (hd : d.Sound) (h : system.run d (Pack.write out pack) = (.ok (), d')) : ∃ made : Disk,
    d.Later made ∧ (∀ q bs, d.readAt q = .ok bs → made.readAt q = .ok bs) ∧
      made.write out pack.encode = (.ok (), d') := by
  unfold Pack.write at h
  split at h
  · rename_i parent _
    split at h
    · exact ⟨d, .refl hd, fun _ _ => id, write_of_run h⟩
    · have hlater : d.Later (d.makeDirs parent).2 := later_makeDirsTo hd _ parent
      have hread : ∀ q bs, d.readAt q = .ok bs → (d.makeDirs parent).2.readAt q = .ok bs :=
        fun _ _ => readAt_makeDirsTo _ parent
      have hstep : system.run d (Script.makeDirs parent) = d.makeDirs parent := rfl
      rw [FileSystem.run_bind, hstep] at h
      generalize d.makeDirs parent = step at h hlater hread
      obtain ⟨_ | _, made⟩ := step
      · cases h
      · exact ⟨made, hlater, hread, write_of_run h⟩
  · exact ⟨d, .refl hd, fun _ _ => id, write_of_run h⟩

theorem later_run_write (hd : d.Sound) (hwritten : (system.run d (Pack.write out pack)).1 = .ok ()) :
    d.Later (system.run d (Pack.write out pack)).2 := by
  obtain ⟨made, hlater, -, hwrite⟩ := run_write hd (Prod.ext hwritten rfl)
  have hwrote := later_write hlater.sound out pack.encode
  rw [hwrite] at hwrote
  exact hlater.trans hwrote

/-- So a disk keeps a pack, unless another one lies where it is written. -/
theorem keeps_write (hd : d.Sound) (hwritten : (system.run d (Pack.write out pack)).1 = .ok ()) {others : List Path}
    (hothers : ∀ p ∈ others, d.aim p ≠ d.aim out ∧ ∃ bs, d.files.read p = .ok bs) :
    system.Keeps d out pack others := by
  obtain ⟨made, hlater, hmade, hwrite⟩ := run_write hd (Prod.ext hwritten rfl)
  obtain ⟨place, hwrote⟩ := wrote_of_write hlater.sound hwrite
  have hafter := later_run_write hd hwritten
  refine ⟨hwritten, (read_of_resolve hwrote.resolve).trans hwrote.readAt, fun p hp => ?_⟩
  obtain ⟨haim, bs, hread⟩ := hothers p hp
  obtain ⟨q, hq, hbytes⟩ := exists_of_read hread
  have hne : q ≠ place := by
    rw [eq_aim_of_resolve hq, eq_aim_of_resolve hwrote.resolve, aim, aim, hafter.home]
    exact haim
  change (system.run d (Pack.write out pack)).2.files.read p = d.files.read p
  rw [hread, read_of_resolve (hafter.resolve hq), hwrote.readAt_of_ne q hne]
  exact hmade q bs hbytes

end Disk

namespace Pack
variable {S : Type} {m : FileSystem S} {s : S}

/-- Packs are combined by their names: the last pack with a name decides, the files are those of all packs, in order,
and the symbols those of all their maps. Where a first part was combined before and written, that pack takes its
place. A pack twice is as much as the pack alone. -/
theorem combine_isUnion (h : Stand (m.files s) paths packs) : ∃ c, (combine paths).eval (m.files s) = .ok c ∧
    IsUnion packs c ∧
    (∀ first rest, paths = first ++ rest → ∃ b, (combine first).eval (m.files s) = .ok b ∧ ∀ out,
      m.Keeps s out b rest → (Value.dict b).Fits → b.encode.length < lengthLimit →
      ∃ e, (combine (out :: rest)).eval (m.files (m.run s (write out b)).2) = .ok e ∧ e.sameAs c = true) ∧
    ∀ p ∈ paths, ∃ b, (combine [p]).eval (m.files s) = .ok b ∧ (combine [p, p]).eval (m.files s) = .ok b := by
  obtain ⟨es, hopens, hpacks⟩ := h.exists_opened
  refine ⟨_, eval_combineFrom hopens .start, isUnion_finish hpacks, ?_, fun p hp => ?_⟩
  · rintro first rest rfl
    obtain ⟨es₁, es₂, rfl, hfirst, hrest⟩ := exists_append_of_forall₂ hopens
    have hready (es' : List (Dict Value)) (ps : List Path) (h' : List.Forall₂ (Opens (m.files s)) ps es') :
        ∀ e ∈ es', Ready e := fun e he => by
      obtain ⟨p, -, hp⟩ := exists_of_forall₂ h' he
      exact hp.ready
    have hsound := Combined.Sound.start.foldl (hready _ _ hfirst)
    refine ⟨_, eval_combineFrom hfirst .start, fun out hkeeps hfits hlen => ?_⟩
    rw [List.foldl_append]
    generalize es₁.foldl Combined.add .start = c at hsound hkeeps hfits hlen ⊢
    have hread : (Value.dict c.finish).Readable := hsound.finish.keepable.readable hfits hlen
    have hback : Dict.decode c.finish.encode = .ok (c.finish.stored 0) := hread.here
    obtain ⟨e, hopen, htwins⟩ := Dict.exists_opened_stored hsound.finish.opened hread 0
    have hout : Opens (m.files (m.run s (write out c.finish)).2) out e :=
      ⟨_, by rw [Cache.eval_readPack, hkeeps.read]; exact hback, hopen⟩
    have hothers : List.Forall₂ (Opens (m.files (m.run s (write out c.finish)).2)) rest es₂ := by
      refine (forall₂_and (Q := fun _ => True) hrest hkeeps.others fun _ _ => trivial).imp ?_
      rintro p e' ⟨⟨d, hread, hopen⟩, hsame, -⟩
      refine ⟨d, ?_, hopen⟩
      rw [Cache.eval_readPack, hsame, ← Cache.eval_readPack]
      exact hread
    have hes₂ := hready _ _ hrest
    refine ⟨_, eval_combineFrom (.cons hout hothers) .start, ?_⟩
    exact (like_of_twins hout.ready htwins hes₂).finish
      (Combined.Sound.start.foldl (List.forall_mem_cons.mpr ⟨hout.ready, hes₂⟩)) (hsound.foldl hes₂)
  · obtain ⟨e, -, hopen⟩ := exists_of_forall₂ hopens.flip hp
    refine ⟨_, eval_combineFrom (.cons hopen .nil) .start, ?_⟩
    rw [combine, eval_combineFrom (.cons hopen (.cons hopen .nil)) .start]
    exact congrArg (fun c : Combined => Except.ok c.finish) (Combined.add_add .start (Opens.ready hopen))

/-- A pack with a dictionary in it, with files out of order and with a symbol. -/
def nestedPack : Dict Value :=
  ⟨[("x", .dict ⟨[("n", .int 1)]⟩), (Key.files, textList ["/q", "/p"]), (Key.symbols, .dict ⟨[("X", .string "x")]⟩)]⟩

/-- The same pack with its files in order, as it is combined alone. -/
def sortedPack : Dict Value :=
  ⟨[("x", .dict ⟨[("n", .int 1)]⟩), (Key.files, textList ["/p", "/q"]), (Key.symbols, .dict ⟨[("X", .string "x")]⟩)]⟩

def plainPack : Dict Value := ⟨[("x", .int 2), (Key.files, textList ["/q"])]⟩

/-- The two packs in files. -/
def twoPacks : Disk :=
  Command.history Command.blankDisk [.write "a" nestedPack.encode, .write "b" plainPack.encode]

theorem opens_nestedPack : Opens twoPacks.files "a" nestedPack :=
  ⟨nestedPack.stored 0, by cbv, by cbv⟩

/-- Alone the first pack is combined to itself with its files in order. -/
theorem combine_nestedPack : (combine ["a"]).eval twoPacks.files = .ok sortedPack := by
  have hfiles : (Combined.start.add nestedPack).files = ["/q", "/p"] := by
    change (files nestedPack).foldl addName [] = _
    have hget : nestedPack.get? Key.files = some (textList ["/q", "/p"]) := rfl
    rw [files_of_get? hget]
    decide
  have hsorted : ["/q", "/p"].mergeSort (· ≤ ·) = ["/p", "/q"] :=
    (sorted_congr (.swap ..)).trans (List.mergeSort_of_pairwise (by decide))
  rw [combine, eval_combineFrom (.cons opens_nestedPack .nil)]
  change Except.ok (Combined.finish (Combined.start.add nestedPack)) = _
  rw [Combined.finish, hfiles, hsorted]
  rfl

theorem keeps_sortedPack : Disk.system.Keeps twoPacks "out" sortedPack ["b"] := by
  have hsound := (Command.later_history Command.sound_blankDisk
    [.write "a" nestedPack.encode, .write "b" plainPack.encode]).sound
  have hwritten : (Disk.system.run twoPacks (write "out" sortedPack)).1 = .ok () := by decide +kernel
  have hother : twoPacks.files.read "b" = .ok plainPack.encode := by decide +kernel
  exact Disk.keeps_write hsound hwritten (List.forall_mem_singleton.mpr ⟨by decide +kernel, _, hother⟩)

theorem combine_isUnion_twoPacks : ∃ packs, Stand twoPacks.files ["a", "b"] packs ∧
    ∃ c, (combine ["a", "b"]).eval twoPacks.files = .ok c ∧ IsUnion packs c ∧
      Disk.system.Keeps twoPacks "out" sortedPack ["b"] ∧ (Value.dict sortedPack).Fits ∧
      sortedPack.encode.length < lengthLimit ∧
      ∃ e, (combine ["out", "b"]).eval (Disk.system.run twoPacks (write "out" sortedPack)).2.files = .ok e ∧
        e.sameAs c = true := by
  obtain ⟨d, hread, hopen⟩ := opens_nestedPack
  have hplain : Opens twoPacks.files "b" plainPack := ⟨plainPack, by cbv, by cbv⟩
  obtain ⟨plain, hreadPlain, hopenPlain⟩ := hplain
  have hstand : Stand twoPacks.files ["a", "b"] [d, plain] :=
    .cons ⟨hread, _, hopen⟩ (.cons ⟨hreadPlain, _, hopenPlain⟩ .nil)
  obtain ⟨c, hc, hunion, hsplit, -⟩ := combine_isUnion (m := Disk.system) (s := twoPacks) hstand
  obtain ⟨b, hb, hrest⟩ := hsplit ["a"] ["b"] rfl
  obtain rfl : sortedPack = b := Except.ok.inj (combine_nestedPack.symm.trans hb)
  have hlen : sortedPack.encode.length < lengthLimit := by decide +kernel
  have hfits : (Value.dict sortedPack).Fits := Value.fits_of_length_encode (by decide +kernel)
  exact ⟨_, hstand, c, hc, hunion, keeps_sortedPack, hfits, hlen, hrest "out" keeps_sortedPack hfits hlen⟩

end Pack
end AssetPack
