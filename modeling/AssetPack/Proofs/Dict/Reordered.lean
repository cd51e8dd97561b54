import Mathlib.Data.List.Forall2
import Mathlib.Data.List.Perm.Basic
import AssetPack.Proofs.Dict

/-!
# Dictionaries related entry by entry

Dictionaries are related if their entries are, where the entries stand in the same order or in any order.
-/
namespace AssetPack

/-!
## Dictionaries related entry by entry

Two dictionaries whose entries stand under the same names in the same order, each related to the other. What is
looked up, set, left out or kept in both is related again.
-/

section
variable {α β : Type} {R S : α → β → Prop}

/-- What is there is related to something. -/
theorem exists_of_rel {a : α} {b : Option β} (h : Option.Rel R (some a) b) : ∃ b', b = some b' ∧ R a b' := by
  cases h with
  | some hab => exact ⟨_, rfl, hab⟩

theorem rel_cases {a : Option α} {b : Option β} (h : Option.Rel R a b) :
    (a = none ∧ b = none) ∨ ∃ x y, a = some x ∧ b = some y ∧ R x y := by
  cases h with
  | none => exact .inl ⟨rfl, rfl⟩
  | some hxy => exact .inr ⟨_, _, rfl, rfl, hxy⟩

theorem eq_none_of_rel {b : Option β} (h : Option.Rel R none b) : b = none := by
  cases h
  rfl

/-- Items related one to one, with what holds of those on either side. -/
theorem forall₂_and {P : α → Prop} {Q : β → Prop} {as : List α} {bs : List β} (h : List.Forall₂ R as bs)
    (hp : ∀ a ∈ as, P a) (hq : ∀ b ∈ bs, Q b) : List.Forall₂ (fun a b => R a b ∧ P a ∧ Q b) as bs := by
  induction h with
  | nil => exact .nil
  | cons hab _ ih =>
    obtain ⟨ha, has⟩ := List.forall_mem_cons.mp hp
    obtain ⟨hb, hbs⟩ := List.forall_mem_cons.mp hq
    exact .cons ⟨hab, ha, hb⟩ (ih has hbs)

theorem exists_of_forall₂ {as : List α} {bs : List β} (h : List.Forall₂ R as bs) {b : β} (hb : b ∈ bs) :
    ∃ a ∈ as, R a b := by
  induction h with
  | nil => cases hb
  | cons hab _ ih =>
    rcases List.mem_cons.mp hb with rfl | hb
    · exact ⟨_, List.mem_cons_self, hab⟩
    · obtain ⟨a, ha, hR⟩ := ih hb
      exact ⟨a, List.mem_cons_of_mem _ ha, hR⟩

namespace Dict
variable {d : Dict α} {e : Dict β}

/-- The same names in the same order, and related entries. -/
def Related (R : α → β → Prop) (d : Dict α) (e : Dict β) : Prop :=
  List.Forall₂ (fun a b => a.1 = b.1 ∧ R a.2 b.2) d.entries e.entries

namespace Related

theorem empty (R : α → β → Prop) : Related R ∅ ∅ := .nil

theorem mono (h : Related R d e) (hrs : ∀ a b, R a b → S a b) : Related S d e :=
  List.Forall₂.imp (fun _ _ => And.imp_right (hrs _ _)) h

theorem flip (h : Related R d e) : Related (fun b a => R a b) e d :=
  (List.Forall₂.flip h).imp fun _ _ => And.imp_left Eq.symm

/-- What is related to something that is related on is related. -/
theorem comp {γ : Type} {T : β → γ → Prop} {U : α → γ → Prop} {f : Dict γ} (h : Related R d e) (h' : Related T e f)
    (hcomp : ∀ a b c, R a b → T b c → U a c) : Related U d f := by
  obtain ⟨entries⟩ := d
  obtain ⟨entries'⟩ := e
  obtain ⟨entries''⟩ := f
  change List.Forall₂ _ entries entries' at h
  change List.Forall₂ _ entries' entries'' at h'
  induction h generalizing entries'' with
  | nil =>
    cases h'
    exact .nil
  | cons hentry _ ih =>
    cases h' with
    | cons hentry' hrest' =>
      exact .cons ⟨hentry.1.trans hentry'.1, hcomp _ _ _ hentry.2 hentry'.2⟩ (ih _ hrest')

/-- Entries that are all related to something are those of a related dictionary. -/
theorem exists_of_forall (h : ∀ entry ∈ d.entries, ∃ b, R entry.2 b) : ∃ e, Related R d e := by
  obtain ⟨entries⟩ := d
  induction entries with
  | nil => exact ⟨⟨[]⟩, .nil⟩
  | cons entry rest ih =>
    obtain ⟨⟨b, hb⟩, hrest⟩ := List.forall_mem_cons.mp h
    obtain ⟨⟨entries'⟩, hrelated⟩ := ih hrest
    exact ⟨⟨(entry.1, b) :: entries'⟩, .cons ⟨rfl, hb⟩ hrelated⟩

theorem exists_of_mem (h : Related R d e) {entry : String × α} (hentry : entry ∈ d.entries) : ∃ b, R entry.2 b := by
  obtain ⟨entries⟩ := d
  obtain ⟨entries'⟩ := e
  change List.Forall₂ _ entries entries' at h
  change entry ∈ entries at hentry
  induction h with
  | nil => cases hentry
  | cons hfirst _ ih =>
    rcases List.mem_cons.mp hentry with rfl | hentry
    · exact ⟨_, hfirst.2⟩
    · exact ih hentry

theorem names (h : Related R d e) : d.names = e.names := by
  obtain ⟨entries⟩ := d
  obtain ⟨entries'⟩ := e
  change List.Forall₂ _ entries entries' at h
  induction h with
  | nil => rfl
  | cons hentry _ ih => exact List.cons_eq_cons.mpr ⟨hentry.1, ih⟩

theorem get? (h : Related R d e) (name : String) : Option.Rel R (d.get? name) (e.get? name) := by
  obtain ⟨entries⟩ := d
  obtain ⟨entries'⟩ := e
  change List.Forall₂ _ entries entries' at h
  rw [Dict.get?, Dict.get?]
  induction h with
  | nil => exact .none
  | @cons a b _ _ hentry _ ih =>
    rw [List.lookup_cons, List.lookup_cons, hentry.1]
    split
    · exact .some hentry.2
    · exact ih

theorem contains (h : Related R d e) (name : String) : d.contains name = e.contains name := by
  have hget := h.get? name
  rw [Dict.contains, Dict.contains]
  generalize d.get? name = a at hget
  generalize e.get? name = b at hget
  cases hget <;> rfl

theorem filter (h : Related R d e) (p : String → Bool) :
    Related R ⟨d.entries.filter fun entry => p entry.1⟩ ⟨e.entries.filter fun entry => p entry.1⟩ := by
  obtain ⟨entries⟩ := d
  obtain ⟨entries'⟩ := e
  change List.Forall₂ _ entries entries' at h
  induction h with
  | nil => exact .nil
  | @cons a b _ _ hentry _ ih =>
    rw [Related, List.filter_cons, List.filter_cons, hentry.1]
    split
    · exact .cons hentry ih
    · exact ih

theorem set (h : Related R d e) {a : α} {b : β} (hab : R a b) (name : String) :
    Related R (d.set name a) (e.set name b) := by
  obtain ⟨entries⟩ := d
  obtain ⟨entries'⟩ := e
  change List.Forall₂ _ entries entries' at h
  change List.Forall₂ _ (put name a entries) (put name b entries')
  induction h with
  | nil => exact .cons ⟨rfl, hab⟩ .nil
  | @cons x y _ _ hentry hrest ih =>
    rw [put, put, hentry.1]
    split
    · exact .cons ⟨rfl, hab⟩ hrest
    · exact .cons hentry ih

theorem setAll (h : Related R d e) {entries : List (String × α)} {entries' : List (String × β)}
    (hmore : Related R ⟨entries⟩ ⟨entries'⟩) : Related R (d.setAll entries) (e.setAll entries') := by
  change List.Forall₂ _ entries entries' at hmore
  induction hmore generalizing d e with
  | nil => exact h
  | @cons x y _ _ hentry _ ih =>
    have hset : Related R (d.set x.1 x.2) (e.set y.1 y.2) := by
      rw [hentry.1]
      exact h.set hentry.2 y.1
    exact ih hset

end Related
end Dict

end

/-!
## Dictionaries in another order

Two dictionaries with the same names in any order, each entry related to the one of the same name. What is looked up,
set, left out or merged in both is related again.
-/

section
variable {α β γ : Type} {R S : α → β → Prop}

/-! ### Sorted names -/

theorem pairwise_sorted (names : List String) : (names.mergeSort (· ≤ ·)).Pairwise (· ≤ ·) := by
  have hsorted : (names.mergeSort (· ≤ ·)).Pairwise fun a b => decide (a ≤ b) = true :=
    List.pairwise_mergeSort (fun a b c hab hbc => by simp at hab hbc ⊢; exact String.le_trans hab hbc)
      (fun a b => by simp [String.le_total]) names
  exact hsorted.imp of_decide_eq_true

/-- Sorted names do not tell in which order they stood. -/
theorem sorted_congr {names names' : List String} (h : names.Perm names') :
    names.mergeSort (· ≤ ·) = names'.mergeSort (· ≤ ·) :=
  ((List.mergeSort_perm _ _).trans (h.trans (List.mergeSort_perm _ _).symm)).eq_of_pairwise
    (fun _ _ _ _ => String.le_antisymm) (pairwise_sorted names) (pairwise_sorted names')

/-! ### Lists in another order -/

/-- The items of the one list are related to those of the other in some order. -/
def Reordered (R : α → β → Prop) (as : List α) (bs : List β) : Prop := ∃ ms, as.Perm ms ∧ List.Forall₂ R ms bs

/-- Lists that are both related to one list item by item are related to each other. -/
theorem forall₂_trans {T : β → γ → Prop} {as : List α} {bs : List β} {cs : List γ} (h : List.Forall₂ R as bs)
    (h' : List.Forall₂ T bs cs) : List.Forall₂ (fun a c => ∃ b, R a b ∧ T b c) as cs := by
  induction h generalizing cs with
  | nil =>
    cases h'
    exact .nil
  | cons hab _ ih =>
    cases h' with
    | cons hbc hrest => exact .cons ⟨_, hab, hbc⟩ (ih hrest)

namespace Reordered

theorem of_perm {as bs : List α} (h : as.Perm bs) {R : α → α → Prop} (hr : ∀ b ∈ bs, R b b) : Reordered R as bs :=
  ⟨bs, h, List.forall₂_same.mpr hr⟩

theorem of_forall₂ {as : List α} {bs : List β} (h : List.Forall₂ R as bs) : Reordered R as bs := ⟨as, .refl as, h⟩

theorem imp {as : List α} {bs : List β} (h : Reordered R as bs) (hrs : ∀ a ∈ as, ∀ b ∈ bs, R a b → S a b) :
    Reordered S as bs := by
  obtain ⟨ms, hperm, hrel⟩ := h
  refine ⟨ms, hperm, (forall₂_and hrel (fun a ha => hperm.mem_iff.mpr ha) fun b hb => hb).imp fun a b hab => ?_⟩
  exact hrs a hab.2.1 b hab.2.2 hab.1

theorem exists_of_mem {as : List α} {bs : List β} (h : Reordered R as bs) {a : α} (ha : a ∈ as) : ∃ b ∈ bs, R a b := by
  obtain ⟨ms, hperm, hrel⟩ := h
  have hflip : List.Forall₂ (fun b a => R a b) bs ms := hrel.flip
  have hmem : a ∈ ms := hperm.mem_iff.mp ha
  clear hperm hrel ha
  induction hflip with
  | nil => cases hmem
  | @cons b a' _ _ hab _ ih =>
    rcases List.mem_cons.mp hmem with rfl | hmem
    · exact ⟨b, List.mem_cons_self, hab⟩
    · obtain ⟨b, hb, hab⟩ := ih hmem
      exact ⟨b, List.mem_cons_of_mem _ hb, hab⟩

theorem flip {as : List α} {bs : List β} (h : Reordered R as bs) : Reordered (fun b a => R a b) bs as := by
  obtain ⟨ms, hperm, hrel⟩ := h
  obtain ⟨ns, hns, hperm'⟩ := List.perm_comp_forall₂ hperm hrel
  exact ⟨ns, hperm'.symm, hns.flip⟩

end Reordered

namespace Dict
variable {d d' : Dict α} {e e' : Dict β}

/-! ### Dictionaries in another order -/

/-- The same names in any order, none twice, and related entries. -/
structure Reordered (R : α → β → Prop) (d : Dict α) (e : Dict β) : Prop where
  distinct : d.Distinct
  distinct' : e.Distinct
  names : ∀ name, name ∈ d.names ↔ name ∈ e.names
  entries : ∀ name a b, d.get? name = some a → e.get? name = some b → R a b

namespace Reordered

theorem mono (h : Reordered R d e) (hrs : ∀ a b, R a b → S a b) : Reordered S d e :=
  ⟨h.distinct, h.distinct', h.names, fun name a b ha hb => hrs a b (h.entries name a b ha hb)⟩

theorem flip (h : Reordered R d e) : Reordered (fun b a => R a b) e d :=
  ⟨h.distinct', h.distinct, fun name => (h.names name).symm, fun name b a hb ha => h.entries name a b ha hb⟩

theorem refl {R : α → α → Prop} (hd : d.Distinct) (h : ∀ entry ∈ d.entries, R entry.2 entry.2) : Reordered R d d := by
  refine ⟨hd, hd, fun _ => Iff.rfl, fun name a b ha hb => ?_⟩
  obtain rfl : a = b := Option.some.inj (ha.symm.trans hb)
  exact h _ (mem_of_get? ha)

theorem get? (h : Reordered R d e) (name : String) : Option.Rel R (d.get? name) (e.get? name) := by
  cases ha : d.get? name with
  | none =>
    have hname : name ∉ e.names := fun hmem => get?_eq_none_iff.mp ha ((h.names name).mpr hmem)
    rw [get?_eq_none_iff.mpr hname]
    exact .none
  | some a =>
    obtain ⟨b, hb⟩ := exists_get? ((h.names name).mp (mem_names_of_get? ha))
    rw [hb]
    exact .some (h.entries name a b ha hb)

/-- The look-ups tell that two dictionaries are the same but for their order. -/
theorem of_get? (hd : d.Distinct) (he : e.Distinct) (h : ∀ name, Option.Rel R (d.get? name) (e.get? name)) :
    Reordered R d e := by
  refine ⟨hd, he, fun name => ?_, fun name a b ha hb => ?_⟩
  · have hrel := h name
    constructor
    · intro hmem
      obtain ⟨a, ha⟩ := exists_get? hmem
      rw [ha] at hrel
      obtain ⟨b, hb, _⟩ := exists_of_rel hrel
      exact mem_names_of_get? hb
    · intro hmem
      obtain ⟨b, hb⟩ := exists_get? hmem
      rw [hb] at hrel
      generalize hget : d.get? name = found at hrel
      cases hrel with
      | some _ => exact mem_names_of_get? hget
  · have hrel := h name
    rw [ha, hb] at hrel
    cases hrel with
    | some hab => exact hab

theorem contains (h : Reordered R d e) (name : String) : e.contains name = d.contains name := by
  rw [Bool.eq_iff_iff, contains_iff, contains_iff]
  exact (h.names name).symm

theorem perm_names (h : Reordered R d e) : d.names.Perm e.names :=
  (List.perm_ext_iff_of_nodup h.distinct h.distinct').mpr h.names

theorem size_eq (h : Reordered R d e) : d.size = e.size := by
  have hlength := h.perm_names.length_eq
  rwa [Dict.names, Dict.names, List.length_map, List.length_map] at hlength

theorem isEmpty (h : Reordered R d e) : e.isEmpty = d.isEmpty := by
  have hlength : d.entries.length = e.entries.length := h.size_eq
  rw [Dict.isEmpty, Dict.isEmpty, Bool.eq_iff_iff, List.isEmpty_iff_length_eq_zero, List.isEmpty_iff_length_eq_zero,
    hlength]

/-- Entry by entry, the one dictionary is the other in another order. -/
theorem reordered_entries (h : Reordered R d e) :
    AssetPack.Reordered (fun a b => a.1 = b.1 ∧ R a.2 b.2) d.entries e.entries := by
  have hnamed : List.Forall₂ (fun name (a : String × α) => a.1 = name) d.names d.entries :=
    List.forall₂_map_left_iff.mpr (List.forall₂_same.mpr fun _ _ => rfl)
  have hnamed' : List.Forall₂ (fun name (b : String × β) => name = b.1) e.names e.entries :=
    List.forall₂_map_left_iff.mpr (List.forall₂_same.mpr fun _ _ => rfl)
  -- the entries of `d` in the order of the names of `e`
  obtain ⟨ms, hms, hperm⟩ := List.perm_comp_forall₂ h.perm_names.symm hnamed
  refine ⟨ms, hperm.symm, ?_⟩
  have hboth := forall₂_and (forall₂_trans hms.flip hnamed') (fun _ ha => hperm.mem_iff.mp ha) fun _ hb => hb
  refine hboth.imp ?_
  rintro a b ⟨⟨_, hname, hname'⟩, ha, hb⟩
  have hget : d.get? b.1 = some a.2 := by
    rw [← hname', ← hname]
    exact get?_of_mem h.distinct ha
  exact ⟨hname.trans hname', h.entries b.1 a.2 b.2 hget (get?_of_mem h.distinct' hb)⟩

theorem of_reordered_entries (hd : d.Distinct) (he : e.Distinct)
    (h : AssetPack.Reordered (fun a b => a.1 = b.1 ∧ R a.2 b.2) d.entries e.entries) : Reordered R d e := by
  refine ⟨hd, he, fun name => ⟨fun hmem => ?_, fun hmem => ?_⟩, fun name a b ha hb => ?_⟩
  · obtain ⟨entry, hentry, rfl⟩ := List.mem_map.mp hmem
    obtain ⟨other, hother, hname, _⟩ := h.exists_of_mem hentry
    exact hname ▸ List.mem_map_of_mem hother
  · obtain ⟨entry, hentry, rfl⟩ := List.mem_map.mp hmem
    obtain ⟨other, hother, hname, _⟩ := h.flip.exists_of_mem hentry
    exact hname ▸ List.mem_map_of_mem hother
  · obtain ⟨other, hother, rfl, hab⟩ := h.exists_of_mem (mem_of_get? ha)
    rw [get?_of_mem he hother] at hb
    cases hb
    exact hab

theorem empty (R : α → β → Prop) : Reordered R ∅ ∅ :=
  .of_get? List.nodup_nil List.nodup_nil fun _ => .none

theorem set (h : Reordered R d e) {a : α} {b : β} (hab : R a b) (name : String) :
    Reordered R (d.set name a) (e.set name b) := by
  refine .of_get? (distinct_set h.distinct name a) (distinct_set h.distinct' name b) fun other => ?_
  rw [get?_set, get?_set]
  split
  · exact .some hab
  · exact h.get? other

theorem filter (h : Reordered R d e) (p : String → Bool) :
    Reordered R ⟨d.entries.filter fun entry => p entry.1⟩ ⟨e.entries.filter fun entry => p entry.1⟩ := by
  have hdistinct {γ : Type} {f : Dict γ} (hf : f.Distinct) :
      (⟨f.entries.filter fun entry => p entry.1⟩ : Dict γ).Distinct :=
    hf.sublist (List.filter_sublist.map _)
  refine .of_get? (hdistinct h.distinct) (hdistinct h.distinct') fun name => ?_
  rw [get?_filter, get?_filter]
  split
  · exact h.get? name
  · exact .none

theorem erase (h : Reordered R d e) (key : String) : Reordered R (d.erase key) (e.erase key) := h.filter (· ≠ key)

theorem merge (h : Reordered R d e) (h' : Reordered R d' e') : Reordered R (d.merge d') (e.merge e') := by
  refine .of_get? (distinct_merge h.distinct d') (distinct_merge h.distinct' e') fun name => ?_
  rw [get?_merge d h'.distinct, get?_merge e h'.distinct']
  have hrel := h'.get? name
  cases hget : d'.get? name with
  | none =>
    rw [hget] at hrel
    rw [eq_none_of_rel hrel]
    exact h.get? name
  | some a =>
    rw [hget] at hrel
    obtain ⟨b, hb, hab⟩ := exists_of_rel hrel
    rw [hb]
    exact .some hab

/-- Sorted by their names the entries do not tell in which order they stood. -/
theorem sorted {d d' : Dict α} (h : Reordered Eq d d') : d.sorted = d'.sorted := by
  have hsorted (d : Dict α) : d.sorted.Pairwise fun a b => decide (a.1 ≤ b.1) = true :=
    List.pairwise_mergeSort (fun a b c hab hbc => by simp at hab hbc ⊢; exact String.le_trans hab hbc)
      (fun a b => by simp [String.le_total]) d.entries
  have hmem (d : Dict α) (hd : d.Distinct) {a b : String × α} (ha : a ∈ d.entries) (hb : b ∈ d.entries)
      (hname : a.1 = b.1) : a = b := by
    have hget := get?_of_mem hd ha
    rw [hname, get?_of_mem hd hb] at hget
    exact Prod.ext hname (Option.some.inj hget).symm
  have hperm : d.entries.Perm d'.entries := by
    obtain ⟨ms, hperm, hrel⟩ := h.reordered_entries
    have hsame : ms = d'.entries := List.forall₂_eq_eq_eq ▸ hrel.imp fun a b hab => Prod.ext hab.1 hab.2
    exact hsame ▸ hperm
  refine List.Perm.eq_of_pairwise (fun a b ha hb hab hba => ?_) (hsorted d) (hsorted d')
    ((List.mergeSort_perm _ _).trans (hperm.trans (List.mergeSort_perm _ _).symm))
  refine hmem d h.distinct (mem_sorted.mp ha) (hperm.mem_iff.mpr (mem_sorted.mp hb)) ?_
  exact String.le_antisymm (of_decide_eq_true hab) (of_decide_eq_true hba)

end Reordered
end Dict

end

end AssetPack
