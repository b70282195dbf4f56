import InvertedIndex.Postings.Holding
import Mathlib.Algebra.Ring.Nat
import Mathlib.Data.List.Pairwise
import Mathlib.Data.List.Perm.Subperm
import Mathlib.Tactic.Common

/-!
# `Proofs.Postings.Parted` — ascending lists parted at a key

Entries ascend by member number, groups by group number. Both are changed in the same way: the list
is parted at a key, and what stands there is replaced, added or left out. This file says once what
such a change does to the look-up of every key.

## Contents
- `Ascending`: a list whose keys strictly ascend; `Ascending.length_le`: how long it can be;
- `lookup`: the item with a key;
- `PartsAt`: what it means to part a list at a key; `PartsAt.exists_of_ascending`;
- `PartsAt.lookup_self`, `PartsAt.lookup_change`, `PartsAt.ascending_change`: the effect of a change;
- `Replaces`: one list is the other with the item at a key replaced, added or left out;
- `partsAt_partAt`: groups are parted like this.
-/

namespace InvertedIndex

variable {α : Type} {key : α → UInt16}

/-- The keys of the list strictly ascend. -/
def Ascending (key : α → UInt16) (items : List α) : Prop :=
  items.Pairwise fun a b => key a < key b

/-- The first item with the key. -/
def lookup (key : α → UInt16) (k : UInt16) (items : List α) : Option α :=
  items.find? fun a => key a = k

/-- An ascending list falls into the items below a key, the one with the key, and those above. -/
structure PartsAt (key : α → UInt16) (k : UInt16) (items front : List α) (found : Option α)
    (back : List α) : Prop where
  items_eq : items = front ++ (found.toList ++ back)
  front_lt : ∀ a ∈ front, key a < k
  found_eq : ∀ a ∈ found, key a = k
  lt_back : ∀ a ∈ back, k < key a

/-! ## Look-ups -/

theorem lookup_eq_none {k : UInt16} {items : List α} :
    lookup key k items = none ↔ ∀ a ∈ items, key a ≠ k := by
  simp [lookup]

theorem lookup_key {k : UInt16} {items : List α} {a : α} (h : lookup key k items = some a) :
    key a = k := by
  simpa using List.find?_some h

theorem lookup_mem {k : UInt16} {items : List α} {a : α} (h : lookup key k items = some a) :
    a ∈ items := List.mem_of_find?_eq_some h

theorem lookup_append (k : UInt16) (front back : List α) :
    lookup key k (front ++ back) = (lookup key k front).or (lookup key k back) :=
  List.find?_append

/-- In an ascending list, every item is the one with its key. -/
theorem Ascending.lookup_of_mem {items : List α} (hasc : Ascending key items) {a : α}
    (ha : a ∈ items) : lookup key (key a) items = some a := by
  induction items with
  | nil => cases ha
  | cons b rest ih =>
    obtain ⟨hb, hrest⟩ := List.pairwise_cons.1 hasc
    rcases List.mem_cons.1 ha with rfl | hmem
    · simp [lookup]
    · have hne : key b ≠ key a := fun h => UInt16.lt_irrefl _ (h ▸ hb a hmem)
      show lookup key (key a) (b :: rest) = some a
      rw [lookup, List.find?_cons_of_neg (by simpa using hne)]
      exact ih hrest hmem

/-- Ascending items whose keys lie below a bound are no more than that. -/
theorem Ascending.length_le {items : List α} (hasc : Ascending key items) {bound : Nat}
    (hbound : ∀ a ∈ items, (key a).toNat < bound) : items.length ≤ bound := by
  have hnodup : (items.map fun a => (key a).toNat).Nodup := by
    refine List.pairwise_map.2 (hasc.imp ?_)
    intro a b hlt
    exact Nat.ne_of_lt (UInt16.lt_iff_toNat_lt.1 hlt)
  have hsubset : (items.map fun a => (key a).toNat) ⊆ List.range bound := by
    intro number hnumber
    obtain ⟨a, ha, rfl⟩ := List.mem_map.1 hnumber
    exact List.mem_range.2 (hbound a ha)
  have hle := (List.subperm_of_subset hnodup hsubset).length_le
  rwa [List.length_map, List.length_range] at hle

/-! ## Parting -/

namespace PartsAt

variable {k : UInt16} {items front back : List α} {found : Option α}

theorem lookup_front (h : PartsAt key k items front found back) : lookup key k front = none :=
  lookup_eq_none.2 fun a ha heq => UInt16.lt_irrefl k (heq ▸ h.front_lt a ha)

theorem lookup_back (h : PartsAt key k items front found back) : lookup key k back = none :=
  lookup_eq_none.2 fun a ha heq => UInt16.lt_irrefl k (heq ▸ h.lt_back a ha)

theorem found_mem {a : α} (h : PartsAt key k items front (some a) back) : a ∈ items := by
  rw [h.items_eq]
  simp

/-- The part that is found is the item with the key. -/
theorem lookup_self (h : PartsAt key k items front found back) : lookup key k items = found := by
  rw [h.items_eq, lookup_append, lookup_append, h.lookup_front, h.lookup_back]
  cases found with
  | none => rfl
  | some a => simp [lookup, h.found_eq a rfl]

/-- Another item, or none, may take the place of what was found. -/
theorem replace (h : PartsAt key k items front found back) {new : Option α}
    (hnew : ∀ a ∈ new, key a = k) : PartsAt key k (front ++ (new.toList ++ back)) front new back :=
  ⟨rfl, h.front_lt, hnew, h.lt_back⟩

/-- A change at the key leaves the look-up of every other key as it was. -/
theorem lookup_change (h : PartsAt key k items front found back) {new : Option α}
    (hnew : ∀ a ∈ new, key a = k) {other : UInt16} (hne : other ≠ k) :
    lookup key other (front ++ (new.toList ++ back)) = lookup key other items := by
  have hskip : ∀ place : Option α, (∀ a ∈ place, key a = k) →
      lookup key other place.toList = none := by
    intro place hplace
    refine lookup_eq_none.2 fun a ha heq => hne ?_
    rw [← heq, hplace a (by simpa using ha)]
  rw [h.items_eq, lookup_append, lookup_append, lookup_append, lookup_append, hskip new hnew,
    hskip found h.found_eq]

/-- A change at the key leaves the list ascending. -/
theorem ascending_change (h : PartsAt key k items front found back)
    (hasc : Ascending key items) {new : Option α} (hnew : ∀ a ∈ new, key a = k) :
    Ascending key (front ++ (new.toList ++ back)) := by
  rw [h.items_eq] at hasc
  obtain ⟨hfront, hrest, -⟩ := List.pairwise_append.1 hasc
  obtain ⟨-, hback, -⟩ := List.pairwise_append.1 hrest
  have hnewback : Ascending key (new.toList ++ back) := by
    refine List.pairwise_append.2 ⟨?_, hback, ?_⟩
    · cases new with
      | none => exact List.Pairwise.nil
      | some a => exact List.pairwise_singleton _ a
    · intro a ha b hb
      rw [hnew a (by simpa using ha)]
      exact h.lt_back b hb
  refine List.pairwise_append.2 ⟨hfront, hnewback, ?_⟩
  intro a ha b hb
  rcases List.mem_append.1 hb with hb | hb
  · rw [hnew b (by simpa using hb)]
    exact h.front_lt a ha
  · exact UInt16.lt_trans (h.front_lt a ha) (h.lt_back b hb)

/-- An item in front of the parted list joins the part in front. -/
theorem cons (h : PartsAt key k items front found back) {a : α} (ha : key a < k) :
    PartsAt key k (a :: items) (a :: front) found back where
  items_eq := by rw [h.items_eq, List.cons_append]
  front_lt := List.forall_mem_cons.2 ⟨ha, h.front_lt⟩
  found_eq := h.found_eq
  lt_back := h.lt_back

/-- A list parts in front of its first item if the key is at most that of the item. -/
theorem of_le {a : α} {rest : List α} (hasc : Ascending key (a :: rest)) (hle : ¬ key a < k) :
    if key a = k then PartsAt key k (a :: rest) [] (some a) rest
    else PartsAt key k (a :: rest) [] none (a :: rest) := by
  obtain ⟨hlt, -⟩ := List.pairwise_cons.1 hasc
  have hnone : ∀ b ∈ ([] : List α), key b < k := fun b hb => absurd hb List.not_mem_nil
  split
  next heq =>
    exact ⟨rfl, hnone, fun b hb => by cases hb; exact heq, fun b hb => heq ▸ hlt b hb⟩
  next hne =>
    have hgt : k < key a := UInt16.lt_of_le_of_ne (UInt16.not_lt.1 hle) fun h => hne h.symm
    refine ⟨rfl, hnone, (fun b hb => by cases hb), ?_⟩
    exact List.forall_mem_cons.2 ⟨hgt, fun b hb => UInt16.lt_trans hgt (hlt b hb)⟩

/-- An ascending list can be parted at every key. -/
theorem exists_of_ascending (k : UInt16) {items : List α} (hasc : Ascending key items) :
    ∃ front found back, PartsAt key k items front found back := by
  induction items with
  | nil => exact ⟨[], none, [], rfl, by simp, by simp, by simp⟩
  | cons a rest ih =>
    by_cases hlt : key a < k
    · obtain ⟨front, found, back, hparts⟩ := ih (List.pairwise_cons.1 hasc).2
      exact ⟨a :: front, found, back, hparts.cons hlt⟩
    · have hparts := of_le hasc hlt
      split at hparts
      · exact ⟨[], some a, rest, hparts⟩
      · exact ⟨[], none, a :: rest, hparts⟩

end PartsAt

/-! ## One item changed -/

/-- At the key, `new` stands in `items'` where `old` stood in `items`; `none` stands for no item. -/
def Replaces (key : α → UInt16) (k : UInt16) (old new : Option α) (items items' : List α) : Prop :=
  ∃ front back, PartsAt key k items front old back ∧ (∀ a ∈ new, key a = k) ∧
    items' = front ++ (new.toList ++ back)

/-- In a parted list what was found may be replaced. -/
theorem PartsAt.replaces {k : UInt16} {items front back : List α} {old new : Option α}
    (h : PartsAt key k items front old back) (hnew : ∀ a ∈ new, key a = k) :
    Replaces key k old new items (front ++ (new.toList ++ back)) := ⟨front, back, h, hnew, rfl⟩

namespace Replaces

variable {k : UInt16} {old new : Option α} {items items' : List α}

/-- The only item may be replaced. -/
theorem single (hold : ∀ a ∈ old, key a = k) (hnew : ∀ a ∈ new, key a = k) :
    Replaces key k old new old.toList new.toList :=
  ⟨[], [], ⟨by simp, by simp, hold, by simp⟩, hnew, by simp⟩

theorem lookup_old (h : Replaces key k old new items items') : lookup key k items = old := by
  obtain ⟨front, back, hparts, -, -⟩ := h
  exact hparts.lookup_self

theorem lookup_new (h : Replaces key k old new items items') : lookup key k items' = new := by
  obtain ⟨front, back, hparts, hnew, rfl⟩ := h
  exact (hparts.replace hnew).lookup_self

theorem lookup_other (h : Replaces key k old new items items') {other : UInt16}
    (hne : other ≠ k) : lookup key other items' = lookup key other items := by
  obtain ⟨front, back, hparts, hnew, rfl⟩ := h
  exact hparts.lookup_change hnew hne

theorem ascending (h : Replaces key k old new items items') (hasc : Ascending key items) :
    Ascending key items' := by
  obtain ⟨front, back, hparts, hnew, rfl⟩ := h
  exact hparts.ascending_change hasc hnew

/-- What is in the changed list is the new item or was there before. -/
theorem mem (h : Replaces key k old new items items') {a : α} (ha : a ∈ items') :
    a ∈ new ∨ a ∈ items := by
  obtain ⟨front, back, hparts, -, rfl⟩ := h
  rw [hparts.items_eq]
  simp only [List.mem_append, Option.mem_toList] at ha ⊢
  tauto

/-- A total over the items changes by what the item contributes. -/
theorem sum_map (h : Replaces key k old new items items') (f : α → Nat) :
    (items'.map f).sum + (old.toList.map f).sum = (items.map f).sum + (new.toList.map f).sum := by
  obtain ⟨front, back, hparts, -, rfl⟩ := h
  rw [hparts.items_eq]
  simp only [List.map_append, List.sum_append]
  omega

/-- It does not grow when an item is left out. -/
theorem sum_map_le (h : Replaces key k old none items items') (f : α → Nat) :
    (items'.map f).sum ≤ (items.map f).sum := by
  have hsum := h.sum_map f
  simp only [Option.toList_none, List.map_nil, List.sum_nil] at hsum
  omega

/-- The replaced item contributed to the total. -/
theorem sum_le (h : Replaces key k old new items items') (f : α → Nat) :
    (old.toList.map f).sum ≤ (items.map f).sum := by
  obtain ⟨front, back, hparts, -, -⟩ := h
  rw [hparts.items_eq]
  simp only [List.map_append, List.sum_append]
  omega

theorem length (h : Replaces key k old new items items') :
    items'.length + old.toList.length = items.length + new.toList.length := by
  obtain ⟨front, back, hparts, -, rfl⟩ := h
  rw [hparts.items_eq]
  simp only [List.length_append]
  omega

end Replaces

/-! ## Groups -/

/-- Groups are parted at a number as the name says. -/
theorem partsAt_partAt (number : UInt16) {groups : List Group}
    (hasc : Ascending Group.number groups) :
    PartsAt Group.number number groups (partAt number groups).before
      (partAt number groups).found (partAt number groups).after := by
  induction groups with
  | nil => exact ⟨rfl, by simp [partAt], by simp [partAt], by simp [partAt]⟩
  | cons group rest ih =>
    by_cases hlt : group.number < number
    · simp only [partAt, if_pos hlt]
      exact (ih (List.pairwise_cons.1 hasc).2).cons hlt
    · have hparts := PartsAt.of_le hasc hlt
      simp only [partAt, if_neg hlt]
      by_cases heq : group.number = number
      · simp only [if_pos heq] at hparts ⊢
        exact hparts
      · simp only [if_neg heq] at hparts ⊢
        exact hparts

end InvertedIndex
