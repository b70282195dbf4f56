import Mathlib.Data.List.Forall2

/-!
# `Proofs.Outcome` — computations that may fail

What the outcome of a computation tells about its parts: a computation that succeeds has passed each
of them, and one that fails has failed in one of them.

## Contents
- `bind_eq_ok`, `bind_eq_error`: a computation behind another; `map_eq_ok`, `map_eq_error`;
- `mapM_forall₂`, `mapM_eq_ok`, `mapM_eq_map`: a computation for each item of a list.
-/

namespace InvertedIndex

variable {α β ε : Type}

section Bind

variable {first : Except ε α} {next : α → Except ε β}

/-- A computation behind another succeeds if both do. -/
theorem bind_eq_ok {result : β} :
    first >>= next = .ok result ↔ ∃ value, first = .ok value ∧ next value = .ok result := by
  cases first with
  | error fault => simp [bind, Except.bind]
  | ok value => simp [bind, Except.bind]

/-- It fails if one of them does. -/
theorem bind_eq_error {fault : ε} : first >>= next = .error fault ↔
    first = .error fault ∨ ∃ value, first = .ok value ∧ next value = .error fault := by
  cases first with
  | error fault' => simp [bind, Except.bind]
  | ok value => simp [bind, Except.bind]

/-- What is made of a result is there if the result is. -/
theorem map_eq_ok {f : α → β} {result : β} :
    first.map f = .ok result ↔ ∃ value, first = .ok value ∧ f value = result := by
  cases first with
  | error fault => simp [Except.map]
  | ok value => simp [Except.map]

theorem map_eq_error {f : α → β} {fault : ε} : first.map f = .error fault ↔ first = .error fault := by
  cases first with
  | error fault' => simp [Except.map]
  | ok value => simp [Except.map]

end Bind

section Items

variable {f : α → Except ε β} {items : List α}

/-- An accepted run of computations has a result for each item. -/
theorem mapM_forall₂ {results : List β} (h : items.mapM f = .ok results) :
    List.Forall₂ (fun item result => f item = .ok result) items results := by
  induction items generalizing results with
  | nil =>
    cases h
    exact .nil
  | cons item rest ih =>
    rw [List.mapM_cons] at h
    obtain ⟨result, hitem, h⟩ := bind_eq_ok.1 h
    obtain ⟨others, hrest, h⟩ := bind_eq_ok.1 h
    cases h
    exact .cons hitem (ih hrest)

/-- A run of computations is accepted if each is. -/
theorem mapM_eq_ok (h : ∀ item ∈ items, ∃ result, f item = .ok result) :
    ∃ results, items.mapM f = .ok results := by
  induction items with
  | nil => exact ⟨[], rfl⟩
  | cons item rest ih =>
    obtain ⟨⟨result, hresult⟩, hrest⟩ := List.forall_mem_cons.1 h
    obtain ⟨results, hresults⟩ := ih hrest
    refine ⟨result :: results, ?_⟩
    rw [List.mapM_cons, hresult, hresults]
    rfl

/-- Computations that give the values of a function give its values for all items. -/
theorem mapM_eq_map {g : α → β} (h : ∀ item ∈ items, f item = .ok (g item)) :
    items.mapM f = .ok (items.map g) := by
  induction items with
  | nil => rfl
  | cons item rest ih =>
    obtain ⟨hitem, hrest⟩ := List.forall_mem_cons.1 h
    rw [List.mapM_cons, hitem, ih hrest]
    rfl

end Items

end InvertedIndex
