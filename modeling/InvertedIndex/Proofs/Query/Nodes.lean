import InvertedIndex.Query.Compile
import Mathlib.Data.List.Forall2
import Mathlib.Order.BooleanAlgebra.Set

/-!
# `Proofs.Query.Nodes` — how compiled tokens combine sets

There is more than one way to say which documents a cursor goes through, depending on what is known
about the leaves. Whatever way is taken, as long as it respects how cursors are composed, the tokens
of a tree combine the sets of their children: the shortcuts of the compiler, which has no cursor, an
empty cursor, or the cursor of a single child where it can, never change the set.

## Contents
- `Compositional`: ways to say it that respect how cursors are composed;
- `Yields`: the set of a cursor, or of none;
- `nodeSet`: how a token combines the sets of its children;
- `members?_yields`, `group?_yields`, `alternatives_visits`, `exclusion?_yields`; `inner?_yields`: all
  tokens with children except quoted ones;
- `wildcard_visits`: the cursor of a stem;
- `visits_items`, `exists_items`, `any_items`: cursors for some items.
-/

namespace InvertedIndex

/-- A relation between cursors and sets that every way to compose cursors respects. -/
structure Compositional {L : Type} (Visits : Cursor L → Set DocId → Prop) : Prop where
  empty : Visits .empty ∅
  /-- Only the empty cursor is of the empty kind. -/
  of_kind : ∀ {c set}, Visits c set → c.kind = .empty → set = ∅
  inter : ∀ {subs sets}, List.Forall₂ Visits subs sets → sets ≠ [] →
    Visits (.interOf subs) {id | ∀ set ∈ sets, id ∈ set}
  union : ∀ kind {subs sets}, List.Forall₂ Visits subs sets →
    Visits (.unionOf kind subs) {id | ∃ set ∈ sets, id ∈ set}
  diff : ∀ {kept dropped keptSet droppedSet}, Visits kept keptSet → Visits dropped droppedSet →
    Visits (.diff kept dropped) (keptSet \ droppedSet)

/-- The set of a cursor, or of none, which goes through nothing. -/
inductive Yields {L : Type} (Visits : Cursor L → Set DocId → Prop) :
    Option (Cursor L) → Set DocId → Prop where
  | nothing : Yields Visits none ∅
  | cursor {c : Cursor L} {set : Set DocId} (h : Visits c set) : Yields Visits (some c) set

/-- How a token of the kind combines the sets of its children. A quoted group asks for a document
    where `aligned` holds, too. -/
def nodeSet (kind : TokenKind) (sets : List (Set DocId)) (aligned : DocId → Prop) : Set DocId :=
  match kind with
  | .openParen => {id | ∀ set ∈ sets, id ∈ set}
  | .doubleQuote => {id | (∀ set ∈ sets, id ∈ set) ∧ aligned id}
  | .or => {id | ∃ set ∈ sets, id ∈ set}
  | .not =>
    match sets with
    | dropped :: kept :: _ => kept \ dropped
    | _ => ∅
  | _ => ∅

variable {L : Type} {Visits : Cursor L → Set DocId → Prop}

namespace Yields

theorem visits {c : Cursor L} {set : Set DocId} (h : Yields Visits (some c) set) : Visits c set := by
  cases h with
  | cursor h => exact h

/-- Without a cursor there is the empty one. -/
theorem getD (hvisits : Compositional Visits) {c : Option (Cursor L)} {set : Set DocId}
    (h : Yields Visits c set) : Visits (c.getD .empty) set := by
  cases h with
  | nothing => exact hvisits.empty
  | cursor h => exact h

end Yields

/-- What all of a single set have. -/
theorem all_singleton (set : Set DocId) : {id | ∀ s ∈ [set], id ∈ s} = set := by
  ext id
  simp

theorem any_singleton (set : Set DocId) : {id | ∃ s ∈ [set], id ∈ s} = set := by
  ext id
  simp

theorem any_nil : {id | ∃ s ∈ ([] : List (Set DocId)), id ∈ s} = (∅ : Set DocId) := by
  ext id
  simp

namespace Compiler

variable (hvisits : Compositional Visits) {subs : List (Option (Cursor L))}
  {sets : List (Set DocId)}

/-- The members of a group are all of them. -/
theorem members?_eq_some {members : List (Cursor L)} (h : members? subs = some members) :
    subs = members.map some := by
  induction subs generalizing members with
  | nil =>
    obtain rfl := Option.some.inj h
    rfl
  | cons sub rest ih =>
    cases sub with
    | none => cases h
    | some c =>
      rw [members?] at h
      split at h
      · cases h
      · obtain ⟨others, hothers, rfl⟩ := Option.map_eq_some_iff.1 h
        rw [List.map_cons, ih hothers]

include hvisits

/-- The members of a group, unless one of the sets is empty. -/
theorem members?_yields (h : List.Forall₂ (Yields Visits) subs sets) :
    (members? subs = none ∧ ∅ ∈ sets) ∨
      ∃ members, members? subs = some members ∧ List.Forall₂ Visits members sets := by
  induction h with
  | nil => exact .inr ⟨[], rfl, .nil⟩
  | @cons sub set subs sets hsub _ ih =>
    cases hsub with
    | nothing => exact .inl ⟨rfl, List.mem_cons_self⟩
    | @cursor c _ hc =>
      by_cases hkind : c.kind = .empty
      · refine .inl ⟨?_, ?_⟩
        · rw [members?, if_pos hkind]
        · rw [hvisits.of_kind hc hkind]
          exact List.mem_cons_self
      · rcases ih with ⟨hnone, hempty⟩ | ⟨members, hsome, hall⟩
        · refine .inl ⟨?_, List.mem_cons_of_mem _ hempty⟩
          rw [members?, if_neg hkind, hnone]
          rfl
        · refine .inr ⟨c :: members, ?_, .cons hc hall⟩
          rw [members?, if_neg hkind, hsome]
          rfl

/-- A group has the documents that all its members have. -/
theorem group?_yields (h : List.Forall₂ (Yields Visits) subs sets) (hne : sets ≠ []) :
    Yields Visits (group? .openParen subs) {id | ∀ set ∈ sets, id ∈ set} := by
  rcases members?_yields hvisits h with ⟨hnone, hempty⟩ | ⟨members, hsome, hall⟩
  · have hset : {id | ∀ set ∈ sets, id ∈ set} = (∅ : Set DocId) :=
      Set.eq_empty_of_forall_notMem fun id hid => hid ∅ hempty
    rw [group?, hnone, hset]
    exact .nothing
  · rw [group?, hsome]
    match members, sets, hall with
    | [], [], .nil => exact absurd rfl hne
    | [c], [set], .cons hc .nil =>
      rw [all_singleton]
      exact .cursor hc
    | c :: c' :: rest, sets, hall => exact .cursor (hvisits.inter hall hne)

/-- Alternatives have the documents that any of them has. -/
theorem alternatives_visits (h : List.Forall₂ (Yields Visits) subs sets) :
    Visits (alternatives subs) {id | ∃ set ∈ sets, id ∈ set} := by
  -- Those without a cursor have no documents, and can be left out.
  have hfound : ∃ found, List.Forall₂ Visits (subs.filterMap id) found ∧
      ∀ id, (∃ set ∈ found, id ∈ set) ↔ ∃ set ∈ sets, id ∈ set := by
    induction h with
    | nil => exact ⟨[], .nil, fun id => Iff.rfl⟩
    | cons hsub _ ih =>
      obtain ⟨found, hall, hsame⟩ := ih
      cases hsub with
      | nothing => exact ⟨found, hall, fun id => by simp [hsame]⟩
      | cursor hc => exact ⟨_ :: found, .cons hc hall, fun id => by simp [hsame]⟩
  obtain ⟨found, hall, hsame⟩ := hfound
  have hset : {id | ∃ set ∈ sets, id ∈ set} = {id | ∃ set ∈ found, id ∈ set} := by
    ext id
    exact (hsame id).symm
  rw [hset, alternatives]
  generalize subs.filterMap id = cursors at hall ⊢
  match cursors, found, hall with
  | [], [], .nil =>
    rw [any_nil]
    exact hvisits.empty
  | [c], [set], .cons hc .nil =>
    rw [any_singleton]
    exact hc
  | c :: c' :: rest, found, hall =>
    simp only
    split
    · exact hvisits.union .positional hall
    · exact hvisits.union .plain hall

/-- An exclusion has the documents that the kept part has and the dropped one does not have. -/
theorem exclusion?_yields (h : List.Forall₂ (Yields Visits) subs sets) :
    Yields Visits (exclusion? subs) (nodeSet .not sets fun _ => True) := by
  match subs, sets, h with
  | [], [], .nil => exact .nothing
  | [_], [_], .cons _ .nil => exact .nothing
  | dropped :: kept :: _, droppedSet :: keptSet :: _, .cons hdropped (.cons hkept _) =>
    show Yields Visits (exclusion? _) (keptSet \ droppedSet)
    cases hkept with
    | nothing =>
      rw [Set.empty_sdiff]
      exact .cursor hvisits.empty
    | @cursor k _ hk =>
      cases hdropped with
      | nothing =>
        rw [Set.sdiff_empty]
        exact .cursor hk
      | cursor hd => exact .cursor (hvisits.diff hk hd)

/-- **A token with children combines their sets**, unless it is a quoted group. -/
theorem inner?_yields {kind : TokenKind} (hkind : kind ≠ .doubleQuote) (aligned : DocId → Prop)
    (h : List.Forall₂ (Yields Visits) subs sets) (hne : sets ≠ []) :
    Yields Visits (inner? kind subs) (nodeSet kind sets aligned) := by
  cases kind with
  | doubleQuote => exact absurd rfl hkind
  | openParen => exact group?_yields hvisits h hne
  | or => exact .cursor (alternatives_visits hvisits h)
  | not => exact exclusion?_yields hvisits h
  | _ => exact .nothing

end Compiler

/-- The union over the terms with a stem is a union, even of a single cursor or none. -/
theorem wildcard_visits (hvisits : Compositional Visits) {subs : List (Cursor L)}
    {sets : List (Set DocId)} (h : List.Forall₂ Visits subs sets) :
    Visits (Cursor.wildcard subs) {id | ∃ set ∈ sets, id ∈ set} := by
  match subs, sets, h with
  | [], [], .nil =>
    rw [any_nil]
    exact hvisits.empty
  | [c], [set], .cons hc .nil =>
    rw [any_singleton]
    exact hc
  | c :: c' :: rest, sets, h => exact hvisits.union .wildcard h

/-! ## Cursors for some items -/

section Items

variable {α : Type} {items : List α} {cursor : α → Cursor L} {sets : α → Set DocId}

theorem visits_items (h : ∀ item ∈ items, Visits (cursor item) (sets item)) :
    List.Forall₂ Visits (items.map cursor) (items.map sets) := by
  rw [List.forall₂_map_left_iff, List.forall₂_map_right_iff, List.forall₂_same]
  exact h

/-- What is there for each item is there for all of them. -/
theorem exists_items {β γ : Type} {R : β → γ → Prop} {value : α → β}
    (h : ∀ item ∈ items, ∃ result, R (value item) result) :
    ∃ results, List.Forall₂ R (items.map value) results := by
  induction items with
  | nil => exact ⟨[], .nil⟩
  | cons item rest ih =>
    obtain ⟨⟨result, hresult⟩, hrest⟩ := List.forall_mem_cons.1 h
    obtain ⟨results, hresults⟩ := ih hrest
    exact ⟨result :: results, .cons hresult hresults⟩

theorem any_items : {id | ∃ set ∈ items.map sets, id ∈ set} = {id | ∃ item ∈ items, id ∈ sets item} := by
  ext id
  simp

end Items

end InvertedIndex
