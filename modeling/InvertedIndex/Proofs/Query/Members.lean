import InvertedIndex.Proofs.Cursor.Steady
import InvertedIndex.Proofs.Query.Answers

/-!
# `Proofs.Query.Members` — parentheses go through what all tokens in them do

Which documents a compiled token goes through can be read off its cursor: those that the cursor
yields. For this to say something about a whole tree the cursors of the source only have to be steady,
as they are over any postings, whatever the payloads are. A quoted group then goes through documents
that depend on the windows of its members; any other token combines the sets of its children.

## Contents
- `Cursor.found`: what a cursor, or none, goes through; `Cursor.Passes`: steady cursors as sets;
- `Cursor.passes_compositional`: they are composed as cursors are;
- `Source.Steady`: sources with steady cursors; `Compiler.token?_passes`: so are compiled tokens;
- `Compiler.paren_ids`: what parentheses go through;
- `Catalog.Shows.source_steady`: any source that shows hits is steady.
-/

namespace InvertedIndex

/-! ## Steady cursors as sets -/

/-- Any set without `0` is that of some ids. -/
theorem IdList.exists_toSet (set : Set DocId) (h : ∀ id ∈ set, id ≠ 0) :
    ∃ ids : IdList, ids.toSet = set := by
  refine ⟨.ofSet set, ?_⟩
  ext id
  rw [mem_toSet, mem_ofSet]
  exact and_iff_right_of_imp (h id)

namespace Cursor

variable {L : Type} [IdStream L]

/-- The documents that a cursor goes through; none goes through nothing. -/
def found (c : Option (Cursor L)) : Set DocId := {id | id ∈ IdStream.ids (c.getD .empty)}

/-- The cursor goes steadily through the documents. -/
def Passes (c : Cursor L) (set : Set DocId) : Prop := ∃ ids, Steady c ids ∧ ids.toSet = set

theorem exists_lists {subs : List (Cursor L)} {sets : List (Set DocId)}
    (h : List.Forall₂ Passes subs sets) :
    ∃ lists, List.Forall₂ Steady subs lists ∧ lists.map IdList.toSet = sets := by
  induction h with
  | nil => exact ⟨[], .nil, rfl⟩
  | cons hpasses _ ih =>
    obtain ⟨ids, hsteady, rfl⟩ := hpasses
    obtain ⟨lists, hall, rfl⟩ := ih
    exact ⟨ids :: lists, .cons hsteady hall, rfl⟩

/-- **Steady cursors are composed as cursors are.** -/
theorem passes_compositional : Compositional (Passes (L := L)) where
  empty := ⟨_, steady_empty, toSet_of_obeys_empty (L := L) steady_empty.obeys⟩
  of_kind := by
    rintro c _ ⟨ids, hsteady, rfl⟩ hkind
    cases c with
    | empty => exact toSet_of_obeys_empty hsteady.obeys
    | union kind subs phase => cases kind <;> cases hkind
    | _ => cases hkind
  inter := by
    intro subs sets h hne
    obtain ⟨lists, hall, rfl⟩ := exists_lists h
    have hlists : lists ≠ [] := by simpa using hne
    obtain ⟨first, hfirst⟩ := List.exists_mem_of_ne_nil lists hlists
    obtain ⟨ids, hids⟩ := IdList.exists_toSet {id | ∀ set ∈ lists.map IdList.toSet, id ∈ set}
      fun id hid => IdList.ne_zero (hid _ (List.mem_map_of_mem hfirst))
    refine ⟨ids, steady_inter hall fun id => ?_, hids⟩
    rw [← IdList.mem_toSet, hids, and_iff_right hlists]
    exact List.forall_mem_map
  union := by
    intro kind subs sets h
    obtain ⟨lists, hall, rfl⟩ := exists_lists h
    rw [any_items]
    obtain ⟨ids, hids⟩ := IdList.exists_toSet {id | ∃ list ∈ lists, id ∈ list.toSet} <| by
      rintro id ⟨list, -, hid⟩
      exact IdList.ne_zero hid
    refine ⟨ids, steady_union hall kind fun id => ?_, hids⟩
    rw [← IdList.mem_toSet, hids]
    exact Iff.rfl
  diff := by
    rintro k d _ _ ⟨kept, hkept, rfl⟩ ⟨dropped, hdropped, rfl⟩
    obtain ⟨ids, hids⟩ := IdList.exists_toSet (kept.toSet \ dropped.toSet)
      fun id hid => IdList.ne_zero hid.1
    refine ⟨ids, steady_diff hkept hdropped fun id => ?_, hids⟩
    rw [← IdList.mem_toSet, hids]
    exact Iff.rfl

/-- A steady cursor goes through its documents in ascending order. -/
theorem Passes.ids {c : Cursor L} {set : Set DocId} (h : Passes c set) :
    (IdStream.ids c).Pairwise (· < ·) ∧ ∀ id, id ∈ IdStream.ids c ↔ id ∈ set := by
  obtain ⟨list, hsteady, rfl⟩ := h
  rw [hsteady.ids_eq]
  exact ⟨list.ascending, fun id => Iff.rfl⟩

/-- The documents of a cursor, or of none, are those that it goes through. -/
theorem found_of_yields {c : Option (Cursor L)} {set : Set DocId} (h : Yields Passes c set) :
    found c = set := by
  ext id
  exact (h.getD passes_compositional).ids.2 id

end Cursor

/-! ## Compiled tokens -/

/-- The cursors of a source are steady. -/
structure Source.Steady {S L : Type} [Source S L] [IdStream L] (source : S) : Prop where
  cursor : ∀ term, ∃ set, Cursor.Passes (Source.cursor source term) set
  stemCursor : ∀ stem, ∃ set, Cursor.Passes (Source.stemCursor source stem) set

namespace Compiler

open Cursor

variable {S L : Type} [Source S L] [IdStream L] {compiler : Compiler S L}

/-- The cursors of steady children. -/
theorem exists_sets {α : Type} {items : List α} {cursor : α → Option (Cursor L)}
    (h : ∀ item ∈ items, ∃ set, Yields Passes (cursor item) set) :
    List.Forall₂ (Yields Passes) (items.map cursor) (items.map fun item => found (cursor item)) := by
  rw [List.forall₂_map_left_iff, List.forall₂_map_right_iff, List.forall₂_same]
  intro item hitem
  obtain ⟨set, hset⟩ := h item hitem
  rwa [found_of_yields hset]

theorem leaf?_passes (h : Source.Steady compiler.source) {token : Token}
    (hhook : compiler.hook token = none) : ∃ set, Yields Passes (compiler.leaf? token) set := by
  have hcursor (term : String) :
      ∃ set, Yields Passes (some (Source.cursor compiler.source term)) set := by
    obtain ⟨set, hset⟩ := h.cursor term
    exact ⟨set, .cursor hset⟩
  unfold leaf?
  rw [hhook]
  by_cases hnull : token.kind = .null
  · simp only [if_pos hnull]
    exact ⟨∅, .nothing⟩
  · simp only [if_neg hnull]
    match token.attrs with
    | [] =>
      cases stem? token.text with
      | some stem =>
        obtain ⟨set, hset⟩ := h.stemCursor stem
        exact ⟨set, .cursor hset⟩
      | none => exact hcursor token.text
    | [attr] => exact hcursor (token.text ++ attr)
    | attr :: other :: attrs =>
      obtain ⟨sets, hsets⟩ := exists_items fun value (_ : value ∈ attr :: other :: attrs) =>
        h.cursor (token.text ++ value)
      exact ⟨_, .cursor (passes_compositional.union .plain hsets)⟩

/-- A quoted group of steady members is steady, whatever their windows are. -/
theorem phrase_passes {subs : List (Option (Cursor L))} {sets : List (Set DocId)}
    (h : List.Forall₂ (Yields Passes) subs sets) :
    ∃ set, Yields Passes (group? .doubleQuote subs) set := by
  rcases members?_yields passes_compositional h with ⟨hnone, -⟩ | ⟨members, hsome, hall⟩
  · rw [group?, hnone]
    exact ⟨∅, .nothing⟩
  · obtain ⟨lists, hsteady, -⟩ := exists_lists hall
    obtain ⟨ids, hids⟩ := steady_phrase hsteady
    rw [group?, hsome]
    exact ⟨ids.toSet, .cursor ⟨ids, hids, rfl⟩⟩

omit [IdStream L] in
theorem token?_below {token : Token} {depth : Nat} (h : compiler.settings.maxDepth < depth) :
    compiler.token? depth token = none := by
  obtain ⟨⟩ := token
  rw [token?, if_pos h]

/-- **A compiled token is steady** over a steady source. -/
theorem token?_passes (h : Source.Steady compiler.source) (hhook : ∀ token, compiler.hook token = none)
    (depth : Nat) (token : Token) : ∃ set, Yields Passes (compiler.token? depth token) set := by
  rcases Nat.lt_or_ge compiler.settings.maxDepth depth with hbelow | hdepth
  · rw [token?_below hbelow]
    exact ⟨∅, .nothing⟩
  rcases eq_or_ne token.children [] with hbare | hne
  · rw [token?_leaf hdepth hbare]
    exact leaf?_passes h (hhook token)
  rw [token?_node hdepth hne]
  have hall := exists_sets fun child (_ : child ∈ token.children) =>
    token?_passes h hhook (depth + 1) child
  by_cases hkind : token.kind = .doubleQuote
  · rw [hkind]
    exact phrase_passes hall
  · exact ⟨_, inner?_yields passes_compositional hkind (fun _ => True) hall (by simpa using hne)⟩
termination_by token.depth
decreasing_by exact Token.depth_lt ‹_›

/-- **Parentheses go through what all tokens in them do**, in ascending order. -/
theorem paren_ids (h : Source.Steady compiler.source) (hhook : ∀ token, compiler.hook token = none)
    {tokens : List Token} (hne : tokens ≠ []) :
    let ids := IdStream.ids (compiler.tree (some (Token.paren tokens)))
    ids.Pairwise (· < ·) ∧
      ∀ id, id ∈ ids ↔ ∀ token ∈ tokens, id ∈ found (compiler.token? 1 token) := by
  have hall := exists_sets fun token (_ : token ∈ tokens) => token?_passes h hhook 1 token
  have hgroup := group?_yields passes_compositional hall (by simpa using hne)
  have hroot : compiler.token? 0 (Token.paren tokens)
      = group? .openParen (tokens.map (compiler.token? 1)) := token?_node (Nat.zero_le _) hne
  rw [tree, Option.bind_some, hroot]
  simpa only [Set.mem_ofPred_eq, List.forall_mem_map] using
    (hgroup.getD passes_compositional).ids

end Compiler

/-! ## Sources that show hits -/

/-- Streams related to simulated ones are simulated. -/
def Bisimulation.sim {S T : Type} [IdStream S] [IdStream T] (bisim : Bisimulation S T)
    (sim : Simulation (S := S) IdStream.current IdStream.move) :
    Simulation (S := T) IdStream.current IdStream.move where
  ids := sim.ids
  At phase t := ∃ s, bisim.Rel s t ∧ sim.At phase s
  has := by
    rintro phase t ⟨s, -, hat⟩
    exact sim.has hat
  current_eq := by
    rintro phase t ⟨s, hrel, hat⟩
    rw [← bisim.current_eq hrel]
    exact sim.current_eq hat
  move_at := by
    rintro m phase t ⟨s, hrel, hat⟩
    exact ⟨_, bisim.move m hrel, sim.move_at m hat⟩

namespace HitList

variable {list : HitList}

/-- The window of the hit with an id, if there is one. -/
def windowOf (list : HitList) (id : DocId) : Window :=
  ((list.hits.find? fun hit => hit.id = id).map Hit.window).getD []

/-- On an id the stream of a list of hits shows the window of the hit with it. -/
theorem standing_window {s : HitStream} {id : DocId} (h : list.Standing s (.hit id)) :
    s.window = list.windowOf id := by
  obtain ⟨hit, hhit, rfl, hhere⟩ := h.exists_hit
  rw [HitStream.window, hhere, windowOf]
  cases hfind : list.hits.find? fun other => other.id = hit.id with
  | none =>
    have hnone := List.find?_eq_none.1 hfind hit hhit
    simp at hnone
  | some other =>
    have hid : other.id = hit.id := by simpa using List.find?_some hfind
    rw [hit_unique (List.mem_of_find?_eq_some hfind) hhit hid]
    rfl

end HitList

namespace Catalog.Shows

variable {S L : Type} [Source S L] [IdStream L] {shows : Bisimulation HitStream L}
  {catalog : Catalog L} {contents : Contents}

/-- The stream listed for a term is steady. -/
theorem leaf_passes (h : catalog.Shows shows contents) {entry : String × L}
    (hentry : entry ∈ catalog.entries) : ∃ set, Cursor.Passes (.leaf entry.2) set := by
  obtain ⟨list, -, hrel⟩ := h.hits entry hentry
  have hwindow {id : DocId} {l : L} (hat : (shows.sim list.sim).At (.hit id) l) :
      IdStream.window l = list.windowOf id := by
    obtain ⟨s, hrel, hstanding⟩ := hat
    rw [← shows.window_eq hrel]
    exact HitList.standing_window hstanding
  exact ⟨_, _, Cursor.steady_leaf (shows.sim list.sim) hwindow ⟨list.stream, hrel, rfl⟩, rfl⟩

/-- **A source that answers like a catalog is steady.** -/
theorem source_steady {source : S} (h : catalog.Shows shows contents)
    (hserves : catalog.Serves source) : Source.Steady source where
  cursor := by
    intro term
    rcases hserves.cursor_cases term with ⟨entry, hentry, -, hcursor⟩ | ⟨-, hcursor⟩
    · rw [hcursor]
      exact h.leaf_passes hentry
    · rw [hcursor]
      exact ⟨_, Cursor.passes_compositional.empty⟩
  stemCursor := by
    intro stem
    obtain ⟨sets, hsets⟩ := exists_items fun entry (hentry : entry ∈ catalog.withStem stem) =>
      h.leaf_passes (catalog.mem_withStem.1 hentry).1
    rw [hserves.stemCursor, Catalog.stemCursor]
    exact ⟨_, wildcard_visits Cursor.passes_compositional hsets⟩

end Catalog.Shows

/-- Whatever changes were made to postings, they are a steady source. -/
theorem Postings.Tracks.source_steady {postings : Postings} {ledger : Ledger}
    (h : postings.Tracks ledger) : Source.Steady postings :=
  h.catalog_shows.source_steady postings.catalog_serves

end InvertedIndex
