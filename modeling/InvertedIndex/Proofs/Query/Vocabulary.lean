import InvertedIndex.Proofs.Cursor.Answer
import InvertedIndex.Proofs.Query.Grammar

/-!
# `Proofs.Query.Vocabulary` — what sources show

To compile a tree it is enough to know what a source shows for each term and each stem: its
**vocabulary**. A source that answers like a catalog has the vocabulary of what the catalog shows, as
long as the windows in it ascend: under a term the documents with their positions, and under a stem
those of all terms that begin with it.

## Contents
- `Vocabulary`, `Source.Shows`: an answer for every term and every stem;
- `HitList.shows`: what the stream of a list of hits shows;
- `Contents.vocabulary`, `Catalog.Shows.source_shows`: sources that answer like a catalog.
-/

namespace InvertedIndex

/-- An answer for every term, and one for every stem. -/
structure Vocabulary where
  term : String → Answer
  stem : String → Answer

/-- The cursors of a source show the answers. -/
structure Source.Shows {S L : Type} [Source S L] [IdStream L] (source : S)
    (vocabulary : Vocabulary) : Prop where
  cursor : ∀ term, (vocabulary.term term).Shows (Source.cursor source term)
  stemCursor : ∀ stem, (vocabulary.stem stem).Shows (Source.stemCursor source stem)

/-! ## Lists of hits -/

/-- The positions in a document. -/
def Hit.placesIn (hits : Set Hit) (id : DocId) : Set Position :=
  {p | ∃ hit ∈ hits, hit.id = id ∧ p ∈ hit.window}

/-- The ids and positions of a list of hits. -/
def HitList.answer (list : HitList) : Answer where
  ids := list.ids
  places := Hit.placesIn {hit | hit ∈ list.hits}
  blank := True

/-- **The stream of a list of hits shows the hits**, if their windows ascend. -/
theorem HitList.shows {list : HitList} (hasc : ∀ hit ∈ list.hits, hit.window.Pairwise (· < ·)) :
    list.answer.Shows list.stream := by
  intro ms
  have hfresh : list.sim.At .fresh list.stream := rfl
  -- Where the stream stands after the moves, all it needs is the list.
  have hat : list.Standing (moves IdStream.move ms list.stream) (list.ids.run ms .fresh) :=
    list.sim.run_at hfresh ms
  generalize moves IdStream.move ms list.stream = s at hat
  show list.answer.Shown (list.ids.run ms .fresh) s
  generalize list.ids.run ms .fresh = phase at hat
  refine ⟨standing_current hat, ?_, ?_⟩
  · rintro id rfl
    obtain ⟨hit, hmem, rfl, hhere⟩ := hat.exists_hit
    have hwindow : IdStream.window s = hit.window := by
      show s.window = _
      rw [HitStream.window, hhere]
    rw [hwindow]
    refine ⟨hasc hit hmem, ?_⟩
    ext p
    constructor
    · intro hp
      exact ⟨hit, hmem, rfl, hp⟩
    · rintro ⟨other, hother, hid, hp⟩
      rwa [← HitList.hit_unique hother hmem hid]
  · intro _ hzero
    cases phase with
    | fresh | spent =>
      obtain rfl := hat
      rfl
    | hit id =>
      obtain ⟨hit, hmem, rfl, -⟩ := hat.exists_hit
      exact absurd hzero (list.positive hit hmem)

/-- A related stream shows the same. -/
theorem Bisimulation.shows {S T : Type} [IdStream S] [IdStream T] (bisim : Bisimulation S T)
    {s : S} {t : T} (h : bisim.Rel s t) {answer : Answer} (hshows : answer.Shows s) :
    answer.Shows t := by
  intro ms
  have hmoves : bisim.Rel (moves IdStream.move ms s) (moves IdStream.move ms t) :=
    bisim.rel_moves h ms
  obtain ⟨hcurrent, hlists, hnothing⟩ := hshows ms
  exact ⟨(bisim.current_eq hmoves).symm.trans hcurrent,
    fun hphase => bisim.window_eq hmoves ▸ hlists hphase,
    fun hblank hzero => (bisim.window_eq hmoves).symm.trans (hnothing hblank hzero)⟩

/-! ## Catalogs -/

namespace Contents

/-- The documents under a term, with the positions there. -/
noncomputable def answer (contents : Contents) (term : String) : Answer where
  ids := .ofSet (contents.ids term)
  places := Hit.placesIn (contents.hits term)
  blank := True

theorem mem_answer {contents : Contents} {term : String} {id : DocId} :
    id ∈ (contents.answer term).ids ↔ id ≠ 0 ∧ id ∈ contents.ids term := IdList.mem_ofSet

/-- The documents under a term, and under the terms with a stem. -/
noncomputable def vocabulary (contents : Contents) : Vocabulary where
  term := contents.answer
  stem stem :=
    { ids := .ofSet {id | ∃ term ∈ contents.terms, stem.toList <+: term.toList ∧ id ∈ contents.ids term}
      places := fun id => {p | ∃ term ∈ contents.terms, stem.toList <+: term.toList ∧
        p ∈ Hit.placesIn (contents.hits term) id}
      blank := True }

/-- The windows under all terms ascend. -/
def Ascending (contents : Contents) : Prop :=
  ∀ term ∈ contents.terms, ∀ hit ∈ contents.hits term, hit.window.Pairwise (· < ·)

end Contents

namespace Catalog.Shows

variable {S L : Type} [Source S L] [IdStream L] {shows : Bisimulation HitStream L}
  {catalog : Catalog L} {contents : Contents}

/-- The stream listed for a term shows its documents. -/
theorem leaf_shows (h : catalog.Shows shows contents) (hasc : contents.Ascending)
    {entry : String × L} (hentry : entry ∈ catalog.entries) :
    (contents.answer entry.1).Shows (.leaf entry.2 : Cursor L) := by
  obtain ⟨list, hlist, hrel⟩ := h.hits entry hentry
  have hterm : entry.1 ∈ contents.terms := (h.terms entry.1).1 ⟨entry, hentry, rfl⟩
  have hwindows : ∀ hit ∈ list.hits, hit.window.Pairwise (· < ·) := fun hit hhit =>
    hasc entry.1 hterm hit ((hlist hit).1 hhit)
  refine Answer.shows_leaf ((shows.shows hrel (HitList.shows hwindows)).congr ?_ ?_ id)
  · refine IdList.ext_mem fun id => ?_
    rw [Contents.answer, IdList.mem_ofSet, HitList.answer, HitList.mem_ids]
    simp only [hlist]
    constructor
    · rintro ⟨-, -, hid⟩
      exact hid
    · rintro ⟨hit, hhit, rfl⟩
      exact ⟨list.positive hit ((hlist hit).2 hhit), hterm, hit, hhit, rfl⟩
  · intro id _
    have hsame : {hit | hit ∈ list.hits} = contents.hits entry.1 := Set.ext hlist
    rw [HitList.answer, hsame]
    rfl

/-- **A source that answers like a catalog shows what the catalog does.** -/
theorem source_shows {source : S} (h : catalog.Shows shows contents) (hasc : contents.Ascending)
    (hserves : catalog.Serves source) : Source.Shows source contents.vocabulary where
  cursor := by
    intro term
    rcases hserves.cursor_cases term with ⟨entry, hentry, rfl, hcursor⟩ | ⟨hnone, hcursor⟩
    · rw [hcursor]
      exact h.leaf_shows hasc hentry
    · rw [hcursor]
      refine Answer.shows_empty.congr ?_ ?_ id
      · refine IdList.ext_mem fun id => ?_
        rw [Answer.mem_ofIds]
        refine ⟨fun hid => ?_, fun hid => hid.2.elim⟩
        obtain ⟨entry, hentry, hterm⟩ := (h.terms term).2 (IdList.mem_ofSet.1 hid).2.1
        exact absurd hterm (hnone entry hentry)
      · exact fun hid => (Answer.mem_ofIds.1 hid).2.elim
  stemCursor := by
    intro stem
    have hterms := h.exists_withStem stem
    have hshows : List.Forall₂ (fun answer (c : Cursor L) => answer.Shows c)
        ((catalog.withStem stem).map fun entry => contents.answer entry.1)
        ((catalog.withStem stem).map fun entry => .leaf entry.2) := by
      rw [List.forall₂_map_left_iff, List.forall₂_map_right_iff, List.forall₂_same]
      exact fun entry hentry => h.leaf_shows hasc (catalog.mem_withStem.1 hentry).1
    have hblank : ∀ answer ∈ (catalog.withStem stem).map fun entry => contents.answer entry.1,
        answer.blank := List.forall_mem_map.2 fun _ _ => trivial
    rw [hserves.stemCursor]
    refine (Answer.shows_wildcard hshows hblank).congr (IdList.ext_mem fun id => ?_) ?_ id
    · rw [Answer.mem_union, Contents.vocabulary, IdList.mem_ofSet]
      constructor
      · rintro ⟨hne, term, hterm, hstem, hid⟩
        obtain ⟨entry, hentry, rfl⟩ := (hterms term).2 ⟨hterm, hstem⟩
        exact ⟨_, List.mem_map_of_mem hentry, Contents.mem_answer.2 ⟨hne, hid⟩⟩
      · rintro ⟨answer, hanswer, hid⟩
        obtain ⟨entry, hentry, rfl⟩ := List.mem_map.1 hanswer
        obtain ⟨hne, hid⟩ := Contents.mem_answer.1 hid
        obtain ⟨hterm, hstem⟩ := (hterms entry.1).1 ⟨entry, hentry, rfl⟩
        exact ⟨hne, entry.1, hterm, hstem, hid⟩
    · intro id hid
      have hne := IdList.ne_zero hid
      ext p
      constructor
      · rintro ⟨term, hterm, hstem, hp⟩
        obtain ⟨entry, hentry, rfl⟩ := (hterms term).2 ⟨hterm, hstem⟩
        obtain ⟨hit, hhit, hid', hpos⟩ := hp
        exact ⟨nofun, _, List.mem_map_of_mem hentry,
          Contents.mem_answer.2 ⟨hne, hterm, hit, hhit, hid'⟩, hit, hhit, hid', hpos⟩
      · rintro ⟨-, answer, hanswer, -, hp⟩
        obtain ⟨entry, hentry, rfl⟩ := List.mem_map.1 hanswer
        obtain ⟨hterm, hstem⟩ := (hterms entry.1).1 ⟨entry, hentry, rfl⟩
        exact ⟨entry.1, hterm, hstem, hp⟩

end Catalog.Shows

end InvertedIndex
