import InvertedIndex.Proofs.Query.Meaning
import InvertedIndex.Proofs.Query.Precedence
import InvertedIndex.Proofs.Query.Scan

/-!
# `Proofs.Query.Answers` — a request is answered with what it asks for

What a request asks for is said by the grammar alone. The tree that its text is read into means just
that: a leaf means the documents of its terms, since the cursors of a source go through them; and
parts, pieces and parentheses mean what the grammar says, since the passes found them.

## Contents
- `Source.Answers`: a source whose cursors go through what it holds; `Catalog.Shows.answers`;
- `Leaf.token_means`: the leaves;
- `Piece.asks`, `Request.asks`: what is asked for, given what the items ask for;
- `Piece.run_means`, …, `Request.branchOf_means`: pieces and requests of items with any tokens;
- `Item.tree_means`, `Request.branch_means`: the tree of a request;
- `Request.query_denotes`: the cursor of a request;
- `Postings.search_ids`: the ids found in live postings.
-/

namespace InvertedIndex

/-! ## Sources -/

/-- The cursors of a source go through the documents that it holds. -/
structure Source.Answers {S L : Type} [Source S L] [IdStream L] (source : S)
    (contents : Contents) : Prop where
  cursor : ∀ term, Denotes (some (Source.cursor source term)) (contents.ids term)
  stemCursor : ∀ stem, Denotes (some (Source.stemCursor source stem))
    {id | ∃ term ∈ contents.terms, stem.toList <+: term.toList ∧ id ∈ contents.ids term}

namespace Catalog.Shows

variable {S L : Type} [Source S L] [IdStream L] {shows : Bisimulation HitStream L}
  {catalog : Catalog L} {contents : Contents}

/-- The stream listed for a term goes through its documents. -/
theorem leaf_denotes (h : catalog.Shows shows contents) {entry : String × L}
    (hentry : entry ∈ catalog.entries) :
    Denotes (some (.leaf entry.2)) (contents.ids entry.1) := by
  obtain ⟨list, hlist, hrel⟩ := h.hits entry hentry
  have hobeys : Obeys list.ids .fresh entry.2 := shows.obeys hrel (list.sim.obeys rfl)
  have hset : contents.ids entry.1 = (SetExpr.leaf entry.2 list.ids hobeys).denote := by
    ext id
    have hterm : entry.1 ∈ contents.terms := (h.terms entry.1).1 ⟨entry, hentry, rfl⟩
    show (entry.1 ∈ contents.terms ∧ ∃ hit ∈ contents.hits entry.1, hit.id = id) ↔ id ∈ list.ids
    rw [HitList.mem_ids, and_iff_right hterm]
    simp only [hlist]
  rw [hset]
  exact Denotes.expr (.leaf entry.2 list.ids hobeys)

/-- **A source that answers like a catalog answers with what the catalog shows.** -/
theorem answers {source : S} (h : catalog.Shows shows contents) (hserves : catalog.Serves source) :
    Source.Answers source contents where
  cursor := by
    intro term
    rcases hserves.cursor_cases term with ⟨entry, hentry, rfl, hcursor⟩ | ⟨hnone, hcursor⟩
    · rw [hcursor]
      exact h.leaf_denotes hentry
    · -- A term that is not listed has no documents, and its cursor is empty.
      have hempty : contents.ids term = (SetExpr.empty (L := L)).denote := by
        refine Set.eq_empty_of_forall_notMem fun id hid => ?_
        obtain ⟨entry, hentry, hterm⟩ := (h.terms term).2 hid.1
        exact hnone entry hentry hterm
      rw [hcursor, hempty]
      exact Denotes.expr .empty
  stemCursor := by
    intro stem
    have hentries : ∀ entry ∈ catalog.withStem stem,
        SetExpr.Visits (.leaf entry.2) (contents.ids entry.1) := fun entry hentry =>
      (h.leaf_denotes (catalog.mem_withStem.1 hentry).1).visits
    have hset : {id | ∃ term ∈ contents.terms, stem.toList <+: term.toList ∧
        id ∈ contents.ids term} = {id | ∃ entry ∈ catalog.withStem stem, id ∈ contents.ids entry.1} := by
      ext id
      constructor
      · rintro ⟨term, hterm, hstem, hid⟩
        obtain ⟨entry, hentry, rfl⟩ := (h.exists_withStem stem term).2 ⟨hterm, hstem⟩
        exact ⟨entry, hentry, hid⟩
      · rintro ⟨entry, hentry, hid⟩
        obtain ⟨hterm, hstem⟩ := (h.exists_withStem stem entry.1).1 ⟨entry, hentry, rfl⟩
        exact ⟨entry.1, hterm, hstem, hid⟩
    rw [hserves.stemCursor, Catalog.stemCursor, hset, ← any_items]
    exact .cursor (wildcard_visits SetExpr.compositional (visits_items hentries))

end Catalog.Shows

/-! ## Leaves -/

/-- A text with a star at its end stands for the stem before it. -/
theorem stem?_star {characters : List Char} (hne : characters ≠ []) :
    stem? (String.ofList (characters ++ ['*'])) = some (String.ofList characters) := by
  have hlength : (characters ++ ['*']).length ≠ 1 := by simpa using hne
  unfold stem?
  simp only [String.toList_ofList]
  rw [if_pos ⟨by simp, hlength⟩, List.dropLast_concat]

namespace Grammar

theorem Word.stem?_text (word : Word) : stem? word.text = none := by
  unfold stem?
  rw [Word.text, String.toList_ofList]
  refine if_neg ?_
  rintro ⟨hstar, -⟩
  exact Word.ne (List.mem_of_getLast? hstar) (by decide) rfl

variable {S L : Type} [Source S L] [IdStream L] {compiler : Compiler S L} {contents : Contents}

/-- The cursor of an attribute with a value. -/
theorem attribute_denotes (h : Source.Answers compiler.source contents) (name value : Word) :
    Denotes (some (Source.cursor compiler.source
        (String.ofList (name.characters ++ [':']) ++ value.text)))
      (attributeIds contents name value) := by
  have hterm : String.ofList (name.characters ++ [':']) ++ value.text
      = name.text ++ ":" ++ value.text := by
    rw [String.ofList_append]
    rfl
  rw [hterm]
  exact h.cursor _

/-- The cursor of an attribute with several values. -/
theorem attributes_denote (h : Source.Answers compiler.source contents) (name : Word)
    (values : List Word) : Denotes (some (Cursor.unionOf .plain (values.map fun value =>
        Source.cursor compiler.source (String.ofList (name.characters ++ [':']) ++ value.text))))
      {id | ∃ value ∈ values, id ∈ attributeIds contents name value} := by
  rw [← any_items]
  exact .cursor (SetExpr.compositional.union .plain
    (visits_items fun value _ => (attribute_denotes h name value).visits))

/-- **A leaf means the documents of its terms.** -/
theorem Leaf.token_means (h : Source.Answers compiler.source contents)
    (hhook : ∀ token, compiler.hook token = none) (leaf : Leaf) :
    compiler.Means leaf.token (leaf.denote contents) := by
  have hbare : leaf.token.children = [] := by cases leaf <;> rfl
  have hkind : leaf.token.kind ≠ .null := by cases leaf <;> simp [token, attributeToken]
  intro depth hdepth
  rw [Compiler.token?_leaf (by omega) hbare]
  unfold Compiler.leaf?
  rw [hhook]
  simp only [if_neg hkind]
  -- Only a stem ends with a star; one value makes a cursor of a term, several make a union.
  cases leaf with
  | word w notOr notNot =>
    simp only [token, w.stem?_text]
    exact h.cursor w.text
  | stem s =>
    simp only [token, stem?_star s.nonempty]
    have hstem := h.stemCursor (String.ofList s.characters)
    rwa [String.toList_ofList] at hstem
  | named name value => exact attribute_denotes h name value
  | listed name value more =>
    cases more with
    | nil =>
      have hone : Leaf.denote contents (.listed name value []) = attributeIds contents name value := by
        ext id
        simp [denote]
      rw [hone]
      exact attribute_denotes h name value
    | cons next more =>
      have hunion := attributes_denote h name (value :: next :: more)
      simpa [token, attributeToken, denote, Function.comp_def] using hunion

/-! ## Pieces -/

theorem Parts.mem_meet {id : DocId} (parts : Parts) :
    id ∈ parts.meet contents ↔ ∀ item ∈ parts.kept, id ∈ item.denote contents := by
  induction parts with
  | nil => simp [meet, kept]
  | item i rest ih =>
    rw [meet, kept, List.forall_mem_cons, ← ih]
    rfl
  | not _ _ rest ih =>
    rw [meet, kept]
    exact ih

theorem Parts.mem_join {id : DocId} (parts : Parts) :
    id ∈ parts.join contents ↔ ∃ item ∈ parts.negated, id ∈ item.denote contents := by
  induction parts with
  | nil => simp [join, negated]
  | item _ rest ih =>
    rw [join, negated]
    exact ih
  | not _ i rest ih =>
    rw [join, negated, List.exists_mem_cons_iff, ← ih]
    rfl

/-- The documents that a piece asks for, given those that its items do: what all items ask for, less
    what any negated one does. -/
def Piece.asks (D : Item → Set DocId) (piece : Piece) : Set DocId :=
  {id | ∀ item ∈ piece.kept, id ∈ D item} \ {id | ∃ item ∈ piece.negated, id ∈ D item}

/-- The documents that a request asks for, given those that its items do: those of any piece. -/
def Request.asks (D : Item → Set DocId) (request : Request) : Set DocId :=
  {id | ∃ piece ∈ request.pieces, id ∈ piece.asks D}

theorem Piece.denote_eq (piece : Piece) :
    piece.denote contents = piece.asks (Item.denote contents) := by
  obtain ⟨before, item, after⟩ := piece
  have hkept (id : DocId) : (∀ i ∈ before.kept ++ item :: after.kept, id ∈ i.denote contents)
      ↔ (id ∈ before.meet contents ∧ id ∈ item.denote contents) ∧ id ∈ after.meet contents := by
    rw [List.forall_mem_append, List.forall_mem_cons, before.mem_meet, after.mem_meet, and_assoc]
  have hnegated (id : DocId) : (∃ i ∈ before.negated ++ after.negated, id ∈ i.denote contents)
      ↔ id ∈ before.join contents ∨ id ∈ after.join contents := by
    simp only [before.mem_join, after.mem_join, List.mem_append, or_and_right, exists_or]
  ext id
  show _ ∧ ¬ _ ↔ (∀ i ∈ before.kept ++ item :: after.kept, id ∈ i.denote contents) ∧
    ¬ ∃ i ∈ before.negated ++ after.negated, id ∈ i.denote contents
  rw [hkept, hnegated]
  rfl

theorem Request.mem_denote {id : DocId} (request : Request) :
    id ∈ request.denote contents ↔ ∃ piece ∈ request.pieces, id ∈ piece.denote contents := by
  induction request with
  | piece p => simp [denote, pieces]
  | or p _ rest ih =>
    rw [denote, pieces, List.exists_mem_cons_iff, ← ih]
    rfl

theorem Request.denote_eq (request : Request) :
    request.denote contents = request.asks (Item.denote contents) := by
  ext id
  rw [request.mem_denote]
  simp only [Piece.denote_eq]
  rfl

section Items

variable {g : Item → Token} {D : Item → Set DocId} {items : List Item}
  (h : ∀ item ∈ items, compiler.Means (g item) (D item))

include h

theorem items_forall₂ : List.Forall₂ compiler.Means (items.map g) (items.map D) := by
  rw [List.forall₂_map_left_iff, List.forall₂_map_right_iff, List.forall₂_same]
  exact h

/-- Items side by side mean what all of them ask for. -/
theorem items_mean (hne : items ≠ []) :
    compiler.RunMeans (items.map g) {id | ∀ item ∈ items, id ∈ D item} := by
  refine ⟨by simpa using hne, _, items_forall₂ h, ?_⟩
  ext id
  simp

/-- Items of which any may match mean what any of them asks for. -/
theorem anyOf_means (hne : items ≠ []) :
    compiler.Means (anyOf (items.map g)) {id | ∃ item ∈ items, id ∈ D item} := by
  have heither : {id | ∃ item ∈ items, id ∈ D item} = {id | ∃ set ∈ items.map D, id ∈ set} := by
    ext id
    simp
  have hall := items_forall₂ h
  rw [heither]
  rcases items with _ | ⟨item, _ | ⟨other, rest⟩⟩
  · exact absurd rfl hne
  · have hone : {id | ∃ set ∈ [item].map D, id ∈ set} = D item := by
      ext id
      simp
    rw [hone]
    exact h item List.mem_cons_self
  · exact Compiler.Means.eitherOf hall (List.cons_ne_nil _ _)

end Items

section Requests

variable {g : Item → Token} (hg : ∀ item, (g item).Ordinary) {D : Item → Set DocId}

include hg

/-- **A piece means what it asks for** if its items do. -/
theorem Piece.run_means {piece : Piece}
    (h : ∀ item ∈ piece.items, compiler.Means (g item) (D item)) :
    compiler.RunMeans (splitNot (piece.run g)) (piece.asks D) := by
  obtain ⟨hkept, hnegated⟩ := List.forall_mem_append.1 h
  have hrun := items_mean hkept piece.kept_ne_nil
  by_cases hnone : piece.negated = []
  · rw [piece.splitNot_kept hg hnone]
    simpa [Piece.asks, hnone] using hrun
  · rw [piece.splitNot_negated hg hnone, Compiler.RunMeans.single]
    exact Compiler.Means.exclusion (anyOf_means hnegated hnone) hrun.ofRun

/-- As one token among others a piece means the same. -/
theorem Piece.treeOf_means {piece : Piece}
    (h : ∀ item ∈ piece.items, compiler.Means (g item) (D item)) :
    compiler.Means (piece.treeOf g) (piece.asks D) := by
  have hrun := piece.run_means hg h
  have hplain := piece.isNot_treeOf hg
  unfold Piece.treeOf at hplain ⊢
  split
  next token htoken =>
    simp only [htoken] at hplain
    rw [htoken, splitNot_ordinary (by simpa using hplain)] at hrun
    exact Compiler.RunMeans.single.1 hrun
  · exact hrun.paren

/-- **A request means what it asks for** if its items do. -/
theorem Request.branchOf_means {request : Request}
    (h : ∀ item ∈ request.items, compiler.Means (g item) (D item)) :
    compiler.RunMeans (request.branchOf g) (request.asks D) := by
  have hpieces : ∀ piece ∈ request.pieces, ∀ item ∈ piece.items, compiler.Means (g item) (D item) :=
    fun piece hpiece item hitem => h item (List.mem_flatMap.2 ⟨piece, hpiece, hitem⟩)
  cases request with
  | piece p =>
    have hset : (Request.piece p).asks D = p.asks D := by
      ext id
      simp [Request.asks, Request.pieces]
    rw [hset]
    exact p.run_means hg (hpieces p (by simp [Request.pieces]))
  | or p separator rest =>
    have hall : List.Forall₂ compiler.Means
        ((Request.or p separator rest).pieces.map (Piece.treeOf g))
        ((Request.or p separator rest).pieces.map (Piece.asks D)) := by
      rw [List.forall₂_map_left_iff, List.forall₂_map_right_iff, List.forall₂_same]
      exact fun piece hpiece => Piece.treeOf_means hg (hpieces piece hpiece)
    have hset : (Request.or p separator rest).asks D = {id | ∃ set ∈
        (Request.or p separator rest).pieces.map (Piece.asks D), id ∈ set} := by
      ext id
      simp [Request.asks]
    rw [branchOf, Compiler.RunMeans.single, hset]
    exact Compiler.Means.eitherOf hall (by simp [pieces])

end Requests

/-! ## Requests -/

section Plain

variable (h : Source.Answers compiler.source contents) (hhook : ∀ token, compiler.hook token = none)

include h hhook

/-- **The tree of an item means what the item asks for.** -/
theorem Item.tree_means (item : Item) : compiler.Means item.tree (item.denote contents) := by
  induction item using Item.induct with
  | leaf l =>
    rw [Item.tree_leaf]
    exact l.token_means h hhook
  | group request ih =>
    rw [Item.tree_group, Item.denote, request.denote_eq]
    exact (Request.branchOf_means Item.tree_ordinary ih).paren

/-- The finished tokens of a request mean what it asks for. -/
theorem Request.branch_means (request : Request) :
    compiler.RunMeans (request.branchOf Item.tree) (request.denote contents) := by
  rw [request.denote_eq]
  exact Request.branchOf_means Item.tree_ordinary fun item _ => item.tree_means h hhook

end Plain

theorem Request.parse_root (request : Request) :
    (Query.parse request.text).root = some request.root := by
  rw [parse_text, arrange, request.rearrange_tokens]
  exact groupAll_eq request.branchOf_ne_nil

/-- **The cursor of a request** goes through the documents that it asks for, if its tree is not too
    deep. -/
theorem Request.query_denotes (h : Source.Answers compiler.source contents)
    (hhook : ∀ token, compiler.hook token = none) (request : Request)
    (hdepth : ∀ root, (Query.parse request.text).root = some root →
      root.depth ≤ compiler.settings.maxDepth) :
    Denotes (some (compiler.query (Query.parse request.text))) (request.denote contents) := by
  have hroot : compiler.Means request.root (request.denote contents) :=
    (request.branch_means h hhook).ofRun
  have hmeans := hroot 0 (by simpa using hdepth _ request.parse_root)
  rw [Compiler.query, Compiler.tree, request.parse_root, Option.bind_some]
  exact .cursor (hmeans.getD SetExpr.compositional)

end Grammar

/-! ## Live postings -/

namespace Postings

/-- The documents under a term are those that have a payload there. -/
theorem mem_ids {postings : Postings} {term : String} {id : DocId} :
    id ∈ postings.contents.ids term ↔ (postings.find? term id).isSome := by
  constructor
  · rintro ⟨-, hit, ⟨payload, hpayload, -⟩, rfl⟩
    rw [hpayload]
    rfl
  · intro hfound
    obtain ⟨payload, hpayload⟩ := Option.isSome_iff_exists.1 hfound
    refine ⟨?_, ⟨id, Window.decode payload⟩, ⟨payload, hpayload, rfl⟩, rfl⟩
    show postings.holdings.contains term
    rw [Std.TreeMap.contains_eq_isSome_getElem?]
    unfold find? at hpayload
    split at hpayload
    · obtain ⟨holding, hholding, -⟩ := Option.bind_eq_some_iff.1 hpayload
      rw [hholding]
      rfl
    · cases hpayload

/-- Postings in step with a ledger answer with what they have. -/
theorem Tracks.answers {postings : Postings} {ledger : Ledger} (h : postings.Tracks ledger) :
    Source.Answers postings postings.contents := by
  rw [h.contents_eq]
  exact h.catalog_shows.answers postings.catalog_serves

/-- The ids found for a request in live postings, whatever changes were made to them, accepted or
    refused, and whatever depth is allowed. -/
theorem query_ids (changes : List Change) (settings : CompileSettings) (request : Grammar.Request)
    (hdepth : ∀ root, (Query.parse request.text).root = some root →
      root.depth ≤ settings.maxDepth) :
    let compiler : Compiler Postings Walk := { source := run changes, settings }
    let found := IdStream.ids (compiler.query (Query.parse request.text))
    found.Pairwise (· < ·) ∧ ∀ id, id ∈ found ↔ id ∈ request.denote (run changes).contents := by
  intro compiler found
  obtain ⟨ledger, htracks⟩ := exists_tracks_run changes
  have hdenotes : Denotes (some (compiler.query (Query.parse request.text)))
      (request.denote (run changes).contents) :=
    request.query_denotes htracks.answers (fun _ => rfl) hdepth
  exact hdenotes.ids

/-- **A search of live postings finds what the request asks for**: after any changes, accepted or
    refused, the ids found are those of the request, in ascending order. -/
theorem search_ids (changes : List Change) (request : Grammar.Request)
    (hdepth : ∀ root, (Query.parse request.text).root = some root →
      root.depth ≤ CompileSettings.maxDepth {}) :
    let found := IdStream.ids (search (run changes) request.text)
    found.Pairwise (· < ·) ∧ ∀ id, id ∈ found ↔ id ∈ request.denote (run changes).contents :=
  query_ids changes {} request hdepth

/-- Oaks that are neither elms nor ashes of some age. -/
def oakRequest : Grammar.Request :=
  let oak : Grammar.Word := ⟨['o', 'a', 'k'], by decide, by simp [CharClass.of]⟩
  let el : Grammar.Word := ⟨['e', 'l'], by decide, by simp [CharClass.of]⟩
  let ash : Grammar.Word := ⟨['a', 's', 'h'], by decide, by simp [CharClass.of]⟩
  let new : Grammar.Word := ⟨['n', 'e', 'w'], by decide, by simp [CharClass.of]⟩
  let old : Grammar.Word := ⟨['o', 'l', 'd'], by decide, by simp [CharClass.of]⟩
  let not : Grammar.Negation := ⟨⟨['N', 'o', 't'], by decide, by simp [CharClass.of]⟩, by decide⟩
  let other : Grammar.Request := .or (.mk .nil (.leaf (.stem el)) .nil) .bar
    (.piece (.mk .nil (.leaf (.listed ash new [old])) .nil))
  .piece (.mk (.not not (.group other) .nil) (.leaf (.word oak (by decide) (by decide))) .nil)

theorem search_ids_oak :
    let changes : List Change := [.insert "oak" 3 [], .insert "oak" 5 [1], .insert "elm" 5 [],
      .insert "ash:old" 3 [], .erase "ash:old" 3, .insert "oak" 0 []]
    let found := IdStream.ids (search (run changes) oakRequest.text)
    oakRequest.text = "Not ( el* | ash:[new,old] ) oak" ∧
      (∀ root, (Query.parse oakRequest.text).root = some root →
        root.depth ≤ CompileSettings.maxDepth {}) ∧
      found.Pairwise (· < ·) ∧
      ∀ id, id ∈ found ↔ id ∈ oakRequest.denote (run changes).contents := by
  intro changes found
  have hdepth : ∀ root, (Query.parse oakRequest.text).root = some root →
      root.depth ≤ CompileSettings.maxDepth {} := by
    intro root hroot
    rw [Grammar.parse_text] at hroot
    obtain rfl := Option.some.inj hroot
    decide
  exact ⟨by decide, hdepth, search_ids changes oakRequest hdepth⟩

end Postings

end InvertedIndex
