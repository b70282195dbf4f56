import InvertedIndex.Proofs.Query.Answers
import InvertedIndex.Proofs.Query.Idempotent
import InvertedIndex.Proofs.Query.Lexicon

/-!
# `Proofs.Query.Expansion` — a name stands for its expression

With a lexicon, a request is read with the tree of an expression in the place of each word that is
its name. It should then ask for what it asks for with the expression in parentheses there. That
holds wherever the passes see the tree as one item among others, or by itself. But they take a tree
whose root is an `or` or a `not` for the bare operator when other tokens stand beside it, and then
alternatives are lost.

## Contents
- `Request.expand`: the expression in parentheses in the place of the name;
- `Request.root_cases`: what the root of a tree can be;
- `Request.Isolates`: the name stands alone wherever it stands;
- `Request.arranged_means`, `Item.grafted_means`: what the passes make of such tokens;
- `Postings.expansion_ids`: the ids found; `Postings.expansion_drops`: alternatives that are lost.
-/

namespace InvertedIndex

namespace Grammar

/-! ## Expansions -/

section Expand

variable (definition : Definition)

mutual

/-- The item with the expression in parentheses in the place of the name. -/
def Item.expand : Item → Item
  | .leaf l => if l.Names definition.name then .group definition.expr else .leaf l
  | .group request => .group request.expand

/-- The parts with the expression in parentheses in the place of the name. -/
def Parts.expand : Parts → Parts
  | .nil => .nil
  | .item i rest => .item i.expand rest.expand
  | .not n i rest => .not n i.expand rest.expand

/-- The piece with the expression in parentheses in the place of the name. -/
def Piece.expand : Piece → Piece
  | .mk before item after => .mk before.expand item.expand after.expand

/-- The request with the expression in parentheses in the place of the name. -/
def Request.expand : Request → Request
  | .piece p => .piece p.expand
  | .or p separator rest => .or p.expand separator rest.expand

end

end Expand

section Asks

variable (definition : Definition)

theorem Parts.expand_items (parts : Parts) :
    (parts.expand definition).kept = parts.kept.map (Item.expand definition) ∧
      (parts.expand definition).negated = parts.negated.map (Item.expand definition) := by
  induction parts with
  | nil => exact ⟨rfl, rfl⟩
  | item _ rest ih => exact ⟨congrArg _ ih.1, ih.2⟩
  | not _ _ rest ih => exact ⟨ih.1, congrArg _ ih.2⟩

theorem Piece.expand_items (piece : Piece) :
    (piece.expand definition).kept = piece.kept.map (Item.expand definition) ∧
      (piece.expand definition).negated = piece.negated.map (Item.expand definition) := by
  obtain ⟨before, item, after⟩ := piece
  obtain ⟨hbefore, hbefore'⟩ := before.expand_items definition
  obtain ⟨hafter, hafter'⟩ := after.expand_items definition
  constructor
  · rw [Piece.expand, Piece.kept, hbefore, hafter]
    simp [Piece.kept]
  · rw [Piece.expand, Piece.negated, hbefore', hafter']
    simp [Piece.negated]

theorem Request.expand_pieces (request : Request) :
    (request.expand definition).pieces = request.pieces.map (Piece.expand definition) := by
  induction request with
  | piece _ => rfl
  | or p _ rest ih => exact congrArg (p.expand definition :: ·) ih

/-- An expansion asks for what its items, expanded, ask for together. -/
theorem Request.expand_denote (contents : Contents) (request : Request) :
    (request.expand definition).denote contents
      = request.asks fun item => (item.expand definition).denote contents := by
  have hpiece (piece : Piece) : (piece.expand definition).asks (Item.denote contents)
      = piece.asks fun item => (item.expand definition).denote contents := by
    obtain ⟨hkept, hnegated⟩ := piece.expand_items definition
    unfold Piece.asks
    rw [hkept, hnegated]
    simp
  rw [Request.denote_eq]
  unfold Request.asks
  rw [request.expand_pieces]
  simp [hpiece]

end Asks

/-! ## Roots -/

/-- **The root of a finished tree** is an operator, the tree of an item, or a parenthesis. -/
theorem Request.root_cases {P : Token → Prop} (either : ∀ tokens, P (eitherOf tokens))
    (without : ∀ children, P { kind := .not, text := "not", children })
    (item : ∀ item : Item, P item.tree) (paren : ∀ tokens, tokens ≠ [] → P (Token.paren tokens))
    (request : Request) : P request.root := by
  cases request with
  | piece p =>
    rw [Request.root, Request.branchOf]
    by_cases hnone : p.negated = []
    · rw [p.splitNot_kept Item.tree_ordinary hnone]
      rcases hkept : p.kept with _ | ⟨first, _ | ⟨other, rest⟩⟩
      · exact absurd hkept p.kept_ne_nil
      · exact item first
      · exact paren _ (by simp)
    · rw [p.splitNot_negated Item.tree_ordinary hnone]
      exact without _
  | or p separator rest => exact either _

theorem Item.tree_settled (item : Item) : item.tree.Settled := by
  cases item with
  | leaf l =>
    rw [Item.tree_leaf]
    exact l.token_settled
  | group request =>
    rw [Item.tree_group]
    exact paren_settled request.branchOf_ne_nil

theorem Request.root_settled (request : Request) : request.root.Settled := by
  refine request.root_cases (P := Token.Settled) ?_ ?_ ?_ ?_
  · intro tokens
    exact settled_of_kind (.inr (.inr (.inl rfl))) (by simp [eitherOf])
  · intro children
    exact settled_of_kind (.inr (.inr (.inr (.inl rfl)))) (by simp)
  · exact Item.tree_settled
  · intro tokens hne
    exact paren_settled hne

/-- A root that is no operator node is an ordinary token. -/
theorem Request.root_ordinary {request : Request} (hor : request.root.kind ≠ .or)
    (hnot : request.root.kind ≠ .not) : request.root.Ordinary := by
  have hcases : request.root.kind ≠ .or → request.root.kind ≠ .not → request.root.Ordinary := by
    refine request.root_cases (P := fun root => root.kind ≠ .or → root.kind ≠ .not → root.Ordinary)
      ?_ ?_ ?_ ?_
    · intro tokens h
      exact absurd rfl h
    · intro children _ h
      exact absurd rfl h
    · intro item _ _
      exact item.tree_ordinary
    · intro tokens _ _ _
      exact Token.paren_ordinary tokens
  exact hcases hor hnot

/-- The parser leaves no action or flag on the root of a request. -/
theorem Request.root_unmarked (request : Request) :
    { request.root with action := .normal, noParams := false } = request.root := by
  refine request.root_cases
    (P := fun root => { root with action := .normal, noParams := false } = root) ?_ ?_ ?_ ?_
  · intro tokens
    rfl
  · intro children
    rfl
  · intro item
    cases item with
    | leaf l =>
      rw [Item.tree_leaf]
      cases l <;> rfl
    | group request =>
      rw [Item.tree_group]
      rfl
  · intro tokens _
    rfl

/-! ## Places of the name -/

/-- The request is a single item. -/
def Request.Lone (request : Request) : Prop := ∃ item, request = .piece (.mk .nil item .nil)

/-- A request and those in parentheses within it, at any depth. -/
inductive Request.Encloses : Request → Request → Prop
  | self (request : Request) : Encloses request request
  | group {request inner run : Request} (hinner : .group inner ∈ request.items)
      (hrun : Encloses inner run) : Encloses request run

/-- Wherever the name stands, it stands alone: it is the whole request, or all that some parentheses
    enclose. -/
def Request.Isolates (request : Request) (name : Word) : Prop :=
  ∀ run, request.Encloses run → ∀ leaf, .leaf leaf ∈ run.items → leaf.Names name → run.Lone

/-! ## What the passes make of the tokens -/

theorem Parts.run_tokenOf (f : Leaf → Token) (parts : Parts) :
    parts.run (Item.tokenOf f) = parts.tokensOf f := by
  induction parts with
  | nil => rfl
  | item _ rest ih => exact congrArg _ ih
  | not _ _ rest ih => exact congrArg _ (congrArg _ ih)

theorem Piece.run_tokenOf (f : Leaf → Token) (piece : Piece) :
    piece.run (Item.tokenOf f) = piece.tokensOf f := by
  obtain ⟨before, item, after⟩ := piece
  rw [Piece.run, before.run_tokenOf, after.run_tokenOf]
  rfl

theorem Request.run_tokenOf (f : Leaf → Token) (request : Request) :
    request.run (Item.tokenOf f) = request.tokensOf f := by
  induction request with
  | piece p => exact p.run_tokenOf f
  | or p separator rest ih =>
    rw [Request.run, p.run_tokenOf, ih]
    rfl

section Congr

variable {g g' : Item → Token}

theorem Parts.run_congr : (parts : Parts) → (∀ item ∈ parts.kept, g item = g' item) →
    (∀ item ∈ parts.negated, g item = g' item) → parts.run g = parts.run g'
  | .nil, _, _ => rfl
  | .item i rest, hkept, hnegated => by
    obtain ⟨hi, hrest⟩ := List.forall_mem_cons.1 hkept
    rw [Parts.run, hi, rest.run_congr hrest hnegated, Parts.run]
  | .not n i rest, hkept, hnegated => by
    obtain ⟨hi, hrest⟩ := List.forall_mem_cons.1 hnegated
    rw [Parts.run, hi, rest.run_congr hkept hrest, Parts.run]

theorem Piece.run_congr (piece : Piece) (h : ∀ item ∈ piece.items, g item = g' item) :
    piece.run g = piece.run g' := by
  obtain ⟨before, item, after⟩ := piece
  obtain ⟨hkept, hnegated⟩ := List.forall_mem_append.1 h
  obtain ⟨hbefore, hrest⟩ := List.forall_mem_append.1 hkept
  obtain ⟨hitem, hafter⟩ := List.forall_mem_cons.1 hrest
  obtain ⟨hbefore', hafter'⟩ := List.forall_mem_append.1 hnegated
  rw [Piece.run, Piece.run, before.run_congr hbefore hbefore', hitem,
    after.run_congr hafter hafter']

/-- Only the tokens of its items matter to a run. -/
theorem Request.run_congr : (request : Request) → (∀ item ∈ request.items, g item = g' item) →
    request.run g = request.run g'
  | .piece p, h => by
    have hp : ∀ item ∈ p.items, g item = g' item := by simpa [Request.items, Request.pieces] using h
    exact p.run_congr hp
  | .or p separator rest, h => by
    rw [Request.items_or] at h
    obtain ⟨hp, hrest⟩ := List.forall_mem_append.1 h
    rw [Request.run, p.run_congr hp, rest.run_congr hrest, Request.run]

end Congr

section Means

variable {S L : Type} [Source S L] [IdStream L] {compiler : Compiler S L} {contents : Contents}

/-- **Tokens side by side mean what the request asks for** after the passes, if each means what its
    item does: either none of them is an operator, or there is only one. -/
theorem Request.arranged_means {g : Item → Token} {D : Item → Set DocId} {request : Request}
    (hclear : request.Lone ∨ ∀ item ∈ request.items, (g item).Ordinary)
    (h : ∀ item ∈ request.items,
      compiler.Means (((g item).regroup splitOr).regroup splitNot) (D item)) :
    compiler.RunMeans (rearrange splitNot (rearrange splitOr (request.run g))) (request.asks D) := by
  rcases hclear with ⟨item, rfl⟩ | hordinary
  · have hasks : (Request.piece (.mk .nil item .nil)).asks D = D item := by
      ext id
      simp [Request.asks, Request.pieces, Piece.asks, Piece.kept, Piece.negated, Parts.kept,
        Parts.negated]
    have hrun : rearrange splitNot (rearrange splitOr
        ((Request.piece (.mk .nil item .nil)).run g))
      = [((g item).regroup splitOr).regroup splitNot] := by
      simp [Request.run, Piece.run, Parts.run, rearrange, Token.regroupAll_eq, splitOr_single,
        splitNot_single]
    rw [hasks, hrun, Compiler.RunMeans.single]
    exact h item (by simp [Request.items, Request.pieces, Piece.items, Piece.kept, Piece.negated,
      Parts.kept, Parts.negated])
  · classical
    -- Tokens of other items do not occur, so they may be taken to be ordinary as well.
    let g' : Item → Token := fun item => if (g item).Ordinary then g item else Token.paren []
    have hg' (item : Item) : (g' item).Ordinary := by
      simp only [g']
      split
      next hitem => exact hitem
      · exact Token.paren_ordinary _
    have hsame : ∀ item ∈ request.items, g item = g' item :=
      fun item hitem => (if_pos (hordinary item hitem)).symm
    rw [request.run_congr hsame, request.rearrange_run hg']
    refine Request.branchOf_means (fun item => ((hg' item).regroup _).regroup _) ?_
    intro item hitem
    rw [← hsame item hitem]
    exact h item hitem

end Means

/-! ## What an expansion asks for -/

section Grafts

variable {S L : Type} [Source S L] [IdStream L] {compiler : Compiler S L} {contents : Contents}
  {definition : Definition} (h : Source.Answers compiler.source contents)
  (hhook : ∀ token, compiler.hook token = none)

/-- The token of a leaf, with the tree of the expression in the place of the name. -/
def Leaf.graft (definition : Definition) (leaf : Leaf) : Token :=
  if leaf.Names definition.name then definition.expr.root else leaf.token

/-- **A request is read with the lexicon** into tokens with the tree in the place of the name. -/
theorem Request.read_root {lexicon : Lexicon}
    (hholds : lexicon.Holds definition definition.expr.root) (request : Request)
    (hbare : ∀ leaf, .leaf leaf ∈ request.lexemes → leaf.Bare) :
    (Query.parse request.text lexicon.resolver).root
      = arrange (request.tokensOf (Leaf.graft definition)) := by
  have hgrafts := hholds.grafting definition.expr.root_settled
  have hreads : ∀ lexeme ∈ request.lexemes, lexicon.resolver.Reads lexeme := fun lexeme hlexeme =>
    Scanner.reads_bare hgrafts.keeps fun leaf hleaf => hbare leaf (hleaf ▸ hlexeme)
  have hshown : Leaf.shown lexicon.resolver = Leaf.graft definition := funext hholds.shown
  rw [parse_grafted hgrafts request hreads, hshown]

/-- Each run of tokens has only one, or no operator among those of its items. -/
def Request.Clear (definition : Definition) (request : Request) : Prop :=
  ∀ run, request.Encloses run →
    run.Lone ∨ ∀ item ∈ run.items, (item.tokenOf (Leaf.graft definition)).Ordinary

theorem Request.Clear.group {request inner : Request} (h : request.Clear definition)
    (hinner : .group inner ∈ request.items) : inner.Clear definition :=
  fun run hrun => h run (.group hinner hrun)

/-- A run is clear if the expression is no operator node, or the name always stands alone. -/
theorem Request.clear_of {request : Request} (h : (definition.expr.root.kind ≠ .or ∧
    definition.expr.root.kind ≠ .not) ∨ request.Isolates definition.name) :
    request.Clear definition := by
  have hitem (item : Item) (hleaf : ∀ leaf, item = .leaf leaf → leaf.Names definition.name →
      definition.expr.root.Ordinary) : (item.tokenOf (Leaf.graft definition)).Ordinary := by
    cases item with
    | leaf l =>
      rw [Item.tokenOf, Leaf.graft]
      split
      next hnames => exact hleaf l rfl hnames
      · exact l.token_ordinary
    | group request => exact Token.paren_ordinary _
  intro run hrun
  rcases h with ⟨hor, hnot⟩ | hisolates
  · exact .inr fun item _ => hitem item fun _ _ _ => Request.root_ordinary hor hnot
  · by_cases hlone : run.Lone
    · exact .inl hlone
    · refine .inr fun item hmem => hitem item ?_
      rintro leaf rfl hnames
      exact absurd (hisolates run hrun leaf hmem hnames) hlone

include h hhook

/-- **A leaf means what it asks for when it is expanded.** -/
theorem Leaf.graft_means (leaf : Leaf) :
    compiler.Means (((leaf.graft definition).regroup splitOr).regroup splitNot)
      (((Item.leaf leaf).expand definition).denote contents) := by
  unfold Leaf.graft Item.expand
  by_cases hnames : leaf.Names definition.name
  · rw [if_pos hnames, if_pos hnames, definition.expr.root_stable.regroup_splitOr,
      definition.expr.root_stable.regroup_splitNot]
    exact (definition.expr.branch_means h hhook).ofRun
  · rw [if_neg hnames, if_neg hnames, leaf.token_stable.regroup_splitOr,
      leaf.token_stable.regroup_splitNot]
    exact leaf.token_means h hhook

/-- **A request means what its expansion asks for**, if it is clear. -/
theorem Request.grafted_means {request : Request} (hclear : request.Clear definition) :
    compiler.RunMeans (rearrange splitNot
        (rearrange splitOr (request.tokensOf (Leaf.graft definition))))
      ((request.expand definition).denote contents) := by
  have hitem (item : Item) (hgroup : ∀ inner, item = .group inner → inner.Clear definition) :
      compiler.Means (((item.tokenOf (Leaf.graft definition)).regroup splitOr).regroup splitNot)
        ((item.expand definition).denote contents) := by
    induction item using Item.induct with
    | leaf l => exact l.graft_means h hhook
    | group inner ih =>
      have hinner := hgroup inner rfl
      have hrun : compiler.RunMeans _ _ := Request.arranged_means (hinner inner (.self inner))
        fun item hmem => ih item hmem fun other hother => hinner.group (hother ▸ hmem)
      rw [inner.run_tokenOf, ← inner.expand_denote] at hrun
      rw [Item.tokenOf, Token.regroup_paren, Token.regroup_paren, ← Token.regroupAll_eq,
        ← Token.regroupAll_eq]
      exact hrun.paren
  have hrun : compiler.RunMeans _ _ := Request.arranged_means (hclear request (.self request))
    fun item hmem => hitem item fun inner hinner => hclear.group (hinner ▸ hmem)
  rw [request.run_tokenOf, ← request.expand_denote] at hrun
  exact hrun

/-- **The cursor of a request that is read with the lexicon** goes through the documents that its
    expansion asks for, if its tree is not too deep. -/
theorem Request.expansion_denotes {lexicon : Lexicon}
    (hholds : lexicon.Holds definition definition.expr.root) {request : Request}
    (hbare : ∀ leaf, .leaf leaf ∈ request.lexemes → leaf.Bare) (hclear : request.Clear definition)
    (hdepth : ∀ root, (Query.parse request.text lexicon.resolver).root = some root →
      root.depth ≤ compiler.settings.maxDepth) :
    Denotes (some (compiler.query (Query.parse request.text lexicon.resolver)))
      ((request.expand definition).denote contents) := by
  have hrun : compiler.RunMeans _ _ := Request.grafted_means h hhook hclear
  have hroot : (Query.parse request.text lexicon.resolver).root = some (Token.ofRun (rearrange
      splitNot (rearrange splitOr (request.tokensOf (Leaf.graft definition))))) := by
    rw [request.read_root hholds hbare, arrange]
    exact groupAll_eq hrun.nonempty
  have hmeans := hrun.ofRun 0 (by simpa using hdepth _ hroot)
  rw [Compiler.query, Compiler.tree, hroot, Option.bind_some]
  exact .cursor (hmeans.getD SetExpr.compositional)

end Grafts

/-- The line of a definition makes a lexicon that holds it. -/
theorem Definition.exists_lexicon (definition : Definition) :
    ∃ lexicon, Lexicon.empty.add definition.line = .ok lexicon ∧
      lexicon.Holds definition definition.expr.root := by
  have hadd := Lexicon.empty.add_line definition definition.expr.parse_root
  rw [definition.expr.root_unmarked] at hadd
  have hnormal : definition.expr.root.action = .normal := by
    rw [← definition.expr.root_unmarked]
  exact ⟨_, hadd, Lexicon.holds_single definition hnormal⟩

/-- The word with the characters of a text. -/
def Word.ofText (text : String) (hne : text.toList ≠ [])
    (h : text.toList.all (CharClass.of · = .word) = true) : Word :=
  ⟨text.toList, hne, by simpa using h⟩

end Grammar

/-! ## Live postings -/

namespace Postings

open Grammar

/-- **A name finds what its expression finds in its place**, after any changes to the postings and
    however they are compiled, if both trees fit: for any expression whose tree is no `or` or `not`,
    and for any other if the name stands alone wherever it stands. -/
theorem expansion_ids (changes : List Change) (settings : CompileSettings)
    (definition : Definition) (request : Request)
    (hbare : ∀ leaf, .leaf leaf ∈ request.lexemes → leaf.Bare)
    (hclear : (∀ root, (Query.parse definition.expr.text).root = some root →
      root.kind ≠ .or ∧ root.kind ≠ .not) ∨ request.Isolates definition.name) :
    ∃ lexicon, Lexicon.empty.add definition.line = .ok lexicon ∧
      let compiler : Compiler Postings Walk := { source := run changes, settings }
      let read := Query.parse request.text lexicon.resolver
      let written := Query.parse (request.expand definition).text
      (∀ root, read.root = some root → root.depth ≤ settings.maxDepth) →
      (∀ root, written.root = some root → root.depth ≤ settings.maxDepth) →
      IdStream.ids (compiler.query read) = IdStream.ids (compiler.query written) := by
  obtain ⟨lexicon, hadd, hholds⟩ := definition.exists_lexicon
  refine ⟨lexicon, hadd, ?_⟩
  intro compiler read written hread hwritten
  obtain ⟨ledger, htracks⟩ := exists_tracks_run changes
  have hhook : ∀ token, compiler.hook token = none := fun _ => rfl
  have hclear' : request.Clear definition :=
    Request.clear_of (hclear.imp_left fun h => h _ definition.expr.parse_root)
  have hfound : Denotes (some (compiler.query read)) _ :=
    Request.expansion_denotes htracks.answers hhook hholds hbare hclear' hread
  have hexpected : Denotes (some (compiler.query written)) _ :=
    (request.expand definition).query_denotes htracks.answers hhook hwritten
  rw [hfound.ids_eq, hexpected.ids_eq]

/-- A tree is an oak or an elm. -/
def treeDefinition : Definition :=
  let tree : Word := Word.ofText "tree" (by decide) (by decide)
  let oak : Word := Word.ofText "oak" (by decide) (by decide)
  let elm : Word := Word.ofText "elm" (by decide) (by decide)
  let or : Separator := .word (Word.ofText "or" (by decide) (by decide)) (by decide)
  { name := tree
    notOr := by decide
    notNot := by decide
    untrimmed := by simp [tree, Word.ofText, Text.isBlank]
    expr := .or (.mk .nil (.leaf (.word oak (by decide) (by decide))) .nil) or
      (.piece (.mk .nil (.leaf (.word elm (by decide) (by decide))) .nil)) }

/-- The name of the definition. -/
def treeItem : Item := .leaf (.word treeDefinition.name (by decide) (by decide))

/-- The word `old` and an item. -/
def oldRequest (item : Item) : Request :=
  let old : Word := Word.ofText "old" (by decide) (by decide)
  .piece (.mk .nil (.leaf (.word old (by decide) (by decide))) (.item item .nil))

/-- An old oak, an old elm, and something else that is old. -/
def oldChanges : List Change := [.insert "old" 1 [], .insert "oak" 1 [], .insert "old" 2 [],
  .insert "elm" 2 [], .insert "old" 3 []]

/-- The documents under the terms in those postings. -/
theorem mem_ids_oldChanges (term : String) (id : DocId) :
    id ∈ (run oldChanges).contents.ids term ↔
      ((Ledger.run oldChanges).payload? term id).isSome := by
  have hmodest : ∀ change ∈ oldChanges, ∀ payload ∈ change.payload?, Modest payload := by
    simp [oldChanges, Change.payload?, Modest]
  have htracks := tracks_run_of_modest hmodest (List.prefix_refl oldChanges)
  rw [mem_ids, htracks.find?_eq]

theorem expansion_ids_tree :
    let request := oldRequest (.group (.piece (.mk .nil treeItem .nil)))
    let compiler : Compiler Postings Walk := { source := run oldChanges }
    (∀ leaf, .leaf leaf ∈ request.lexemes → leaf.Bare) ∧ request.Isolates treeDefinition.name ∧
      ∃ lexicon, Lexicon.empty.add "tree normal oak or elm" = .ok lexicon ∧
        IdStream.ids (compiler.query (Query.parse "old ( tree )" lexicon.resolver))
          = IdStream.ids (compiler.query (Query.parse "old ( ( oak or elm ) )")) := by
  intro request compiler
  have hbare : ∀ leaf, .leaf leaf ∈ request.lexemes → leaf.Bare := by
    simp [request, oldRequest, treeItem, Request.lexemes, Piece.lexemes, Parts.lexemes,
      Item.lexemes, Leaf.Bare]
  have hisolates : request.Isolates treeDefinition.name := by
    intro run hrun leaf hleaf hnames
    cases hrun with
    | self =>
      obtain rfl : leaf = _ := by simpa [request, oldRequest, Request.items, Request.pieces,
        Piece.items, Piece.kept, Piece.negated, Parts.kept, Parts.negated, treeItem] using hleaf
      exact absurd hnames (by decide)
    | group hinner hrun =>
      obtain rfl : _ = Request.piece (.mk .nil treeItem .nil) := by simpa [request, oldRequest,
        Request.items, Request.pieces, Piece.items, Piece.kept, Piece.negated, Parts.kept,
        Parts.negated] using hinner
      cases hrun with
      | self => exact ⟨treeItem, rfl⟩
      | group hinner _ => simp [Request.items, Request.pieces, Piece.items, Piece.kept,
          Piece.negated, Parts.kept, Parts.negated, treeItem] at hinner
  refine ⟨hbare, hisolates, ?_⟩
  obtain ⟨lexicon, hadd, hids⟩ :=
    expansion_ids oldChanges {} treeDefinition request hbare (.inr hisolates)
  obtain ⟨lexicon', hadd', hholds⟩ := treeDefinition.exists_lexicon
  obtain rfl : lexicon = lexicon' := Except.ok.inj (hadd.symm.trans hadd')
  refine ⟨lexicon, hadd, hids ?_ ?_⟩
  · intro root hroot
    rw [request.read_root hholds hbare] at hroot
    obtain rfl := Option.some.inj hroot
    decide
  · intro root hroot
    rw [Grammar.parse_text] at hroot
    obtain rfl := Option.some.inj hroot
    decide

/-- **Alternatives are lost** when the name stands beside another word: the root of the tree is
    taken for the bare `or`, and with nothing behind it what it stands for is dropped. -/
theorem expansion_drops :
    let compiler : Compiler Postings Walk := { source := run oldChanges }
    ∃ lexicon, Lexicon.empty.add "tree normal oak or elm" = .ok lexicon ∧
      3 ∈ IdStream.ids (compiler.query (Query.parse "old tree" lexicon.resolver)) ∧
      3 ∉ IdStream.ids (compiler.query (Query.parse "old ( oak or elm )")) := by
  intro compiler
  obtain ⟨lexicon, hadd, hholds⟩ := treeDefinition.exists_lexicon
  refine ⟨lexicon, hadd, ?_, ?_⟩
  · -- What is left of the query is its other word.
    let alone : Request := .piece (.mk .nil (.leaf (.word (.ofText "old" (by decide) (by decide))
      (by decide) (by decide))) .nil)
    have hbare : ∀ leaf, .leaf leaf ∈ (oldRequest treeItem).lexemes → leaf.Bare := by
      simp [oldRequest, treeItem, Request.lexemes, Piece.lexemes, Parts.lexemes, Item.lexemes,
        Leaf.Bare]
    have hsame : (Query.parse "old tree" lexicon.resolver).root = (Query.parse alone.text).root := by
      have hread := (oldRequest treeItem).read_root hholds hbare
      rw [Grammar.parse_text]
      exact hread
    have hdepth : ∀ root, (Query.parse alone.text).root = some root →
        root.depth ≤ CompileSettings.maxDepth {} := by
      intro root hroot
      rw [Grammar.parse_text] at hroot
      obtain rfl := Option.some.inj hroot
      decide
    rw [Compiler.query, hsame, ← Compiler.query, (query_ids oldChanges {} alone hdepth).2]
    have hold : (3 : DocId) ∈ (run oldChanges).contents.ids "old" := by
      rw [mem_ids_oldChanges]
      decide
    exact ⟨⟨⟨trivial, hold⟩, trivial⟩, fun hjoin => hjoin.elim id id⟩
  · let request := oldRequest (.group treeDefinition.expr)
    have hdepth : ∀ root, (Query.parse request.text).root = some root →
        root.depth ≤ CompileSettings.maxDepth {} := by
      intro root hroot
      rw [Grammar.parse_text] at hroot
      obtain rfl := Option.some.inj hroot
      decide
    have hfound := (query_ids oldChanges {} request hdepth).2 3
    have hoak : (3 : DocId) ∉ (run oldChanges).contents.ids "oak" := by
      rw [mem_ids_oldChanges]
      decide
    have helm : (3 : DocId) ∉ (run oldChanges).contents.ids "elm" := by
      rw [mem_ids_oldChanges]
      decide
    intro hmem
    obtain ⟨⟨-, hgroup, -⟩, -⟩ := hfound.1 hmem
    rcases hgroup with ⟨⟨⟨-, h⟩, -⟩, -⟩ | ⟨⟨⟨-, h⟩, -⟩, -⟩
    · exact hoak h
    · exact helm h

end Postings

end InvertedIndex
