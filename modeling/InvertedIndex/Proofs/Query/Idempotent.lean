import InvertedIndex.Proofs.Query.Precedence

/-!
# `Proofs.Query.Idempotent` — the passes leave a finished tree as it is

A tree that stands in for a word has been through the passes once, and goes through them again with
the query around it. Within the tree the second time changes nothing: its alternatives have no `or`
left between them, and its exclusions no `not`.

## Contents
- `Token.Stable`, `StableRun`: what the passes leave as it is;
- `StableRun.single`, `StableRun.ordinary`: a token by itself, and ordinary tokens;
- `StableRun.arrange_eq`: all passes over a run;
- `Piece.stable_run`, `Request.stable_branch`: the finished tokens of a piece or request;
- `Item.tree_stable`, `Request.root_stable`: finished trees.
-/

namespace InvertedIndex

/-! ## Stable tokens -/

/-- Neither pass changes the token or anything below it. -/
structure Token.Stable (token : Token) : Prop where
  regroup_splitOr : token.regroup splitOr = token
  regroup_splitNot : token.regroup splitNot = token

/-- Neither pass changes the tokens side by side or anything below them. -/
structure StableRun (tokens : List Token) : Prop where
  each : ∀ token ∈ tokens, token.Stable
  splitOr_eq : splitOr tokens = tokens
  splitNot_eq : splitNot tokens = tokens

/-- A token around a stable run is stable. -/
theorem StableRun.stable {token : Token} (h : StableRun token.children) : token.Stable := by
  obtain ⟨kind, text, action, noParams, attrs, modifiers, children⟩ := token
  have hregroup {pass : List Token → List Token} (hpass : pass children = children)
      (hchildren : ∀ child ∈ children, child.regroup pass = child) :
      Token.regroup pass ⟨kind, text, action, noParams, attrs, modifiers, children⟩
        = ⟨kind, text, action, noParams, attrs, modifiers, children⟩ := by
    rw [Token.regroup, Token.regroupAll_eq, List.map_congr_left hchildren, List.map_id', hpass,
      ite_self]
  exact ⟨hregroup h.splitOr_eq fun child hchild => (h.each child hchild).regroup_splitOr,
    hregroup h.splitNot_eq fun child hchild => (h.each child hchild).regroup_splitNot⟩

theorem splitOr_single (token : Token) : splitOr [token] = [token] := by
  cases hor : token.isOr with
  | true => simp [splitOr, orPieces, hor]
  | false => exact Grammar.splitOr_ordinary (by simpa using hor)

theorem splitNot_single (token : Token) : splitNot [token] = [token] := by
  cases hnot : token.isNot with
  | true => simp [splitNot, notParts, hnot]
  | false => exact Grammar.splitNot_ordinary (by simpa using hnot)

/-- An `or` in front of a single token separates nothing. -/
theorem splitOr_pair {first last : Token} (hlast : last.isOr = false) :
    splitOr [first, last] = [first, last] := by
  cases hor : first.isOr with
  | true => simp [splitOr, orPieces, hor, hlast]
  | false => exact Grammar.splitOr_ordinary (by simp [hor, hlast])

namespace StableRun

/-- A stable token by itself, even an operator. -/
theorem single {token : Token} (h : token.Stable) : StableRun [token] where
  each := by simpa using h
  splitOr_eq := splitOr_single token
  splitNot_eq := splitNot_single token

/-- Stable tokens that are no operators. -/
theorem ordinary {tokens : List Token} (h : ∀ token ∈ tokens, token.Stable)
    (hor : ∀ token ∈ tokens, token.isOr = false) (hnot : ∀ token ∈ tokens, token.isNot = false) :
    StableRun tokens where
  each := h
  splitOr_eq := Grammar.splitOr_ordinary hor
  splitNot_eq := Grammar.splitNot_ordinary hnot

/-- All passes leave a stable run as it is. -/
theorem arrange_eq {tokens : List Token} (h : StableRun tokens) :
    arrange tokens = groupAll tokens := by
  have hsame {pass : List Token → List Token}
      (hpass : ∀ token ∈ tokens, token.regroup pass = token) : tokens.map (Token.regroup pass) = tokens :=
    (List.map_congr_left hpass).trans (List.map_id tokens)
  rw [arrange, rearrange, rearrange, Token.regroupAll_eq, Token.regroupAll_eq,
    hsame fun token htoken => (h.each token htoken).regroup_splitOr, h.splitOr_eq,
    hsame fun token htoken => (h.each token htoken).regroup_splitNot, h.splitNot_eq]

/-- A stable run as one token. -/
theorem ofRun_stable {tokens : List Token} (h : StableRun tokens) :
    (Token.ofRun tokens).Stable := by
  rcases tokens with _ | ⟨token, _ | ⟨other, rest⟩⟩
  · exact h.stable
  · exact h.each token List.mem_cons_self
  · exact h.stable

/-- Alternatives as one token. -/
theorem anyOf_stable {tokens : List Token} (h : StableRun tokens) : (anyOf tokens).Stable := by
  rcases tokens with _ | ⟨token, _ | ⟨other, rest⟩⟩
  · exact h.stable
  · exact h.each token List.mem_cons_self
  · exact h.stable

end StableRun

/-! ## Finished trees -/

namespace Grammar

section Requests

variable {g : Item → Token} (hg : ∀ item, (g item).Ordinary)

include hg

theorem items_stable {items : List Item} (h : ∀ item ∈ items, (g item).Stable) :
    StableRun (items.map g) :=
  .ordinary (List.forall_mem_map.2 h) (List.forall_mem_map.2 fun item _ => (hg item).isOr)
    (List.forall_mem_map.2 fun item _ => (hg item).isNot)

/-- **The finished tokens of a piece** stay as they are. -/
theorem Piece.stable_run {piece : Piece} (h : ∀ item ∈ piece.items, (g item).Stable) :
    StableRun (splitNot (piece.run g)) := by
  obtain ⟨hkept, hnegated⟩ := List.forall_mem_append.1 h
  by_cases hnone : piece.negated = []
  · rw [piece.splitNot_kept hg hnone]
    exact items_stable hg hkept
  · rw [piece.splitNot_negated hg hnone]
    have hplain : (Token.ofRun (piece.kept.map g)).Ordinary := by
      rcases piece.kept with _ | ⟨item, _ | ⟨other, rest⟩⟩
      · exact Token.paren_ordinary _
      · exact hg item
      · exact Token.paren_ordinary _
    have hexcluded : (anyOf (piece.negated.map g)).isNot = false := by
      rcases piece.negated with _ | ⟨item, _ | ⟨other, rest⟩⟩
      · rfl
      · exact (hg item).isNot
      · rfl
    -- What is excluded may be an `or`, but it has only one token behind it.
    have hchildren : StableRun [anyOf (piece.negated.map g), Token.ofRun (piece.kept.map g)] := by
      refine ⟨?_, splitOr_pair hplain.isOr, splitNot_ordinary ?_⟩
      · intro token htoken
        rcases List.mem_pair.1 htoken with rfl | rfl
        · exact (items_stable hg hnegated).anyOf_stable
        · exact (items_stable hg hkept).ofRun_stable
      · intro token htoken
        rcases List.mem_pair.1 htoken with rfl | rfl
        · exact hexcluded
        · exact hplain.isNot
    exact .single hchildren.stable

theorem Piece.treeOf_stable {piece : Piece} (h : ∀ item ∈ piece.items, (g item).Stable) :
    (piece.treeOf g).Stable := by
  have hrun := piece.stable_run hg h
  unfold Piece.treeOf
  split
  next token htoken =>
    rw [htoken, splitNot_single] at hrun
    exact hrun.each token List.mem_cons_self
  · exact hrun.stable

/-- **The finished tokens of a request** stay as they are. -/
theorem Request.stable_branch {request : Request} (h : ∀ item ∈ request.items, (g item).Stable) :
    StableRun (request.branchOf g) := by
  have hpieces : ∀ piece ∈ request.pieces, ∀ item ∈ piece.items, (g item).Stable :=
    fun piece hpiece item hitem => h item (List.mem_flatMap.2 ⟨piece, hpiece, hitem⟩)
  cases request with
  | piece p => exact p.stable_run hg (hpieces p (by simp [Request.pieces]))
  | or p separator rest =>
    have htrees : StableRun ((Request.or p separator rest).pieces.map (Piece.treeOf g)) :=
      .ordinary
        (List.forall_mem_map.2 fun piece hpiece => piece.treeOf_stable hg (hpieces piece hpiece))
        (List.forall_mem_map.2 fun piece _ => piece.isOr_treeOf hg)
        (List.forall_mem_map.2 fun piece _ => piece.isNot_treeOf hg)
    have heither : (eitherOf ((Request.or p separator rest).pieces.map (Piece.treeOf g))).Stable :=
      htrees.stable
    exact .single heither

end Requests

theorem Leaf.token_stable (leaf : Leaf) : leaf.token.Stable := by
  have hbare : leaf.token.children = [] := by cases leaf <;> rfl
  exact ⟨Token.regroup_bare rfl hbare, Token.regroup_bare rfl hbare⟩

/-- The finished tree of an item stays as it is. -/
theorem Item.tree_stable (item : Item) : item.tree.Stable := by
  induction item using Item.induct with
  | leaf l =>
    rw [Item.tree_leaf]
    exact l.token_stable
  | group request ih =>
    rw [Item.tree_group]
    have hbranch : StableRun (Token.paren (request.branchOf Item.tree)).children :=
      request.stable_branch Item.tree_ordinary ih
    exact hbranch.stable

/-- **The root of a finished tree** stays as it is. -/
theorem Request.root_stable (request : Request) : request.root.Stable :=
  (request.stable_branch Item.tree_ordinary fun item _ => item.tree_stable).ofRun_stable

end Grammar

end InvertedIndex
