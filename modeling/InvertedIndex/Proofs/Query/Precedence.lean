import InvertedIndex.Proofs.Query.Grammar

/-!
# `Proofs.Query.Precedence` — the tree of a request

The passes over the tokens of a request find its pieces, and in each piece what is negated and what
is not. They work from the inside out and one after the other, but on the tokens of a request the
outcome can be said at once: `Request.branchOf`.

## Contents
- `Token.regroup_paren`, `Token.regroup_bare`: a pass applied to a token;
- `Item.isOr_token`, …: which tokens are operators;
- `Parts.run`, `Piece.run`, `Request.run`: the tokens with others for the items;
- `splitOr_run`: the pieces; `notParts_run`: what is negated and what is not;
- `Request.items`, `Item.induct`: induction on the items of a request;
- `Piece.treeOf`, `Request.branchOf`: the finished tokens; `rearrange_run`: the passes lead there;
- `Item.tree`, `Request.root`: the finished tree of an item or request.
-/

namespace InvertedIndex

/-! ## A pass applied to a token -/

namespace Token

theorem regroupAll_eq (pass : List Token → List Token) (tokens : List Token) :
    regroup.regroupAll pass tokens = tokens.map (regroup pass) := by
  induction tokens with
  | nil => rfl
  | cons token rest ih => rw [regroup.regroupAll, ih, List.map_cons]

/-- In parentheses the pass is applied to what they enclose. -/
theorem regroup_paren (pass : List Token → List Token) (tokens : List Token) :
    (paren tokens).regroup pass = paren (pass (tokens.map (regroup pass))) := by
  rw [← regroupAll_eq]
  rfl

/-- Nothing happens to a token without children. -/
theorem regroup_bare {pass : List Token → List Token} (hpass : pass [] = []) {token : Token}
    (hbare : token.children = []) : token.regroup pass = token := by
  obtain ⟨kind, text, action, noParams, attrs, modifiers, children⟩ := token
  obtain rfl : children = [] := hbare
  simp [regroup, regroup.regroupAll, hpass]

/-- A pass keeps the kinds and texts of tokens, so operators stay operators. -/
theorem isOperator_regroup (pass : List Token → List Token) (kind : TokenKind) (name : List Char)
    (token : Token) : (token.regroup pass).isOperator kind name = token.isOperator kind name := by
  obtain ⟨⟩ := token
  rfl

end Token

/-! ## Operators -/

/-- A token that is neither an `or` nor a `not`. -/
structure Token.Ordinary (token : Token) : Prop where
  isOr : token.isOr = false
  isNot : token.isNot = false

theorem Token.Ordinary.regroup {token : Token} (h : token.Ordinary)
    (pass : List Token → List Token) : (token.regroup pass).Ordinary :=
  ⟨(isOperator_regroup pass _ _ token).trans h.isOr, (isOperator_regroup pass _ _ token).trans h.isNot⟩

theorem Token.paren_ordinary (tokens : List Token) : (paren tokens).Ordinary := ⟨rfl, rfl⟩

namespace Grammar

/-- The name of an attribute ends in a colon, so it is no operator. -/
theorem attributeToken_ordinary (name : Word) (values : List String) :
    (attributeToken name values).Ordinary := by
  have hcolon : ':' ∈ (attributeToken name values).text.toList.map Char.toLower := by
    rw [attributeToken, String.toList_ofList]
    exact List.mem_map.2 ⟨':', by simp, by decide⟩
  have hspells {kind : TokenKind} {spelling : List Char} (hkind : TokenKind.word ≠ kind)
      (hno : ':' ∉ spelling) : (attributeToken name values).isOperator kind spelling = false := by
    refine decide_eq_false ?_
    rintro (h | ⟨-, h⟩)
    · exact hkind h
    · exact hno (h ▸ hcolon)
  exact ⟨hspells (by simp) (by simp), hspells (by simp) (by simp)⟩

theorem Leaf.token_ordinary (leaf : Leaf) : leaf.token.Ordinary := by
  cases leaf with
  | word w notOr notNot =>
    have hspells {kind : TokenKind} {name : List Char} (hkind : TokenKind.word ≠ kind)
        (hno : ¬ w.Spells name) : (Leaf.word w notOr notNot).token.isOperator kind name = false := by
      refine decide_eq_false ?_
      rintro (h | ⟨-, h⟩)
      · exact hkind h
      · rw [token, Word.text, String.toList_ofList] at h
        exact hno h
    exact ⟨hspells (by simp) notOr, hspells (by simp) notNot⟩
  | stem s => exact ⟨by simp [Token.isOr, Token.isOperator, token],
      by simp [Token.isNot, Token.isOperator, token]⟩
  | named name value => exact attributeToken_ordinary name _
  | listed name value more => exact attributeToken_ordinary name _

theorem Item.token_ordinary (item : Item) : item.token.Ordinary := by
  cases item with
  | leaf l => exact l.token_ordinary
  | group request => exact Token.paren_ordinary _

theorem Negation.isNot_token (negation : Negation) : negation.token.isNot = true := by
  refine decide_eq_true (.inr ⟨rfl, ?_⟩)
  rw [token, Word.text, String.toList_ofList]
  exact negation.spells

theorem Negation.isOr_token (negation : Negation) : negation.token.isOr = false := by
  refine decide_eq_false ?_
  rintro (h | ⟨-, h⟩)
  · cases h
  · rw [token, Word.text, String.toList_ofList, negation.spells] at h
    simp at h

theorem Separator.isOr_token (separator : Separator) : separator.token.isOr = true := by
  cases separator with
  | bar => rfl
  | word spelling spells =>
    refine decide_eq_true (.inr ⟨rfl, ?_⟩)
    rw [token, Word.text, String.toList_ofList]
    exact spells

/-! ## Tokens with others for the items -/

variable {g : Item → Token}

/-- The tokens of parts, with others for the items. -/
def Parts.run (g : Item → Token) : Parts → List Token
  | .nil => []
  | .item i rest => g i :: rest.run g
  | .not n i rest => n.token :: g i :: rest.run g

/-- The tokens of a piece, with others for the items. -/
def Piece.run (g : Item → Token) : Piece → List Token
  | .mk before item after => before.run g ++ g item :: after.run g

/-- The tokens of a request, with others for the items. -/
def Request.run (g : Item → Token) : Request → List Token
  | .piece p => p.run g
  | .or p separator rest => p.run g ++ separator.token :: rest.run g

theorem Parts.run_token (parts : Parts) : parts.run Item.token = parts.tokens := by
  induction parts with
  | nil => rfl
  | item _ rest ih => rw [Parts.run, ih, Parts.tokens]
  | not _ _ rest ih => rw [Parts.run, ih, Parts.tokens]

theorem Piece.run_token (piece : Piece) : piece.run Item.token = piece.tokens := by
  obtain ⟨before, item, after⟩ := piece
  rw [Piece.run, before.run_token, after.run_token, Piece.tokens]

theorem Request.run_token (request : Request) : request.run Item.token = request.tokens := by
  induction request with
  | piece p => exact p.run_token
  | or p separator rest ih => rw [Request.run, p.run_token, ih, Request.tokens]

section Regroup

variable {pass : List Token → List Token} (hpass : pass [] = [])

include hpass

theorem Parts.map_run (parts : Parts) :
    (parts.run g).map (Token.regroup pass) = parts.run fun item => (g item).regroup pass := by
  induction parts with
  | nil => rfl
  | item _ rest ih =>
    rw [Parts.run, List.map_cons, ih]
    rfl
  | not n _ rest ih =>
    rw [Parts.run, List.map_cons, List.map_cons, ih, Token.regroup_bare hpass rfl]
    rfl

theorem Piece.map_run (piece : Piece) :
    (piece.run g).map (Token.regroup pass) = piece.run fun item => (g item).regroup pass := by
  obtain ⟨before, item, after⟩ := piece
  simp only [Piece.run, List.map_append, List.map_cons, Parts.map_run hpass]

theorem Request.map_run (request : Request) :
    (request.run g).map (Token.regroup pass) = request.run fun item => (g item).regroup pass := by
  induction request with
  | piece p => exact p.map_run hpass
  | or p separator rest ih =>
    have hbare : separator.token.regroup pass = separator.token :=
      Token.regroup_bare hpass (by cases separator <;> rfl)
    simp only [Request.run, List.map_append, List.map_cons, p.map_run hpass, ih, hbare]

end Regroup

/-! ## Alternatives -/

/-- The token for some alternatives. -/
def eitherOf (tokens : List Token) : Token := { kind := .or, text := "or", children := tokens }

theorem regroup_eitherOf (pass : List Token → List Token) (tokens : List Token) :
    (eitherOf tokens).regroup pass = eitherOf (pass (tokens.map (Token.regroup pass))) := by
  rw [← Token.regroupAll_eq]
  rfl

/-- The pieces of a request. -/
def Request.pieces : Request → List Piece
  | .piece p => [p]
  | .or p _ rest => p :: rest.pieces

theorem Request.pieces_ne_nil (request : Request) : request.pieces ≠ [] := by
  cases request <;> simp [pieces]

theorem Parts.isOr_run (hg : ∀ item, (g item).Ordinary) (parts : Parts) :
    ∀ token ∈ parts.run g, token.isOr = false := by
  induction parts with
  | nil => simp [Parts.run]
  | item i rest ih => exact List.forall_mem_cons.2 ⟨(hg i).isOr, ih⟩
  | not n i rest ih =>
    exact List.forall_mem_cons.2 ⟨n.isOr_token, List.forall_mem_cons.2 ⟨(hg i).isOr, ih⟩⟩

theorem Piece.isOr_run (hg : ∀ item, (g item).Ordinary) (piece : Piece) :
    ∀ token ∈ piece.run g, token.isOr = false := by
  obtain ⟨before, item, after⟩ := piece
  exact List.forall_mem_append.2
    ⟨before.isOr_run hg, List.forall_mem_cons.2 ⟨(hg item).isOr, after.isOr_run hg⟩⟩

theorem Piece.run_ne_nil (piece : Piece) : piece.run g ≠ [] := by
  cases piece
  simp [Piece.run]

theorem Request.run_ne_nil (request : Request) : request.run g ≠ [] := by
  cases request with
  | piece p => exact p.run_ne_nil
  | or p separator rest => simp [Request.run]

/-- Tokens that are no `or` go on with the current piece. -/
theorem orPieces_append {tokens : List Token} (h : ∀ token ∈ tokens, token.isOr = false)
    (piece rest : List Token) :
    orPieces piece (tokens ++ rest) = orPieces (tokens.reverse ++ piece) rest := by
  induction tokens generalizing piece with
  | nil => rfl
  | cons token tokens ih =>
    obtain ⟨htoken, htokens⟩ := List.forall_mem_cons.1 h
    rw [List.cons_append, orPieces, if_neg (by simp [htoken]), ih htokens]
    simp

/-- The pieces of a run are those of the request, the last one apart. -/
theorem orPieces_run (hg : ∀ item, (g item).Ordinary) (request : Request) :
    ∃ front last, request.pieces = front ++ [last] ∧
      orPieces [] (request.run g) = (front.map (Piece.run g), last.run g) := by
  induction request with
  | piece p =>
    have hpieces := orPieces_append (p.isOr_run hg) [] []
    rw [List.append_nil, List.append_nil] at hpieces
    refine ⟨[], p, rfl, ?_⟩
    rw [Request.run, hpieces, orPieces, List.reverse_reverse]
    rfl
  | or p separator rest ih =>
    obtain ⟨front, last, hpieces, hrest⟩ := ih
    refine ⟨p :: front, last, by rw [Request.pieces, hpieces]; rfl, ?_⟩
    have hsome : ¬ ((rest.run g).isEmpty ∨ (p.run g).reverse.isEmpty) := by
      simp [rest.run_ne_nil, p.run_ne_nil]
    rw [Request.run, orPieces_append (p.isOr_run hg), List.append_nil, orPieces,
      if_pos separator.isOr_token, hrest]
    simp only [if_neg hsome, List.reverse_reverse, List.map_cons]

/-- A run without `or` tokens stays as it is. -/
theorem splitOr_ordinary {tokens : List Token} (h : ∀ token ∈ tokens, token.isOr = false) :
    splitOr tokens = tokens := by
  have hpieces := orPieces_append h [] []
  rw [List.append_nil, List.append_nil] at hpieces
  have htake : tokens.takeWhile Token.isOr = [] := by
    cases tokens with
    | nil => rfl
    | cons token rest =>
      rw [List.takeWhile_cons, h token List.mem_cons_self]
      rfl
  have hdrop : tokens.dropWhile Token.isOr = tokens := by
    have hsplit := List.takeWhile_append_dropWhile (p := Token.isOr) (l := tokens)
    rwa [htake, List.nil_append] at hsplit
  rw [splitOr, hpieces, orPieces]
  simp only [htake, hdrop, List.nil_append]
  refine List.takeWhile_eq_self_iff.2 ?_
  intro token htoken
  simp [h token htoken]

/-- **The first pass** makes one token of several pieces. -/
theorem splitOr_pieces (hg : ∀ item, (g item).Ordinary) (piece : Piece) (separator : Separator)
    (rest : Request) :
    splitOr ((Request.or piece separator rest).run g)
      = [eitherOf ((Request.or piece separator rest).pieces.map fun p => Token.ofRun (p.run g))] := by
  obtain ⟨front, last, hpieces, hrun⟩ := orPieces_run hg (.or piece separator rest)
  have hfront : front ≠ [] := by
    rintro rfl
    rw [Request.pieces, List.nil_append, List.cons.injEq] at hpieces
    exact rest.pieces_ne_nil hpieces.2
  obtain ⟨first, others, rfl⟩ := List.exists_cons_of_ne_nil hfront
  have hlast : (last.run g).isEmpty = false := by simpa using last.run_ne_nil
  rw [splitOr, hrun, hpieces]
  simp only [List.map_cons, hlast, Bool.false_eq_true, if_false, List.map_append, List.map_map]
  rfl

/-! ## Exclusions -/

/-- The items of parts that are not negated. -/
def Parts.kept : Parts → List Item
  | .nil => []
  | .item i rest => i :: rest.kept
  | .not _ _ rest => rest.kept

/-- The items of parts that are negated. -/
def Parts.negated : Parts → List Item
  | .nil => []
  | .item _ rest => rest.negated
  | .not _ i rest => i :: rest.negated

/-- The items of a piece that are not negated. -/
def Piece.kept : Piece → List Item
  | .mk before item after => before.kept ++ item :: after.kept

/-- The items of a piece that are negated. -/
def Piece.negated : Piece → List Item
  | .mk before _ after => before.negated ++ after.negated

theorem Piece.kept_ne_nil (piece : Piece) : piece.kept ≠ [] := by
  cases piece
  simp [Piece.kept]

theorem notParts_kept {token : Token} (h : token.isNot = false) (rest : List Token) :
    notParts (token :: rest) = ((notParts rest).1, token :: (notParts rest).2) := by
  cases rest <;> simp [notParts, h]

theorem notParts_negated {token : Token} (h : token.isNot = true) (operand : Token)
    (rest : List Token) :
    notParts (token :: operand :: rest) = (operand :: (notParts rest).1, (notParts rest).2) := by
  simp [notParts, h]

theorem Parts.notParts_run (hg : ∀ item, (g item).Ordinary) (behind : List Token)
    (parts : Parts) : notParts (parts.run g ++ behind)
      = (parts.negated.map g ++ (notParts behind).1, parts.kept.map g ++ (notParts behind).2) := by
  induction parts with
  | nil => rfl
  | item i rest ih =>
    rw [Parts.run, List.cons_append, notParts_kept (hg i).isNot, ih]
    rfl
  | not n i rest ih =>
    rw [Parts.run, List.cons_append, List.cons_append, notParts_negated n.isNot_token, ih]
    rfl

/-- **What is negated and what is not.** -/
theorem Piece.notParts_run (hg : ∀ item, (g item).Ordinary) (piece : Piece) :
    notParts (piece.run g) = (piece.negated.map g, piece.kept.map g) := by
  obtain ⟨before, item, after⟩ := piece
  have hafter := after.notParts_run hg []
  rw [List.append_nil] at hafter
  rw [Piece.run, before.notParts_run hg, notParts_kept (hg item).isNot, hafter]
  simp [Piece.negated, Piece.kept, notParts]

/-- Parts without negated items are the other items. -/
theorem Parts.run_of_negated : (parts : Parts) → parts.negated = [] →
    parts.run g = parts.kept.map g
  | .nil, _ => rfl
  | .item i rest, h => congrArg (g i :: ·) (rest.run_of_negated h)
  | .not _ _ _, h => by simp [Parts.negated] at h

theorem Piece.run_of_negated {piece : Piece} (h : piece.negated = []) :
    piece.run g = piece.kept.map g := by
  obtain ⟨before, item, after⟩ := piece
  obtain ⟨hbefore, hafter⟩ := List.append_eq_nil_iff.1 h
  rw [Piece.run, before.run_of_negated hbefore, after.run_of_negated hafter, Piece.kept]
  simp

/-- **The second pass** leaves a piece as it is if nothing in it is negated. -/
theorem Piece.splitNot_kept (hg : ∀ item, (g item).Ordinary) {piece : Piece}
    (h : piece.negated = []) : splitNot (piece.run g) = piece.kept.map g := by
  rw [splitNot, piece.notParts_run hg, h, piece.run_of_negated h]
  exact if_pos (.inl rfl)

/-- **The second pass** makes one token of a piece in which something is negated. -/
theorem Piece.splitNot_negated (hg : ∀ item, (g item).Ordinary) {piece : Piece}
    (h : piece.negated ≠ []) : splitNot (piece.run g) = [{
      kind := .not, text := "not"
      children := [anyOf (piece.negated.map g), Token.ofRun (piece.kept.map g)] }] := by
  rw [splitNot, piece.notParts_run hg]
  exact if_neg (by simp [h, piece.kept_ne_nil])

/-- Ordinary tokens are all kept. -/
theorem splitNot_ordinary {tokens : List Token} (h : ∀ token ∈ tokens, token.isNot = false) :
    splitNot tokens = tokens := by
  have hparts : notParts tokens = ([], tokens) := by
    induction tokens with
    | nil => rfl
    | cons token rest ih =>
      obtain ⟨htoken, hrest⟩ := List.forall_mem_cons.1 h
      rw [notParts_kept htoken, ih hrest]
  rw [splitNot, hparts]
  exact if_pos (.inl rfl)

/-! ## Items of a request -/

/-- The items of a piece, those that are negated last. -/
def Piece.items (piece : Piece) : List Item := piece.kept ++ piece.negated

/-- The items of a request, without those in parentheses within it. -/
def Request.items (request : Request) : List Item := request.pieces.flatMap Piece.items

theorem Request.items_or (p : Piece) (separator : Separator) (rest : Request) :
    (Request.or p separator rest).items = p.items ++ rest.items := by
  simp [items, pieces]

section Induct

variable {P : Item → Prop}

mutual

/-- **Induction on an item**: what holds of a leaf, and of parentheses around items of which it
    holds, holds of every item. -/
theorem Item.induct (leaf : ∀ l, P (.leaf l))
    (group : ∀ request : Request, (∀ item ∈ request.items, P item) → P (.group request)) :
    (item : Item) → P item
  | .leaf l => leaf l
  | .group request => group request (request.items_induct leaf group)

theorem Parts.items_induct (leaf : ∀ l, P (.leaf l))
    (group : ∀ request : Request, (∀ item ∈ request.items, P item) → P (.group request)) :
    (parts : Parts) → (∀ item ∈ parts.kept, P item) ∧ ∀ item ∈ parts.negated, P item
  | .nil => ⟨by simp [Parts.kept], by simp [Parts.negated]⟩
  | .item i rest => by
    obtain ⟨hkept, hnegated⟩ := rest.items_induct leaf group
    exact ⟨List.forall_mem_cons.2 ⟨i.induct leaf group, hkept⟩, hnegated⟩
  | .not _ i rest => by
    obtain ⟨hkept, hnegated⟩ := rest.items_induct leaf group
    exact ⟨hkept, List.forall_mem_cons.2 ⟨i.induct leaf group, hnegated⟩⟩

theorem Piece.items_induct (leaf : ∀ l, P (.leaf l))
    (group : ∀ request : Request, (∀ item ∈ request.items, P item) → P (.group request)) :
    (piece : Piece) → ∀ item ∈ piece.items, P item
  | .mk before item after => by
    obtain ⟨hkept, hnegated⟩ := before.items_induct leaf group
    obtain ⟨hkept', hnegated'⟩ := after.items_induct leaf group
    refine List.forall_mem_append.2 ⟨?_, List.forall_mem_append.2 ⟨hnegated, hnegated'⟩⟩
    exact List.forall_mem_append.2
      ⟨hkept, List.forall_mem_cons.2 ⟨item.induct leaf group, hkept'⟩⟩

theorem Request.items_induct (leaf : ∀ l, P (.leaf l))
    (group : ∀ request : Request, (∀ item ∈ request.items, P item) → P (.group request)) :
    (request : Request) → ∀ item ∈ request.items, P item
  | .piece p => by
    rw [Request.items, Request.pieces, List.flatMap_singleton]
    exact p.items_induct leaf group
  | .or p separator rest => by
    rw [Request.items_or]
    exact List.forall_mem_append.2 ⟨p.items_induct leaf group, rest.items_induct leaf group⟩

end

end Induct

/-! ## The finished tree -/

/-- The token of a piece among others, with finished tokens for the items. -/
def Piece.treeOf (g : Item → Token) (piece : Piece) : Token :=
  match piece.run g with
  | [token] => token
  | tokens => Token.paren (splitNot tokens)

/-- The finished tokens of a request, given those of the items. -/
def Request.branchOf (g : Item → Token) : Request → List Token
  | .piece p => splitNot (p.run g)
  | .or p separator rest => [eitherOf ((Request.or p separator rest).pieces.map (Piece.treeOf g))]

theorem Request.branchOf_ne_nil (request : Request) : request.branchOf g ≠ [] := by
  cases request with
  | piece p =>
    rw [Request.branchOf, splitNot]
    simp only
    split
    · exact p.run_ne_nil
    · simp
  | or p separator rest => simp [Request.branchOf]

/-- A piece is no `or`, -/
theorem Piece.isOr_treeOf (hg : ∀ item, (g item).Ordinary) (piece : Piece) :
    (piece.treeOf g).isOr = false := by
  unfold Piece.treeOf
  split
  next token hrun => exact piece.isOr_run hg token (by simp [hrun])
  · rfl

/-- nor a `not`: one that consists of a single token has an item in it. -/
theorem Piece.isNot_treeOf (hg : ∀ item, (g item).Ordinary) (piece : Piece) :
    (piece.treeOf g).isNot = false := by
  unfold Piece.treeOf
  split
  next token hrun =>
    rw [Bool.eq_false_iff]
    intro hnot
    have hparts := piece.notParts_run hg
    have hkept : [] = piece.kept.map g := by
      simpa [hrun, notParts, hnot] using congrArg Prod.snd hparts
    exact piece.kept_ne_nil (List.map_eq_nil_iff.1 hkept.symm)
  · rfl

/-- The second pass over the token of a piece. -/
theorem Piece.regroup_ofRun (piece : Piece) :
    (Token.ofRun (piece.run g)).regroup splitNot
      = piece.treeOf fun item => (g item).regroup splitNot := by
  have hmap : (piece.run g).map (Token.regroup splitNot)
      = piece.run fun item => (g item).regroup splitNot := piece.map_run rfl
  unfold Piece.treeOf
  rw [← hmap]
  rcases piece.run g with _ | ⟨token, _ | ⟨other, rest⟩⟩
  · exact Token.regroup_paren splitNot _
  · rfl
  · exact Token.regroup_paren splitNot _

theorem groupAll_eq {tokens : List Token} (h : tokens ≠ []) :
    groupAll tokens = some (Token.ofRun tokens) := by
  obtain ⟨token, rest, rfl⟩ := List.exists_cons_of_ne_nil h
  rfl

/-- **The passes over the tokens of a request** lead to its finished tokens, whatever ordinary tokens
    stand for the items. -/
theorem Request.rearrange_run (hg : ∀ item, (g item).Ordinary) (request : Request) :
    rearrange splitNot (rearrange splitOr (request.run g))
      = request.branchOf fun item => ((g item).regroup splitOr).regroup splitNot := by
  have hor (item : Item) : ((g item).regroup splitOr).Ordinary := (hg item).regroup _
  have hnot (item : Item) : (((g item).regroup splitOr).regroup splitNot).Ordinary :=
    (hor item).regroup _
  rw [rearrange, rearrange, Token.regroupAll_eq, Token.regroupAll_eq, request.map_run rfl]
  cases request with
  | piece p =>
    rw [Request.run, splitOr_ordinary (p.isOr_run hor), p.map_run rfl]
    rfl
  | or p separator rest =>
    have htrees : (List.map (fun piece : Piece => Token.ofRun (piece.run fun item =>
        (g item).regroup splitOr)) (Request.or p separator rest).pieces).map
          (Token.regroup splitNot) = (Request.or p separator rest).pieces.map
            (Piece.treeOf fun item => ((g item).regroup splitOr).regroup splitNot) := by
      rw [List.map_map]
      exact List.map_congr_left fun piece _ => piece.regroup_ofRun
    have hplain : ∀ token ∈ (Request.or p separator rest).pieces.map
          (Piece.treeOf fun item => ((g item).regroup splitOr).regroup splitNot),
        token.isNot = false :=
      List.forall_mem_map.2 fun piece _ => piece.isNot_treeOf hnot
    have heither (tokens : List Token) : splitNot [eitherOf tokens] = [eitherOf tokens] :=
      splitNot_ordinary (by simp [eitherOf, Token.isNot, Token.isOperator])
    rw [splitOr_pieces hor, List.map_cons, List.map_nil, regroup_eitherOf, htrees,
      splitNot_ordinary hplain, heither]
    rfl

/-- The finished tree of an item. -/
def Item.tree (item : Item) : Token := (item.token.regroup splitOr).regroup splitNot

theorem Item.tree_ordinary (item : Item) : item.tree.Ordinary :=
  (item.token_ordinary.regroup _).regroup _

/-- The passes over the tokens of a request lead to its finished tokens. -/
theorem Request.rearrange_tokens (request : Request) :
    rearrange splitNot (rearrange splitOr request.tokens) = request.branchOf Item.tree := by
  rw [← request.run_token]
  exact request.rearrange_run Item.token_ordinary

/-- The finished tree of a request. -/
def Request.root (request : Request) : Token := Token.ofRun (request.branchOf Item.tree)

/-- The passes over the token of a request in parentheses. -/
theorem Item.tree_group (request : Request) :
    (Item.group request).tree = Token.paren (request.branchOf Item.tree) := by
  rw [Item.tree, Item.token, Token.regroup_paren, Token.regroup_paren, ← request.rearrange_tokens,
    rearrange, rearrange, Token.regroupAll_eq, Token.regroupAll_eq]

theorem Item.tree_leaf (leaf : Leaf) : (Item.leaf leaf).tree = leaf.token := by
  have hbare : leaf.token.children = [] := by cases leaf <;> rfl
  rw [Item.tree, Item.token, Token.regroup_bare rfl hbare, Token.regroup_bare rfl hbare]

end Grammar

end InvertedIndex
