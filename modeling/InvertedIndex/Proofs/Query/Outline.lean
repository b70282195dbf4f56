import InvertedIndex.Proofs.Query.Grammar

/-!
# `Proofs.Query.Outline` — lexemes placed one after the other

As long as no quotation mark, brace, comparison or colon is around, an outline is **quiet**: a new
token goes behind the tail or below it, whatever it is, and a closing parenthesis makes the one that
it closes the tail. So the lexemes of an item add one token, that of the item, and the lexemes of a
request add its tokens.

## Contents
- `Resolver.shown`: what a resolver puts in the place of a token;
- `Outline.Quiet`: nothing around changes what a lexeme means;
- `Outline.read`: a token placed; `Quiet.read_plain`, `Quiet.read_closing`: what it does;
- `Quiet.appendAll_beside`, `Quiet.appendAll_below`: where a run of tokens goes;
- `Grafting`: resolvers that put trees in the place of leaves; they keep an outline quiet;
- `Item.tokenOf`, …, `Request.tokensOf`: the tokens with those trees in them;
- `Item.readAll_eq`, …, `Request.readAll_eq`: the lexemes of an item or request;
- `Request.roots_eq`: the outline of a request.
-/

namespace InvertedIndex

/-! ## Quiet outlines -/

/-- What a resolver puts in the place of a token: its substitute, with the attribute values of the
    token if there are any, or the token itself. -/
def Resolver.shown (resolve : Resolver) (token : Token) : Token :=
  match (resolve token.text token.attrs).substitute with
  | none => token
  | some root => if token.attrs.isEmpty then root else { root with attrs := token.attrs }

/-- A token around which every lexeme has its plain meaning. -/
def Token.Quiet (token : Token) : Prop :=
  token.kind = .word ∨ token.kind = .modifier ∨ token.kind = .or ∨ token.kind = .not ∨
    token.kind = .openParen

/-- No token waits to modify the next one, and all tokens around the tail are quiet. -/
structure Outline.Quiet (outline : Outline) : Prop where
  pending : outline.pending = []
  around : ∀ level ∈ outline.spine, level.last.Quiet

/-- A quiet token as it is read, with nothing below it. Signs are left out since they merge with
    each other. -/
structure Token.Plain (token : Token) : Prop where
  quiet : token.Quiet
  notDash : token.text ≠ "-"
  notPlus : token.text ≠ "+"
  fresh : token = { kind := token.kind, text := token.text, attrs := token.attrs }

/-- A quiet token below which nothing goes any more. -/
structure Token.Settled (token : Token) : Prop where
  quiet : token.Quiet
  nests : Outline.nests token = false

namespace Outline

/-- The outline after a token that the resolver is shown. -/
def read (resolve : Resolver) (outline : Outline) (token : Token) : Outline :=
  outline.place token.kind token.text .normal token.attrs (resolve token.text token.attrs).substitute

namespace Quiet

variable {resolve : Resolver} {outline : Outline} {token : Token}

theorem empty_quiet : Quiet {} := ⟨rfl, by simp⟩

/-- A kind that is not quiet is not around. -/
theorem not_inside (h : outline.Quiet) {kind : TokenKind} (hword : kind ≠ .word)
    (hmodifier : kind ≠ .modifier) (hor : kind ≠ .or) (hnot : kind ≠ .not)
    (hparen : kind ≠ .openParen) : outline.inside kind = false := by
  rw [inside, List.any_eq_false]
  intro level hlevel heq
  obtain rfl : level.last.kind = kind := by simpa using heq
  rcases h.around level hlevel with hlast | hlast | hlast | hlast | hlast
  · exact hword hlast
  · exact hmodifier hlast
  · exact hor hlast
  · exact hnot hlast
  · exact hparen hlast

/-- The parent of the tail is no equation. -/
theorem parent_isEquation (h : outline.Quiet) : outline.parent?.any isEquation = false := by
  have hquiet : ∀ token, token.Quiet → isEquation token = false := by
    intro token htoken
    rcases htoken with hkind | hkind | hkind | hkind | hkind <;> simp [isEquation, hkind]
  unfold parent?
  rcases hspine : outline.spine with _ | ⟨level, _ | ⟨parent, outer⟩⟩
  · rfl
  · rfl
  · exact hquiet _ (h.around parent (by simp [hspine]))

/-- Only signs and comparisons merge into the tail. -/
theorem mergeIntoTail?_eq_none {kind : TokenKind} {text : String} (hdash : text ≠ "-")
    (hplus : text ≠ "+") (hkind : kind ≠ .comparison) :
    outline.mergeIntoTail? kind text = none := by
  unfold mergeIntoTail? mergedText?
  cases outline.tail? <;> simp [hdash, hplus, hkind]

/-- Where no token waits, a plain token is added, or what the resolver puts in its place. -/
theorem read_of_pending (hpending : outline.pending = []) (hplain : token.Plain) :
    outline.read resolve token = outline.append (resolve.shown token) := by
  have hmerge : outline.mergeIntoTail? token.kind token.text = none := by
    refine mergeIntoTail?_eq_none hplain.notDash hplain.notPlus ?_
    intro hkind
    rcases hplain.quiet with h | h | h | h | h <;> simp [hkind] at h
  have hsteer : outline.steer? token.kind = none := by
    rcases hplain.quiet with h | h | h | h | h <;> rw [h] <;> rfl
  have htoken : (if token.attrs.isEmpty then { kind := token.kind, text := token.text }
      else ({ kind := token.kind, text := token.text, attrs := token.attrs } : Token)) = token := by
    conv => rhs; rw [hplain.fresh]
    split
    next hattrs => rw [List.isEmpty_iff.1 hattrs]
    · rfl
  unfold read place Resolver.shown
  simp only [hmerge, hsteer, attach, hpending, List.isEmpty_nil, if_true]
  cases (resolve token.text token.attrs).substitute with
  | none => exact congrArg outline.append htoken
  | some root => rfl

/-- So it is in a quiet outline. -/
theorem read_plain (h : outline.Quiet) (hplain : token.Plain) :
    outline.read resolve token = outline.append (resolve.shown token) :=
  read_of_pending h.pending hplain

/-- A closing parenthesis closes. -/
theorem read_closing :
    outline.read resolve { kind := .closeParen, text := ")" } = outline.close .openParen := by
  have hmerge : outline.mergeIntoTail? .closeParen ")" = none :=
    mergeIntoTail?_eq_none (by decide) (by decide) (by decide)
  simp only [read, place, hmerge, steer?]

/-- A token that does not go below the tail goes behind it. -/
theorem append_beside (h : outline.Quiet) {level : Level} {outer : List Level}
    (hspine : outline.spine = level :: outer) (hnests : nests level.last = false) (token : Token) :
    outline.append token
      = { outline with spine := ⟨level.last :: level.earlier, token⟩ :: outer } := by
  have hcolon : level.last.kind ≠ .colon := by
    intro hkind
    rcases h.around level (by simp [hspine]) with h | h | h | h | h <;> simp [hkind] at h
  simp only [append, hspine, hnests, Bool.false_eq_true, if_false, if_neg hcolon]

/-- A token that goes below the tail is the first there. -/
theorem append_below {level : Level} {outer : List Level} (hspine : outline.spine = level :: outer)
    (hnests : nests level.last = true) (token : Token) :
    outline.append token = { outline with spine := ⟨[], token⟩ :: level :: outer } := by
  simp only [append, hspine, hnests, if_true]

/-- Where a token is added does not depend on the token. -/
theorem append_eq (h : outline.Quiet) : ∃ earlier outer,
    (∀ token, outline.append token = { outline with spine := ⟨earlier, token⟩ :: outer }) ∧
      ∀ level ∈ outer, level.last.Quiet := by
  cases hspine : outline.spine with
  | nil =>
    refine ⟨[], [], fun token => ?_, by simp⟩
    simp only [append, hspine]
  | cons level outer =>
    have haround := h.around
    rw [hspine] at haround
    cases hnests : nests level.last with
    | true => exact ⟨[], level :: outer, append_below hspine hnests, haround⟩
    | false =>
      exact ⟨_, outer, h.append_beside hspine hnests, (List.forall_mem_cons.1 haround).2⟩

theorem append_quiet (h : outline.Quiet) (htoken : token.Quiet) : (outline.append token).Quiet := by
  obtain ⟨earlier, outer, happend, houter⟩ := h.append_eq
  rw [happend]
  exact ⟨h.pending, List.forall_mem_cons.2 ⟨htoken, houter⟩⟩

theorem leave_quiet (h : outline.Quiet) : outline.leave.Quiet := by
  unfold leave
  split
  next level parent outer hspine =>
    have haround := h.around
    simp only [hspine, List.forall_mem_cons] at haround
    exact ⟨h.pending, List.forall_mem_cons.2 haround.2⟩
  · exact h

theorem close_quiet (h : outline.Quiet) (kind : TokenKind) : (outline.close kind).Quiet := by
  unfold close
  split
  · exact h.leave_quiet
  · split
    next tail htail =>
      split
      · unfold setTail
        split
        · exact h
        next level outer hspine =>
          have haround := h.around
          simp only [hspine, List.forall_mem_cons] at haround
          have hlast : level.last = tail := by simpa [tail?, hspine] using htail
          exact ⟨h.pending, List.forall_mem_cons.2 ⟨hlast ▸ haround.1, haround.2⟩⟩
      · exact h
    · exact h

end Quiet

/-- A space does nothing, unless the operand of an equation stands before it. -/
theorem read_space {resolve : Resolver} {outline : Outline}
    (h : outline.parent?.any isEquation = false) :
    outline.read resolve { kind := .space, text := " " } = outline := by
  have hmerge : outline.mergeIntoTail? .space " " = none :=
    Quiet.mergeIntoTail?_eq_none (by decide) (by decide) (by decide)
  simp only [read, place, hmerge, steer?, h]
  rfl

end Outline

/-! ## Runs of tokens -/

namespace Outline

/-- The outline with some tokens added. -/
def appendAll (outline : Outline) (tokens : List Token) : Outline := tokens.foldl append outline

namespace Quiet

variable {outline : Outline} {tokens : List Token} {level : Level} {outer : List Level}

theorem appendAll_quiet (h : outline.Quiet) (htokens : ∀ token ∈ tokens, token.Settled) :
    (outline.appendAll tokens).Quiet := by
  induction tokens generalizing outline with
  | nil => exact h
  | cons token rest ih =>
    obtain ⟨htoken, hrest⟩ := List.forall_mem_cons.1 htokens
    exact ih (h.append_quiet htoken.quiet) hrest

/-- Settled tokens behind a settled tail lie beside it. -/
theorem appendAll_beside (h : outline.Quiet) (hspine : outline.spine = level :: outer)
    (hnests : nests level.last = false) (htokens : ∀ token ∈ tokens, token.Settled) :
    ∃ level' : Level, level'.tokens = level.tokens ++ tokens ∧
      outline.appendAll tokens = { outline with spine := level' :: outer } := by
  induction tokens generalizing outline level with
  | nil =>
    refine ⟨level, by simp, ?_⟩
    rw [← hspine]
    rfl
  | cons token rest ih =>
    obtain ⟨htoken, hrest⟩ := List.forall_mem_cons.1 htokens
    have happend := h.append_beside hspine hnests token
    have hquiet := h.append_quiet htoken.quiet
    obtain ⟨level', htokens', hall⟩ := ih hquiet (by rw [happend]) htoken.nests hrest
    refine ⟨level', ?_, ?_⟩
    · rw [htokens']
      simp [Level.tokens]
    · rw [appendAll, List.foldl_cons, ← appendAll, hall, happend]

/-- Settled tokens behind a tail below which they go lie beside each other there. -/
theorem appendAll_below (h : outline.Quiet) (hspine : outline.spine = level :: outer)
    (hnests : nests level.last = true) (hne : tokens ≠ [])
    (htokens : ∀ token ∈ tokens, token.Settled) :
    ∃ level' : Level, level'.tokens = tokens ∧
      outline.appendAll tokens = { outline with spine := level' :: level :: outer } := by
  obtain ⟨token, rest, rfl⟩ := List.exists_cons_of_ne_nil hne
  obtain ⟨htoken, hrest⟩ := List.forall_mem_cons.1 htokens
  have happend := append_below hspine hnests token
  obtain ⟨level', htokens', hall⟩ :=
    (h.append_quiet htoken.quiet).appendAll_beside (by rw [happend]) htoken.nests hrest
  refine ⟨level', htokens', ?_⟩
  rw [appendAll, List.foldl_cons, ← appendAll, hall, happend]

/-- **Tokens in parentheses** become the children of the parenthesis. -/
theorem close_appendAll (h : outline.Quiet) (hne : tokens ≠ [])
    (htokens : ∀ token ∈ tokens, token.Settled) :
    ((outline.append (Token.paren [])).appendAll tokens).close .openParen
      = outline.append (Token.paren tokens) := by
  obtain ⟨earlier, outer, happend, -⟩ := h.append_eq
  have hquiet : (outline.append (Token.paren [])).Quiet :=
    h.append_quiet (.inr (.inr (.inr (.inr rfl))))
  have hspine : (outline.append (Token.paren [])).spine = ⟨earlier, Token.paren []⟩ :: outer := by
    rw [happend]
  obtain ⟨level, hlevel, hall⟩ := hquiet.appendAll_below hspine rfl hne htokens
  rw [hall, happend, happend, ← hlevel]
  rfl

end Quiet

/-- **The tokens of the outermost level** are those added to the empty outline. -/
theorem roots_appendAll {tokens : List Token} (htokens : ∀ token ∈ tokens, token.Settled) :
    (appendAll {} tokens).roots = tokens := by
  cases tokens with
  | nil => rfl
  | cons token rest =>
    obtain ⟨htoken, hrest⟩ := List.forall_mem_cons.1 htokens
    have hquiet : (append {} token).Quiet := Quiet.empty_quiet.append_quiet htoken.quiet
    have hspine : (append {} token).spine = [⟨[], token⟩] := rfl
    obtain ⟨level, hlevel, hall⟩ := hquiet.appendAll_beside hspine htoken.nests hrest
    rw [appendAll, List.foldl_cons, ← appendAll, hall]
    exact hlevel

end Outline

/-! ## Lexemes -/

namespace Grammar

/-- The token of a lexeme, without anything below it. -/
def Lexeme.token : Lexeme → Token
  | .leaf l => l.token
  | .opening => Token.paren []
  | .closing => { kind := .closeParen, text := ")" }
  | .negation n => n.token
  | .separator s => s.token

/-- The outline after some lexemes. -/
def readAll (resolve : Resolver) (outline : Outline) (lexemes : List Lexeme) : Outline :=
  lexemes.foldl (fun outline lexeme => outline.read resolve lexeme.token) outline

/-- A text with a character that is no sign is not a sign. -/
theorem ofList_ne_sign {characters : List Char} {c : Char} (hc : c ∈ characters) (hdash : c ≠ '-')
    (hplus : c ≠ '+') : String.ofList characters ≠ "-" ∧ String.ofList characters ≠ "+" := by
  constructor
  · intro h
    rw [← String.toList_inj, String.toList_ofList] at h
    rw [h] at hc
    exact hdash (List.mem_singleton.1 hc)
  · intro h
    rw [← String.toList_inj, String.toList_ofList] at h
    rw [h] at hc
    exact hplus (List.mem_singleton.1 hc)

theorem Word.text_ne_sign (word : Word) : word.text ≠ "-" ∧ word.text ≠ "+" := by
  obtain ⟨c, rest, hcons⟩ := List.exists_cons_of_ne_nil word.nonempty
  have hc : c ∈ word.characters := by
    rw [hcons]
    exact List.mem_cons_self
  have hne : ∀ d, CharClass.of d ≠ .word → c ≠ d := by
    rintro _ hd rfl
    exact hd (word.plain c hc)
  exact ofList_ne_sign hc (hne _ (by decide)) (hne _ (by decide))

theorem Word.plain_word (word : Word) : Token.Plain { kind := .word, text := word.text } :=
  ⟨.inl rfl, word.text_ne_sign.1, word.text_ne_sign.2, rfl⟩

theorem Word.plain_stem (word : Word) :
    Token.Plain { kind := .modifier, text := String.ofList (word.characters ++ ['*']) } := by
  have hstar : '*' ∈ word.characters ++ ['*'] := by simp
  have hsign := ofList_ne_sign hstar (by decide) (by decide)
  exact ⟨.inr (.inl rfl), hsign.1, hsign.2, rfl⟩

theorem Leaf.token_plain (leaf : Leaf) : leaf.token.Plain := by
  cases leaf with
  | word w _ _ => exact w.plain_word
  | stem s => exact s.plain_stem
  | named name value =>
    have hcolon : ':' ∈ name.characters ++ [':'] := by simp
    have hsign := ofList_ne_sign hcolon (by decide) (by decide)
    exact ⟨.inl rfl, hsign.1, hsign.2, rfl⟩
  | listed name value more =>
    have hcolon : ':' ∈ name.characters ++ [':'] := by simp
    have hsign := ofList_ne_sign hcolon (by decide) (by decide)
    exact ⟨.inl rfl, hsign.1, hsign.2, rfl⟩

theorem Separator.token_plain (separator : Separator) : separator.token.Plain := by
  cases separator with
  | bar => exact ⟨.inr (.inr (.inl rfl)), by decide, by decide, rfl⟩
  | word spelling _ => exact spelling.plain_word

theorem Negation.token_plain (negation : Negation) : negation.token.Plain :=
  negation.spelling.plain_word

theorem opening_plain : (Token.paren []).Plain :=
  ⟨.inr (.inr (.inr (.inr rfl))), by decide, by decide, rfl⟩

/-- A token without children that is no group is settled. -/
theorem settled_of_kind {token : Token} (hquiet : token.Quiet) (hparen : token.kind ≠ .openParen) :
    token.Settled := by
  refine ⟨hquiet, ?_⟩
  rcases hquiet with h | h | h | h | h
  · simp [Outline.nests, Outline.isEquation, TokenKind.isGroup, h]
  · simp [Outline.nests, Outline.isEquation, TokenKind.isGroup, h]
  · simp [Outline.nests, Outline.isEquation, TokenKind.isGroup, h]
  · simp [Outline.nests, Outline.isEquation, TokenKind.isGroup, h]
  · exact absurd h hparen

theorem paren_settled {tokens : List Token} (hne : tokens ≠ []) : (Token.paren tokens).Settled := by
  refine ⟨.inr (.inr (.inr (.inr rfl))), ?_⟩
  obtain ⟨token, rest, rfl⟩ := List.exists_cons_of_ne_nil hne
  rfl

theorem Leaf.token_settled (leaf : Leaf) : leaf.token.Settled := by
  refine settled_of_kind leaf.token_plain.quiet ?_
  cases leaf <;> simp [token, attributeToken]

theorem Negation.token_settled (negation : Negation) : negation.token.Settled :=
  settled_of_kind negation.token_plain.quiet (by simp [Negation.token])

theorem Separator.token_settled (separator : Separator) : separator.token.Settled :=
  settled_of_kind separator.token_plain.quiet (by cases separator <;> simp [Separator.token])

/-! ## Resolvers -/

/-- The token that a resolver puts in the place of a leaf. -/
def Leaf.shown (resolve : Resolver) (leaf : Leaf) : Token := resolve.shown leaf.token

/-- A resolver that lets every token through and puts trees in the place of leaves alone. -/
structure Grafting (resolve : Resolver) : Prop where
  keeps : ∀ text, (resolve text []).action ≠ .skip
  leaf : ∀ leaf : Leaf, (leaf.shown resolve).Settled
  other : ∀ lexeme : Lexeme, (∀ leaf, lexeme ≠ .leaf leaf) →
    resolve.shown lexeme.token = lexeme.token

theorem plain_grafting : Grafting Resolver.plain where
  keeps := by simp [Resolver.plain]
  leaf := Leaf.token_settled
  other := fun _ _ => rfl

namespace Grafting

variable {resolve : Resolver} {outline : Outline}

theorem read_opening (h : Grafting resolve) (hquiet : outline.Quiet) :
    outline.read resolve (Token.paren []) = outline.append (Token.paren []) := by
  rw [hquiet.read_plain opening_plain]
  exact congrArg outline.append (h.other .opening (by simp))

theorem read_negation (h : Grafting resolve) (hquiet : outline.Quiet) (n : Negation) :
    outline.read resolve n.token = outline.append n.token := by
  rw [hquiet.read_plain n.token_plain]
  exact congrArg outline.append (h.other (.negation n) (by simp))

theorem read_separator (h : Grafting resolve) (hquiet : outline.Quiet) (s : Separator) :
    outline.read resolve s.token = outline.append s.token := by
  rw [hquiet.read_plain s.token_plain]
  exact congrArg outline.append (h.other (.separator s) (by simp))

/-- **Lexemes keep an outline quiet.** -/
theorem read_quiet (h : Grafting resolve) (hquiet : outline.Quiet) (lexeme : Lexeme) :
    (outline.read resolve lexeme.token).Quiet := by
  cases lexeme with
  | leaf l =>
    rw [Lexeme.token, hquiet.read_plain l.token_plain]
    exact hquiet.append_quiet (h.leaf l).quiet
  | opening =>
    rw [Lexeme.token, h.read_opening hquiet]
    exact hquiet.append_quiet opening_plain.quiet
  | closing =>
    rw [Lexeme.token, Outline.Quiet.read_closing]
    exact hquiet.close_quiet _
  | negation n =>
    rw [Lexeme.token, h.read_negation hquiet]
    exact hquiet.append_quiet n.token_plain.quiet
  | separator s =>
    rw [Lexeme.token, h.read_separator hquiet]
    exact hquiet.append_quiet s.token_plain.quiet

end Grafting

/-! ## Items and requests -/

section Others

variable (f : Leaf → Token)

mutual

/-- The token of an item, with others for the leaves. -/
def Item.tokenOf : Item → Token
  | .leaf l => f l
  | .group request => Token.paren request.tokensOf

/-- The tokens of parts, with others for the leaves. -/
def Parts.tokensOf : Parts → List Token
  | .nil => []
  | .item i rest => i.tokenOf :: rest.tokensOf
  | .not n i rest => n.token :: i.tokenOf :: rest.tokensOf

/-- The tokens of a piece, with others for the leaves. -/
def Piece.tokensOf : Piece → List Token
  | .mk before item after => before.tokensOf ++ item.tokenOf :: after.tokensOf

/-- The tokens of a request, with others for the leaves. -/
def Request.tokensOf : Request → List Token
  | .piece p => p.tokensOf
  | .or p separator rest => p.tokensOf ++ separator.token :: rest.tokensOf

end

end Others

mutual

theorem Item.tokenOf_token : (item : Item) → item.tokenOf Leaf.token = item.token
  | .leaf _ => rfl
  | .group request => congrArg Token.paren request.tokensOf_token

theorem Parts.tokensOf_token : (parts : Parts) → parts.tokensOf Leaf.token = parts.tokens
  | .nil => rfl
  | .item i rest => by rw [Parts.tokensOf, i.tokenOf_token, rest.tokensOf_token, Parts.tokens]
  | .not n i rest => by rw [Parts.tokensOf, i.tokenOf_token, rest.tokensOf_token, Parts.tokens]

theorem Piece.tokensOf_token : (piece : Piece) → piece.tokensOf Leaf.token = piece.tokens
  | .mk before item after => by
    rw [Piece.tokensOf, before.tokensOf_token, item.tokenOf_token, after.tokensOf_token,
      Piece.tokens]

theorem Request.tokensOf_token : (request : Request) →
    request.tokensOf Leaf.token = request.tokens
  | .piece p => p.tokensOf_token
  | .or p separator rest => by
    rw [Request.tokensOf, p.tokensOf_token, rest.tokensOf_token, Request.tokens]

end

section Settled

variable {f : Leaf → Token} (hf : ∀ leaf, (f leaf).Settled)

theorem Request.tokensOf_ne_nil (request : Request) : request.tokensOf f ≠ [] := by
  cases request with
  | piece p => cases p with | mk before item after => simp [Request.tokensOf, Piece.tokensOf]
  | or p separator rest => simp [Request.tokensOf]

include hf

theorem Item.tokenOf_settled (item : Item) : (item.tokenOf f).Settled := by
  cases item with
  | leaf l => exact hf l
  | group request => exact paren_settled request.tokensOf_ne_nil

theorem Parts.tokensOf_settled : (parts : Parts) → ∀ token ∈ parts.tokensOf f, token.Settled
  | .nil => by simp [Parts.tokensOf]
  | .item i rest => List.forall_mem_cons.2 ⟨i.tokenOf_settled hf, rest.tokensOf_settled⟩
  | .not n i rest => List.forall_mem_cons.2
    ⟨n.token_settled, List.forall_mem_cons.2 ⟨i.tokenOf_settled hf, rest.tokensOf_settled⟩⟩

theorem Piece.tokensOf_settled (piece : Piece) : ∀ token ∈ piece.tokensOf f, token.Settled := by
  obtain ⟨before, item, after⟩ := piece
  exact List.forall_mem_append.2 ⟨before.tokensOf_settled hf,
    List.forall_mem_cons.2 ⟨item.tokenOf_settled hf, after.tokensOf_settled hf⟩⟩

theorem Request.tokensOf_settled : (request : Request) →
    ∀ token ∈ request.tokensOf f, token.Settled
  | .piece p => p.tokensOf_settled hf
  | .or p separator rest => List.forall_mem_append.2 ⟨p.tokensOf_settled hf,
    List.forall_mem_cons.2 ⟨separator.token_settled, rest.tokensOf_settled⟩⟩

end Settled

theorem readAll_append (resolve : Resolver) (outline : Outline) (front back : List Lexeme) :
    readAll resolve outline (front ++ back)
      = readAll resolve (readAll resolve outline front) back := List.foldl_append

theorem appendAll_append (outline : Outline) (front back : List Token) :
    outline.appendAll (front ++ back) = (outline.appendAll front).appendAll back := List.foldl_append

section Reading

variable {resolve : Resolver}

mutual

/-- **The lexemes of an item** add its token, with what the resolver puts in the place of leaves. -/
theorem Item.readAll_eq (hg : Grafting resolve) : (item : Item) → {outline : Outline} →
    outline.Quiet →
    readAll resolve outline item.lexemes = outline.append (item.tokenOf (Leaf.shown resolve))
  | .leaf l, _, h => h.read_plain l.token_plain
  | .group request, outline, h => by
    have hquiet := h.append_quiet opening_plain.quiet
    have hclosed := h.close_appendAll (request.tokensOf_ne_nil (f := Leaf.shown resolve))
      (request.tokensOf_settled hg.leaf)
    rw [Item.lexemes, readAll, List.foldl_cons, ← readAll, readAll_append]
    show Outline.read resolve (readAll resolve (Outline.read resolve outline (Token.paren [])) _)
      Lexeme.closing.token = _
    rw [hg.read_opening h, request.readAll_eq hg hquiet, Lexeme.token,
      Outline.Quiet.read_closing, hclosed]
    rfl

/-- The lexemes of parts add their tokens. -/
theorem Parts.readAll_eq (hg : Grafting resolve) : (parts : Parts) → {outline : Outline} →
    outline.Quiet →
    readAll resolve outline parts.lexemes
      = outline.appendAll (parts.tokensOf (Leaf.shown resolve))
  | .nil, _, _ => rfl
  | .item i rest, outline, h => by
    have hquiet := h.append_quiet (i.tokenOf_settled hg.leaf).quiet
    rw [Parts.lexemes, readAll_append, i.readAll_eq hg h, rest.readAll_eq hg hquiet]
    rfl
  | .not n i rest, outline, h => by
    have hquiet := h.append_quiet n.token_settled.quiet
    have hquiet' := hquiet.append_quiet (i.tokenOf_settled hg.leaf).quiet
    show readAll _ (outline.read _ n.token) (i.lexemes ++ rest.lexemes) = _
    rw [readAll_append, hg.read_negation h, i.readAll_eq hg hquiet, rest.readAll_eq hg hquiet']
    rfl

/-- The lexemes of a piece add its tokens. -/
theorem Piece.readAll_eq (hg : Grafting resolve) : (piece : Piece) → {outline : Outline} →
    outline.Quiet →
    readAll resolve outline piece.lexemes
      = outline.appendAll (piece.tokensOf (Leaf.shown resolve))
  | .mk before item after, outline, h => by
    have hbefore := h.appendAll_quiet (before.tokensOf_settled hg.leaf)
    have hitem := hbefore.append_quiet (item.tokenOf_settled hg.leaf).quiet
    rw [Piece.lexemes, readAll_append, readAll_append, before.readAll_eq hg h,
      item.readAll_eq hg hbefore, after.readAll_eq hg hitem, Piece.tokensOf, appendAll_append]
    rfl

/-- **The lexemes of a request** add its tokens. -/
theorem Request.readAll_eq (hg : Grafting resolve) : (request : Request) → {outline : Outline} →
    outline.Quiet →
    readAll resolve outline request.lexemes
      = outline.appendAll (request.tokensOf (Leaf.shown resolve))
  | .piece p, _, h => p.readAll_eq hg h
  | .or p separator rest, outline, h => by
    have hpiece := h.appendAll_quiet (p.tokensOf_settled hg.leaf)
    have hquiet := hpiece.append_quiet separator.token_settled.quiet
    rw [Request.lexemes, readAll_append, p.readAll_eq hg h]
    show readAll _ (Outline.read _ _ separator.token) rest.lexemes = _
    rw [hg.read_separator hpiece, rest.readAll_eq hg hquiet, Request.tokensOf, appendAll_append]
    rfl

end

/-- **The outline of a request** has its tokens, with what the resolver puts in the place of
    leaves. -/
theorem Request.roots_eq (hg : Grafting resolve) (request : Request) :
    (readAll resolve {} request.lexemes).roots = request.tokensOf (Leaf.shown resolve) := by
  rw [request.readAll_eq hg Outline.Quiet.empty_quiet]
  exact Outline.roots_appendAll (request.tokensOf_settled hg.leaf)

end Reading

end Grammar

end InvertedIndex
