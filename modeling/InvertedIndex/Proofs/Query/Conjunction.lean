import InvertedIndex.Proofs.Query.Framing
import InvertedIndex.Proofs.Query.Members

/-!
# `Proofs.Query.Conjunction` — what `&` asks for

Words, stems and queries in parentheses with single spaces between them are read one by one, each as
one token, and `&` or `&&` between two of them is one more token beside the others. No pass takes that
token out of the run, so it is looked up like a word: a query with `&` finds what the query without it
finds, as far as it is recorded under the term `&`.

## Contents
- `Token.Apart`, `Outline.row`: tokens side by side, and the outline of nothing else;
- `Grammar.ReadsAs`: texts that are read as one token beside others; `scanFrom_texts`, `parse_texts`:
  several of them; `parse_several`: their tree if they are no operators;
- `Grammar.Conjunct`: a word, a stem or a query in parentheses; `Conjunct.exists_reads`;
- `reads_sign`, `reads_doubled`: the sign; `Conjunct.exists_roots`: the trees with and without it;
- `Compiler.signed_ids`: what parentheses with `&` among other tokens go through;
- `Postings.conjunction_ids`: what `&` finds in live postings.
-/

namespace InvertedIndex

/-! ## Tokens side by side -/

/-- The kinds of tokens behind which text has its plain meaning. -/
def TokenKind.Beside : TokenKind → Prop
  | .word | .modifier | .and | .openParen => True
  | _ => False

/-- A token of its own in a run: the next one goes beside it. -/
structure Token.Apart (token : Token) : Prop where
  beside : token.kind.Beside
  nests : Outline.nests token = false
  ordinary : token.Ordinary

namespace Outline

/-- The outline with the tokens side by side and nothing else. -/
def row (tokens : List Token) : Outline :=
  match tokens.reverse with
  | [] => {}
  | last :: earlier => { spine := [⟨earlier, last⟩] }

theorem row_concat (tokens : List Token) (token : Token) :
    row (tokens ++ [token]) = { spine := [⟨tokens.reverse, token⟩] } := by
  rw [row, List.reverse_concat]

theorem roots_row (tokens : List Token) : (row tokens).roots = tokens := by
  rcases List.eq_nil_or_concat' tokens with rfl | ⟨earlier, last, rfl⟩
  · rfl
  · rw [row_concat]
    simp [roots, rootsAround, Level.tokens]

/-- All tokens of a row are outermost. -/
theorem parent?_row (tokens : List Token) : (row tokens).parent? = none := by
  rcases List.eq_nil_or_concat' tokens with rfl | ⟨earlier, last, rfl⟩
  · rfl
  · rw [row_concat]
    rfl

variable {tokens : List Token} (h : ∀ token ∈ tokens, token.Apart)

include h

/-- A row is neither in quotation marks nor in braces. -/
theorem inside_row {kind : TokenKind} (hkind : ¬ kind.Beside) : (row tokens).inside kind = false := by
  rcases List.eq_nil_or_concat' tokens with rfl | ⟨earlier, last, rfl⟩
  · rfl
  · have hlast := (h last (by simp)).beside
    rw [row_concat, inside, List.any_cons, List.any_nil, Bool.or_false, decide_eq_false_iff_not]
    rintro rfl
    exact hkind hlast

/-- A new token goes beside those of a row. -/
theorem append_row (token : Token) : (row tokens).append token = row (tokens ++ [token]) := by
  rcases List.eq_nil_or_concat' tokens with rfl | ⟨earlier, last, rfl⟩
  · rfl
  · obtain ⟨hbeside, hnests, -⟩ := h last (by simp)
    have hcolon : last.kind ≠ .colon := by
      intro hcolon
      rw [hcolon] at hbeside
      exact hbeside
    rw [row_concat, row_concat]
    simp [append, hnests, hcolon]

/-- **A token read behind a row** goes beside its tokens. -/
theorem read_row {token : Token} (hbeside : token.kind.Beside)
    (hsign : token.text ≠ "-" ∧ token.text ≠ "+")
    (hfresh : token = { kind := token.kind, text := token.text, attrs := token.attrs }) :
    (row tokens).read Resolver.plain token = row (tokens ++ [token]) := by
  have hmerge : (row tokens).mergeIntoTail? token.kind token.text = none := by
    refine Quiet.mergeIntoTail?_eq_none hsign.1 hsign.2 fun hkind => ?_
    rw [hkind] at hbeside
    exact hbeside
  have hsteer : (row tokens).steer? token.kind = none := by
    revert hbeside
    cases token.kind <;> first | exact fun _ => rfl | exact False.elim
  have hpending : (row tokens).pending = [] := by
    unfold row
    split <;> rfl
  have hplace : (row tokens).place token.kind token.text .normal token.attrs none
      = (row tokens).append token := by
    conv => rhs; rw [hfresh]
    simp only [place, hmerge, hsteer, attach, hpending]
    cases token.attrs <;> rfl
  rw [← append_row h, ← hplace]
  rfl

end Outline

namespace Grammar

open Outline

/-! ## Texts with spaces between them -/

/-- A text that is read as the token wherever it stands beside others, before a space or at the
    end. -/
structure ReadsAs (text : String) (token : Token) : Prop where
  apart : token.Apart
  /-- It does not start with a space. -/
  visible : ∃ c rest, text.toList = c :: rest ∧ 0x20 < c.toNat
  reads : ∀ tokens : List Token, (∀ token ∈ tokens, token.Apart) → ∀ rest, Ends rest →
    scanFrom Resolver.plain ⟨row tokens, []⟩ (text.toList ++ rest)
      = scanFrom Resolver.plain ⟨row (tokens ++ [token]), []⟩ rest

section Texts

variable {texts : List String} {tokens : List Token}

theorem apart_of_reads (h : List.Forall₂ ReadsAs texts tokens) : ∀ token ∈ tokens, token.Apart := by
  induction h with
  | nil => simp
  | cons hread _ ih => exact List.forall_mem_cons.2 ⟨hread.apart, ih⟩

/-- Texts with spaces between them start like the first of them. -/
theorem intercalate_visible {text : String}
    (hvisible : ∃ c rest, text.toList = c :: rest ∧ 0x20 < c.toNat) (texts : List String) :
    ∃ c rest, [' '].intercalate ((text :: texts).map String.toList) = c :: rest ∧ 0x20 < c.toNat := by
  obtain ⟨c, rest, htext, hc⟩ := hvisible
  cases texts with
  | nil => exact ⟨c, rest, by simpa using htext, hc⟩
  | cons next more =>
    rw [List.map_cons, List.map_cons, List.intercalate_cons_cons, htext]
    exact ⟨c, _, rfl, hc⟩

/-- **Texts with single spaces between them** are read one by one. -/
theorem scanFrom_texts (h : List.Forall₂ ReadsAs texts tokens) {before : List Token}
    (hbefore : ∀ token ∈ before, token.Apart) :
    scanFrom Resolver.plain ⟨row before, []⟩ ([' '].intercalate (texts.map String.toList))
      = ⟨row (before ++ tokens), []⟩ := by
  induction h generalizing before with
  | nil =>
    rw [List.append_nil]
    exact Scanner.scanFrom_nil _ _
  | @cons text token texts tokens hread hrest ih =>
    have hbefore' : ∀ t ∈ before ++ [token], t.Apart :=
      List.forall_mem_append.2 ⟨hbefore, List.forall_mem_singleton.2 hread.apart⟩
    have htail := ih hbefore'
    cases hrest with
    | nil =>
      have hlast := hread.reads before hbefore [] (.inl rfl)
      rw [List.append_nil] at hlast
      rw [List.map_cons, List.map_nil, List.intercalate_singleton, hlast]
      exact Scanner.scanFrom_nil _ _
    | @cons next _ more _ hnext _ =>
      obtain ⟨c, behind, hbehind, hc⟩ := intercalate_visible hnext.visible more
      have hspaced : [' '].intercalate ((text :: next :: more).map String.toList)
          = text.toList ++ ' ' :: c :: behind := by
        rw [← hbehind, List.map_cons, List.map_cons, List.intercalate_cons_cons, List.append_assoc]
        rfl
      have hparent : (row (before ++ [token])).parent?.any isEquation = false := by
        rw [parent?_row]
        rfl
      rw [hbehind] at htail
      rw [hspaced, hread.reads before hbefore _ (.inr ⟨_, rfl⟩),
        Scanner.scanFrom_space plain_grafting.keeps hparent hc, htail, List.append_assoc]
      rfl

/-- Several texts with single spaces between them are read into a tree of their tokens. -/
theorem parse_texts (h : List.Forall₂ ReadsAs texts tokens) :
    (Query.parse (" ".intercalate texts)).root = arrange tokens := by
  have hscan : scan Resolver.plain (" ".intercalate texts) = row tokens := by
    have hall : scanFrom Resolver.plain ⟨row [], []⟩ ([' '].intercalate (texts.map String.toList))
        = ⟨row tokens, []⟩ := scanFrom_texts h (by simp)
    rw [scan, String.toList_intercalate]
    exact congrArg Scanner.outline hall
  rw [Query.parse, hscan, roots_row]

end Texts

/-! ## The tree of a run -/

/-- A token after both passes. -/
def arranged (token : Token) : Token := (token.regroup splitOr).regroup splitNot

/-- The passes work within the tokens of a run without operators, and leave the run as it is. -/
theorem arrange_ordinary {tokens : List Token} (h : ∀ token ∈ tokens, token.Ordinary) :
    arrange tokens = groupAll (tokens.map arranged) := by
  have hor : splitOr (tokens.map (Token.regroup splitOr)) = tokens.map (Token.regroup splitOr) := by
    refine splitOr_ordinary ?_
    rw [List.forall_mem_map]
    intro token htoken
    exact ((h token htoken).regroup splitOr).isOr
  have hnot : splitNot ((tokens.map (Token.regroup splitOr)).map (Token.regroup splitNot))
      = tokens.map arranged := by
    rw [List.map_map]
    refine splitNot_ordinary ?_
    rw [List.forall_mem_map]
    intro token htoken
    exact (((h token htoken).regroup splitOr).regroup splitNot).isNot
  rw [arrange, rearrange, rearrange, Token.regroupAll_eq, Token.regroupAll_eq, hor, hnot]

/-- **Several texts that are no operators** are read into their tokens in parentheses. -/
theorem parse_several {texts : List String} {tokens : List Token}
    (h : List.Forall₂ ReadsAs texts tokens) (hseveral : 2 ≤ tokens.length) :
    (Query.parse (" ".intercalate texts)).root = some (Token.paren (tokens.map arranged)) := by
  have hordinary : ∀ token ∈ tokens, token.Ordinary := fun token htoken =>
    (apart_of_reads h token htoken).ordinary
  rw [parse_texts h, arrange_ordinary hordinary]
  match tokens, hseveral with
  | first :: second :: rest, _ => rfl

/-! ## Conjuncts -/

/-- A word, a stem, an attribute with its values, or a query in parentheses. -/
inductive Conjunct where
  | leaf (leaf : Leaf)
  /-- What stands behind the opening parenthesis, up to the one that closes it. -/
  | group (inner : List Char) (closes : Scanner.opened.closes inner = true)

namespace Conjunct

/-- How a conjunct is written. -/
def text : Conjunct → String
  | .leaf l => String.ofList l.characters
  | .group inner _ => String.ofList ('(' :: inner)

/-- Some conjuncts with single spaces between them. -/
def run (conjuncts : List Conjunct) : String := " ".intercalate (conjuncts.map text)

theorem exists_reads_leaf (l : Leaf) : ∃ token, ReadsAs (Conjunct.leaf l).text token := by
  have hplain := l.token_plain
  have hbeside : l.token.kind.Beside := by cases l <;> trivial
  refine ⟨l.token, ⟨hbeside, l.token_settled.nests, l.token_ordinary⟩, ?_, ?_⟩
  · rw [text, String.toList_ofList]
    exact Scanner.lexeme_exists_cons (.leaf l)
  · intro tokens h rest hrest
    have hread := read_row h hbeside ⟨hplain.notDash, hplain.notPlus⟩ hplain.fresh
    have hbrace : (row tokens).inside .openBrace = false := inside_row h id
    rw [text, String.toList_ofList, Scanner.scanFrom_leaf l hbrace hrest, hread]

theorem exists_reads_group {inner : List Char} (closes : Scanner.opened.closes inner = true) :
    ∃ token, ReadsAs (Conjunct.group inner closes).text token := by
  obtain ⟨token, hkind, hnests, hreads⟩ := Scanner.scanFrom_closes closes rfl
  have hbeside : token.kind.Beside := by
    rw [hkind]
    trivial
  have hordinary : token.Ordinary := by
    constructor
    · simp [Token.isOr, Token.isOperator, hkind]
    · simp [Token.isNot, Token.isOperator, hkind]
  refine ⟨token, ⟨hbeside, hnests, hordinary⟩, ?_, ?_⟩
  · rw [text, String.toList_ofList]
    exact ⟨'(', inner, rfl, by decide⟩
  · intro tokens h rest _
    have hquote : (row tokens).inside .doubleQuote = false := inside_row h id
    have hread : (row tokens).read Resolver.plain (Token.paren []) = row (tokens ++ [Token.paren []]) :=
      read_row h trivial (by decide) rfl
    have hmark : scanFrom Resolver.plain ⟨row tokens, []⟩ ('(' :: (inner ++ rest))
        = scanFrom Resolver.plain (Scanner.opened.after tokens) (inner ++ rest) := by
      rw [Scanner.scanFrom_mark plain_grafting.keeps hquote (by decide : CharClass.of '(' = .mark .openParen)]
      show scanFrom Resolver.plain ⟨(row tokens).read Resolver.plain (Token.paren []), []⟩ _ = _
      rw [hread, row_concat]
      rfl
    rw [text, String.toList_ofList, List.cons_append, hmark, hreads, row_concat]

/-- **A conjunct is read as one token** wherever it stands. -/
theorem exists_reads (conjunct : Conjunct) : ∃ token, ReadsAs conjunct.text token := by
  cases conjunct with
  | leaf l => exact exists_reads_leaf l
  | group inner closes => exact exists_reads_group closes

end Conjunct

/-! ## The sign -/

/-- The token that `&` is read as, alone or doubled. -/
def signToken : Token := { kind := .and, text := "&" }

theorem signToken_apart : signToken.Apart := ⟨trivial, rfl, by decide, by decide⟩

theorem reads_sign : ReadsAs "&" signToken where
  apart := signToken_apart
  visible := ⟨'&', [], rfl, by decide⟩
  reads := by
    intro tokens h rest hrest
    have hread : (row tokens).read Resolver.plain signToken = row (tokens ++ [signToken]) :=
      read_row h trivial (by decide) rfl
    rw [← hread]
    exact Scanner.scanFrom_joint plain_grafting.keeps (by decide) hrest

/-- A doubled sign is read as a single one. -/
theorem reads_doubled : ReadsAs "&&" signToken where
  apart := signToken_apart
  visible := ⟨'&', ['&'], rfl, by decide⟩
  reads := by
    intro tokens h rest _
    have hread : (row tokens).read Resolver.plain signToken = row (tokens ++ [signToken]) :=
      read_row h trivial (by decide) rfl
    rw [← hread]
    exact Scanner.scanFrom_doubled plain_grafting.keeps (by decide)

theorem arranged_sign : arranged signToken = signToken := by
  rw [arranged, Token.regroup_bare rfl rfl, Token.regroup_bare rfl rfl]

/-! ## The trees of conjuncts -/

namespace Conjunct

variable {front back : List Conjunct} (hfront : front ≠ []) (hback : back ≠ [])

include hfront hback

/-- Conjuncts without a sign between them. -/
theorem run_beside : run front ++ " " ++ run back = " ".intercalate (front.map text ++ back.map text) :=
  (String.intercalate_append_of_ne_nil (by simpa) (by simpa)).symm

/-- Conjuncts with a sign between them. -/
theorem run_signed (sign : String) : run front ++ (" " ++ sign ++ " ") ++ run back
    = " ".intercalate (front.map text ++ sign :: back.map text) := by
  rw [String.intercalate_append_of_ne_nil (by simpa) (by simp),
    String.intercalate_cons_of_ne_nil (by simpa)]
  simp only [run, String.append_assoc]

/-- **The trees of conjuncts** without a sign between them, and with one, single or doubled. -/
theorem exists_roots : ∃ before behind : List Token, before ≠ [] ∧
    (Query.parse (run front ++ " " ++ run back)).root = some (Token.paren (before ++ behind)) ∧
    (Query.parse (run front ++ " & " ++ run back)).root
      = some (Token.paren (before ++ signToken :: behind)) ∧
    (Query.parse (run front ++ " && " ++ run back)).root
      = some (Token.paren (before ++ signToken :: behind)) := by
  obtain ⟨before, hbefore⟩ := exists_items fun conjunct (_ : conjunct ∈ front) =>
    conjunct.exists_reads
  obtain ⟨behind, hbehind⟩ := exists_items fun conjunct (_ : conjunct ∈ back) =>
    conjunct.exists_reads
  have hbefore' : before ≠ [] := by
    rintro rfl
    exact hfront (List.map_eq_nil_iff.1 (List.forall₂_nil_right_iff.1 hbefore))
  have hbehind' : behind ≠ [] := by
    rintro rfl
    exact hback (List.map_eq_nil_iff.1 (List.forall₂_nil_right_iff.1 hbehind))
  have hpositive := List.length_pos_iff.2 hbefore'
  have hpositive' := List.length_pos_iff.2 hbehind'
  have hsigned (sign : String) (hsign : ReadsAs sign signToken) :
      (Query.parse (run front ++ (" " ++ sign ++ " ") ++ run back)).root
        = some (Token.paren (before.map arranged ++ signToken :: behind.map arranged)) := by
    have hroot := parse_several (List.rel_append hbefore (.cons hsign hbehind)) (by simp; omega)
    rw [run_signed hfront hback, hroot, List.map_append, List.map_cons, arranged_sign]
  refine ⟨before.map arranged, behind.map arranged, by simpa using hbefore', ?_,
    hsigned "&" reads_sign, hsigned "&&" reads_doubled⟩
  have hroot := parse_several (List.rel_append hbefore hbehind) (by simp; omega)
  rw [run_beside hfront hback, hroot, List.map_append]

end Conjunct

end Grammar

/-! ## What is found -/

namespace Compiler

open Cursor Grammar

variable {S L : Type} [Source S L] [IdStream L] {compiler : Compiler S L} {contents : Contents}

/-- The sign is looked up like a word. -/
theorem found_sign (h : Source.Answers compiler.source contents)
    (hhook : ∀ token, compiler.hook token = none) (hdepth : 1 ≤ compiler.settings.maxDepth) :
    found (compiler.token? 1 signToken) = contents.ids "&" := by
  have hleaf : compiler.token? 1 signToken = some (Source.cursor compiler.source "&") := by
    rw [token?_leaf hdepth rfl, leaf?, hhook]
    rfl
  ext id
  rw [hleaf]
  exact (h.cursor "&").ids.2 id

/-- **Parentheses with a sign in them** go through what is recorded under the sign of what they go
    through without it. -/
theorem signed_ids (hsteady : Source.Steady compiler.source)
    (hanswers : Source.Answers compiler.source contents) (hhook : ∀ token, compiler.hook token = none)
    {before : List Token} (hbefore : before ≠ []) (behind : List Token) (id : DocId) :
    id ∈ IdStream.ids (compiler.tree (some (Token.paren (before ++ signToken :: behind)))) ↔
      id ∈ IdStream.ids (compiler.tree (some (Token.paren (before ++ behind)))) ∧
        id ∈ contents.ids "&" := by
  have hsome : before ++ behind ≠ [] := by simp [hbefore]
  rw [(paren_ids hsteady hhook (by simp)).2 id, (paren_ids hsteady hhook hsome).2 id,
    List.forall_mem_append, List.forall_mem_append, List.forall_mem_cons]
  rcases Nat.lt_or_ge compiler.settings.maxDepth 1 with hbelow | hdepth
  · -- The tokens are too deep to be compiled, so nothing is found either way.
    obtain ⟨token, htoken⟩ := List.exists_mem_of_ne_nil before hbefore
    have hnone : ¬ ∀ token ∈ before, id ∈ found (compiler.token? 1 token) := by
      intro hall
      have hid := hall token htoken
      rw [token?_below hbelow, found_of_yields .nothing] at hid
      exact hid
    exact ⟨fun hall => absurd hall.1 hnone, fun hall => absurd hall.1.1 hnone⟩
  · rw [found_sign hanswers hhook hdepth]
    constructor
    · rintro ⟨hfront, hsign, hback⟩
      exact ⟨⟨hfront, hback⟩, hsign⟩
    · rintro ⟨⟨hfront, hback⟩, hsign⟩
      exact ⟨hfront, hsign, hback⟩

end Compiler

namespace Postings

open Grammar

/-- **A query with `&` finds what is recorded under the term `&`** of what the query without it finds,
    after any changes and whatever depth is allowed; and so does one with `&&`. So the sign means that
    both sides have to match if all that match them are recorded under it, and only then. -/
theorem conjunction_ids (changes : List Change) (settings : CompileSettings)
    {front back : List Conjunct} (hfront : front ≠ []) (hback : back ≠ []) :
    let compiler : Compiler Postings Walk := { source := run changes, settings }
    let ids (text : String) := IdStream.ids (compiler.query (Query.parse text))
    let beside := ids (Conjunct.run front ++ " " ++ Conjunct.run back)
    let joined := ids (Conjunct.run front ++ " & " ++ Conjunct.run back)
    let recorded := (run changes).contents.ids "&"
    ids (Conjunct.run front ++ " && " ++ Conjunct.run back) = joined ∧
      beside.Pairwise (· < ·) ∧ joined.Pairwise (· < ·) ∧
      (∀ id, id ∈ joined ↔ id ∈ beside ∧ id ∈ recorded) ∧
      (joined = beside ↔ ∀ id ∈ beside, id ∈ recorded) := by
  intro compiler ids beside joined recorded
  obtain ⟨ledger, htracks⟩ := exists_tracks_run changes
  have hsteady : Source.Steady compiler.source := htracks.source_steady
  have hanswers : Source.Answers compiler.source (run changes).contents := htracks.answers
  obtain ⟨before, behind, hbefore, hplain, hsign, hdoubled⟩ := Conjunct.exists_roots hfront hback
  have hids {text : String} {tokens : List Token}
      (hroot : (Query.parse text).root = some (Token.paren tokens)) :
      ids text = IdStream.ids (compiler.tree (some (Token.paren tokens))) :=
    congrArg (fun root => IdStream.ids (compiler.tree root)) hroot
  have hascending {tokens : List Token} (hne : tokens ≠ []) :
      (IdStream.ids (compiler.tree (some (Token.paren tokens)))).Pairwise (· < ·) :=
    (Compiler.paren_ids hsteady (fun _ => rfl) hne).1
  have hbeside : beside.Pairwise (· < ·) := by
    show (ids _).Pairwise _
    rw [hids hplain]
    exact hascending (by simp [hbefore])
  have hjoined : joined.Pairwise (· < ·) := by
    show (ids _).Pairwise _
    rw [hids hsign]
    exact hascending (by simp)
  have hmem (id : DocId) : id ∈ joined ↔ id ∈ beside ∧ id ∈ recorded := by
    show id ∈ ids _ ↔ id ∈ ids _ ∧ _
    rw [hids hplain, hids hsign]
    exact Compiler.signed_ids hsteady hanswers (fun _ => rfl) hbefore behind id
  refine ⟨(hids hdoubled).trans (hids hsign).symm, hbeside, hjoined, hmem, ?_⟩
  constructor
  · intro heq id hid
    exact ((hmem id).1 (heq ▸ hid)).2
  · intro hall
    refine hjoined.eq_of_mem_iff hbeside fun id => ?_
    rw [hmem, and_iff_left_of_imp (hall id)]

theorem ashes_close : Scanner.opened.closes "ash | (fir not elm))".toList = true := by
  decide +kernel

/-- Yews and a stem on one side, a query in parentheses on the other. -/
def yewSides : List Conjunct × List Conjunct :=
  let yew : Word := ⟨['y', 'e', 'w'], by decide, by simp [CharClass.of]⟩
  let pin : Word := ⟨['p', 'i', 'n'], by decide, by simp [CharClass.of]⟩
  ([.leaf (.word yew (by decide) (by decide)), .leaf (.stem pin)],
    [.group _ ashes_close])

/-- Two documents that have both sides, one of them with the sign. -/
theorem conjunction_ids_yew :
    let changes : List Change := [.insert "yew" 1 [], .insert "pine" 1 [], .insert "ash" 1 [],
      .insert "yew" 2 [0], .insert "pines" 2 [], .insert "fir" 2 [], .insert "&" 2 []]
    let ids (text : String) := IdStream.ids (search (run changes) text)
    let beside := ids (Conjunct.run yewSides.1 ++ " " ++ Conjunct.run yewSides.2)
    let joined := ids (Conjunct.run yewSides.1 ++ " & " ++ Conjunct.run yewSides.2)
    let recorded := (run changes).contents.ids "&"
    Conjunct.run yewSides.1 ++ " & " ++ Conjunct.run yewSides.2 = "yew pin* & (ash | (fir not elm))" ∧
      yewSides.1 ≠ [] ∧ yewSides.2 ≠ [] ∧
      (∀ id, id ∈ joined ↔ id ∈ beside ∧ id ∈ recorded) ∧
      (joined = beside ↔ ∀ id ∈ beside, id ∈ recorded) := by
  intro changes ids beside joined recorded
  have hfront : yewSides.1 ≠ [] := List.cons_ne_nil _ _
  have hback : yewSides.2 ≠ [] := List.cons_ne_nil _ _
  obtain ⟨-, -, -, hmem, hsame⟩ := conjunction_ids changes {} hfront hback
  exact ⟨by decide +kernel, hfront, hback, hmem, hsame⟩

/-- **The sign is asked for like a word**: `a & b` does not find the document of `a b`. -/
theorem conjunction_not_found :
    let ids (text : String) :=
      IdStream.ids (search (run [.insert "a" 1 [], .insert "b" 1 []]) text)
    ids "a b" = [1] ∧ ids "a & b" = [] ∧ ids "a && b" = [] := by
  decide +kernel

end Postings
end InvertedIndex
