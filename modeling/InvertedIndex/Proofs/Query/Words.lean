import InvertedIndex.Proofs.Query.Idempotent
import InvertedIndex.Proofs.Query.Labels
import InvertedIndex.Proofs.Query.Meaning
import InvertedIndex.Proofs.Query.Written
import Mathlib

/-!
# `Proofs.Query.Words` — every word of a text is in its tree

The words of a text are its longest runs of word characters. A run is gathered character by character
and placed as one token, whatever ends it. In a text in which words are nothing but words, the tree
has them all and in their order, however its brackets, quotation marks and signs are matched: the
word placed comes last among the labels, no sign merges into a word, and no other token is one.

## Contents
- `wordRuns`, `wordsOf`: the words of a text; `wordRuns_append`, `wordRuns_behind`;
- `Token.words`, `labelWords`: the words of a tree and of its labels; `words_roots`;
- `Scanner.Worded`: what reading keeps; `flush_words`, `step_words`, `scanFrom_words`;
- `arrange_words`: no pass moves a word where nothing is an operator;
- `parse_words`: the words of a query.
-/

namespace InvertedIndex

/-! ## The words of a text -/

/-- Whether a character stands between words. -/
def partsWords (c : Char) : Bool := CharClass.of c ≠ .word

/-- The longest runs of word characters. -/
def wordRuns (characters : List Char) : List (List Char) :=
  (characters.splitOnP partsWords).filter fun run => !run.isEmpty

/-- The words of a text. -/
def wordsOf (input : String) : List String := (wordRuns input.toList).map String.ofList

section Runs

variable {run rest : List Char} {c : Char}

/-- Word characters alone are one run, if there are any. -/
theorem wordRuns_run (hrun : ∀ c ∈ run, CharClass.of c = .word) (hne : run ≠ []) :
    wordRuns run = [run] := by
  have hsplit : run.splitOnP partsWords = [run] :=
    List.splitOnP_eq_singleton fun c hc => by simp [partsWords, hrun c hc]
  simp [wordRuns, hsplit, hne]

theorem ne_nil_of_mem_wordRuns (h : run ∈ wordRuns rest) : run ≠ [] := by
  intro hnil
  have hne := (List.mem_filter.1 h).2
  simp [hnil] at hne

/-- Any other character ends a run. -/
theorem wordRuns_append (hc : CharClass.of c ≠ .word) (run rest : List Char) :
    wordRuns (run ++ c :: rest) = wordRuns run ++ wordRuns rest := by
  have hparts : partsWords c = true := by simp [partsWords, hc]
  simp [wordRuns, List.splitOnP_append_cons _ _ hparts]

theorem wordRuns_cons (hc : CharClass.of c ≠ .word) (rest : List Char) :
    wordRuns (c :: rest) = wordRuns rest := by
  have happend := wordRuns_append hc [] rest
  rw [List.nil_append] at happend
  rw [happend]
  rfl

/-- White space has no words. -/
theorem wordRuns_dropWhile (rest : List Char) :
    wordRuns (rest.dropWhile (·.toNat ≤ 0x20)) = wordRuns rest := by
  induction rest with
  | nil => rfl
  | cons c rest ih =>
    by_cases hc : c.toNat ≤ 0x20
    · have hspace : CharClass.of c = .space := if_pos hc
      rw [List.dropWhile_cons_of_pos (by simpa using hc), ih, wordRuns_cons (by simp [hspace])]
    · rw [List.dropWhile_cons_of_neg (by simpa using hc)]

/-- What belongs to a character that is neither `:` nor `\` has no words. -/
theorem wordRuns_behind (hcolon : c ≠ ':') (hescape : c ≠ '\\') (inWord : Bool) (rest : List Char) :
    wordRuns (behind inWord c rest) = wordRuns rest := by
  have hhas := CharClass.of_has c
  unfold behind
  cases hclass : CharClass.of c with
  | colon =>
    rw [hclass] at hhas
    exact absurd hhas hcolon
  | escape =>
    rw [hclass] at hhas
    exact absurd hhas hescape
  | joint kind =>
    dsimp only
    unfold Scanner.dropSame
    split
    next d rest =>
      split
      next hsame => rw [wordRuns_cons (by simp [hsame, hclass])]
      · rfl
    · rfl
  | dot =>
    dsimp only
    split
    next d rest => rw [wordRuns_cons (show CharClass.of '.' ≠ .word by decide)]
    · rfl
  | space => exact wordRuns_dropWhile rest
  | _ => rfl

end Runs

/-! ## The words of a tree -/

/-- The texts of the words of a tree, in order. -/
def Token.words (token : Token) : List String :=
  (token.preorder.filter (·.kind = .word)).map Token.text

theorem Token.words_eq (token : Token) :
    token.words = (if token.kind = .word then [token.text] else [])
      ++ token.children.flatMap words := by
  have hchildren : ((token.children.flatMap preorder).filter (·.kind = .word)).map text
      = token.children.flatMap words := by
    rw [List.filter_flatMap, List.map_flatMap]
    rfl
  rw [words, preorder_eq, List.filter_cons]
  split
  next hword => simpa [of_decide_eq_true hword] using hchildren
  next hword => simpa [of_decide_eq_false (Bool.eq_false_iff.2 hword)] using hchildren

/-- The texts of the words among labels. -/
def labelWords (labels : List Token) : List String :=
  (labels.filter (·.kind = .word)).map Token.text

theorem labelWords_append (labels labels' : List Token) :
    labelWords (labels ++ labels') = labelWords labels ++ labelWords labels' := by
  simp [labelWords]

theorem labelWords_of_kind {labels : List Token} {kind : TokenKind} (hkind : kind ≠ .word)
    (h : ∀ token ∈ labels, token.kind = kind) : labelWords labels = [] := by
  have hnone : labels.filter (·.kind = .word) = [] :=
    List.filter_eq_nil_iff.2 fun token htoken => by simp [h token htoken, hkind]
  rw [labelWords, hnone]
  rfl

namespace Outline

variable {outline : Outline}

/-- A token that reading makes up has no kind that a written word or operator has. -/
theorem mem_placed {token : Token} (h : token ∈ outline.tokens)
    (hkind : token.kind ≠ .null ∧ token.kind ≠ .openParen) : token ∈ outline.placed := by
  rw [placed, List.mem_filter]
  exact ⟨h, by simp [Token.isStructural, hkind]⟩

theorem words_tokens (outline : Outline) : outline.roots.flatMap Token.words
    = (outline.tokens.filter (·.kind = .word)).map Token.text := by
  rw [tokens, List.filter_flatMap, List.map_flatMap]
  rfl

/-- If no word of the tree has a text that may change, the words are those of the labels. -/
theorem words_roots (h : ∀ word ∈ labelWords outline.labels, word ≠ "") :
    outline.roots.flatMap Token.words = labelWords outline.labels := by
  have hwords : outline.roots.flatMap Token.words
      = (outline.placed.filter (·.kind = .word)).map Token.text := by
    rw [words_tokens, placed, List.filter_filter]
    refine congrArg _ (List.filter_congr fun token _ => ?_)
    by_cases hkind : token.kind = .word <;> simp [Token.isStructural, hkind]
  have hlabels : labelWords outline.labels
      = (outline.placed.filter (·.kind = .word)).map fun token => token.label.text := by
    rw [labelWords, labels, List.filter_map, List.map_map]
    rfl
  rw [hwords, hlabels]
  rw [hlabels] at h
  refine List.map_congr_left fun token htoken => ?_
  have hne : token.label.text ≠ "" := h _ (List.mem_map_of_mem htoken)
  -- A text that may change has been left out of its label.
  rw [Token.label] at hne ⊢
  dsimp only at hne ⊢
  split at hne
  · exact absurd rfl hne
  next hsolid => rw [if_neg hsolid]

end Outline

/-! ## Reading words -/

namespace Scanner

open Outline

variable {scanner : Scanner} {c : Char} {rest : List Char}

/-- What reading keeps: only word characters are gathered, and no token is an operator by its
    kind. -/
structure Worded (scanner : Scanner) : Prop where
  tidy : scanner.outline.Tidy
  word : ∀ c ∈ scanner.word, CharClass.of c = .word
  kinds : ∀ token ∈ scanner.outline.labels, token.kind ≠ .or ∧ token.kind ≠ .not

theorem empty_worded : Worded {} := ⟨empty_tidy, by simp, by simp [labels, placed, tokens, roots]⟩

/-- **The word gathered** is placed as one token, behind all others. -/
theorem flush_words (h : scanner.Worded) :
    (scanner.flush Resolver.plain .word).Worded ∧
      labelWords (scanner.flush Resolver.plain .word).outline.labels
        = labelWords scanner.outline.labels ++ (wordRuns scanner.word.reverse).map String.ofList := by
  cases hgathered : scanner.word with
  | nil =>
    have hflush : scanner.flush Resolver.plain .word = scanner := flush_of_empty hgathered .word
    rw [hflush]
    exact ⟨h, by simp [wordRuns]⟩
  | cons c gathered =>
    let text := String.ofList scanner.word.reverse
    have hword := h.word
    obtain ⟨hdash, hplus⟩ := ne_sign_of_word (hword c (by simp [hgathered]))
    obtain ⟨hnotDash, hnotPlus⟩ : text ≠ "-" ∧ text ≠ "+" :=
      Grammar.ofList_ne_sign (c := c) (by simp [hgathered]) hdash hplus
    have hflush : scanner.flush Resolver.plain .word
        = ⟨scanner.outline.attach .normal { kind := .word, text }, []⟩ := by
      rw [← place_eq_attach (Quiet.mergeIntoTail?_eq_none hnotDash hnotPlus (by decide)) rfl .normal []]
      simp only [flush, hgathered, List.isEmpty_cons, Bool.false_eq_true, if_false, emit_plain]
      rw [← hgathered]
    have hextends : Extends scanner.outline [{ ({ kind := .word, text } : Token) with
        modifiers := scanner.outline.pending }.label]
        (scanner.outline.attach .normal { kind := .word, text }) :=
      attach_extends h.tidy (.inl rfl) rfl (show TokenKind.word ≠ .null by decide) rfl rfl
    have hruns : wordRuns scanner.word.reverse = [scanner.word.reverse] :=
      wordRuns_run (by simpa using hword) (by simp [hgathered])
    have hlabel : labelWords
        [{ ({ kind := .word, text } : Token) with modifiers := scanner.outline.pending }.label]
          = [text] := by
      simp [labelWords, Token.label, Token.isLoose, hnotDash, hnotPlus]
    rw [hflush, ← hgathered, hruns]
    refine ⟨⟨hextends.tidy, by simp, ?_⟩, ?_⟩
    · rw [hextends.labels]
      exact List.forall_mem_append.2 ⟨h.kinds, by simp [Token.label]⟩
    · rw [hextends.labels, labelWords_append, hlabel]
      rfl

/-- A token that is no word comes behind the words. -/
theorem emit_words (h : scanner.Worded) {kind : TokenKind} (hword : kind ≠ .word)
    (hor : kind ≠ .or) (hnot : kind ≠ .not) (hnull : kind ≠ .null) (text : String) :
    (scanner.emit Resolver.plain kind text).Worded ∧
      labelWords (scanner.emit Resolver.plain kind text).outline.labels
        = labelWords scanner.outline.labels := by
  obtain ⟨added, hextends, hkind⟩ := place_extends h.tidy hnull text
  rw [emit_plain]
  refine ⟨⟨hextends.tidy, h.word, ?_⟩, ?_⟩
  · rw [hextends.labels]
    refine List.forall_mem_append.2 ⟨h.kinds, fun token htoken => ?_⟩
    rw [hkind token htoken]
    exact ⟨hor, hnot⟩
  · rw [hextends.labels, labelWords_append, labelWords_of_kind hword hkind, List.append_nil]

/-- The characters that give a word another meaning, or part of a word none. -/
def bending : List Char := [':', '*', '?', '\\', '|']

/-- **One step** keeps the words placed, gathered and still to come. -/
theorem step_words (h : scanner.Worded) (hbending : c ∉ bending) (rest : List Char) :
    let next := scanner.step Resolver.plain c rest
    next.1.Worded ∧ labelWords next.1.outline.labels
        ++ (wordRuns (next.1.word.reverse ++ next.2)).map String.ofList
      = labelWords scanner.outline.labels
        ++ (wordRuns (scanner.word.reverse ++ c :: rest)).map String.ofList := by
  simp only [bending, List.mem_cons, List.not_mem_nil, or_false, not_or] at hbending
  obtain ⟨hcolon, hstar, hquestion, hescape, hbar⟩ := hbending
  have hbehind := step_behind scanner c rest
  have hstepped := step_stepped Resolver.plain scanner c rest
  dsimp only
  rw [hbehind]
  generalize (scanner.step Resolver.plain c rest).1 = next at hstepped ⊢
  -- Every other kind of step needs one of the characters excluded.
  cases hstepped with
  | stars hc => exact absurd hc hstar
  | names hc => exact absurd hc hcolon
  | drops hc => exact absurd hc hescape
  | gathers hclass =>
    have hsame : behind (!scanner.word.isEmpty) c rest = rest := by simp only [behind, hclass]
    rw [hsame]
    exact ⟨⟨h.tidy, List.forall_mem_cons.2 ⟨hclass, h.word⟩, h.kinds⟩, by simp⟩
  | @emits kind emitted text hclass hkind hword hor hnot hnull =>
    obtain rfl : kind = .word := hkind.resolve_right fun hmodifier => hquestion hmodifier.2
    obtain ⟨hflushed, hgathered⟩ := flush_words h
    obtain ⟨hworded, hkept⟩ := emit_words hflushed hword (fun heq => hbar (hor heq)) hnot hnull text
    have hempty : ((scanner.flush Resolver.plain .word).emit Resolver.plain emitted text).word = [] := by
      rw [emit_plain, flush_word]
    rw [hempty, hkept, hgathered, wordRuns_append hclass, List.reverse_nil, List.nil_append,
      wordRuns_behind hcolon hescape, List.map_append, List.append_assoc]
    exact ⟨hworded, rfl⟩

/-- **A whole text** adds its words, and no operator. -/
theorem scanFrom_words {input : List Char} (h : scanner.Worded)
    (hinput : ∀ c ∈ bending, c ∉ input) :
    (scanFrom Resolver.plain scanner input).Worded ∧
      labelWords (scanFrom Resolver.plain scanner input).outline.labels
        = labelWords scanner.outline.labels
          ++ (wordRuns (scanner.word.reverse ++ input)).map String.ofList := by
  induction scanner, input using scan_induct with
  | nil scanner =>
    rw [scanFrom_nil, List.append_nil]
    exact flush_words h
  | cons scanner c rest ih =>
    have hc : c ∉ bending := fun hmem => hinput c hmem List.mem_cons_self
    obtain ⟨hworded, hwords⟩ := step_words h hc rest
    have hrest := ih hworded fun d hd => notMem_step (hinput d hd) scanner
    rw [scanFrom_cons, ← hwords]
    exact hrest

end Scanner

/-! ## The passes -/

/-- Nothing changes in a tree without operators. -/
theorem Token.stable_of_ordinary (token : Token)
    (h : ∀ below ∈ token.preorder, below.Ordinary) : token.Stable := by
  have hbelow : ∀ child ∈ token.children, ∀ below ∈ child.preorder, below.Ordinary := by
    intro child hchild below hmem
    refine h below ?_
    rw [preorder_eq]
    exact List.mem_cons_of_mem _ (List.mem_flatMap_of_mem hchild hmem)
  have hchild : ∀ child ∈ token.children, child.Ordinary :=
    fun child hchild => hbelow child hchild child child.mem_preorder
  refine StableRun.stable (.ordinary ?_ ?_ ?_)
  · exact fun child hmem => stable_of_ordinary child (hbelow child hmem)
  · exact fun child hmem => (hchild child hmem).isOr
  · exact fun child hmem => (hchild child hmem).isNot
termination_by token.depth
decreasing_by exact Token.depth_lt hmem

/-- **The passes** keep the words of trees without operators. -/
theorem arrange_words {run : List Token}
    (h : ∀ token ∈ run.flatMap Token.preorder, token.Ordinary) :
    (arrange run).toList.flatMap Token.words = run.flatMap Token.words := by
  have hbelow : ∀ token ∈ run, ∀ below ∈ token.preorder, below.Ordinary :=
    fun token htoken below hmem => h below (List.mem_flatMap_of_mem htoken hmem)
  have hself : ∀ token ∈ run, token.Ordinary :=
    fun token htoken => hbelow token htoken token token.mem_preorder
  have hstable : StableRun run :=
    .ordinary (fun token htoken => token.stable_of_ordinary (hbelow token htoken))
      (fun token htoken => (hself token htoken).isOr) fun token htoken => (hself token htoken).isNot
  rw [hstable.arrange_eq]
  -- Two trees or more become the children of a parenthesis, which is no word.
  match run with
  | [] => rfl
  | [token] => rfl
  | first :: second :: rest => simp [groupAll, Token.ofRun, Token.words_eq, Token.paren]

/-! ## The words of a query -/

section Queries

variable {input : String} (hinput : ∀ c ∈ Scanner.bending, c ∉ input.toList)

include hinput

/-- The words of the tree before the passes. -/
theorem roots_words : (scan Resolver.plain input).roots.flatMap Token.words = wordsOf input := by
  have hlabels : labelWords (scan Resolver.plain input).labels = wordsOf input :=
    (Scanner.scanFrom_words Scanner.empty_worded hinput).2
  rw [← hlabels]
  refine Outline.words_roots fun word hword => ?_
  rw [hlabels] at hword
  obtain ⟨run, hrun, rfl⟩ := List.mem_map.1 hword
  intro hempty
  exact ne_nil_of_mem_wordRuns hrun (by simpa using congrArg String.toList hempty)

/-- No token has the kind of an operator. -/
theorem kinds_words {token : Token} (htoken : token ∈ (scan Resolver.plain input).tokens) :
    token.kind ≠ .or ∧ token.kind ≠ .not := by
  have hkinds := (Scanner.scanFrom_words Scanner.empty_worded hinput).1.kinds
  by_contra hoperator
  have hplaced : token ∈ (scan Resolver.plain input).placed := by
    refine Outline.mem_placed htoken ⟨?_, ?_⟩
    · intro hnull
      simp [hnull] at hoperator
    · intro hparen
      simp [hparen] at hoperator
  exact hoperator (hkinds token.label (List.mem_map_of_mem hplaced))

/-- Without words that spell operators, no token is one. -/
theorem tokens_ordinary (hwords : ∀ word ∈ wordsOf input,
    word.toList.map Char.toLower ≠ ['o', 'r'] ∧ word.toList.map Char.toLower ≠ ['n', 'o', 't']) :
    ∀ token ∈ (scan Resolver.plain input).tokens, token.Ordinary := by
  intro token htoken
  obtain ⟨hor, hnot⟩ := kinds_words hinput htoken
  have htext : token.kind = .word → token.text ∈ wordsOf input := by
    intro hword
    rw [← roots_words hinput, Outline.words_tokens]
    exact List.mem_map_of_mem (List.mem_filter.2 ⟨htoken, by simp [hword]⟩)
  refine ⟨decide_eq_false ?_, decide_eq_false ?_⟩
  · rintro (hkind | ⟨hword, hspells⟩)
    · exact hor hkind
    · exact (hwords _ (htext hword)).1 hspells
  · rintro (hkind | ⟨hword, hspells⟩)
    · exact hnot hkind
    · exact (hwords _ (htext hword)).2 hspells

/-- **Every word of a text is in its tree**, once and in order, if none is an operator and no
    character gives it another meaning. -/
theorem parse_words (hwords : ∀ word ∈ wordsOf input,
    word.toList.map Char.toLower ≠ ['o', 'r'] ∧ word.toList.map Char.toLower ≠ ['n', 'o', 't']) :
    (Query.parse input).root.toList.flatMap Token.words = wordsOf input := by
  rw [Query.parse, arrange_words (tokens_ordinary hinput hwords), roots_words hinput]

end Queries

theorem parse_words_unbalanced :
    let input := "a)b (c] \"d=e f..g -h,i\x27s \x7bj"
    (∀ c ∈ Scanner.bending, c ∉ input.toList) ∧
      (∀ word ∈ wordsOf input, word.toList.map Char.toLower ≠ ['o', 'r'] ∧
        word.toList.map Char.toLower ≠ ['n', 'o', 't']) ∧
      (Query.parse input).root.toList.flatMap Token.words
        = ["a", "b", "c", "d", "e", "f", "g", "h", "i", "s", "j"] := by
  intro input
  have hinput : ∀ c ∈ Scanner.bending, c ∉ input.toList := by simp [Scanner.bending, input]
  have hruns : wordsOf input = ["a", "b", "c", "d", "e", "f", "g", "h", "i", "s", "j"] := by cbv
  have hwords : ∀ word ∈ wordsOf input, word.toList.map Char.toLower ≠ ['o', 'r'] ∧
      word.toList.map Char.toLower ≠ ['n', 'o', 't'] := by
    rw [hruns]
    decide
  exact ⟨hinput, hwords, (parse_words hinput hwords).trans hruns⟩

end InvertedIndex
