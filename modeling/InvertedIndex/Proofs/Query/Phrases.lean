import InvertedIndex.Proofs.Query.Answers
import InvertedIndex.Proofs.Query.Conjunction
import InvertedIndex.Proofs.Query.Documents

/-!
# `Proofs.Query.Phrases` — words inside quotation marks

Words and stems inside one pair of quotation marks are read one by one into the children of a single
token. There a word that spells an operator is a word like any other, since no pass looks inside. The
token compiles to a phrase, unless one of the words is unknown, and then nothing is found anyway. So
a quotation finds the documents that have its words at positions one behind the other, and shows the
positions of the first of them.

## Contents
- `Grammar.PhraseWord`, `Grammar.Spaced`, `Grammar.Quotes`: what is written;
- `Outline.within`: tokens below a mark that is still open; `scanFrom_spaced`, `Quotes.parse_root`: what
  is read;
- `Compiler.quoted_shows`, `Compiler.quotation_shows`: what a compiled quotation shows;
- `Postings.Records`, `Postings.Begins`: recorded positions, and where words begin one behind the other;
- `Positional.mem_places`, `Positional.mem_phrase`: the same as answers;
- `Postings.phrase_found`: what a quotation finds in live postings.
-/

namespace InvertedIndex

/-! ## Writing -/

namespace Grammar

/-- A word or a stem inside quotation marks. -/
inductive PhraseWord where
  | word (word : Word)
  | stem (stem : Word)

/-- The characters of a word or a stem. -/
def PhraseWord.characters : PhraseWord → List Char
  | .word w => w.characters
  | .stem s => s.characters ++ ['*']

/-- The token of a word or a stem. -/
def PhraseWord.token : PhraseWord → Token
  | .word w => { kind := .word, text := w.text }
  | .stem s => { kind := .modifier, text := String.ofList (s.characters ++ ['*']) }

/-- White space. -/
def Blank (gap : List Char) : Prop := ∀ c ∈ gap, CharClass.of c = .space

/-- The words are written one behind the other, with white space between any two of them. -/
inductive Spaced : List PhraseWord → List Char → Prop where
  | nil : Spaced [] []
  | cons {word : PhraseWord} {rest : List PhraseWord} {gap behind : List Char} (hgap : Blank gap)
      (hparted : rest ≠ [] → gap ≠ []) (hrest : Spaced rest behind) :
      Spaced (word :: rest) (word.characters ++ (gap ++ behind))

/-- The text consists of the words inside quotation marks. -/
def Quotes (words : List PhraseWord) (text : String) : Prop :=
  ∃ gap characters, Blank gap ∧ Spaced words characters ∧
    text = String.ofList ('"' :: (gap ++ (characters ++ ['"'])))

/-- The token of a quotation mark, with nothing below it. -/
def quoteMark : Token := { kind := .doubleQuote, text := "\"" }

/-- The token of words inside quotation marks. -/
def quotation (words : List PhraseWord) : Token :=
  { quoteMark with children := words.map PhraseWord.token }

/-! ### Tokens -/

theorem PhraseWord.token_plain (word : PhraseWord) : word.token.Plain := by
  cases word with
  | word w => exact w.plain_word
  | stem s => exact s.plain_stem

theorem PhraseWord.token_settled (word : PhraseWord) : word.token.Settled := by
  refine settled_of_kind word.token_plain.quiet ?_
  cases word <;> simp [token]

end Grammar

/-! ## Reading -/

namespace Outline

variable {mark : Token} {tokens : List Token}

/-- The outline with the tokens below an open mark and nothing else. -/
def within (mark : Token) (tokens : List Token) : Outline :=
  { spine := (row tokens).spine ++ [⟨[], mark⟩] }

theorem within_concat (mark : Token) (tokens : List Token) (token : Token) :
    within mark (tokens ++ [token]) = { spine := [⟨tokens.reverse, token⟩, ⟨[], mark⟩] } := by
  rw [within, row_concat]
  rfl

/-- A new token goes below the mark, beside those that are there. -/
theorem append_within (hmark : nests mark = true) (h : ∀ token ∈ tokens, token.Settled)
    (token : Token) : (within mark tokens).append token = within mark (tokens ++ [token]) := by
  rcases List.eq_nil_or_concat' tokens with rfl | ⟨earlier, last, rfl⟩
  · exact Quiet.append_below rfl hmark token
  · obtain ⟨hquiet, hnests⟩ := h last (by simp)
    have hcolon : last.kind ≠ .colon := by
      intro hkind
      rcases hquiet with h | h | h | h | h <;> simp [hkind] at h
    rw [within_concat, within_concat]
    simp [append, hnests, hcolon]

theorem parent_within (hmark : isEquation mark = false) :
    (within mark tokens).parent?.any isEquation = false := by
  rcases List.eq_nil_or_concat' tokens with rfl | ⟨earlier, last, rfl⟩
  · rfl
  · rw [within_concat]
    exact hmark

theorem inside_within {kind : TokenKind} (hmark : mark.kind ≠ kind)
    (h : ∀ token ∈ tokens, token.kind ≠ kind) : (within mark tokens).inside kind = false := by
  rcases List.eq_nil_or_concat' tokens with rfl | ⟨earlier, last, rfl⟩
  · simp [within, row, inside, hmark]
  · have hlast := h last (by simp)
    simp [within_concat, inside, hmark, hlast]

/-- Closing the mark makes the tokens its children. -/
theorem leave_within (hne : tokens ≠ []) :
    (within mark tokens).leave = row [{ mark with children := tokens }] := by
  rcases List.eq_nil_or_concat' tokens with rfl | ⟨earlier, last, rfl⟩
  · exact absurd rfl hne
  · rw [within_concat]
    simp [leave, row, Level.tokens]

/-- A second quotation mark closes the first, if there is something between them. -/
theorem read_quoteMark (hne : tokens ≠ []) :
    (within Grammar.quoteMark tokens).read Resolver.plain Grammar.quoteMark
      = row [{ Grammar.quoteMark with children := tokens }] := by
  have hmerge : (within Grammar.quoteMark tokens).mergeIntoTail? .doubleQuote "\"" = none :=
    Quiet.mergeIntoTail?_eq_none (by decide) (by decide) (by decide)
  have hparent : (within Grammar.quoteMark tokens).parent?.any (·.kind = .doubleQuote) = true := by
    obtain ⟨earlier, last, rfl⟩ := (List.eq_nil_or_concat' tokens).resolve_left hne
    rw [within_concat]
    rfl
  have hsteer : (within Grammar.quoteMark tokens).steer? .doubleQuote
      = some (within Grammar.quoteMark tokens).leave := if_pos hparent
  rw [← leave_within hne, Outline.read]
  show place _ .doubleQuote "\"" .normal [] none = _
  simp only [place, hmerge, hsteer]

end Outline

namespace Scanner

open Grammar Outline

variable {outline : Outline} {rest : List Char}

/-- A word or a stem is read as its token, up to a space or a quotation mark. -/
theorem scanFrom_phraseWord (word : PhraseWord) (hbrace : outline.inside .openBrace = false) {c : Char}
    (hc : CharClass.of c = .space ∨ CharClass.of c = .doubleQuote) :
    scanFrom Resolver.plain ⟨outline, []⟩ (word.characters ++ c :: rest)
      = scanFrom Resolver.plain ⟨outline.read Resolver.plain word.token, []⟩ (c :: rest) := by
  cases word with
  | word w =>
    have hne : w.characters.reverse ≠ [] := by simpa using w.nonempty
    rw [PhraseWord.characters, scanFrom_word w.plain, List.append_nil,
      scanFrom_flushed plain_grafting.keeps _ hc, flush_eq plain_grafting.keeps hne, List.reverse_reverse]
    rfl
  | stem s =>
    rw [PhraseWord.characters, List.append_assoc]
    exact scanFrom_stem plain_grafting.keeps hbrace s

/-- What stands behind a word inside quotation marks is white space or the closing mark. -/
theorem exists_behind {words : List PhraseWord} {gap characters : List Char} (hgap : Blank gap)
    (hparted : words ≠ [] → gap ≠ []) (h : Spaced words characters) : ∃ c more,
      gap ++ (characters ++ ['"']) = c :: more ∧
        (CharClass.of c = .space ∨ CharClass.of c = .doubleQuote) := by
  cases gap with
  | cons c gap => exact ⟨c, gap ++ (characters ++ ['"']), rfl, .inl (hgap c List.mem_cons_self)⟩
  | nil =>
    cases h with
    | nil => exact ⟨'"', [], rfl, .inr (by decide)⟩
    | cons _ _ _ => exact absurd rfl (hparted (List.cons_ne_nil _ _))

/-- **Words inside quotation marks** are read one by one. -/
theorem scanFrom_spaced {words : List PhraseWord} {characters : List Char}
    (h : Spaced words characters) {before : List Token} (hbefore : ∀ token ∈ before, token.Settled) :
    scanFrom Resolver.plain ⟨within quoteMark before, []⟩ (characters ++ ['"'])
      = scanFrom Resolver.plain ⟨within quoteMark (before ++ words.map PhraseWord.token), []⟩ ['"'] := by
  induction h generalizing before with
  | nil => rw [List.nil_append, List.map_nil, List.append_nil]
  | @cons word rest gap behind hgap hparted hrest ih =>
    have hbrace : (within quoteMark before).inside .openBrace = false := by
      refine inside_within (by decide) fun token htoken hkind => ?_
      rcases (hbefore token htoken).quiet with h | h | h | h | h <;> simp [hkind] at h
    have hread : (within quoteMark before).read Resolver.plain word.token
        = within quoteMark (before ++ [word.token]) := by
      rw [Quiet.read_of_pending rfl word.token_plain]
      exact append_within rfl hbefore word.token
    have hbefore' : ∀ token ∈ before ++ [word.token], token.Settled :=
      List.forall_mem_append.2 ⟨hbefore, List.forall_mem_singleton.2 word.token_settled⟩
    have hparent : (within quoteMark (before ++ [word.token])).parent?.any isEquation = false :=
      parent_within (by decide)
    -- The word is placed at what stands behind it, which then does nothing else if it is white space.
    have hword : scanFrom Resolver.plain ⟨within quoteMark before, []⟩
          (word.characters ++ (gap ++ (behind ++ ['"'])))
        = scanFrom Resolver.plain ⟨within quoteMark (before ++ [word.token]), []⟩
          (gap ++ (behind ++ ['"'])) := by
      obtain ⟨c, more, hbehind, hc⟩ := exists_behind hgap hparted hrest
      rw [hbehind, scanFrom_phraseWord word hbrace hc, hread]
    rw [List.append_assoc, List.append_assoc, hword, scanFrom_blank plain_grafting.keeps hparent hgap,
      ih hbefore', List.map_cons, List.append_assoc]
    rfl

end Scanner

namespace Grammar

open Scanner Outline

variable {words : List PhraseWord} {text : String}

/-- The outline of words inside quotation marks. -/
theorem Quotes.scan_eq (h : Quotes words text) (hne : words ≠ []) :
    scan Resolver.plain text = row [quotation words] := by
  obtain ⟨gap, characters, hgap, hspaced, rfl⟩ := h
  have hquote : CharClass.of '"' = .doubleQuote := by decide
  have hopened : scanFrom Resolver.plain {} ('"' :: (gap ++ (characters ++ ['"'])))
      = scanFrom Resolver.plain ⟨within quoteMark [], []⟩ (gap ++ (characters ++ ['"'])) := by
    rw [scanFrom_cons]
    rfl
  have hclosed : scanFrom Resolver.plain ⟨within quoteMark (words.map PhraseWord.token), []⟩ ['"']
      = ⟨row [quotation words], []⟩ := by
    have hread : (within quoteMark (words.map PhraseWord.token)).read Resolver.plain quoteMark
        = row [quotation words] := read_quoteMark (by simpa using hne)
    rw [scanFrom_cons]
    simp only [step, hquote, flush, List.isEmpty_nil, if_true, emit_eq plain_grafting.keeps]
    rw [← quoteMark, hread]
    exact scanFrom_nil _ _
  rw [scan, String.toList_ofList, hopened,
    scanFrom_blank plain_grafting.keeps (parent_within (by decide)) hgap,
    scanFrom_spaced hspaced (List.forall_mem_nil _), List.nil_append, hclosed]

/-- **A quotation is read as one token**, and no pass looks inside of it. -/
theorem Quotes.parse_root (h : Quotes words text) (hne : words ≠ []) :
    (Query.parse text).root = some (quotation words) := by
  have hordinary : ∀ token ∈ [quotation words], token.Ordinary :=
    List.forall_mem_singleton.2 ⟨rfl, rfl⟩
  have hkept (pass : List Token → List Token) : (quotation words).regroup pass = quotation words := by
    rw [quotation, quoteMark, Token.regroup, if_pos rfl]
  rw [Query.parse, h.scan_eq hne, roots_row, arrange_ordinary hordinary, List.map_singleton, arranged,
    hkept, hkept]
  rfl

end Grammar

/-! ## Compiling -/

namespace Grammar

/-- What a vocabulary has for a word or a stem. -/
def PhraseWord.answer (vocabulary : Vocabulary) : PhraseWord → Answer
  | .word w => vocabulary.term w.text
  | .stem s => vocabulary.stem s.text

/-- The cursor of a source for a word or a stem. -/
def PhraseWord.cursor {S L : Type} [Source S L] (source : S) : PhraseWord → Cursor L
  | .word w => Source.cursor source w.text
  | .stem s => Source.stemCursor source s.text

end Grammar

namespace Compiler

open Grammar

variable {S L : Type} [Source S L] {compiler : Compiler S L} {words : List PhraseWord}

theorem leaf?_phraseWord (hhook : ∀ token, compiler.hook token = none) (word : PhraseWord) :
    compiler.leaf? word.token = some (word.cursor compiler.source) := by
  rw [leaf?, hhook]
  cases word with
  | word w =>
    have hword : stem? w.text = none := w.stem?_text
    simp only [PhraseWord.token, PhraseWord.cursor, hword]
    rfl
  | stem s =>
    have hstem : stem? (String.ofList (s.characters ++ ['*'])) = some s.text := stem?_star s.nonempty
    simp only [PhraseWord.token, PhraseWord.cursor, hstem]
    rfl

/-- A quotation compiles to the group of the cursors of its words. -/
theorem tree_quotation (hhook : ∀ token, compiler.hook token = none)
    (hdepth : 1 ≤ compiler.settings.maxDepth) (hne : words ≠ []) :
    compiler.tree (some (quotation words)) = (group? .doubleQuote
      ((words.map (PhraseWord.cursor compiler.source)).map some)).getD .empty := by
  have hchildren : (quotation words).children ≠ [] := by simpa [quotation] using hne
  have hsubs : (quotation words).children.map (compiler.token? 1)
      = (words.map (PhraseWord.cursor compiler.source)).map some := by
    rw [quotation, List.map_map, List.map_map]
    apply List.map_congr_left
    intro word _
    have hbare : word.token.children = [] := by cases word <;> rfl
    exact (token?_leaf hdepth hbare).trans (leaf?_phraseWord hhook word)
  rw [tree, Option.bind_some, token?_node (Nat.zero_le _) hchildren, hsubs]
  rfl

variable [IdStream L] {vocabulary : Vocabulary}

theorem phraseWords_show (h : Source.Shows compiler.source vocabulary) (words : List PhraseWord) :
    List.Forall₂ (fun answer c => answer.Shows c) (words.map (PhraseWord.answer vocabulary))
      (words.map (PhraseWord.cursor compiler.source)) := by
  rw [List.forall₂_map_left_iff, List.forall₂_map_right_iff, List.forall₂_same]
  intro word _
  cases word with
  | word w => exact h.cursor w.text
  | stem s => exact h.stemCursor s.text

/-- **A quoted group shows the phrase of its members**, whether or not one of them is empty. -/
theorem quoted_shows {answers : List Answer} {cursors : List (Cursor L)}
    (h : List.Forall₂ (fun answer c => answer.Shows c) answers cursors) :
    (Answer.phrase answers).Shows ((group? .doubleQuote (cursors.map some)).getD .empty) := by
  have hyields : List.Forall₂ (Yields Answer.Visits) (cursors.map some)
      (answers.map fun answer => answer.ids.toSet) := by
    rw [List.forall₂_map_left_iff, List.forall₂_map_right_iff]
    exact h.flip.imp fun _ _ hshows => .cursor (Answer.Shows.visits hshows)
  rw [group?]
  rcases members?_yields Answer.compositional hyields with ⟨hnone, hempty⟩ | ⟨members, hsome, -⟩
  · -- One of the members has no documents, so the phrase has none either.
    obtain ⟨answer, hanswer, hids⟩ := List.mem_map.1 hempty
    have hnothing (id : DocId) : id ∉ (Answer.phrase answers).ids := by
      intro hid
      have hthere : id ∈ answer.ids.toSet := (Answer.mem_phrase.1 hid).1 answer hanswer
      rw [hids] at hthere
      exact hthere
    rw [hnone]
    refine Answer.shows_empty.congr (IdList.ext_mem fun id => ?_) (fun hid => ?_) id
    · exact iff_of_false (hnothing id) fun hid => (Answer.mem_ofIds.1 hid).2
    · exact absurd (Answer.mem_ofIds.1 hid).2 (Set.notMem_empty _)
  · have hmembers : cursors = members :=
      List.map_injective_iff.2 (Option.some_injective _) (members?_eq_some hsome)
    rw [hsome, ← hmembers]
    exact Answer.shows_phrase h

/-- **A quotation shows the phrase of its words.** -/
theorem quotation_shows (h : Source.Shows compiler.source vocabulary)
    (hhook : ∀ token, compiler.hook token = none) (hdepth : 1 ≤ compiler.settings.maxDepth)
    (hne : words ≠ []) : (Answer.phrase (words.map (PhraseWord.answer vocabulary))).Shows
      (compiler.tree (some (quotation words))) := by
  rw [tree_quotation hhook hdepth hne]
  exact quoted_shows (phraseWords_show h words)

end Compiler

/-! ## Recorded positions -/

/-- A change that records positions, if it brings along a payload. -/
def Change.Positional : Change → Prop
  | .insert _ _ _ => False
  | .insertPositions _ _ _ | .erase _ _ | .clear => True

/-- The terms that a word or a stem stands for. -/
def Grammar.PhraseWord.Matches : PhraseWord → String → Prop
  | .word w, term => term = w.text
  | .stem s, term => s.characters <+: term.toList

theorem Grammar.PhraseWord.matches_stem {s : Word} {term : String} :
    (PhraseWord.stem s).Matches term ↔ s.text.toList <+: term.toList := by
  rw [Word.text, String.toList_ofList]
  exact Iff.rfl

namespace Postings

open Grammar

/-- All payloads are those of positions. -/
def Positional (postings : Postings) : Prop :=
  ∀ term id payload, postings.find? term id = some payload →
    ∃ positions, payload = Window.encode positions

/-- The position is recorded for the document under the term. -/
def Records (postings : Postings) (term : String) (id : DocId) (p : Position) : Prop :=
  ∃ positions, postings.find? term id = some (Window.encode positions) ∧ p ∈ positions

/-- From the position on, the document has the words one behind the other. -/
def Begins (postings : Postings) (words : List PhraseWord) (id : DocId) (p : Position) : Prop :=
  ∀ i, (h : i < words.length) → ∃ q : Position, q.toNat = p.toNat + i ∧
    ∃ term, words[i].Matches term ∧ postings.Records term id q

/-- Changes that record positions leave nothing else. -/
theorem run_positional {changes : List Change} (h : ∀ change ∈ changes, change.Positional) :
    (run changes).Positional := by
  intro term id payload hfound
  obtain ⟨change, hchange, hpayload⟩ := exists_change_of_find? hfound
  have hpositional := h change hchange
  cases change with
  | insert _ _ _ => exact hpositional.elim
  | insertPositions _ _ positions => exact ⟨positions, (Option.some.inj hpayload).symm⟩
  | erase _ _ => cases hpayload
  | clear => cases hpayload

variable {postings : Postings} (h : postings.Positional)

include h

theorem Positional.ascending : postings.contents.Ascending := by
  rintro term - hit ⟨payload, hfound, hwindow⟩
  obtain ⟨positions, rfl⟩ := h term hit.id payload hfound
  rw [hwindow, Window.decode_encode]
  exact Window.ofPositions_ascending positions

/-- The positions in the windows of a term are those recorded. -/
theorem Positional.mem_placesIn {term : String} {id : DocId} {p : Position} :
    p ∈ Hit.placesIn (postings.contents.hits term) id ↔ postings.Records term id p := by
  constructor
  · rintro ⟨hit, ⟨payload, hfound, hwindow⟩, rfl, hp⟩
    obtain ⟨positions, rfl⟩ := h term hit.id payload hfound
    rw [hwindow, Window.decode_encode, Window.mem_ofPositions] at hp
    exact ⟨positions, hfound, hp⟩
  · rintro ⟨positions, hfound, hp⟩
    refine ⟨⟨id, Window.decode (Window.encode positions)⟩, ⟨_, hfound, rfl⟩, rfl, ?_⟩
    rw [Window.decode_encode, Window.mem_ofPositions]
    exact hp

omit h in
/-- Where a position is recorded, the document is under the term. -/
theorem Records.mem_ids {term : String} {id : DocId} {p : Position} (h : postings.Records term id p) :
    id ≠ 0 ∧ id ∈ postings.contents.ids term := by
  obtain ⟨positions, hfound, -⟩ := h
  constructor
  · rintro rfl
    have hinvalid : ¬ DocId.Valid 0 := by decide
    rw [find?, if_neg hinvalid] at hfound
    cases hfound
  · rw [Postings.mem_ids, hfound]
    rfl

/-- A word or a stem has a document at the positions recorded under the terms that it stands for. -/
theorem Positional.mem_places (word : PhraseWord) {id : DocId} {p : Position} :
    p ∈ (word.answer postings.contents.vocabulary).places id ↔
      ∃ term, word.Matches term ∧ postings.Records term id p := by
  cases word with
  | word w =>
    show p ∈ Hit.placesIn (postings.contents.hits w.text) id ↔ ∃ term, term = w.text ∧ _
    rw [h.mem_placesIn, exists_eq_left]
  | stem s =>
    show (∃ term ∈ postings.contents.terms, s.text.toList <+: term.toList ∧
      p ∈ Hit.placesIn (postings.contents.hits term) id) ↔ _
    constructor
    · rintro ⟨term, -, hstem, hp⟩
      exact ⟨term, PhraseWord.matches_stem.2 hstem, h.mem_placesIn.1 hp⟩
    · rintro ⟨term, hmatches, hp⟩
      exact ⟨term, hp.mem_ids.2.1, PhraseWord.matches_stem.1 hmatches, h.mem_placesIn.2 hp⟩

/-- Where it has a position, it has the document. -/
theorem Positional.mem_answer (word : PhraseWord) {id : DocId} {p : Position}
    (hp : p ∈ (word.answer postings.contents.vocabulary).places id) :
    id ∈ (word.answer postings.contents.vocabulary).ids := by
  obtain ⟨term, hmatches, hrecords⟩ := (h.mem_places word).1 hp
  obtain ⟨hne, hid⟩ := hrecords.mem_ids
  cases word with
  | word w =>
    obtain rfl : term = w.text := hmatches
    exact Contents.mem_answer.2 ⟨hne, hid⟩
  | stem s => exact IdList.mem_ofSet.2 ⟨hne, term, hid.1, PhraseWord.matches_stem.1 hmatches, hid⟩

section Words

variable {words : List PhraseWord} (hne : words ≠ []) {id : DocId}

include hne

/-- The phrase of some words starts where the document has them one behind the other. -/
theorem Positional.mem_starts {p : Position} :
    p ∈ Answer.starts (words.map (PhraseWord.answer postings.contents.vocabulary)) id ↔
      postings.Begins words id p := by
  have hne' : words.map (PhraseWord.answer postings.contents.vocabulary) ≠ [] := by simpa using hne
  show (_ ∧ Consecutive p.toNat _) ↔ _
  rw [and_iff_right hne', List.map_map]
  constructor
  · intro hall i hi
    obtain ⟨q, hq, hqi⟩ := hall i (by simpa using hi)
    rw [List.getElem_map] at hq
    exact ⟨q, hqi, (h.mem_places words[i]).1 hq⟩
  · intro hall i hi
    obtain ⟨q, hqi, hq⟩ := hall i (by simpa using hi)
    rw [List.getElem_map]
    exact ⟨q, (h.mem_places _).2 hq, hqi⟩

/-- It has the documents in which it starts somewhere. -/
theorem Positional.mem_phrase :
    id ∈ (Answer.phrase (words.map (PhraseWord.answer postings.contents.vocabulary))).ids ↔
      ∃ p, postings.Begins words id p := by
  rw [Answer.mem_phrase]
  constructor
  · rintro ⟨-, p, hp⟩
    exact ⟨p, (h.mem_starts hne).1 hp⟩
  · rintro ⟨p, hp⟩
    refine ⟨List.forall_mem_map.2 fun word hword => ?_, p, (h.mem_starts hne).2 hp⟩
    obtain ⟨i, hi, rfl⟩ := List.getElem_of_mem hword
    obtain ⟨q, -, hq⟩ := hp i hi
    exact h.mem_answer _ ((h.mem_places _).2 hq)

end Words

omit h

/-! ## What is found -/

/-- **A quotation finds its words one behind the other**: in postings filled with positions, whatever
    changes were accepted or refused, the words inside quotation marks find the documents that have
    them at positions in a row, in ascending order, and wherever the cursor stands after some moves, its
    window is the ascending list of the positions from which they are. -/
theorem phrase_found {changes : List Change} (hchanges : ∀ change ∈ changes, change.Positional)
    {settings : CompileSettings} (hdepth : 1 ≤ settings.maxDepth) {words : List PhraseWord}
    (hne : words ≠ []) {text : String} (htext : Quotes words text) :
    let postings := run changes
    let compiler : Compiler Postings Walk := { source := postings, settings }
    let c := compiler.query (Query.parse text)
    (IdStream.ids c).Pairwise (· < ·) ∧
      (∀ id, id ∈ IdStream.ids c ↔ ∃ p, postings.Begins words id p) ∧
      ∀ ms, let reached := moves IdStream.move ms c
        IdStream.current reached ≠ 0 → (IdStream.window reached).Pairwise (· < ·) ∧
          ∀ p, p ∈ IdStream.window reached ↔ postings.Begins words (IdStream.current reached) p := by
  intro postings compiler c
  have hpositional : postings.Positional := run_positional hchanges
  obtain ⟨ledger, htracks⟩ := exists_tracks_run changes
  have hsource : Source.Shows postings postings.contents.vocabulary := by
    have hcatalog := htracks.catalog_shows
    rw [← htracks.contents_eq] at hcatalog
    exact hcatalog.source_shows hpositional.ascending postings.catalog_serves
  have hshows : (Answer.phrase (words.map (PhraseWord.answer postings.contents.vocabulary))).Shows c := by
    show Answer.Shows _ (compiler.tree (Query.parse text).root)
    rw [htext.parse_root hne]
    exact Compiler.quotation_shows hsource (fun _ => rfl) hdepth hne
  obtain ⟨hascending, hids⟩ := hshows.visits.ids
  refine ⟨hascending, ?_, ?_⟩
  · intro id
    rw [hids id, IdList.mem_toSet, hpositional.mem_phrase hne]
  · intro ms reached hstands
    obtain ⟨-, hlists⟩ := hshows.lists_moves ms hstands
    exact ⟨hlists.ascending, fun p => hlists.mem_iff.trans (hpositional.mem_starts hne)⟩

/-- A word that spells an operator, and a stem. -/
def notYews : List PhraseWord :=
  [.word ⟨['n', 'o', 't'], by decide, by simp [CharClass.of]⟩,
    .stem ⟨['y', 'e'], by decide, by simp [CharClass.of]⟩]

theorem quotes_notYews : Quotes notYews "\" not \t ye*\"" := by
  have hback : Blank [] := nofun
  have hfront : Blank [' '] := List.forall_mem_singleton.2 (by decide)
  have hgap : Blank [' ', '\t', ' '] :=
    List.forall_mem_cons.2 ⟨by decide, List.forall_mem_cons.2 ⟨by decide, hfront⟩⟩
  exact ⟨[' '], _, hfront, .cons hgap (fun _ => List.cons_ne_nil _ _) (.cons hback nofun .nil),
    by decide⟩

/-- A yew right behind the word "not" in one document; from the other the years are erased. -/
theorem phrase_found_yews :
    let changes : List Change := [.insertPositions "not" 3 [7, 4], .insertPositions "yew" 3 [5],
      .insertPositions "not" 70000 [1], .insertPositions "years" 70000 [2], .erase "years" 70000]
    let c := search (run changes) "\" not \t ye*\""
    (∀ change ∈ changes, change.Positional) ∧ notYews ≠ [] ∧ Quotes notYews "\" not \t ye*\"" ∧
      (IdStream.ids c).Pairwise (· < ·) ∧ 3 ∈ IdStream.ids c ∧ 70000 ∉ IdStream.ids c ∧
      ∀ ms, let reached := moves IdStream.move ms c
        IdStream.current reached ≠ 0 → (IdStream.window reached).Pairwise (· < ·) ∧
          ∀ p, p ∈ IdStream.window reached ↔
            (run changes).Begins notYews (IdStream.current reached) p := by
  intro changes c
  have hchanges : ∀ change ∈ changes, change.Positional := by simp [changes, Change.Positional]
  have hdepth : 1 ≤ CompileSettings.maxDepth {} := by decide
  have hne : notYews ≠ [] := List.cons_ne_nil _ _
  have hmodest : ∀ change ∈ changes, ∀ payload ∈ change.payload?, Modest payload := by
    have hsmall {positions : List Position} (h : ∀ p ∈ positions, p ≤ largestPosition) :
        Modest (Window.encode positions) := Modest.encode h
    simp only [changes, List.forall_mem_cons, Change.payload?, Option.mem_some_iff, forall_eq']
    refine ⟨hsmall ?_, hsmall ?_, hsmall ?_, hsmall ?_, ?_, ?_⟩ <;> simp [largestPosition]
  have hfind (term : String) (id : DocId) :
      (run changes).find? term id = (Ledger.run changes).payload? term id :=
    (tracks_run_of_modest hmodest List.prefix_rfl).find?_eq term id
  obtain ⟨hasc, hids, hwindows⟩ := phrase_found hchanges hdepth hne quotes_notYews
  refine ⟨hchanges, hne, quotes_notYews, hasc, (hids 3).2 ⟨4, ?_⟩, fun hid => ?_, hwindows⟩
  · have hnot : (run changes).Records "not" 3 4 := ⟨[7, 4], hfind "not" 3, by simp⟩
    have hyew : (run changes).Records "yew" 3 5 := ⟨[5], hfind "yew" 3, by simp⟩
    have hstem : ['y', 'e'] <+: "yew".toList := by decide
    intro i hi
    rcases i with _ | _ | i
    · exact ⟨4, rfl, "not", rfl, hnot⟩
    · exact ⟨5, rfl, "yew", hstem, hyew⟩
    · exact absurd hi (Nat.not_lt.2 (Nat.le_add_left 2 i))
  · obtain ⟨p, hbegins⟩ := (hids 70000).1 hid
    obtain ⟨q, -, term, hmatches, positions, hfound, -⟩ := hbegins 1 (by decide)
    have hvalid : DocId.Valid 3 ∧ DocId.Valid 70000 := by decide
    -- Nothing but the word "not" is left in the document, and it has no such stem.
    have hterm : term = "not" := by
      by_contra hother
      rw [hfind] at hfound
      by_cases hyears : term = "years" <;>
        simp [changes, Ledger.run, Ledger.apply, Ledger.insert, Ledger.put, Ledger.empty, hother,
          hyears, hvalid] at hfound
    have hstem : ['y', 'e'] <+: term.toList := hmatches
    rw [hterm] at hstem
    exact absurd hstem (by decide)

end Postings

end InvertedIndex
