import InvertedIndex.Proofs.Query.Outline

/-!
# `Proofs.Query.Scan` — reading lexemes

Lexemes with single spaces between them are read one by one: whatever was read before, each is
placed into the outline as one token, and the spaces do nothing. This holds as long as the outline is
**quiet**, that is, no quotation mark, brace, comparison or colon is around that would change what a
character means; and lexemes keep it quiet.

## Contents
- `Word.ne`, `Word.visible`: what the characters of a word are not;
- `readAttributes_value`, `readAttributes_list`: the values of an attribute;
- `Resolver.Reads`: a lexeme is read as one token; `reads_bare`, `reads_plain`: which are;
- `scanFrom_lexemes`: all lexemes of a text; `parse_grafted`, `parse_text`: whole requests.
-/

namespace InvertedIndex

/-! ## Characters -/

/-- The rest of an input behind a lexeme. -/
def Ends (rest : List Char) : Prop := rest = [] ∨ ∃ more, rest = ' ' :: more

theorem CharClass.visible {c : Char} (h : CharClass.of c ≠ .space) : 0x20 < c.toNat := by
  unfold CharClass.of at h
  split at h
  · exact absurd rfl h
  next hlarge => exact Nat.lt_of_not_le hlarge

namespace Grammar.Word

variable {word : Word} {c d : Char}

/-- A character with an effect of its own is in no word. -/
theorem ne (hc : c ∈ word.characters) (hd : CharClass.of d ≠ .word) : c ≠ d := by
  rintro rfl
  exact hd (word.plain c hc)

theorem visible (hc : c ∈ word.characters) : 0x20 < c.toNat := by
  refine CharClass.visible ?_
  rw [word.plain c hc]
  simp

/-- A word goes on with a value in full. -/
theorem inValue {stops : List Char} (hstops : ∀ d ∈ stops, CharClass.of d ≠ .word)
    (hc : c ∈ word.characters) : inValue stops c = true := by
  have hnone : c ∉ stops := fun hstop => ne hc (hstops c hstop) rfl
  simp [InvertedIndex.inValue, visible hc, hnone]

/-- The first character of a word and the others. -/
theorem exists_cons (word : Word) : ∃ c rest, word.characters = c :: rest ∧ c ∈ word.characters := by
  obtain ⟨c, rest, h⟩ := List.exists_cons_of_ne_nil word.nonempty
  exact ⟨c, rest, h, h ▸ List.mem_cons_self⟩

end Grammar.Word

/-! ## Values -/

section Values

open Grammar

/-- A word is read as a value up to a character at which values end. -/
theorem readValue_word {stops : List Char} (hstops : ∀ d ∈ stops, CharClass.of d ≠ .word)
    (word : Word) {rest : List Char} (hrest : ∀ c ∈ rest.head?, inValue stops c = false) :
    readValue stops (word.characters ++ rest) = (word.characters, rest) := by
  obtain ⟨c, more, hcons, hc⟩ := word.exists_cons
  have hquote : ¬ (c = '"' ∨ c = '\x27') := by
    rintro (h | h)
    · exact Word.ne hc (by decide) h
    · exact Word.ne hc (by decide) h
  have hall : ∀ d ∈ word.characters, inValue stops d = true := fun d hd => Word.inValue hstops hd
  have hread : readValue stops (word.characters ++ rest)
      = ((word.characters ++ rest).takeWhile (inValue stops),
        (word.characters ++ rest).dropWhile (inValue stops)) := by
    rw [hcons, List.cons_append, readValue, if_neg hquote]
  rw [hread, List.takeWhile_append_of_pos hall, List.dropWhile_append_of_pos hall]
  cases rest with
  | nil => simp
  | cons d rest =>
    have hend := hrest d rfl
    simp [hend]

/-- At the end of a lexeme there is no value. -/
theorem readValue_ends {rest : List Char} (h : Ends rest) : readValue [] rest = ([], rest) := by
  rcases h with rfl | ⟨more, rfl⟩
  · rfl
  · rfl

theorem Ends.head (h : Ends rest) : ∀ c ∈ rest.head?, inValue [] c = false := by
  rcases h with rfl | ⟨more, rfl⟩
  · simp
  · intro c hc
    obtain rfl : ' ' = c := by simpa using hc
    decide

/-- The single value behind `name:`. -/
theorem readAttributes_value (value : Word) {rest : List Char} (hrest : Ends rest) :
    readAttributes (value.characters ++ rest) = ([value.text], rest) := by
  have hlisted : readListed (value.characters ++ rest) = ([], value.characters ++ rest) := by
    obtain ⟨c, more, hcons, hc⟩ := value.exists_cons
    have hbracket := Word.ne hc (d := '[') (by decide)
    rw [hcons, List.cons_append]
    unfold readListed
    split
    next heq => exact absurd (List.cons.inj heq).1 hbracket
    · rfl
  have hvalue := readValue_word (by simp) value hrest.head
  have hne : value.characters.isEmpty = false := by simpa using value.nonempty
  simp only [readAttributes, hlisted, hvalue, consValue, hne, Word.text]
  rfl

/-- The first value of a list, up to a comma or bracket. -/
theorem readList_word (value : Word) {d : Char} {rest : List Char} (hd : d ∈ listStops) :
    readList (value.characters ++ d :: rest)
      = (value.text :: (readList (dropSeparator (d :: rest))).1,
        (readList (dropSeparator (d :: rest))).2) := by
  have hstops : ∀ d ∈ listStops, CharClass.of d ≠ .word := by simp [listStops, CharClass.of]
  have hread : readValue listStops (value.characters ++ d :: rest) = (value.characters, d :: rest) :=
    readValue_word hstops value (by simp [inValue, hd])
  have hne : value.characters.isEmpty = false := by simpa using value.nonempty
  obtain ⟨c, behind, hcons, hc⟩ := value.exists_cons
  have hclose : c ≠ ']' := Word.ne hc (by decide)
  rw [hcons, List.cons_append] at hread ⊢
  rw [readList, dif_neg hclose]
  simp only [hread, consValue, ← hcons, hne, Word.text]
  rfl

/-- The values of a list in brackets. -/
theorem readList_words (value : Word) (more : List Word) (rest : List Char) :
    readList (value.characters ++ (more.flatMap (fun value => ',' :: value.characters)
        ++ ']' :: rest)) = ((value :: more).map Word.text, rest) := by
  induction more generalizing value with
  | nil =>
    have hclosed : readList (dropSeparator (']' :: rest)) = ([], rest) := by
      rw [dropSeparator, if_pos rfl, readList, dif_pos rfl]
    rw [List.flatMap_nil, List.nil_append, readList_word value (by simp [listStops]), hclosed]
    rfl
  | cons next more ih =>
    have hnext (behind : List Char) : dropSeparator (',' :: behind) = behind := rfl
    rw [List.flatMap_cons, List.cons_append, List.cons_append, List.append_assoc,
      readList_word value (by simp [listStops]), hnext, ih]
    rfl

/-- The values behind `name:` that stand in brackets. -/
theorem readAttributes_list (value : Word) (more : List Word) {rest : List Char}
    (hrest : Ends rest) :
    readAttributes ('[' :: (value.characters
        ++ (more.flatMap (fun value => ',' :: value.characters) ++ ']' :: rest)))
      = ((value :: more).map Word.text, rest) := by
  rw [readAttributes, readListed, readList_words]
  simp only [readValue_ends hrest]
  simp [consValue]

end Values

/-! ## Scanning -/

namespace Scanner

open Grammar

variable {resolve : Resolver} {outline : Outline} {rest : List Char}

theorem scanFrom_nil (resolve : Resolver) (scanner : Scanner) :
    scanFrom resolve scanner [] = scanner.flush resolve .word := by
  rw [scanFrom]

theorem scanFrom_cons (resolve : Resolver) (scanner : Scanner) (c : Char) (rest : List Char) :
    scanFrom resolve scanner (c :: rest) = scanFrom resolve (scanner.step resolve c rest).1
      (scanner.step resolve c rest).2 := by
  rw [scanFrom]

/-- Word characters gather. -/
theorem scanFrom_word {characters : List Char} (hword : ∀ c ∈ characters, CharClass.of c = .word)
    (gathered : List Char) :
    scanFrom resolve ⟨outline, gathered⟩ (characters ++ rest)
      = scanFrom resolve ⟨outline, characters.reverse ++ gathered⟩ rest := by
  induction characters generalizing gathered with
  | nil => rfl
  | cons c more ih =>
    obtain ⟨hc, hmore⟩ := List.forall_mem_cons.1 hword
    have hstep : (Scanner.mk outline gathered).step resolve c (more ++ rest)
        = (⟨outline, c :: gathered⟩, more ++ rest) := by
      simp only [step, hc]
    rw [List.cons_append, scanFrom_cons, hstep, ih hmore]
    simp

/-- A colon behind a word makes it the name of an attribute, if the resolver leaves that alone. -/
theorem scanFrom_named (word : Word) {behind : List Char} {values : List String}
    (hvalues : readAttributes behind = (values, rest)) :
    scanFrom Resolver.plain ⟨outline, []⟩ (word.characters ++ ':' :: behind)
      = scanFrom Resolver.plain ⟨outline.read Resolver.plain (attributeToken word values), []⟩
        rest := by
  have hcolon : CharClass.of ':' = .colon := by decide
  have hne : word.characters.reverse.isEmpty = false := by simpa using word.nonempty
  rw [scanFrom_word word.plain, List.append_nil, scanFrom_cons]
  simp only [step, hcolon, hne, Bool.false_eq_true, if_false, named, hvalues, List.reverse_cons,
    List.reverse_reverse]
  rfl

section Keeps

variable (hkeeps : ∀ text, (resolve text []).action ≠ .skip)

include hkeeps

theorem emit_eq (scanner : Scanner) (kind : TokenKind) (text : String) :
    scanner.emit resolve kind text
      = { scanner with outline := scanner.outline.read resolve { kind, text } } := by
  rw [emit]
  exact if_neg (hkeeps text)

theorem flush_eq {word : List Char} (hne : word ≠ []) (kind : TokenKind) :
    (Scanner.mk outline word).flush resolve kind
      = ⟨outline.read resolve { kind, text := String.ofList word.reverse }, []⟩ := by
  have hempty : word.isEmpty = false := by simpa using hne
  simp only [flush, hempty, Bool.false_eq_true, if_false, emit_eq hkeeps]

/-- Once the word is placed, there is nothing more to place. -/
theorem flush_flush (scanner : Scanner) (kind kind' : TokenKind) :
    (scanner.flush resolve kind).flush resolve kind' = scanner.flush resolve kind := by
  by_cases hword : scanner.word = []
  · simp [flush, hword]
  · obtain ⟨outline, word⟩ := scanner
    rw [flush_eq hkeeps hword]
    rfl

/-- A space or a quotation mark first places the word gathered. -/
theorem scanFrom_flushed (scanner : Scanner) {c : Char}
    (hc : CharClass.of c = .space ∨ CharClass.of c = .doubleQuote) :
    scanFrom resolve scanner (c :: rest)
      = scanFrom resolve (scanner.flush resolve .word) (c :: rest) := by
  rw [scanFrom_cons, scanFrom_cons]
  rcases hc with hc | hc
  · simp only [step, hc, flush_flush hkeeps]
  · simp only [step, hc, flush_flush hkeeps]

/-- At the end of a lexeme the word gathered is placed. -/
theorem scanFrom_ends (scanner : Scanner) (hrest : Ends rest) :
    scanFrom resolve scanner rest = scanFrom resolve (scanner.flush resolve .word) rest := by
  rcases hrest with rfl | ⟨more, rfl⟩
  · rw [scanFrom_nil, scanFrom_nil, flush_flush hkeeps]
  · exact scanFrom_flushed hkeeps scanner (.inl (by decide))

section Spaces

variable (h : outline.parent?.any Outline.isEquation = false)

include h

/-- White space takes more of it off the input, and does nothing else. -/
theorem scanFrom_spaces {c : Char} (hc : CharClass.of c = .space) :
    scanFrom resolve ⟨outline, []⟩ (c :: rest)
      = scanFrom resolve ⟨outline, []⟩ (rest.dropWhile (·.toNat ≤ 0x20)) := by
  rw [scanFrom_cons]
  simp only [step, hc, flush, List.isEmpty_nil, if_true, emit_eq hkeeps, Outline.read_space h]

/-- The space between two lexemes does nothing. -/
theorem scanFrom_space {c : Char} (hc : 0x20 < c.toNat) :
    scanFrom resolve ⟨outline, []⟩ (' ' :: c :: rest)
      = scanFrom resolve ⟨outline, []⟩ (c :: rest) := by
  have hvisible : ¬ c.toNat ≤ 0x20 := Nat.not_le.2 hc
  rw [scanFrom_spaces hkeeps h (by decide), List.dropWhile_cons_of_neg (by simpa using hvisible)]

/-- **White space does nothing**, however much of it there is. -/
theorem scanFrom_blank {gap : List Char} (hgap : ∀ c ∈ gap, CharClass.of c = .space) :
    scanFrom resolve ⟨outline, []⟩ (gap ++ rest) = scanFrom resolve ⟨outline, []⟩ rest := by
  -- What a space takes off the input would do nothing anyway.
  have hdropped (input : List Char) :
      scanFrom resolve ⟨outline, []⟩ (input.dropWhile (·.toNat ≤ 0x20))
        = scanFrom resolve ⟨outline, []⟩ input := by
    cases input with
    | nil => rfl
    | cons d more =>
      by_cases hd : d.toNat ≤ 0x20
      · have hspace : CharClass.of d = .space := if_pos hd
        rw [List.dropWhile_cons_of_pos (by simpa using hd), scanFrom_spaces hkeeps h hspace]
      · rw [List.dropWhile_cons_of_neg (by simpa using hd)]
  induction gap with
  | nil => rfl
  | cons c gap ih =>
    obtain ⟨hc, hrest⟩ := List.forall_mem_cons.1 hgap
    rw [List.cons_append, scanFrom_spaces hkeeps h hc, hdropped, ih hrest]

end Spaces

/-- A word is placed at its end. -/
theorem scanFrom_ended_word (word : Word) (hrest : Ends rest) :
    scanFrom resolve ⟨outline, []⟩ (word.characters ++ rest)
      = scanFrom resolve ⟨outline.read resolve { kind := .word, text := word.text }, []⟩ rest := by
  have hne : word.characters.reverse ≠ [] := by simpa using word.nonempty
  rw [scanFrom_word word.plain, List.append_nil, scanFrom_ends hkeeps _ hrest,
    flush_eq hkeeps hne, List.reverse_reverse]
  rfl

/-- A star behind a word belongs to it, outside braces. -/
theorem scanFrom_stem (hbrace : outline.inside .openBrace = false) (word : Word) :
    scanFrom resolve ⟨outline, []⟩ (word.characters ++ '*' :: rest)
      = scanFrom resolve ⟨outline.read resolve
        { kind := .modifier, text := String.ofList (word.characters ++ ['*']) }, []⟩ rest := by
  have hstar : CharClass.of '*' = .star := by decide
  have hne : word.characters.reverse.isEmpty = false := by simpa using word.nonempty
  rw [scanFrom_word word.plain, List.append_nil, scanFrom_cons]
  simp only [step, hstar, star, hne, Bool.false_eq_true, if_false, hbrace, emit_eq hkeeps,
    List.reverse_cons, List.reverse_reverse]

/-- A parenthesis is a token of its own, outside quotation marks. -/
theorem scanFrom_mark (hquote : outline.inside .doubleQuote = false) {c : Char} {kind : TokenKind}
    (hc : CharClass.of c = .mark kind) :
    scanFrom resolve ⟨outline, []⟩ (c :: rest)
      = scanFrom resolve ⟨outline.read resolve { kind, text := String.singleton c }, []⟩ rest := by
  rw [scanFrom_cons]
  simp only [step, hc, flush, List.isEmpty_nil, if_true, hquote, Bool.false_eq_true, if_false,
    emit_eq hkeeps]

/-- A sign between spaces is a token of its own. -/
theorem scanFrom_joint {c : Char} {kind : TokenKind} (hc : CharClass.of c = .joint kind)
    (hrest : Ends rest) :
    scanFrom resolve ⟨outline, []⟩ (c :: rest)
      = scanFrom resolve ⟨outline.read resolve { kind, text := String.singleton c }, []⟩ rest := by
  have hsame : dropSame c rest = rest := by
    rcases hrest with rfl | ⟨more, rfl⟩
    · rfl
    · have hspace : ¬ ' ' = c := by
        rintro rfl
        simp [CharClass.of] at hc
      simp only [dropSame, if_neg hspace]
  rw [scanFrom_cons]
  simp only [step, hc, flush, List.isEmpty_nil, if_true, emit_eq hkeeps, hsame]

/-- A doubled sign is one token. -/
theorem scanFrom_doubled {c : Char} {kind : TokenKind} (hc : CharClass.of c = .joint kind) :
    scanFrom resolve ⟨outline, []⟩ (c :: c :: rest)
      = scanFrom resolve ⟨outline.read resolve { kind, text := String.singleton c }, []⟩ rest := by
  have hsame : dropSame c (c :: rest) = rest := if_pos rfl
  rw [scanFrom_cons]
  simp only [step, hc, flush, List.isEmpty_nil, if_true, emit_eq hkeeps, hsame]

end Keeps

end Scanner

/-- The resolver is shown the lexeme as its token, whatever comes behind it. -/
def Resolver.Reads (resolve : Resolver) (lexeme : Grammar.Lexeme) : Prop :=
  ∀ (outline : Outline) (rest : List Char), outline.Quiet → Ends rest →
    scanFrom resolve ⟨outline, []⟩ (lexeme.characters ++ rest)
      = scanFrom resolve ⟨outline.read resolve lexeme.token, []⟩ rest

namespace Scanner

open Grammar

/-- A lexeme without attribute values is read as one token. -/
theorem reads_bare {resolve : Resolver} (hkeeps : ∀ text, (resolve text []).action ≠ .skip)
    {lexeme : Lexeme} (hbare : ∀ leaf, lexeme = .leaf leaf → leaf.Bare) :
    resolve.Reads lexeme := by
  intro outline rest h hrest
  have hquote : outline.inside .doubleQuote = false :=
    h.not_inside (by simp) (by simp) (by simp) (by simp) (by simp)
  have hbrace : outline.inside .openBrace = false :=
    h.not_inside (by simp) (by simp) (by simp) (by simp) (by simp)
  -- One case per lexeme, each settled by the lemma on the characters that it starts with.
  cases lexeme with
  | leaf l =>
    cases l with
    | word w _ _ => exact scanFrom_ended_word hkeeps w hrest
    | stem s =>
      rw [Lexeme.characters, Leaf.characters, List.append_assoc]
      exact scanFrom_stem hkeeps hbrace s
    | named name value => exact absurd (hbare _ rfl) id
    | listed name value more => exact absurd (hbare _ rfl) id
  | opening => exact scanFrom_mark hkeeps hquote (by decide)
  | closing => exact scanFrom_mark hkeeps hquote (by decide)
  | negation n => exact scanFrom_ended_word hkeeps n.spelling hrest
  | separator s =>
    cases s with
    | bar => exact scanFrom_joint hkeeps (by decide) hrest
    | word spelling _ => exact scanFrom_ended_word hkeeps spelling hrest

/-- A leaf is read as its token outside braces, if the resolver leaves tokens alone. -/
theorem scanFrom_leaf {outline : Outline} {rest : List Char} (leaf : Leaf)
    (hbrace : outline.inside .openBrace = false) (hrest : Ends rest) :
    scanFrom Resolver.plain ⟨outline, []⟩ (leaf.characters ++ rest)
      = scanFrom Resolver.plain ⟨outline.read Resolver.plain leaf.token, []⟩ rest := by
  cases leaf with
  | word w _ _ => exact scanFrom_ended_word plain_grafting.keeps w hrest
  | stem s =>
    rw [Leaf.characters, List.append_assoc]
    exact scanFrom_stem plain_grafting.keeps hbrace s
  | named name value =>
    rw [Leaf.characters, List.append_assoc]
    exact scanFrom_named name (readAttributes_value value hrest)
  | listed name value more =>
    rw [Leaf.characters, List.append_assoc, List.cons_append, List.cons_append, List.append_assoc,
      List.append_assoc]
    exact scanFrom_named name (readAttributes_list value more hrest)

/-- **One lexeme** is placed as its token if the resolver leaves tokens alone. -/
theorem reads_plain (lexeme : Lexeme) : Resolver.plain.Reads lexeme := by
  cases lexeme with
  | leaf l =>
    intro outline rest h hrest
    have hbrace : outline.inside .openBrace = false :=
      h.not_inside (by simp) (by simp) (by simp) (by simp) (by simp)
    exact scanFrom_leaf l hbrace hrest
  | opening => exact reads_bare plain_grafting.keeps nofun
  | closing => exact reads_bare plain_grafting.keeps nofun
  | negation n => exact reads_bare plain_grafting.keeps nofun
  | separator s => exact reads_bare plain_grafting.keeps nofun

/-- A lexeme does not start with a space. -/
theorem lexeme_exists_cons (lexeme : Lexeme) :
    ∃ c rest, lexeme.characters = c :: rest ∧ 0x20 < c.toNat := by
  have hword (word : Word) (behind : List Char) :
      ∃ c rest, word.characters ++ behind = c :: rest ∧ 0x20 < c.toNat := by
    obtain ⟨c, more, hcons, hc⟩ := word.exists_cons
    exact ⟨c, more ++ behind, by rw [hcons]; rfl, Word.visible hc⟩
  have hbare (word : Word) : ∃ c rest, word.characters = c :: rest ∧ 0x20 < c.toNat := by
    obtain ⟨c, more, hcons, hc⟩ := word.exists_cons
    exact ⟨c, more, hcons, Word.visible hc⟩
  cases lexeme with
  | leaf l =>
    cases l with
    | word w _ _ => exact hbare w
    | stem s => exact hword s _
    | named name value => exact hword name _
    | listed name value more => exact hword name _
  | opening => exact ⟨'(', [], rfl, by decide⟩
  | closing => exact ⟨')', [], rfl, by decide⟩
  | negation n => exact hbare n.spelling
  | separator s =>
    cases s with
    | bar => exact ⟨'|', [], rfl, by decide⟩
    | word spelling _ => exact hbare spelling

/-- Neither do several of them. -/
theorem lexemes_exists_cons (lexeme : Lexeme) (more : List Lexeme) :
    ∃ c rest, [' '].intercalate ((lexeme :: more).map Lexeme.characters) = c :: rest ∧
      0x20 < c.toNat := by
  obtain ⟨c, behind, hcons, hc⟩ := lexeme_exists_cons lexeme
  cases more with
  | nil => exact ⟨c, behind, by simp [hcons], hc⟩
  | cons next more =>
    rw [List.map_cons, List.map_cons, List.intercalate_cons_cons, hcons]
    exact ⟨c, _, rfl, hc⟩

/-- **Lexemes with single spaces between them** are placed one by one. -/
theorem scanFrom_lexemes {resolve : Resolver} (hgrafts : Grafting resolve) {lexemes : List Lexeme}
    (hreads : ∀ lexeme ∈ lexemes, resolve.Reads lexeme) {outline : Outline} (h : outline.Quiet) :
    scanFrom resolve ⟨outline, []⟩ ([' '].intercalate (lexemes.map Lexeme.characters))
      = ⟨readAll resolve outline lexemes, []⟩ := by
  induction lexemes generalizing outline with
  | nil => exact scanFrom_nil _ _
  | cons lexeme rest ih =>
    obtain ⟨hlexeme, hrest⟩ := List.forall_mem_cons.1 hreads
    have hquiet := hgrafts.read_quiet h lexeme
    cases rest with
    | nil =>
      have hread := hlexeme outline [] h (.inl rfl)
      rw [List.append_nil] at hread
      rw [List.map_cons, List.map_nil, List.intercalate_singleton, hread]
      exact scanFrom_nil _ _
    | cons next more =>
      obtain ⟨c, behind, hbehind, hc⟩ := lexemes_exists_cons next more
      have hspaced : [' '].intercalate ((lexeme :: next :: more).map Lexeme.characters)
          = lexeme.characters ++ ' ' :: c :: behind := by
        rw [← hbehind, List.map_cons, List.map_cons, List.intercalate_cons_cons, List.append_assoc]
        rfl
      have htail := ih hrest hquiet
      rw [hbehind] at htail
      rw [hspaced, hlexeme outline _ h (.inr ⟨_, rfl⟩), scanFrom_space hgrafts.keeps hquiet.parent_isEquation hc,
        htail]
      rfl

end Scanner

namespace Grammar

/-- **The text of a request** is read into its tokens, with what the resolver puts in the place of
    leaves. -/
theorem parse_grafted {resolve : Resolver} (hgrafts : Grafting resolve) (request : Request)
    (hreads : ∀ lexeme ∈ request.lexemes, resolve.Reads lexeme) :
    (Query.parse request.text resolve).root = arrange (request.tokensOf (Leaf.shown resolve)) := by
  have hscan : scan resolve request.text = readAll resolve {} request.lexemes := by
    rw [scan, Request.text, String.toList_ofList,
      Scanner.scanFrom_lexemes hgrafts hreads Outline.Quiet.empty_quiet]
  rw [Query.parse, hscan, request.roots_eq hgrafts]

/-- The text of a request is read into its tokens. -/
theorem parse_text (request : Request) :
    (Query.parse request.text).root = arrange request.tokens := by
  rw [← request.tokensOf_token]
  exact parse_grafted plain_grafting request fun lexeme _ => Scanner.reads_plain lexeme

end Grammar

end InvertedIndex
