import InvertedIndex.Proofs.Query.Scan
import InvertedIndex.Proofs.Query.Shown

/-!
# `Proofs.Query.Written` — the marks of a text, and reading it

The marks of a text are found from its characters alone. A character that opens and closes no group,
and is no comparison or space, is gathered or placed in simple tokens, and the scanner shows it.

## Contents
- `CharClass.of_has`: the characters of a class;
- `behind`: what is left of a text behind a character; `readAttributes_suffix`, `behind_suffix`;
- `characterMarks`, `written`: the marks of a text;
- `Scanner.Stepped`, `step_stepped`: what a step does;
- `Scanner.Steps`, `step_steps`: a step that places simple tokens;
- `Scanner.Tells`: a scanner shows the marks of what it has read;
- `Scanner.clear`: nothing hinders the reading of a text.
-/

namespace InvertedIndex

/-! ## Characters -/

/-- The characters of a class with few of them. -/
def CharClass.Has (c : Char) : CharClass → Prop
  | .star => c = '*'
  | .colon => c = ':'
  | .question => c = '?'
  | .joint kind => c = '&' ∧ kind = .and ∨ c = '|' ∧ kind = .or
  | .doubleQuote => c = '"'
  | .dot => c = '.'
  | .escape => c = '\\'
  | .mark kind => kind = .comma ∨ kind = .comparison ∨ kind = .operator ∨
      (c ≠ '-' ∧ c ≠ '+' ∧ (kind = .openParen ∨ kind = .openBrace ∨ kind = .openBracket ∨
        kind = .closeParen ∨ kind = .closeBrace ∨ kind = .closeBracket))
  | _ => True

theorem CharClass.of_has (c : Char) : CharClass.Has c (CharClass.of c) := by
  unfold CharClass.of
  split
  · trivial
  · split
    · trivial
    · split
      · trivial
      · split <;> simp [CharClass.Has]

/-! ## What is left behind a character -/

theorem readQuoted_suffix (mark : Char) (input : List Char) :
    (readQuoted mark input).2 <:+ input := by
  fun_induction readQuoted mark input with
  | case1 => exact List.suffix_rfl
  | case2 rest => exact List.suffix_cons _ _
  | case3 => exact List.nil_suffix
  | case4 d rest value behind hread hmark ih =>
    rw [hread] at ih
    exact (ih.trans (List.suffix_cons _ _)).trans (List.suffix_cons _ _)
  | case5 c rest hmark hescape value behind hread ih =>
    rw [hread] at ih
    exact ih.trans (List.suffix_cons _ _)

theorem readValue_suffix (stops input : List Char) : (readValue stops input).2 <:+ input := by
  unfold readValue
  split
  · exact List.suffix_rfl
  next c rest =>
    split
    · exact (readQuoted_suffix c rest).trans (List.suffix_cons _ _)
    · exact List.dropWhile_suffix _

theorem dropSeparator_suffix (input : List Char) : dropSeparator input <:+ input := by
  unfold dropSeparator
  split
  · exact List.suffix_rfl
  next c rest =>
    have hdrop := List.dropWhile_suffix (l := rest) (inValue listStops)
    have hrest : rest <:+ c :: rest := List.suffix_cons _ _
    split
    · exact List.suffix_rfl
    · split
      · exact hrest
      · split
        next hleft => exact (hleft ▸ hdrop).trans hrest
        next hleft => exact ((List.suffix_cons _ _).trans (hleft ▸ hdrop)).trans hrest
        · exact List.nil_suffix

theorem readList_suffix (input : List Char) : (readList input).2 <:+ input := by
  fun_induction readList input with
  | case1 => exact List.suffix_rfl
  | case2 rest => exact List.suffix_cons _ _
  | case3 c rest hclose read values behind hread ih =>
    rw [hread] at ih
    exact (ih.trans (dropSeparator_suffix _)).trans (readValue_suffix listStops (c :: rest))

/-- The values behind `name:` are taken off the front. -/
theorem readAttributes_suffix (input : List Char) : (readAttributes input).2 <:+ input := by
  have hlisted : (readListed input).2 <:+ input := by
    unfold readListed
    split
    next rest => exact (readList_suffix rest).trans (List.suffix_cons _ _)
    · exact List.suffix_rfl
  exact (readValue_suffix [] _).trans hlisted

/-- What is left of the input behind a character and what belongs to it. -/
def behind (inWord : Bool) (c : Char) (input : List Char) : List Char :=
  match CharClass.of c with
  | .colon => if inWord then (readAttributes input).2 else input
  | .joint _ => Scanner.dropSame c input
  | .dot =>
    match input with
    | '.' :: d :: rest => d :: rest
    | _ => input
  | .escape => input.drop 1
  | .space => input.dropWhile (·.toNat ≤ 0x20)
  | _ => input

theorem behind_suffix (inWord : Bool) (c : Char) (input : List Char) :
    behind inWord c input <:+ input := by
  unfold behind
  split
  · split
    · exact readAttributes_suffix input
    · exact List.suffix_rfl
  · unfold Scanner.dropSame
    split
    next d rest =>
      split
      · exact List.suffix_cons _ _
      · exact List.suffix_rfl
    · exact List.suffix_rfl
  · split
    · exact List.suffix_cons _ _
    · exact List.suffix_rfl
  · exact List.drop_suffix _ _
  · exact List.dropWhile_suffix _
  · exact List.suffix_rfl

/-! ## The marks of a text -/

/-- The marks of a character, and of what belongs to it in the input behind. -/
def characterMarks (d : Delimiters) (quoted : Bool) (c : Char) (input : List Char) : List Mark :=
  match CharClass.of c with
  | .escape => []
  | .space => []
  | .doubleQuote =>
    if d.has .doubleQuote && quoted then [.closing .doubleQuote]
    else d.startMarks .doubleQuote (String.singleton c)
  | .mark kind =>
    if quoted then textMarks .other (String.singleton c)
    else
      match closedBy? kind with
      | some opened => d.endMarks opened
      | none => d.startMarks kind (String.singleton c)
  | .dot =>
    match input with
    | '.' :: _ :: _ => [.character '.', .character '.']
    | _ => [.character '.']
  | _ => [.character c]

/-- A character of no group, quotation or comparison has its own marks, if any. -/
theorem characterMarks_simple {d : Delimiters} {quoted : Bool} {c : Char} {input : List Char}
    (hmark : ∀ kind, CharClass.of c ≠ .mark kind) (hquote : CharClass.of c ≠ .doubleQuote) :
    ∀ mark ∈ characterMarks d quoted c input, ∃ d, mark = .character d := by
  unfold characterMarks
  split
  · simp
  · simp
  next hclass => exact absurd hclass hquote
  next kind hclass => exact absurd hclass (hmark kind)
  · split <;> simp
  · simp

/-- The marks of a text of which the part before it ends in a word or in a quotation, or not. -/
def writtenFrom (d : Delimiters) (quoted inWord : Bool) (input : List Char) : List Mark :=
  match input with
  | [] => []
  | c :: rest =>
    characterMarks d quoted c rest ++
      writtenFrom d (quoted != decide (c = '"')) (CharClass.of c = .word) (behind inWord c rest)
termination_by input.length
decreasing_by exact Nat.lt_succ_of_le (behind_suffix inWord c rest).length_le

theorem writtenFrom_cons (d : Delimiters) (quoted inWord : Bool) (c : Char) (rest : List Char) :
    writtenFrom d quoted inWord (c :: rest) = characterMarks d quoted c rest ++
      writtenFrom d (quoted != decide (c = '"')) (CharClass.of c = .word)
        (behind inWord c rest) := by
  rw [writtenFrom]

/-- The marks of a query. Without `"` as a delimiter, only text outside quotation marks has
    brackets. -/
def written (d : Delimiters) (input : String) : List Mark := writtenFrom d false false input.toList

/-! ## A scanner -/

namespace Scanner

open Outline

variable {d : Delimiters} {scanner : Scanner} {c : Char} {input : List Char}

theorem emit_plain (scanner : Scanner) (kind : TokenKind) (text : String) :
    scanner.emit Resolver.plain kind text
      = { scanner with outline := scanner.outline.place kind text .normal [] none } := rfl

/-- A dot is followed by another dot and more, or stands for itself. -/
theorem dots_cases (input : List Char) :
    (∃ d rest, input = '.' :: d :: rest) ∨ ∀ d rest, input = '.' :: d :: rest → False := by
  by_cases h : ∃ d rest, input = '.' :: d :: rest
  · exact .inl h
  · exact .inr fun d rest heq => h ⟨d, rest, heq⟩

/-- What one step does: it gathers the character, reads a star or the name of an attribute, or places
    the word gathered and one token of its own behind it, if any. -/
inductive Stepped (resolve : Resolver) (scanner : Scanner) (c : Char) (input : List Char) :
    Scanner → Prop where
  | gathers (hclass : CharClass.of c = .word) :
      Stepped resolve scanner c input { scanner with word := c :: scanner.word }
  | stars (hc : c = '*') : Stepped resolve scanner c input (scanner.star resolve)
  | names (hc : c = ':') (hword : scanner.word ≠ []) :
      Stepped resolve scanner c input (scanner.named resolve input).1
  | drops (hc : c = '\\') : Stepped resolve scanner c input (scanner.flush resolve .word)
  | emits {kind emitted : TokenKind} {text : String} (hclass : CharClass.of c ≠ .word)
      (hkind : kind = .word ∨ kind = .modifier ∧ c = '?') (hword : emitted ≠ .word)
      (hor : emitted = .or → c = '|') (hnot : emitted ≠ .not) (hnull : emitted ≠ .null) :
      Stepped resolve scanner c input ((scanner.flush resolve kind).emit resolve emitted text)

theorem step_stepped (resolve : Resolver) (scanner : Scanner) (c : Char) (input : List Char) :
    Stepped resolve scanner c input (scanner.step resolve c input).1 := by
  have hhas := CharClass.of_has c
  -- Most characters end the word and place a token that is no operator.
  have hemits {kind emitted : TokenKind} {text : String} (hclass : CharClass.of c ≠ .word)
      (hkind : kind = .word ∨ kind = .modifier ∧ c = '?')
      (hemitted : emitted ≠ .word ∧ emitted ≠ .or ∧ emitted ≠ .not ∧ emitted ≠ .null) :
      Stepped resolve scanner c input ((scanner.flush resolve kind).emit resolve emitted text) :=
    .emits hclass hkind hemitted.1 (absurd · hemitted.2.1) hemitted.2.2.1 hemitted.2.2.2
  unfold step
  cases hof : CharClass.of c with
  | word => exact .gathers hof
  | star => exact .stars (by rwa [hof] at hhas)
  | escape => exact .drops (by rwa [hof] at hhas)
  | colon =>
    have hc : c = ':' := by rwa [hof] at hhas
    by_cases hword : scanner.word = []
    · have hflush : scanner.flush resolve .word = scanner := by simp [flush, hword]
      have hplaces : Stepped resolve scanner c input
          ((scanner.flush resolve .word).emit resolve .colon ":") :=
        hemits (by simp [hof]) (.inl rfl) (by decide)
      rw [hflush] at hplaces
      simpa [hword] using hplaces
    · simpa [hword] using Stepped.names hc hword
  | question =>
    exact hemits (by simp [hof]) (.inr ⟨rfl, by rwa [hof] at hhas⟩) (by decide)
  | joint kind =>
    rw [hof] at hhas
    rcases hhas with ⟨-, rfl⟩ | ⟨hc, rfl⟩
    · exact hemits (by simp [hof]) (.inl rfl) (by decide)
    · exact .emits (by simp [hof]) (.inl rfl) (by decide) (fun _ => hc) (by decide) (by decide)
  | doubleQuote => exact hemits (by simp [hof]) (.inl rfl) (by decide)
  | dot =>
    dsimp only
    split
    · exact hemits (by simp [hof]) (.inl rfl) (by decide)
    · exact hemits (by simp [hof]) (.inl rfl) (by decide)
  | mark kind =>
    have hkinds : kind ≠ .word ∧ kind ≠ .or ∧ kind ≠ .not ∧ kind ≠ .null := by
      rw [hof] at hhas
      rcases hhas with rfl | rfl | rfl | ⟨-, -, rfl | rfl | rfl | rfl | rfl | rfl⟩ <;> decide
    dsimp only
    split
    · exact hemits (by simp [hof]) (.inl rfl) (by decide)
    · exact hemits (by simp [hof]) (.inl rfl) hkinds
  | other => exact hemits (by simp [hof]) (.inl rfl) (by decide)
  | space => exact hemits (by simp [hof]) (.inl rfl) (by decide)

/-- What is left behind a character does not depend on the tree. -/
theorem step_behind (scanner : Scanner) (c : Char) (input : List Char) :
    (scanner.step Resolver.plain c input).2 = behind (!scanner.word.isEmpty) c input := by
  unfold step behind
  cases hclass : CharClass.of c with
  | colon =>
    cases hword : scanner.word.isEmpty with
    | true => rfl
    | false => rfl
  | dot =>
    rcases dots_cases input with ⟨d, rest, rfl⟩ | hsingle
    · rfl
    · simp only
  | _ => rfl

/-- A step leaves no other characters to read. -/
theorem notMem_step {e : Char} (h : e ∉ c :: input) (scanner : Scanner) :
    e ∉ (scanner.step Resolver.plain c input).2 := by
  rw [step_behind]
  intro hmem
  exact h (List.mem_cons_of_mem c ((behind_suffix _ c input).subset hmem))

/-- The marks of a text that is no sign are its characters. -/
theorem textMarks_characters {kind : TokenKind} (hcomparison : kind ≠ .comparison)
    (hcomma : kind ≠ .comma) {characters : List Char} {c : Char} (hc : c ∈ characters)
    (hdash : c ≠ '-') (hplus : c ≠ '+') :
    textMarks kind (String.ofList characters) = characters.map .character := by
  obtain ⟨hnotDash, hnotPlus⟩ := Grammar.ofList_ne_sign hc hdash hplus
  simp [textMarks, hnotDash, hnotPlus, hcomparison, hcomma]

theorem ne_sign_of_word (hc : CharClass.of c = .word) : c ≠ '-' ∧ c ≠ '+' := by
  constructor
  · rintro rfl
    exact absurd hc (by decide)
  · rintro rfl
    exact absurd hc (by decide)

/-- A simple token with a text that is no sign shows its characters. -/
theorem simple_token {kind : TokenKind} (hkind : simpleKind kind = true) {characters : List Char}
    (hc : c ∈ characters) (hdash : c ≠ '-') (hplus : c ≠ '+') (attrs : List String) :
    let token : Token := { kind, text := String.ofList characters, attrs }
    Simple token ∧ tokenMarks [token] = characters.map .character := by
  have hmarks : textMarks kind (String.ofList characters) = characters.map .character :=
    textMarks_characters (simpleKind_ne hkind rfl) (simpleKind_ne hkind rfl) hc hdash hplus
  refine ⟨⟨rfl, ?_, hkind⟩, by simpa [tokenMarks] using hmarks⟩
  intro hempty
  have hnil : characters = [] := by simpa using congrArg String.toList hempty
  rw [hnil] at hc
  exact absurd hc (by simp)

/-- So does a word, with what may stand behind it. -/
theorem word_token (hword : ∀ c ∈ scanner.word, CharClass.of c = .word)
    (hne : scanner.word ≠ []) {kind : TokenKind} (hkind : simpleKind kind = true)
    (more : List Char) (attrs : List String) :
    let token : Token := { kind, text := String.ofList (scanner.word.reverse ++ more), attrs }
    Simple token ∧ tokenMarks [token] = (scanner.word.reverse ++ more).map .character := by
  obtain ⟨c, rest, hcons⟩ := List.exists_cons_of_ne_nil hne
  obtain ⟨hdash, hplus⟩ := ne_sign_of_word (hword c (by simp [hcons]))
  have hc : c ∈ scanner.word.reverse ++ more := by simp [hcons]
  exact simple_token hkind hc hdash hplus attrs

/-- What one step does that places simple tokens: what has been gathered and is written is placed or
    gathered. -/
structure Steps (scanner scanner' : Scanner) (tokens : List Token) (marks : List Mark) : Prop where
  placed : PlacedAll scanner.outline tokens scanner'.outline
  word : ∀ c ∈ scanner'.word, CharClass.of c = .word
  marks : scanner.word.reverse.map .character ++ marks
    = tokenMarks tokens ++ scanner'.word.reverse.map .character

/-- The tokens of the word being gathered. -/
def gathered (scanner : Scanner) (kind : TokenKind) : List Token :=
  if scanner.word.isEmpty then [] else [{ kind, text := String.ofList scanner.word.reverse }]

theorem gathered_kind {kind : TokenKind} {token : Token} (h : token ∈ scanner.gathered kind) :
    token.kind = kind := by
  unfold gathered at h
  split at h
  · exact absurd h (by simp)
  · obtain rfl := List.mem_singleton.1 h
    rfl

section Words

variable (hpending : scanner.outline.pending = [])
  (hword : ∀ c ∈ scanner.word, CharClass.of c = .word) {kind : TokenKind}
  (hkind : simpleKind kind = true)

include hpending hword hkind

/-- The word being gathered is placed. -/
theorem flush_steps :
    (scanner.flush Resolver.plain kind).word = [] ∧
      Steps scanner (scanner.flush Resolver.plain kind) (scanner.gathered kind) [] := by
  cases hgathered : scanner.word with
  | nil =>
    have hflush : scanner.flush Resolver.plain kind = scanner := by simp [flush, hgathered]
    have hnone : scanner.gathered kind = [] := by simp [gathered, hgathered]
    rw [hflush, hnone]
    exact ⟨hgathered, .nil _, hword, by simp [tokenMarks]⟩
  | cons c rest =>
    obtain ⟨hsimple, hmarks⟩ := word_token hword (by simp [hgathered]) hkind [] []
    have hflush : scanner.flush Resolver.plain kind = ⟨scanner.outline.place kind
        (String.ofList scanner.word.reverse) .normal [] none, []⟩ := by
      simp only [flush, hgathered, List.isEmpty_cons, Bool.false_eq_true, if_false]
      rfl
    have hone : scanner.gathered kind = [{ kind, text := String.ofList scanner.word.reverse }] := by
      simp [gathered, hgathered]
    rw [List.append_nil] at hsimple hmarks
    rw [hflush, hone]
    exact ⟨rfl, .cons hsimple (placed_place hpending hsimple.steers _ []) (.nil _), by simp,
      by simpa using hmarks.symm⟩

/-- A token of its own behind the word being gathered. -/
theorem emit_steps {emitted : TokenKind} {text : String}
    (hsimple : Simple { kind := emitted, text }) :
    Steps scanner ((scanner.flush Resolver.plain kind).emit Resolver.plain emitted text)
      (scanner.gathered kind ++ [{ kind := emitted, text }]) (textMarks emitted text) := by
  obtain ⟨hempty, hflush⟩ := flush_steps hpending hword hkind
  have hplaced := placed_place (hflush.placed.pending hpending) hsimple.steers text []
  refine ⟨hflush.placed.append (.cons hsimple hplaced (.nil _)), ?_, ?_⟩
  · simp [emit_plain, hempty]
  · have hmarks := hflush.marks
    rw [List.append_nil, hempty] at hmarks
    rw [hmarks]
    simp [emit_plain, hempty, tokenMarks]

end Words

/-- The word being gathered and then a token with a text of its own. -/
theorem own_steps (hpending : scanner.outline.pending = [])
    (hword : ∀ c ∈ scanner.word, CharClass.of c = .word) {kind emitted : TokenKind}
    (hkind : simpleKind kind = true) (hemitted : simpleKind emitted = true)
    {characters : List Char} (hc : c ∈ characters) (hdash : c ≠ '-') (hplus : c ≠ '+') :
    ∃ tokens, Steps scanner ((scanner.flush Resolver.plain kind).emit Resolver.plain emitted
        (String.ofList characters)) tokens (characters.map .character) ∧
      ∀ token ∈ tokens, token.kind = kind ∨ token.kind = emitted := by
  obtain ⟨hsimple, hmarks⟩ := simple_token hemitted hc hdash hplus []
  have hsteps := emit_steps hpending hword hkind hsimple
  have htext : textMarks emitted (String.ofList characters) = characters.map .character := by
    simpa [tokenMarks] using hmarks
  rw [htext] at hsteps
  refine ⟨_, hsteps, fun token htoken => ?_⟩
  rcases List.mem_append.1 htoken with hgathered | hown
  · exact .inl (gathered_kind hgathered)
  · obtain rfl := List.mem_singleton.1 hown
    exact .inr rfl

/-- A star is placed, with the word being gathered or behind it. -/
theorem star_steps (hpending : scanner.outline.pending = [])
    (hword : ∀ c ∈ scanner.word, CharClass.of c = .word) :
    ∃ tokens, Steps scanner (scanner.star Resolver.plain) tokens [.character '*'] ∧
      ∀ token ∈ tokens, token.kind = .modifier ∨ token.kind = .operator := by
  have hmodifier : simpleKind .modifier = true := rfl
  have hoperator : simpleKind .operator = true := rfl
  obtain ⟨tokens, hsteps, hkinds⟩ := own_steps hpending hword hmodifier hoperator
    (List.mem_singleton_self '*') (by decide) (by decide)
  unfold star
  split
  next hempty =>
    have hflush : scanner.flush Resolver.plain .modifier = scanner := by simp [flush, hempty]
    rw [hflush] at hsteps
    exact ⟨tokens, hsteps, hkinds⟩
  next hne =>
    split
    · exact ⟨tokens, hsteps, hkinds⟩
    · obtain ⟨hsimple, hmarks⟩ := word_token hword (by simpa using hne) hmodifier ['*'] []
      have hplaced := placed_place hpending hsimple.steers
        (String.ofList (scanner.word.reverse ++ ['*'])) []
      refine ⟨_, ⟨.cons hsimple ?_ (.nil _), by simp [emit_plain], ?_⟩, by simp⟩
      · rw [List.reverse_cons]
        exact hplaced
      · simpa [emit_plain] using hmarks.symm

/-- A name with its values is placed. -/
theorem named_steps (hpending : scanner.outline.pending = [])
    (hword : ∀ c ∈ scanner.word, CharClass.of c = .word) (hne : scanner.word ≠ [])
    (input : List Char) :
    ∃ tokens, Steps scanner (scanner.named Resolver.plain input).1 tokens [.character ':'] := by
  obtain ⟨hsimple, hmarks⟩ := word_token hword hne word_simple [':'] (readAttributes input).1
  have hplaced := placed_place hpending hsimple.steers
    (String.ofList (scanner.word.reverse ++ [':'])) (readAttributes input).1
  have hnamed : (scanner.named Resolver.plain input).1
      = ⟨scanner.outline.place .word (String.ofList (scanner.word.reverse ++ [':'])) .normal
          (readAttributes input).1 none, []⟩ := by
    rw [← List.reverse_cons]
    rfl
  rw [hnamed]
  exact ⟨_, .cons hsimple hplaced (.nil _), by simp, by simpa using hmarks.symm⟩

/-- **A character of no group**, quotation, comparison or space places simple tokens or is gathered,
    and shows itself. -/
theorem step_steps (hpending : scanner.outline.pending = [])
    (hword : ∀ c ∈ scanner.word, CharClass.of c = .word)
    (hmark : ∀ kind, CharClass.of c ≠ .mark kind) (hquote : CharClass.of c ≠ .doubleQuote)
    (hspace : CharClass.of c ≠ .space) (d : Delimiters) (quoted : Bool) (input : List Char) :
    ∃ tokens, Steps scanner (scanner.step Resolver.plain c input).1 tokens
        (characterMarks d quoted c input) ∧
      (CharClass.of c ≠ .colon → ∀ token ∈ tokens, token.kind ≠ .colon) := by
  have hhas := CharClass.of_has c
  have hsign : ∀ sign, CharClass.of sign = .mark .operator → c ≠ sign := by
    rintro sign hsign rfl
    exact hmark _ hsign
  have hdash := hsign '-' (by decide)
  have hplus := hsign '+' (by decide)
  -- The word being gathered and then a token of a kind of its own.
  have hown : ∀ (kind emitted : TokenKind) (characters : List Char), simpleKind kind = true →
      simpleKind emitted = true → kind ≠ .colon → (CharClass.of c ≠ .colon → emitted ≠ .colon) →
      (∃ d ∈ characters, d ≠ '-' ∧ d ≠ '+') → ∃ tokens,
        Steps scanner ((scanner.flush Resolver.plain kind).emit Resolver.plain emitted
          (String.ofList characters)) tokens (characters.map .character) ∧
        (CharClass.of c ≠ .colon → ∀ token ∈ tokens, token.kind ≠ .colon) := by
    rintro kind emitted characters hkind hemitted hne hne' ⟨d, hd, hdash, hplus⟩
    obtain ⟨tokens, hsteps, hkinds⟩ := own_steps hpending hword hkind hemitted hd hdash hplus
    refine ⟨tokens, hsteps, fun hclass token htoken => ?_⟩
    rcases hkinds token htoken with h | h
    · exact h ▸ hne
    · exact h ▸ hne' hclass
  unfold step characterMarks
  cases hclass : CharClass.of c with
  | word =>
    refine ⟨[], ⟨.nil _, ?_, by simp [tokenMarks]⟩, by simp⟩
    simpa [hclass] using hword
  | star =>
    rw [hclass] at hhas
    obtain rfl := hhas
    obtain ⟨tokens, hsteps, hkinds⟩ := star_steps hpending hword
    refine ⟨tokens, hsteps, fun _ token htoken => ?_⟩
    rcases hkinds token htoken with h | h <;> simp [h]
  | colon =>
    rw [hclass] at hhas
    obtain rfl := hhas
    cases hempty : scanner.word.isEmpty with
    | true =>
      have hflush : scanner.flush Resolver.plain .word = scanner := by simp [flush, hempty]
      have hsteps := hown .word .colon [':'] rfl rfl (by simp) (by simp [hclass]) (by simp)
      rw [hflush, hclass] at hsteps
      exact hsteps
    | false =>
      obtain ⟨tokens, hsteps⟩ := named_steps hpending hword (by simpa using hempty) input
      exact ⟨tokens, hsteps, by simp⟩
  | question =>
    rw [hclass] at hhas hown
    obtain rfl := hhas
    exact hown .modifier .question ['?'] rfl rfl (by simp) (by simp) (by simp)
  | joint kind =>
    rw [hclass] at hhas hown
    have hkind : simpleKind kind = true ∧ kind ≠ .colon := by
      rcases hhas with ⟨-, rfl⟩ | ⟨-, rfl⟩ <;> simp [simpleKind]
    exact hown .word kind [c] rfl hkind.1 (by simp) (fun _ => hkind.2) ⟨c, by simp, hdash, hplus⟩
  | doubleQuote => exact absurd hclass hquote
  | dot =>
    rw [hclass] at hown
    rcases dots_cases input with ⟨d, rest, rfl⟩ | hsingle
    · exact hown .word .dash ['.', '.'] rfl rfl (by simp) (by simp) (by simp)
    · simp only
      exact hown .word .other ['.'] rfl rfl (by simp) (by simp) (by simp)
  | mark kind => exact absurd hclass (hmark kind)
  | other =>
    rw [hclass] at hown
    exact hown .word .other [c] rfl rfl (by simp) (by simp) ⟨c, by simp, hdash, hplus⟩
  | escape =>
    obtain ⟨hempty, hsteps⟩ := flush_steps hpending hword word_simple
    refine ⟨_, hsteps, fun _ token htoken => ?_⟩
    simp [gathered_kind htoken]
  | space => exact absurd hclass hspace

/-! ## Reading on -/

/-- Induction on the steps of a scanner. -/
theorem scan_induct {motive : Scanner → List Char → Prop}
    (nil : ∀ scanner, motive scanner [])
    (cons : ∀ scanner c rest, motive (scanner.step Resolver.plain c rest).1
      (scanner.step Resolver.plain c rest).2 → motive scanner (c :: rest))
    (scanner : Scanner) (input : List Char) : motive scanner input :=
  scanFrom.induct Resolver.plain motive nil cons scanner input

theorem singleton_ne_empty (c : Char) : String.singleton c ≠ "" := by
  intro hempty
  exact absurd (congrArg String.toList hempty) (by simp)

theorem flush_word (scanner : Scanner) (kind : TokenKind) :
    (scanner.flush Resolver.plain kind).word = [] := by
  unfold flush
  split
  next h => exact List.isEmpty_iff.1 h
  · rfl

/-- Behind a character of a word, and there alone, a word is being gathered. -/
theorem step_word (scanner : Scanner) (c : Char) (input : List Char) :
    (!(scanner.step Resolver.plain c input).1.word.isEmpty) = decide (CharClass.of c = .word) := by
  unfold step
  cases hclass : CharClass.of c with
  | word => rfl
  | star =>
    dsimp only
    unfold star
    split
    next h => simp [emit_plain, h]
    · split
      · simp [emit_plain, flush_word]
      · rfl
  | colon =>
    dsimp only
    split
    next h => simp [emit_plain, h]
    · rfl
  | dot =>
    dsimp only
    split
    · simp [emit_plain, flush_word]
    · simp [emit_plain, flush_word]
  | _ => simp [emit_plain, flush_word]

/-- The marks of the rest of a text, where a step leaves off. -/
theorem writtenFrom_step (d : Delimiters) (quoted : Bool) (scanner : Scanner) (c : Char)
    (rest : List Char) :
    writtenFrom d quoted (!scanner.word.isEmpty) (c :: rest) = characterMarks d quoted c rest ++
      writtenFrom d (quoted != decide (c = '"'))
        (!(scanner.step Resolver.plain c rest).1.word.isEmpty)
        (scanner.step Resolver.plain c rest).2 := by
  rw [writtenFrom_cons, step_word, step_behind]

/-- A scanner shows the marks of what it has read, of which the word being gathered is the end. -/
structure Tells (d : Delimiters) (scanner : Scanner) (opens : List TokenKind)
    (written : List Mark) : Prop where
  word : ∀ c ∈ scanner.word, CharClass.of c = .word
  outline : ∃ before, written = before ++ scanner.word.reverse.map .character ∧
    scanner.outline.Tells d opens before

theorem flush_of_empty {scanner : Scanner} (h : scanner.word = []) (kind : TokenKind) :
    scanner.flush Resolver.plain kind = scanner := by
  simp [flush, h]

/-- The text of a bracket is no sign. -/
theorem singleton_ne_sign {c : Char} {kind : TokenKind} (h : CharClass.of c = .mark kind)
    (hkind : kind ≠ .comma ∧ kind ≠ .comparison ∧ kind ≠ .operator) :
    String.singleton c ≠ "-" ∧ String.singleton c ≠ "+" := by
  have hhas := CharClass.of_has c
  rw [h] at hhas
  obtain ⟨hdash, hplus, -⟩ := ((hhas.resolve_left hkind.1).resolve_left hkind.2.1).resolve_left
    hkind.2.2
  exact Grammar.ofList_ne_sign (List.mem_singleton_self c) hdash hplus

/-- The step of a mark outside quotations. -/
theorem step_mark {scanner : Scanner} {c : Char} {kind : TokenKind}
    (hclass : CharClass.of c = .mark kind)
    (hquote : (scanner.flush Resolver.plain .word).outline.inside .doubleQuote = false)
    (rest : List Char) :
    scanner.step Resolver.plain c rest
      = (⟨(scanner.flush Resolver.plain .word).outline.place kind (String.singleton c) .normal []
          none, []⟩, rest) := by
  simp only [step, hclass, hquote, Bool.false_eq_true, if_false, emit_plain,
    flush_word scanner .word]

/-- The step of a closing bracket outside quotations. -/
theorem step_closing {scanner : Scanner} {c : Char} {kind opened : TokenKind}
    (hclass : CharClass.of c = .mark kind) (hopened : closedBy? kind = some opened)
    (hquote : (scanner.flush Resolver.plain .word).outline.inside .doubleQuote = false)
    (rest : List Char) :
    scanner.step Resolver.plain c rest
      = (⟨(scanner.flush Resolver.plain .word).outline.close opened, []⟩, rest) := by
  have hkind : kind ≠ .comma ∧ kind ≠ .comparison ∧ kind ≠ .operator := by
    refine ⟨?_, ?_, ?_⟩ <;> rintro rfl <;> simp [closedBy?] at hopened
  obtain ⟨hdash, hplus⟩ := singleton_ne_sign hclass hkind
  rw [step_mark hclass hquote, place_closing hopened hdash hplus]

/-- The step of a space. -/
theorem step_space {scanner : Scanner} {c : Char} (hclass : CharClass.of c = .space)
    (rest : List Char) :
    scanner.step Resolver.plain c rest
      = (⟨(scanner.flush Resolver.plain .word).outline.spaced, []⟩,
        rest.dropWhile (·.toNat ≤ 0x20)) := by
  simp only [step, hclass, emit_plain, place_space, flush_word scanner .word]

theorem step_quote {scanner : Scanner} {c : Char} (hclass : CharClass.of c = .doubleQuote)
    (rest : List Char) :
    scanner.step Resolver.plain c rest
      = (⟨(scanner.flush Resolver.plain .word).outline.place .doubleQuote "\"" .normal [] none, []⟩,
        rest) := by
  simp only [step, hclass, emit_plain, flush_word scanner .word]

/-! ### What has been read -/

variable {opens : List TokenKind} {written : List Mark}

theorem empty_tells (d : Delimiters) : Tells d {} [] [] :=
  ⟨by simp, [], rfl, Outline.empty_tells d⟩

namespace Tells

theorem pending (h : Tells d scanner opens written) : scanner.outline.pending = [] := by
  obtain ⟨before, -, houtline⟩ := h.outline
  exact houtline.orderly.pending

/-- A step that places simple tokens. -/
theorem steps (h : Tells d scanner opens written) {scanner' : Scanner} {tokens : List Token}
    {marks : List Mark} (hsteps : Steps scanner scanner' tokens marks) :
    Tells d scanner' opens (written ++ marks) := by
  obtain ⟨before, rfl, houtline⟩ := h.outline
  refine ⟨hsteps.word, before ++ tokenMarks tokens, ?_, houtline.placedAll hsteps.placed⟩
  rw [List.append_assoc, hsteps.marks, List.append_assoc]

/-- The word being gathered is placed. -/
theorem flush (h : Tells d scanner opens written) :
    (scanner.flush Resolver.plain .word).outline.Tells d opens written := by
  obtain ⟨hempty, hsteps⟩ := flush_steps h.pending h.word word_simple
  obtain ⟨before, hwritten, houtline⟩ := (h.steps hsteps).outline
  rw [hempty] at hwritten
  obtain rfl : written = before := by simpa using hwritten
  exact houtline

/-- An outline without a word being gathered. -/
theorem of_outline {outline : Outline} (h : outline.Tells d opens written) :
    Tells d ⟨outline, []⟩ opens written :=
  ⟨by simp, written, by simp, h⟩

end Tells

/-- Whether reading meets no character that hinders it. -/
def clear (hinders : Scanner → Char → List Char → Bool) (scanner : Scanner)
    (input : List Char) : Bool :=
  match input with
  | [] => true
  | c :: rest =>
    !hinders scanner c rest &&
      clear hinders (scanner.step Resolver.plain c rest).1 (scanner.step Resolver.plain c rest).2
termination_by input.length
decreasing_by exact Nat.lt_succ_of_le (step_length Resolver.plain scanner c rest)

theorem clear_cons {hinders : Scanner → Char → List Char → Bool} {rest : List Char} :
    clear hinders scanner (c :: rest) = true ↔ hinders scanner c rest = false ∧
      clear hinders (scanner.step Resolver.plain c rest).1
        (scanner.step Resolver.plain c rest).2 = true := by
  rw [clear]
  simp

end Scanner

end InvertedIndex
