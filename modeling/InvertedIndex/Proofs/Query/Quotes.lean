import InvertedIndex.Proofs.Query.Quoting

/-!
# `Proofs.Query.Quotes` — quotations and braces end where they are closed

Whether a character stands in a quotation, or in braces, is not stored: the tail and all its
ancestors are asked for their kinds. The tail may be a group that has just been closed, so that a
quotation or a brace still counts for the character behind it. Apart from that the answer is right:
quotation marks pair up from left to right, and braces count until they are closed.

So reading a query agrees with a reading that keeps count of the quotation marks, and asks for
braces only among the groups that the next token would go into. Where no bracket misses its group,
these are the braces that the text leaves open, so that a reading which matches the brackets of the
text agrees as well. The tree has a quotation for each pair of marks, with the text between them.

## Contents
- `Scanner.stepCounting`, `scanCounting`: reading that keeps count of the quotation marks;
- `Scanner.bracketsBehind`, `scanMatching`: reading that matches brackets as well;
- `Scanner.misled`: the characters for which a group that is closed still counts;
- `Scanner.Fades`: a quotation that nothing is read into any more;
- `Scanner.Quotations`: what a scanner keeps; `Quotations.step`: one character;
- `Quotations.opens_step`: the brackets open behind one character;
- `quotes_pair`: whole queries; `mark_misread`: a bracket behind a quotation.
-/

namespace InvertedIndex

/-! ## Reading that keeps count -/

namespace Scanner

/-- A star, given whether it stands in braces. -/
def starInside (braced : Bool) (scanner : Scanner) : Scanner :=
  if scanner.word.isEmpty then scanner.emit Resolver.plain .operator "*"
  else if braced then
    (scanner.flush Resolver.plain .modifier).emit Resolver.plain .operator "*"
  else
    { scanner with word := [] }.emit Resolver.plain .modifier
      (String.ofList ('*' :: scanner.word).reverse)

/-- Reads a character, given whether it stands behind an odd number of quotation marks and whether
    it stands in braces. -/
def stepCounting (quoted braced : Bool) (scanner : Scanner) (c : Char) (input : List Char) :
    Scanner × List Char :=
  match CharClass.of c with
  | .mark kind =>
    ((scanner.flush Resolver.plain .word).emit Resolver.plain (if quoted then .other else kind)
      (String.singleton c), input)
  | .star => (scanner.starInside braced, input)
  | _ => scanner.step Resolver.plain c input

theorem stepCounting_suffix (quoted braced : Bool) (scanner : Scanner) (c : Char)
    (input : List Char) : (scanner.stepCounting quoted braced c input).2 <:+ input := by
  unfold stepCounting
  split
  · exact List.suffix_rfl
  · exact List.suffix_rfl
  · rw [step_behind]
    exact behind_suffix _ c input

/-- Reads an input, of which an odd number of quotation marks has been read or not, and asks for
    braces among the groups that the next token would go into. -/
def scanCounting (quoted : Bool) (scanner : Scanner) (input : List Char) : Scanner :=
  match input with
  | [] => scanner.flush Resolver.plain .word
  | c :: rest =>
    let next := scanner.stepCounting quoted (scanner.outline.encloses .openBrace) c rest
    scanCounting (quoted != decide (c = '"')) next.1 next.2
termination_by input.length
decreasing_by exact Nat.lt_succ_of_le (stepCounting_suffix quoted _ scanner c rest).length_le

/-- The brackets of a text that are open behind a character, from the inside out. One that closes the
    innermost is of its kind, and any other counts for nothing. -/
def bracketsBehind (quoted : Bool) (opens : List TokenKind) (c : Char) : List TokenKind :=
  match CharClass.of c with
  | .mark kind =>
    if quoted then opens
    else
      match closedBy? kind with
      | some opened => if opens.head? = some opened then opens.tail else opens
      | none => if Delimiters.brackets.has kind then kind :: opens else opens
  | _ => opens

/-- Reads an input, of which an odd number of quotation marks has been read or not, and in which just
    these brackets are open. -/
def scanMatching (quoted : Bool) (opens : List TokenKind) (scanner : Scanner)
    (input : List Char) : Scanner :=
  match input with
  | [] => scanner.flush Resolver.plain .word
  | c :: rest =>
    let next := scanner.stepCounting quoted (opens.contains .openBrace) c rest
    scanMatching (quoted != decide (c = '"')) (bracketsBehind quoted opens c) next.1 next.2
termination_by input.length
decreasing_by exact Nat.lt_succ_of_le (stepCounting_suffix quoted _ scanner c rest).length_le

/-- Only a star asks for braces. -/
theorem stepCounting_braced {c : Char} (h : CharClass.of c ≠ .star) (quoted braced braced' : Bool)
    (scanner : Scanner) (input : List Char) :
    scanner.stepCounting quoted braced c input = scanner.stepCounting quoted braced' c input := by
  unfold stepCounting
  split
  · rfl
  next hclass => exact absurd hclass h
  · rfl

/-- Without a star it makes no difference which brackets are open. -/
theorem scanMatching_eq {quoted : Bool} {opens : List TokenKind} {scanner : Scanner}
    {input : List Char} (h : ∀ c ∈ input, CharClass.of c ≠ .star) :
    scanMatching quoted opens scanner input = scanCounting quoted scanner input := by
  fun_induction scanMatching quoted opens scanner input with
  | case1 => rw [scanCounting]
  | case2 quoted opens scanner c rest next ih =>
    obtain ⟨hc, hrest⟩ := List.forall_mem_cons.1 h
    have hnext : next = scanner.stepCounting quoted (scanner.outline.encloses .openBrace) c rest :=
      stepCounting_braced hc _ _ _ _ _
    have hleft : next.2 <:+ rest := stepCounting_suffix _ _ scanner c rest
    rw [ih fun d hd => hrest d (hleft.subset hd), scanCounting, hnext]

/-- Without a mark and a star it makes no difference which quotation marks have been read. -/
theorem scanCounting_eq {quoted : Bool} {scanner : Scanner} {input : List Char}
    (hstar : ∀ c ∈ input, CharClass.of c ≠ .star)
    (hmark : ∀ c ∈ input, ∀ kind, CharClass.of c ≠ .mark kind) :
    scanCounting quoted scanner input = scanFrom Resolver.plain scanner input := by
  fun_induction scanCounting quoted scanner input with
  | case1 => rw [scanFrom_nil]
  | case2 quoted scanner c rest next ih =>
    obtain ⟨hc, hrest⟩ := List.forall_mem_cons.1 hstar
    obtain ⟨hc', hrest'⟩ := List.forall_mem_cons.1 hmark
    have hnext : next = scanner.step Resolver.plain c rest := by
      unfold next stepCounting
      split
      next kind hclass => exact absurd hclass (hc' kind)
      next hclass => exact absurd hclass hc
      · rfl
    have hleft : next.2 <:+ rest := stepCounting_suffix _ _ scanner c rest
    rw [ih (fun d hd => hrest d (hleft.subset hd)) fun d hd => hrest' d (hleft.subset hd),
      scanFrom_cons, hnext]

/-- Whether an input has nothing but white space. -/
def blank (input : List Char) : Bool := input.all fun c => CharClass.of c = .space

/-- Whether a character is taken to stand in a group that is closed, or to open or close another
    than its own: a mark behind a quotation, a star behind braces and a word, and, unless nothing
    else follows, the second of two quotation marks with nothing between and a space behind a
    quotation mark that is an operand. -/
def misled (scanner : Scanner) (c : Char) (rest : List Char) : Bool :=
  let outline := (scanner.flush Resolver.plain .word).outline
  match CharClass.of c with
  | .mark _ => outline.justClosed .doubleQuote
  | .star =>
    !scanner.word.isEmpty && scanner.outline.justClosed .openBrace &&
      !scanner.outline.encloses .openBrace
  | .doubleQuote => outline.tail?.any Delimiters.quotes.opened && !blank rest
  | .space =>
    outline.tail?.any Delimiters.quotes.opened && outline.parent?.any Outline.isEquation &&
      !blank rest
  | _ => false

/-- Whether a character outside quotations misses the group that it opens or closes. -/
def mislaidUnquoted (scanner : Scanner) (c : Char) (rest : List Char) : Bool :=
  !scanner.outline.encloses .doubleQuote && scanner.mislaid c rest

/-! ### Where nothing follows that counts -/

/-- Characters that add nothing have no star among them, -/
theorem no_star_of_idle {scanner : Scanner} {input : List Char}
    (hidle : clear adds scanner input = true) : ∀ c ∈ input, CharClass.of c ≠ .star := by
  induction scanner, input using scan_induct with
  | nil scanner => simp
  | cons scanner c rest ih =>
    obtain ⟨hadds, hidle⟩ := clear_cons.1 hidle
    have hleft := ih hidle
    rw [step_behind] at hleft
    unfold adds at hadds
    split at hadds
    next hclass =>
      -- What a space takes along is white space.
      refine List.forall_mem_cons.2 ⟨by simp [hclass], fun d hd hstar => ?_⟩
      have hvisible : 0x20 < d.toNat := CharClass.visible (by simp [hstar])
      rw [← List.takeWhile_append_dropWhile (p := fun d => d.toNat ≤ 0x20) (l := rest)] at hd
      rcases List.mem_append.1 hd with htaken | hbehind
      · have hsmall := List.mem_takeWhile_imp htaken
        exact absurd hvisible (Nat.not_lt.2 (of_decide_eq_true hsmall))
      · simp only [behind, hclass] at hleft
        exact hleft d hbehind hstar
    next kind hclass =>
      simp only [behind, hclass] at hleft
      exact List.forall_mem_cons.2 ⟨by simp [hclass], hleft⟩
    · exact absurd hadds (by simp)

/-- nor have the bracket and what follows it if nothing more is added. -/
theorem Trails.no_star {scanner : Scanner} {c : Char} {rest : List Char} {opened : TokenKind}
    (h : scanner.Trails c rest opened) : ∀ d ∈ c :: rest, CharClass.of d ≠ .star := by
  obtain ⟨kind, hclass, -⟩ := h.closing
  exact List.forall_mem_cons.2 ⟨by simp [hclass], no_star_of_idle h.idle⟩

theorem blank_iff {input : List Char} :
    blank input = true ↔ ∀ c ∈ input, CharClass.of c = .space := by
  simp [blank]

theorem blank_behind {inWord : Bool} {c : Char} {rest : List Char} (h : blank rest = true) :
    blank (behind inWord c rest) = true := by
  rw [blank_iff] at h ⊢
  exact fun d hd => h d ((behind_suffix inWord c rest).subset hd)

theorem writtenFrom_blank {d : Delimiters} {quoted inWord : Bool} {input : List Char}
    (h : blank input = true) : writtenFrom d quoted inWord input = [] := by
  fun_induction writtenFrom d quoted inWord input with
  | case1 => rfl
  | case2 quoted inWord c rest ih =>
    obtain ⟨hc, hrest⟩ := List.forall_mem_cons.1 (blank_iff.1 h)
    rw [ih (blank_behind (blank_iff.2 hrest)), List.append_nil]
    simp [characterMarks, hc]

/-- White space leaves the tree as it would be finished. -/
theorem roots_blank {scanner : Scanner} {input : List Char} (h : blank input = true) :
    (scanFrom Resolver.plain scanner input).outline.roots
      = (scanner.flush Resolver.plain .word).outline.roots := by
  induction scanner, input using scan_induct with
  | nil scanner => rw [scanFrom_nil]
  | cons scanner c rest ih =>
    obtain ⟨hc, hrest⟩ := List.forall_mem_cons.1 (blank_iff.1 h)
    have hleft : blank (scanner.step Resolver.plain c rest).2 = true := by
      rw [step_behind]
      exact blank_behind (blank_iff.2 hrest)
    rw [scanFrom_cons, ih hleft, step_space hc, flush_of_empty rfl]
    exact Outline.roots_spaced _

/-- A quotation mark or white space right behind a quotation mark, after which there is nothing but
    white space. -/
structure Fades (scanner : Scanner) (c : Char) (rest : List Char) : Prop where
  character : CharClass.of c = .doubleQuote ∨ CharClass.of c = .space
  fresh : (scanner.flush Resolver.plain .word).outline.tail?.any Delimiters.quotes.opened = true
  blank : blank rest = true

namespace Fades

variable {scanner : Scanner} {c : Char} {rest : List Char}

/-- No mark and no star follows. -/
theorem classes (h : scanner.Fades c rest) :
    ∀ d ∈ c :: rest, CharClass.of d = .doubleQuote ∨ CharClass.of d = .space :=
  List.forall_mem_cons.2 ⟨h.character, fun d hd => .inr (blank_iff.1 h.blank d hd)⟩

theorem no_star (h : scanner.Fades c rest) : ∀ d ∈ c :: rest, CharClass.of d ≠ .star := by
  intro d hd hstar
  rcases h.classes d hd with hclass | hclass <;> simp [hclass] at hstar

theorem no_mark (h : scanner.Fades c rest) :
    ∀ d ∈ c :: rest, ∀ kind, CharClass.of d ≠ .mark kind := by
  intro d hd kind hmark
  rcases h.classes d hd with hclass | hclass <;> simp [hclass] at hmark

/-- The tree is left as it would be finished. -/
theorem roots_eq (h : scanner.Fades c rest) :
    (scanFrom Resolver.plain scanner (c :: rest)).outline.roots
      = (scanner.flush Resolver.plain .word).outline.roots := by
  rw [scanFrom_cons, step_behind, roots_blank (blank_behind h.blank)]
  rcases h.character with hclass | hclass
  · rw [step_quote hclass, flush_of_empty rfl]
    exact Outline.roots_quote h.fresh
  · rw [step_space hclass, flush_of_empty rfl]
    exact Outline.roots_spaced _

end Fades

end Scanner

/-! ## Scanners -/

namespace Scanner

open Outline

/-- A scanner shows the quotations that it has read, and is in one if an odd number of quotation
    marks has been read. -/
structure Quotations (quoted : Bool) (scanner : Scanner) (written : List Mark) : Prop where
  tells : scanner.Tells .quotes (if quoted then [.doubleQuote] else []) written
  colon : scanner.outline.inside .colon = false
  near : quoted = true → ∃ before, written = before ++ scanner.word.reverse.map .character ∧
    scanner.outline.Quoting before

/-- A character takes no quotation mark along, apart from names and backslashes. -/
theorem count_behind {c : Char} (hcolon : c ≠ ':') (hescape : c ≠ '\\') (rest : List Char)
    {inWord : Bool} : (behind inWord c rest).count '"' = rest.count '"' := by
  have hhas := CharClass.of_has c
  unfold behind
  split
  next hclass =>
    rw [hclass] at hhas
    exact absurd hhas hcolon
  next kind hclass =>
    rw [hclass] at hhas
    have hc : c ≠ '"' := by
      rintro rfl
      rcases hhas with ⟨hc, -⟩ | ⟨hc, -⟩ <;> exact absurd hc (by decide)
    unfold dropSame
    split
    next d rest =>
      split
      next hd => rw [hd, List.count_cons_of_ne hc]
      · rfl
    · rfl
  · split
    next d rest => exact (List.count_cons_of_ne (by decide)).symm
    · rfl
  next hclass =>
    rw [hclass] at hhas
    exact absurd hhas hescape
  · have hdropped : (rest.takeWhile fun d : Char => d.toNat ≤ 0x20).count '"' = 0 := by
      refine List.count_eq_zero.2 fun hmem => ?_
      exact absurd (List.mem_takeWhile_imp hmem) (by decide)
    conv => rhs; rw [← List.takeWhile_append_dropWhile (l := rest) (p := fun d => d.toNat ≤ 0x20)]
    rw [List.count_append, hdropped, Nat.zero_add]
  · rfl

namespace Quotations

variable {quoted : Bool} {scanner : Scanner} {written : List Mark} {c : Char} {rest : List Char}

theorem empty_quotations : Quotations false {} [] :=
  ⟨Scanner.empty_tells .quotes, rfl, by simp⟩

theorem of_outline {outline : Outline}
    (h : outline.Tells .quotes (if quoted then [.doubleQuote] else []) written)
    (hcolon : outline.inside .colon = false) (hnear : quoted = true → outline.Quoting written) :
    Quotations quoted ⟨outline, []⟩ written :=
  ⟨Scanner.Tells.of_outline h, hcolon, fun hquoted => ⟨written, by simp, hnear hquoted⟩⟩

/-- A step that places simple tokens. -/
theorem steps (h : Quotations quoted scanner written) {scanner' : Scanner} {tokens : List Token}
    {marks : List Mark} (hsteps : Steps scanner scanner' tokens marks)
    (hkinds : ∀ token ∈ tokens, token.kind ≠ .colon) :
    Quotations quoted scanner' (written ++ marks) := by
  refine ⟨h.tells.steps hsteps, inside_placedAll hsteps.placed hkinds (by simp) h.colon, ?_⟩
  intro hquoted
  obtain ⟨before, rfl, hquoting⟩ := h.near hquoted
  refine ⟨before ++ tokenMarks tokens, ?_, hquoting.placedAll h.colon hsteps.placed hkinds⟩
  rw [List.append_assoc, hsteps.marks, List.append_assoc]

/-- The outline once the word being gathered is placed. -/
theorem flush (h : Quotations quoted scanner written) :
    (scanner.flush Resolver.plain .word).outline.Tells .quotes
        (if quoted then [.doubleQuote] else []) written ∧
      (scanner.flush Resolver.plain .word).outline.inside .colon = false ∧
      (quoted = true → (scanner.flush Resolver.plain .word).outline.Quoting written) := by
  obtain ⟨hempty, hsteps⟩ := flush_steps h.tells.pending h.tells.word word_simple
  have hkinds : ∀ token ∈ scanner.gathered .word, token.kind ≠ .colon := by
    intro token htoken
    simp [gathered_kind htoken]
  have hflush := h.steps hsteps hkinds
  refine ⟨h.tells.flush, hflush.colon, fun hquoted => ?_⟩
  obtain ⟨before, hwritten, hquoting⟩ := hflush.near hquoted
  obtain rfl : written = before := by simpa [hempty] using hwritten
  exact hquoting

/-! ### One character -/

/-- A quotation mark that is not misled has something before it in its quotation, or is the end. -/
theorem quote_cases (hclass : CharClass.of c = .doubleQuote)
    (hclear : misled scanner c rest = false) :
    (scanner.flush Resolver.plain .word).outline.tail?.any Delimiters.quotes.opened = false ∨
      scanner.Fades c rest := by
  cases hfresh : (scanner.flush Resolver.plain .word).outline.tail?.any Delimiters.quotes.opened with
  | false => exact .inl rfl
  | true => exact .inr ⟨.inl hclass, hfresh, by simpa [misled, hclass, hfresh] using hclear⟩

theorem space_cases (hclass : CharClass.of c = .space) (hclear : misled scanner c rest = false) :
    (scanner.flush Resolver.plain .word).outline.tail?.any Delimiters.quotes.opened = false ∨
      (scanner.flush Resolver.plain .word).outline.parent?.any isEquation = false ∨
      scanner.Fades c rest := by
  simp only [misled, hclass, Bool.and_eq_false_iff] at hclear
  rcases hclear with (hfresh | hequation) | hblank
  · exact .inl hfresh
  · exact .inr (.inl hequation)
  · cases hfresh : (scanner.flush Resolver.plain .word).outline.tail?.any
      Delimiters.quotes.opened with
    | false => exact .inl rfl
    | true => exact .inr (.inr ⟨.inr hclass, hfresh, by simpa using hblank⟩)

/-- A mark is taken to stand in a quotation if it does. -/
theorem inside_quotation (h : Quotations quoted scanner written) {kind : TokenKind}
    (hclass : CharClass.of c = .mark kind) (hclear : misled scanner c rest = false) :
    (scanner.flush Resolver.plain .word).outline.inside .doubleQuote = quoted := by
  have hclosed : (scanner.flush Resolver.plain .word).outline.justClosed .doubleQuote = false := by
    simpa [misled, hclass] using hclear
  rw [inside_eq, hclosed, Bool.or_false, h.flush.1.encloses_quote]

/-- A star is taken to stand in braces if it does. -/
theorem star_eq (hclass : CharClass.of c = .star) (hclear : misled scanner c rest = false) :
    scanner.star Resolver.plain = scanner.starInside (scanner.outline.encloses .openBrace) := by
  cases hempty : scanner.word.isEmpty with
  | true => simp [star, starInside, hempty]
  | false =>
    have hinside : scanner.outline.inside .openBrace = scanner.outline.encloses .openBrace := by
      rw [inside_eq]
      simp only [misled, hclass, hempty] at hclear
      cases hencloses : scanner.outline.encloses .openBrace with
      | true => rfl
      | false => simpa [hencloses] using hclear
    simp only [star, starInside, hinside]

theorem space_step (h : Quotations quoted scanner written) (hclass : CharClass.of c = .space)
    (hclear :
      (scanner.flush Resolver.plain .word).outline.tail?.any Delimiters.quotes.opened = false ∨
        (scanner.flush Resolver.plain .word).outline.parent?.any isEquation = false) :
    Quotations quoted (scanner.step Resolver.plain c rest).1 written := by
  obtain ⟨htells, hcolon, hnear⟩ := h.flush
  rw [step_space hclass]
  refine of_outline (htells.space fun hequation => ?_) ?_ fun hquoted => ?_
  · exact hclear.resolve_right (by simp [hequation])
  · unfold spaced
    split
    · exact inside_leave hcolon
    · exact hcolon
  · have hstays : (scanner.flush Resolver.plain .word).outline.parent?.any isEquation = false := by
      cases hnear hquoted with
      | opened hspine hquote _ hchildless =>
        refine hclear.resolve_left ?_
        simp [tail?_eq hspine, Delimiters.opened, Delimiters.quotes, hquote, hchildless]
      | within hspine hquote _ _ => simp [parent?_eq hspine, isEquation, hquote]
    rw [spaced, if_neg (by simp [hstays])]
    exact hnear hquoted

theorem characterMarks_quote (hclass : CharClass.of c = .doubleQuote) :
    characterMarks .quotes quoted c rest
      = [if quoted then .closing .doubleQuote else .opening .doubleQuote] := by
  cases quoted <;> simp [characterMarks, hclass, Delimiters.quotes, Delimiters.startMarks]

theorem quote_step (h : Quotations quoted scanner written) (hclass : CharClass.of c = .doubleQuote)
    (hfilled : (scanner.flush Resolver.plain .word).outline.tail?.any Delimiters.quotes.opened
      = false) :
    Quotations (!quoted) (scanner.step Resolver.plain c rest).1
      (written ++ characterMarks .quotes quoted c rest) := by
  obtain ⟨htells, hcolon, hnear⟩ := h.flush
  rw [step_quote hclass]
  cases quoted with
  | true =>
    rw [characterMarks_quote hclass]
    obtain ⟨htells', hcolon'⟩ := htells.unquote (hnear rfl) hfilled hcolon
    exact of_outline htells' hcolon' (by simp)
  | false =>
    rw [characterMarks_quote hclass]
    obtain ⟨htells', hquoting, hcolon'⟩ := htells.quote hcolon
    exact of_outline htells' hcolon' fun _ => hquoting

/-- The kinds of marks. -/
theorem mark_kind {kind : TokenKind} (hclass : CharClass.of c = .mark kind)
    (hopen : closedBy? kind = none) :
    steers kind = false ∧ kind ≠ .null ∧ kind ≠ .colon ∧ Delimiters.quotes.has kind = false := by
  have hhas := CharClass.of_has c
  rw [hclass] at hhas
  rcases hhas with rfl | rfl | rfl | ⟨-, -, hkind⟩
  · simp [steers, Delimiters.quotes]
  · simp [steers, Delimiters.quotes]
  · simp [steers, Delimiters.quotes]
  · rcases hkind with rfl | rfl | rfl | rfl | rfl | rfl <;>
      simp_all [steers, Delimiters.quotes, closedBy?]

/-- A mark is text of the quotation that it stands in. -/
theorem quoted_steps (h : Quotations true scanner written) {kind : TokenKind}
    (hclass : CharClass.of c = .mark kind) (hclear : misled scanner c rest = false) :
    Steps scanner (scanner.step Resolver.plain c rest).1
      (scanner.gathered .word ++ [{ kind := .other, text := String.singleton c }])
      (textMarks .other (String.singleton c)) := by
  have hinside := h.inside_quotation hclass hclear
  have hsimple : Simple { kind := .other, text := String.singleton c } :=
    ⟨rfl, singleton_ne_empty c, rfl⟩
  have hstep : (scanner.step Resolver.plain c rest).1
      = (scanner.flush Resolver.plain .word).emit Resolver.plain .other (String.singleton c) := by
    simp only [Scanner.step, hclass, hinside, if_true]
  rw [hstep]
  exact emit_steps h.tells.pending h.tells.word word_simple hsimple

theorem mark_step (h : Quotations quoted scanner written) {kind : TokenKind}
    (hclass : CharClass.of c = .mark kind) (hclear : misled scanner c rest = false) :
    Quotations quoted (scanner.step Resolver.plain c rest).1
      (written ++ characterMarks .quotes quoted c rest) := by
  obtain ⟨htells, hcolon, -⟩ := h.flush
  have hinside := h.inside_quotation hclass hclear
  have htext := singleton_ne_empty c
  cases quoted with
  | true =>
    have hmarks : characterMarks .quotes true c rest = textMarks .other (String.singleton c) := by
      simp [characterMarks, hclass]
    rw [hmarks]
    refine h.steps (h.quoted_steps hclass hclear) fun token htoken => ?_
    rcases List.mem_append.1 htoken with hgathered | hmark
    · simp [gathered_kind hgathered]
    · obtain rfl := List.mem_singleton.1 hmark
      simp
  | false =>
    cases hclosed : closedBy? kind with
    | some opened =>
      have hnone : Delimiters.quotes.has opened = false := by
        rcases of_decide_eq_true (closedBy?_bracket hclosed).1 with rfl | rfl | rfl <;> rfl
      have hmarks : characterMarks .quotes false c rest = [] := by
        simp [characterMarks, hclass, hclosed, Delimiters.endMarks, hnone]
      rw [step_closing hclass hclosed hinside, hmarks, List.append_nil]
      exact of_outline (htells.close_bracket hnone) (inside_close opened hcolon) (by simp)
    | none =>
      obtain ⟨hsteers, hnull, hkind, hhas⟩ := mark_kind hclass hclosed
      have hplaced := placed_place htells.orderly.pending hsteers (String.singleton c) []
      have hmarks : characterMarks .quotes false c rest = textMarks kind (String.singleton c) := by
        simp [characterMarks, hclass, hclosed, Delimiters.startMarks, hhas]
      rw [step_mark hclass hinside, hmarks]
      exact of_outline (htells.placed hplaced rfl htext hnull hhas)
        (inside_placed hplaced hkind (by simp) hcolon) (by simp)

/-- **One character** keeps quotations and quotation marks together, unless it is the end. -/
theorem step (h : Quotations quoted scanner written) (hcolon : c ≠ ':')
    (hclear : misled scanner c rest = false) :
    Quotations (quoted != decide (c = '"')) (scanner.step Resolver.plain c rest).1
        (written ++ characterMarks .quotes quoted c rest) ∨ scanner.Fades c rest := by
  have hhas := CharClass.of_has c
  by_cases hquote : CharClass.of c = .doubleQuote
  · rw [hquote] at hhas
    have hflip : (quoted != decide (c = '"')) = !quoted := by
      simp [show c = '"' from hhas]
    rw [hflip]
    exact (quote_cases hquote hclear).imp_left (h.quote_step hquote)
  have hsame : (quoted != decide (c = '"')) = quoted := by
    have hc : c ≠ '"' := by
      rintro rfl
      exact hquote (by decide)
    simp [hc]
  rw [hsame]
  by_cases hspace : CharClass.of c = .space
  · have hmarks : characterMarks .quotes quoted c rest = [] := by simp [characterMarks, hspace]
    rw [hmarks, List.append_nil]
    exact (or_assoc.2 (space_cases hspace hclear)).imp_left (h.space_step hspace)
  left
  by_cases hmark : ∀ kind, CharClass.of c ≠ .mark kind
  · have hnotColon : CharClass.of c ≠ .colon := by
      intro hclass
      rw [hclass] at hhas
      exact hcolon hhas
    obtain ⟨tokens, hsteps, hkinds⟩ := step_steps h.tells.pending h.tells.word hmark hquote hspace
      .quotes quoted rest
    exact h.steps hsteps (hkinds hnotColon)
  · push Not at hmark
    obtain ⟨kind, hclass⟩ := hmark
    exact h.mark_step hclass hclear

/-- **One character** is read as the count of quotation marks has it. -/
theorem step_eq (h : Quotations quoted scanner written) (hclear : misled scanner c rest = false) :
    scanner.step Resolver.plain c rest
      = scanner.stepCounting quoted (scanner.outline.encloses .openBrace) c rest := by
  unfold stepCounting
  split
  next kind hclass => simp only [Scanner.step, hclass, h.inside_quotation hclass hclear]
  next hclass => simp only [Scanner.step, hclass, star_eq hclass hclear]
  · rfl

/-! ### Brackets outside quotations -/

variable {opens : List TokenKind} {marks : List Mark}

theorem encloses (h : Quotations quoted scanner written) :
    scanner.outline.encloses .doubleQuote = quoted := by
  obtain ⟨before, -, houtline⟩ := h.tells.outline
  exact houtline.encloses_quote

theorem not_mislaid (h : Quotations false scanner written)
    (hmislaid : mislaidUnquoted scanner c rest = false) : mislaid scanner c rest = false := by
  simpa [mislaidUnquoted, h.encloses] using hmislaid

theorem bracketsBehind_eq (hmark : ∀ kind, CharClass.of c ≠ .mark kind) :
    bracketsBehind quoted opens c = opens := by
  unfold bracketsBehind
  split
  next kind hclass => exact absurd hclass (hmark kind)
  · rfl

/-- A space leaves the brackets that are open open, -/
theorem opens_space (h : Quotations quoted scanner written)
    (hopens : scanner.Tells .brackets opens marks) (hclass : CharClass.of c = .space)
    (hmislaid : mislaidUnquoted scanner c rest = false) :
    (scanner.step Resolver.plain c rest).1.Tells .brackets opens marks := by
  rw [step_space hclass]
  refine Scanner.Tells.of_outline (hopens.flush.space fun hequation => ?_)
  cases quoted with
  | true => exact (h.flush.2.2 rfl).not_justOpened
  | false =>
    have hclear := h.not_mislaid hmislaid
    simp only [mislaid, hclass, Bool.and_eq_false_iff] at hclear
    exact hclear.resolve_right (by simp [hequation])

/-- and so does a quotation mark. -/
theorem opens_quote (h : Quotations quoted scanner written)
    (hopens : scanner.Tells .brackets opens marks) (hclass : CharClass.of c = .doubleQuote)
    (hfilled : (scanner.flush Resolver.plain .word).outline.tail?.any Delimiters.quotes.opened
      = false) :
    ∃ marks, (scanner.step Resolver.plain c rest).1.Tells .brackets opens marks := by
  obtain ⟨htells, -, hnear⟩ := h.flush
  rw [step_quote hclass]
  cases quoted with
  | true =>
    obtain ⟨hplace, level, parent, outer, hspine, hquote, hgroup⟩ :=
      (hnear rfl).place_quote hfilled
    have hopened : Delimiters.brackets.opened level.last = false := by
      simpa [justOpened, tail?_eq hspine] using (hnear rfl).not_justOpened
    have hnone : Delimiters.brackets.has parent.last.kind = false := by
      rw [hquote]
      rfl
    have hrest := opens_leave hspine hopened
    rw [hopens.flush.opens, hnone, if_neg (by simp), List.nil_append] at hrest
    have hleft := hopens.flush.left hspine hopened
    rw [← hrest, ← hplace] at hleft
    exact ⟨_, Scanner.Tells.of_outline hleft⟩
  | false =>
    rw [htells.place_quote]
    exact ⟨_, Scanner.Tells.of_outline (hopens.flush.added rfl (by decide) (by simp) rfl)⟩

/-- A mark outside quotations opens and closes brackets as the text has it, or adds nothing together
    with what follows. -/
theorem opens_mark (h : Quotations false scanner written)
    (hopens : scanner.Tells .brackets opens marks) {kind : TokenKind}
    (hclass : CharClass.of c = .mark kind) (hclear : misled scanner c rest = false)
    (hmislaid : mislaid scanner c rest = false) :
    (∃ marks, (scanner.step Resolver.plain c rest).1.Tells .brackets
        (bracketsBehind false opens c) marks) ∨ ∀ d ∈ c :: rest, CharClass.of d ≠ .star := by
  have hinside := h.inside_quotation hclass hclear
  cases hclosed : closedBy? kind with
  | some opened =>
    have hbehind : bracketsBehind false opens c
        = if opens.head? = some opened then opens.tail else opens := by
      simp only [bracketsBehind, hclass, hclosed, Bool.false_eq_true, if_false]
    have hempty := not_mislaid_closing hclass hclosed hmislaid
    rw [hbehind, step_closing hclass hclosed hinside]
    by_cases hinnermost : opens.head? = some opened
    · obtain ⟨inner, rfl⟩ := List.head?_eq_some_iff.1 hinnermost
      refine (closing_cases hclass hclosed hmislaid).imp (fun hequation => ?_) Trails.no_star
      rw [if_pos hinnermost]
      exact ⟨_, Scanner.Tells.of_outline (hopens.flush.close hinside hempty hequation)⟩
    · left
      have hhas := (closedBy?_bracket hclosed).1
      rw [if_neg hinnermost, hopens.flush.close_other hhas hinnermost hempty]
      exact ⟨_, Scanner.Tells.of_outline hopens.flush⟩
  | none =>
    left
    have hbehind : bracketsBehind false opens c
        = if Delimiters.brackets.has kind then kind :: opens else opens := by
      simp only [bracketsBehind, hclass, hclosed, Bool.false_eq_true, if_false]
    rw [hbehind, step_mark hclass hinside]
    cases hhas : Delimiters.brackets.has kind with
    | true =>
      have hawaits := awaits_eq_false h.flush.2.1
      exact ⟨_, Scanner.Tells.of_outline (hopens.flush.opening hclass hhas hawaits)⟩
    | false => exact ⟨_, Scanner.Tells.of_outline (hopens.flush.sign hclass hclosed hhas)⟩

/-- **One character** opens and closes brackets as the text has it, unless nothing that asks for them
    follows. -/
theorem opens_step (h : Quotations quoted scanner written)
    (hopens : scanner.Tells .brackets opens marks) (hclear : misled scanner c rest = false)
    (hmislaid : mislaidUnquoted scanner c rest = false) :
    (∃ marks, (scanner.step Resolver.plain c rest).1.Tells .brackets
        (bracketsBehind quoted opens c) marks) ∨ ∀ d ∈ c :: rest, CharClass.of d ≠ .star := by
  by_cases hmark : ∀ kind, CharClass.of c ≠ .mark kind
  · rw [bracketsBehind_eq hmark]
    by_cases hquote : CharClass.of c = .doubleQuote
    · exact (quote_cases hquote hclear).imp (h.opens_quote hopens hquote) Fades.no_star
    left
    by_cases hspace : CharClass.of c = .space
    · exact ⟨marks, h.opens_space hopens hspace hmislaid⟩
    obtain ⟨tokens, hsteps, -⟩ := step_steps hopens.pending hopens.word hmark hquote hspace
      .brackets quoted rest
    exact ⟨_, hopens.steps hsteps⟩
  · push Not at hmark
    obtain ⟨kind, hclass⟩ := hmark
    cases quoted with
    | true =>
      left
      have hsame : bracketsBehind true opens c = opens := by simp [bracketsBehind, hclass]
      rw [hsame]
      exact ⟨_, hopens.steps (h.quoted_steps hclass hclear)⟩
    | false => exact h.opens_mark hopens hclass hclear (h.not_mislaid hmislaid)

/-! ### Whole texts -/

/-- Whether an odd number of quotation marks has been read, once some more characters are. -/
theorem odd_cons (quoted : Bool) (c : Char) (rest : List Char) :
    ((quoted != decide (c = '"')) != decide (rest.count '"' % 2 = 1))
      = (quoted != decide ((c :: rest).count '"' % 2 = 1)) := by
  by_cases hc : c = '"'
  · subst hc
    have hflip : decide ((rest.count '"' + 1) % 2 = 1) = !decide (rest.count '"' % 2 = 1) := by
      rw [← decide_not]
      exact decide_eq_decide.2 (by omega)
    rw [List.count_cons_self, hflip]
    cases quoted <;> simp
  · rw [List.count_cons_of_ne hc]
    simp [hc]

/-- Where nothing more is read, the quotation that is open is closed by its second mark or by the
    end. -/
theorem fade (h : Quotations quoted scanner written) (hfades : scanner.Fades c rest) :
    ∃ shown, Shows (written ++ writtenFrom .quotes quoted (!scanner.word.isEmpty) (c :: rest)) shown ∧
      (scanFrom Resolver.plain scanner (c :: rest)).outline.roots.flatMap (Token.marks .quotes)
        = shown ++ if quoted != decide ((c :: rest).count '"' % 2 = 1) then [.closing .doubleQuote]
          else [] := by
  obtain ⟨htells, -, hnear⟩ := h.flush
  -- A quotation has just been opened.
  have hencloses : (scanner.flush Resolver.plain .word).outline.encloses .doubleQuote = true :=
    Bool.or_eq_true_iff.2 (.inl hfades.fresh)
  obtain rfl : quoted = true := htells.encloses_quote.symm.trans hencloses
  have hroots := roots_marks (d := .quotes) htells.orderly
  rw [htells.opens] at hroots
  rw [hfades.roots_eq, hroots, writtenFrom_cons, writtenFrom_blank
    (blank_behind hfades.blank), List.append_nil]
  have hcount : rest.count '"' = 0 := by
    refine List.count_eq_zero.2 fun hmem => ?_
    exact absurd (blank_iff.1 hfades.blank _ hmem) (by decide)
  have hhas := CharClass.of_has c
  rcases hfades.character with hclass | hclass
  · -- Its second mark closes it.
    rw [hclass] at hhas
    obtain rfl : c = '"' := hhas
    rw [characterMarks_quote hclass]
    refine ⟨_, htells.shows.closes ((hnear rfl).fresh hfades.fresh) rfl, ?_⟩
    simp [hcount]
  · -- White space leaves it to the end.
    have hc : c ≠ '"' := by
      rintro rfl
      exact absurd hclass (by decide)
    have hmarks : characterMarks .quotes true c rest = [] := by simp [characterMarks, hclass]
    rw [hmarks, List.append_nil]
    refine ⟨_, htells.shows, ?_⟩
    simp [List.count_cons_of_ne hc, hcount]

/-- **The rest of a text**, behind what has been read. -/
theorem scan {input : List Char} (h : Quotations quoted scanner written) (hcolon : ':' ∉ input)
    (hescape : '\\' ∉ input) (hclear : clear misled scanner input = true) :
    scanFrom Resolver.plain scanner input = scanCounting quoted scanner input ∧
      ∃ shown, Shows (written ++ writtenFrom .quotes quoted (!scanner.word.isEmpty) input) shown ∧
        (scanFrom Resolver.plain scanner input).outline.roots.flatMap (Token.marks .quotes)
          = shown ++ if quoted != decide (input.count '"' % 2 = 1) then [.closing .doubleQuote]
            else [] := by
  induction scanner, input using scan_induct generalizing quoted written with
  | nil scanner =>
    have htells := h.flush.1
    rw [scanFrom_nil, scanCounting]
    refine ⟨rfl, _, by simpa [writtenFrom] using htells.shows, ?_⟩
    rw [roots_marks htells.orderly, htells.opens]
    cases quoted <;> rfl
  | cons scanner c rest ih =>
    have hleftColon := notMem_step hcolon scanner
    have hleftEscape := notMem_step hescape scanner
    have hc : c ≠ ':' := (List.ne_of_not_mem_cons hcolon).symm
    have hc' : c ≠ '\\' := (List.ne_of_not_mem_cons hescape).symm
    obtain ⟨hmisled, hclear⟩ := clear_cons.1 hclear
    rcases h.step hc hmisled with hnext | hfades
    · obtain ⟨hsame, shown, hshows, hroots⟩ := ih hnext hleftColon hleftEscape hclear
      have hcount : (scanner.step Resolver.plain c rest).2.count '"' = rest.count '"' := by
        rw [step_behind]
        exact count_behind hc hc' rest
      rw [hcount, odd_cons] at hroots
      rw [scanFrom_cons, scanCounting, ← h.step_eq hmisled]
      refine ⟨hsame, shown, ?_, hroots⟩
      rw [writtenFrom_step, ← List.append_assoc]
      exact hshows
    · exact ⟨(scanCounting_eq hfades.no_star hfades.no_mark).symm, h.fade hfades⟩

/-- **The rest of a text**, with its brackets matched. -/
theorem matching {input : List Char} (h : Quotations quoted scanner written)
    (hopens : scanner.Tells .brackets opens marks) (hcolon : ':' ∉ input)
    (hclear : clear misled scanner input = true)
    (hmislaid : clear mislaidUnquoted scanner input = true) :
    scanCounting quoted scanner input = scanMatching quoted opens scanner input := by
  induction scanner, input using scan_induct generalizing quoted written opens marks with
  | nil scanner => rw [scanCounting, scanMatching]
  | cons scanner c rest ih =>
    have hleft := notMem_step hcolon scanner
    have hc : c ≠ ':' := (List.ne_of_not_mem_cons hcolon).symm
    obtain ⟨hmisled, hclear⟩ := clear_cons.1 hclear
    obtain ⟨hplaced, hmislaid⟩ := clear_cons.1 hmislaid
    rcases h.step hc hmisled with hnext | hfades
    · rcases h.opens_step hopens hmisled hplaced with ⟨marks', hopens'⟩ | hstar
      · obtain ⟨before, -, houtline⟩ := hopens.outline
        have hbraced : scanner.outline.encloses .openBrace = opens.contains .openBrace := by
          rw [encloses_eq (d := .brackets) rfl, houtline.opens]
        have hstep := h.step_eq hmisled
        rw [scanCounting, scanMatching, ← hbraced, ← hstep]
        exact ih hnext hopens' hleft hclear hmislaid
      · exact (scanMatching_eq hstar).symm
    · exact (scanMatching_eq hfades.no_star).symm

end Quotations

end Scanner

/-- **Quotations and braces end where they are closed**: a query without colon and backslash, of
    which no character is misled, is read as if the quotation marks before each mark were counted,
    and braces counted for a star only while the next token would go into them. If in addition no
    bracket outside quotations is mislaid, these are the braces that the text leaves open. The
    quotations of the tree open and close with the first and the second mark of each pair, around
    the same characters, and one without its second mark goes on to the end. -/
theorem quotes_pair (input : String) (hcolon : ':' ∉ input.toList) (hescape : '\\' ∉ input.toList)
    (hclear : Scanner.clear Scanner.misled {} input.toList = true) :
    scan Resolver.plain input = (Scanner.scanCounting false {} input.toList).outline ∧
      (Scanner.clear Scanner.mislaidUnquoted {} input.toList = true →
        scan Resolver.plain input = (Scanner.scanMatching false [] {} input.toList).outline) ∧
      ∃ shown, Shows (written .quotes input) shown ∧
        (scan Resolver.plain input).roots.flatMap (Token.marks .quotes)
          = shown ++ if input.toList.count '"' % 2 = 1 then [.closing .doubleQuote] else [] := by
  have hstart := Scanner.Quotations.empty_quotations
  obtain ⟨hsame, shown, hshows, hroots⟩ := hstart.scan hcolon hescape hclear
  have hcounted : scan Resolver.plain input
      = (Scanner.scanCounting false {} input.toList).outline := congrArg Scanner.outline hsame
  refine ⟨hcounted, fun hmislaid => ?_, shown, hshows, hroots.trans (by simp)⟩
  have hmatched := hstart.matching (Scanner.empty_tells .brackets) hcolon hclear hmislaid
  rw [hcounted, hmatched]

theorem quotes_pair_braces :
    let input := "x=\"a (b\" \x7bc\x7d d e* \x7bf (g* \"h"
    ':' ∉ input.toList ∧ '\\' ∉ input.toList ∧
      Scanner.clear Scanner.misled {} input.toList = true ∧
      Scanner.clear Scanner.mislaidUnquoted {} input.toList = true ∧
      scan Resolver.plain input = (Scanner.scanMatching false [] {} input.toList).outline ∧
      ∃ shown, Shows (written .quotes input) shown ∧
        (scan Resolver.plain input).roots.flatMap (Token.marks .quotes)
          = shown ++ [.closing .doubleQuote] := by
  intro input
  have hcolon : ':' ∉ input.toList := by decide
  have hescape : '\\' ∉ input.toList := by decide
  have hclear : Scanner.clear Scanner.misled {} input.toList = true := by cbv
  have hmislaid : Scanner.clear Scanner.mislaidUnquoted {} input.toList = true := by cbv
  have hodd : input.toList.count '"' % 2 = 1 := by decide
  obtain ⟨-, hmatched, hshown⟩ := quotes_pair input hcolon hescape hclear
  rw [if_pos hodd] at hshown
  exact ⟨hcolon, hescape, hclear, hmislaid, hmatched hmislaid, hshown⟩

/-- **A mark behind a quotation is misread**: the quotation is closed, but is the tail, and so the
    bracket is taken for text and opens no group. -/
theorem mark_misread :
    (scan Resolver.plain "\"a\" (b)").roots.map Token.kind = [.doubleQuote, .other, .word] ∧
      scan Resolver.plain "\"a\" (b)"
        ≠ (Scanner.scanCounting false {} "\"a\" (b)".toList).outline := by
  have hread : (scan Resolver.plain "\"a\" (b)").roots.map Token.kind
      = [.doubleQuote, .other, .word] := by cbv
  have hcounted : (Scanner.scanCounting false {} "\"a\" (b)".toList).outline.roots.map Token.kind
      = [.doubleQuote, .openParen] := by cbv
  refine ⟨hread, fun heq => ?_⟩
  rw [heq, hcounted] at hread
  exact absurd hread (by decide)

end InvertedIndex
