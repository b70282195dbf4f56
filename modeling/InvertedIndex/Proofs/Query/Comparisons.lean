import InvertedIndex.Proofs.Query.Runs

/-!
# `Proofs.Query.Comparisons` — comparison characters and the tokens that they make

Reading does not look for runs of comparison characters. It merges such a character into the tail, if
that is a comparison. Mostly this comes to the same, for a comparison that is the tail has been placed
last, and what has come behind it has done nothing. There is one exception: a space behind the operand
of an equation makes the equation the tail again. A comparison character read then goes across the
operand, and a text with such a character does not get the tokens of its runs.

## Contents
- `append_agrees`, `leave_agrees`, `spaced_agrees`, `close_agrees`: moves that agree with their deeds;
- `place_agrees`: a token that is no comparison;
- `compared_agrees`, `compared_differs`: a comparison character;
- `step_agrees`, `step_continues`: one character; `scanFrom_comparisons`: a whole text;
- `comparisons_gathered_iff`: the comparisons of a query; `comparison_crosses`: one that goes across.
-/

namespace InvertedIndex

namespace Outline

variable {outline outline' : Outline} {token : Token} {level : Level} {outer : List Level}
  {settled : List (Option String)} {held : List Char}

/-! ## Tokens that are no comparisons -/

/-- Any other token ends the run. -/
theorem append_agrees (h : outline.Regular) (hchildless : token.children = [])
    (hkind : token.kind ≠ .comparison ∧ token.kind ≠ .null ∧ token.kind ≠ .colon ∧
      token.kind ≠ .doubleQuote) : Agrees outline [.places] (outline.append token) := by
  obtain ⟨hcomparison, hnull, hcolon, hquote⟩ := hkind
  have hall : (outline.append token).comparisons = outline.comparisons ++ [none] := by
    rw [comparisons_append h.tidy hnull hchildless, Token.comparison?, if_neg hcomparison]
  obtain ⟨earlier, outer, hspine⟩ := append_spine (awaits_eq_false h.colon) token
  -- Whatever run there was is settled now.
  refine ⟨⟨h.append hcolon hquote fun heq => absurd heq hcomparison, ?_⟩, ?_⟩
  · rw [hall]
    exact grows_append _ _
  · intro settled held hkeeps
    refine ⟨_, _, .closed ?_, fun later => ?_⟩
    · simpa [tail?_eq hspine] using hcomparison
    · rw [List.singleton_append, Deed.runs_held held Deed.joins_places, Deed.runs_places, hall,
        ← List.append_assoc, ← hkeeps.all h.tidy]
      simp

/-- A tail that is no comparison stays as it is, as far as comparisons go. -/
theorem setTail_agrees (h : outline.Regular) (hspine : outline.spine = level :: outer)
    (hkind : token.kind = level.last.kind) (hother : level.last.kind ≠ .comparison)
    (hlisted : token.listed Token.comparison? = level.last.listed Token.comparison?) :
    Agrees outline [] (outline.setTail token) := by
  have hall : (outline.setTail token).comparisons = outline.comparisons :=
    listed_setTail Token.comparison?_shallow h.tidy hspine hlisted
  have hregular : (outline.setTail token).Regular :=
    h.setTail hspine hkind fun heq => absurd (hkind ▸ heq) hother
  refine ⟨⟨hregular, hall ▸ Grows.refl _⟩, ?_⟩
  intro settled held hkeeps
  obtain ⟨rfl, rfl⟩ := hkeeps.of_other hspine hother
  refine ⟨_, _, .closed ?_, fun later => ?_⟩
  · rw [setTail_eq hspine]
    simpa [tail?, hkind] using hother
  · rw [hall, List.nil_append]

theorem leave_continues (h : outline.Regular) : Continues outline outline.leave := by
  have hall : outline.leave.comparisons = outline.comparisons := listed_leave _ outline
  exact ⟨h.leave, hall ▸ Grows.refl _⟩

/-- To leave a group ends the run. -/
theorem leave_agrees (h : outline.Regular) {kind : TokenKind} (hcomparison : kind ≠ .comparison)
    (hparent : outline.parent?.any (·.kind = kind) = true) :
    Agrees outline [.leaves] outline.leave := by
  have hall : outline.leave.comparisons = outline.comparisons := listed_leave _ outline
  obtain ⟨level, parent, outer, hspine, hkind⟩ := exists_parent hparent
  refine ⟨leave_continues h, ?_⟩
  intro settled held hkeeps
  refine ⟨_, _, .closed ?_, fun later => ?_⟩
  · rw [leave_eq hspine]
    simp [tail?, of_decide_eq_true hkind, hcomparison]
  · rw [List.singleton_append, Deed.runs_held held Deed.joins_leaves, Deed.runs_leaves, hall,
      ← List.append_assoc, ← hkeeps.all h.tidy]
    rfl

/-- **A space** takes no part in a run, although it may make another comparison the tail. -/
theorem spaced_agrees (h : outline.Regular) : Agrees outline [] outline.spaced := by
  unfold spaced
  split
  next hequation =>
    obtain ⟨level, parent, outer, hspine, hparent⟩ := exists_parent hequation
    have hkind : parent.last.kind = .comparison := (of_decide_eq_true hparent).1
    refine ⟨leave_continues h, ?_⟩
    intro settled held hkeeps
    have hall : outline.leave.comparisons = settled ++ Deed.run held :=
      (listed_leave _ outline).trans (hkeeps.all h.tidy)
    have hahead := (ahead_leave h.tidy hspine hkind).trans (hkeeps.ahead_prefix h.tidy)
    have hleave := leave_eq hspine
    refine ⟨settled, held, ?_, fun _ => rfl⟩
    exact .resumed (congrArg Outline.spine hleave) hkind (by simp [Level.tokens]) hall hahead
  · exact Agrees.refl h

/-- **A closing bracket** ends the run if it leaves a group. -/
theorem close_agrees (h : outline.Regular) {kind : TokenKind} (hcomparison : kind ≠ .comparison) :
    Agrees outline (if outline.parent?.any (·.kind = kind) then [.leaves] else [])
      (outline.close kind) := by
  rcases outline.close_moves kind with
    ⟨hparent, hclose⟩ | ⟨hparent, ⟨level, outer, hspine, hkind, hchildless, hclose⟩ | hclose⟩
  · rw [hclose, if_pos hparent]
    exact leave_agrees h hcomparison hparent
  · have hlisted := Token.listed_hollowed Token.comparison?_shallow hchildless
    rw [hclose, hparent]
    exact setTail_agrees h hspine rfl (hkind ▸ hcomparison) hlisted
  · rw [hclose, hparent]
    exact Agrees.refl h

/-- A sign that merges into a sign changes no comparison. -/
theorem sign_agrees (h : outline.Regular) {kind : TokenKind} {text : String}
    (hcomparison : kind ≠ .comparison) (hmerge : outline.mergeIntoTail? kind text = some outline') :
    Agrees outline [] outline' := by
  obtain ⟨level, outer, merged, hspine, hmerged, rfl⟩ := exists_merged hmerge
  have hsign : level.last.text = "-" ∨ level.last.text = "+" := by
    unfold mergedText? at hmerged
    grind
  have hother : level.last.kind ≠ .comparison := by
    intro heq
    have hunsigned := h.unsigned level (by simp [hspine]) heq
    rcases hsign with htext | htext
    · exact hunsigned.1 htext
    · exact hunsigned.2 htext
  have hlisted : ({ level.last with text := merged } : Token).listed Token.comparison?
      = level.last.listed Token.comparison? := by
    have hnew := Token.listed_eq Token.comparison? { level.last with text := merged }
    have hlast := Token.listed_eq Token.comparison? level.last
    rw [Token.comparison?, if_neg hother] at hnew hlast
    exact hnew.trans hlast.symm
  exact setTail_agrees h hspine rfl hother hlisted

/-- A token that neither merges nor steers ends the run. -/
theorem attach_agrees (h : outline.Regular) {kind : TokenKind} {text : String}
    (hkind : kind ≠ .comparison ∧ kind ≠ .null ∧ kind ≠ .colon ∧ kind ≠ .doubleQuote)
    (hmerge : outline.mergeIntoTail? kind text = none) (hsteer : outline.steer? kind = none) :
    Agrees outline [.places] (outline.place kind text .normal [] none) := by
  have hattach : outline.place kind text .normal [] none = outline.append { kind, text } := by
    rw [place_eq_attach hmerge hsteer]
    simp [attach, h.pending]
  rw [hattach]
  exact append_agrees h rfl hkind

/-- **A token that is no comparison** agrees with its deeds. -/
theorem place_agrees (h : outline.Regular) {kind : TokenKind} (text : String)
    (hkind : kind ≠ .comparison ∧ kind ≠ .null ∧ kind ≠ .colon ∧ kind ≠ .doubleQuote)
    (hspace : kind ≠ .space) :
    Agrees outline (outline.deeds kind text) (outline.place kind text .normal [] none) := by
  rw [deeds, if_neg hkind.1]
  cases hmerge : outline.mergeIntoTail? kind text with
  | some merged =>
    simp only [place, hmerge, Option.isSome_some, if_true]
    exact sign_agrees h hkind.1 hmerge
  | none =>
    cases hclosed : closedBy? kind with
    | some opened =>
      have hopened : opened ≠ .comparison := by
        rintro rfl
        exact absurd (closedBy?_bracket hclosed).1 (by decide)
      have hsteer : outline.steer? kind = some (outline.close opened) := by
        cases kind <;> simp_all [closedBy?, steer?]
      have hleaves : outline.leaves kind = outline.parent?.any (·.kind = opened) := by
        rw [leaves, hclosed, Option.any_some]
      simp only [place, hmerge, hsteer, hleaves, Option.isSome_none, Option.isSome_some, if_true,
        Bool.false_eq_true, if_false]
      exact close_agrees h hopened
    | none =>
      have hleaves : outline.leaves kind = false := by rw [leaves, hclosed, Option.any_none]
      have hsteers : steers kind = false := by
        cases kind <;> simp_all [closedBy?, steers]
      rw [hleaves]
      rcases steer?_eq outline hsteers with hsteer | ⟨rfl, hsteer⟩
      · rw [hsteer]
        exact attach_agrees h hkind hmerge hsteer
      · simp only [place, hmerge, hsteer]
        exact Agrees.refl h

/-- Words and other simple tokens that are no signs always end the run. -/
theorem simple_agrees (h : outline.Regular) {kind : TokenKind} {text : String}
    (hkind : simpleKind kind = true) (hcolon : kind ≠ .colon) (htext : text ≠ "-" ∧ text ≠ "+") :
    Agrees outline [.places] (outline.place kind text .normal [] none) := by
  have hcomparison : kind ≠ .comparison := simpleKind_ne hkind rfl
  have hmerge : outline.mergeIntoTail? kind text = none :=
    Quiet.mergeIntoTail?_eq_none htext.1 htext.2 hcomparison
  have hsteer : outline.steer? kind = none := by
    cases kind <;> simp_all [simpleKind, steer?]
  exact attach_agrees h ⟨hcomparison, simpleKind_ne hkind rfl, hcolon, simpleKind_ne hkind rfl⟩
    hmerge hsteer

/-! ## A comparison character -/

section Characters

variable {c : Char}

/-- The text of a comparison character is no sign, and none comes of it. -/
theorem comparison_unsigned (hc : CharClass.of c = .mark .comparison) (text : String) :
    text ++ String.singleton c ≠ "-" ∧ text ++ String.singleton c ≠ "+" := by
  have hdash : c ≠ '-' := by
    rintro rfl
    exact absurd hc (by decide)
  have hplus : c ≠ '+' := by
    rintro rfl
    exact absurd hc (by decide)
  have htext : text ++ String.singleton c = String.ofList (text.toList ++ [c]) := by
    rw [← String.toList_inj]
    simp
  rw [htext]
  exact Grammar.ofList_ne_sign (by simp) hdash hplus

theorem singleton_unsigned (hc : CharClass.of c = .mark .comparison) :
    String.singleton c ≠ "-" ∧ String.singleton c ≠ "+" := by
  simpa using comparison_unsigned hc ""

/-- The token of a comparison character. -/
def comparisonToken (c : Char) : Token := { kind := .comparison, text := String.singleton c }

/-- A comparison that is the tail takes the character. -/
theorem place_merging (hc : CharClass.of c = .mark .comparison)
    (hspine : outline.spine = level :: outer) (hkind : level.last.kind = .comparison) :
    outline.place .comparison (String.singleton c) .normal [] none
      = outline.setTail { level.last with text := level.last.text ++ String.singleton c } := by
  obtain ⟨hdash, hplus⟩ := singleton_unsigned hc
  have hmerge : outline.mergeIntoTail? .comparison (String.singleton c)
      = some (outline.setTail { level.last with text := level.last.text ++ String.singleton c }) := by
    simp [mergeIntoTail?, tail?_eq hspine, mergedText?, hdash, hplus, hkind]
  simp only [place, hmerge]

/-- Behind any other tail the character is a token of its own. -/
theorem place_beginning (h : outline.Regular) (hc : CharClass.of c = .mark .comparison)
    (htail : outline.tail?.any (·.kind = .comparison) = false) :
    outline.place .comparison (String.singleton c) .normal [] none
      = outline.append (comparisonToken c) := by
  obtain ⟨hdash, hplus⟩ := singleton_unsigned hc
  have hmerge : outline.mergeIntoTail? .comparison (String.singleton c) = none := by
    cases hspine : outline.spine with
    | nil => simp [mergeIntoTail?, tail?, hspine]
    | cons level outer =>
      have hkind : level.last.kind ≠ .comparison := by simpa [tail?_eq hspine] using htail
      simp [mergeIntoTail?, tail?_eq hspine, mergedText?, hdash, hplus, hkind]
  rw [place_eq_attach hmerge rfl]
  simp [attach, h.pending, comparisonToken]

/-- The comparisons around one that takes the character. -/
theorem comparisons_merging (h : outline.Tidy) (hspine : outline.spine = level :: outer)
    (hkind : level.last.kind = .comparison) (text : String) :
    ∃ behind, outline.comparisons = outline.ahead ++ some level.last.text :: behind ∧
      (outline.setTail { level.last with text }).comparisons
        = outline.ahead ++ some text :: behind := by
  refine ⟨level.last.children.flatMap (Token.listed Token.comparison?), ?_, ?_⟩
  · rw [comparisons_eq h hspine, listed_comparison hkind]
  · have hmerged := setTail_eq hspine { level.last with text }
    have hlisted : ({ level.last with text } : Token).listed Token.comparison?
        = some text :: level.last.children.flatMap (Token.listed Token.comparison?) :=
      listed_comparison hkind
    rw [comparisons_eq (h.setTail hspine _) (congrArg Outline.spine hmerged), ahead_setTail hspine]
    exact congrArg _ hlisted

theorem merging_continues (h : outline.Regular) (hc : CharClass.of c = .mark .comparison)
    (hspine : outline.spine = level :: outer) (hkind : level.last.kind = .comparison) :
    Continues outline
      (outline.setTail { level.last with text := level.last.text ++ String.singleton c }) := by
  obtain ⟨behind, hold, hnew⟩ := comparisons_merging h.tidy hspine hkind
    (level.last.text ++ String.singleton c)
  refine ⟨h.setTail hspine rfl fun _ => comparison_unsigned hc _, ?_⟩
  rw [hold, hnew]
  exact grows_text _ _ _ _

theorem beginning_continues (h : outline.Regular) (hc : CharClass.of c = .mark .comparison) :
    Continues outline (outline.append (comparisonToken c)) := by
  have hall : (outline.append (comparisonToken c)).comparisons
      = outline.comparisons ++ [some (String.singleton c)] :=
    comparisons_append h.tidy (show TokenKind.comparison ≠ .null by decide) rfl
  refine ⟨h.append (show TokenKind.comparison ≠ .colon by decide)
    (show TokenKind.comparison ≠ .doubleQuote by decide) fun _ => singleton_unsigned hc, ?_⟩
  rw [hall]
  exact grows_append _ _

/-- **A comparison character** places no other token, and no text gets shorter. -/
theorem compared_continues (h : outline.Regular) (hc : CharClass.of c = .mark .comparison) :
    Continues outline (outline.place .comparison (String.singleton c) .normal [] none) := by
  cases htail : outline.tail?.any (·.kind = .comparison) with
  | false =>
    rw [place_beginning h hc htail]
    exact beginning_continues h hc
  | true =>
    cases hspine : outline.spine with
    | nil => simp [tail?, hspine] at htail
    | cons level outer =>
      have hkind : level.last.kind = .comparison := by simpa [tail?_eq hspine] using htail
      rw [place_merging hc hspine hkind]
      exact merging_continues h hc hspine hkind

/-- **A comparison character that does not go across an operand** goes on with the run, or begins
    one. -/
theorem compared_agrees (h : outline.Regular) (hc : CharClass.of c = .mark .comparison)
    (hresumes : outline.resumes = false) :
    Agrees outline [.compares c] (outline.place .comparison (String.singleton c) .normal [] none) := by
  refine ⟨compared_continues h hc, ?_⟩
  intro settled held hkeeps
  cases hkeeps with
  | closed htail =>
    have hawaits := awaits_eq_false h.colon
    obtain ⟨earlier, outer, hspine⟩ := append_spine hawaits (comparisonToken c)
    have hahead : (outline.append (comparisonToken c)).ahead = outline.comparisons :=
      ahead_append h.tidy hawaits (show TokenKind.comparison ≠ .null by decide) rfl
    rw [place_beginning h hc htail]
    refine ⟨_, _, .growing hspine rfl rfl (Scanner.singleton_ne_empty c), fun later => ?_⟩
    rw [hahead]
    simp [comparisonToken]
  | @growing level outer hspine hkind hchildless htext =>
    have hmerged := setTail_eq hspine
      { level.last with text := level.last.text ++ String.singleton c }
    rw [place_merging hc hspine hkind]
    refine ⟨_, _, .growing (congrArg Outline.spine hmerged) hkind hchildless (by simp),
      fun later => ?_⟩
    rw [ahead_setTail hspine]
    simp
  | resumed hspine hkind hfilled =>
    simp [resumes, tail?_eq hspine, hkind, hfilled] at hresumes

/-- **A comparison character that goes across an operand** makes the text of its comparison longer
    than the run in which the comparison stands. -/
theorem compared_differs (h : outline.Regular) (hc : CharClass.of c = .mark .comparison)
    (hresumes : outline.resumes = true) (hkeeps : outline.Keeps settled held)
    (hgrows : Grows (outline.place .comparison (String.singleton c) .normal [] none).comparisons
      outline'.comparisons) (later : List (Option String)) :
    outline'.comparisons ≠ settled ++ later := by
  cases hkeeps with
  | closed htail =>
    obtain ⟨tail, hsome, hkind, -⟩ : ∃ tail, outline.tail? = some tail ∧ tail.kind = .comparison ∧ _ :=
      by simpa [resumes, Option.any_eq_true] using hresumes
    simp [hsome, hkind] at htail
  | growing hspine hkind hchildless => simp [resumes, tail?_eq hspine, hchildless] at hresumes
  | @resumed level outer settled held hspine hkind hfilled hall hahead =>
    obtain ⟨behind, -, hnew⟩ := comparisons_merging h.tidy hspine hkind
      (level.last.text ++ String.singleton c)
    rw [place_merging hc hspine hkind, hnew] at hgrows
    obtain ⟨more, hmore⟩ := hgrows outline.ahead.length (level.last.text ++ String.singleton c)
      (by simp)
    obtain ⟨rest, rfl⟩ := hahead
    -- The text of the equation is settled among the runs, and longer in the tree.
    intro heq
    rw [heq] at hmore
    have htext : level.last.text = level.last.text ++ String.singleton c ++ more := by
      simpa using hmore
    have hlength := congrArg (fun text => text.toList.length) htext
    simp at hlength

end Characters

end Outline

/-! ## One character -/

namespace Scanner

open Outline

variable {scanner : Scanner} {c : Char} {rest : List Char}

/-- What reading keeps: only word characters are gathered. -/
structure Regular (scanner : Scanner) : Prop where
  word : ∀ c ∈ scanner.word, CharClass.of c = .word
  outline : scanner.outline.Regular

theorem empty_regular : Regular {} := ⟨by simp, Outline.empty_regular⟩

/-- An outline without a word being gathered. -/
theorem regular_outline {outline : Outline} (h : outline.Regular) : Regular ⟨outline, []⟩ :=
  ⟨by simp, h⟩

/-- The characters that change what comes behind them. -/
def unread : List Char := ['"', '\\', ':']

/-- **The word being gathered** ends the run, if there is one. -/
theorem flush_agrees (h : scanner.Regular) {kind : TokenKind} (hkind : simpleKind kind = true)
    (hcolon : kind ≠ .colon) :
    Agrees scanner.outline scanner.wordDeeds (scanner.flush Resolver.plain kind).outline := by
  cases hgathered : scanner.word with
  | nil =>
    rw [flush_of_empty hgathered, wordDeeds, hgathered]
    exact Agrees.refl h.outline
  | cons c gathered =>
    obtain ⟨hdash, hplus⟩ := ne_sign_of_word (h.word c (by simp [hgathered]))
    have hmem : c ∈ scanner.word.reverse := by simp [hgathered]
    have htext := Grammar.ofList_ne_sign hmem hdash hplus
    have hdeeds : scanner.wordDeeds = [.places] := by simp [wordDeeds, hgathered]
    have hflush : (scanner.flush Resolver.plain kind).outline = scanner.outline.place kind
        (String.ofList scanner.word.reverse) .normal [] none := by
      simp only [flush, hgathered, List.isEmpty_cons, Bool.false_eq_true, if_false, emit_plain]
    rw [hdeeds, hflush]
    exact simple_agrees h.outline hkind hcolon htext

/-- **A token of its own behind the word being gathered** ends the run. -/
theorem emit_agrees (h : scanner.Regular) {kind emitted : TokenKind} {text : String}
    (hkind : simpleKind kind = true ∧ kind ≠ .colon)
    (hemitted : simpleKind emitted = true ∧ emitted ≠ .colon) (htext : text ≠ "-" ∧ text ≠ "+") :
    ((scanner.flush Resolver.plain kind).emit Resolver.plain emitted text).Regular ∧
      Agrees scanner.outline (scanner.wordDeeds ++ [.places])
        ((scanner.flush Resolver.plain kind).emit Resolver.plain emitted text).outline := by
  have hflush := flush_agrees h hkind.1 hkind.2
  have hagrees := hflush.trans (simple_agrees hflush.regular hemitted.1 hemitted.2 htext)
  exact ⟨⟨by simp [emit_plain, flush_word], hagrees.regular⟩, hagrees⟩

/-- A star ends the run, with the word being gathered or behind it. -/
theorem star_agrees (h : scanner.Regular) :
    (scanner.star Resolver.plain).Regular ∧ Agrees scanner.outline
      (if scanner.outline.inside .openBrace then scanner.wordDeeds ++ [.places] else [.places])
      (scanner.star Resolver.plain).outline := by
  have hmodifier : simpleKind .modifier = true ∧ TokenKind.modifier ≠ .colon := by decide
  have hoperator : simpleKind .operator = true ∧ TokenKind.operator ≠ .colon := by decide
  have hsign : "*" ≠ "-" ∧ "*" ≠ "+" := by decide
  have hstar := emit_agrees h hmodifier hoperator hsign
  cases hgathered : scanner.word with
  | nil =>
    rw [flush_of_empty hgathered, wordDeeds, hgathered] at hstar
    simpa [star, wordDeeds, hgathered] using hstar
  | cons c gathered =>
    cases hbrace : scanner.outline.inside .openBrace with
    | true => simpa [star, hgathered, hbrace] using hstar
    | false =>
      have hmem : '*' ∈ ('*' :: scanner.word).reverse := by simp
      have htext := Grammar.ofList_ne_sign hmem (by decide) (by decide)
      have hagrees := simple_agrees h.outline hmodifier.1 hmodifier.2 htext
      rw [hgathered] at hagrees
      refine ⟨?_, ?_⟩
      · simpa [star, hgathered, hbrace, emit_plain] using regular_outline hagrees.regular
      · simpa [star, hgathered, hbrace, emit_plain] using hagrees

/-- The step of a mark. -/
theorem mark_step (h : scanner.Regular) {kind : TokenKind} (hclass : CharClass.of c = .mark kind)
    (rest : List Char) : scanner.step Resolver.plain c rest
      = (⟨(scanner.flush Resolver.plain .word).outline.place kind (String.singleton c) .normal []
          none, []⟩, rest) :=
  step_mark hclass (flush_agrees h word_simple (by decide)).regular.quote rest

/-- **A bracket, comma or operator** agrees with its deeds. -/
theorem mark_agrees (h : scanner.Regular) {kind : TokenKind} (hclass : CharClass.of c = .mark kind)
    (hcomparison : kind ≠ .comparison) (rest : List Char) :
    (scanner.step Resolver.plain c rest).1.Regular ∧ Agrees scanner.outline
      (scanner.stepDeeds c) (scanner.step Resolver.plain c rest).1.outline := by
  have hflush := flush_agrees h word_simple (by decide)
  have hhas := CharClass.of_has c
  rw [hclass] at hhas
  have hkind : (kind ≠ .comparison ∧ kind ≠ .null ∧ kind ≠ .colon ∧ kind ≠ .doubleQuote) ∧
      kind ≠ .space := by
    rcases hhas with rfl | rfl | rfl | ⟨-, -, rfl | rfl | rfl | rfl | rfl | rfl⟩ <;> simp_all
  have hagrees := hflush.trans (place_agrees hflush.regular (String.singleton c) hkind.1 hkind.2)
  have hdeeds : scanner.stepDeeds c = scanner.wordDeeds ++
      (scanner.flush Resolver.plain .word).outline.deeds kind (String.singleton c) := by
    simp only [stepDeeds, hclass]
  rw [mark_step h hclass, hdeeds]
  exact ⟨regular_outline hagrees.regular, hagrees⟩

/-- **A character that is no comparison** agrees with its deeds. -/
theorem step_agrees (h : scanner.Regular) (hunread : c ∉ unread)
    (hcomparison : CharClass.of c ≠ .mark .comparison) (rest : List Char) :
    (scanner.step Resolver.plain c rest).1.Regular ∧ Agrees scanner.outline
      (scanner.stepDeeds c) (scanner.step Resolver.plain c rest).1.outline := by
  have hhas := CharClass.of_has c
  simp only [unread, List.mem_cons, List.not_mem_nil, or_false, not_or] at hunread
  obtain ⟨hquote, hescape, hcolon⟩ := hunread
  cases hclass : CharClass.of c with
  | doubleQuote => exact absurd (by rwa [hclass] at hhas) hquote
  | escape => exact absurd (by rwa [hclass] at hhas) hescape
  | colon => exact absurd (by rwa [hclass] at hhas) hcolon
  | mark kind => exact mark_agrees h hclass (by simpa [hclass] using hcomparison) rest
  | word =>
    simp only [step, stepDeeds, hclass]
    exact ⟨⟨List.forall_mem_cons.2 ⟨hclass, h.word⟩, h.outline⟩, Agrees.refl h.outline⟩
  | space =>
    have hflush := flush_agrees h word_simple (by decide)
    have hagrees := hflush.trans (spaced_agrees hflush.regular)
    rw [List.append_nil] at hagrees
    simp only [step_space hclass, stepDeeds, hclass]
    exact ⟨regular_outline hagrees.regular, hagrees⟩
  | star =>
    simp only [step, stepDeeds, hclass]
    exact star_agrees h
  | question =>
    simp only [step, stepDeeds, hclass]
    exact emit_agrees h (by decide) (by decide) (by decide)
  | joint kind =>
    rw [hclass] at hhas
    have hkind : simpleKind kind = true ∧ kind ≠ .colon := by
      rcases hhas with ⟨-, rfl⟩ | ⟨-, rfl⟩ <;> decide
    have htext : String.singleton c ≠ "-" ∧ String.singleton c ≠ "+" := by
      rcases hhas with ⟨rfl, -⟩ | ⟨rfl, -⟩ <;> decide
    simp only [step, stepDeeds, hclass]
    exact emit_agrees h (by decide) hkind htext
  | dot =>
    simp only [step, stepDeeds, hclass]
    split
    · exact emit_agrees h (by decide) (by decide) (by decide)
    · exact emit_agrees h (by decide) (by decide) (by decide)
  | other =>
    have hsign : ∀ sign, CharClass.of sign = .mark .operator → c ≠ sign := by
      rintro sign hsign rfl
      exact absurd (hclass.symm.trans hsign) (by decide)
    have htext := Grammar.ofList_ne_sign (List.mem_singleton_self c) (hsign '-' (by decide))
      (hsign '+' (by decide))
    simp only [step, stepDeeds, hclass]
    exact emit_agrees h (by decide) (by decide) htext

/-- The deeds of a comparison character. -/
theorem stepDeeds_comparison (hclass : CharClass.of c = .mark .comparison) :
    scanner.stepDeeds c = scanner.wordDeeds ++ [.compares c] := by
  simp [stepDeeds, hclass, Outline.deeds]

/-- Every step keeps what reading keeps, and no text gets shorter. -/
theorem step_continues (h : scanner.Regular) (hunread : c ∉ unread) (rest : List Char) :
    (scanner.step Resolver.plain c rest).1.Regular ∧
      Continues scanner.outline (scanner.step Resolver.plain c rest).1.outline := by
  by_cases hcomparison : CharClass.of c = .mark .comparison
  · have hflush := flush_agrees h word_simple (by decide)
    have hcontinues := hflush.toContinues.trans (compared_continues hflush.regular hcomparison)
    rw [mark_step h hcomparison]
    exact ⟨regular_outline hcontinues.regular, hcontinues⟩
  · obtain ⟨hregular, hagrees⟩ := step_agrees h hunread hcomparison rest
    exact ⟨hregular, hagrees.toContinues⟩

/-! ## A whole text -/

theorem deeds_cons (scanner : Scanner) (c : Char) (rest : List Char) :
    scanner.deeds (c :: rest) = scanner.stepDeeds c
      ++ (scanner.step Resolver.plain c rest).1.deeds (scanner.step Resolver.plain c rest).2 := by
  rw [deeds]

/-- No text gets shorter in a whole text. -/
theorem scanFrom_grows {input : List Char} (h : scanner.Regular) (hinput : ∀ c ∈ unread, c ∉ input) :
    Grows scanner.outline.comparisons (scanFrom Resolver.plain scanner input).outline.comparisons := by
  induction scanner, input using scan_induct with
  | nil scanner =>
    rw [scanFrom_nil]
    exact (flush_agrees h word_simple (by decide)).grows
  | cons scanner c rest ih =>
    have hunread : c ∉ unread := fun hmem => hinput c hmem List.mem_cons_self
    obtain ⟨hregular, hstep⟩ := step_continues h hunread rest
    have hrest := ih hregular fun d hd => notMem_step (hinput d hd) scanner
    rw [scanFrom_cons]
    exact hstep.grows.trans hrest

/-- **A whole text** makes the tokens of its deeds, unless a comparison character goes across an
    operand. -/
theorem scanFrom_comparisons {input : List Char} (h : scanner.Regular)
    (hinput : ∀ c ∈ unread, c ∉ input) {settled : List (Option String)} {held : List Char}
    (hkeeps : scanner.outline.Keeps settled held) :
    (scanFrom Resolver.plain scanner input).outline.comparisons
        = settled ++ Deed.runs (held.map .compares ++ scanner.deeds input)
      ↔ clear crosses scanner input = true := by
  induction scanner, input using scan_induct generalizing settled held with
  | nil scanner =>
    have hflush := flush_agrees h word_simple (by decide)
    obtain ⟨settled', held', hkeeps', hdeeds⟩ := hflush.keeps hkeeps
    have hall := hdeeds []
    rw [List.append_nil, List.append_nil, Deed.runs_compares] at hall
    rw [scanFrom_nil, deeds, hall, hkeeps'.all hflush.regular.tidy, clear]
    simp
  | cons scanner c rest ih =>
    have hunread : c ∉ unread := fun hmem => hinput c hmem List.mem_cons_self
    have hleft : ∀ d ∈ unread, d ∉ (scanner.step Resolver.plain c rest).2 :=
      fun d hd => notMem_step (hinput d hd) scanner
    rw [scanFrom_cons, deeds_cons, clear_cons]
    by_cases hcomparison : CharClass.of c = .mark .comparison
    · have hflush := flush_agrees h word_simple (by decide)
      have hstep := mark_step h hcomparison rest
      have hcrosses : scanner.crosses c rest
          = (scanner.flush Resolver.plain .word).outline.resumes := by
        simp [crosses, hcomparison]
      rw [stepDeeds_comparison hcomparison]
      cases hresumes : (scanner.flush Resolver.plain .word).outline.resumes with
      | true =>
        -- The texts differ behind this character, and still do at the end.
        obtain ⟨settled', held', hkeeps', hheld⟩ := hflush.keeps hkeeps
        obtain ⟨hregular, -⟩ := step_continues h hunread rest
        have hgrows := scanFrom_grows hregular hleft
        rw [hstep] at hgrows ⊢
        have hdiffers := compared_differs hflush.regular hcomparison hresumes hkeeps' hgrows
        rw [List.append_assoc, hheld]
        simp [hdiffers, hcrosses, hresumes]
      | false =>
        have hagrees := hflush.trans (compared_agrees hflush.regular hcomparison hresumes)
        obtain ⟨settled', held', hkeeps', hheld⟩ := hagrees.keeps hkeeps
        have hrest := ih (by rw [hstep]; exact regular_outline hagrees.regular) hleft
          (by rw [hstep]; exact hkeeps')
        rw [hheld, hrest]
        simp [hcrosses, hresumes]
    · obtain ⟨hregular, hagrees⟩ := step_agrees h hunread hcomparison rest
      obtain ⟨settled', held', hkeeps', hheld⟩ := hagrees.keeps hkeeps
      rw [hheld, ih hregular hleft hkeeps']
      simp [crosses, hcomparison]

end Scanner

/-! ## The comparisons of a query -/

/-- **Comparison characters are gathered in runs**: without quotation marks, escapes and colons, the
    comparisons of a tree are those of the longest runs of comparison characters in the text, in
    order and with the other tokens between them, if and only if none of these characters merges into
    an equation across its operand. -/
theorem comparisons_gathered_iff (input : String) (hinput : ∀ c ∈ Scanner.unread, c ∉ input.toList) :
    (scan Resolver.plain input).comparisons = Deed.runs (Scanner.deeds {} input.toList)
      ↔ Scanner.clear Scanner.crosses {} input.toList = true :=
  Scanner.scanFrom_comparisons Scanner.empty_regular hinput (.closed rfl)

theorem comparisons_gathered_lists :
    let input := "a , <] = b (!,)=c d < \x27 > x= y)"
    (∀ c ∈ Scanner.unread, c ∉ input.toList) ∧ Scanner.clear Scanner.crosses {} input.toList = true ∧
      (scan Resolver.plain input).comparisons = Deed.runs (Scanner.deeds {} input.toList) ∧
      Deed.runs (Scanner.deeds {} input.toList) = [none, some "<=", none, none, some "!", none,
        some "=", none, none, some "<>", none, some "=", none] := by
  intro input
  have hinput : ∀ c ∈ Scanner.unread, c ∉ input.toList := by simp [Scanner.unread, input]
  have hclear : Scanner.clear Scanner.crosses {} input.toList = true := by cbv
  have hruns : Deed.runs (Scanner.deeds {} input.toList) = [none, some "<=", none, none, some "!",
      none, some "=", none, none, some "<>", none, some "=", none] := by cbv
  exact ⟨hinput, hclear, (comparisons_gathered_iff input hinput).2 hclear, hruns⟩

/-- **A comparison character crosses an operand** where a space has made the equation the tail: two
    equations become one comparison. -/
theorem comparison_crosses :
    let input := "a=b =c"
    (∀ c ∈ Scanner.unread, c ∉ input.toList) ∧
      (scan Resolver.plain input).comparisons = [none, some "==", none, none] ∧
      Deed.runs (Scanner.deeds {} input.toList) = [none, some "=", none, some "=", none] ∧
      (scan Resolver.plain input).comparisons ≠ Deed.runs (Scanner.deeds {} input.toList) := by
  intro input
  have hread : (scan Resolver.plain input).comparisons = [none, some "==", none, none] := by cbv
  have hruns : Deed.runs (Scanner.deeds {} input.toList)
      = [none, some "=", none, some "=", none] := by cbv
  refine ⟨by simp [Scanner.unread, input], hread, hruns, ?_⟩
  rw [hread, hruns]
  decide

end InvertedIndex
