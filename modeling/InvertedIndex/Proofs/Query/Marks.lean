import InvertedIndex.Proofs.Query.Outline

/-!
# `Proofs.Query.Marks` — a token tree written out

A tree is written out as a list of **marks**: the characters of its tokens in order, and around the
children of a delimited group an opening and a closing mark. An outline is written out the same way,
except that the groups still open have no closing mark yet. Then whatever happens to an outline only
adds marks at the end: a token added writes itself, and to leave a group writes its closing mark.

Which groups are delimited is a parameter, so that brackets and quotation marks are looked at one
at a time. The parentheses that enclose a conditional are added by the reader and have no marks.

## Contents
- `Delimiters`, `Mark`; `Token.marks`: a tree written out; `Token.marks_eq`;
- `awaitsOperand`, `Enclosed`: conditionals among siblings;
- `Outline.marks`, `Outline.opens`: an outline written out, and the groups open in it;
- `Outline.Orderly`: what reading keeps; `append_cases`: what adding a token does;
- `exists_tail`, `exists_parent`: the tail and the group around it; `close_moves`, `exists_merged`:
  what closing a group and merging into the tail do;
- `marks_append`, `marks_leave`, `marks_hollowed`: marks and open groups after each move;
- `roots_marks`: the finished tree closes all groups.
-/

namespace InvertedIndex

/-! ## Marks -/

/-- Kinds of groups whose tokens are delimited. -/
structure Delimiters where
  has : TokenKind → Bool
  group : ∀ kind, has kind = true → kind.isGroup = true

/-- The brackets. -/
def Delimiters.brackets : Delimiters where
  has kind := kind = .openParen ∨ kind = .openBrace ∨ kind = .openBracket
  group := by
    intro kind h
    rcases of_decide_eq_true h with rfl | rfl | rfl <;> rfl

/-- The quotation mark. -/
def Delimiters.quotes : Delimiters where
  has kind := kind = .doubleQuote
  group := by
    intro kind h
    obtain rfl := of_decide_eq_true h
    rfl

/-- What stands at a place of a query or of its tree. -/
inductive Mark where
  /-- A delimited group of the kind opens. -/
  | opening (kind : TokenKind)
  /-- A delimited group of the kind closes. -/
  | closing (kind : TokenKind)
  /-- The child of a group with nothing in it. -/
  | null
  | character (c : Char)
  /-- A sign, comparison or comma, which may merge into the token before it or count for nothing. -/
  | loose
  deriving Repr, DecidableEq

/-- The marks of the text of a token. -/
def textMarks (kind : TokenKind) (text : String) : List Mark :=
  if text = "-" ∨ text = "+" ∨ kind = .comparison ∨ kind = .comma then [.loose]
  else text.toList.map .character

theorem textMarks_ne_nil {kind : TokenKind} {text : String} (h : text ≠ "") :
    textMarks kind text ≠ [] := by
  unfold textMarks
  split
  · simp
  · intro hnil
    exact h (String.toList_eq_nil_iff.1 (List.map_eq_nil_iff.1 hnil))

theorem opening_notMem_textMarks (kind : TokenKind) (text : String) (opened : TokenKind) :
    .opening opened ∉ textMarks kind text := by
  unfold textMarks
  split <;> simp

namespace Delimiters

variable (d : Delimiters)

/-- The marks in front of the children of a token. -/
def startMarks (kind : TokenKind) (text : String) : List Mark :=
  if d.has kind then [.opening kind] else textMarks kind text

/-- The marks behind the children of a token. -/
def endMarks (kind : TokenKind) : List Mark := if d.has kind then [.closing kind] else []

/-- Whether a delimited group has no children yet. -/
def opened (token : Token) : Bool := d.has token.kind && token.children.isEmpty

end Delimiters

/-! ## Conditionals -/

/-- Whether tokens are those of a conditional `z cmp y ? x : t`. -/
def isConditional : List Token → Bool
  | [_, comparison, _, question, _, colon, _] =>
    comparison.kind = .comparison ∧ question.kind = .question ∧ colon.kind = .colon
  | _ => false

/-- Whether siblings, given nearest first, lack just the last operand of a conditional. -/
def awaitsOperand : List Token → Bool
  | colon :: _ :: question :: _ :: comparison :: _ :: _ =>
    colon.kind = .colon ∧ question.kind = .question ∧ comparison.kind = .comparison
  | _ => false

/-- Every conditional among siblings, given nearest first, has been enclosed. -/
def Enclosed : List Token → Prop
  | [] => True
  | _ :: before => awaitsOperand before = false ∧ Enclosed before

/-- Enclosed siblings are no conditional. -/
theorem Enclosed.not_isConditional {siblings : List Token} (h : Enclosed siblings) :
    isConditional siblings.reverse = false := by
  cases hcond : isConditional siblings.reverse with
  | false => rfl
  | true =>
    unfold isConditional at hcond
    split at hcond
    next z comparison y question x colon t heq =>
      obtain rfl : siblings = [t, colon, x, question, y, comparison, z] := by
        rw [← List.reverse_reverse siblings, heq]
        rfl
      have hawaits := of_decide_eq_false h.1
      have hkinds := of_decide_eq_true hcond
      exact absurd ⟨hkinds.2.2, hkinds.2.1, hkinds.1⟩ hawaits
    · exact absurd hcond (by simp)

/-- The conditional that a last operand completes is enclosed. -/
theorem encloseConditional_eq {siblings : List Token} (h : awaitsOperand siblings = true)
    (token : Token) : ∃ operands before, siblings = operands ++ before ∧
      isConditional (operands.reverse ++ [token]) = true ∧
      (Enclosed siblings → ∀ next, Enclosed (next :: before)) ∧
      Outline.encloseConditional ⟨siblings, token⟩
        = ⟨before, Token.paren (operands.reverse ++ [token])⟩ := by
  unfold awaitsOperand at h
  split at h
  next colon x question y comparison z before =>
    have hkinds := of_decide_eq_true h
    refine ⟨[colon, x, question, y, comparison, z], before, rfl, ?_, ?_, ?_⟩
    · exact decide_eq_true ⟨hkinds.2.2, hkinds.2.1, hkinds.1⟩
    · intro henclosed next
      exact henclosed.2.2.2.2.2
    · exact if_pos hkinds.2
  · exact absurd h (by simp)

/-! ## Trees -/

/-- Whether tokens are the single child of a group with nothing in it. -/
def isHollow : List Token → Bool
  | [token] => token.kind = .null
  | _ => false

/-- The marks of a tree. -/
def Token.marks (d : Delimiters) : Token → List Mark
  | ⟨kind, text, _, _, _, _, children⟩ =>
    if isConditional children then marksAll children
    else
      d.startMarks kind text ++ (if d.has kind && isHollow children then [.null]
        else marksAll children) ++ d.endMarks kind
where
  /-- The marks of several trees. -/
  marksAll : List Token → List Mark
    | [] => []
    | token :: rest => marks d token ++ marksAll rest

namespace Token

variable {d : Delimiters} {token : Token}

theorem marksAll_eq (tokens : List Token) :
    marks.marksAll d tokens = tokens.flatMap (marks d) := by
  induction tokens with
  | nil => rfl
  | cons token rest ih => rw [marks.marksAll, ih, List.flatMap_cons]

/-- The parentheses around a conditional have no marks. -/
theorem marks_conditional (h : isConditional token.children = true) :
    token.marks d = token.children.flatMap (marks d) := by
  obtain ⟨kind, text, action, noParams, attrs, modifiers, children⟩ := token
  rw [marks, if_pos h, marksAll_eq]

/-- A group with nothing in it. -/
theorem marks_hollow (hhas : d.has token.kind = true) (h : isHollow token.children = true) :
    token.marks d = [.opening token.kind, .null, .closing token.kind] := by
  obtain ⟨kind, text, action, noParams, attrs, modifiers, children⟩ := token
  have hcond : isConditional children = false := by
    match children, h with
    | [_], _ => rfl
  dsimp only at hhas h ⊢
  simp [marks, hcond, Delimiters.startMarks, Delimiters.endMarks, hhas, h]

/-- Any other token: its text or opening mark, its children, its closing mark. -/
theorem marks_eq (hcond : isConditional token.children = false)
    (hhollow : d.has token.kind = true → isHollow token.children = false) :
    token.marks d = d.startMarks token.kind token.text ++ token.children.flatMap (marks d)
      ++ d.endMarks token.kind := by
  obtain ⟨kind, text, action, noParams, attrs, modifiers, children⟩ := token
  dsimp only at hcond hhollow ⊢
  cases hhas : d.has kind with
  | true => simp [marks, hcond, hhas, hhollow hhas, marksAll_eq]
  | false => simp [marks, hcond, hhas, marksAll_eq]

/-- The text counts only through its marks. -/
theorem marks_setText {text : String}
    (h : textMarks token.kind text = textMarks token.kind token.text) :
    ({ token with text } : Token).marks d = token.marks d := by
  obtain ⟨kind, old, action, noParams, attrs, modifiers, children⟩ := token
  dsimp only at h
  simp only [marks, Delimiters.startMarks, h]

theorem marks_childless (h : token.children = []) :
    token.marks d = d.startMarks token.kind token.text ++ d.endMarks token.kind := by
  rw [marks_eq (by rw [h]; rfl) (by rw [h]; exact fun _ => rfl), h, List.flatMap_nil,
    List.append_nil]

end Token

/-! ## Outlines -/

namespace Outline

variable {d : Delimiters} {outline : Outline} {token : Token} {level parent : Level}
  {outer : List Level}

/-- The marks of the siblings before the last. -/
def earlierMarks (d : Delimiters) (level : Level) : List Mark :=
  level.earlier.reverse.flatMap (Token.marks d)

/-- The marks of the levels around one, up to where that starts. -/
def marksAround (d : Delimiters) : List Level → List Mark
  | [] => []
  | level :: outer =>
    marksAround d outer ++ earlierMarks d level ++ d.startMarks level.last.kind level.last.text

/-- The marks of the tail. -/
def tailMarks (d : Delimiters) (tail : Token) : List Mark :=
  if d.opened tail then [.opening tail.kind] else tail.marks d

/-- The marks of an outline, without those that close the groups open in it. -/
def marks (d : Delimiters) (outline : Outline) : List Mark :=
  match outline.spine with
  | [] => []
  | level :: outer => marksAround d outer ++ earlierMarks d level ++ tailMarks d level.last

/-- The delimited groups around a level, from the inside out. -/
def opensAround (d : Delimiters) (spine : List Level) : List TokenKind :=
  (spine.map (·.last.kind)).filter d.has

/-- The delimited groups open in an outline, from the inside out. -/
def opens (d : Delimiters) (outline : Outline) : List TokenKind :=
  match outline.spine with
  | [] => []
  | level :: outer =>
    (if d.opened level.last then [level.last.kind] else []) ++ opensAround d outer

/-- What reading keeps: no token waits for the next one, the tail stands in groups and equations,
    the child of an empty group is not the tail, and every conditional that is complete is
    enclosed. -/
structure Orderly (outline : Outline) : Prop where
  pending : outline.pending = []
  around : ∀ level ∈ outline.spine.tail, level.last.kind.isGroup = true ∨ isEquation level.last
  visible : ∀ level ∈ outline.spine, level.last.kind ≠ .null
  enclosed : ∀ level ∈ outline.spine, Enclosed (level.last :: level.earlier)

theorem empty_orderly : Orderly {} := ⟨rfl, by simp, by simp, by simp⟩

/-- The siblings of the tail lack just the last operand of a conditional. -/
def awaits (outline : Outline) : Bool :=
  outline.spine.head?.any fun level => awaitsOperand (level.last :: level.earlier)

theorem tailMarks_childless (h : token.children = []) :
    tailMarks d token = d.startMarks token.kind token.text := by
  cases hhas : d.has token.kind with
  | true => simp [tailMarks, Delimiters.opened, Delimiters.startMarks, h, hhas]
  | false =>
    simp [tailMarks, Delimiters.opened, hhas, Token.marks_childless h, Delimiters.endMarks]

theorem tailMarks_of_not_opened (h : d.opened token = false) :
    tailMarks d token = token.marks d := by
  simp only [tailMarks, h, Bool.false_eq_true, if_false]

theorem not_opened_of_not_nests (h : nests token = false) : d.opened token = false := by
  cases hopened : d.opened token with
  | false => rfl
  | true =>
    obtain ⟨hhas, hempty⟩ := Bool.and_eq_true_iff.1 hopened
    simp [nests, hempty, d.group _ hhas] at h

theorem not_opened_paren {tokens : List Token} :
    d.opened (Token.paren (tokens ++ [token])) = false := by
  simp [Delimiters.opened, Token.paren]

theorem childless_of_nests (h : nests token = true) : token.children = [] :=
  List.isEmpty_iff.1 (of_decide_eq_true h).1

/-! ## A token added -/

/-- What an outline becomes when a token is added. -/
inductive Grown (outline : Outline) (token : Token) : Outline → Prop where
  | first (h : outline.spine = []) : Grown outline token { outline with spine := [⟨[], token⟩] }
  | below {level : Level} {outer : List Level} (h : outline.spine = level :: outer)
      (hnests : nests level.last = true) :
      Grown outline token { outline with spine := ⟨[], token⟩ :: level :: outer }
  | beside {level : Level} {outer : List Level} (h : outline.spine = level :: outer)
      (hnests : nests level.last = false) (hawaits : outline.awaits = false) :
      Grown outline token
        { outline with spine := ⟨level.last :: level.earlier, token⟩ :: outer }
  | enclosing {level : Level} {operands before : List Token} {outer : List Level}
      (h : outline.spine = level :: outer) (hnests : nests level.last = false)
      (hawaits : outline.awaits = true)
      (hsiblings : level.last :: level.earlier = operands ++ before)
      (hconditional : isConditional (operands.reverse ++ [token]) = true)
      (henclosed : Enclosed (level.last :: level.earlier) → ∀ next, Enclosed (next :: before)) :
      Grown outline token
        { outline with spine := ⟨before, Token.paren (operands.reverse ++ [token])⟩ :: outer }

/-- Siblings that lack no last operand stay as they are. -/
theorem encloseConditional_of_not_awaits {last : Token} {earlier : List Token}
    (hcolon : last.kind = .colon) (h : awaitsOperand (last :: earlier) = false) (token : Token) :
    encloseConditional ⟨last :: earlier, token⟩ = ⟨last :: earlier, token⟩ := by
  unfold encloseConditional
  split
  next x question y comparison z before heq =>
    obtain ⟨rfl, rfl⟩ := List.cons.inj heq
    refine if_neg fun hkinds => ?_
    exact of_decide_eq_false h ⟨hcolon, hkinds⟩
  · rfl

/-- **Adding a token** puts it first, below the tail or beside it, or encloses the conditional of
    which it is the last operand. -/
theorem grown_append (outline : Outline) (token : Token) :
    Grown outline token (outline.append token) := by
  cases hspine : outline.spine with
  | nil =>
    simp only [append, hspine]
    exact .first hspine
  | cons level outer =>
    cases hnests : nests level.last with
    | true =>
      simp only [append, hspine, hnests, if_true]
      exact .below hspine hnests
    | false =>
      simp only [append, hspine, hnests, Bool.false_eq_true, if_false]
      have hawaits : outline.awaits = awaitsOperand (level.last :: level.earlier) := by
        simp [awaits, hspine]
      cases hlacks : awaitsOperand (level.last :: level.earlier) with
      | true =>
        have hcolon : level.last.kind = .colon := by
          unfold awaitsOperand at hlacks
          split at hlacks
          next heq =>
            obtain ⟨rfl, -⟩ := List.cons.inj heq
            exact (of_decide_eq_true hlacks).1
          · exact absurd hlacks (by simp)
        obtain ⟨operands, before, hsiblings, hconditional, henclosed, heq⟩ :=
          encloseConditional_eq hlacks token
        rw [if_pos hcolon, heq]
        exact .enclosing hspine hnests (hawaits.trans hlacks) hsiblings hconditional henclosed
      | false =>
        have hsame : (if level.last.kind = .colon
            then encloseConditional ⟨level.last :: level.earlier, token⟩
            else ⟨level.last :: level.earlier, token⟩)
              = (⟨level.last :: level.earlier, token⟩ : Level) := by
          split
          next hcolon => exact encloseConditional_of_not_awaits hcolon hlacks token
          · rfl
        rw [hsame]
        exact .beside hspine hnests (hawaits.trans hlacks)

/-- A token added keeps the outline orderly. -/
theorem Orderly.append (h : outline.Orderly) (hnull : token.kind ≠ .null) :
    (outline.append token).Orderly := by
  have haround := h.around
  have hvisible := h.visible
  have henclosed := h.enclosed
  have hgrown := grown_append outline token
  generalize outline.append token = grown at hgrown ⊢
  cases hgrown with
  | first hspine =>
    exact ⟨h.pending, by simp, by simpa using hnull, by simp [Enclosed, awaitsOperand]⟩
  | below hspine hnests =>
    rw [hspine, List.tail_cons] at haround
    rw [hspine] at hvisible henclosed
    exact ⟨h.pending, List.forall_mem_cons.2 ⟨(of_decide_eq_true hnests).2, haround⟩,
      List.forall_mem_cons.2 ⟨hnull, hvisible⟩,
      List.forall_mem_cons.2 ⟨⟨rfl, trivial⟩, henclosed⟩⟩
  | @beside level outer hspine hnests hawaits =>
    have hlacks : awaitsOperand (level.last :: level.earlier) = false := by
      simpa [awaits, hspine] using hawaits
    rw [hspine, List.tail_cons] at haround
    rw [hspine, List.forall_mem_cons] at hvisible henclosed
    exact ⟨h.pending, haround, List.forall_mem_cons.2 ⟨hnull, hvisible.2⟩,
      List.forall_mem_cons.2 ⟨⟨hlacks, henclosed.1⟩, henclosed.2⟩⟩
  | enclosing hspine hnests hawaits hsiblings hconditional hrest =>
    rw [hspine, List.tail_cons] at haround
    rw [hspine, List.forall_mem_cons] at hvisible henclosed
    exact ⟨h.pending, haround, List.forall_mem_cons.2 ⟨by simp [Token.paren], hvisible.2⟩,
      List.forall_mem_cons.2 ⟨hrest henclosed.1 _, henclosed.2⟩⟩

/-- **The marks of a token added** come last, if a delimited group is not the last operand of a
    conditional. -/
theorem marks_append (hchildless : token.children = [])
    (hoperand : outline.awaits = true → d.has token.kind = false) :
    (outline.append token).marks d = outline.marks d ++ d.startMarks token.kind token.text := by
  have htail := tailMarks_childless (d := d) hchildless
  have hgrown := grown_append outline token
  generalize outline.append token = grown at hgrown ⊢
  cases hgrown with
  | first hspine => simp [marks, hspine, marksAround, earlierMarks, htail]
  | below hspine hnests =>
    simp [marks, hspine, marksAround, earlierMarks, htail,
      tailMarks_childless (childless_of_nests hnests)]
  | beside hspine hnests _ =>
    simp [marks, hspine, earlierMarks, htail,
      tailMarks_of_not_opened (not_opened_of_not_nests hnests)]
  | @enclosing level operands before outer hspine hnests hawaits hsiblings hconditional _ =>
    have hhas := hoperand hawaits
    have hmarks : token.marks d = d.startMarks token.kind token.text := by
      simp [Token.marks_childless hchildless, Delimiters.endMarks, hhas]
    have hparen : tailMarks d (Token.paren (operands.reverse ++ [token]))
        = operands.reverse.flatMap (Token.marks d) ++ token.marks d := by
      rw [tailMarks_of_not_opened not_opened_paren, Token.marks_conditional hconditional]
      simp [Token.paren]
    have hlevel : earlierMarks d level ++ tailMarks d level.last
        = before.reverse.flatMap (Token.marks d) ++ operands.reverse.flatMap (Token.marks d) := by
      have hreverse := congrArg List.reverse hsiblings
      rw [tailMarks_of_not_opened (not_opened_of_not_nests hnests), earlierMarks,
        ← List.flatMap_append, ← List.reverse_append, ← hsiblings, List.reverse_cons,
        List.flatMap_append, List.flatMap_singleton]
    have hold : outline.marks d = marksAround d outer ++
        (before.reverse.flatMap (Token.marks d) ++ operands.reverse.flatMap (Token.marks d)) := by
      simp only [marks, hspine, List.append_assoc, hlevel]
    rw [hold, ← hmarks]
    simp [marks, hparen, earlierMarks]

/-- A delimited group added is open. -/
theorem opens_append (hchildless : token.children = [])
    (hoperand : outline.awaits = true → d.has token.kind = false) :
    (outline.append token).opens d
      = (if d.has token.kind then [token.kind] else []) ++ outline.opens d := by
  have hopened : d.opened token = d.has token.kind := by simp [Delimiters.opened, hchildless]
  have hgrown := grown_append outline token
  generalize outline.append token = grown at hgrown ⊢
  cases hgrown with
  | first hspine => simp [opens, hspine, hopened, opensAround]
  | @below level outer hspine hnests =>
    have hlast : d.opened level.last = d.has level.last.kind := by
      simp [Delimiters.opened, childless_of_nests hnests]
    simp only [opens, hspine, hopened, hlast, opensAround, List.map_cons, List.filter_cons]
    cases d.has level.last.kind <;> simp
  | beside hspine hnests _ =>
    simp [opens, hspine, hopened, not_opened_of_not_nests hnests]
  | enclosing hspine hnests hawaits _ _ _ =>
    simp [opens, hspine, hoperand hawaits, not_opened_of_not_nests hnests, not_opened_paren]

/-! ## The tail and the group around it -/

theorem tail?_eq (hspine : outline.spine = level :: outer) : outline.tail? = some level.last := by
  simp [tail?, hspine]

theorem exists_tail {tail : Token} (h : outline.tail? = some tail) :
    ∃ level outer, outline.spine = level :: outer ∧ level.last = tail := by
  obtain ⟨level, hhead, hlast⟩ := Option.map_eq_some_iff.1 h
  obtain ⟨outer, hspine⟩ := List.head?_eq_some_iff.1 hhead
  exact ⟨level, outer, hspine, hlast⟩

theorem parent?_eq (hspine : outline.spine = level :: parent :: outer) :
    outline.parent? = some parent.last := by
  simp [parent?, hspine]

/-- A parent is that of the level around the tail. -/
theorem exists_parent {p : Token → Bool} (h : outline.parent?.any p = true) :
    ∃ level parent outer, outline.spine = level :: parent :: outer ∧ p parent.last = true := by
  rcases hspine : outline.spine with _ | ⟨level, _ | ⟨parent, outer⟩⟩
  · simp [parent?, hspine] at h
  · simp [parent?, hspine] at h
  · rw [parent?_eq hspine] at h
    exact ⟨level, parent, outer, rfl, h⟩

/-! ## A group left or found empty -/

theorem flatMap_tokens (level : Level) :
    level.tokens.flatMap (Token.marks d) = earlierMarks d level ++ level.last.marks d := by
  simp [Level.tokens, earlierMarks]

/-- The marks of a token that gets the siblings of a level as its children. -/
theorem marks_children (hnull : level.last.kind ≠ .null)
    (henclosed : Enclosed (level.last :: level.earlier)) (token : Token) :
    ({ token with children := level.tokens } : Token).marks d
      = d.startMarks token.kind token.text ++ level.tokens.flatMap (Token.marks d)
        ++ d.endMarks token.kind := by
  have hhollow : isHollow level.tokens = false := by
    cases hearlier : level.earlier with
    | nil => simp [Level.tokens, hearlier, isHollow, hnull]
    | cons first rest =>
      have hlen : level.tokens.length = rest.length + 2 := by simp [Level.tokens, hearlier]
      cases htokens : level.tokens with
      | nil => rfl
      | cons first more =>
        cases more with
        | nil => simp [htokens] at hlen
        | cons second more => rfl
  exact Token.marks_eq henclosed.not_isConditional fun _ => hhollow

theorem leave_eq (hspine : outline.spine = level :: parent :: outer) :
    outline.leave = { outline with
      spine := { parent with last := { parent.last with children := level.tokens } } :: outer } := by
  simp only [leave, hspine]

theorem not_opened_children (level : Level) (token : Token) :
    d.opened { token with children := level.tokens } = false := by
  simp [Delimiters.opened, Level.tokens]

theorem Orderly.leave (h : outline.Orderly) : outline.leave.Orderly := by
  unfold Outline.leave
  split
  next level parent outer hspine =>
    have haround := h.around
    have hvisible := h.visible
    have henclosed := h.enclosed
    simp only [hspine, List.tail_cons, List.forall_mem_cons] at haround hvisible henclosed
    exact ⟨h.pending, haround.2, List.forall_mem_cons.2 hvisible.2,
      List.forall_mem_cons.2 henclosed.2⟩
  · exact h

/-- **To leave a group** closes it. -/
theorem marks_leave (h : outline.Orderly) (hspine : outline.spine = level :: parent :: outer)
    (hopened : d.opened level.last = false) :
    outline.leave.marks d = outline.marks d ++ d.endMarks parent.last.kind := by
  have hnull : level.last.kind ≠ .null := h.visible level (by simp [hspine])
  have henclosed : Enclosed (level.last :: level.earlier) := h.enclosed level (by simp [hspine])
  have hparent : tailMarks d { parent.last with children := level.tokens }
      = d.startMarks parent.last.kind parent.last.text
        ++ (earlierMarks d level ++ tailMarks d level.last) ++ d.endMarks parent.last.kind := by
    rw [tailMarks_of_not_opened (not_opened_children level parent.last),
      marks_children hnull henclosed, flatMap_tokens, tailMarks_of_not_opened hopened]
  rw [leave_eq hspine]
  simp [marks, hspine, marksAround, hparent, earlierMarks]

theorem opens_leave (hspine : outline.spine = level :: parent :: outer)
    (hopened : d.opened level.last = false) :
    outline.opens d
      = (if d.has parent.last.kind then [parent.last.kind] else []) ++ outline.leave.opens d := by
  rw [leave_eq hspine]
  simp only [opens, hspine, hopened, not_opened_children, opensAround, List.map_cons,
    List.filter_cons]
  cases d.has parent.last.kind <;> simp

/-- The child of a group with nothing in it. -/
def hollowed (tail : Token) : Token := { tail with children := [{ kind := .null, text := "" }] }

/-- **To close a group** leaves it if the tail stands in it, gives it a child if it is the tail and
    has none, and otherwise does nothing. -/
theorem close_moves (outline : Outline) (kind : TokenKind) :
    (outline.parent?.any (·.kind = kind) = true ∧ outline.close kind = outline.leave)
    ∨ outline.parent?.any (·.kind = kind) = false
      ∧ ((∃ level outer, outline.spine = level :: outer ∧ level.last.kind = kind
          ∧ level.last.children = [] ∧ outline.close kind = outline.setTail (hollowed level.last))
        ∨ outline.close kind = outline) := by
  unfold close
  split
  next hparent => exact .inl ⟨hparent, rfl⟩
  next hparent =>
    refine .inr ⟨Bool.eq_false_iff.2 hparent, ?_⟩
    split
    next tail htail =>
      split
      next hempty =>
        obtain ⟨level, outer, hspine, rfl⟩ := exists_tail htail
        exact .inl ⟨level, outer, hspine, hempty.1, List.isEmpty_iff.1 hempty.2, rfl⟩
      · exact .inr rfl
    · exact .inr rfl

theorem setTail_eq (hspine : outline.spine = level :: outer) (token : Token) :
    outline.setTail token = { outline with spine := { level with last := token } :: outer } := by
  simp only [setTail, hspine]

theorem Orderly.setTail (h : outline.Orderly) (hspine : outline.spine = level :: outer)
    (hkind : token.kind = level.last.kind) : (outline.setTail token).Orderly := by
  have haround := h.around
  have hvisible := h.visible
  have henclosed := h.enclosed
  rw [hspine, List.tail_cons] at haround
  rw [hspine, List.forall_mem_cons] at hvisible henclosed
  rw [setTail_eq hspine]
  exact ⟨h.pending, haround, List.forall_mem_cons.2 ⟨hkind ▸ hvisible.1, hvisible.2⟩,
    List.forall_mem_cons.2 henclosed⟩

/-- **A group found empty** gets its child and is closed. -/
theorem marks_hollowed (hspine : outline.spine = level :: outer)
    (hchildless : level.last.children = []) :
    (outline.setTail (hollowed level.last)).marks d = outline.marks d
      ++ if d.has level.last.kind then [.null, .closing level.last.kind] else [] := by
  have hopened : d.opened (hollowed level.last) = false := by simp [Delimiters.opened, hollowed]
  have htail : tailMarks d (hollowed level.last) = tailMarks d level.last
      ++ if d.has level.last.kind then [.null, .closing level.last.kind] else [] := by
    rw [tailMarks_of_not_opened hopened, tailMarks_childless hchildless]
    cases hhas : d.has level.last.kind with
    | true =>
      have hhollow : (hollowed level.last).marks d = _ := Token.marks_hollow hhas rfl
      rw [hhollow]
      simp [hollowed, Delimiters.startMarks, hhas]
    | false =>
      have hnone : d.has .null = false := Bool.eq_false_iff.2 fun hnull =>
        absurd (d.group _ hnull) (by decide)
      have hnull : ({ kind := .null, text := "" } : Token).marks d = [] := by
        rw [Token.marks_childless rfl]
        simp [Delimiters.startMarks, Delimiters.endMarks, hnone, textMarks]
      rw [Token.marks_eq rfl (by simp [hollowed, hhas])]
      simp [hollowed, hnull, Delimiters.endMarks, hhas]
  rw [setTail_eq hspine]
  simp [marks, hspine, htail, earlierMarks]

theorem opens_hollowed (hspine : outline.spine = level :: outer)
    (hchildless : level.last.children = []) :
    outline.opens d = (if d.has level.last.kind then [level.last.kind] else [])
      ++ (outline.setTail (hollowed level.last)).opens d := by
  rw [setTail_eq hspine]
  simp [opens, hspine, hchildless, Delimiters.opened, hollowed]

/-! ## A token merged into the tail -/

/-- What merges goes into the text of the tail. -/
theorem exists_merged {kind : TokenKind} {text : String} {outline' : Outline}
    (h : outline.mergeIntoTail? kind text = some outline') :
    ∃ level outer merged, outline.spine = level :: outer
      ∧ mergedText? kind text level.last = some merged
      ∧ outline.setTail { level.last with text := merged } = outline' := by
  obtain ⟨tail, htail, hmap⟩ := Option.bind_eq_some_iff.1 h
  obtain ⟨merged, hmerged, heq⟩ := Option.map_eq_some_iff.1 hmap
  obtain ⟨level, outer, hspine, rfl⟩ := exists_tail htail
  exact ⟨level, outer, merged, hspine, hmerged, heq⟩

/-- Only signs and comparisons merge, and they stay what they are. -/
theorem textMarks_merged {kind : TokenKind} {text merged : String} {tail : Token}
    (h : mergedText? kind text tail = some merged) :
    textMarks kind text = [.loose] ∧ textMarks tail.kind merged = textMarks tail.kind tail.text := by
  unfold mergedText? at h
  split at h
  next hsigns =>
    obtain rfl := Option.some.inj h
    simp [textMarks, hsigns]
  · split at h
    next hsigns =>
      obtain rfl := Option.some.inj h
      simp [textMarks, hsigns]
    · split at h
      next hsigns =>
        obtain rfl := Option.some.inj h
        simp [textMarks, hsigns.1]
      · split at h
        next hkinds => simp [textMarks, hkinds.1, hkinds.2]
        · exact absurd h (by simp)

/-- A sign or comparison merged into the tail changes no mark and opens no group. -/
theorem marks_merged {kind : TokenKind} {text merged : String}
    (hspine : outline.spine = level :: outer) (h : mergedText? kind text level.last = some merged) :
    (outline.setTail { level.last with text := merged }).marks d = outline.marks d ∧
      (outline.setTail { level.last with text := merged }).opens d = outline.opens d := by
  have hmarks : ({ level.last with text := merged } : Token).marks d = level.last.marks d :=
    Token.marks_setText (textMarks_merged h).2
  have htail : tailMarks d { level.last with text := merged } = tailMarks d level.last := by
    simp only [tailMarks, hmarks]
    rfl
  rw [setTail_eq hspine]
  constructor
  · simp only [marks, hspine, htail, earlierMarks]
  · simp only [opens, hspine, Delimiters.opened]
    rfl

/-! ## Kinds around the tail -/

/-- A token added brings its kind into the outline, and the parentheses of a conditional. -/
theorem inside_append {kind : TokenKind} (hkind : token.kind ≠ kind) (hparen : kind ≠ .openParen)
    (h : outline.inside kind = false) : (outline.append token).inside kind = false := by
  have hgrown := grown_append outline token
  generalize outline.append token = grown at hgrown ⊢
  cases hgrown with
  | first hspine => simpa [inside] using hkind
  | below hspine hnests =>
    rw [inside, hspine] at h
    rw [inside, List.any_cons, h]
    simpa using hkind
  | beside hspine hnests _ =>
    rw [inside, hspine, List.any_cons, Bool.or_eq_false_iff] at h
    rw [inside, List.any_cons, h.2]
    simpa using hkind
  | enclosing hspine hnests _ _ _ _ =>
    rw [inside, hspine, List.any_cons, Bool.or_eq_false_iff] at h
    rw [inside, List.any_cons, h.2]
    simp [Token.paren, hparen.symm]

theorem inside_leave {kind : TokenKind} (h : outline.inside kind = false) :
    outline.leave.inside kind = false := by
  unfold leave
  split
  next level parent outer hspine =>
    rw [inside, hspine, List.any_cons, Bool.or_eq_false_iff] at h
    exact h.2
  · exact h

theorem inside_setTail {kind : TokenKind} (hspine : outline.spine = level :: outer)
    (hkind : token.kind = level.last.kind) :
    (outline.setTail token).inside kind = outline.inside kind := by
  rw [setTail_eq hspine]
  simp [inside, hspine, hkind]

theorem inside_close {kind : TokenKind} (opened : TokenKind) (h : outline.inside kind = false) :
    (outline.close opened).inside kind = false := by
  rcases outline.close_moves opened with
    ⟨-, hclose⟩ | ⟨-, ⟨level, outer, hspine, -, -, hclose⟩ | hclose⟩
  · rw [hclose]
    exact inside_leave h
  · rw [hclose]
    exact (inside_setTail hspine (show (hollowed level.last).kind = _ from rfl)).trans h
  · rw [hclose]
    exact h

/-! ## The finished tree -/

theorem marks_rootsAround (hnull : level.last.kind ≠ .null)
    (henclosed : Enclosed (level.last :: level.earlier))
    (hvisible : ∀ level ∈ outer, level.last.kind ≠ .null)
    (houter : ∀ level ∈ outer, Enclosed (level.last :: level.earlier)) :
    (rootsAround level.tokens outer).flatMap (Token.marks d)
      = marksAround d outer ++ level.tokens.flatMap (Token.marks d)
        ++ (opensAround d outer).map .closing := by
  induction outer generalizing level with
  | nil => simp [rootsAround, marksAround, opensAround]
  | cons parent outer ih =>
    rw [List.forall_mem_cons] at hvisible houter
    let left : Level := ⟨parent.earlier, { parent.last with children := level.tokens }⟩
    have hparent : left.last.marks d = _ := marks_children hnull henclosed parent.last
    have hroots : (rootsAround left.tokens outer).flatMap (Token.marks d) = _ :=
      ih hvisible.1 houter.1 hvisible.2 houter.2
    rw [rootsAround, hroots, flatMap_tokens, hparent]
    simp only [marksAround, opensAround, earlierMarks, Delimiters.endMarks, List.map_cons,
      List.filter_cons]
    cases d.has parent.last.kind <;> simp [left]

/-- **The finished tree** closes the groups that are open. -/
theorem roots_marks (h : outline.Orderly) :
    outline.roots.flatMap (Token.marks d) = outline.marks d ++ (outline.opens d).map .closing := by
  have hvisible := h.visible
  have henclosed := h.enclosed
  cases hspine : outline.spine with
  | nil => simp [roots, marks, opens, hspine]
  | cons level outer =>
    rw [hspine, List.forall_mem_cons] at hvisible henclosed
    have hlast : level.last.marks d = tailMarks d level.last
        ++ (if d.opened level.last then [level.last.kind] else []).map .closing := by
      cases hopened : d.opened level.last with
      | false => simp [tailMarks_of_not_opened hopened]
      | true =>
        obtain ⟨hhas, hempty⟩ := Bool.and_eq_true_iff.1 hopened
        rw [Token.marks_childless (List.isEmpty_iff.1 hempty)]
        simp [tailMarks, hopened, Delimiters.startMarks, Delimiters.endMarks, hhas]
    simp only [roots, marks, opens, hspine]
    rw [marks_rootsAround hvisible.1 henclosed.1 hvisible.2 henclosed.2, flatMap_tokens, hlast]
    simp

/-- To leave a group changes nothing in the finished tree. -/
theorem roots_leave (outline : Outline) : outline.leave.roots = outline.roots := by
  unfold leave
  split
  next level parent outer hspine => simp only [roots, hspine, rootsAround]
  · rfl

end Outline
end InvertedIndex
