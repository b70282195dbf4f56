import InvertedIndex.Proofs.Query.Written
import Mathlib

/-!
# `Proofs.Query.Brackets` — brackets nest as they are written

Which groups are open while a query is read is not stored: a closing bracket looks at the tail and
its parent. For balanced brackets that is enough. The groups open in the outline are those of the
brackets still to be closed, innermost first, so that each closing bracket finds the group that it
closes, right above the tail or, if the group is empty, as the tail.

Four things come between a bracket and its group, and are set apart: an empty pair directly in a
group of its kind, where the outer group is taken for the one to close; an operand of an equation,
which hides the group around it from a closing bracket; a space behind a bracket that is itself such
an operand; and a bracket that is the last operand of a conditional. The group that an operand hides
stays open, which shows only if anything is added to the tree after it.

## Contents
- `balanced`: brackets that match;
- `Outline.Tells.close`, `Tells.opening`, `Tells.sign`: one mark;
- `Scanner.adds`, `Scanner.Idle`: characters that add nothing; `scanFrom_idle`, `writtenFrom_idle`;
- `Scanner.mislaid`: the characters that miss their group;
- `Scanner.Brackets`: what a scanner keeps; `Brackets.step`: one character;
- `brackets_nest`: whole queries; `empty_pair_misplaced`: a pair that loses its place.
-/

namespace InvertedIndex

/-! ## Balanced marks -/

/-- Whether marks close the groups that are open, from the inside out, and those that they open. -/
def balanced : List TokenKind → List Mark → Bool
  | opens, [] => opens.isEmpty
  | opens, .opening kind :: rest => balanced (kind :: opens) rest
  | [], .closing _ :: _ => false
  | opened :: opens, .closing kind :: rest => opened = kind && balanced opens rest
  | opens, _ :: rest => balanced opens rest

/-- Characters leave the groups that are open open. -/
theorem balanced_characters {opens : List TokenKind} {marks rest : List Mark}
    (h : ∀ mark ∈ marks, ∃ c, mark = .character c) :
    balanced opens (marks ++ rest) = balanced opens rest := by
  induction marks with
  | nil => rfl
  | cons mark more ih =>
    obtain ⟨⟨c, rfl⟩, hmore⟩ := List.forall_mem_cons.1 h
    rw [List.cons_append, ← ih hmore]
    cases opens <;> rfl

theorem balanced_text {opens : List TokenKind} (kind : TokenKind) (text : String)
    (rest : List Mark) : balanced opens (textMarks kind text ++ rest) = balanced opens rest := by
  unfold textMarks
  split
  · cases opens <;> rfl
  · exact balanced_characters (by simp)

/-- A mark that closes a group or may be missing. -/
def Mark.Trailing (mark : Mark) : Prop := mark = .loose ∨ ∃ kind, mark = .closing kind

/-- Groups closed one after the other, the innermost of which is not empty, with nothing between that
    has to be there. -/
theorem Shows.trailing {written shown marks : List Mark} {opens : List TokenKind}
    (h : Shows written shown) (hfilled : ∀ opened, shown.getLast? ≠ some (.opening opened))
    (hmarks : ∀ mark ∈ marks, mark.Trailing) (hbalanced : balanced opens marks = true) :
    Shows (written ++ marks) (shown ++ opens.map .closing) := by
  induction marks generalizing written shown opens with
  | nil =>
    obtain rfl : opens = [] := by simpa [balanced] using hbalanced
    simpa using h
  | cons mark rest ih =>
    obtain ⟨hmark, hrest⟩ := List.forall_mem_cons.1 hmarks
    rcases hmark with rfl | ⟨kind, rfl⟩
    · have hopens : balanced opens rest = true := by cases opens <;> exact hbalanced
      have hnext := ih h.dropped hfilled hrest hopens
      rwa [List.append_assoc] at hnext
    · cases opens with
      | nil => exact absurd hbalanced (by simp [balanced])
      | cons opened opens =>
        obtain ⟨hkind, hopens⟩ := Bool.and_eq_true_iff.1 hbalanced
        obtain rfl := of_decide_eq_true hkind
        have hnext := ih (h.closing hfilled opened) (by simp) hrest hopens
        rwa [List.append_assoc, List.append_assoc] at hnext

/-! ## A closing bracket -/

namespace Outline

variable {d : Delimiters} {outline : Outline} {opens : List TokenKind} {written : List Mark}
  {kind : TokenKind}

/-- Whether the tail is a bracket with nothing in it yet. -/
def justOpened (outline : Outline) : Bool := outline.tail?.any Delimiters.brackets.opened

/-- Whether the tail stands in a group that is no quotation, or in an equation. -/
theorem parent_cases (h : outline.Orderly) (hquote : outline.inside .doubleQuote = false)
    {level parent : Level} {outer : List Level}
    (hspine : outline.spine = level :: parent :: outer) :
    Delimiters.brackets.has parent.last.kind = true ∨ isEquation parent.last = true := by
  rw [inside, hspine, List.any_cons, List.any_cons, Bool.or_eq_false_iff,
    Bool.or_eq_false_iff] at hquote
  refine (h.around parent (by simp [hspine])).imp_left fun hgroup => ?_
  have hnotQuote := of_decide_eq_false hquote.2.1
  unfold Delimiters.brackets
  cases hkind : parent.last.kind <;> simp_all [TokenKind.isGroup]

/-- **A closing bracket closes the innermost group**, unless that is empty and its parent of the
    same kind, or an equation stands between. -/
theorem Tells.close (h : Tells .brackets outline (kind :: opens) written)
    (hquote : outline.inside .doubleQuote = false)
    (hempty : outline.justOpened = true → outline.parent?.any (·.kind = kind) = false)
    (hequation : outline.justOpened = false → outline.parent?.any isEquation = false) :
    Tells .brackets (outline.close kind) opens (written ++ [.closing kind]) := by
  have hopens := h.opens
  cases hspine : outline.spine with
  | nil => exact absurd hopens (by simp [Outline.opens, hspine])
  | cons level outer =>
    have htail := tail?_eq hspine
    have hlast : outline.justOpened = Delimiters.brackets.opened level.last := by
      simp [justOpened, htail]
    cases hopened : Delimiters.brackets.opened level.last with
    | true =>
      -- The group is the tail, and gets its child.
      obtain ⟨hhas, hchildless⟩ := Bool.and_eq_true_iff.1 hopened
      have hchildren := List.isEmpty_iff.1 hchildless
      have hkind : level.last.kind = kind := by
        simp only [Outline.opens, hspine, hopened, if_true, List.cons_append, List.nil_append]
          at hopens
        exact (List.cons.inj hopens).1
      have hclose : outline.close kind = outline.setTail (hollowed level.last) := by
        simp [Outline.close, hempty (hlast.trans hopened), htail, hkind, hchildren, hollowed]
      have hemptied := h.emptied hspine hchildren
      have hrest := opens_hollowed (d := .brackets) hspine hchildren
      rw [hopens, if_pos hhas, hkind] at hrest
      obtain ⟨-, rfl⟩ := List.cons.inj hrest
      rw [Delimiters.endMarks, if_pos hhas, hkind] at hemptied
      rw [hclose]
      exact hemptied
    | false =>
      -- The group is the parent of the tail, which becomes the tail.
      cases outer with
      | nil => exact absurd hopens (by simp [Outline.opens, hspine, hopened, opensAround])
      | cons parent outer =>
        have hhas : Delimiters.brackets.has parent.last.kind = true := by
          refine (parent_cases h.orderly hquote hspine).resolve_right fun heq => ?_
          have hnone := hequation (hlast.trans hopened)
          simp [parent?_eq hspine, heq] at hnone
        have hrest := opens_leave (d := .brackets) hspine hopened
        rw [hopens, if_pos hhas] at hrest
        obtain ⟨rfl, rfl⟩ := List.cons.inj hrest
        have hclose : outline.close parent.last.kind = outline.leave := by
          simp [Outline.close, parent?_eq hspine]
        have hleft := h.left hspine hopened
        rw [hclose]
        simpa [Delimiters.endMarks, hhas] using hleft

/-- A closing bracket of another kind than the innermost group counts for nothing. -/
theorem Tells.close_other (h : Tells .brackets outline opens written)
    (hhas : Delimiters.brackets.has kind = true) (hother : opens.head? ≠ some kind)
    (hempty : outline.justOpened = true → outline.parent?.any (·.kind = kind) = false) :
    outline.close kind = outline := by
  have hopens := h.opens
  have hparent : outline.parent?.any (·.kind = kind) = false := by
    cases hfresh : outline.justOpened with
    | true => exact hempty hfresh
    | false =>
      refine Bool.eq_false_iff.2 fun hinside => hother ?_
      obtain ⟨level, parent, outer, hspine, hkind⟩ := exists_parent hinside
      have hopened : Delimiters.brackets.opened level.last = false := by
        simpa [justOpened, tail?_eq hspine] using hfresh
      rw [← hopens, opens_leave hspine hopened, of_decide_eq_true hkind, if_pos hhas]
      rfl
  rcases outline.close_moves kind with
    ⟨hinside, -⟩ | ⟨-, ⟨level, outer, hspine, hkind, hchildless, -⟩ | hclose⟩
  · exact absurd hinside (by simp [hparent])
  · refine absurd ?_ hother
    rw [← hopens]
    simp [Outline.opens, hspine, Delimiters.opened, hkind, hhas, hchildless]
  · exact hclose

/-! ## Other marks -/

theorem bracket_cases (h : Delimiters.brackets.has kind = true) :
    kind = .openParen ∨ kind = .openBrace ∨ kind = .openBracket :=
  of_decide_eq_true h

/-- A bracket merges into nothing. -/
theorem mergeIntoTail?_opening {c : Char} (hclass : CharClass.of c = .mark kind)
    (hhas : Delimiters.brackets.has kind = true) :
    outline.mergeIntoTail? kind (String.singleton c) = none := by
  have hsign : kind ≠ .comma ∧ kind ≠ .comparison ∧ kind ≠ .operator := by
    rcases bracket_cases hhas with rfl | rfl | rfl <;> simp
  obtain ⟨hdash, hplus⟩ := Scanner.singleton_ne_sign hclass hsign
  exact Quiet.mergeIntoTail?_eq_none hdash hplus hsign.2.1

theorem Tells.place_opening (h : Tells .brackets outline opens written) {c : Char}
    (hclass : CharClass.of c = .mark kind) (hhas : Delimiters.brackets.has kind = true) :
    outline.place kind (String.singleton c) .normal [] none
      = outline.append { kind, text := String.singleton c } := by
  have hmerge : outline.mergeIntoTail? kind (String.singleton c) = none :=
    mergeIntoTail?_opening hclass hhas
  have hsteer : outline.steer? kind = none := by
    rcases bracket_cases hhas with rfl | rfl | rfl <;> rfl
  simp [place, hmerge, hsteer, attach, h.orderly.pending]

/-- **An opening bracket opens a group.** -/
theorem Tells.opening (h : Tells .brackets outline opens written) {c : Char}
    (hclass : CharClass.of c = .mark kind) (hhas : Delimiters.brackets.has kind = true)
    (hawaits : outline.awaits = false) :
    Tells .brackets (outline.place kind (String.singleton c) .normal [] none) (kind :: opens)
      (written ++ [.opening kind]) := by
  rw [h.place_opening hclass hhas]
  refine h.opened rfl ?_ hhas hawaits
  rcases bracket_cases hhas with rfl | rfl | rfl <;> simp

/-- The marks that neither open nor close a group. -/
theorem sign_of_mark {c : Char} (hclass : CharClass.of c = .mark kind)
    (hclosed : closedBy? kind = none) (hhas : Delimiters.brackets.has kind = false) :
    kind = .comma ∨ kind = .comparison ∨ kind = .operator := by
  have hclasses := CharClass.of_has c
  rw [hclass] at hclasses
  rcases hclasses with hcomma | hcomparison | hoperator | ⟨-, -, hkind⟩
  · exact .inl hcomma
  · exact .inr (.inl hcomparison)
  · exact .inr (.inr hoperator)
  · rcases hkind with rfl | rfl | rfl | rfl | rfl | rfl <;>
      simp_all [closedBy?, Delimiters.brackets]

/-- They leave the groups that are open open. -/
theorem Tells.sign (h : Tells .brackets outline opens written) {c : Char}
    (hclass : CharClass.of c = .mark kind) (hclosed : closedBy? kind = none)
    (hhas : Delimiters.brackets.has kind = false) :
    Tells .brackets (outline.place kind (String.singleton c) .normal [] none) opens
      (written ++ textMarks kind (String.singleton c)) := by
  have hkind := sign_of_mark hclass hclosed hhas
  have hsteers : steers kind = false := by rcases hkind with rfl | rfl | rfl <;> rfl
  have hplaced := placed_place h.orderly.pending hsteers (String.singleton c) []
  refine h.placed hplaced rfl (Scanner.singleton_ne_empty c) ?_ hhas
  rcases hkind with rfl | rfl | rfl <;> simp

/-- An operand hides the group around it from a closing bracket. -/
theorem close_operand (hhas : Delimiters.brackets.has kind = true)
    (hopened : outline.justOpened = false) (hequation : outline.parent?.any isEquation = true) :
    outline.close kind = outline := by
  obtain ⟨level, parent, outer, hspine, hparent⟩ := exists_parent hequation
  rcases outline.close_moves kind with
    ⟨hinside, -⟩ | ⟨-, ⟨level', outer', hspine', hkind, hchildless, -⟩ | hclose⟩
  · -- The parent is a comparison and no group.
    have hcomparison : parent.last.kind = .comparison := (of_decide_eq_true hparent).1
    have hkind : parent.last.kind = kind := by
      simpa [parent?_eq hspine] using hinside
    rw [← hkind, hcomparison] at hhas
    exact absurd hhas (by decide)
  · -- The tail is no group just opened.
    simp [justOpened, tail?_eq hspine', Delimiters.opened, hkind, hhas, hchildless] at hopened
  · exact hclose

/-! ## Characters that add nothing -/

/-- An outline outside quotations, of which no group has just been opened. -/
structure Resting (outline : Outline) : Prop where
  orderly : outline.Orderly
  quote : outline.inside .doubleQuote = false
  filled : outline.justOpened = false

/-- Two outlines that are written out the same once they are finished. -/
def FinishAlike (outline outline' : Outline) : Prop :=
  outline'.roots.flatMap (Token.marks .brackets) = outline.roots.flatMap (Token.marks .brackets)

namespace Resting

theorem leave (h : outline.Resting) : outline.leave.Resting ∧ FinishAlike outline outline.leave := by
  refine ⟨⟨h.orderly.leave, inside_leave h.quote, ?_⟩, by rw [FinishAlike, roots_leave]⟩
  unfold Outline.leave
  split
  next level parent outer hspine =>
    simp [justOpened, tail?, not_opened_children level parent.last]
  · exact h.filled

theorem spaced (h : outline.Resting) :
    outline.spaced.Resting ∧ FinishAlike outline outline.spaced := by
  unfold Outline.spaced
  split
  · exact h.leave
  · exact ⟨h, rfl⟩

/-- A bracket that closes no group just opened only moves the tail. -/
theorem close (h : outline.Resting) (hhas : Delimiters.brackets.has kind = true) :
    (outline.close kind).Resting ∧ FinishAlike outline (outline.close kind) := by
  rcases outline.close_moves kind with
    ⟨-, hclose⟩ | ⟨-, ⟨level, outer, hspine, hkind, hchildless, -⟩ | hclose⟩
  · rw [hclose]
    exact h.leave
  · have hfilled := h.filled
    simp [justOpened, tail?_eq hspine, Delimiters.opened, hkind, hhas, hchildless] at hfilled
  · rw [hclose]
    exact ⟨h, rfl⟩

/-- A sign that merges into the tail leaves its marks. -/
theorem merged (h : outline.Resting) {text : String} {outline' : Outline}
    (hmerge : outline.mergeIntoTail? kind text = some outline') :
    outline'.Resting ∧ FinishAlike outline outline' := by
  obtain ⟨level, outer, merged, hspine, hmerged, rfl⟩ := exists_merged hmerge
  obtain ⟨hmarks, hopens⟩ := marks_merged (d := .brackets) hspine hmerged
  have horderly : (outline.setTail { level.last with text := merged }).Orderly :=
    h.orderly.setTail hspine rfl
  refine ⟨⟨horderly, ?_, ?_⟩, ?_⟩
  · rw [inside_setTail hspine]
    · exact h.quote
    · rfl
  · have hfilled := h.filled
    rw [justOpened, tail?_eq hspine] at hfilled
    rw [setTail_eq hspine]
    exact hfilled
  · rw [FinishAlike, roots_marks horderly, roots_marks h.orderly, hmarks, hopens]

end Resting

end Outline

namespace Scanner

open Outline

variable {scanner : Scanner} {c : Char} {rest input : List Char}

/-- Whether a character may add to the tree, as any does but a space, a closing bracket, a sign that
    merges into the tail and a comma outside lists. -/
def adds (scanner : Scanner) (c : Char) (_rest : List Char) : Bool :=
  match CharClass.of c with
  | .space => false
  | .mark kind =>
    (scanner.outline.mergeIntoTail? kind (String.singleton c)).isNone &&
      (scanner.outline.steer? kind).isNone
  | _ => true

/-- What a character is that adds nothing. -/
inductive Idle (scanner : Scanner) (c : Char) : Prop where
  | space (hclass : CharClass.of c = .space)
  | closing {kind opened : TokenKind} (hclass : CharClass.of c = .mark kind)
      (hclosed : closedBy? kind = some opened)
  | merging {kind : TokenKind} {outline : Outline} (hclass : CharClass.of c = .mark kind)
      (hclosed : closedBy? kind = none) (hhas : Delimiters.brackets.has kind = false)
      (hmerge : scanner.outline.mergeIntoTail? kind (String.singleton c) = some outline)
  | dropped (hclass : CharClass.of c = .mark .comma)
      (hplace : scanner.outline.place .comma (String.singleton c) .normal [] none
        = scanner.outline)

theorem idle_cases (h : scanner.adds c rest = false) : scanner.Idle c := by
  unfold adds at h
  split at h
  next hclass => exact .space hclass
  next kind hclass =>
    cases hclosed : closedBy? kind with
    | some opened => exact .closing hclass hclosed
    | none =>
      cases hmerge : scanner.outline.mergeIntoTail? kind (String.singleton c) with
      | some merged =>
        refine .merging hclass hclosed (Bool.eq_false_iff.2 fun hhas => ?_) hmerge
        rw [mergeIntoTail?_opening hclass hhas] at hmerge
        cases hmerge
      | none =>
        rw [hmerge, Option.isNone_none, Bool.true_and, Option.isNone_eq_false_iff] at h
        have hsteers : steers kind = false := by
          have hhas := CharClass.of_has c
          rw [hclass] at hhas
          rcases hhas with rfl | rfl | rfl | ⟨-, -, rfl | rfl | rfl | rfl | rfl | rfl⟩ <;>
            first | rfl | exact absurd hclosed (by simp [closedBy?])
        rcases steer?_eq scanner.outline hsteers with hnone | ⟨rfl, hsteer⟩
        · simp [hnone] at h
        · exact .dropped hclass (by simp only [place, hmerge, hsteer])
  · exact absurd h (by simp)

/-- Its marks close a group or may be missing. -/
theorem Idle.marks (h : scanner.Idle c) (rest : List Char) :
    ∀ mark ∈ characterMarks .brackets false c rest, mark.Trailing := by
  cases h with
  | space hclass => simp [characterMarks, hclass]
  | @closing kind opened hclass hclosed =>
    have hmarks : characterMarks .brackets false c rest = [.closing opened] := by
      simp [characterMarks, hclass, hclosed, Delimiters.endMarks, (closedBy?_bracket hclosed).1]
    rw [hmarks]
    exact List.forall_mem_singleton.2 (.inr ⟨opened, rfl⟩)
  | @merging kind outline hclass hclosed hhas hmerge =>
    obtain ⟨level, outer, merged, hspine, hmerged, -⟩ := exists_merged hmerge
    have hmarks : characterMarks .brackets false c rest = [.loose] := by
      simp [characterMarks, hclass, hclosed, Delimiters.startMarks, hhas,
        (textMarks_merged hmerged).1]
    rw [hmarks]
    exact List.forall_mem_singleton.2 (.inl rfl)
  | dropped hclass hplace =>
    have hmarks : characterMarks .brackets false c rest = [.loose] := by
      simp [characterMarks, hclass, closedBy?, Delimiters.startMarks, Delimiters.brackets, textMarks]
    rw [hmarks]
    exact List.forall_mem_singleton.2 (.inl rfl)

theorem Idle.ne_quote (h : scanner.Idle c) : c ≠ '"' := by
  have hquote : CharClass.of '"' = .doubleQuote := by decide
  rintro rfl
  cases h with
  | space hclass => simp [hquote] at hclass
  | closing hclass _ => simp [hquote] at hclass
  | merging hclass _ _ _ => simp [hquote] at hclass
  | dropped hclass _ => simp [hquote] at hclass

/-- It leaves the tree as it would be finished. -/
theorem Idle.step (h : scanner.Idle c) (hword : scanner.word = [])
    (hresting : scanner.outline.Resting) :
    (scanner.step Resolver.plain c rest).1.word = [] ∧
      (scanner.step Resolver.plain c rest).1.outline.Resting ∧
      FinishAlike scanner.outline (scanner.step Resolver.plain c rest).1.outline := by
  have hflush : scanner.flush Resolver.plain .word = scanner := flush_of_empty hword .word
  have hquote : (scanner.flush Resolver.plain .word).outline.inside .doubleQuote = false := by
    rw [hflush]
    exact hresting.quote
  cases h with
  | space hclass =>
    rw [step_space hclass, hflush]
    exact ⟨rfl, hresting.spaced⟩
  | closing hclass hclosed =>
    rw [step_closing hclass hclosed hquote, hflush]
    exact ⟨rfl, hresting.close (closedBy?_bracket hclosed).1⟩
  | merging hclass hclosed hhas hmerge =>
    rw [step_mark hclass hquote, hflush]
    simp only [place, hmerge]
    exact ⟨trivial, hresting.merged hmerge⟩
  | dropped hclass hplace =>
    rw [step_mark hclass hquote, hflush]
    simp only [hplace]
    exact ⟨trivial, hresting, rfl⟩

/-- **Characters that add nothing** leave the tree as it would be finished, -/
theorem scanFrom_idle (hidle : clear adds scanner input = true) (hword : scanner.word = [])
    (hresting : scanner.outline.Resting) :
    FinishAlike scanner.outline (scanFrom Resolver.plain scanner input).outline := by
  induction scanner, input using scan_induct with
  | nil scanner =>
    rw [scanFrom_nil, flush_of_empty hword]
    exact rfl
  | cons scanner c rest ih =>
    obtain ⟨hadds, hidle⟩ := clear_cons.1 hidle
    obtain ⟨hword', hresting', halike⟩ := (idle_cases hadds).step hword hresting
    rw [scanFrom_cons]
    exact (ih hidle hword' hresting').trans halike

/-- and their marks close groups or may be missing. -/
theorem writtenFrom_idle (hidle : clear adds scanner input = true) :
    ∀ mark ∈ writtenFrom .brackets false (!scanner.word.isEmpty) input, mark.Trailing := by
  induction scanner, input using scan_induct with
  | nil scanner => simp [writtenFrom]
  | cons scanner c rest ih =>
    obtain ⟨hadds, hidle⟩ := clear_cons.1 hidle
    have hcharacter := idle_cases hadds
    have hquoted : (false != decide (c = '"')) = false := by simpa using hcharacter.ne_quote
    rw [writtenFrom_step, hquoted]
    exact List.forall_mem_append.2 ⟨hcharacter.marks rest, ih hidle⟩

end Scanner

/-! ## Brackets and their groups -/

namespace Scanner

open Outline

/-- Whether a character misses the group that it opens or closes: the bracket that closes an empty
    group right inside a group of its kind, a bracket behind an operand of an equation if anything
    is added to the tree after it, a space behind a bracket that is such an operand, and a bracket
    that is the last operand of a conditional. -/
def mislaid (scanner : Scanner) (c : Char) (rest : List Char) : Bool :=
  let outline := (scanner.flush Resolver.plain .word).outline
  match CharClass.of c with
  | .space => outline.justOpened && outline.parent?.any isEquation
  | .mark kind =>
    match closedBy? kind with
    | some opened =>
      if outline.justOpened then outline.parent?.any (·.kind = opened)
      else outline.parent?.any isEquation && !clear adds ⟨outline, []⟩ rest
    | none => Delimiters.brackets.has kind && outline.awaits
  | _ => false

/-- A closing bracket behind an operand of an equation, after which nothing is added. -/
structure Trails (scanner : Scanner) (c : Char) (rest : List Char) (opened : TokenKind) : Prop where
  closing : ∃ kind, CharClass.of c = .mark kind ∧ closedBy? kind = some opened
  filled : (scanner.flush Resolver.plain .word).outline.justOpened = false
  operand : (scanner.flush Resolver.plain .word).outline.parent?.any isEquation = true
  idle : clear adds ⟨(scanner.flush Resolver.plain .word).outline, []⟩ rest = true

/-- Behind an operand of an equation, nothing is added after a closing bracket that is not mislaid. -/
theorem closing_cases {scanner : Scanner} {c : Char} {rest : List Char} {kind opened : TokenKind}
    (hclass : CharClass.of c = .mark kind) (hclosed : closedBy? kind = some opened)
    (hclear : mislaid scanner c rest = false) :
    let outline := (scanner.flush Resolver.plain .word).outline
    (outline.justOpened = false → outline.parent?.any isEquation = false) ∨
      scanner.Trails c rest opened := by
  intro outline
  by_cases hequation : outline.justOpened = false → outline.parent?.any isEquation = false
  · exact .inl hequation
  · push Not at hequation
    obtain ⟨hopened, hparent⟩ := hequation
    have hoperand : outline.parent?.any isEquation = true := Bool.eq_true_of_not_eq_false hparent
    refine .inr ⟨⟨kind, hclass, hclosed⟩, hopened, hoperand, ?_⟩
    simpa [mislaid, outline, hclass, hclosed, hopened, hoperand] using hclear

/-- The step of such a bracket changes nothing. -/
theorem Trails.step_eq {scanner : Scanner} {c : Char} {rest : List Char} {opened : TokenKind}
    (h : scanner.Trails c rest opened)
    (hquote : (scanner.flush Resolver.plain .word).outline.inside .doubleQuote = false) :
    scanner.step Resolver.plain c rest
      = (⟨(scanner.flush Resolver.plain .word).outline, []⟩, rest) := by
  obtain ⟨kind, hclass, hclosed⟩ := h.closing
  rw [step_closing hclass hclosed hquote,
    close_operand (closedBy?_bracket hclosed).1 h.filled h.operand]

/-- An empty group that a closing bracket stands behind is no child of a group of its kind. -/
theorem not_mislaid_closing {scanner : Scanner} {c : Char} {rest : List Char}
    {kind opened : TokenKind} (hclass : CharClass.of c = .mark kind)
    (hclosed : closedBy? kind = some opened) (hclear : mislaid scanner c rest = false)
    (hfresh : (scanner.flush Resolver.plain .word).outline.justOpened = true) :
    (scanner.flush Resolver.plain .word).outline.parent?.any (·.kind = opened) = false := by
  simpa [mislaid, hclass, hclosed, hfresh] using hclear

/-- A scanner shows the brackets that it has read, and stands in no quotation. -/
structure Brackets (scanner : Scanner) (opens : List TokenKind) (written : List Mark) : Prop where
  tells : scanner.Tells .brackets opens written
  quote : scanner.outline.inside .doubleQuote = false

namespace Brackets

variable {scanner : Scanner} {opens : List TokenKind} {written : List Mark} {c : Char}
  {rest : List Char}

/-- A step that places simple tokens. -/
theorem steps (h : Brackets scanner opens written) {scanner' : Scanner} {tokens : List Token}
    {marks : List Mark} (hsteps : Steps scanner scanner' tokens marks) :
    Brackets scanner' opens (written ++ marks) := by
  refine ⟨h.tells.steps hsteps, inside_placedAll hsteps.placed ?_ (by simp) h.quote⟩
  intro token htoken
  exact simpleKind_ne (hsteps.placed.simple token htoken).kind rfl

theorem of_outline {outline : Outline} (h : outline.Tells .brackets opens written)
    (hquote : outline.inside .doubleQuote = false) : Brackets ⟨outline, []⟩ opens written :=
  ⟨Scanner.Tells.of_outline h, hquote⟩

/-- The outline once the word being gathered is placed. -/
theorem flush (h : Brackets scanner opens written) :
    (scanner.flush Resolver.plain .word).outline.Tells .brackets opens written ∧
      (scanner.flush Resolver.plain .word).outline.inside .doubleQuote = false := by
  obtain ⟨-, hsteps⟩ := flush_steps h.tells.pending h.tells.word word_simple
  have hflush := h.steps hsteps
  exact ⟨h.tells.flush, hflush.quote⟩

/-! ### One character -/

theorem space_step (h : Brackets scanner opens written) (hclass : CharClass.of c = .space)
    (hclear : mislaid scanner c rest = false) :
    Brackets (scanner.step Resolver.plain c rest).1 opens written := by
  obtain ⟨htells, hquote⟩ := h.flush
  simp only [mislaid, hclass, Bool.and_eq_false_iff] at hclear
  rw [step_space hclass]
  refine of_outline (htells.space fun hequation => ?_) ?_
  · exact hclear.resolve_right (by simp [hequation])
  · unfold spaced
    split
    · exact inside_leave hquote
    · exact hquote

theorem closing_step (h : Brackets scanner opens written) {kind opened : TokenKind}
    (hclass : CharClass.of c = .mark kind) (hopened : closedBy? kind = some opened)
    {inner : List TokenKind} (hopens : opens = opened :: inner)
    (hclear : mislaid scanner c rest = false)
    (hequation : (scanner.flush Resolver.plain .word).outline.justOpened = false →
      (scanner.flush Resolver.plain .word).outline.parent?.any isEquation = false) :
    Brackets (scanner.step Resolver.plain c rest).1 inner (written ++ [.closing opened]) := by
  obtain ⟨htells, hquote⟩ := h.flush
  subst hopens
  rw [step_closing hclass hopened hquote]
  have hempty := not_mislaid_closing hclass hopened hclear
  exact of_outline (htells.close hquote hempty hequation) (inside_close opened hquote)

theorem opening_step (h : Brackets scanner opens written) {kind : TokenKind}
    (hclass : CharClass.of c = .mark kind) (hhas : Delimiters.brackets.has kind = true)
    (hclear : mislaid scanner c rest = false) :
    Brackets (scanner.step Resolver.plain c rest).1 (kind :: opens)
      (written ++ [.opening kind]) := by
  obtain ⟨htells, hquote⟩ := h.flush
  have hnone : closedBy? kind = none := by
    rcases bracket_cases hhas with rfl | rfl | rfl <;> rfl
  have hawaits : (scanner.flush Resolver.plain .word).outline.awaits = false := by
    simpa [mislaid, hclass, hnone, hhas] using hclear
  rw [step_mark hclass hquote]
  refine of_outline (htells.opening hclass hhas hawaits) ?_
  rw [htells.place_opening hclass hhas]
  refine inside_append ?_ (by simp) hquote
  rcases bracket_cases hhas with rfl | rfl | rfl <;> simp

theorem sign_step (h : Brackets scanner opens written) {kind : TokenKind}
    (hclass : CharClass.of c = .mark kind) (hclosed : closedBy? kind = none)
    (hhas : Delimiters.brackets.has kind = false) :
    Brackets (scanner.step Resolver.plain c rest).1 opens
      (written ++ textMarks kind (String.singleton c)) := by
  obtain ⟨htells, hquote⟩ := h.flush
  have hkind := sign_of_mark hclass hclosed hhas
  have hsteers : steers kind = false := by rcases hkind with rfl | rfl | rfl <;> rfl
  have hplaced := placed_place htells.orderly.pending hsteers (String.singleton c) []
  rw [step_mark hclass hquote]
  refine of_outline (htells.sign hclass hclosed hhas) (inside_placed hplaced ?_ ?_ hquote)
  · rcases hkind with rfl | rfl | rfl <;> simp
  · simp

/-- **One character** keeps brackets and groups together, unless nothing is added after it. -/
theorem step (h : Brackets scanner opens written) (hquote : c ≠ '"')
    (hclear : mislaid scanner c rest = false) {more : List Mark}
    (hbalanced : balanced opens (characterMarks .brackets false c rest ++ more) = true) :
    (∃ opens', Brackets (scanner.step Resolver.plain c rest).1 opens'
        (written ++ characterMarks .brackets false c rest) ∧ balanced opens' more = true) ∨
      ∃ opened, scanner.Trails c rest opened := by
  have hhas := CharClass.of_has c
  by_cases hsimple : (∀ kind, CharClass.of c ≠ .mark kind) ∧ CharClass.of c ≠ .space
  · left
    have hclass : CharClass.of c ≠ .doubleQuote := by
      intro hclass
      rw [hclass] at hhas
      exact hquote hhas
    obtain ⟨tokens, hsteps, -⟩ := step_steps h.tells.pending h.tells.word hsimple.1 hclass
      hsimple.2 .brackets false rest
    refine ⟨opens, h.steps hsteps, ?_⟩
    rwa [balanced_characters (characterMarks_simple hsimple.1 hclass)] at hbalanced
  by_cases hspace : CharClass.of c = .space
  · left
    have hmarks : characterMarks .brackets false c rest = [] := by simp [characterMarks, hspace]
    rw [hmarks] at hbalanced ⊢
    exact ⟨opens, by simpa using h.space_step hspace hclear, hbalanced⟩
  obtain ⟨kind, hclass⟩ : ∃ kind, CharClass.of c = .mark kind := by
    by_contra hnone
    exact hsimple ⟨fun kind hclass => hnone ⟨kind, hclass⟩, hspace⟩
  cases hclosed : closedBy? kind with
  | some opened =>
    have hmarks : characterMarks .brackets false c rest = [.closing opened] := by
      simp [characterMarks, hclass, hclosed, Delimiters.endMarks, (closedBy?_bracket hclosed).1]
    rw [hmarks] at hbalanced ⊢
    rcases closing_cases hclass hclosed hclear with hequation | htrail
    · left
      cases opens with
      | nil => exact absurd hbalanced (by simp [balanced])
      | cons innermost inner =>
        obtain ⟨hkind, hinner⟩ := Bool.and_eq_true_iff.1 hbalanced
        obtain rfl := of_decide_eq_true hkind
        exact ⟨inner, h.closing_step hclass hclosed rfl hclear hequation, hinner⟩
    · exact .inr ⟨opened, htrail⟩
  | none =>
    left
    have hmarks : characterMarks .brackets false c rest
        = Delimiters.brackets.startMarks kind (String.singleton c) := by
      simp [characterMarks, hclass, hclosed]
    cases hbracket : Delimiters.brackets.has kind with
    | true =>
      rw [Delimiters.startMarks, if_pos hbracket] at hmarks
      rw [hmarks] at hbalanced ⊢
      exact ⟨kind :: opens, h.opening_step hclass hbracket hclear, hbalanced⟩
    | false =>
      rw [Delimiters.startMarks, if_neg (by simp [hbracket])] at hmarks
      rw [hmarks, balanced_text] at hbalanced
      rw [hmarks]
      exact ⟨opens, h.sign_step hclass hclosed hbracket, hbalanced⟩

/-! ### Whole texts -/

/-- If nothing is added any more, the groups that are open are closed. -/
theorem trail (h : Brackets scanner opens written) {opened : TokenKind}
    (htrails : scanner.Trails c rest opened)
    (hbalanced : balanced opens
      (writtenFrom .brackets false (!scanner.word.isEmpty) (c :: rest)) = true) :
    Shows (written ++ writtenFrom .brackets false (!scanner.word.isEmpty) (c :: rest))
      ((scanFrom Resolver.plain scanner (c :: rest)).outline.roots.flatMap
        (Token.marks .brackets)) := by
  obtain ⟨htells, hquote⟩ := h.flush
  have hstep := htrails.step_eq hquote
  have hresting : (scanner.flush Resolver.plain .word).outline.Resting :=
    ⟨htells.orderly, hquote, htrails.filled⟩
  obtain ⟨kind, hclass, hclosed⟩ := htrails.closing
  have hcharacter : scanner.Idle c := .closing hclass hclosed
  have hmarks : ∀ mark ∈ writtenFrom .brackets false (!scanner.word.isEmpty) (c :: rest),
      mark.Trailing := by
    have hquoted : (false != decide (c = '"')) = false := by simpa using hcharacter.ne_quote
    rw [writtenFrom_step, hquoted, hstep]
    exact List.forall_mem_append.2 ⟨hcharacter.marks rest, writtenFrom_idle htrails.idle⟩
  have hends : ∀ kind, ((scanner.flush Resolver.plain .word).outline.marks .brackets).getLast?
      ≠ some (.opening kind) := by
    intro kind hlast
    obtain ⟨tail, htail, hfresh⟩ := htells.ends kind hlast
    have hfilled := htrails.filled
    simp [justOpened, htail, hfresh] at hfilled
  have hfinish := scanFrom_idle htrails.idle rfl hresting
  rw [FinishAlike, roots_marks htells.orderly, htells.opens] at hfinish
  rw [scanFrom_cons, hstep, hfinish]
  exact htells.shows.trailing hends hmarks hbalanced

/-- **The rest of a text**, behind what has been read. -/
theorem scan {input : List Char} (h : Brackets scanner opens written) (hquote : '"' ∉ input)
    (hclear : clear mislaid scanner input = true)
    (hbalanced : balanced opens
      (writtenFrom .brackets false (!scanner.word.isEmpty) input) = true) :
    Shows (written ++ writtenFrom .brackets false (!scanner.word.isEmpty) input)
      ((scanFrom Resolver.plain scanner input).outline.roots.flatMap (Token.marks .brackets)) := by
  induction scanner, input using scan_induct generalizing opens written with
  | nil scanner =>
    rw [writtenFrom] at hbalanced ⊢
    obtain rfl : opens = [] := by simpa [balanced] using hbalanced
    have htells := h.flush.1
    rw [scanFrom_nil, roots_marks htells.orderly, htells.opens, List.append_nil, List.map_nil,
      List.append_nil]
    exact htells.shows
  | cons scanner c rest ih =>
    have hc : c ≠ '"' := (List.ne_of_not_mem_cons hquote).symm
    have hleft := notMem_step hquote scanner
    have hunquoted : (false != decide (c = '"')) = false := by simpa using hc
    have hmarks := writtenFrom_step .brackets false scanner c rest
    rw [hunquoted] at hmarks
    obtain ⟨hmislaid, hclear⟩ := clear_cons.1 hclear
    have hmore := hmarks ▸ hbalanced
    rcases h.step hc hmislaid hmore with ⟨opens', hnext, hrest⟩ | ⟨opened, htrails⟩
    · rw [hmarks, ← List.append_assoc, scanFrom_cons]
      exact ih hnext hleft hclear hrest
    · exact h.trail htrails hbalanced

end Brackets

end Scanner

end InvertedIndex
