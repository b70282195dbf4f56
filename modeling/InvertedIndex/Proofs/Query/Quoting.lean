import InvertedIndex.Proofs.Query.Brackets

/-!
# `Proofs.Query.Quoting` — outlines in a quotation

The next token goes into a group that has been opened and not been closed: the tail, if it has
nothing in it yet, or a group around the tail. While a quotation is open it is the tail or right
above the tail, for nothing else opens in it; so the next quotation mark finds and closes it, unless
there is nothing in it.

## Contents
- `Outline.encloses`: groups that the next token goes into; `inside_eq`, `encloses_eq`;
- `Outline.Quoting`: an outline in a quotation; `Quoting.placed`: a simple token placed;
- `Quoting.place_quote`, `Tells.place_quote`: where quotation marks lead; `Tells.unquote`,
  `Tells.quote`;
- `Tells.close_bracket`: a closing bracket closes no quotation;
- `roots_quote`, `Quoting.fresh`: a quotation with nothing in it.
-/

namespace InvertedIndex

namespace Outline

variable {outline outline' : Outline} {token : Token} {opens : List TokenKind}
  {written : List Mark} {kind : TokenKind}

/-! ## Groups that the next token goes into -/

/-- Whether the next token goes below a group of the kind. -/
def encloses (outline : Outline) (kind : TokenKind) : Bool :=
  (outline.tail?.any fun tail => tail.kind = kind && tail.children.isEmpty) ||
    outline.spine.tail.any fun level => level.last.kind = kind

/-- Whether the tail is a group of the kind that has been closed. -/
def justClosed (outline : Outline) (kind : TokenKind) : Bool :=
  outline.tail?.any fun tail => tail.kind = kind && !tail.children.isEmpty

/-- The tail counts as well when it is closed. -/
theorem inside_eq (outline : Outline) (kind : TokenKind) :
    outline.inside kind = (outline.encloses kind || outline.justClosed kind) := by
  unfold inside encloses justClosed tail?
  cases outline.spine with
  | nil => rfl
  | cons level outer =>
    simp only [List.any_cons, List.head?_cons, Option.map_some, Option.any_some, List.tail_cons]
    cases level.last.children.isEmpty <;> cases decide (level.last.kind = kind) <;> simp

/-- The groups that are open say what the next token goes into. -/
theorem encloses_eq {d : Delimiters} (hhas : d.has kind = true) :
    outline.encloses kind = (outline.opens d).contains kind := by
  rw [Bool.eq_iff_iff, List.contains_iff_mem]
  unfold encloses tail? Outline.opens
  cases hspine : outline.spine with
  | nil => simp
  | cons level outer =>
    have haround : (outer.any fun level => level.last.kind = kind) = true
        ↔ kind ∈ opensAround d outer := by
      simp [opensAround, List.mem_filter, hhas]
    have htail : (decide (level.last.kind = kind) && level.last.children.isEmpty) = true
        ↔ kind ∈ if d.opened level.last then [level.last.kind] else [] := by
      unfold Delimiters.opened
      by_cases hkind : level.last.kind = kind
      · subst hkind
        simp [hhas]
      · simp [hkind, Ne.symm hkind]
    simp only [List.head?_cons, Option.map_some, Option.any_some, List.tail_cons,
      Bool.or_eq_true, List.mem_append, haround, htail]

theorem Tells.encloses_quote {quoted : Bool}
    (h : Tells .quotes outline (if quoted then [.doubleQuote] else []) written) :
    outline.encloses .doubleQuote = quoted := by
  rw [encloses_eq (d := .quotes) rfl, h.opens]
  cases quoted <;> rfl

/-! ## Outlines in a quotation -/

/-- The tail has opened a quotation with the last mark that has been read, or is a token in one. -/
inductive Quoting (outline : Outline) (written : List Mark) : Prop where
  | opened {level : Level} {outer : List Level} (hspine : outline.spine = level :: outer)
      (hquote : level.last.kind = .doubleQuote) (htext : level.last.text = "\"")
      (hchildless : level.last.children = [])
      (hwritten : written.getLast? = some (.opening .doubleQuote))
  | within {level parent : Level} {outer : List Level}
      (hspine : outline.spine = level :: parent :: outer)
      (hquote : parent.last.kind = .doubleQuote) (hgroup : level.last.kind.isGroup = false)
      (hcomparison : level.last.kind ≠ .comparison)

/-- Without a colon no conditional awaits its last operand. -/
theorem awaits_eq_false (h : outline.inside .colon = false) : outline.awaits = false := by
  unfold awaits
  cases hspine : outline.spine with
  | nil => rfl
  | cons level outer =>
    rw [inside, hspine, List.any_cons, Bool.or_eq_false_iff] at h
    have hcolon := of_decide_eq_false h.1
    simp only [List.head?_cons, Option.any_some]
    unfold awaitsOperand
    split
    next colon _ _ _ _ _ _ heq =>
      obtain ⟨rfl, -⟩ := List.cons.inj heq
      exact decide_eq_false fun hkinds => hcolon hkinds.1
    · rfl

/-- A quotation mark takes in no token. -/
theorem mergedText?_quote {tail : Token} (hquote : tail.kind = .doubleQuote)
    (htext : tail.text = "\"") (kind : TokenKind) (text : String) :
    mergedText? kind text tail = none := by
  simp [mergedText?, hquote, htext]

/-- A simple token placed in a quotation stands in it. -/
theorem Quoting.placed {marks : List Mark} (h : outline.Quoting written)
    (hcolon : outline.inside .colon = false) (hsimple : Simple token)
    (hplaced : Placed outline token outline') : outline'.Quoting marks := by
  cases hplaced with
  | @merged level outer merged hspine hmerged =>
    rw [setTail_eq hspine]
    cases h with
    | opened hspine' hquote htext =>
      obtain ⟨rfl, rfl⟩ := List.cons.inj (hspine.symm.trans hspine')
      rw [mergedText?_quote hquote htext] at hmerged
      cases hmerged
    | within hspine' hquote hgroup hcomparison =>
      obtain ⟨rfl, rfl⟩ := List.cons.inj (hspine.symm.trans hspine')
      exact .within rfl hquote hgroup hcomparison
  | dropped hcomma => exact absurd hcomma (simpleKind_ne hsimple.kind rfl)
  | added =>
    have hgrown := grown_append outline token
    generalize outline.append token = grown at hgrown ⊢
    have hawaits := awaits_eq_false hcolon
    cases h with
    | opened hspine hquote _ hchildless =>
      have hnests : nests _ = true := decide_eq_true
        ⟨List.isEmpty_iff.2 hchildless, .inl (by rw [hquote]; rfl)⟩
      cases hgrown with
      | first hnone => exact absurd (hspine.symm.trans hnone) (by simp)
      | below hspine' _ =>
        obtain ⟨rfl, rfl⟩ := List.cons.inj (hspine.symm.trans hspine')
        exact .within rfl hquote hsimple.group (simpleKind_ne hsimple.kind rfl)
      | beside hspine' hnot _ =>
        obtain ⟨rfl, rfl⟩ := List.cons.inj (hspine.symm.trans hspine')
        exact absurd hnests (by simp [hnot])
      | enclosing _ _ hlacks _ _ _ => exact absurd hlacks (by simp [hawaits])
    | @within level parent outer hspine hquote hgroup hcomparison =>
      cases hgrown with
      | first hnone => exact absurd (hspine.symm.trans hnone) (by simp)
      | below hspine' hnests =>
        obtain ⟨rfl, rfl⟩ := List.cons.inj (hspine.symm.trans hspine')
        have hnot := (of_decide_eq_true hnests).2
        simp [hgroup, isEquation, hcomparison] at hnot
      | beside hspine' _ _ =>
        obtain ⟨rfl, rfl⟩ := List.cons.inj (hspine.symm.trans hspine')
        exact .within rfl hquote hsimple.group (simpleKind_ne hsimple.kind rfl)
      | enclosing _ _ hlacks _ _ _ => exact absurd hlacks (by simp [hawaits])

theorem Quoting.placedAll {tokens : List Token} (h : outline.Quoting written)
    (hcolon : outline.inside .colon = false) (hplaced : PlacedAll outline tokens outline')
    (hkinds : ∀ token ∈ tokens, token.kind ≠ .colon) :
    outline'.Quoting (written ++ tokenMarks tokens) := by
  induction hplaced generalizing written with
  | nil => simpa [tokenMarks] using h
  | @cons _ _ _ token rest hsimple hplaced _ ih =>
    obtain ⟨htoken, hrest⟩ := List.forall_mem_cons.1 hkinds
    have hplace : tokenMarks (token :: rest) = tokenMarks [token] ++ tokenMarks rest := by
      simp [tokenMarks]
    rw [hplace, ← List.append_assoc]
    exact ih (h.placed hcolon hsimple hplaced) (inside_placed hplaced htoken (by simp) hcolon) hrest

/-- Outside quotations a closing bracket closes none. -/
theorem Tells.close_bracket (h : Tells .quotes outline [] written)
    (hkind : Delimiters.quotes.has kind = false) :
    Tells .quotes (outline.close kind) [] written := by
  have hopens := h.opens
  rcases outline.close_moves kind with
    ⟨hparent, hclose⟩ | ⟨-, ⟨level, outer, hspine, hlast, hchildless, hclose⟩ | hclose⟩
  · obtain ⟨level, parent, outer, hspine, hlast⟩ := exists_parent hparent
    have hlast := of_decide_eq_true hlast
    have hopened : Delimiters.quotes.opened level.last = false := by
      cases hopened : Delimiters.quotes.opened level.last with
      | false => rfl
      | true => simp [Outline.opens, hspine, hopened] at hopens
    have hrest := opens_leave (d := .quotes) hspine hopened
    have hleft := h.left hspine hopened
    rw [hlast, hkind, hopens, if_neg (by simp), List.nil_append] at hrest
    rw [← hrest, Delimiters.endMarks, hlast, hkind, if_neg (by simp), List.append_nil] at hleft
    exact hclose ▸ hleft
  · have hrest := opens_hollowed (d := .quotes) hspine hchildless
    have hemptied := h.emptied hspine hchildless
    rw [hlast, hkind, hopens, if_neg (by simp), List.nil_append] at hrest
    rw [← hrest, Delimiters.endMarks, hlast, hkind, if_neg (by simp), List.append_nil]
      at hemptied
    exact hclose ▸ hemptied
  · exact hclose.symm ▸ h

/-- Where a quotation mark in a quotation leads. -/
theorem Quoting.place_quote (h : outline.Quoting written)
    (hfilled : outline.tail?.any Delimiters.quotes.opened = false) :
    outline.place .doubleQuote "\"" .normal [] none = outline.leave ∧
      ∃ level parent outer, outline.spine = level :: parent :: outer ∧
        parent.last.kind = .doubleQuote ∧ level.last.kind.isGroup = false := by
  cases h with
  | opened hspine hquote _ hchildless =>
    simp [tail?_eq hspine, Delimiters.opened, hquote, hchildless, Delimiters.quotes] at hfilled
  | @within level parent outer hspine hquote hgroup hcomparison =>
    have hmerge : outline.mergeIntoTail? .doubleQuote "\"" = none :=
      Quiet.mergeIntoTail?_eq_none (by decide) (by decide) (by decide)
    have hsteer : outline.steer? .doubleQuote = some outline.leave := by
      simp [steer?, parent?_eq hspine, hquote]
    refine ⟨?_, level, parent, outer, hspine, hquote, hgroup⟩
    simp only [place, hmerge, hsteer]

/-- Where a quotation mark outside quotations leads. -/
theorem Tells.place_quote (h : Tells .quotes outline [] written) :
    outline.place .doubleQuote "\"" .normal [] none
      = outline.append { kind := .doubleQuote, text := "\"" } := by
  have hmerge : outline.mergeIntoTail? .doubleQuote "\"" = none :=
    Quiet.mergeIntoTail?_eq_none (by decide) (by decide) (by decide)
  have hencloses : outline.encloses .doubleQuote = false := Tells.encloses_quote h
  have hsteer : outline.steer? .doubleQuote = none := by
    simp only [encloses, Bool.or_eq_false_iff] at hencloses
    have hparent : outline.parent?.any (·.kind = .doubleQuote) = false := by
      unfold parent?
      cases houter : outline.spine.tail with
      | nil => rfl
      | cons parent outer =>
        rw [houter, List.any_cons, Bool.or_eq_false_iff] at hencloses
        exact hencloses.2.1
    have htail : (outline.tail?.any fun tail => tail.kind = .doubleQuote ∧ tail.children.isEmpty)
        = false := by
      simpa only [Bool.decide_and, Bool.decide_eq_true] using hencloses.1
    simp only [steer?, hparent, htail]
    rfl
  simp [place, hmerge, hsteer, attach, h.orderly.pending]

/-- A quotation mark right behind another leaves the tree as it would be finished. -/
theorem roots_quote (hfresh : outline.tail?.any Delimiters.quotes.opened = true) :
    (outline.place .doubleQuote "\"" .normal [] none).roots = outline.roots := by
  have hmerge : outline.mergeIntoTail? .doubleQuote "\"" = none :=
    Quiet.mergeIntoTail?_eq_none (by decide) (by decide) (by decide)
  have htail : (outline.tail?.any fun tail => tail.kind = .doubleQuote ∧ tail.children.isEmpty)
      = true := by
    simp only [Bool.decide_and, Bool.decide_eq_true]
    exact hfresh
  have hsteer : outline.steer? .doubleQuote
      = some (if outline.parent?.any (·.kind = .doubleQuote) then outline.leave else outline) := by
    simp only [steer?, htail, if_true, apply_ite some]
  simp only [place, hmerge, hsteer]
  split
  · exact roots_leave outline
  · rfl

/-- A quotation with nothing in it has been opened with the last mark. -/
theorem Quoting.fresh (h : outline.Quoting written)
    (hfresh : outline.tail?.any Delimiters.quotes.opened = true) :
    written.getLast? = some (.opening .doubleQuote) := by
  cases h with
  | opened _ _ _ _ hwritten => exact hwritten
  | @within level _ _ hspine _ hgroup _ =>
    have hnone : Delimiters.quotes.has level.last.kind = false := Bool.eq_false_iff.2 fun hhas => by
      simpa [hgroup] using Delimiters.quotes.group _ hhas
    simp [tail?_eq hspine, Delimiters.opened, hnone] at hfresh

/-- No bracket has just been opened in a quotation. -/
theorem Quoting.not_justOpened (h : outline.Quoting written) : outline.justOpened = false := by
  cases h with
  | opened hspine hquote =>
    simp [justOpened, tail?_eq hspine, Delimiters.opened, hquote, Delimiters.brackets]
  | @within level _ _ hspine _ hgroup _ =>
    have hnone : Delimiters.brackets.has level.last.kind = false := Bool.eq_false_iff.2 fun hhas => by
      simpa [hgroup] using Delimiters.brackets.group _ hhas
    simp [justOpened, tail?_eq hspine, Delimiters.opened, hnone]

/-- The second quotation mark of a pair leaves the quotation. -/
theorem Tells.unquote (h : Tells .quotes outline [.doubleQuote] written)
    {marks : List Mark} (hquoting : outline.Quoting marks)
    (hfilled : outline.tail?.any Delimiters.quotes.opened = false)
    (hcolon : outline.inside .colon = false) :
    Tells .quotes (outline.place .doubleQuote "\"" .normal [] none) []
        (written ++ [.closing .doubleQuote]) ∧
      (outline.place .doubleQuote "\"" .normal [] none).inside .colon = false := by
  obtain ⟨hplace, level, parent, outer, hspine, hquote, -⟩ := hquoting.place_quote hfilled
  have hopened : Delimiters.quotes.opened level.last = false := by
    simpa [tail?_eq hspine] using hfilled
  have hrest := opens_leave (d := .quotes) hspine hopened
  have hleft := h.left hspine hopened
  have hhas : Delimiters.quotes.has parent.last.kind = true := decide_eq_true hquote
  rw [h.opens, if_pos hhas, hquote, List.cons_append, List.nil_append] at hrest
  obtain ⟨-, hnone⟩ := List.cons.inj hrest
  rw [← hnone, Delimiters.endMarks, if_pos hhas, hquote] at hleft
  rw [hplace]
  exact ⟨hleft, inside_leave hcolon⟩

/-- The first quotation mark of a pair opens a quotation. -/
theorem Tells.quote (h : Tells .quotes outline [] written)
    (hcolon : outline.inside .colon = false) :
    Tells .quotes (outline.place .doubleQuote "\"" .normal [] none) [.doubleQuote]
        (written ++ [.opening .doubleQuote]) ∧
      (outline.place .doubleQuote "\"" .normal [] none).Quoting
        (written ++ [.opening .doubleQuote]) ∧
      (outline.place .doubleQuote "\"" .normal [] none).inside .colon = false := by
  have hawaits := awaits_eq_false hcolon
  rw [h.place_quote]
  refine ⟨h.opened rfl (by simp) rfl hawaits, ?_, inside_append (by simp) (by simp) hcolon⟩
  have hgrown := grown_append outline { kind := .doubleQuote, text := "\"" }
  generalize outline.append _ = grown at hgrown ⊢
  cases hgrown with
  | first => exact .opened rfl rfl rfl rfl (by simp)
  | below => exact .opened rfl rfl rfl rfl (by simp)
  | beside => exact .opened rfl rfl rfl rfl (by simp)
  | enclosing _ _ hlacks _ _ _ => exact absurd hlacks (by simp [hawaits])

end Outline

end InvertedIndex
