import InvertedIndex.Proofs.Query.Marks

/-!
# `Proofs.Query.Shown` — outlines that show what has been read

A text has marks as its tree has: its characters, where its groups open, and where they close. A
tree **shows** a text if their marks agree, up to signs, comparisons and commas that merge or count
for nothing, and up to the child that an empty bracket gets. An outline that shows what has been read
goes on to do so with each token placed, group left and group found empty.

## Contents
- `Shows`, `Shows.solid_eq`: the marks of a text and of a tree that shows it;
- `closedBy?`: the group that a closing token closes;
- `Outline.Tells`: an outline shows the marks of what has been read; `Tells.added`, `Tells.opened`,
  `Tells.left`, `Tells.emptied`: one move;
- `Outline.Placed`, `placed_place`: a token placed that steers nothing; `Tells.placed`;
- `place_space`, `Tells.space`, `place_closing`: a space and a closing token;
- `Outline.PlacedAll`, `Tells.placedAll`: some tokens that are simple.
-/

namespace InvertedIndex

/-! ## What a tree shows of a text -/

/-- Marks of a text, and marks of a tree that fits it: a character for each character, groups that
    open and close where they do in the text, and a child for a bracket with nothing in it, though
    none for a quotation. Signs, comparisons and commas may be missing. -/
inductive Shows : List Mark → List Mark → Prop where
  | nil : Shows [] []
  | character {written shown : List Mark} (h : Shows written shown) (c : Char) :
      Shows (written ++ [.character c]) (shown ++ [.character c])
  | kept {written shown : List Mark} (h : Shows written shown) :
      Shows (written ++ [.loose]) (shown ++ [.loose])
  | dropped {written shown : List Mark} (h : Shows written shown) :
      Shows (written ++ [.loose]) shown
  | opening {written shown : List Mark} (h : Shows written shown) (kind : TokenKind) :
      Shows (written ++ [.opening kind]) (shown ++ [.opening kind])
  | closing {written shown : List Mark} (h : Shows written shown)
      (hfilled : ∀ opened, shown.getLast? ≠ some (.opening opened)) (kind : TokenKind) :
      Shows (written ++ [.closing kind]) (shown ++ [.closing kind])
  | hollow {written shown : List Mark} {kind : TokenKind}
      (h : Shows written (shown ++ [.opening kind])) :
      Shows (written ++ [.closing kind]) (shown ++ [.opening kind] ++ [.null, .closing kind])
  | bare {written shown : List Mark} {kind : TokenKind} (h : Shows written shown)
      (hkind : Delimiters.brackets.has kind = false) :
      Shows (written ++ [.opening kind, .closing kind]) (shown ++ [.opening kind, .closing kind])

namespace Shows

variable {written shown : List Mark}

theorem characters (h : Shows written shown) (characters : List Char) :
    Shows (written ++ characters.map .character) (shown ++ characters.map .character) := by
  induction characters generalizing written shown with
  | nil => simpa using h
  | cons c rest ih =>
    have hrest := ih (h.character c)
    simpa using hrest

theorem text (h : Shows written shown) (kind : TokenKind) (text : String) :
    Shows (written ++ textMarks kind text) (shown ++ textMarks kind text) := by
  unfold textMarks
  split
  · exact h.kept
  · exact h.characters _

/-- A quotation is closed right where it was opened. -/
theorem closes {kind : TokenKind} (h : Shows written shown)
    (hlast : written.getLast? = some (.opening kind))
    (hkind : Delimiters.brackets.has kind = false) :
    Shows (written ++ [.closing kind]) (shown ++ [.closing kind]) := by
  cases h with
  | opening h opened =>
    obtain rfl : opened = kind := by simpa using hlast
    simpa using h.bare hkind
  | nil => simp at hlast
  | character => simp at hlast
  | kept => simp at hlast
  | dropped => simp at hlast
  | closing => simp at hlast
  | hollow => simp at hlast
  | bare => simp at hlast

end Shows

/-! ## Closing tokens -/

/-- The kind of group that a closing token closes. -/
def closedBy? : TokenKind → Option TokenKind
  | .closeParen => some .openParen
  | .closeBrace => some .openBrace
  | .closeBracket => some .openBracket
  | _ => none

/-- What closes a bracket. -/
theorem closedBy?_bracket {kind opened : TokenKind} (h : closedBy? kind = some opened) :
    Delimiters.brackets.has opened = true ∧ kind ≠ .comparison := by
  cases kind <;> simp_all [closedBy?, Delimiters.brackets]

/-! ## Outlines -/

namespace Outline

/-- An outline shows the marks of what has been read, and some groups are open in it. The group
    opened last has nothing in it if and only if its mark is the last. -/
structure Tells (d : Delimiters) (outline : Outline) (opens : List TokenKind)
    (written : List Mark) : Prop where
  orderly : outline.Orderly
  shows : Shows written (outline.marks d)
  ends : ∀ kind, (outline.marks d).getLast? = some (.opening kind) →
    ∃ tail, outline.tail? = some tail ∧ d.opened tail = true
  opens : outline.opens d = opens

variable {d : Delimiters} {outline : Outline} {opens : List TokenKind} {written : List Mark}
  {token : Token} {level parent : Level} {outer : List Level}

theorem empty_tells (d : Delimiters) : Tells d {} [] [] :=
  ⟨empty_orderly, .nil, by simp [marks], rfl⟩

namespace Tells

/-- What is not the mark of a group that opens ends the outline with no such mark. -/
theorem not_ends (h : Tells d outline opens written) (hspine : outline.spine = level :: outer)
    (hopened : d.opened level.last = false) (kind : TokenKind) :
    (outline.marks d).getLast? ≠ some (.opening kind) := by
  intro hlast
  obtain ⟨tail, htail, hfresh⟩ := h.ends kind hlast
  rw [tail?_eq hspine] at htail
  rw [← Option.some.inj htail, hopened] at hfresh
  exact absurd hfresh (by simp)

/-- A token without children is added. -/
theorem added (h : Tells d outline opens written) (hchildless : token.children = [])
    (htext : token.text ≠ "") (hnull : token.kind ≠ .null)
    (hhas : d.has token.kind = false) :
    Tells d (outline.append token) opens (written ++ textMarks token.kind token.text) := by
  have hmarks : (outline.append token).marks d
      = outline.marks d ++ textMarks token.kind token.text := by
    rw [marks_append hchildless fun _ => hhas, Delimiters.startMarks, if_neg (by simp [hhas])]
  refine ⟨h.orderly.append hnull, hmarks ▸ h.shows.text _ _, ?_, ?_⟩
  · intro kind hlast
    rw [hmarks, List.getLast?_append_of_ne_nil _ (textMarks_ne_nil htext)] at hlast
    exact absurd (List.mem_of_getLast? hlast) (opening_notMem_textMarks _ _ kind)
  · simp [opens_append hchildless fun _ => hhas, hhas, h.opens]

/-- A delimited group opens. -/
theorem opened (h : Tells d outline opens written) (hchildless : token.children = [])
    (hnull : token.kind ≠ .null) (hhas : d.has token.kind = true)
    (hawaits : outline.awaits = false) :
    Tells d (outline.append token) (token.kind :: opens) (written ++ [.opening token.kind]) := by
  have hoperand : outline.awaits = true → d.has token.kind = false := by simp [hawaits]
  have hmarks : (outline.append token).marks d = outline.marks d ++ [.opening token.kind] := by
    rw [marks_append hchildless hoperand, Delimiters.startMarks, if_pos hhas]
  have htail : (outline.append token).tail? = some token := by
    have hgrown := grown_append outline token
    generalize outline.append token = grown at hgrown ⊢
    cases hgrown with
    | first => rfl
    | below => rfl
    | beside => rfl
    | enclosing _ _ hlacks _ _ _ => exact absurd hlacks (by simp [hawaits])
  refine ⟨h.orderly.append hnull, hmarks ▸ h.shows.opening _, ?_, ?_⟩
  · intro kind _
    exact ⟨token, htail, by simp [Delimiters.opened, hhas, hchildless]⟩
  · simp [opens_append hchildless hoperand, hhas, h.opens]

/-- A group is left. -/
theorem left (h : Tells d outline opens written) (hspine : outline.spine = level :: parent :: outer)
    (hopened : d.opened level.last = false) :
    Tells d outline.leave (outline.leave.opens d) (written ++ d.endMarks parent.last.kind) := by
  have hmarks := marks_leave h.orderly hspine hopened
  have hends := h.not_ends hspine hopened
  refine ⟨h.orderly.leave, ?_, ?_, rfl⟩
  · rw [hmarks]
    unfold Delimiters.endMarks
    split
    · exact h.shows.closing hends _
    · simpa using h.shows
  · intro kind hlast
    rw [hmarks] at hlast
    unfold Delimiters.endMarks at hlast
    split at hlast
    · simp at hlast
    · exact absurd (by simpa using hlast) (hends kind)

/-- A group is found empty. -/
theorem emptied (h : Tells d outline opens written) (hspine : outline.spine = level :: outer)
    (hchildless : level.last.children = []) :
    Tells d (outline.setTail (hollowed level.last))
      ((outline.setTail (hollowed level.last)).opens d)
      (written ++ d.endMarks level.last.kind) := by
  have hmarks := marks_hollowed (d := d) hspine hchildless
  refine ⟨h.orderly.setTail hspine rfl, ?_, ?_, rfl⟩
  · rw [hmarks]
    unfold Delimiters.endMarks
    cases hhas : d.has level.last.kind with
    | true =>
      have hold : outline.marks d
          = marksAround d outer ++ earlierMarks d level ++ [.opening level.last.kind] := by
        simp [marks, hspine, tailMarks_childless hchildless, Delimiters.startMarks, hhas]
      have hshows := h.shows
      rw [hold] at hshows ⊢
      exact hshows.hollow
    | false => simpa using h.shows
  · intro kind hlast
    rw [hmarks] at hlast
    cases hhas : d.has level.last.kind with
    | true => simp [hhas] at hlast
    | false =>
      have hopened : d.opened level.last = false := by simp [Delimiters.opened, hhas]
      exact absurd (by simpa [hhas] using hlast) (h.not_ends hspine hopened kind)

end Tells

/-! ## One token -/

/-- What an outline becomes when a token is placed that steers nothing. -/
inductive Placed (outline : Outline) (token : Token) : Outline → Prop where
  | merged {level : Level} {outer : List Level} {merged : String}
      (hspine : outline.spine = level :: outer)
      (h : mergedText? token.kind token.text level.last = some merged) :
      Placed outline token (outline.setTail { level.last with text := merged })
  | dropped (h : token.kind = .comma) : Placed outline token outline
  | added : Placed outline token (outline.append token)

/-- Whether a token of the kind says where the next one goes. -/
def steers : TokenKind → Bool
  | .closeParen | .closeBrace | .closeBracket | .doubleQuote | .space => true
  | _ => false

theorem steer?_eq (outline : Outline) {kind : TokenKind} (h : steers kind = false) :
    outline.steer? kind = none ∨ kind = .comma ∧ outline.steer? kind = some outline := by
  by_cases hcomma : kind = .comma
  · subst hcomma
    simp only [steer?]
    split
    · exact .inl rfl
    · exact .inr ⟨trivial, rfl⟩
  · left
    unfold steer?
    cases kind <;> simp_all [steers]

theorem placed_place (hpending : outline.pending = []) {kind : TokenKind}
    (hsteers : steers kind = false) (text : String) (attrs : List String) :
    Placed outline { kind, text, attrs } (outline.place kind text .normal attrs none) := by
  unfold place
  cases hmerge : outline.mergeIntoTail? kind text with
  | some merged =>
    obtain ⟨level, outer, merged, hspine, hmerged, rfl⟩ := exists_merged hmerge
    exact .merged hspine hmerged
  | none =>
    have hadded : outline.attach .normal
        (if attrs.isEmpty then ({ kind, text } : Token) else { kind, text, attrs })
          = outline.append { kind, text, attrs } := by
      simp only [attach, hpending, List.isEmpty_nil, if_true]
      cases attrs <;> rfl
    rcases steer?_eq outline hsteers with hnone | ⟨rfl, hsome⟩
    · simp only [hnone, Option.getD_none, hadded]
      exact .added
    · simp only [hsome]
      exact .dropped rfl

namespace Tells

/-- A token that merges into the tail or counts for nothing. -/
theorem loosened {marked : Outline} (h : Tells d outline opens written)
    (horderly : marked.Orderly) (hmarks : marked.marks d = outline.marks d)
    (hopens : marked.opens d = outline.opens d)
    (hends : ∀ tail, outline.tail? = some tail → d.opened tail = true →
      ∃ tail, marked.tail? = some tail ∧ d.opened tail = true) :
    Tells d marked opens (written ++ [.loose]) := by
  refine ⟨horderly, hmarks ▸ h.shows.dropped, ?_, hopens.trans h.opens⟩
  intro kind hlast
  obtain ⟨tail, htail, hfresh⟩ := h.ends kind (hmarks ▸ hlast)
  exact hends tail htail hfresh

/-- **A token of no group** is placed. -/
theorem placed {outline' : Outline} (h : Tells d outline opens written)
    (hplaced : Placed outline token outline') (hchildless : token.children = [])
    (htext : token.text ≠ "") (hnull : token.kind ≠ .null) (hhas : d.has token.kind = false) :
    Tells d outline' opens (written ++ textMarks token.kind token.text) := by
  cases hplaced with
  | @merged level outer merged hspine hmerged =>
    obtain ⟨hmarks, hopens⟩ := marks_merged (d := d) hspine hmerged
    rw [(textMarks_merged hmerged).1]
    refine h.loosened (h.orderly.setTail hspine rfl) hmarks hopens fun tail htail hfresh => ?_
    rw [tail?_eq hspine] at htail
    obtain rfl := Option.some.inj htail
    refine ⟨{ level.last with text := merged }, ?_, hfresh⟩
    rw [setTail_eq hspine]
    rfl
  | dropped hcomma =>
    have hloose : textMarks token.kind token.text = [.loose] := by simp [textMarks, hcomma]
    rw [hloose]
    exact h.loosened h.orderly rfl rfl fun tail htail hfresh => ⟨tail, htail, hfresh⟩
  | added => exact h.added hchildless htext hnull hhas

end Tells

/-! ## A space and a closing token -/

/-- The outline after a space. -/
def spaced (outline : Outline) : Outline :=
  if outline.parent?.any isEquation then outline.leave else outline

theorem roots_spaced (outline : Outline) : outline.spaced.roots = outline.roots := by
  unfold spaced
  split
  · exact roots_leave outline
  · rfl

theorem place_space (outline : Outline) :
    outline.place .space " " .normal [] none = outline.spaced := by
  have hmerge : outline.mergeIntoTail? .space " " = none :=
    Quiet.mergeIntoTail?_eq_none (by decide) (by decide) (by decide)
  simp only [place, hmerge, steer?]
  rfl

/-- **A space** leaves the groups that are open open, unless it stands behind a bracket that is an
    operand. -/
theorem Tells.space (h : Tells d outline opens written)
    (hoperand : outline.parent?.any isEquation = true → outline.tail?.any d.opened = false) :
    Tells d outline.spaced opens written := by
  unfold spaced
  split
  next hequation =>
    obtain ⟨level, parent, outer, hspine, hparent⟩ := exists_parent hequation
    have hopened : d.opened level.last = false := by
      simpa [tail?_eq hspine] using hoperand hequation
    have hkind : parent.last.kind = .comparison := (of_decide_eq_true hparent).1
    have hhas : d.has parent.last.kind = false := Bool.eq_false_iff.2 fun hhas => by
      simpa [hkind, TokenKind.isGroup] using d.group _ hhas
    have hrest := opens_leave (d := d) hspine hopened
    rw [h.opens, if_neg (by simp [hhas]), List.nil_append] at hrest
    have hleft := h.left hspine hopened
    rw [← hrest] at hleft
    simpa [Delimiters.endMarks, hhas] using hleft
  · exact h

theorem place_closing {kind opened : TokenKind} (h : closedBy? kind = some opened) {text : String}
    (hdash : text ≠ "-") (hplus : text ≠ "+") (outline : Outline) :
    outline.place kind text .normal [] none = outline.close opened := by
  have hmerge : outline.mergeIntoTail? kind text = none :=
    Quiet.mergeIntoTail?_eq_none hdash hplus (closedBy?_bracket h).2
  have hsteer : outline.steer? kind = some (outline.close opened) := by
    cases kind <;> simp_all [closedBy?, steer?]
  simp only [place, hmerge, hsteer]

/-! ## Simple tokens -/

/-- A token placed brings its kind into the outline, and the parentheses of a conditional. -/
theorem inside_placed {kind : TokenKind} {outline' : Outline}
    (hplaced : Placed outline token outline') (hkind : token.kind ≠ kind)
    (hparen : kind ≠ .openParen) (h : outline.inside kind = false) :
    outline'.inside kind = false := by
  cases hplaced with
  | merged hspine hmerged =>
    rw [inside_setTail hspine]
    · exact h
    · rfl
  | dropped => exact h
  | added => exact inside_append hkind hparen h

theorem pending_placed {outline' : Outline} (hplaced : Placed outline token outline')
    (h : outline.pending = []) : outline'.pending = [] := by
  cases hplaced with
  | merged hspine hmerged =>
    rw [setTail_eq hspine]
    exact h
  | dropped => exact h
  | added =>
    have hgrown := grown_append outline token
    generalize outline.append token = grown at hgrown ⊢
    cases hgrown <;> exact h

/-- Whether tokens of the kind go where the tail has them go and take nothing below them. -/
def simpleKind : TokenKind → Bool
  | .word | .modifier | .operator | .colon | .question | .and | .or | .dash | .other => true
  | _ => false

theorem simpleKind_ne {kind steering : TokenKind} (h : simpleKind kind = true)
    (hsteering : simpleKind steering = false) : kind ≠ steering := by
  rintro rfl
  exact absurd h (by simp [hsteering])

theorem word_simple : simpleKind .word = true := rfl

/-- A token of such a kind as it is read. -/
structure Simple (token : Token) : Prop where
  childless : token.children = []
  text : token.text ≠ ""
  kind : simpleKind token.kind = true

theorem Simple.steers (h : Simple token) : steers token.kind = false := by
  have hkind := h.kind
  cases hcase : token.kind <;> simp_all [simpleKind, Outline.steers]

theorem Simple.group (h : Simple token) : token.kind.isGroup = false := by
  have hkind := h.kind
  cases hcase : token.kind <;> simp_all [simpleKind, TokenKind.isGroup]

/-- What an outline becomes when some simple tokens are placed. -/
inductive PlacedAll : Outline → List Token → Outline → Prop where
  | nil (outline : Outline) : PlacedAll outline [] outline
  | cons {outline outline' last : Outline} {token : Token} {rest : List Token}
      (hsimple : Simple token) (h : Placed outline token outline')
      (hrest : PlacedAll outline' rest last) : PlacedAll outline (token :: rest) last

theorem PlacedAll.append {outline' last : Outline} {tokens more : List Token}
    (h : PlacedAll outline tokens outline') (hmore : PlacedAll outline' more last) :
    PlacedAll outline (tokens ++ more) last := by
  induction h with
  | nil => exact hmore
  | cons hsimple hplaced _ ih => exact .cons hsimple hplaced (ih hmore)

theorem PlacedAll.pending {outline' : Outline} {tokens : List Token}
    (h : PlacedAll outline tokens outline') (hpending : outline.pending = []) :
    outline'.pending = [] := by
  induction h with
  | nil => exact hpending
  | cons _ hplaced _ ih => exact ih (pending_placed hplaced hpending)

theorem PlacedAll.simple {outline' : Outline} {tokens : List Token}
    (h : PlacedAll outline tokens outline') : ∀ token ∈ tokens, Simple token := by
  induction h with
  | nil => simp
  | cons hsimple _ _ ih => exact List.forall_mem_cons.2 ⟨hsimple, ih⟩

/-- The marks of the texts of some tokens. -/
def tokenMarks (tokens : List Token) : List Mark :=
  tokens.flatMap fun token => textMarks token.kind token.text

theorem Tells.placedAll {outline' : Outline} {tokens : List Token}
    (h : Tells d outline opens written) (hplaced : PlacedAll outline tokens outline') :
    Tells d outline' opens (written ++ tokenMarks tokens) := by
  induction hplaced generalizing written with
  | nil => simpa [tokenMarks] using h
  | @cons outline outline' last token rest hsimple hplaced _ ih =>
    have hhas : d.has token.kind = false := Bool.eq_false_iff.2 fun hhas => by
      simpa [hsimple.group] using d.group _ hhas
    have hnull : token.kind ≠ .null := simpleKind_ne hsimple.kind rfl
    have hall := ih (h.placed hplaced hsimple.childless hsimple.text hnull hhas)
    simpa [tokenMarks] using hall

theorem inside_placedAll {kind : TokenKind} {outline' : Outline} {tokens : List Token}
    (hplaced : PlacedAll outline tokens outline') (hkind : ∀ token ∈ tokens, token.kind ≠ kind)
    (hparen : kind ≠ .openParen) (h : outline.inside kind = false) :
    outline'.inside kind = false := by
  induction hplaced with
  | nil => exact h
  | cons _ hplaced _ ih =>
    obtain ⟨htoken, hrest⟩ := List.forall_mem_cons.1 hkind
    exact ih hrest (inside_placed hplaced htoken hparen h)

end Outline

end InvertedIndex
