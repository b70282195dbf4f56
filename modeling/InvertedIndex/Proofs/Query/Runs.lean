import InvertedIndex.Proofs.Query.Labels
import InvertedIndex.Proofs.Query.Quoting
import Mathlib.Data.List.SplitBy

/-!
# `Proofs.Query.Runs` — runs of comparison characters

Reading a text does three things, as far as comparisons go: it reads comparison characters, it places
other tokens, and it leaves groups. White space does none of them, nor does a character that is
dropped, such as a comma outside lists or a closing bracket with no group to close. The comparison
characters should make one token for each longest run of them between which nothing is done.

An outline shows how far this has come. Some of its tokens are settled, and one may still take the
next comparison character. That is the tail if it is a comparison without an operand. If the tail is a
comparison that has its operand, then a run may go on that is not in the tail.

## Contents
- `Deed`, `Deed.runs`: what reading does, and the tokens that this should make; `runs_held`;
- `Outline.comparisons`: the comparisons of a tree among its other tokens;
- `Outline.deeds`, `Scanner.deeds`: what reading a token and a text does;
- `Scanner.crosses`: the comparison characters that go across an operand;
- `Outline.ahead`: what stands in front of the tail; `ahead_append`, `ahead_leave`;
- `Outline.Regular`: what reading keeps; `Outline.Grows`: texts that only get longer;
- `Outline.Keeps`: the run that goes on, and the tokens in front of it;
- `Outline.Continues`, `Outline.Agrees`: moves, and moves that agree with deeds.
-/

namespace InvertedIndex

/-! ## Deeds -/

/-- What reading a character may do, as far as comparisons go. -/
inductive Deed where
  /-- It reads a comparison character. -/
  | compares (c : Char)
  /-- It places any other token. -/
  | places
  /-- It leaves a group. -/
  | leaves
  deriving Repr, DecidableEq

namespace Deed

/-- Whether two deeds, one right behind the other, belong to one run. -/
def joins : Deed → Deed → Bool
  | .compares _, .compares _ => true
  | _, _ => false

/-- The comparison character read. -/
def character? : Deed → Option Char
  | .compares c => some c
  | _ => none

/-- The token of a run of deeds, if there is one: that of comparison characters with its text, and
    any other without. -/
def token? : List Deed → Option (Option String)
  | [.places] => some none
  | [.leaves] => none
  | run => some (some (String.ofList (run.filterMap character?)))

/-- The tokens that deeds should make: one for each longest run of comparison characters, and one
    for each other token placed. -/
def runs (deeds : List Deed) : List (Option String) := (deeds.splitBy joins).filterMap token?

/-- The token of some comparison characters, if there are any. -/
def run (characters : List Char) : List (Option String) :=
  if characters.isEmpty then [] else [some (String.ofList characters)]

variable {deeds later : List Deed}

theorem runs_append (h : ∀ deed ∈ deeds.getLast?, ∀ next ∈ later.head?, joins deed next = false) :
    runs (deeds ++ later) = runs deeds ++ runs later := by
  rw [runs, List.splitBy_append h, List.filterMap_append]
  rfl

theorem token?_compares (c : Char) (rest : List Char) :
    token? ((c :: rest).map .compares) = some (some (String.ofList (c :: rest))) := by
  have hcharacters : ((c :: rest).map Deed.compares).filterMap character? = c :: rest := by
    rw [List.filterMap_map]
    exact List.filterMap_some
  show some (some (String.ofList (((c :: rest).map Deed.compares).filterMap character?))) = _
  rw [hcharacters]

/-- Comparison characters alone are one run, if there are any. -/
theorem runs_compares (characters : List Char) :
    runs (characters.map .compares) = run characters := by
  cases characters with
  | nil => rfl
  | cons c rest =>
    have hchain : ((c :: rest).map Deed.compares).IsChain fun deed next => joins deed next := by
      rw [List.isChain_map]
      exact (List.pairwise_of_forall fun _ _ => rfl).isChain
    have hsplit : ((c :: rest).map Deed.compares).splitBy joins = [(c :: rest).map .compares] :=
      List.splitBy_of_isChain (by simp) hchain
    rw [runs, hsplit, List.filterMap_cons, token?_compares]
    rfl

/-- Any other deed ends a run. -/
theorem runs_held (characters : List Char) {deed : Deed} (h : ∀ before, joins before deed = false)
    (later : List Deed) : runs (characters.map .compares ++ deed :: later)
      = run characters ++ runs (deed :: later) := by
  rw [runs_append fun before _ next hnext => ?_, runs_compares]
  obtain rfl : deed = next := by simpa using hnext
  exact h before

theorem joins_places (deed : Deed) : joins deed .places = false := by cases deed <;> rfl

theorem joins_leaves (deed : Deed) : joins deed .leaves = false := by cases deed <;> rfl

theorem runs_places (later : List Deed) : runs (.places :: later) = none :: runs later := by
  show runs ([.places] ++ later) = runs [.places] ++ runs later
  exact runs_append (by simp [joins])

theorem runs_leaves (later : List Deed) : runs (.leaves :: later) = runs later := by
  show runs ([.leaves] ++ later) = runs [.leaves] ++ runs later
  exact runs_append (by simp [joins])

end Deed

/-! ## Comparisons of a tree -/

/-- The text of a comparison. -/
def Token.comparison? (token : Token) : Option String :=
  if token.kind = .comparison then some token.text else none

theorem Token.comparison?_shallow : Token.Shallow Token.comparison? := fun _ _ => rfl

namespace Outline

/-- The tokens in the tree of an outline, of which the comparisons have their text. -/
def comparisons (outline : Outline) : List (Option String) := outline.placed.map Token.comparison?

/-- Whether a token of the kind leaves a group. -/
def leaves (outline : Outline) (kind : TokenKind) : Bool :=
  (closedBy? kind).any fun opened => outline.parent?.any (·.kind = opened)

/-- What reading a token does. One that merges into a sign or only says where the next one goes comes
    to nothing, unless it leaves a group. -/
def deeds (outline : Outline) (kind : TokenKind) (text : String) : List Deed :=
  if kind = .comparison then text.toList.map .compares
  else if (outline.mergeIntoTail? kind text).isSome then []
  else if outline.leaves kind then [.leaves]
  else if (outline.steer? kind).isSome then []
  else [.places]

/-- Whether the tail is a comparison that has its operand. -/
def resumes (outline : Outline) : Bool :=
  outline.tail?.any fun tail => tail.kind = .comparison ∧ !tail.children.isEmpty

end Outline

namespace Scanner

/-- What the end of the word being gathered does. -/
def wordDeeds (scanner : Scanner) : List Deed := if scanner.word.isEmpty then [] else [.places]

/-- What reading a character does. A star belongs to the word in front of it, but not in braces. -/
def stepDeeds (scanner : Scanner) (c : Char) : List Deed :=
  match CharClass.of c with
  | .word => []
  | .space => scanner.wordDeeds
  | .star =>
    if scanner.outline.inside .openBrace then scanner.wordDeeds ++ [.places] else [.places]
  | .mark kind => scanner.wordDeeds ++
      (scanner.flush Resolver.plain .word).outline.deeds kind (String.singleton c)
  | _ => scanner.wordDeeds ++ [.places]

/-- What reading a text does. -/
def deeds (scanner : Scanner) (input : List Char) : List Deed :=
  match input with
  | [] => scanner.wordDeeds
  | c :: rest =>
    let next := scanner.step Resolver.plain c rest
    scanner.stepDeeds c ++ deeds next.1 next.2
termination_by input.length
decreasing_by exact Nat.lt_succ_of_le (Scanner.step_length Resolver.plain scanner c rest)

/-- Whether a comparison character merges into a comparison across its operand. -/
def crosses (scanner : Scanner) (c : Char) (_rest : List Char) : Bool :=
  CharClass.of c = .mark .comparison && (scanner.flush Resolver.plain .word).outline.resumes

end Scanner

/-! ## The tail and what stands in front of it -/

namespace Outline

variable {outline outline' outline'' : Outline} {token : Token} {level parent : Level}
  {outer : List Level}

/-- The tokens in front of the tail. -/
def ahead (outline : Outline) : List (Option String) :=
  match outline.spine with
  | [] => []
  | level :: outer => outer.reverse.flatMap (levelListed Token.comparison?)
      ++ level.earlier.reverse.flatMap (Token.listed Token.comparison?)

theorem comparisons_eq (h : outline.Tidy) (hspine : outline.spine = level :: outer) :
    outline.comparisons = outline.ahead ++ level.last.listed Token.comparison? := by
  have hlisted : outline.comparisons = outline.spine.reverse.flatMap (levelListed Token.comparison?) :=
    listed_spine Token.comparison?_shallow h
  rw [hlisted]
  simp [ahead, hspine, levelListed_eq]

/-- A comparison stands in front of its operand. -/
theorem listed_comparison (h : token.kind = .comparison) : token.listed Token.comparison?
    = some token.text :: token.children.flatMap (Token.listed Token.comparison?) := by
  have hown : token.isStructural = false := by simp [Token.isStructural, h]
  rw [Token.listed_eq, hown]
  simp [Token.comparison?, h]

/-- A token behind the tail of an outline without colons becomes the tail. -/
theorem append_spine (h : outline.awaits = false) (token : Token) :
    ∃ earlier outer, (outline.append token).spine = ⟨earlier, token⟩ :: outer := by
  have hgrown := grown_append outline token
  generalize outline.append token = grown at hgrown ⊢
  cases hgrown with
  | first => exact ⟨_, _, rfl⟩
  | below => exact ⟨_, _, rfl⟩
  | beside => exact ⟨_, _, rfl⟩
  | enclosing _ _ hawaits => exact absurd hawaits (by simp [h])

theorem comparisons_append (h : outline.Tidy) (hnull : token.kind ≠ .null)
    (hchildless : token.children = []) :
    (outline.append token).comparisons = outline.comparisons ++ [token.comparison?] := by
  have hlisted := listed_append Token.comparison?_shallow h token
  rw [Token.listed_childless hnull hchildless] at hlisted
  exact hlisted

/-- All other tokens stand in front of one that has been added. -/
theorem ahead_append (h : outline.Tidy) (hawaits : outline.awaits = false)
    (hnull : token.kind ≠ .null) (hchildless : token.children = []) :
    (outline.append token).ahead = outline.comparisons := by
  obtain ⟨earlier, outer, hspine⟩ := append_spine hawaits token
  have hall := comparisons_eq (h.append token) hspine
  rw [comparisons_append h hnull hchildless] at hall
  exact (List.append_cancel_right (hall.trans (by rw [Token.listed_childless hnull hchildless]))).symm

theorem ahead_setTail (hspine : outline.spine = level :: outer) (token : Token) :
    (outline.setTail token).ahead = outline.ahead := by
  rw [setTail_eq hspine]
  simp [ahead, hspine]

/-- What stands in front of the tail goes on from its parent. -/
theorem ahead_leave (h : outline.Tidy) (hspine : outline.spine = level :: parent :: outer)
    (hparent : parent.last.kind = .comparison) :
    outline.leave.ahead ++ [some parent.last.text] <+: outline.ahead := by
  have hchildless : parent.last.children = [] := h.around parent (by simp [hspine])
  have hlisted : parent.last.listed Token.comparison? = [some parent.last.text] := by
    rw [listed_comparison hparent, hchildless]
    rfl
  rw [leave_eq hspine]
  simp [ahead, hspine, levelListed_eq, hlisted]

/-! ## What reading keeps -/

/-- What reading keeps where there are no colons and quotation marks: no comparison is a sign. -/
structure Regular (outline : Outline) : Prop where
  tidy : outline.Tidy
  pending : outline.pending = []
  colon : outline.inside .colon = false
  quote : outline.inside .doubleQuote = false
  unsigned : ∀ level ∈ outline.spine, level.last.kind = .comparison →
    level.last.text ≠ "-" ∧ level.last.text ≠ "+"

theorem empty_regular : Regular {} := ⟨empty_tidy, rfl, rfl, rfl, by simp⟩

namespace Regular

theorem append (h : outline.Regular) (hcolon : token.kind ≠ .colon)
    (hquote : token.kind ≠ .doubleQuote)
    (hunsigned : token.kind = .comparison → token.text ≠ "-" ∧ token.text ≠ "+") :
    (outline.append token).Regular := by
  refine ⟨h.tidy.append token, (append_pending outline token).trans h.pending,
    inside_append hcolon (by decide) h.colon, inside_append hquote (by decide) h.quote, ?_⟩
  have hall := h.unsigned
  have hgrown := grown_append outline token
  generalize outline.append token = grown at hgrown ⊢
  cases hgrown with
  | first => simpa using hunsigned
  | below hspine =>
    rw [hspine] at hall
    exact List.forall_mem_cons.2 ⟨hunsigned, hall⟩
  | beside hspine =>
    rw [hspine] at hall
    exact List.forall_mem_cons.2 ⟨hunsigned, (List.forall_mem_cons.1 hall).2⟩
  | enclosing hspine =>
    rw [hspine] at hall
    exact List.forall_mem_cons.2 ⟨by simp [Token.paren], (List.forall_mem_cons.1 hall).2⟩

theorem setTail (h : outline.Regular) (hspine : outline.spine = level :: outer)
    (hkind : token.kind = level.last.kind)
    (hunsigned : token.kind = .comparison → token.text ≠ "-" ∧ token.text ≠ "+") :
    (outline.setTail token).Regular := by
  have hall := h.unsigned
  rw [hspine, List.forall_mem_cons] at hall
  refine ⟨h.tidy.setTail hspine token, ?_, ?_, ?_, ?_⟩
  · rw [setTail_eq hspine]
    exact h.pending
  · rw [inside_setTail hspine hkind, h.colon]
  · rw [inside_setTail hspine hkind, h.quote]
  · rw [setTail_eq hspine]
    exact List.forall_mem_cons.2 ⟨hunsigned, hall.2⟩

theorem leave (h : outline.Regular) : outline.leave.Regular := by
  have hunmoved := leave_unmoved h.tidy
  refine ⟨hunmoved.tidy, hunmoved.pending.trans h.pending, inside_leave h.colon,
    inside_leave h.quote, ?_⟩
  have hall := h.unsigned
  unfold Outline.leave
  split
  next level parent outer hspine =>
    rw [hspine, List.forall_mem_cons, List.forall_mem_cons] at hall
    exact List.forall_mem_cons.2 hall.2
  · exact hall

end Regular

/-! ## Texts that get longer -/

/-- Comparisons stay where they are, and their texts only get longer. -/
def Grows (tokens tokens' : List (Option String)) : Prop :=
  ∀ (n : Nat) (text : String), tokens[n]? = some (some text) →
    ∃ more, tokens'[n]? = some (some (text ++ more))

theorem Grows.refl (tokens : List (Option String)) : Grows tokens tokens := by
  intro n text htext
  exact ⟨"", by rw [htext, String.append_empty]⟩

theorem Grows.trans {tokens tokens' tokens'' : List (Option String)} (h : Grows tokens tokens')
    (h' : Grows tokens' tokens'') : Grows tokens tokens'' := by
  intro n text htext
  obtain ⟨more, hmore⟩ := h n text htext
  obtain ⟨rest, hrest⟩ := h' n _ hmore
  exact ⟨more ++ rest, by rw [hrest, String.append_assoc]⟩

theorem grows_append (tokens added : List (Option String)) : Grows tokens (tokens ++ added) := by
  intro n text htext
  obtain ⟨hn, -⟩ := List.getElem?_eq_some_iff.1 htext
  exact ⟨"", by rw [List.getElem?_append_left hn, htext, String.append_empty]⟩

/-- One of the texts gets longer. -/
theorem grows_text (before behind : List (Option String)) (text more : String) :
    Grows (before ++ some text :: behind) (before ++ some (text ++ more) :: behind) := by
  intro n shown hshown
  rcases Nat.lt_trichotomy n before.length with hlt | rfl | hgt
  · rw [List.getElem?_append_left hlt] at hshown
    exact ⟨"", by rw [List.getElem?_append_left hlt, hshown, String.append_empty]⟩
  · obtain rfl : text = shown := by simpa using hshown
    exact ⟨more, by simp⟩
  · obtain ⟨k, hk⟩ : ∃ k, n - before.length = k + 1 := ⟨n - before.length - 1, by omega⟩
    rw [List.getElem?_append_right hgt.le, hk, List.getElem?_cons_succ] at hshown
    exact ⟨"", by
      rw [List.getElem?_append_right hgt.le, hk, List.getElem?_cons_succ, hshown,
        String.append_empty]⟩

/-! ## The run that goes on -/

/-- The run of comparison characters that the next one belongs to, with the tokens in front of it. No
    run goes on if the tail is no comparison, the tail itself if it has no operand. A comparison that
    has its operand stands among the tokens in front of the run. -/
inductive Keeps (outline : Outline) : List (Option String) → List Char → Prop where
  | closed (htail : outline.tail?.any (·.kind = .comparison) = false) :
      Keeps outline outline.comparisons []
  | growing {level : Level} {outer : List Level} (hspine : outline.spine = level :: outer)
      (hkind : level.last.kind = .comparison) (hchildless : level.last.children = [])
      (htext : level.last.text ≠ "") : Keeps outline outline.ahead level.last.text.toList
  | resumed {level : Level} {outer : List Level} {settled : List (Option String)}
      {held : List Char} (hspine : outline.spine = level :: outer)
      (hkind : level.last.kind = .comparison) (hfilled : level.last.children ≠ [])
      (hall : outline.comparisons = settled ++ Deed.run held)
      (hahead : outline.ahead ++ [some level.last.text] <+: settled) : Keeps outline settled held

variable {settled : List (Option String)} {held : List Char}

namespace Keeps

/-- The tokens in front of the run and the run are all there are. -/
theorem all (h : outline.Keeps settled held) (htidy : outline.Tidy) :
    outline.comparisons = settled ++ Deed.run held := by
  cases h with
  | closed => exact (List.append_nil _).symm
  | growing hspine hkind hchildless htext =>
    rw [comparisons_eq htidy hspine, listed_comparison hkind, hchildless]
    simp [Deed.run, htext]
  | resumed _ _ _ hall => exact hall

/-- What stands in front of the tail stands in front of the run. -/
theorem ahead_prefix (h : outline.Keeps settled held) (htidy : outline.Tidy) :
    outline.ahead <+: settled := by
  cases h with
  | closed =>
    cases hspine : outline.spine with
    | nil => simp [ahead, hspine]
    | cons level outer => exact comparisons_eq htidy hspine ▸ List.prefix_append _ _
  | growing => exact List.prefix_rfl
  | resumed _ _ _ _ hahead => exact (List.prefix_append _ _).trans hahead

/-- No run goes on behind a tail that is no comparison. -/
theorem of_other (h : outline.Keeps settled held) (hspine : outline.spine = level :: outer)
    (hkind : level.last.kind ≠ .comparison) : settled = outline.comparisons ∧ held = [] := by
  cases h with
  | closed => exact ⟨rfl, rfl⟩
  | growing hspine' hkind' =>
    obtain ⟨rfl, -⟩ := List.cons.inj (hspine.symm.trans hspine')
    exact absurd hkind' hkind
  | resumed hspine' hkind' =>
    obtain ⟨rfl, -⟩ := List.cons.inj (hspine.symm.trans hspine')
    exact absurd hkind' hkind

end Keeps

/-! ## Moves -/

/-- A move after which comparisons are where they were. -/
structure Continues (outline outline' : Outline) : Prop where
  regular : outline'.Regular
  grows : Grows outline.comparisons outline'.comparisons

/-- A move agrees with deeds: the run that goes on behind the move is the one that goes on behind the
    deeds, and so are the tokens in front of it. -/
structure Agrees (outline : Outline) (deeds : List Deed) (outline' : Outline) : Prop
    extends Continues outline outline' where
  keeps : ∀ {settled : List (Option String)} {held : List Char}, outline.Keeps settled held →
    ∃ settled' held', outline'.Keeps settled' held' ∧ ∀ later : List Deed,
      settled ++ Deed.runs (held.map .compares ++ (deeds ++ later))
        = settled' ++ Deed.runs (held'.map .compares ++ later)

theorem Continues.trans (h : Continues outline outline') (h' : Continues outline' outline'') :
    Continues outline outline'' :=
  ⟨h'.regular, h.grows.trans h'.grows⟩

namespace Agrees

variable {deeds deeds' : List Deed}

theorem refl (h : outline.Regular) : Agrees outline [] outline where
  regular := h
  grows := Grows.refl _
  keeps := fun hkeeps => ⟨_, _, hkeeps, fun _ => rfl⟩

theorem trans (h : Agrees outline deeds outline') (h' : Agrees outline' deeds' outline'') :
    Agrees outline (deeds ++ deeds') outline'' where
  toContinues := h.toContinues.trans h'.toContinues
  keeps := by
    intro settled held hkeeps
    obtain ⟨settled', held', hkeeps', hdeeds⟩ := h.keeps hkeeps
    obtain ⟨settled'', held'', hkeeps'', hdeeds'⟩ := h'.keeps hkeeps'
    refine ⟨settled'', held'', hkeeps'', fun later => ?_⟩
    rw [List.append_assoc, hdeeds, hdeeds']

end Agrees

end Outline

end InvertedIndex
