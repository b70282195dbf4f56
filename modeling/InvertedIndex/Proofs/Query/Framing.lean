import InvertedIndex.Proofs.Query.Written

/-!
# `Proofs.Query.Framing` — text that is read the same wherever it stands

What stands in front of a group in parentheses has no bearing on how the group is read, and neither
has what comes behind it. The first holds for every step of the scanner inside of the group: it never
looks at tokens in front of the outermost level. The second holds for every step that does not come to
the end of the group: the readers stop where they would stop in any longer input.

## Contents
- `readQuoted_append`, …, `readAttributes_append`: readers over longer inputs;
- `Scanner.step_append`: a step over a longer input;
- `Outline.after`, `Outline.Anchored`; `Outline.place_after`: tokens in front of the outermost level;
- `Scanner.step_after`: a step behind other tokens;
- `Scanner.closes`: inputs that close a group; `Scanner.scanFrom_closes`: groups are read the same
  wherever they stand.
-/

namespace InvertedIndex

/-! ## Longer inputs -/

section Readers

variable {input : List Char} (more : List Char)

theorem readQuoted_append {mark : Char} (h : (readQuoted mark input).2 ≠ []) :
    readQuoted mark (input ++ more)
      = ((readQuoted mark input).1, (readQuoted mark input).2 ++ more) := by
  fun_induction readQuoted mark input with
  | case1 => exact absurd rfl h
  | case2 rest =>
    rw [List.cons_append, readQuoted.eq_def]
    simp only [if_true]
  | case3 => exact absurd rfl h
  | case4 d rest value behind hread hmark ih =>
    rw [hread] at ih
    simp [readQuoted, hmark, ih h]
  | case5 c rest hmark hescape value behind hread ih =>
    rw [hread] at ih
    rw [List.cons_append, readQuoted.eq_def]
    simp only [if_neg hmark, if_neg hescape, ih h]

/-- A part that ends within an input ends there in a longer one, too. -/
theorem span_append {p : Char → Bool} (h : input.dropWhile p ≠ []) :
    (input ++ more).takeWhile p = input.takeWhile p ∧
      (input ++ more).dropWhile p = input.dropWhile p ++ more := by
  have hempty : (input.dropWhile p).isEmpty = false := by simpa using h
  have hlength : (input.takeWhile p).length ≠ input.length := by
    intro hlength
    have hjoin := congrArg List.length (List.takeWhile_append_dropWhile (p := p) (l := input))
    rw [List.length_append, hlength] at hjoin
    exact h (List.length_eq_zero_iff.1 (by omega))
  rw [List.takeWhile_append, if_neg hlength, List.dropWhile_append, hempty]
  exact ⟨rfl, rfl⟩

theorem readValue_append {stops : List Char} (h : (readValue stops input).2 ≠ []) :
    readValue stops (input ++ more)
      = ((readValue stops input).1, (readValue stops input).2 ++ more) := by
  cases input with
  | nil => exact absurd rfl h
  | cons c rest =>
    by_cases hquote : c = '"' ∨ c = '\x27'
    · simp only [readValue, List.cons_append, if_pos hquote] at h ⊢
      exact readQuoted_append more h
    · simp only [readValue, List.cons_append, if_neg hquote] at h ⊢
      obtain ⟨htake, hdrop⟩ := span_append more h
      rw [← List.cons_append, htake, hdrop]

theorem dropSeparator_append (h : dropSeparator input ≠ []) :
    dropSeparator (input ++ more) = dropSeparator input ++ more := by
  cases input with
  | nil => exact absurd rfl h
  | cons c rest =>
    simp only [dropSeparator, List.cons_append] at h ⊢
    split
    · rfl
    next hclose =>
      rw [if_neg hclose] at h
      split
      · rfl
      next hwide =>
        rw [if_neg hwide] at h
        have hrest : rest.dropWhile (inValue listStops) ≠ [] := by
          intro hnil
          simp [hnil] at h
        rw [(span_append more hrest).2]
        obtain ⟨d, behind, hcons⟩ := List.exists_cons_of_ne_nil hrest
        rw [hcons, List.cons_append]
        by_cases hd : d = ']'
        · subst hd
          rfl
        · split
          next heq => exact absurd (List.cons.inj heq).1 hd
          next heq =>
            obtain ⟨rfl, rfl⟩ := List.cons.inj heq
            rfl
          next heq => cases heq

theorem readList_append (h : (readList input).2 ≠ []) :
    readList (input ++ more) = ((readList input).1, (readList input).2 ++ more) := by
  fun_induction readList input with
  | case1 => exact absurd rfl h
  | case2 rest => rw [List.cons_append, readList, dif_pos rfl]
  | case3 c rest hclose read values behind hread ih =>
    have hseparator : dropSeparator read.2 ≠ [] := by
      intro hnil
      rw [hnil, readList] at hread
      exact h (Prod.mk.inj hread).2.symm
    have hvalue : read.2 ≠ [] := by
      intro hnil
      exact hseparator (by rw [hnil]; rfl)
    rw [hread] at ih
    have hmore : readValue listStops (c :: (rest ++ more)) = (read.1, read.2 ++ more) :=
      readValue_append more hvalue
    rw [List.cons_append, readList, dif_neg hclose]
    simp only [hmore, dropSeparator_append more hseparator, ih h]

theorem readListed_append (h : (readListed input).2 ≠ []) :
    readListed (input ++ more) = ((readListed input).1, (readListed input).2 ++ more) := by
  cases input with
  | nil => exact absurd rfl h
  | cons c rest =>
    by_cases hopen : c = '['
    · subst hopen
      exact readList_append more h
    · have hplain (behind : List Char) : readListed (c :: behind) = ([], c :: behind) := by
        unfold readListed
        split
        next heq => exact absurd (List.cons.inj heq).1 hopen
        · rfl
      rw [List.cons_append, hplain, hplain, List.cons_append]

theorem readAttributes_append (h : (readAttributes input).2 ≠ []) :
    readAttributes (input ++ more)
      = ((readAttributes input).1, (readAttributes input).2 ++ more) := by
  have hvalue : (readValue [] (readListed input).2).2 ≠ [] := h
  have hlisted : (readListed input).2 ≠ [] := by
    intro hnil
    rw [hnil] at hvalue
    exact hvalue rfl
  simp only [readAttributes, readListed_append more hlisted, readValue_append more hvalue]

end Readers

/-! ## Steps over longer inputs -/

namespace Scanner

variable {scanner : Scanner} {c : Char} {input : List Char}

/-- **A step over a longer input** takes the same off its front, unless it comes to the end of the
    shorter one. Two dots are one token only before another character. -/
theorem step_append (h : (scanner.step Resolver.plain c input).2 ≠ [])
    (hdots : CharClass.of c = .dot → input ≠ ['.']) (more : List Char) :
    scanner.step Resolver.plain c (input ++ more)
      = ((scanner.step Resolver.plain c input).1,
        (scanner.step Resolver.plain c input).2 ++ more) := by
  rw [step_behind] at h
  unfold behind at h
  unfold step
  cases hclass : CharClass.of c with
  | colon =>
    simp only [hclass] at h ⊢
    cases hword : scanner.word.isEmpty with
    | true => rfl
    | false =>
      simp only [hword] at h ⊢
      have hread := readAttributes_append more (by simpa using h)
      simp [named, hread, Resolver.plain]
  | joint kind =>
    simp only [hclass] at h ⊢
    cases input with
    | nil => exact absurd rfl h
    | cons d rest =>
      simp only [dropSame, List.cons_append]
      split <;> rfl
  | dot =>
    simp only [hclass] at h ⊢
    rcases dots_cases input with ⟨d, rest, rfl⟩ | hsingle
    · rfl
    · have hmore : ∀ d rest, input ++ more = '.' :: d :: rest → False := by
        intro d rest heq
        cases input with
        | nil => exact h rfl
        | cons e others =>
          obtain ⟨rfl, -⟩ := List.cons.inj heq
          cases others with
          | nil => exact hdots hclass rfl
          | cons e' others => exact hsingle e' others rfl
      simp only
  | escape =>
    simp only [hclass] at h ⊢
    cases input with
    | nil => exact absurd rfl h
    | cons d rest => rfl
  | space =>
    simp only [hclass] at h ⊢
    rw [(span_append more h).2]
  | _ => rfl

end Scanner

/-! ## Tokens in front -/

/-- The levels with some tokens in front of the outermost one. -/
def Outline.levelsAfter (tokens : List Token) : List Level → List Level
  | [] => []
  | [level] => [⟨level.earlier ++ tokens.reverse, level.last⟩]
  | level :: parent :: outer => level :: levelsAfter tokens (parent :: outer)

/-- The outline with some tokens in front of its outermost level. -/
def Outline.after (tokens : List Token) (outline : Outline) : Outline :=
  { outline with spine := levelsAfter tokens outline.spine }

/-- A new token may come behind the outermost level: it looks for no conditional there. -/
def Outline.Anchored (outline : Outline) : Prop :=
  ∃ level outer, outline.spine = level :: outer ∧ (outer = [] → level.last.kind ≠ .colon)

namespace Outline

variable {tokens : List Token} {outline : Outline}

theorem map_last_levelsAfter (levels : List Level) :
    (levelsAfter tokens levels).map Level.last = levels.map Level.last := by
  fun_induction levelsAfter tokens levels with
  | case1 => rfl
  | case2 level => rfl
  | case3 level parent outer ih => rw [List.map_cons, ih, ← List.map_cons]

/-- The tail and what is around it are the same. -/
@[simp] theorem tail?_after : (outline.after tokens).tail? = outline.tail? := by
  rw [tail?, ← List.head?_map, after, map_last_levelsAfter, List.head?_map, tail?]

@[simp] theorem parent?_after : (outline.after tokens).parent? = outline.parent? := by
  rw [parent?, ← List.head?_map, List.map_tail, after, map_last_levelsAfter, ← List.map_tail,
    List.head?_map, parent?]

@[simp] theorem inside_after (kind : TokenKind) :
    (outline.after tokens).inside kind = outline.inside kind := by
  have hany (o : Outline) :
      o.inside kind = (o.spine.map Level.last).any fun token => token.kind = kind := by
    rw [inside, List.any_map]
    rfl
  rw [hany, after, map_last_levelsAfter, ← hany]

theorem setTail_after (token : Token) :
    (outline.after tokens).setTail token = (outline.setTail token).after tokens := by
  obtain ⟨spine, pending, globals⟩ := outline
  match spine with
  | [] => rfl
  | [level] => rfl
  | level :: parent :: outer => rfl

theorem leave_after : (outline.after tokens).leave = outline.leave.after tokens := by
  obtain ⟨spine, pending, globals⟩ := outline
  match spine with
  | [] => rfl
  | [level] => rfl
  | [level, parent] => rfl
  | level :: parent :: next :: outer => rfl

theorem close_after (kind : TokenKind) :
    (outline.after tokens).close kind = (outline.close kind).after tokens := by
  unfold close
  rw [parent?_after, tail?_after, leave_after]
  split
  · rfl
  · split
    · split
      · exact setTail_after _
      · rfl
    · rfl

theorem mergeIntoTail?_after (kind : TokenKind) (text : String) :
    (outline.after tokens).mergeIntoTail? kind text
      = (outline.mergeIntoTail? kind text).map (after tokens) := by
  unfold mergeIntoTail?
  rw [tail?_after]
  cases outline.tail? with
  | none => rfl
  | some tail =>
    simp only [Option.bind_some, Option.map_map, Function.comp_def, setTail_after]

theorem steer?_after (kind : TokenKind) :
    (outline.after tokens).steer? kind = (outline.steer? kind).map (after tokens) := by
  unfold steer?
  cases kind <;> simp only [parent?_after, tail?_after, leave_after, close_after] <;>
    first | rfl | (repeat' split) <;> rfl

theorem append_after (h : outline.Anchored) (token : Token) :
    (outline.after tokens).append token = (outline.append token).after tokens := by
  obtain ⟨spine, pending, globals⟩ := outline
  obtain ⟨level, outer, hspine, hcolon⟩ := h
  simp only at hspine
  subst hspine
  cases outer with
  | nil =>
    simp only [append, after, levelsAfter, if_neg (hcolon rfl)]
    split <;> simp [levelsAfter]
  | cons parent outer =>
    simp only [append, after, levelsAfter]
    split <;> simp [levelsAfter]

theorem attach_after (h : outline.Anchored) (token : Token) :
    (outline.after tokens).attach .normal token = (outline.attach .normal token).after tokens := by
  have hpending : (outline.after tokens).pending = outline.pending := rfl
  simp only [attach, hpending]
  split
  · exact append_after h token
  · have hcleared : ({ outline with pending := [] } : Outline).Anchored := h
    exact append_after hcleared _

/-- **Placing a token** looks at nothing in front of the outermost level. -/
theorem place_after (h : outline.Anchored) (kind : TokenKind) (text : String)
    (attrs : List String) :
    (outline.after tokens).place kind text .normal attrs none
      = (outline.place kind text .normal attrs none).after tokens := by
  unfold place
  rw [mergeIntoTail?_after, steer?_after]
  cases outline.mergeIntoTail? kind text with
  | some merged => rfl
  | none =>
    cases outline.steer? kind with
    | some steered => rfl
    | none => exact attach_after h _

namespace Anchored

theorem append (h : outline.Anchored) {token : Token} (htoken : token.kind ≠ .colon) :
    (outline.append token).Anchored := by
  obtain ⟨level, outer, hspine, hcolon⟩ := h
  unfold Outline.append
  simp only [hspine]
  split
  · exact ⟨_, _, rfl, nofun⟩
  · refine ⟨_, _, rfl, ?_⟩
    rintro rfl
    rw [if_neg (hcolon rfl)]
    exact htoken

theorem attach (h : outline.Anchored) {token : Token} (htoken : token.kind ≠ .colon) :
    (outline.attach .normal token).Anchored := by
  simp only [Outline.attach]
  split
  · exact h.append htoken
  · have hcleared : ({ outline with pending := [] } : Outline).Anchored := h
    exact hcleared.append htoken

/-- A word leaves an outline anchored. -/
theorem place (h : outline.Anchored) {kind : TokenKind} (hkind : kind = .word ∨ kind = .modifier)
    (text : String) : (outline.place kind text .normal [] none).Anchored := by
  have hsteer : outline.steer? kind = none := by
    rcases hkind with rfl | rfl <;> rfl
  have hcolon : kind ≠ .colon := by
    rcases hkind with rfl | rfl <;> simp
  unfold Outline.place
  cases hmerge : outline.mergeIntoTail? kind text with
  | none =>
    simp only [hsteer]
    exact h.attach hcolon
  | some merged =>
    -- Only the text of the tail is another one.
    obtain ⟨tail, htail, hmerged⟩ := Option.bind_eq_some_iff.1 hmerge
    obtain ⟨text', -, rfl⟩ := Option.map_eq_some_iff.1 hmerged
    obtain ⟨level, outer, hspine, hlast⟩ := h
    rw [tail?_eq hspine] at htail
    obtain rfl := Option.some.inj htail
    rw [setTail_eq hspine]
    exact ⟨_, _, rfl, hlast⟩

end Anchored

end Outline

/-! ## Steps behind other tokens -/

namespace Scanner

variable {tokens : List Token} {scanner : Scanner}

/-- The scanner with some tokens in front of the outermost level. -/
def after (tokens : List Token) (scanner : Scanner) : Scanner :=
  { scanner with outline := scanner.outline.after tokens }

theorem emit_after (h : scanner.outline.Anchored) (kind : TokenKind) (text : String) :
    (scanner.after tokens).emit Resolver.plain kind text
      = (scanner.emit Resolver.plain kind text).after tokens := by
  rw [emit_plain, emit_plain]
  exact congrArg (Scanner.mk · scanner.word) (Outline.place_after h kind text [])

theorem flush_after (h : scanner.outline.Anchored) (kind : TokenKind) :
    (scanner.after tokens).flush Resolver.plain kind
      = (scanner.flush Resolver.plain kind).after tokens := by
  have hword : (scanner.after tokens).word = scanner.word := rfl
  unfold flush
  rw [hword]
  split
  · rfl
  · have hgathered : ({ scanner with word := [] } : Scanner).outline.Anchored := h
    exact emit_after hgathered kind _

theorem flush_anchored (h : scanner.outline.Anchored) {kind : TokenKind}
    (hkind : kind = .word ∨ kind = .modifier) :
    (scanner.flush Resolver.plain kind).outline.Anchored := by
  unfold flush
  split
  · exact h
  · exact h.place hkind _

/-- A token behind the word being gathered. -/
theorem flush_emit_after (h : scanner.outline.Anchored) {flushed : TokenKind}
    (hflushed : flushed = .word ∨ flushed = .modifier) (kind : TokenKind) (text : String) :
    ((scanner.after tokens).flush Resolver.plain flushed).emit Resolver.plain kind text
      = ((scanner.flush Resolver.plain flushed).emit Resolver.plain kind text).after tokens := by
  rw [flush_after h, emit_after (flush_anchored h hflushed)]

/-- **A step** looks at nothing in front of the outermost level. -/
theorem step_after (h : scanner.outline.Anchored) (c : Char) (input : List Char) :
    (scanner.after tokens).step Resolver.plain c input
      = ((scanner.step Resolver.plain c input).1.after tokens,
        (scanner.step Resolver.plain c input).2) := by
  have hword : (scanner.after tokens).word = scanner.word := rfl
  have hinside (kind : TokenKind) : ((scanner.flush Resolver.plain .word).after tokens).outline.inside kind
      = (scanner.flush Resolver.plain .word).outline.inside kind := Outline.inside_after kind
  have hflushed := @flush_emit_after tokens scanner h .word (.inl rfl)
  unfold step
  cases hclass : CharClass.of c with
  | word => rfl
  | star =>
    simp only [star, hword]
    split
    · rw [emit_after h]
    · have hbrace : (scanner.after tokens).outline.inside .openBrace
          = scanner.outline.inside .openBrace := Outline.inside_after _
      rw [hbrace]
      split
      · rw [flush_emit_after h (.inr rfl)]
      · have hgathered : ({ scanner with word := [] } : Scanner).outline.Anchored := h
        rw [← emit_after hgathered]
        rfl
  | colon =>
    simp only [hword]
    split
    · rw [emit_after h]
    · exact congrArg (fun outline => (Scanner.mk outline [], (readAttributes input).2))
        (Outline.place_after h .word _ (readAttributes input).1)
  | question => simp only [flush_emit_after h (.inr rfl)]
  | dot =>
    simp only
    split <;> rw [hflushed]
  | mark kind =>
    simp only [flush_after h, hinside]
    rw [emit_after (flush_anchored h (.inl rfl))]
  | escape => simp only [flush_after h]
  | _ => simp only [hflushed]

end Scanner

/-! ## Groups in parentheses -/

/-- Whether the outline is one group in parentheses that has been closed, and nothing else. -/
def Outline.isGroup : Outline → Bool
  | ⟨[⟨[], token⟩], [], []⟩ => decide (token.kind = .openParen) && !nests token
  | _ => false

/-- Whether the outermost level is one group in parentheses so far. -/
def Outline.inGroup (outline : Outline) : Bool :=
  match outline.spine.getLast? with
  | some ⟨[], token⟩ => token.kind = .openParen
  | _ => false

/-- The scanner behind an opening parenthesis. -/
def Scanner.opened : Scanner := { outline := { spine := [⟨[], Token.paren []⟩] } }

/-- Whether the input, read on from the scanner, closes the only group of the outermost level with its
    last character. -/
def Scanner.closes (scanner : Scanner) (input : List Char) : Bool :=
  match input with
  | [] => false
  | c :: rest =>
    let next := scanner.step Resolver.plain c rest
    if c = ')' ∧ rest = [] then next.1.outline.isGroup
    else next.1.outline.inGroup && closes next.1 next.2
termination_by input.length
decreasing_by exact Nat.lt_succ_of_le (Scanner.step_length Resolver.plain scanner c rest)

namespace Outline

variable {outline : Outline}

theorem isGroup_iff : outline.isGroup = true ↔
    ∃ token : Token, token.kind = .openParen ∧ nests token = false ∧
      outline = { spine := [⟨[], token⟩] } := by
  constructor
  · intro h
    unfold isGroup at h
    split at h
    next token =>
      obtain ⟨hkind, hnests⟩ := (Bool.and_eq_true _ _).mp h
      exact ⟨token, of_decide_eq_true hkind, by simpa using hnests, rfl⟩
    · cases h
  · rintro ⟨token, hkind, hnests, rfl⟩
    simp [isGroup, hkind, hnests]

theorem anchored_of_inGroup (h : outline.inGroup = true) : outline.Anchored := by
  unfold inGroup at h
  split at h
  next token hlast =>
    cases hspine : outline.spine with
    | nil => simp [hspine] at hlast
    | cons level outer =>
      refine ⟨level, outer, hspine, ?_⟩
      rintro rfl
      obtain rfl : level = ⟨[], token⟩ := by simpa [hspine] using hlast
      simp [of_decide_eq_true h]
  · cases h

end Outline

namespace Scanner

open Outline

/-- A closing parenthesis takes nothing off the input behind it. -/
theorem step_paren (scanner : Scanner) (input : List Char) :
    scanner.step Resolver.plain ')' input
      = ((scanner.step Resolver.plain ')' []).1, input) := rfl

/-- A dot at the end closes no group. -/
theorem closes_dot (scanner : Scanner) : scanner.closes ['.'] = false := by
  have hend : (scanner.step Resolver.plain '.' []).2 = [] := rfl
  rw [closes, if_neg (by simp), hend, closes, Bool.and_false]

/-- **A group in parentheses is read the same wherever it stands**: behind any tokens that are side by
    side, and before any other text. -/
theorem scanFrom_closes {scanner : Scanner} {input : List Char}
    (h : scanner.closes input = true) (hgroup : scanner.outline.inGroup = true) :
    ∃ token : Token, token.kind = .openParen ∧ nests token = false ∧ ∀ tokens more,
      scanFrom Resolver.plain (scanner.after tokens) (input ++ more)
        = scanFrom Resolver.plain ⟨{ spine := [⟨tokens.reverse, token⟩] }, []⟩ more := by
  fun_induction closes scanner input with
  | case1 => cases h
  | case2 scanner c rest next hlast =>
    obtain ⟨rfl, rfl⟩ := hlast
    obtain ⟨token, hkind, hnests, houtline⟩ := isGroup_iff.1 h
    refine ⟨token, hkind, hnests, fun tokens more => ?_⟩
    have hword : next.1.word = [] := by
      show ((scanner.flush Resolver.plain .word).emit Resolver.plain _ _).word = []
      exact flush_word _ _
    have hnext : next.1 = ⟨{ spine := [⟨[], token⟩] }, []⟩ := by
      rw [← houtline, ← hword]
    rw [List.singleton_append, scanFrom_cons, step_after (anchored_of_inGroup hgroup), step_paren]
    show scanFrom _ (next.1.after tokens) more = _
    rw [hnext]
    rfl
  | case3 scanner c rest next hlast ih =>
    obtain ⟨hnext, hrest⟩ := (Bool.and_eq_true _ _).mp h
    obtain ⟨token, hkind, hnests, hreads⟩ := ih hrest hnext
    refine ⟨token, hkind, hnests, fun tokens more => ?_⟩
    have hne : next.2 ≠ [] := by
      intro hnil
      rw [hnil, closes] at hrest
      cases hrest
    have hdots : CharClass.of c = .dot → rest ≠ ['.'] := by
      rintro hdot rfl
      have hbehind : next.2 = ['.'] := by
        show (scanner.step Resolver.plain c ['.']).2 = _
        simp [step_behind, behind, hdot]
      rw [hbehind, closes_dot] at hrest
      cases hrest
    rw [List.cons_append, scanFrom_cons, step_after (anchored_of_inGroup hgroup),
      step_append hne hdots]
    exact hreads tokens more

end Scanner

end InvertedIndex
