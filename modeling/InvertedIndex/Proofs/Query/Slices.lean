import InvertedIndex.Proofs.Query.Values
import InvertedIndex.Proofs.Query.Written

/-!
# `Proofs.Query.Slices` — a query read by bytes

The reader by bytes goes through the text with the reader by characters. At a character that is no
part of a word, one round does what a step does. A word character takes as many rounds as it has
bytes; inside it, a word is being gathered, whose start is a boundary. So every slice that the
reader takes lies between boundaries, and it never stops for one that does not.

## Contents
- `Gathers`, `Reads`: what the two readers have in common between two characters;
- `Reads.flush`, `Reads.single`, `Reads.step`: a round and a step;
- `Reads.word`: the rounds over a word character;
- `lexer_sound`: a whole query.
-/

namespace InvertedIndex

open Checked String

/-! ## Classes of bytes -/

/-- Wide characters belong to words. -/
theorem CharClass.of_wide {c : Char} (h : 0x80 ≤ c.toNat) : CharClass.of c = .word := by
  unfold CharClass.of
  rw [if_neg (by omega), if_neg (wide_ne h (by decide)), if_neg (wide_ne h (by decide))]
  split
  all_goals first
    | rfl
    | exact absurd rfl (wide_ne h (by decide))

theorem CharClass.ofByte_ascii {c : Char} (h : c.toNat < 0x80) :
    CharClass.ofByte c.toUInt8 = CharClass.of c := by
  rw [ofByte, toUInt8_toNat h, if_pos h, Char.ofNat_toNat]

theorem CharClass.ofByte_wide {byte : UInt8} (h : 0x80 ≤ byte.toNat) :
    CharClass.ofByte byte = .word := if_neg (Nat.not_lt.2 h)

/-! ## Both readers -/

/-- The word being gathered starts at the place, and what is left stands behind it. -/
inductive Gathers (text : String) (input : List Char) : Option Nat → List Char → Prop where
  | nothing : Gathers text input none []
  | word {start : Nat} {word : List Char} (nonempty : word ≠ [])
      (stands : Stands text start (word.reverse ++ input)) : Gathers text input (some start) word

/-- Both readers have read the same, and the same is left. -/
structure Reads (text : String) (lexer : Lexer) (scanner : Scanner) (input : List Char) :
    Prop where
  outline : lexer.outline = scanner.outline
  stands : Stands text lexer.place input
  word : Gathers text input lexer.start? scanner.word
  sound : ∀ event ∈ lexer.trace, event.Sound text

variable {text : String} {resolve : Resolver} {lexer : Lexer} {scanner : Scanner}
  {input rest : List Char} {c : Char}

/-- The slice between two places at which the readers stand. -/
theorem Stands.cut_between {start stop : Nat} (part : List Char)
    (hstart : Stands text start (part ++ rest)) (hstop : Stands text stop rest) :
    Extent.cutText ⟨start, stop⟩ text = .ok (ofList part) := by
  have hall := hstart.add_utf8Len
  have hleft := hstop.add_utf8Len
  rw [utf8Len_append] at hall
  obtain rfl : stop = start + utf8Len part := by omega
  exact hstart.cutText_eq

/-- The slice from there to the end of the text is what is left. -/
theorem Stands.cut_rest {place : Nat} (h : Stands text place rest) :
    Extent.cutText ⟨place, (textBytes text).length⟩ text = .ok (ofList rest) := by
  have hall : Stands text place (rest ++ []) := by rwa [List.append_nil]
  rw [← h.add_utf8Len]
  exact hall.cutText_eq

/-- A second character of the same kind is dropped as its byte is. -/
theorem Stands.dropSame {place : Nat} (h : Stands text (place + 1) rest)
    (hascii : c.toNat < 0x80) :
    Stands text (place + if byteAt text (place + 1) = some c.toUInt8 then 2 else 1)
      (Scanner.dropSame c rest) := by
  have hsame := h.byteAt_iff hascii
  split
  next hbyte =>
    obtain ⟨more, rfl⟩ := hsame.1 hbyte
    rw [Scanner.dropSame, if_pos rfl]
    exact h.next_ascii hascii
  next hbyte =>
    cases rest with
    | nil => exact h
    | cons d more =>
      have hother : d ≠ c := by
        rintro rfl
        exact hbyte (hsame.2 ⟨more, rfl⟩)
      rw [Scanner.dropSame, if_neg hother]
      exact h

/-- Whether two dots are one token depends on whether anything stands behind them. -/
theorem Stands.dots_iff {place : Nat} (h : Stands text (place + 1) rest) :
    byteAt text (place + 1) = some '.'.toUInt8 ∧ place + 2 < (textBytes text).length ↔
      ∃ d more, rest = '.' :: d :: more := by
  have hdot := h.byteAt_iff (by decide : '.'.toNat < 0x80)
  refine ⟨?_, ?_⟩
  · rintro ⟨hbyte, hlt⟩
    obtain ⟨more, rfl⟩ := hdot.1 hbyte
    cases more with
    | nil =>
      have hend := (h.next_ascii (by decide)).eq_length
      omega
    | cons d more => exact ⟨d, more, rfl⟩
  · rintro ⟨d, more, rfl⟩
    exact ⟨hdot.2 ⟨_, rfl⟩, (h.next_ascii (by decide)).lt⟩

namespace Reads

variable (resolve)

/-- A token is placed by both alike. -/
theorem emit (h : Reads text lexer scanner input) (kind : TokenKind) (token : String) :
    Reads text (lexer.emit resolve kind token) (scanner.emit resolve kind token) input := by
  obtain ⟨outline, word⟩ := scanner
  obtain ⟨rfl, hstands, hword, hsound⟩ := h
  unfold Lexer.emit Scanner.emit
  dsimp only
  split
  · exact ⟨rfl, hstands, hword, hsound⟩
  · exact ⟨rfl, hstands, hword, hsound⟩

/-- With no word being gathered, the reader may be moved to where something else is left. -/
theorem move (h : Reads text lexer scanner input) (hstart : lexer.start? = none) {place : Nat}
    (hplace : Stands text place rest) : Reads text { lexer with place } scanner rest := by
  have hword := h.word
  rw [hstart] at hword
  generalize hgathered : scanner.word = word at hword
  cases hword
  refine ⟨h.outline, hplace, ?_, h.sound⟩
  rw [hgathered, hstart]
  exact .nothing

/-- **A word is ended by both alike.** Its slice lies between boundaries. -/
theorem flush (h : Reads text lexer scanner input) (kind : TokenKind) :
    ∃ flushed, lexer.flush text resolve lexer.place kind = .ok flushed ∧
      Reads text flushed (scanner.flush resolve kind) input ∧
      flushed.start? = none ∧ flushed.place = lexer.place := by
  obtain ⟨outline, word⟩ := scanner
  obtain ⟨houtline, hstands, hword, hsound⟩ := h
  unfold Lexer.flush
  generalize hstart : lexer.start? = start? at hword
  cases hword with
  | nothing => exact ⟨lexer, rfl, ⟨houtline, hstands, hstart ▸ .nothing, hsound⟩, hstart, rfl⟩
  | word hne hbegin =>
    have hempty : word.isEmpty = false := List.isEmpty_eq_false_iff.2 hne
    have hflushed : Reads text { lexer with start? := none } ⟨outline, []⟩ input :=
      ⟨houtline, hstands, .nothing, hsound⟩
    simp only [hbegin.cut_between _ hstands, bind, Except.bind, Scanner.flush, hempty]
    exact ⟨_, rfl, hflushed.emit resolve kind _, rfl, rfl⟩

/-- **A character of ASCII becomes a token.** -/
theorem single (h : Reads text lexer scanner (c :: rest)) (hstart : lexer.start? = none)
    (hascii : c.toNat < 0x80) (kind : TokenKind) :
    ∃ next, lexer.single text resolve kind = .ok next ∧
      Reads text next (scanner.emit resolve kind (singleton c)) rest := by
  have hnext := h.stands.next_ascii hascii
  have hcut := Stands.cut_between [c] h.stands hnext
  simp only [Lexer.single, hcut, bind, Except.bind]
  exact ⟨_, rfl, (h.move hstart hnext).emit resolve kind _⟩

/-- A word is ended, then a character of ASCII becomes a token. -/
theorem flush_single (h : Reads text lexer scanner (c :: rest)) (hascii : c.toNat < 0x80)
    (kind kind' : TokenKind) :
    ∃ flushed, lexer.flush text resolve lexer.place kind = .ok flushed ∧
      flushed.outline = (scanner.flush resolve kind).outline ∧
      ∃ next, flushed.single text resolve kind' = .ok next ∧
        Reads text next ((scanner.flush resolve kind).emit resolve kind' (singleton c)) rest := by
  obtain ⟨flushed, hflush, hreads, hstart, -⟩ := h.flush resolve kind
  exact ⟨flushed, hflush, hreads.outline, hreads.single resolve hstart hascii kind'⟩

/-- A star. -/
theorem star (h : Reads text lexer scanner ('*' :: rest)) :
    ∃ next, lexer.star text resolve = .ok next ∧ Reads text next (scanner.star resolve) rest := by
  have hascii : '*'.toNat < 0x80 := by decide
  have hnext := h.stands.next_ascii hascii
  have hword := h.word
  obtain ⟨outline, word⟩ := scanner
  obtain rfl : lexer.outline = outline := h.outline
  unfold Lexer.star Scanner.star
  generalize hstart : lexer.start? = start? at hword
  cases hword with
  | nothing => exact h.single resolve hstart hascii .operator
  | word hne hbegin =>
    rw [List.isEmpty_eq_false_iff.2 hne, if_neg Bool.false_ne_true]
    dsimp only
    split
    · obtain ⟨flushed, hflush, -, hsingle⟩ := h.flush_single resolve hascii .modifier .operator
      rw [hflush]
      exact hsingle
    · have hcut := Stands.cut_between (word.reverse ++ ['*']) (by simpa using hbegin) hnext
      have hmoved : Reads text { lexer with start? := none, place := lexer.place + 1 }
          ⟨lexer.outline, []⟩ rest := ⟨rfl, hnext, .nothing, h.sound⟩
      rw [hcut, List.reverse_cons]
      exact ⟨_, rfl, hmoved.emit resolve _ _⟩

/-- A colon behind a word: its values are found as they are read by characters, and if they are to
    be read again, both readers go back to where they begin. -/
theorem named (h : Reads text lexer scanner (':' :: rest)) {start : Nat}
    (hstart : lexer.start? = some start) :
    ∃ next, lexer.named text resolve start = .ok next ∧
      Reads text next (scanner.named resolve rest).1 (scanner.named resolve rest).2 := by
  have hnext := h.stands.next_ascii (by decide)
  have hread := attributesAt_spec hnext
  have hword := h.word
  have hsound : ∀ event ∈ (attributesAt text (lexer.place + 1)).trace ++ lexer.trace,
      event.Sound text := List.forall_mem_append.2 ⟨hread.sound, h.sound⟩
  obtain ⟨outline, word⟩ := scanner
  obtain rfl : lexer.outline = outline := h.outline
  rw [hstart] at hword
  cases hword with
  | word hne hbegin =>
    have hcut := Stands.cut_between (word.reverse ++ [':']) (by simpa using hbegin) hnext
    unfold Lexer.named Scanner.named
    dsimp only
    rw [hcut, List.reverse_cons, hread.values]
    simp only [bind, Except.bind]
    generalize hresolution : resolve _ _ = resolution
    cases hagain : resolution.noParams with
    | true =>
      simp only [if_true]
      split
      · exact ⟨_, rfl, rfl, hnext, .nothing, hsound⟩
      · exact ⟨_, rfl, rfl, hnext, .nothing, hsound⟩
    | false =>
      simp only [Bool.false_eq_true, if_false]
      split
      · exact ⟨_, rfl, rfl, hread.behind, .nothing, hsound⟩
      · exact ⟨_, rfl, rfl, hread.behind, .nothing, hsound⟩

/-- **A round at a character that is no part of a word does what a step does.** -/
theorem step (h : Reads text lexer scanner (c :: rest)) (hclass : CharClass.of c ≠ .word) :
    ∃ next, lexer.step text resolve c.toUInt8 = .ok next ∧
      Reads text next (scanner.step resolve c rest).1 (scanner.step resolve c rest).2 := by
  have hascii : c.toNat < 0x80 := Nat.lt_of_not_le fun hwide => hclass (CharClass.of_wide hwide)
  have hhas := CharClass.of_has c
  have hnext := h.stands.next_ascii hascii
  have hflush := h.flush resolve
  have hsingle := h.flush_single resolve hascii
  unfold Lexer.step Scanner.step
  rw [CharClass.ofByte_ascii hascii]
  cases hc : CharClass.of c with
  | word => exact absurd hc hclass
  | star =>
    rw [hc] at hhas
    obtain rfl : c = '*' := hhas
    exact h.star resolve
  | colon =>
    rw [hc] at hhas
    obtain rfl : c = ':' := hhas
    have hword := h.word
    obtain ⟨outline, word⟩ := scanner
    dsimp only
    generalize hstart : lexer.start? = start? at hword
    cases hword with
    | nothing => exact h.single resolve hstart hascii .colon
    | word hne hbegin =>
      rw [List.isEmpty_eq_false_iff.2 hne]
      exact h.named resolve hstart
  | question =>
    rw [hc] at hhas
    obtain rfl : c = '?' := hhas
    obtain ⟨flushed, hflushed, -, hnext⟩ := hsingle .modifier .question
    simp only [hflushed, bind, Except.bind]
    exact hnext
  | joint kind =>
    obtain ⟨flushed, hflushed, hreads, hstart, hplace⟩ := hflush .word
    have hcut := Stands.cut_between [c] hreads.stands (hplace ▸ hnext)
    have hmoved := hreads.move hstart (Stands.dropSame (hplace ▸ hnext) hascii)
    simp only [hflushed, hcut, bind, Except.bind]
    exact ⟨_, rfl, hmoved.emit resolve kind (singleton c)⟩
  | doubleQuote =>
    rw [hc] at hhas
    obtain rfl : c = '"' := hhas
    obtain ⟨flushed, hflushed, -, hnext⟩ := hsingle .word .doubleQuote
    simp only [hflushed, bind, Except.bind]
    exact hnext
  | dot =>
    rw [hc] at hhas
    obtain rfl : c = '.' := hhas
    obtain ⟨flushed, hflushed, hreads, hstart, hplace⟩ := hflush .word
    rw [← hplace] at hnext
    have hdots := hnext.dots_iff
    simp only [hflushed, bind, Except.bind]
    split
    next htwo =>
      obtain ⟨d, more, rfl⟩ := hdots.1 htwo
      have hmoved := hreads.move hstart (hnext.next_ascii (by decide))
      exact ⟨_, rfl, hmoved.emit resolve .dash ".."⟩
    next hone =>
      split
      next d more => exact absurd (hdots.2 ⟨d, more, rfl⟩) hone
      · exact hreads.single resolve hstart hascii .other
  | mark kind =>
    obtain ⟨flushed, hflushed, houtline, hnext⟩ := hsingle .word
      (if (scanner.flush resolve .word).outline.inside .doubleQuote then .other else kind)
    simp only [hflushed, bind, Except.bind, houtline]
    exact hnext
  | other =>
    obtain ⟨flushed, hflushed, -, hnext⟩ := hsingle .word .other
    simp only [hflushed, bind, Except.bind]
    exact hnext
  | escape =>
    obtain ⟨flushed, hflushed, hreads, hstart, hplace⟩ := hflush .word
    rw [← hplace] at hnext
    simp only [hflushed, hnext.cut_rest, bind, Except.bind, toList_ofList]
    cases rest with
    | nil => exact ⟨_, rfl, hreads.move hstart hnext⟩
    | cons d more => exact ⟨_, rfl, hreads.move hstart hnext.next⟩
  | space =>
    obtain ⟨flushed, hflushed, hreads, hstart, hplace⟩ := hflush .word
    have hskip := hnext.skipWhile alike_blank
    have hmoved := hreads.move hstart (hplace ▸ hskip)
    simp only [hflushed, bind, Except.bind]
    exact ⟨_, rfl, hmoved.emit resolve .space " "⟩

end Reads

/-! ## Words -/

/-- What a round over a byte of a word makes of the reader. -/
def Lexer.overByte (lexer : Lexer) : Lexer :=
  { lexer with
    start? := some (lexer.start?.getD lexer.place), place := lexer.place + 1,
    trace := .turn ⟨lexer.place, lexer.place + 1⟩ :: lexer.trace }

variable {byte : UInt8}

/-- Only where a byte of a word stands is there such a round. -/
theorem Lexer.overByte_sound (hbyte : byteAt text lexer.place = some byte)
    (h : ∀ event ∈ lexer.trace, event.Sound text) :
    ∀ event ∈ lexer.overByte.trace, event.Sound text :=
  List.forall_mem_cons.2 ⟨⟨Nat.lt_succ_self _, byteAt_lt hbyte⟩, h⟩

theorem Lexer.run_overByte (resolve : Resolver) (hbyte : byteAt text lexer.place = some byte)
    (hclass : CharClass.ofByte byte = .word) :
    lexer.run text resolve = lexer.overByte.run text resolve := by
  have hstep : lexer.step text resolve byte = .ok { lexer with
      start? := some (lexer.start?.getD lexer.place), place := lexer.place + 1 } := by
    rw [step, hclass]
    rfl
  exact run_of_ok hbyte hstep

/-- The rounds over what is left of a wide character, while a word is being gathered. -/
theorem Lexer.run_inside (resolve : Resolver) {place start left : Nat}
    (h : Stands text place (c :: rest)) (hwide : 0x80 ≤ c.toNat)
    (hstart : lexer.start? = some start) (hplace : lexer.place + left = place + c.utf8Size)
    (hleft : left < c.utf8Size) (hsound : ∀ event ∈ lexer.trace, event.Sound text) :
    ∃ trace, (∀ event ∈ trace, event.Sound text) ∧ lexer.run text resolve
      = run text resolve { lexer with place := place + c.utf8Size, trace } := by
  induction left generalizing lexer with
  | zero =>
    refine ⟨lexer.trace, hsound, ?_⟩
    rw [← hplace]
    rfl
  | succ left ih =>
    obtain ⟨byte, hbyte, hlarge⟩ := h.byteAt_add hwide (lexer.place - place) (by omega)
    rw [Nat.add_sub_cancel' (by omega)] at hbyte
    have hstart' : lexer.overByte.start? = some start := by rw [overByte, hstart, Option.getD_some]
    have hplace' : lexer.overByte.place + left = place + c.utf8Size := by
      rw [← hplace, Nat.add_comm left 1, ← Nat.add_assoc]
      rfl
    obtain ⟨trace, htrace, hrun⟩ :=
      ih hstart' hplace' (Nat.lt_of_succ_lt hleft) (overByte_sound hbyte hsound)
    refine ⟨trace, htrace, ?_⟩
    rw [run_overByte resolve hbyte (CharClass.ofByte_wide hlarge), hrun, overByte, hstart,
      Option.getD_some]

/-- **A word character takes as many rounds as it has bytes**, and joins the word for both
    readers. -/
theorem Reads.word_char (resolve : Resolver) (h : Reads text lexer scanner (c :: rest))
    (hclass : CharClass.of c = .word) :
    ∃ next, lexer.run text resolve = Lexer.run text resolve next ∧
      Reads text next { scanner with word := c :: scanner.word } rest := by
  have hbegun : Gathers text rest lexer.overByte.start? (c :: scanner.word) := by
    refine .word (List.cons_ne_nil _ _) ?_
    rw [List.reverse_cons, List.append_assoc]
    have hword := h.word
    generalize lexer.start? = start?, scanner.word = word at hword
    cases hword with
    | nothing => exact h.stands
    | word hne hbegin => exact hbegin
  rcases Nat.lt_or_ge c.toNat 0x80 with hascii | hwide
  · have hbyte := h.stands.byteAt_ascii hascii
    exact ⟨_, Lexer.run_overByte resolve hbyte ((CharClass.ofByte_ascii hascii).trans hclass),
      h.outline, h.stands.next_ascii hascii, hbegun, Lexer.overByte_sound hbyte h.sound⟩
  · obtain ⟨byte, hbyte, hlarge⟩ := h.stands.byteAt_wide hwide
    have hpos := c.utf8Size_pos
    have hplace : lexer.overByte.place + (c.utf8Size - 1) = lexer.place + c.utf8Size := by
      show lexer.place + 1 + (c.utf8Size - 1) = _
      omega
    obtain ⟨trace, htrace, hrun⟩ := Lexer.run_inside resolve h.stands hwide rfl hplace (by omega)
      (Lexer.overByte_sound hbyte h.sound)
    exact ⟨_, (Lexer.run_overByte resolve hbyte (CharClass.ofByte_wide hlarge)).trans hrun,
      h.outline, h.stands.next, hbegun, htrace⟩

/-! ## Whole queries -/

/-- From wherever both readers stand, they come to the same end. -/
theorem Reads.run (resolve : Resolver) (h : Reads text lexer scanner input) :
    ∃ final, lexer.run text resolve = .ok final ∧
      final.outline = (scanFrom resolve scanner input).outline ∧
      ∀ event ∈ final.trace, event.Sound text := by
  fun_induction scanFrom resolve scanner input generalizing lexer with
  | case1 scanner =>
    obtain ⟨flushed, hflush, hreads, -, -⟩ := h.flush resolve .word
    rw [h.stands.eq_length] at hflush
    exact ⟨flushed, (Lexer.run_of_none h.stands.byteAt_nil).trans hflush, hreads.outline,
      hreads.sound⟩
  | case2 scanner c rest next =>
    rename_i ih
    by_cases hclass : CharClass.of c = .word
    · obtain ⟨behind, hrun, hreads⟩ := h.word_char resolve hclass
      have hnext : next = ({ scanner with word := c :: scanner.word }, rest) := by
        simp only [next, Scanner.step, hclass]
      rw [hrun]
      exact ih (hnext ▸ hreads)
    · obtain ⟨behind, hstep, hreads⟩ := h.step resolve hclass
      have hbyte := h.stands.byteAt_ascii
        (Nat.lt_of_not_le fun hwide => hclass (CharClass.of_wide hwide))
      have hturn : Event.Sound text (.turn ⟨lexer.place, behind.place⟩) :=
        ⟨Lexer.step_lt hstep, hreads.stands.le⟩
      rw [Lexer.run_of_ok hbyte hstep]
      exact ih ⟨hreads.outline, hreads.stands, hreads.word,
        List.forall_mem_cons.2 ⟨hturn, hreads.sound⟩⟩

/-- **A query is read by bytes without a wrong slice, and to its end.** Whatever the text and the
    resolver are, no slice stops the program: those for tokens, for the names of attributes and for
    what stands behind a backslash all lie within the text and cut no character. The result is the
    outline that is read by characters. Each round of the main loop and of the loop over the values
    of a list led forward and stayed within the text. Each value that was sought lies within the
    text and ends at a boundary; it starts at one too, or inside a character that stands right
    behind a quotation mark, and in that case no slice was taken. -/
theorem lexer_sound (text : String) (resolve : Resolver) :
    ∃ final, Lexer.run text resolve {} = .ok final ∧ final.outline = scan resolve text ∧
      ∀ event ∈ final.trace, event.Sound text := by
  have hreads : Reads text {} {} text.toList := ⟨rfl, .zero text, .nothing, nofun⟩
  exact hreads.run resolve

end InvertedIndex
