import InvertedIndex.Proofs.Query.Boundaries
import InvertedIndex.Query.Scan

/-!
# `Proofs.Query.Bytewise` — reading a query byte by byte

A query is read in place. The reader knows how far it has come and where the word began that is
being gathered; both are places in the bytes of the text. It looks at one byte at a time, skips
bytes by their number and takes slices of the text between its places. It records the rounds that it
goes and where it seeks a value. Whatever the text and the resolver are, and wherever it stands, a
round leads forward; so it comes to an end.

## Contents
- `Event`: a round, or where a value is sought;
- `skipWhile`, `quotedEnd`, `valueAt`: one value behind `name:`;
- `itemsFrom`, `attributesAt`: all of them;
- `Lexer`, `Lexer.step`, `Lexer.run`: the main loop;
- `item_lt`, `Lexer.step_lt`: each round leads forward.
-/

namespace InvertedIndex

open Checked

/-- What happens while a query is read. -/
inductive Event where
  /-- A round of the main loop led from one place to another. -/
  | turn (extent : Extent)
  /-- A round over the values of a list did. -/
  | item (extent : Extent)
  /-- A value is sought. -/
  | value (extent : Extent)
  deriving Repr, DecidableEq

variable (text : String)

/-! ## Values -/

/-- The first place from a place on where the byte does not go on. -/
def skipWhile (goesOn : UInt8 → Bool) (place : Nat) : Nat :=
  match _h : byteAt text place with
  | none => place
  | some byte => if goesOn byte then skipWhile goesOn (place + 1) else place
termination_by (textBytes text).length - place
decreasing_by
  have := byteAt_lt _h
  omega

/-- The place of the mark that ends a quoted value. A backslash takes along the byte behind it. -/
def quotedEnd (mark : UInt8) (place : Nat) : Nat :=
  match _h : byteAt text place with
  | none => place
  | some byte =>
    if byte = mark then place
    else if byte = '\\'.toUInt8 ∧ place + 1 < (textBytes text).length then
      quotedEnd mark (place + 2)
    else quotedEnd mark (place + 1)
termination_by (textBytes text).length - place
decreasing_by
  all_goals
    have := byteAt_lt _h
    omega

/-- Whether a byte goes on with a value that is not quoted. -/
def byteInValue (stops : List Char) (byte : UInt8) : Bool :=
  0x20 < byte.toNat && !(stops.map Char.toUInt8).contains byte

/-- Where a value lies whose quotation mark stands at the place, and the place behind it. -/
def quotedAt (mark : UInt8) (place : Nat) : Extent × Nat :=
  let stop := quotedEnd text mark (place + 1)
  (⟨place + 1, stop⟩, min (stop + 1) (textBytes text).length)

/-- Where a value lies that is not quoted, and the place behind it. -/
def plainAt (stops : List Char) (place : Nat) : Extent × Nat :=
  let stop := skipWhile text (byteInValue stops) place
  (⟨place, stop⟩, stop)

/-- Where the value at a place lies, and the place behind it. -/
def valueAt (stops : List Char) (place : Nat) : Extent × Nat :=
  match byteAt text place with
  | none => plainAt text stops place
  | some byte =>
    if byte = '"'.toUInt8 ∨ byte = '\x27'.toUInt8 then quotedAt text byte place
    else plainAt text stops place

/-- The value that is sought; if the slice is not there, it is empty. -/
def valueOf (extent : Extent) : List Char := ((extent.text? text).getD "").toList

/-- Whether a list goes on at a place. -/
def listGoesOn (place : Nat) : Bool :=
  match byteAt text place with
  | none => false
  | some byte => byte ≠ ']'.toUInt8

/-- The place behind the byte that stands between two values. -/
def skipSeparator (place : Nat) : Nat := if listGoesOn text place then place + 1 else place

theorem le_skipWhile (goesOn : UInt8 → Bool) (place : Nat) :
    place ≤ skipWhile text goesOn place := by
  fun_induction skipWhile text goesOn place with
  | case1 => exact Nat.le_refl _
  | case2 place byte hbyte hgoes ih => exact Nat.le_of_succ_le ih
  | case3 => exact Nat.le_refl _

theorem le_quotedEnd (mark : UInt8) (place : Nat) : place ≤ quotedEnd text mark place := by
  fun_induction quotedEnd text mark place with
  | case1 => exact Nat.le_refl _
  | case2 => exact Nat.le_refl _
  | case3 place byte hbyte hmark hpair ih => exact Nat.le_trans (Nat.le_add_right _ _) ih
  | case4 place byte hbyte hmark hpair ih => exact Nat.le_of_succ_le ih

variable {text} in
theorem lt_of_listGoesOn {place : Nat} (h : listGoesOn text place = true) :
    place < (textBytes text).length := by
  unfold listGoesOn at h
  split at h
  · cases h
  next hbyte => exact byteAt_lt hbyte

theorem le_skipSeparator (place : Nat) : place ≤ skipSeparator text place := by
  unfold skipSeparator
  split
  · exact Nat.le_succ _
  · exact Nat.le_refl _

theorem lt_quotedAt {mark : UInt8} {place : Nat} (h : place < (textBytes text).length) :
    place < (quotedAt text mark place).2 := by
  have hle := le_quotedEnd text mark (place + 1)
  unfold quotedAt
  dsimp only
  omega

/-- Behind a value nothing before it is read again. -/
theorem le_valueAt (stops : List Char) (place : Nat) : place ≤ (valueAt text stops place).2 := by
  unfold valueAt
  split
  · exact le_skipWhile text _ _
  next hbyte =>
    split
    · exact Nat.le_of_lt (lt_quotedAt text (byteAt_lt hbyte))
    · exact le_skipWhile text _ _

/-- **A round over the values of a list leads forward**: where there is no value, there is a byte
    between values. -/
theorem item_lt {text : String} {place : Nat} (h : listGoesOn text place = true) :
    place < skipSeparator text (valueAt text listStops place).2 := by
  have hsep := le_skipSeparator text (valueAt text listStops place).2
  have hvalue := le_valueAt text listStops place
  rcases Nat.lt_or_eq_of_le hvalue with hlt | heq
  · exact Nat.lt_of_lt_of_le hlt hsep
  · rw [← heq, skipSeparator, if_pos h]
    exact Nat.lt_succ_self _

/-- Values that were read, the place behind them, and what happened. -/
structure ReadValues where
  values : List String
  next : Nat
  trace : List Event

/-- The values of a list from a place on, up to its closing bracket. -/
def itemsFrom (place : Nat) : ReadValues :=
  if _h : listGoesOn text place = true then
    let found := valueAt text listStops place
    let next := skipSeparator text found.2
    let others := itemsFrom next
    ⟨consValue (valueOf text found.1) others.values, others.next,
      .value found.1 :: .item ⟨place, next⟩ :: others.trace⟩
  else ⟨[], place, []⟩
termination_by (textBytes text).length - place
decreasing_by
  have := item_lt _h
  have := lt_of_listGoesOn _h
  omega

/-- The values of the list at a place, if there is one. -/
def listedAt (place : Nat) : ReadValues :=
  if byteAt text place = some '['.toUInt8 then
    let items := itemsFrom text (place + 1)
    if byteAt text items.next = some ']'.toUInt8 then { items with next := items.next + 1 }
    else items
  else ⟨[], place, []⟩

/-- All values behind `name:`. -/
def attributesAt (place : Nat) : ReadValues :=
  let listed := listedAt text place
  let found := valueAt text [] listed.next
  ⟨listed.values ++ consValue (valueOf text found.1) [], found.2, .value found.1 :: listed.trace⟩

theorem le_itemsFrom (place : Nat) : place ≤ (itemsFrom text place).next := by
  fun_induction itemsFrom text place with
  | case1 place hgoes found next others ih =>
    exact Nat.le_of_lt (Nat.lt_of_lt_of_le (item_lt hgoes) ih)
  | case2 => exact Nat.le_refl _

theorem le_listedAt (place : Nat) : place ≤ (listedAt text place).next := by
  have hitems := le_itemsFrom text (place + 1)
  unfold listedAt
  split
  · dsimp only
    split
    · exact Nat.le_of_succ_le (Nat.le_succ_of_le hitems)
    · exact Nat.le_of_succ_le hitems
  · exact Nat.le_refl _

theorem le_attributesAt (place : Nat) : place ≤ (attributesAt text place).next :=
  Nat.le_trans (le_listedAt text place) (le_valueAt text [] _)

/-! ## The main loop -/

/-- What a byte does in a query. Those outside ASCII belong to words. -/
def CharClass.ofByte (byte : UInt8) : CharClass :=
  if byte.toNat < 0x80 then CharClass.of (Char.ofNat byte.toNat) else .word

/-- A query read so far. -/
structure Lexer where
  place : Nat := 0
  /-- Where the word being gathered begins. -/
  start? : Option Nat := none
  outline : Outline := {}
  trace : List Event := []

namespace Lexer

variable (resolve : Resolver)

/-- Shows a token to the resolver, and places it unless it is to be skipped. -/
def emit (lexer : Lexer) (kind : TokenKind) (token : String) : Lexer :=
  { lexer with
    outline := (Scanner.emit resolve { outline := lexer.outline } kind token).outline }

/-- Emits the byte at the place as a token. -/
def single (lexer : Lexer) (kind : TokenKind) : Checked Lexer := do
  let token ← Extent.cutText ⟨lexer.place, lexer.place + 1⟩ text
  return { lexer with place := lexer.place + 1 }.emit resolve kind token

/-- Emits the word being gathered, if there is one; it ends at `stop`. -/
def flush (lexer : Lexer) (stop : Nat) (kind : TokenKind) : Checked Lexer :=
  match lexer.start? with
  | none => return lexer
  | some start => do
    let word ← Extent.cutText ⟨start, stop⟩ text
    return { lexer with start? := none }.emit resolve kind word

/-- A star. -/
def star (lexer : Lexer) : Checked Lexer :=
  match lexer.start? with
  | none => lexer.single text resolve .operator
  | some start =>
    if lexer.outline.inside .openBrace then do
      (← lexer.flush text resolve lexer.place .modifier).single text resolve .operator
    else do
      let word ← Extent.cutText ⟨start, lexer.place + 1⟩ text
      return { lexer with start? := none, place := lexer.place + 1 }.emit resolve .modifier word

/-- A colon behind a word. -/
def named (lexer : Lexer) (start : Nat) : Checked Lexer := do
  let name ← Extent.cutText ⟨start, lexer.place + 1⟩ text
  let read := attributesAt text (lexer.place + 1)
  let resolution := resolve name read.values
  let (values, place) :=
    if resolution.noParams then ([], lexer.place + 1) else (read.values, read.next)
  let lexer := { lexer with start? := none, place, trace := read.trace ++ lexer.trace }
  if resolution.action = .skip then return lexer
  else
    return { lexer with
      outline := lexer.outline.place .word (resolution.param.getD name) resolution.action values
        resolution.substitute }

/-- Reads the byte at the place, with what belongs to it. -/
def step (lexer : Lexer) (byte : UInt8) : Checked Lexer :=
  match CharClass.ofByte byte with
  | .word =>
    return { lexer with
      start? := some (lexer.start?.getD lexer.place), place := lexer.place + 1 }
  | .star => lexer.star text resolve
  | .colon =>
    match lexer.start? with
    | none => lexer.single text resolve .colon
    | some start => lexer.named text resolve start
  | .question => do
    (← lexer.flush text resolve lexer.place .modifier).single text resolve .question
  | .joint kind => do
    let lexer ← lexer.flush text resolve lexer.place .word
    let width := if byteAt text (lexer.place + 1) = some byte then 2 else 1
    let token ← Extent.cutText ⟨lexer.place, lexer.place + 1⟩ text
    return { lexer with place := lexer.place + width }.emit resolve kind token
  | .doubleQuote => do
    (← lexer.flush text resolve lexer.place .word).single text resolve .doubleQuote
  | .dot => do
    let lexer ← lexer.flush text resolve lexer.place .word
    if byteAt text (lexer.place + 1) = some '.'.toUInt8 ∧
        lexer.place + 2 < (textBytes text).length then
      return { lexer with place := lexer.place + 2 }.emit resolve .dash ".."
    else lexer.single text resolve .other
  | .mark kind => do
    let lexer ← lexer.flush text resolve lexer.place .word
    lexer.single text resolve (if lexer.outline.inside .doubleQuote then .other else kind)
  | .other => do
    (← lexer.flush text resolve lexer.place .word).single text resolve .other
  | .escape => do
    let lexer ← lexer.flush text resolve lexer.place .word
    let rest ← Extent.cutText ⟨lexer.place + 1, (textBytes text).length⟩ text
    let escaped := (rest.toList.head?.map Char.utf8Size).getD 0
    return { lexer with place := lexer.place + 1 + escaped }
  | .space => do
    let lexer ← lexer.flush text resolve lexer.place .word
    let place := skipWhile text (·.toNat ≤ 0x20) (lexer.place + 1)
    return { lexer with place }.emit resolve .space " "

variable {text resolve} {lexer next : Lexer}

theorem single_place {kind : TokenKind} (h : lexer.single text resolve kind = .ok next) :
    next.place = lexer.place + 1 := by
  obtain ⟨token, -, h⟩ := bind_eq_ok.1 h
  cases h
  rfl

theorem flush_place {stop : Nat} {kind : TokenKind}
    (h : lexer.flush text resolve stop kind = .ok next) : next.place = lexer.place := by
  unfold flush at h
  split at h
  · cases h
    rfl
  · obtain ⟨word, -, h⟩ := bind_eq_ok.1 h
    cases h
    rfl

/-- A word is ended, then one byte becomes a token. -/
theorem flush_single_lt {stop : Nat} {kind : TokenKind} {kindOf : Lexer → TokenKind}
    (h : (do
      let flushed ← lexer.flush text resolve stop kind
      flushed.single text resolve (kindOf flushed)) = .ok next) : lexer.place < next.place := by
  obtain ⟨flushed, hflush, h⟩ := bind_eq_ok.1 h
  rw [single_place h, flush_place hflush]
  exact Nat.lt_succ_self _

theorem star_lt (h : lexer.star text resolve = .ok next) : lexer.place < next.place := by
  unfold star at h
  split at h
  · rw [single_place h]
    exact Nat.lt_succ_self _
  split at h
  · exact flush_single_lt h
  · obtain ⟨word, -, h⟩ := bind_eq_ok.1 h
    cases h
    exact Nat.lt_succ_self _

theorem named_lt {start : Nat} (h : lexer.named text resolve start = .ok next) :
    lexer.place < next.place := by
  have hread := le_attributesAt text (lexer.place + 1)
  obtain ⟨name, -, h⟩ := bind_eq_ok.1 h
  dsimp only at h
  split at h
  all_goals
    split at h
    all_goals
      cases h
      dsimp only
      omega

/-- **A round of the main loop leads forward**, wherever the reader stands. -/
theorem step_lt {byte : UInt8} (h : lexer.step text resolve byte = .ok next) :
    lexer.place < next.place := by
  unfold step at h
  cases hclass : CharClass.ofByte byte with
  | word =>
    rw [hclass] at h
    cases h
    exact Nat.lt_succ_self _
  | star =>
    rw [hclass] at h
    exact star_lt h
  | colon =>
    rw [hclass] at h
    dsimp only at h
    split at h
    · rw [single_place h]
      exact Nat.lt_succ_self _
    · exact named_lt h
  | question | doubleQuote | mark | other =>
    rw [hclass] at h
    exact flush_single_lt h
  | joint kind =>
    rw [hclass] at h
    obtain ⟨flushed, hflush, h⟩ := bind_eq_ok.1 h
    obtain ⟨token, -, h⟩ := bind_eq_ok.1 h
    cases h
    have hplace := flush_place hflush
    show lexer.place < flushed.place + _
    split
    all_goals omega
  | dot =>
    rw [hclass] at h
    obtain ⟨flushed, hflush, h⟩ := bind_eq_ok.1 h
    have hplace := flush_place hflush
    split at h
    · cases h
      show lexer.place < flushed.place + 2
      omega
    · rw [single_place h]
      omega
  | escape =>
    rw [hclass] at h
    obtain ⟨flushed, hflush, h⟩ := bind_eq_ok.1 h
    obtain ⟨rest, -, h⟩ := bind_eq_ok.1 h
    cases h
    have hplace := flush_place hflush
    dsimp only
    omega
  | space =>
    rw [hclass] at h
    obtain ⟨flushed, hflush, h⟩ := bind_eq_ok.1 h
    cases h
    have hplace := flush_place hflush
    have hskip := le_skipWhile text (·.toNat ≤ 0x20) (flushed.place + 1)
    show lexer.place < skipWhile text _ (flushed.place + 1)
    omega

variable (text resolve)

/-- Reads on to the end of the text. -/
def run (lexer : Lexer) : Checked Lexer :=
  match _hbyte : byteAt text lexer.place with
  | none => lexer.flush text resolve (textBytes text).length .word
  | some byte =>
    match _hstep : lexer.step text resolve byte with
    | .error trap => .error trap
    | .ok next => run { next with trace := .turn ⟨lexer.place, next.place⟩ :: next.trace }
termination_by (textBytes text).length - lexer.place
decreasing_by
  have := byteAt_lt _hbyte
  have := step_lt _hstep
  omega

variable {text resolve}

theorem run_of_none (h : byteAt text lexer.place = none) :
    lexer.run text resolve = lexer.flush text resolve (textBytes text).length .word := by
  rw [run]
  split
  · rfl
  next hbyte =>
    rw [h] at hbyte
    cases hbyte

theorem run_of_ok {byte : UInt8} (h : byteAt text lexer.place = some byte)
    (hstep : lexer.step text resolve byte = .ok next) : lexer.run text resolve
      = run text resolve { next with trace := .turn ⟨lexer.place, next.place⟩ :: next.trace } := by
  rw [run]
  split
  next hnone =>
    rw [h] at hnone
    cases hnone
  next hbyte =>
    cases h.symm.trans hbyte
    split
    next herror =>
      rw [hstep] at herror
      cases herror
    next hok =>
      cases hstep.symm.trans hok
      rfl

end Lexer
end InvertedIndex
