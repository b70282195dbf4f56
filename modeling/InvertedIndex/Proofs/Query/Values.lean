import InvertedIndex.Proofs.Query.Bytewise

/-!
# `Proofs.Query.Values` — the values of an attribute, byte by byte

Read by bytes, the values behind `name:` are those that are read by characters, and what is left
behind them is the same. A round over a list skips one byte behind a value. If that is the first of
a wide character, which can only stand right behind the mark that ends a quoted value, then the next
value is sought inside that character: there is no such slice, so the round gives no value, and it
leads to where the reader by characters goes on.

## Contents
- `Event.Sound`: a round leads forward within the text, a value lies at boundaries of characters;
- `skipWhile_spec`, `quotedEnd_spec`, `valueAt_spec`: one value;
- `itemsFrom_spec`, `attributesAt_spec`: all of them.
-/

namespace InvertedIndex

open Checked String

/-! ## Sound events -/

/-- The place lies behind the first byte of a wide character that stands right behind a quotation
    mark. -/
def InsideBehindMark (text : String) (place : Nat) : Prop :=
  ∃ start mark c rest, Stands text start (mark :: c :: rest) ∧ (mark = '"' ∨ mark = '\x27') ∧
    0x80 ≤ c.toNat ∧ place = start + 2

/-- A round leads forward and stays within the text. A value that is sought lies within the text
    and cuts no character, except that it may start inside one that stands right behind a quotation
    mark; then no slice is taken. -/
def Event.Sound (text : String) : Event → Prop
  | .turn extent | .item extent =>
    extent.start < extent.stop ∧ extent.stop ≤ (textBytes text).length
  | .value extent =>
    extent.start ≤ extent.stop ∧ extent.stop ≤ (textBytes text).length ∧
      Boundary text extent.stop ∧
      (Boundary text extent.start ∨
        InsideBehindMark text extent.start ∧ extent.text? text = none)

variable {text : String} {place : Nat} {input part rest : List Char} {c : Char}

theorem Stands.sound (h : Stands text place (part ++ rest)) :
    Event.Sound text (.value ⟨place, place + utf8Len part⟩) :=
  ⟨Nat.le_add_right _ _, h.append.le, h.append.boundary, .inl h.boundary⟩

theorem Stands.valueOf_eq (h : Stands text place (part ++ rest)) :
    valueOf text ⟨place, place + utf8Len part⟩ = part := by
  rw [valueOf, h.text?_eq, Option.getD_some, toList_ofList]

/-! ## Skipping bytes -/

/-- What passes over the bytes of wide characters passes over the rest of one from inside it. -/
theorem Stands.inside_eq {α : Type} {f : Nat → α} (h : Stands text place (c :: rest))
    (hwide : 0x80 ≤ c.toNat)
    (hpass : ∀ {place byte}, byteAt text place = some byte → 0x80 ≤ byte.toNat →
      f place = f (place + 1))
    (offset : Nat) (hoffset : offset ≤ c.utf8Size) :
    f (place + offset) = f (place + c.utf8Size) := by
  obtain ⟨left, hleft⟩ := Nat.exists_eq_add_of_le hoffset
  induction left generalizing offset with
  | zero => rw [hleft, Nat.add_zero]
  | succ left ih =>
    obtain ⟨byte, hbyte, hlarge⟩ := h.byteAt_add hwide offset (by omega)
    rw [hpass hbyte hlarge, Nat.add_assoc]
    exact ih (offset + 1) (by omega) (by omega)

/-- A test of bytes is one of characters: those of ASCII are tested alike, and all wide characters
    are tested as all bytes outside ASCII. -/
structure TestsAlike (goesOn : UInt8 → Bool) (inside : Char → Bool) : Prop where
  ascii : ∀ {c : Char}, c.toNat < 0x80 → goesOn c.toUInt8 = inside c
  wide : ∀ {c : Char} {byte : UInt8}, 0x80 ≤ c.toNat → 0x80 ≤ byte.toNat →
    goesOn byte = inside c

section SkipWhile

variable {goesOn : UInt8 → Bool} {inside : Char → Bool}

theorem skipWhile_pass {byte : UInt8} (hbyte : byteAt text place = some byte)
    (h : goesOn byte = true) : skipWhile text goesOn place = skipWhile text goesOn (place + 1) := by
  rw [skipWhile]
  split
  next hnone =>
    rw [hbyte] at hnone
    cases hnone
  next hsome =>
    cases hbyte.symm.trans hsome
    rw [if_pos h]

theorem skipWhile_stop (h : ∀ byte, byteAt text place = some byte → goesOn byte = false) :
    skipWhile text goesOn place = place := by
  rw [skipWhile]
  split
  · rfl
  next byte hbyte => rw [if_neg (by simp [h byte hbyte])]

/-- Skipping goes over the characters that pass the test. -/
theorem skipWhile_spec (halike : TestsAlike goesOn inside) (h : Stands text place input) :
    skipWhile text goesOn place = place + utf8Len (input.takeWhile inside) := by
  induction input generalizing place with
  | nil =>
    refine skipWhile_stop fun byte hbyte => ?_
    rw [h.byteAt_nil] at hbyte
    cases hbyte
  | cons c rest ih =>
    by_cases hin : inside c = true
    · have hchar : skipWhile text goesOn place = skipWhile text goesOn (place + c.utf8Size) := by
        rcases Nat.lt_or_ge c.toNat 0x80 with hascii | hwide
        · rw [(utf8EncodeChar_ascii hascii).1]
          exact skipWhile_pass (h.byteAt_ascii hascii) ((halike.ascii hascii).trans hin)
        · exact h.inside_eq (f := skipWhile text goesOn) hwide
            (fun hbyte hlarge => skipWhile_pass hbyte ((halike.wide hwide hlarge).trans hin))
            0 (Nat.zero_le _)
      rw [hchar, ih h.next, List.takeWhile_cons_of_pos hin, utf8Len_cons]
      omega
    · have hout : inside c = false := Bool.eq_false_iff.2 hin
      rw [List.takeWhile_cons_of_neg hin]
      refine skipWhile_stop fun byte hbyte => ?_
      rcases Nat.lt_or_ge c.toNat 0x80 with hascii | hwide
      · cases (h.byteAt_ascii hascii).symm.trans hbyte
        exact (halike.ascii hascii).trans hout
      · obtain ⟨first, hfirst, hlarge⟩ := h.byteAt_wide hwide
        cases hfirst.symm.trans hbyte
        exact (halike.wide hwide hlarge).trans hout

/-- What is left behind the skipped characters. -/
theorem Stands.skipWhile (halike : TestsAlike goesOn inside) (h : Stands text place input) :
    Stands text (skipWhile text goesOn place) (input.dropWhile inside) := by
  have hparts : Stands text place (input.takeWhile inside ++ input.dropWhile inside) := by
    rwa [List.takeWhile_append_dropWhile]
  rw [skipWhile_spec halike h]
  exact hparts.append

end SkipWhile

theorem alike_blank : TestsAlike (·.toNat ≤ 0x20) (·.toNat ≤ 0x20) where
  ascii h := by
    rw [toUInt8_toNat h]
  wide hc hbyte := by
    rw [decide_eq_false (by omega), decide_eq_false (by omega)]

/-! ## One value -/

/-- All characters that end a value belong to ASCII. -/
def AsciiStops (stops : List Char) : Prop := ∀ c ∈ stops, c.toNat < 0x80

theorem asciiStops_list : AsciiStops listStops :=
  List.forall_mem_cons.2 ⟨by decide, List.forall_mem_cons.2 ⟨by decide, nofun⟩⟩

theorem asciiStops_nil : AsciiStops [] := nofun

/-- A wide character goes on with a value. -/
theorem inValue_wide {stops : List Char} (hstops : AsciiStops stops) (hwide : 0x80 ≤ c.toNat) :
    inValue stops c = true := by
  have hmem : c ∉ stops := fun hmem => absurd (hstops c hmem) (Nat.not_lt.2 hwide)
  have hvisible : 0x20 < c.toNat := Nat.lt_of_lt_of_le (by decide) hwide
  simp [inValue, hmem, hvisible]

theorem alike_inValue {stops : List Char} (hstops : AsciiStops stops) :
    TestsAlike (byteInValue stops) (inValue stops) where
  ascii {c} h := by
    have hmem : (stops.map Char.toUInt8).contains c.toUInt8 = stops.contains c := by
      rw [Bool.eq_iff_iff, List.contains_iff_mem, List.contains_iff_mem, List.mem_map]
      refine ⟨?_, fun hc => ⟨c, hc, rfl⟩⟩
      rintro ⟨d, hd, hsame⟩
      rwa [← (toUInt8_inj (hstops d hd) h).1 hsame]
    rw [byteInValue, inValue, toUInt8_toNat h, hmem]
  wide {c byte} hc hbyte := by
    have hmem : byte ∉ stops.map Char.toUInt8 := by
      intro hmem
      obtain ⟨d, hd, hsame⟩ := List.mem_map.1 hmem
      exact ne_of_wide hbyte (hstops d hd) hsame.symm
    have hvisible : 0x20 < byte.toNat := Nat.lt_of_lt_of_le (by decide) hbyte
    rw [inValue_wide hstops hc]
    simp [byteInValue, hmem, hvisible]

section Quoted

variable {mark : Char}

theorem quotedEnd_stop (h : ∀ byte, byteAt text place = some byte → byte = mark.toUInt8) :
    quotedEnd text mark.toUInt8 place = place := by
  rw [quotedEnd]
  split
  · rfl
  next byte hbyte => rw [if_pos (h byte hbyte)]

theorem quotedEnd_pair {byte : UInt8} (hbyte : byteAt text place = some byte)
    (hmark : byte ≠ mark.toUInt8) (h : byte = '\\'.toUInt8)
    (hinside : place + 1 < (textBytes text).length) :
    quotedEnd text mark.toUInt8 place = quotedEnd text mark.toUInt8 (place + 2) := by
  rw [quotedEnd]
  split
  next hnone =>
    rw [hbyte] at hnone
    cases hnone
  next hsome =>
    cases hbyte.symm.trans hsome
    rw [if_neg hmark, if_pos ⟨h, hinside⟩]

theorem quotedEnd_pass {byte : UInt8} (hbyte : byteAt text place = some byte)
    (hmark : byte ≠ mark.toUInt8)
    (h : ¬ (byte = '\\'.toUInt8 ∧ place + 1 < (textBytes text).length)) :
    quotedEnd text mark.toUInt8 place = quotedEnd text mark.toUInt8 (place + 1) := by
  rw [quotedEnd]
  split
  next hnone =>
    rw [hbyte] at hnone
    cases hnone
  next hsome =>
    cases hbyte.symm.trans hsome
    rw [if_neg hmark, if_neg h]

/-- From anywhere inside a wide character the search passes over the rest of it. -/
theorem quotedEnd_inside (hmark : mark.toNat < 0x80) (h : Stands text place (c :: rest))
    (hwide : 0x80 ≤ c.toNat) (offset : Nat) (hoffset : offset ≤ c.utf8Size) :
    quotedEnd text mark.toUInt8 (place + offset)
      = quotedEnd text mark.toUInt8 (place + c.utf8Size) :=
  h.inside_eq (f := quotedEnd text mark.toUInt8) hwide
    (fun hbyte hlarge => quotedEnd_pass hbyte (ne_of_wide hlarge hmark)
      fun hpair => ne_of_wide hlarge (by decide : '\\'.toNat < 0x80) hpair.1)
    offset hoffset

/-- A quoted value reaches to its closing mark, or to the end of the text if there is none. -/
theorem quotedEnd_spec (hmark : mark.toNat < 0x80) (h : Stands text place input) :
    ∃ behind, input = (readQuoted mark input).1 ++ behind ∧
      quotedEnd text mark.toUInt8 place = place + utf8Len (readQuoted mark input).1 ∧
      (behind = [] ∧ (readQuoted mark input).2 = [] ∨
        behind = mark :: (readQuoted mark input).2) := by
  fun_induction readQuoted mark input generalizing place with
  | case1 =>
    refine ⟨[], rfl, quotedEnd_stop fun byte hbyte => ?_, .inl ⟨rfl, rfl⟩⟩
    rw [h.byteAt_nil] at hbyte
    cases hbyte
  | case2 rest =>
    refine ⟨_, rfl, quotedEnd_stop fun byte hbyte => ?_, .inr rfl⟩
    cases (h.byteAt_ascii hmark).symm.trans hbyte
    rfl
  | case3 hne =>
    have hbyte := h.byteAt_ascii (by decide)
    have hnext := h.next_ascii (by decide)
    have hend := hnext.eq_length
    refine ⟨[], rfl, ?_, .inl ⟨rfl, rfl⟩⟩
    rw [quotedEnd_pass hbyte ((toUInt8_inj (by decide) hmark).not.2 hne) (by omega)]
    refine quotedEnd_stop fun byte hnone => ?_
    rw [hnext.byteAt_nil] at hnone
    cases hnone
  | case4 d rest value behind hread hne ih =>
    -- The pair ends inside the character behind the backslash if that is a wide one.
    have hbyte := h.byteAt_ascii (by decide)
    have hescaped := h.next_ascii (by decide)
    have hpair := quotedEnd_pair hbyte ((toUInt8_inj (by decide) hmark).not.2 hne) rfl hescaped.lt
    have hbehind : quotedEnd text mark.toUInt8 (place + 2)
        = quotedEnd text mark.toUInt8 (place + 1 + d.utf8Size) := by
      rcases Nat.lt_or_ge d.toNat 0x80 with hascii | hwide
      · rw [(utf8EncodeChar_ascii hascii).1]
      · exact quotedEnd_inside hmark hescaped hwide 1 d.utf8Size_pos
    obtain ⟨left, hleft, hstop, hcases⟩ := ih hescaped.next
    rw [hread] at hleft hstop hcases
    refine ⟨left, by rw [hleft]; rfl, ?_, hcases⟩
    rw [hpair, hbehind, hstop, utf8Len_cons, utf8Len_cons,
      show '\\'.utf8Size = 1 by decide]
    dsimp only
    omega
  | case5 c rest hne hescape value behind hread ih =>
    have hchar : quotedEnd text mark.toUInt8 place
        = quotedEnd text mark.toUInt8 (place + c.utf8Size) := by
      rcases Nat.lt_or_ge c.toNat 0x80 with hascii | hwide
      · rw [(utf8EncodeChar_ascii hascii).1]
        exact quotedEnd_pass (h.byteAt_ascii hascii) ((toUInt8_inj hascii hmark).not.2 hne)
          fun hpair => hescape ((toUInt8_inj hascii (by decide)).1 hpair.1)
      · exact quotedEnd_inside hmark h hwide 0 (Nat.zero_le _)
    obtain ⟨left, hleft, hstop, hcases⟩ := ih h.next
    rw [hread] at hleft hstop hcases
    refine ⟨left, by rw [hleft]; rfl, ?_, hcases⟩
    rw [hchar, hstop, utf8Len_cons]
    dsimp only
    omega

end Quoted

/-- A value is found as it is read by characters. Only the mark that ends a quoted value can have a
    wide character right behind it. -/
structure FindsValue (text : String) (found : Extent × Nat) (read : List Char × List Char) :
    Prop where
  value : valueOf text found.1 = read.1
  behind : Stands text found.2 read.2
  sound : Event.Sound text (.value found.1)
  wide : ∀ c rest, read.2 = c :: rest → 0x80 ≤ c.toNat → InsideBehindMark text (found.2 + 1)

theorem quotedAt_spec {mark : Char} (hmark : mark = '"' ∨ mark = '\x27')
    (h : Stands text place (mark :: input)) :
    FindsValue text (quotedAt text mark.toUInt8 place) (readQuoted mark input) := by
  have hascii : mark.toNat < 0x80 := by
    rcases hmark with rfl | rfl
    all_goals decide
  have hinput := h.next_ascii hascii
  obtain ⟨behind, hbehind, hstop, hcases⟩ := quotedEnd_spec hascii hinput
  generalize readQuoted mark input = read at hbehind hstop hcases
  obtain ⟨value, rest⟩ := read
  dsimp only at hbehind hstop hcases
  subst hbehind
  have hplace := hinput.append
  rw [quotedAt, hstop]
  rcases hcases with ⟨rfl, rfl⟩ | rfl
  · -- The mark is missing: the value reaches to the end, and there it goes on.
    have hend : place + 1 + utf8Len value = (textBytes text).length := hplace.eq_length
    refine ⟨hinput.valueOf_eq, ?_, hinput.sound, nofun⟩
    dsimp only
    rw [hend, Nat.min_eq_right (Nat.le_succ _), ← hend]
    exact hplace
  · have hmarkEnd := hplace.next_ascii hascii
    have hmin : min (place + 1 + utf8Len value + 1) (textBytes text).length
        = place + 1 + utf8Len value + 1 := Nat.min_eq_left hmarkEnd.le
    rw [hmin]
    refine ⟨hinput.valueOf_eq, hmarkEnd, hinput.sound, ?_⟩
    rintro c others rfl hwide
    exact ⟨_, mark, c, others, hplace, hmark, hwide, rfl⟩

/-- What is left behind a value that is not quoted starts with a character of ASCII. -/
theorem ascii_of_dropWhile {stops : List Char} (hstops : AsciiStops stops)
    (h : input.dropWhile (inValue stops) = c :: rest) : c.toNat < 0x80 := by
  have hout := List.head?_dropWhile_not (inValue stops) input
  rw [h] at hout
  by_contra hwide
  have hin := inValue_wide hstops (Nat.not_lt.1 hwide)
  exact Bool.false_ne_true (hout.symm.trans hin)

theorem plainAt_spec {stops : List Char} (hstops : AsciiStops stops)
    (h : Stands text place input) : FindsValue text (plainAt text stops place)
      (input.takeWhile (inValue stops), input.dropWhile (inValue stops)) := by
  have hparts : Stands text place
      (input.takeWhile (inValue stops) ++ input.dropWhile (inValue stops)) := by
    rwa [List.takeWhile_append_dropWhile]
  rw [plainAt, skipWhile_spec (alike_inValue hstops) h]
  refine ⟨hparts.valueOf_eq, hparts.append, hparts.sound, fun c rest hrest hwide => ?_⟩
  exact absurd (ascii_of_dropWhile hstops hrest) (Nat.not_lt.2 hwide)

/-- **A value is found as it is read by characters.** -/
theorem valueAt_spec {stops : List Char} (hstops : AsciiStops stops)
    (h : Stands text place input) :
    FindsValue text (valueAt text stops place) (readValue stops input) := by
  have hplain := plainAt_spec hstops h
  unfold valueAt readValue
  cases input with
  | nil =>
    rw [h.byteAt_nil]
    exact hplain
  | cons c rest =>
    obtain ⟨byte, hbyte, hfirst⟩ := h.firstByte
    simp only [hbyte, hfirst (by decide : '"'.toNat < 0x80),
      hfirst (by decide : '\x27'.toNat < 0x80)]
    split
    next hmark =>
      have hascii : c.toNat < 0x80 := by
        rcases hmark with rfl | rfl
        all_goals decide
      rw [(hfirst hascii).2 rfl]
      exact quotedAt_spec hmark h
    · exact hplain

/-! ## The values of a list -/

theorem listGoesOn_iff (h : Stands text place input) :
    listGoesOn text place = true ↔ ∃ c rest, input = c :: rest ∧ c ≠ ']' := by
  unfold listGoesOn
  cases input with
  | nil => simp [h.byteAt_nil]
  | cons c rest =>
    obtain ⟨byte, hbyte, hfirst⟩ := h.firstByte
    simp [hbyte, hfirst (by decide : ']'.toNat < 0x80)]

theorem skipSeparator_le (h : place ≤ (textBytes text).length) :
    skipSeparator text place ≤ (textBytes text).length := by
  unfold skipSeparator
  split
  next hgoes => exact lt_of_listGoesOn hgoes
  · exact h

/-- In front of a character of ASCII one byte is skipped as one character is. -/
theorem skipSeparator_spec (h : Stands text place input)
    (hascii : ∀ c rest, input = c :: rest → c.toNat < 0x80) :
    Stands text (skipSeparator text place) (dropSeparator input) := by
  have hgoes := listGoesOn_iff h
  unfold skipSeparator dropSeparator
  cases input with
  | nil => simpa [hgoes] using h
  | cons c rest =>
    have hc := hascii c rest rfl
    by_cases hclose : c = ']'
    · simpa [hgoes, hclose] using h
    · simpa [hgoes, hclose, hc] using h.next_ascii hc

/-- A wide character between two values starts a value of its own, which is dropped. -/
theorem dropSeparator_wide (hwide : 0x80 ≤ c.toNat) (rest : List Char) :
    dropSeparator (c :: rest) = dropSeparator (rest.dropWhile (inValue listStops)) := by
  rw [dropSeparator, if_neg (wide_ne hwide (by decide)), if_neg (Nat.not_lt.2 hwide)]
  cases hleft : rest.dropWhile (inValue listStops) with
  | nil => rfl
  | cons d more =>
    have hascii := ascii_of_dropWhile asciiStops_list hleft
    by_cases hbracket : d = ']'
    · subst hbracket
      rfl
    · rw [dropSeparator, if_neg hbracket, if_pos hascii]
      split
      next heq => exact absurd (List.cons.inj heq).1 hbracket
      next heq => exact (List.cons.inj heq).2.symm
      next heq => cases heq

/-- The values of a list are found as they are read by characters, up to its closing bracket, and
    all that happens is sound. -/
structure FindsList (text : String) (found : ReadValues) (read : List String × List Char) :
    Prop where
  values : found.values = read.1
  behind : Stands text found.next [] ∧ read.2 = [] ∨ Stands text found.next (']' :: read.2)
  sound : ∀ event ∈ found.trace, event.Sound text

/-- A round over the values, with what the rounds behind it find. -/
theorem FindsList.round {read : List String × List Char} (hgoes : listGoesOn text place = true)
    (hle : (valueAt text listStops place).2 ≤ (textBytes text).length)
    (hvalue : Event.Sound text (.value (valueAt text listStops place).1))
    (h : FindsList text
      (itemsFrom text (skipSeparator text (valueAt text listStops place).2)) read) :
    FindsList text (itemsFrom text place)
      (consValue (valueOf text (valueAt text listStops place).1) read.1, read.2) := by
  rw [itemsFrom, dif_pos hgoes]
  refine ⟨congrArg (consValue _) h.values, h.behind, ?_⟩
  refine List.forall_mem_cons.2 ⟨hvalue, List.forall_mem_cons.2 ⟨?_, h.sound⟩⟩
  exact ⟨item_lt hgoes, skipSeparator_le hle⟩

/-- From inside a wide character a round gives no value. It leads behind the value that the
    character would start. -/
theorem itemsFrom_inside {read : List String × List Char} (h : Stands text place (c :: rest))
    (hwide : 0x80 ≤ c.toNat) (hmark : InsideBehindMark text (place + 1))
    (hothers : ∀ next, Stands text next (dropSeparator (c :: rest)) →
      FindsList text (itemsFrom text next) read) :
    FindsList text (itemsFrom text (place + 1)) read := by
  have hsize := (utf8EncodeChar_wide hwide).1
  obtain ⟨byte, hbyte, hlarge⟩ := h.byteAt_add hwide 1 hsize
  have halike := alike_inValue asciiStops_list
  have hgoes : listGoesOn text (place + 1) = true := by
    rw [listGoesOn, hbyte]
    exact decide_eq_true (ne_of_wide hlarge (by decide))
  have hvalue : valueAt text listStops (place + 1) = plainAt text listStops (place + 1) := by
    rw [valueAt, hbyte]
    exact if_neg (not_or.2 ⟨ne_of_wide hlarge (by decide), ne_of_wide hlarge (by decide)⟩)
  -- It reaches from inside the character to where the value ends that starts with the character.
  have hin := inValue_wide asciiStops_list hwide
  have hskip : skipWhile text (byteInValue listStops) (place + 1)
      = skipWhile text (byteInValue listStops) (place + c.utf8Size) :=
    h.inside_eq (f := skipWhile text (byteInValue listStops)) hwide
      (fun hsome hwideByte => skipWhile_pass hsome ((halike.wide hwide hwideByte).trans hin))
      1 (Nat.le_of_lt hsize)
  have hstop : Stands text (plainAt text listStops (place + 1)).2
      (rest.dropWhile (inValue listStops)) := by
    rw [plainAt, hskip]
    exact h.next.skipWhile halike
  have hnext : Stands text (skipSeparator text (plainAt text listStops (place + 1)).2)
      (dropSeparator (c :: rest)) := by
    rw [dropSeparator_wide hwide]
    exact skipSeparator_spec hstop fun d more hleft => ascii_of_dropWhile asciiStops_list hleft
  have hnone : Extent.text? (plainAt text listStops (place + 1)).1 text = none :=
    Extent.text?_eq_none (h.not_boundary Nat.one_pos hsize)
  have hsound : Event.Sound text (.value (plainAt text listStops (place + 1)).1) :=
    ⟨le_skipWhile text _ _, hstop.le, hstop.boundary, .inr ⟨hmark, hnone⟩⟩
  rw [← hvalue] at hstop hnext hnone hsound
  have hround := FindsList.round hgoes hstop.le hsound (hothers _ hnext)
  rwa [valueOf, hnone] at hround

/-- What stands behind a value is passed over as it is by characters. -/
theorem itemsFrom_behind {found : Extent × Nat} {value left : List Char}
    {read : List String × List Char} (h : FindsValue text found (value, left))
    (hothers : ∀ next, Stands text next (dropSeparator left) →
      FindsList text (itemsFrom text next) read) :
    FindsList text (itemsFrom text (skipSeparator text found.2)) read := by
  by_cases hascii : ∀ c rest, left = c :: rest → c.toNat < 0x80
  · exact hothers _ (skipSeparator_spec h.behind hascii)
  · push Not at hascii
    obtain ⟨c, rest, rfl, hwide⟩ := hascii
    have hgoes := (listGoesOn_iff h.behind).2 ⟨c, rest, rfl, wide_ne hwide (by decide)⟩
    rw [skipSeparator, if_pos hgoes]
    exact itemsFrom_inside h.behind hwide (h.wide c rest rfl hwide) hothers

/-- **The values of a list are found as they are read by characters.** -/
theorem itemsFrom_spec (h : Stands text place input) :
    FindsList text (itemsFrom text place) (readList input) := by
  fun_induction readList input generalizing place with
  | case1 =>
    have hgoes := (listGoesOn_iff h).not.2 (by simp)
    rw [itemsFrom, dif_neg hgoes]
    exact ⟨rfl, .inl ⟨h, rfl⟩, List.forall_mem_nil _⟩
  | case2 rest =>
    have hgoes := (listGoesOn_iff h).not.2 (by simp)
    rw [itemsFrom, dif_neg hgoes]
    exact ⟨rfl, .inr h, List.forall_mem_nil _⟩
  | case3 c rest hclose read values behind hread =>
    rename_i ih
    have hgoes := (listGoesOn_iff h).2 ⟨c, rest, rfl, hclose⟩
    have hvalue := valueAt_spec asciiStops_list h
    have hround := FindsList.round hgoes hvalue.behind.le hvalue.sound
      (itemsFrom_behind hvalue fun next hnext => ih hnext)
    rwa [hvalue.value, hread] at hround

/-! ## All values -/

/-- Values are found as they are read by characters, and all that happens is sound. -/
structure FindsValues (text : String) (found : ReadValues) (read : List String × List Char) :
    Prop where
  values : found.values = read.1
  behind : Stands text found.next read.2
  sound : ∀ event ∈ found.trace, event.Sound text

theorem listedAt_spec (h : Stands text place input) :
    FindsValues text (listedAt text place) (readListed input) := by
  have hbracket := h.byteAt_iff (by decide : '['.toNat < 0x80)
  unfold listedAt readListed
  split
  next hbyte =>
    obtain ⟨rest, rfl⟩ := hbracket.1 hbyte
    have hitems := itemsFrom_spec (h.next_ascii (by decide))
    dsimp only
    generalize itemsFrom text (place + 1) = items at hitems ⊢
    rcases hitems.behind with ⟨hend, hrest⟩ | hclose
    · rw [hend.byteAt_nil, if_neg nofun]
      have hbehind : Stands text items.next (readList rest).2 := by rwa [hrest]
      exact ⟨hitems.values, hbehind, hitems.sound⟩
    · rw [if_pos (hclose.byteAt_ascii (by decide))]
      exact ⟨hitems.values, hclose.next_ascii (by decide), hitems.sound⟩
  next hbyte =>
    split
    next rest => exact absurd (hbracket.2 ⟨rest, rfl⟩) hbyte
    · exact ⟨rfl, h, nofun⟩

/-- **The values behind `name:` are found as they are read by characters.** -/
theorem attributesAt_spec (h : Stands text place input) :
    FindsValues text (attributesAt text place) (readAttributes input) := by
  have hlisted := listedAt_spec h
  have hvalue := valueAt_spec asciiStops_nil hlisted.behind
  unfold attributesAt readAttributes
  dsimp only
  refine ⟨?_, hvalue.behind, List.forall_mem_cons.2 ⟨hvalue.sound, hlisted.sound⟩⟩
  rw [hlisted.values, hvalue.value]

/-- Behind the closing mark a byte is skipped, and the next value is sought inside the `é`. -/
example : (attributesAt "t:[\"a\"éb]" 2).values = ["a"] ∧
    .value ⟨7, 9⟩ ∈ (attributesAt "t:[\"a\"éb]" 2).trace ∧
    Extent.text? ⟨7, 9⟩ "t:[\"a\"éb]" = none := by decide +kernel

end InvertedIndex
