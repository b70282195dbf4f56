import InvertedIndex.Proofs.Query.Labels
import InvertedIndex.Proofs.Query.Written
import Mathlib

/-!
# `Proofs.Query.Relocation` — where attribute tokens go

A resolver may send an attribute token away from where it stands: to the tokens of the whole query, to
the modifiers of the next token, or nowhere. A token that waits for the next one stays until a token
is added to the tree, through all that is merged, dropped, closed or sent away in between. Each
attribute token is recorded as it is read, with the outline in front of it. The token that takes it is
then the one whose place in the tree is the number of tokens there at that time.

## Contents
- `Reading`, `readings`, `stages`: the attribute tokens of a text as they are read, and the outlines;
- `carriedAt`, `sentToAll`: those that wait for the token at a place, and those of the whole query;
- `Outline.Follows`: what reading on does to an outline; `Follows.trans`, `Extends.follows`;
- `attach_follows`: an attribute token attached;
- `step_extends`, `named_follows`, `step_follows`: one step;
- `scanFrom_follows`, `stages_pairwise`: a whole text; `relocations`: where its attribute tokens are.
-/

namespace InvertedIndex

/-! ## Attribute tokens as they are read -/

/-- The attribute token of the word being gathered, which a colon has ended, with its values in the
    input behind. -/
def Scanner.namedToken (resolve : Resolver) (scanner : Scanner) (input : List Char) : Token :=
  let name := String.ofList (':' :: scanner.word).reverse
  let values := (readAttributes input).1
  let resolution := resolve name values
  { kind := .word, text := resolution.param.getD name, action := resolution.action,
    attrs := if resolution.noParams then [] else values }

/-- An attribute token as it is read. -/
structure Reading where
  token : Token
  /-- The outline in front of it. -/
  before : Outline
  /-- The outline behind it. -/
  after : Outline

/-- The attribute tokens of a text, in order. -/
def readings (resolve : Resolver) (scanner : Scanner) (input : List Char) : List Reading :=
  match input with
  | [] => []
  | c :: rest =>
    let next := scanner.step resolve c rest
    let later := readings resolve next.1 next.2
    if CharClass.of c = .colon ∧ scanner.word ≠ [] then
      ⟨scanner.namedToken resolve rest, scanner.outline, next.1.outline⟩ :: later
    else later
termination_by input.length
decreasing_by
  all_goals exact Nat.lt_succ_of_le (Scanner.step_length resolve scanner c rest)

theorem readings_cons (resolve : Resolver) (scanner : Scanner) (c : Char) (rest : List Char) :
    readings resolve scanner (c :: rest)
      = (if CharClass.of c = .colon ∧ scanner.word ≠ [] then
          [⟨scanner.namedToken resolve rest, scanner.outline, (scanner.step resolve c rest).1.outline⟩]
          else [])
        ++ readings resolve (scanner.step resolve c rest).1 (scanner.step resolve c rest).2 := by
  rw [readings]
  split <;> rfl

/-- The outlines that reading a text goes through. -/
def stages (resolve : Resolver) (scanner : Scanner) (input : List Char) : List Outline :=
  match input with
  | [] => [scanner.outline, (scanner.flush resolve .word).outline]
  | c :: rest =>
    let next := scanner.step resolve c rest
    scanner.outline :: stages resolve next.1 next.2
termination_by input.length
decreasing_by exact Nat.lt_succ_of_le (Scanner.step_length resolve scanner c rest)

/-- The attribute tokens that wait for the token behind the first `n` of the tree. -/
def carriedAt (read : List Reading) (n : Nat) : List Token :=
  (read.filter fun reading =>
    reading.token.action = .next ∧ reading.before.placed.length = n).map Reading.token

/-- The attribute tokens of the whole query. -/
def sentToAll (read : List Reading) : List Token :=
  (read.filter (·.token.action = .global)).map Reading.token

/-- What an attribute token does as it is read. -/
structure Reading.Lawful (reading : Reading) : Prop where
  /-- One to be skipped changes nothing. -/
  skipped : reading.token.action = .skip → reading.after = reading.before
  /-- One that is sent away leaves the tree as it is. -/
  sent : reading.token.action = .next ∨ reading.token.action = .global →
    reading.after.roots = reading.before.roots
  /-- Any other is added to the tree, with all that is pending. -/
  added : reading.token.action = .normal ∨ reading.token.action = .number → reading.after.labels
    = reading.before.labels ++ [{ reading.token with modifiers := reading.before.pending }.label]

theorem carriedAt_append (read read' : List Reading) (n : Nat) :
    carriedAt (read ++ read') n = carriedAt read n ++ carriedAt read' n := by
  simp [carriedAt]

theorem sentToAll_append (read read' : List Reading) :
    sentToAll (read ++ read') = sentToAll read ++ sentToAll read' := by
  simp [sentToAll]

theorem carriedAt_eq_nil {read : List Reading} {n : Nat}
    (h : ∀ reading ∈ read, reading.token.action = .next → reading.before.placed.length ≠ n) :
    carriedAt read n = [] := by
  have hnone : (read.filter fun reading =>
      reading.token.action = .next ∧ reading.before.placed.length = n) = [] := by
    refine List.filter_eq_nil_iff.2 fun reading hreading => ?_
    simpa using h reading hreading
  rw [carriedAt, hnone]
  rfl

theorem sentToAll_eq_nil {read : List Reading}
    (h : ∀ reading ∈ read, reading.token.action ≠ .global) : sentToAll read = [] := by
  have hnone : read.filter (·.token.action = .global) = [] :=
    List.filter_eq_nil_iff.2 fun reading hreading => by simpa using h reading hreading
  rw [sentToAll, hnone]
  rfl

/-! ## Reading on -/

namespace Outline

variable {outline middle outline' : Outline} {read read' : List Reading}

/-- What waits for the token behind the first `n` of the tree, if reading goes on from an outline. -/
def awaitedAt (outline : Outline) (read : List Reading) (n : Nat) : List Token :=
  (if n = outline.placed.length then outline.pending else []) ++ carriedAt read n

/-- Reading on from an outline. Tokens are only added behind those of the tree, and each takes what
    waits for it. -/
structure Follows (outline : Outline) (read : List Reading) (outline' : Outline) : Prop where
  tidy : outline'.Tidy
  labels : outline.labels <+: outline'.labels
  globals : outline'.globals = outline.globals ++ sentToAll read
  pending : outline'.pending = outline.awaitedAt read outline'.placed.length
  modifiers : ∀ n token, outline.placed.length ≤ n → outline'.labels[n]? = some token →
    token.modifiers = outline.awaitedAt read n
  actions : (∀ token ∈ outline.labels, token.action = .normal ∨ token.action = .number) →
    ∀ token ∈ outline'.labels, token.action = .normal ∨ token.action = .number
  before : ∀ reading ∈ read, outline.labels <+: reading.before.labels
  after : ∀ reading ∈ read, reading.before.labels <+: outline'.labels
  lawful : ∀ reading ∈ read, reading.Lawful

namespace Follows

theorem length_le (h : Follows outline read outline') :
    outline.placed.length ≤ outline'.placed.length := by
  rw [← length_labels, ← length_labels]
  exact h.labels.length_le

/-- What is read later does not wait for a token that is already there. -/
theorem carriedAt_of_lt (h : Follows outline read outline') {n : Nat}
    (hn : n < outline.placed.length) : carriedAt read n = [] := by
  refine carriedAt_eq_nil fun reading hreading _ => ?_
  have hle := (h.before reading hreading).length_le
  rw [length_labels, length_labels] at hle
  omega

/-- What is read waits at most for the next token. -/
theorem carriedAt_of_gt (h : Follows outline read outline') {n : Nat}
    (hn : outline'.placed.length < n) : carriedAt read n = [] := by
  refine carriedAt_eq_nil fun reading hreading _ => ?_
  have hle := (h.after reading hreading).length_le
  rw [length_labels, length_labels] at hle
  omega

/-- What waits for a token to come is the same from the middle on. -/
theorem awaitedAt_append (h : Follows outline read middle) (read' : List Reading) {n : Nat}
    (hn : middle.placed.length ≤ n) :
    middle.awaitedAt read' n = outline.awaitedAt (read ++ read') n := by
  have hle := h.length_le
  unfold awaitedAt
  rw [carriedAt_append, ← List.append_assoc]
  refine congrArg (· ++ carriedAt read' n) ?_
  rcases Nat.eq_or_lt_of_le hn with rfl | hlt
  · rw [if_pos rfl, h.pending]
    rfl
  · rw [if_neg (Nat.ne_of_gt hlt), if_neg (Nat.ne_of_gt (Nat.lt_of_le_of_lt hle hlt)),
      h.carriedAt_of_gt hlt]
    rfl

/-- **Reading on** twice. -/
theorem trans (h : Follows outline read middle) (h' : Follows middle read' outline') :
    Follows outline (read ++ read') outline' where
  tidy := h'.tidy
  labels := h.labels.trans h'.labels
  globals := by rw [h'.globals, h.globals, sentToAll_append, List.append_assoc]
  pending := h'.pending.trans (h.awaitedAt_append read' h'.length_le)
  modifiers := by
    intro n token hn htoken
    rcases Nat.lt_or_ge n middle.placed.length with hlt | hge
    · have hmiddle : middle.labels[n]? = some token := by
        obtain ⟨behind, hbehind⟩ := h'.labels
        rw [← hbehind, List.getElem?_append_left (by rwa [length_labels])] at htoken
        exact htoken
      rw [h.modifiers n token hn hmiddle, awaitedAt, awaitedAt, carriedAt_append,
        h'.carriedAt_of_lt hlt, List.append_nil]
    · rw [h'.modifiers n token hge htoken, h.awaitedAt_append read' hge]
  actions := fun hactions => h'.actions (h.actions hactions)
  before := List.forall_mem_append.2 ⟨h.before, fun reading hreading =>
    h.labels.trans (h'.before reading hreading)⟩
  after := List.forall_mem_append.2 ⟨fun reading hreading =>
    (h.after reading hreading).trans h'.labels, h'.after⟩
  lawful := List.forall_mem_append.2 ⟨h.lawful, h'.lawful⟩

end Follows

/-- Tokens added where they stand. -/
theorem Extends.follows {added : List Token} (h : Extends outline added outline')
    (hread : ∀ reading ∈ read, reading.token.action ≠ .next ∧ reading.token.action ≠ .global)
    (hbefore : ∀ reading ∈ read, reading.before = outline)
    (hlawful : ∀ reading ∈ read, reading.Lawful) : Follows outline read outline' where
  tidy := h.tidy
  labels := h.labels ▸ List.prefix_append _ _
  globals := by
    rw [h.globals, sentToAll_eq_nil fun reading hreading => (hread reading hreading).2,
      List.append_nil]
  pending := by
    have hlength : outline'.placed.length = outline.placed.length + added.length := by
      rw [← length_labels, ← length_labels, h.labels, List.length_append]
    rw [h.pending, awaitedAt, carriedAt_eq_nil fun reading hreading hnext =>
      absurd hnext (hread reading hreading).1, hlength, List.append_nil]
    cases added <;> simp
  modifiers := by
    intro n token hn htoken
    rw [← length_labels] at hn
    rw [h.labels, List.getElem?_append_right hn] at htoken
    rw [h.modifiers _ token htoken, awaitedAt, carriedAt_eq_nil fun reading hreading hnext =>
      absurd hnext (hread reading hreading).1, List.append_nil, ← length_labels]
    refine if_congr ?_ rfl rfl
    omega
  actions := by
    intro hactions
    rw [h.labels]
    exact List.forall_mem_append.2 ⟨hactions, h.actions⟩
  before := fun reading hreading => hbefore reading hreading ▸ List.prefix_rfl
  after := fun reading hreading =>
    hbefore reading hreading ▸ h.labels ▸ List.prefix_append _ _
  lawful := hlawful

/-- An attribute token that leaves the tree as it is. -/
theorem sent_follows (h : outline.Tidy) {reading : Reading} (hbefore : reading.before = outline)
    (hspine : outline'.spine = outline.spine)
    (hglobals : outline'.globals = outline.globals ++ sentToAll [reading])
    (hpending : outline'.pending = outline.pending ++ carriedAt [reading] outline.placed.length)
    (hlawful : reading.Lawful) : Follows outline [reading] outline' := by
  have hroots : outline'.roots = outline.roots := by simp only [roots, hspine]
  have hplaced : outline'.placed = outline.placed := by rw [placed, tokens, hroots, placed, tokens]
  have hlabels : outline'.labels = outline.labels := by rw [labels, hplaced, labels]
  refine ⟨?_, hlabels ▸ List.prefix_rfl, hglobals, ?_, ?_, fun hactions => hlabels ▸ hactions, ?_, ?_, ?_⟩
  · exact ⟨hspine ▸ h.around, hspine ▸ h.enclosed⟩
  · rw [hpending, awaitedAt, hplaced, if_pos rfl]
  · -- No token is added that could take what waits.
    intro n token hn htoken
    have hnone : outline.labels[n]? = none := List.getElem?_eq_none (by rwa [length_labels])
    rw [hlabels, hnone] at htoken
    cases htoken
  · exact List.forall_mem_singleton.2 (hbefore ▸ List.prefix_rfl)
  · exact List.forall_mem_singleton.2 (hbefore ▸ hlabels ▸ List.prefix_rfl)
  · exact List.forall_mem_singleton.2 hlawful

/-- An attribute token attached waits for the next one, belongs to the whole query, or is added. -/
theorem attach_follows (h : outline.Tidy) {token : Token} (hskip : token.action ≠ .skip)
    (hnull : token.kind ≠ .null) (hchildless : token.children = []) (hmodifiers : token.modifiers = []) :
    Follows outline [⟨token, outline, outline.attach token.action token⟩]
      (outline.attach token.action token) := by
  by_cases hstands : token.action = .normal ∨ token.action = .number
  · have hextends := attach_extends h hstands rfl hnull hchildless hmodifiers
    refine hextends.follows ?_ (by simp) (List.forall_mem_singleton.2 ⟨?_, ?_, ?_⟩)
    · rcases hstands with haction | haction <;> simp [haction]
    · exact fun hskipped => absurd hskipped hskip
    · rcases hstands with haction | haction <;> simp [haction]
    · exact fun _ => hextends.labels
  · have hlawful {after : Outline} (hafter : after.roots = outline.roots) :
        Reading.Lawful ⟨token, outline, after⟩ :=
      ⟨fun hskipped => absurd hskipped hskip, fun _ => hafter, fun hadded => absurd hadded hstands⟩
    cases haction : token.action with
    | skip => exact absurd haction hskip
    | normal => exact absurd (.inl haction) hstands
    | number => exact absurd (.inr haction) hstands
    | next =>
      refine sent_follows h rfl rfl ?_ ?_ (hlawful rfl)
      · simp [attach, sentToAll, haction]
      · simp [attach, carriedAt, haction]
    | global =>
      refine sent_follows h rfl rfl ?_ ?_ (hlawful rfl)
      · simp [attach, sentToAll, haction]
      · simp [attach, carriedAt, haction]

end Outline

/-! ## One step -/

namespace Scanner

open Outline

variable {resolve : Resolver} {scanner : Scanner} {c : Char} {rest : List Char}

section Plain

variable (hsubstitute : ∀ text values, (resolve text values).substitute = none)

include hsubstitute

theorem emit_extends (h : scanner.outline.Tidy) {kind : TokenKind} (hnull : kind ≠ .null)
    (text : String) :
    ∃ added, Extends scanner.outline added (scanner.emit resolve kind text).outline := by
  simp only [emit, hsubstitute]
  split
  · exact ⟨[], h.unmoved.extends⟩
  · obtain ⟨added, hextends, -⟩ := place_extends h hnull text
    exact ⟨added, hextends⟩

theorem flush_extends (h : scanner.outline.Tidy) {kind : TokenKind} (hnull : kind ≠ .null) :
    ∃ added, Extends scanner.outline added (scanner.flush resolve kind).outline := by
  unfold flush
  split
  · exact ⟨[], h.unmoved.extends⟩
  · have hempty : ({ scanner with word := [] } : Scanner).outline.Tidy := h
    exact emit_extends hsubstitute hempty hnull _

/-- The word gathered, and a token behind it. -/
theorem flush_emit_extends (h : scanner.outline.Tidy) {kind emitted : TokenKind}
    (hnull : kind ≠ .null) (hemitted : emitted ≠ .null) (text : String) :
    ∃ added, Extends scanner.outline added
      ((scanner.flush resolve kind).emit resolve emitted text).outline := by
  obtain ⟨flushed, hflushed⟩ := flush_extends hsubstitute h hnull
  obtain ⟨added, hadded⟩ := emit_extends hsubstitute hflushed.tidy hemitted text
  exact ⟨flushed ++ added, hflushed.trans hadded⟩

theorem star_extends (h : scanner.outline.Tidy) :
    ∃ added, Extends scanner.outline added (scanner.star resolve).outline := by
  unfold star
  split
  · exact emit_extends hsubstitute h (by decide) _
  · split
    · exact flush_emit_extends hsubstitute h (by decide) (by decide) _
    · have hempty : ({ scanner with word := [] } : Scanner).outline.Tidy := h
      exact emit_extends hsubstitute hempty (by decide) _

/-- **A step that reads no attribute** adds tokens where they stand. -/
theorem step_extends (h : scanner.outline.Tidy)
    (hattribute : ¬(CharClass.of c = .colon ∧ scanner.word ≠ [])) (rest : List Char) :
    ∃ added, Extends scanner.outline added (scanner.step resolve c rest).1.outline := by
  have hstepped := step_stepped resolve scanner c rest
  generalize (scanner.step resolve c rest).1 = next at hstepped ⊢
  cases hstepped with
  | gathers => exact ⟨[], h.unmoved.extends⟩
  | stars => exact star_extends hsubstitute h
  | names hc hword => exact absurd ⟨by rw [hc]; decide, hword⟩ hattribute
  | drops => exact flush_extends hsubstitute h (by decide)
  | emits hclass hkind hword hor hnot hnull =>
    refine flush_emit_extends hsubstitute h ?_ hnull _
    rcases hkind with rfl | ⟨rfl, -⟩ <;> decide

end Plain

variable {input : List Char} (hsubstitute : ∀ text values, (resolve text values).substitute = none)
  (hparam : ∀ text values, ∀ param ∈ (resolve text values).param, param ≠ "-" ∧ param ≠ "+")

omit hparam in
include hsubstitute in
/-- An attribute token is placed as it is, unless it is to be skipped. -/
theorem named_outline (scanner : Scanner) (input : List Char) :
    let token := scanner.namedToken resolve input
    (scanner.named resolve input).1.outline = if token.action = .skip then scanner.outline
      else scanner.outline.place .word token.text token.action token.attrs none := by
  dsimp only [named, namedToken]
  cases (resolve (String.ofList (':' :: scanner.word).reverse) (readAttributes input).1).noParams
  all_goals
    simp only [hsubstitute, Bool.false_eq_true, if_false, if_true]
    split <;> rfl

include hparam in
/-- The text of an attribute token is no sign. -/
theorem namedToken_ne_sign (scanner : Scanner) (input : List Char) :
    (scanner.namedToken resolve input).text ≠ "-" ∧ (scanner.namedToken resolve input).text ≠ "+" := by
  let name := String.ofList (':' :: scanner.word).reverse
  have hname : name ≠ "-" ∧ name ≠ "+" :=
    Grammar.ofList_ne_sign (c := ':') (by simp) (by decide) (by decide)
  show (resolve name (readAttributes input).1).param.getD name ≠ "-" ∧
    (resolve name (readAttributes input).1).param.getD name ≠ "+"
  cases hshown : (resolve name (readAttributes input).1).param with
  | none => exact hname
  | some param => exact hparam name (readAttributes input).1 param hshown

include hsubstitute hparam

/-- **An attribute token** goes where the resolver sends it. -/
theorem named_follows (h : scanner.outline.Tidy) (input : List Char) :
    Follows scanner.outline
      [⟨scanner.namedToken resolve input, scanner.outline, (scanner.named resolve input).1.outline⟩]
      (scanner.named resolve input).1.outline := by
  obtain ⟨hdash, hplus⟩ := namedToken_ne_sign hparam scanner input
  have hnamed := named_outline hsubstitute scanner input
  dsimp only at hnamed
  rw [place_eq_attach (Quiet.mergeIntoTail?_eq_none hdash hplus (by decide)) rfl] at hnamed
  rw [hnamed]
  split
  next hskip =>
    refine sent_follows h rfl rfl ?_ ?_ ⟨fun _ => rfl, fun _ => rfl, by simp [hskip]⟩
    · simp [sentToAll, hskip]
    · simp [carriedAt, hskip]
  next hskip => exact attach_follows h hskip (show TokenKind.word ≠ .null by decide) rfl rfl

/-- The attribute token of one step, if it reads one. -/
theorem step_follows (h : scanner.outline.Tidy) (c : Char) (rest : List Char) :
    Follows scanner.outline
      (if CharClass.of c = .colon ∧ scanner.word ≠ [] then
        [⟨scanner.namedToken resolve rest, scanner.outline, (scanner.step resolve c rest).1.outline⟩]
        else []) (scanner.step resolve c rest).1.outline := by
  split
  next hattribute =>
    have hstep : scanner.step resolve c rest = scanner.named resolve rest := by
      simp only [step, hattribute.1, List.isEmpty_iff, hattribute.2, if_false]
    rw [hstep]
    exact named_follows hsubstitute hparam h rest
  next hattribute =>
    obtain ⟨added, hextends⟩ := step_extends hsubstitute h hattribute rest
    exact hextends.follows (by simp) (by simp) (by simp)

/-! ## A whole text -/

/-- **Reading a text** adds tokens to the tree and sends its attribute tokens away. -/
theorem scanFrom_follows (scanner : Scanner) (input : List Char) (h : scanner.outline.Tidy) :
    Follows scanner.outline (readings resolve scanner input)
      (scanFrom resolve scanner input).outline := by
  induction scanner, input using scanFrom.induct resolve with
  | case1 scanner =>
    obtain ⟨added, hextends⟩ := flush_extends hsubstitute h (show TokenKind.word ≠ .null by decide)
    rw [scanFrom_nil, readings]
    exact hextends.follows (by simp) (by simp) (by simp)
  | case2 scanner c rest next ih =>
    have hstep := step_follows hsubstitute hparam h c rest
    rw [scanFrom_cons, readings_cons]
    exact hstep.trans (ih hstep.tidy)

/-- **No stage** changes what the stages before it have added to the tree. -/
theorem stages_pairwise (scanner : Scanner) (input : List Char) (h : scanner.outline.Tidy) :
    (stages resolve scanner input).Pairwise (fun earlier later => earlier.labels <+: later.labels) ∧
      ∀ stage ∈ stages resolve scanner input, scanner.outline.labels <+: stage.labels := by
  induction scanner, input using scanFrom.induct resolve with
  | case1 scanner =>
    obtain ⟨added, hextends⟩ := flush_extends hsubstitute h (show TokenKind.word ≠ .null by decide)
    have hflush : scanner.outline.labels <+: (scanner.flush resolve .word).outline.labels :=
      hextends.labels ▸ List.prefix_append _ _
    rw [stages]
    exact ⟨List.pairwise_pair.2 hflush, by simpa using hflush⟩
  | case2 scanner c rest next ih =>
    have hstep := step_follows hsubstitute hparam h c rest
    obtain ⟨hpairwise, hlater⟩ := ih hstep.tidy
    have hstages : ∀ stage ∈ stages resolve next.1 next.2,
        scanner.outline.labels <+: stage.labels :=
      fun stage hstage => hstep.labels.trans (hlater stage hstage)
    rw [stages]
    exact ⟨List.pairwise_cons.2 ⟨hstages, hpairwise⟩,
      List.forall_mem_cons.2 ⟨List.prefix_rfl, hstages⟩⟩

end Scanner

theorem getLast?_stages (resolve : Resolver) (scanner : Scanner) (input : List Char) :
    (stages resolve scanner input).getLast? = some (scanFrom resolve scanner input).outline := by
  induction scanner, input using scanFrom.induct resolve with
  | case1 scanner =>
    rw [stages, Scanner.scanFrom_nil]
    rfl
  | case2 scanner c rest next ih =>
    rw [stages, Scanner.scanFrom_cons, List.getLast?_cons, ih]
    rfl

/-- An attribute token is read at one of the stages. -/
theorem before_mem_stages {resolve : Resolver} {scanner : Scanner} {input : List Char}
    {reading : Reading} (h : reading ∈ readings resolve scanner input) :
    reading.before ∈ stages resolve scanner input := by
  induction scanner, input using scanFrom.induct resolve with
  | case1 scanner =>
    rw [readings] at h
    exact absurd h (by simp)
  | case2 scanner c rest next ih =>
    rw [readings_cons, List.mem_append] at h
    rw [stages]
    rcases h with hnow | hlater
    · split at hnow
      · obtain rfl := List.mem_singleton.1 hnow
        exact List.mem_cons_self
      · exact absurd hnow (by simp)
    · exact List.mem_cons_of_mem _ (ih hlater)

/-! ## The tree of a text -/

/-- **Attribute tokens that are sent away are neither lost nor duplicated.** Those of the whole query
    are its globals, in order. Those that wait are the modifiers of the token that is added next, in
    order, and no other token of the tree has any. One to be skipped changes nothing. No token of
    the tree is one that was sent away. Stage by stage, tokens are added behind those that are in the
    tree, so a place in it says which token was added next. -/
theorem relocations {resolve : Resolver}
    (hsubstitute : ∀ text values, (resolve text values).substitute = none)
    (hparam : ∀ text values, ∀ param ∈ (resolve text values).param, param ≠ "-" ∧ param ≠ "+")
    (input : String) :
    let outline := scan resolve input
    let read := readings resolve {} input.toList
    outline.globals = sentToAll read ∧
      (∀ n token, outline.placed[n]? = some token → token.modifiers = carriedAt read n) ∧
      (∀ token ∈ outline.tokens, (token.action = .normal ∨ token.action = .number) ∧
        (token.modifiers ≠ [] → token ∈ outline.placed)) ∧
      (∀ reading ∈ read, reading.Lawful ∧ reading.before ∈ stages resolve {} input.toList) ∧
      (stages resolve {} input.toList).Pairwise
        (fun earlier later => earlier.labels <+: later.labels) ∧
      (stages resolve {} input.toList).getLast? = some outline := by
  intro outline read
  have hfollows : Outline.Follows {} read outline :=
    Scanner.scanFrom_follows hsubstitute hparam {} input.toList Outline.empty_tidy
  have hawaited (n : Nat) : Outline.awaitedAt {} read n = carriedAt read n := by
    rw [Outline.awaitedAt, ite_self, List.nil_append]
  refine ⟨hfollows.globals, ?_, ?_, ?_, ?_, getLast?_stages resolve {} input.toList⟩
  · intro n token htoken
    have hlabel : outline.labels[n]? = some token.label := by
      rw [Outline.labels, List.getElem?_map, htoken]
      rfl
    exact (hfollows.modifiers n token.label (Nat.zero_le n) hlabel).trans (hawaited n)
  · -- What reading makes up carries nothing, so it needs no place among those that take.
    intro token htoken
    cases hstructural : token.isStructural with
    | true =>
      obtain ⟨hmodifiers, haction, -⟩ := of_decide_eq_true hstructural
      exact ⟨.inl haction, fun hne => absurd (List.isEmpty_iff.1 hmodifiers) hne⟩
    | false =>
      have hplaced : token ∈ outline.placed := List.mem_filter.2 ⟨htoken, by simp [hstructural]⟩
      exact ⟨hfollows.actions (by simp [Outline.labels, Outline.placed, Outline.tokens, Outline.roots])
        token.label (List.mem_map_of_mem hplaced), fun _ => hplaced⟩
  · exact fun reading hreading => ⟨hfollows.lawful reading hreading, before_mem_stages hreading⟩
  · exact (Scanner.stages_pairwise hsubstitute hparam {} input.toList Outline.empty_tidy).1

theorem relocations_signs :
    let resolve : Resolver := fun text _ =>
      { action := if text = "site:" then .next else if text = "lang:" then .global
          else if text = "x:" then .skip else .normal }
    let input := "site:a )- site:b -- lang:c x:d , site:e (cat"
    (∀ text values, (resolve text values).substitute = none) ∧
      (∀ text values, ∀ param ∈ (resolve text values).param, param ≠ "-" ∧ param ≠ "+") ∧
      (scan resolve input).globals.map Token.attrs = [["c"]] ∧
      (scan resolve input).placed.map Token.text = ["-", "(", "cat"] ∧
      (∀ n token, (scan resolve input).placed[n]? = some token →
        token.modifiers = carriedAt (readings resolve {} input.toList) n) ∧
      (List.range 3).map (fun n => (carriedAt (readings resolve {} input.toList) n).map Token.attrs)
        = [[["a"]], [["b"], ["e"]], []] := by
  intro resolve input
  have hsubstitute : ∀ text values, (resolve text values).substitute = none := fun _ _ => rfl
  have hparam : ∀ text values, ∀ param ∈ (resolve text values).param, param ≠ "-" ∧ param ≠ "+" :=
    fun _ _ _ h => by cases h
  obtain ⟨hglobals, hmodifiers, -⟩ := relocations hsubstitute hparam input
  have hsent : (sentToAll (readings resolve {} input.toList)).map Token.attrs = [["c"]] := by cbv
  have hcarried : (List.range 3).map
      (fun n => (carriedAt (readings resolve {} input.toList) n).map Token.attrs)
        = [[["a"]], [["b"], ["e"]], []] := by cbv
  have hplaced : (scan resolve input).placed.map Token.text = ["-", "(", "cat"] := by cbv
  exact ⟨hsubstitute, hparam, hglobals ▸ hsent, hplaced, hmodifiers, hcarried⟩

end InvertedIndex
