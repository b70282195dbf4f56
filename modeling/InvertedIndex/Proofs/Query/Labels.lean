import InvertedIndex.Proofs.Query.Shown

/-!
# `Proofs.Query.Labels` — the tokens of a tree in the order in which they came

A tree is listed token by token, each in front of its children. Left out are the tokens that nobody
wrote: the child of a group with nothing in it, and the parentheses around a conditional. Then a token
added comes last in the list, whether it goes below the tail, beside it, or completes a conditional;
and no other move of an outline changes the list, except for the text of a sign or comparison into
which another merges.

## Contents
- `Token.preorder`, `Token.isStructural`, `Token.placed`: the tokens of a tree;
- `Token.listed`: what a function makes of each; `listed_eq`, `listed_setChildren`;
- `Token.label`, `Token.labels`: what stays of each; `labels_merged`;
- `Outline.Tidy`: what reading keeps; `listed_spine`: the list of an outline by its levels;
- `listed_leave`, `listed_setTail`, `listed_append`: the list after each move;
- `Outline.Unmoved`: outlines with the same tokens; `mergeIntoTail?_unmoved`, `steer?_unmoved`;
- `Outline.Extends`: tokens added, of which the first takes what is pending; `attach_extends`;
- `place_extends`: one token placed.
-/

namespace InvertedIndex

/-! ## Trees -/

namespace Token

/-- A token and all tokens below it, each in front of its children. -/
def preorder : Token → List Token
  | ⟨kind, text, action, noParams, attrs, modifiers, children⟩ =>
    ⟨kind, text, action, noParams, attrs, modifiers, children⟩ :: preorderAll children
where
  /-- The tokens of several trees. -/
  preorderAll : List Token → List Token
    | [] => []
    | token :: rest => preorder token ++ preorderAll rest

theorem preorderAll_eq (tokens : List Token) :
    preorder.preorderAll tokens = tokens.flatMap preorder := by
  induction tokens with
  | nil => rfl
  | cons token rest ih => rw [preorder.preorderAll, ih, List.flatMap_cons]

theorem preorder_eq (token : Token) :
    token.preorder = token :: token.children.flatMap preorder := by
  obtain ⟨kind, text, action, noParams, attrs, modifiers, children⟩ := token
  rw [preorder, preorderAll_eq]

theorem mem_preorder (token : Token) : token ∈ token.preorder := by
  rw [preorder_eq]
  exact List.mem_cons_self

/-- Whether a token may be one that reading makes up: the child of a group with nothing in it, or the
    parentheses around a conditional. It carries nothing. -/
def isStructural (token : Token) : Bool :=
  token.modifiers.isEmpty ∧ token.action = .normal ∧
    (token.kind = .null ∨ token.kind = .openParen ∧ isConditional token.children)

/-- The tokens of a tree that have been written. -/
def placed (token : Token) : List Token := token.preorder.filter fun token => !token.isStructural

/-- Whether the text of a token may change by another that merges into it. -/
def isLoose (token : Token) : Bool :=
  token.kind = .comparison ∨ token.text = "-" ∨ token.text = "+"

/-- A token without its children, and without a text that may change. -/
def label (token : Token) : Token :=
  { token with text := if token.isLoose then "" else token.text, children := [] }

/-- The labels of the tokens of a tree that have been written. -/
def labels (token : Token) : List Token := token.placed.map label

variable {token : Token} {children : List Token}

/-- What a function makes of the tokens of a tree that have been written. -/
def listed {α : Type} (f : Token → α) (token : Token) : List α := token.placed.map f

/-- A function that does not look below a token. -/
def Shallow {α : Type} (f : Token → α) : Prop :=
  ∀ (token : Token) (children : List Token), f { token with children } = f token

section Listed

variable {α : Type} {f : Token → α}

theorem listed_eq (f : Token → α) (token : Token) :
    token.listed f = (if token.isStructural then [] else [f token])
      ++ token.children.flatMap (listed f) := by
  have hchildren : ((token.children.flatMap preorder).filter fun t => !t.isStructural).map f
      = token.children.flatMap (listed f) := by
    rw [List.filter_flatMap, List.map_flatMap]
    rfl
  rw [listed, placed, preorder_eq, List.filter_cons]
  cases token.isStructural with
  | true => simpa using hchildren
  | false => simpa using hchildren

/-- A token without children is in the list itself. -/
theorem listed_childless (hnull : token.kind ≠ .null) (h : token.children = []) :
    token.listed f = [f token] := by
  have hown : token.isStructural = false := by simp [isStructural, hnull, h, isConditional]
  rw [listed_eq, h, hown]
  rfl

/-- The child of a group with nothing in it does not count. -/
theorem listed_null : ({ kind := .null, text := "" } : Token).listed f = [] := rfl

/-- The parentheses around a conditional do not count. -/
theorem listed_conditional (h : isConditional children = true) :
    (paren children).listed f = children.flatMap (listed f) := by
  have hown : (paren children).isStructural = true := by simp [isStructural, paren, h]
  rw [listed_eq, hown]
  rfl

/-- Children that are no conditional come behind their token. -/
theorem listed_setChildren (hf : Shallow f) (h : token.children = [])
    (hcond : isConditional children = false) :
    ({ token with children } : Token).listed f = token.listed f ++ children.flatMap (listed f) := by
  have hnone : isConditional token.children = false := by rw [h]; rfl
  have hown : ({ token with children } : Token).isStructural = token.isStructural := by
    simp only [isStructural, hcond, hnone]
  rw [listed_eq, listed_eq f token, hown, h, hf]
  simp

/-- A group with nothing in it gets a child that does not count. -/
theorem listed_hollowed (hf : Shallow f) (h : token.children = []) :
    (Outline.hollowed token).listed f = token.listed f := by
  rw [Outline.hollowed, listed_setChildren hf h rfl, List.flatMap_singleton, listed_null,
    List.append_nil]

end Listed

theorem label_shallow : Shallow label := fun _ _ => rfl

/-- Only signs and comparisons change by what merges into them, and they stay what they are. -/
theorem isLoose_merged {kind : TokenKind} {text merged : String}
    (h : Outline.mergedText? kind text token = some merged) :
    token.isLoose = true ∧ ({ token with text := merged } : Token).isLoose = true := by
  unfold Outline.mergedText? at h
  -- The first three rules turn a sign into a sign; the last one keeps the kind.
  split at h
  next hsigns =>
    obtain rfl := Option.some.inj h
    simp [isLoose, hsigns.2]
  · split at h
    next hsigns =>
      obtain rfl := Option.some.inj h
      simp [isLoose, hsigns.2]
    · split at h
      next hsigns =>
        obtain rfl := Option.some.inj h
        rcases hsigns.2 with htail | htail <;> simp [isLoose, htail]
      · split at h
        next hkinds => simp [isLoose, hkinds.2]
        · exact absurd h (by simp)

/-- A token that merges into another changes no label. -/
theorem labels_merged {kind : TokenKind} {text merged : String}
    (h : Outline.mergedText? kind text token = some merged) :
    ({ token with text := merged } : Token).labels = token.labels := by
  obtain ⟨hloose, hmerged⟩ := isLoose_merged h
  have hlabel : ({ token with text := merged } : Token).label = token.label := by
    simp only [label, hloose, hmerged, if_true]
  have hlisted := listed_eq label { token with text := merged }
  rw [hlabel] at hlisted
  exact hlisted.trans (listed_eq label token).symm

end Token

/-! ## Outlines -/

namespace Outline

variable {outline outline' : Outline} {token : Token} {level parent : Level} {outer : List Level}

/-- All tokens in the tree of an outline. -/
def tokens (outline : Outline) : List Token := outline.roots.flatMap Token.preorder

/-- Those that have been written. -/
def placed (outline : Outline) : List Token := outline.tokens.filter fun token => !token.isStructural

/-- Their labels. -/
def labels (outline : Outline) : List Token := outline.placed.map Token.label

theorem length_labels (outline : Outline) : outline.labels.length = outline.placed.length :=
  List.length_map _

/-- What a function makes of them. -/
def listed {α : Type} (f : Token → α) (outline : Outline) : List α := outline.placed.map f

/-- What reading keeps: what stands around the tail has no children outside the levels inside, and
    every conditional that is complete is enclosed. -/
structure Tidy (outline : Outline) : Prop where
  around : ∀ level ∈ outline.spine.tail, level.last.children = []
  enclosed : ∀ level ∈ outline.spine, Enclosed (level.last :: level.earlier)

theorem empty_tidy : Tidy {} := ⟨by simp, by simp⟩

section Listed

variable {α : Type} {f : Token → α}

theorem listed_roots (f : Token → α) (outline : Outline) :
    outline.listed f = outline.roots.flatMap (Token.listed f) := by
  rw [listed, placed, tokens, List.filter_flatMap, List.map_flatMap]
  rfl

/-- The list of a level. -/
def levelListed (f : Token → α) (level : Level) : List α := level.tokens.flatMap (Token.listed f)

theorem levelListed_eq (f : Token → α) (level : Level) :
    levelListed f level
      = level.earlier.reverse.flatMap (Token.listed f) ++ level.last.listed f := by
  simp [levelListed, Level.tokens]

theorem listed_rootsAround (hf : Token.Shallow f) (henclosed : Enclosed (level.last :: level.earlier))
    (houter : ∀ level ∈ outer, level.last.children = [])
    (haround : ∀ level ∈ outer, Enclosed (level.last :: level.earlier)) :
    (rootsAround level.tokens outer).flatMap (Token.listed f)
      = outer.reverse.flatMap (levelListed f) ++ levelListed f level := by
  induction outer generalizing level with
  | nil => rfl
  | cons parent outer ih =>
    rw [List.forall_mem_cons] at houter haround
    let left : Level := ⟨parent.earlier, { parent.last with children := level.tokens }⟩
    have hleft : levelListed f left = levelListed f parent ++ levelListed f level := by
      rw [levelListed_eq, levelListed_eq f parent, List.append_assoc]
      exact congrArg _ (Token.listed_setChildren hf houter.1 henclosed.not_isConditional)
    have hroots : (rootsAround left.tokens outer).flatMap (Token.listed f) = _ :=
      ih haround.1 houter.2 haround.2
    rw [rootsAround, hroots, hleft]
    simp

/-- **The list of an outline** is that of its levels, from the outside in. -/
theorem listed_spine (hf : Token.Shallow f) (h : outline.Tidy) :
    outline.listed f = outline.spine.reverse.flatMap (levelListed f) := by
  have haround := h.around
  have henclosed := h.enclosed
  rw [listed_roots]
  cases hspine : outline.spine with
  | nil => simp [roots, hspine]
  | cons level outer =>
    rw [hspine, List.tail_cons] at haround
    rw [hspine, List.forall_mem_cons] at henclosed
    simp only [roots, hspine]
    rw [listed_rootsAround hf henclosed.1 haround henclosed.2]
    simp

/-- To leave a group changes nothing. -/
theorem listed_leave (f : Token → α) (outline : Outline) :
    outline.leave.listed f = outline.listed f := by
  rw [listed_roots, listed_roots, roots_leave]

end Listed

/-! ## Moves without a new token -/

/-- The same tokens are in the tree, wait for the next one, and belong to the whole query. -/
structure Unmoved (outline outline' : Outline) : Prop where
  tidy : outline'.Tidy
  labels : outline'.labels = outline.labels
  pending : outline'.pending = outline.pending
  globals : outline'.globals = outline.globals

theorem Tidy.unmoved (h : outline.Tidy) : Unmoved outline outline := ⟨h, rfl, rfl, rfl⟩

theorem leave_unmoved (h : outline.Tidy) : Unmoved outline outline.leave := by
  have hlabels : outline.leave.labels = outline.labels := listed_leave Token.label outline
  rcases hspine : outline.spine with _ | ⟨level, _ | ⟨parent, outer⟩⟩
  · simp only [leave, hspine]
    exact h.unmoved
  · simp only [leave, hspine]
    exact h.unmoved
  · have haround := h.around
    have henclosed := h.enclosed
    simp only [hspine, List.tail_cons, List.forall_mem_cons] at haround henclosed
    rw [leave_eq hspine] at hlabels ⊢
    exact ⟨⟨haround.2, List.forall_mem_cons.2 henclosed.2⟩, hlabels, rfl, rfl⟩

theorem Tidy.setTail (h : outline.Tidy) (hspine : outline.spine = level :: outer) (token : Token) :
    (outline.setTail token).Tidy := by
  have haround := h.around
  have henclosed := h.enclosed
  rw [hspine] at haround henclosed
  rw [List.forall_mem_cons] at henclosed
  rw [setTail_eq hspine]
  exact ⟨haround, List.forall_mem_cons.2 henclosed⟩

/-- The tail replaced by a token with the same list. -/
theorem listed_setTail {α : Type} {f : Token → α} (hf : Token.Shallow f) (h : outline.Tidy)
    (hspine : outline.spine = level :: outer) (hlisted : token.listed f = level.last.listed f) :
    (outline.setTail token).listed f = outline.listed f := by
  rw [listed_spine hf (h.setTail hspine token), listed_spine hf h, setTail_eq hspine, hspine]
  simp [levelListed_eq, hlisted]

/-- The tail replaced by a token with the same labels. -/
theorem setTail_unmoved (h : outline.Tidy) (hspine : outline.spine = level :: outer)
    (hlabels : token.labels = level.last.labels) : Unmoved outline (outline.setTail token) := by
  refine ⟨h.setTail hspine token, listed_setTail Token.label_shallow h hspine hlabels, ?_, ?_⟩
  · rw [setTail_eq hspine]
  · rw [setTail_eq hspine]

theorem close_unmoved (h : outline.Tidy) (kind : TokenKind) : Unmoved outline (outline.close kind) := by
  rcases outline.close_moves kind with
    ⟨-, hclose⟩ | ⟨-, ⟨level, outer, hspine, -, hchildless, hclose⟩ | hclose⟩
  · rw [hclose]
    exact leave_unmoved h
  · rw [hclose]
    exact setTail_unmoved h hspine (Token.listed_hollowed Token.label_shallow hchildless)
  · rw [hclose]
    exact h.unmoved

/-- **A token that merges into the tail** adds none. -/
theorem mergeIntoTail?_unmoved (h : outline.Tidy) {kind : TokenKind} {text : String}
    (hmerge : outline.mergeIntoTail? kind text = some outline') : Unmoved outline outline' := by
  obtain ⟨level, outer, merged, hspine, hmerged, rfl⟩ := exists_merged hmerge
  exact setTail_unmoved h hspine (Token.labels_merged hmerged)

/-- **A token that only says where the next one goes** adds none. -/
theorem steer?_unmoved (h : outline.Tidy) {kind : TokenKind}
    (hsteer : outline.steer? kind = some outline') : Unmoved outline outline' := by
  unfold steer? at hsteer
  split at hsteer
  · exact Option.some.inj hsteer ▸ close_unmoved h _
  · exact Option.some.inj hsteer ▸ close_unmoved h _
  · exact Option.some.inj hsteer ▸ close_unmoved h _
  · split at hsteer
    · exact Option.some.inj hsteer ▸ leave_unmoved h
    · split at hsteer
      · exact Option.some.inj hsteer ▸ h.unmoved
      · exact absurd hsteer (by simp)
  · obtain rfl := Option.some.inj hsteer
    split
    · exact leave_unmoved h
    · exact h.unmoved
  · split at hsteer
    · exact absurd hsteer (by simp)
    · exact Option.some.inj hsteer ▸ h.unmoved
  · exact absurd hsteer (by simp)

/-! ## Tokens added -/

theorem Tidy.append (h : outline.Tidy) (token : Token) : (outline.append token).Tidy := by
  have haround := h.around
  have henclosed := h.enclosed
  have hgrown := grown_append outline token
  generalize outline.append token = grown at hgrown ⊢
  cases hgrown with
  | first hspine => exact ⟨by simp, by simp [Enclosed, awaitsOperand]⟩
  | below hspine hnests =>
    rw [hspine] at haround henclosed
    exact ⟨List.forall_mem_cons.2 ⟨childless_of_nests hnests, haround⟩,
      List.forall_mem_cons.2 ⟨⟨rfl, trivial⟩, henclosed⟩⟩
  | @beside level outer hspine hnests hawaits =>
    have hlacks : awaitsOperand (level.last :: level.earlier) = false := by
      simpa [awaits, hspine] using hawaits
    rw [hspine] at haround henclosed
    rw [List.forall_mem_cons] at henclosed
    exact ⟨haround, List.forall_mem_cons.2 ⟨⟨hlacks, henclosed.1⟩, henclosed.2⟩⟩
  | enclosing hspine hnests hawaits hsiblings hconditional hrest =>
    rw [hspine] at haround henclosed
    rw [List.forall_mem_cons] at henclosed
    exact ⟨haround, List.forall_mem_cons.2 ⟨hrest henclosed.1 _, henclosed.2⟩⟩

/-- **A token added** comes last in the list. -/
theorem listed_append {α : Type} {f : Token → α} (hf : Token.Shallow f) (h : outline.Tidy)
    (token : Token) : (outline.append token).listed f = outline.listed f ++ token.listed f := by
  rw [listed_spine hf h, listed_spine hf (h.append token)]
  have hgrown := grown_append outline token
  generalize outline.append token = grown at hgrown ⊢
  cases hgrown with
  | first hspine => simp [hspine, levelListed_eq]
  | below hspine hnests => simp [hspine, levelListed_eq]
  | beside hspine hnests hawaits => simp [hspine, levelListed_eq]
  | @enclosing level operands before outer hspine hnests hawaits hsiblings hconditional hrest =>
    -- The operands move below a parenthesis that does not count, so they stay in order.
    have hlevel : levelListed f level = before.reverse.flatMap (Token.listed f)
        ++ operands.reverse.flatMap (Token.listed f) := by
      rw [levelListed, Level.tokens, hsiblings, List.reverse_append, List.flatMap_append]
    have hparen : (Token.paren (operands.reverse ++ [token])).listed f
        = operands.reverse.flatMap (Token.listed f) ++ token.listed f := by
      rw [Token.listed_conditional hconditional, List.flatMap_append, List.flatMap_singleton]
    have hnew : levelListed f ⟨before, Token.paren (operands.reverse ++ [token])⟩
        = levelListed f level ++ token.listed f := by
      rw [levelListed_eq, hparen, hlevel, List.append_assoc]
    simp [hspine, hnew]

theorem append_pending (outline : Outline) (token : Token) :
    (outline.append token).pending = outline.pending := by
  have hgrown := grown_append outline token
  generalize outline.append token = grown at hgrown ⊢
  cases hgrown <;> rfl

theorem append_globals (outline : Outline) (token : Token) :
    (outline.append token).globals = outline.globals := by
  have hgrown := grown_append outline token
  generalize outline.append token = grown at hgrown ⊢
  cases hgrown <;> rfl

/-- Tokens with the labels are added where they stand. The first of them takes what is pending. -/
structure Extends (outline : Outline) (added : List Token) (outline' : Outline) : Prop where
  tidy : outline'.Tidy
  labels : outline'.labels = outline.labels ++ added
  pending : outline'.pending = if added.isEmpty then outline.pending else []
  globals : outline'.globals = outline.globals
  modifiers : ∀ n token, added[n]? = some token →
    token.modifiers = if n = 0 then outline.pending else []
  actions : ∀ token ∈ added, token.action = .normal ∨ token.action = .number

theorem Unmoved.extends (h : Unmoved outline outline') : Extends outline [] outline' where
  tidy := h.tidy
  labels := by rw [h.labels, List.append_nil]
  pending := h.pending
  globals := h.globals
  modifiers := by simp
  actions := by simp

theorem Extends.trans {added added' : List Token} {outline'' : Outline}
    (h : Extends outline added outline') (h' : Extends outline' added' outline'') :
    Extends outline (added ++ added') outline'' where
  tidy := h'.tidy
  labels := by rw [h'.labels, h.labels, List.append_assoc]
  pending := by
    rw [h'.pending, h.pending]
    cases added <;> cases added' <;> rfl
  globals := h'.globals.trans h.globals
  modifiers := by
    intro n token htoken
    by_cases hn : n < added.length
    · rw [List.getElem?_append_left hn] at htoken
      exact h.modifiers n token htoken
    · rw [List.getElem?_append_right (Nat.le_of_not_lt hn)] at htoken
      rw [h'.modifiers _ token htoken, h.pending]
      cases added with
      | nil => rfl
      | cons first rest =>
        have hpositive : n ≠ 0 := by
          rintro rfl
          exact hn (Nat.succ_pos _)
        rw [List.isEmpty_cons, if_neg Bool.false_ne_true, ite_self, if_neg hpositive]
  actions := List.forall_mem_append.2 ⟨h.actions, h'.actions⟩

/-- Attaching is adding with what is pending, also where nothing is. -/
theorem attach_eq_append {action : Action} (haction : action = .normal ∨ action = .number)
    (hmodifiers : token.modifiers = []) :
    outline.attach action token
      = { outline with pending := [] }.append { token with modifiers := outline.pending } := by
  have hplaced : outline.attach action token = if outline.pending.isEmpty then outline.append token
      else { outline with pending := [] }.append { token with modifiers := outline.pending } := by
    rcases haction with rfl | rfl <;> rfl
  rw [hplaced]
  split
  next hempty =>
    have hpending : outline.pending = [] := List.isEmpty_iff.1 hempty
    have htaken : { token with modifiers := outline.pending } = token := by
      rw [hpending, ← hmodifiers]
      cases token
      rfl
    have houtline : { outline with pending := [] } = outline := by
      rw [← hpending]
    rw [htaken, houtline]
  next => rfl

/-- **A token that goes where it stands** takes what is pending. -/
theorem attach_extends (h : outline.Tidy) {action : Action}
    (haction : action = .normal ∨ action = .number) (htoken : token.action = action)
    (hnull : token.kind ≠ .null) (hchildless : token.children = []) (hmodifiers : token.modifiers = []) :
    Extends outline [{ token with modifiers := outline.pending }.label]
      (outline.attach action token) := by
  let taken : Token := { token with modifiers := outline.pending }
  have hattach : outline.attach action token = { outline with pending := [] }.append taken :=
    attach_eq_append haction hmodifiers
  have htidy : ({ outline with pending := [] } : Outline).Tidy := ⟨h.around, h.enclosed⟩
  have hlabels : taken.labels = [taken.label] := Token.listed_childless hnull hchildless
  rw [hattach]
  refine ⟨htidy.append taken, ?_, append_pending _ taken, append_globals _ taken, ?_, ?_⟩
  · exact (listed_append Token.label_shallow htidy taken).trans (congrArg _ hlabels)
  · intro n label hlabel
    obtain ⟨rfl, rfl⟩ : n = 0 ∧ taken.label = label := by
      cases n with
      | zero => exact ⟨rfl, Option.some.inj hlabel⟩
      | succ n => exact absurd hlabel (by simp)
    rfl
  · intro label hlabel
    obtain rfl := List.mem_singleton.1 hlabel
    exact htoken ▸ haction

/-- A token of its own is attached. -/
theorem place_eq_attach {kind : TokenKind} {text : String}
    (hmerge : outline.mergeIntoTail? kind text = none) (hsteer : outline.steer? kind = none)
    (action : Action) (attrs : List String) :
    outline.place kind text action attrs none
      = outline.attach action { kind, text, action, attrs } := by
  simp only [place, hmerge, hsteer, Option.getD_none]
  cases attrs <;> rfl

/-- **One token placed** goes where it stands or is no token of its own. -/
theorem place_extends (h : outline.Tidy) {kind : TokenKind} (hnull : kind ≠ .null) (text : String) :
    ∃ added, Extends outline added (outline.place kind text .normal [] none) ∧
      ∀ token ∈ added, token.kind = kind := by
  cases hmerge : outline.mergeIntoTail? kind text with
  | some merged =>
    simp only [place, hmerge]
    exact ⟨[], (mergeIntoTail?_unmoved h hmerge).extends, by simp⟩
  | none =>
    cases hsteer : outline.steer? kind with
    | some steered =>
      simp only [place, hmerge, hsteer]
      exact ⟨[], (steer?_unmoved h hsteer).extends, by simp⟩
    | none =>
      rw [place_eq_attach hmerge hsteer]
      exact ⟨_, attach_extends h (.inl rfl) rfl hnull rfl rfl, by simp [Token.label]⟩

end Outline
end InvertedIndex
