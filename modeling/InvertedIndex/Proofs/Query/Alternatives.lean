import InvertedIndex.Proofs.Query.Precedence

/-!
# `Proofs.Query.Alternatives` — the pieces between `or` tokens

The `or` tokens of a run cut it into pieces. Splitting the run should give the piece itself if there
is only one, and else one token with the pieces as its children, wherever the `or` tokens stand. What
it gives depends on how many of them stand in front of the first piece and behind the last one: a
single one behind several pieces takes the last of these along, and those around a single piece may
stay there or make alternatives of it.

## Contents
- `Token.isBareOr`, `piecesBetween`: the pieces of a run;
- `alternativesOf`: the pieces as one run; `leadingOrs`, `trailingOrs`: what stands around them;
- `orPieces_append_piece`: the pieces that the pass collects; `splitOr_eq`: what it makes of them;
- `rearrange_splitOr_eq_iff`: when the pieces are kept; `trailing_or_drops`: one that is lost.
-/

namespace InvertedIndex

/-! ## Pieces -/

/-- Whether a token is a word that spells `or`, in letters of any case, or an `or` without
    alternatives of its own. -/
def Token.isBareOr (token : Token) : Bool :=
  (token.kind = .word ∧ token.text.toList.map Char.toLower = ['o', 'r']) ∨
    (token.kind = .or ∧ token.children.isEmpty)

/-- The longest parts of a run without a separating token, empty ones left out. -/
def piecesBetween (separates : Token → Bool) (run : List Token) : List (List Token) :=
  (run.splitOnP separates).filter fun piece => !piece.isEmpty

/-- Pieces as one run: a single piece itself, and several as one token with a child for each, of
    which those with several tokens are in parentheses. -/
def alternativesOf : List (List Token) → List Token
  | [piece] => piece
  | pieces => [Grammar.eitherOf (pieces.map Token.ofRun)]

/-- How many `or` tokens stand in front of the first piece. -/
def leadingOrs (run : List Token) : Nat := (run.takeWhile Token.isBareOr).length

/-- How many `or` tokens stand behind the last piece. -/
def trailingOrs (run : List Token) : Nat := (run.reverse.takeWhile Token.isBareOr).length

section Pieces

variable {separates : Token → Bool} {run : List Token}

theorem piecesBetween_nil : piecesBetween separates [] = [] := by
  simp [piecesBetween]

/-- A run without separating tokens is one piece. -/
theorem piecesBetween_single (hrun : ∀ token ∈ run, separates token = false) (hne : run ≠ []) :
    piecesBetween separates run = [run] := by
  simp [piecesBetween, List.splitOnP_eq_singleton hrun, hne]

/-- The pieces have every token that separates none, once and in its order. -/
theorem flatten_piecesBetween :
    (piecesBetween separates run).flatten = run.filter fun token => !separates token := by
  rw [piecesBetween, List.flatten_filter_not_isEmpty]
  induction run with
  | nil => rfl
  | cons token rest ih =>
    rw [List.splitOnP_cons_eq_if_modifyHead, List.filter_cons]
    cases separates token with
    | true => simpa using ih
    | false =>
      rcases hrest : rest.splitOnP separates with _ | ⟨first, others⟩
      · exact (List.splitOnP_ne_nil _ _ hrest).elim
      · simpa [hrest] using ih

/-- A separating token parts the pieces before it from those behind it. -/
theorem piecesBetween_append {token : Token} (htoken : separates token = true)
    (before behind : List Token) : piecesBetween separates (before ++ token :: behind)
      = piecesBetween separates before ++ piecesBetween separates behind := by
  simp [piecesBetween, List.splitOnP_append_cons _ _ htoken]

/-- Separating tokens alone leave no piece. -/
theorem piecesBetween_separators (hrun : ∀ token ∈ run, separates token = true) :
    piecesBetween separates run = [] := by
  induction run with
  | nil => exact piecesBetween_nil
  | cons token rest ih =>
    obtain ⟨htoken, hrest⟩ := List.forall_mem_cons.1 hrun
    have happend := piecesBetween_append htoken [] rest
    rw [List.nil_append] at happend
    rw [happend, piecesBetween_nil, ih hrest]
    rfl

/-- Separating tokens behind the last piece add none. -/
theorem piecesBetween_append_separators {back : List Token}
    (hback : ∀ token ∈ back, separates token = true) :
    piecesBetween separates (run ++ back) = piecesBetween separates run := by
  cases back with
  | nil => rw [List.append_nil]
  | cons token rest =>
    obtain ⟨htoken, hrest⟩ := List.forall_mem_cons.1 hback
    rw [piecesBetween_append htoken, piecesBetween_separators hrest, List.append_nil]

/-- Separating tokens in front of the first piece add none. -/
theorem piecesBetween_dropWhile :
    piecesBetween separates (run.dropWhile separates) = piecesBetween separates run := by
  induction run with
  | nil => rfl
  | cons token rest ih =>
    cases htoken : separates token with
    | false => simp [htoken]
    | true =>
      have happend := piecesBetween_append htoken [] rest
      rw [List.nil_append, piecesBetween_nil, List.nil_append] at happend
      rw [List.dropWhile_cons_of_pos htoken, happend, ih]

/-- The only piece of a run stands behind the separating tokens in front. -/
theorem takeWhile_of_single {piece : List Token} (h : piecesBetween separates run = [piece]) :
    (run.dropWhile separates).takeWhile (fun token => !separates token) = piece := by
  have hhead := List.head?_dropWhile_not separates run
  rw [← piecesBetween_dropWhile] at h
  generalize run.dropWhile separates = left at h hhead
  have hsplit := List.takeWhile_append_dropWhile (p := fun token => !separates token) (l := left)
  have hplain : ∀ token ∈ left.takeWhile fun token => !separates token, separates token = false :=
    fun token htoken => by simpa using List.mem_takeWhile_imp htoken
  have hne : left.takeWhile (fun token => !separates token) ≠ [] := by
    rcases left with _ | ⟨token, rest⟩
    · simp [piecesBetween_nil] at h
    · have htoken : separates token = false := hhead
      simp [htoken]
  have hbehind := List.head?_dropWhile_not (fun token => !separates token) left
  -- What comes behind it is nothing, or starts with a separating token.
  generalize left.takeWhile (fun token => !separates token) = first at hsplit hplain hne ⊢
  generalize left.dropWhile (fun token => !separates token) = behind at hsplit hbehind
  subst hsplit
  rcases behind with _ | ⟨token, rest⟩
  · rw [List.append_nil, piecesBetween_single hplain hne] at h
    exact (List.cons.inj h).1
  · have htoken : separates token = true := by simpa using hbehind
    rw [piecesBetween_append htoken, piecesBetween_single hplain hne] at h
    exact (List.cons.inj h).1

/-- The pieces of a run whose tokens are changed one by one. -/
theorem piecesBetween_map (change : Token → Token) :
    piecesBetween separates (run.map change)
      = (piecesBetween (fun token => separates (change token)) run).map (List.map change) := by
  have hsplit : (run.map change).splitOnP separates
      = (run.splitOnP fun token => separates (change token)).map (List.map change) := by
    induction run with
    | nil => rfl
    | cons token rest ih =>
      rw [List.map_cons, List.splitOnP_cons_eq_if_modifyHead, List.splitOnP_cons_eq_if_modifyHead, ih]
      split
      · rfl
      · cases rest.splitOnP fun token => separates (change token) <;> rfl
  rw [piecesBetween, hsplit, piecesBetween, List.filter_map]
  simp [Function.comp_def]

end Pieces

section Congr

variable {separates separates' : Token → Bool} {run : List Token}
  (h : ∀ token ∈ run, separates token = separates' token)

include h

theorem piecesBetween_congr : piecesBetween separates run = piecesBetween separates' run := by
  have hsplit : run.splitOnP separates = run.splitOnP separates' := by
    induction run with
    | nil => rfl
    | cons token rest ih =>
      obtain ⟨htoken, hrest⟩ := List.forall_mem_cons.1 h
      rw [List.splitOnP_cons_eq_if_modifyHead, List.splitOnP_cons_eq_if_modifyHead, htoken,
        ih hrest]
  rw [piecesBetween, hsplit, piecesBetween]

theorem takeWhile_congr : run.takeWhile separates = run.takeWhile separates' := by
  induction run with
  | nil => rfl
  | cons token rest ih =>
    obtain ⟨htoken, hrest⟩ := List.forall_mem_cons.1 h
    rw [List.takeWhile_cons, List.takeWhile_cons, htoken, ih hrest]

end Congr

/-! ## What the pass collects -/

/-- **The pieces of a run up to its last token that is no `or`**: all but the last one are collected,
    and the last one, kept with its last token first, awaits what comes behind. -/
theorem orPieces_append_piece (core : List Token) {last : Token} (hlast : last.isOr = false)
    (piece : List Token) : ∃ front held, held ≠ [] ∧
      ((core ++ [last]).splitOnPPrepend Token.isOr piece).filter (fun piece => !piece.isEmpty)
        = front ++ [held.reverse] ∧
      ∀ back, orPieces piece (core ++ last :: back)
        = (front ++ (orPieces held back).1, (orPieces held back).2) := by
  induction core generalizing piece with
  | nil =>
    refine ⟨[], last :: piece, by simp, by simp [List.splitOnPPrepend, hlast], fun back => ?_⟩
    simp [orPieces, hlast]
  | cons token rest ih =>
    cases htoken : token.isOr with
    | false =>
      obtain ⟨front, held, hne, hsplit, hback⟩ := ih (token :: piece)
      refine ⟨front, held, hne, ?_, fun back => ?_⟩
      · simpa [List.splitOnPPrepend, htoken] using hsplit
      · simpa [orPieces, htoken] using hback back
    | true =>
      obtain ⟨front, held, hne, hsplit, hback⟩ := ih []
      refine ⟨(if piece.isEmpty then [] else [piece.reverse]) ++ front, held, hne, ?_, fun back => ?_⟩
      · have hcut : (token :: rest ++ [last]).splitOnPPrepend Token.isOr piece
            = piece.reverse :: (rest ++ [last]).splitOnPPrepend Token.isOr [] := by
          rw [List.cons_append, List.splitOnPPrepend_cons_pos htoken,
            List.splitOnPPrepend_nil_right]
        rw [hcut, List.filter_cons, hsplit]
        cases piece <;> simp
      · cases piece <;> simp [orPieces, htoken, hback back]

/-- With `or` tokens alone behind it, a piece is collected if there are at least two of them, lost if
    there is one, and else comes last. -/
theorem orPieces_separators {held back : List Token} (hne : held ≠ [])
    (hback : ∀ token ∈ back, token.isOr = true) :
    orPieces held back = match back with
      | [] => ([], held.reverse)
      | [_] => ([], [])
      | _ => ([held.reverse], []) := by
  have hnone : ∀ tokens : List Token, (∀ token ∈ tokens, token.isOr = true) →
      orPieces [] tokens = ([], []) := by
    intro tokens htokens
    induction tokens with
    | nil => rfl
    | cons token rest ih =>
      obtain ⟨htoken, hrest⟩ := List.forall_mem_cons.1 htokens
      simp [orPieces, htoken, ih hrest]
  rcases back with _ | ⟨token, rest⟩
  · rfl
  · obtain ⟨htoken, hrest⟩ := List.forall_mem_cons.1 hback
    cases rest with
    | nil => simp [orPieces, htoken]
    | cons next more =>
      rw [orPieces, if_pos htoken, hnone _ hrest]
      simp [hne]

/-- Behind the last token of a run that is no `or` there are only `or` tokens. -/
theorem exists_last {run : List Token} (h : ∃ token ∈ run, token.isOr = false) :
    ∃ core last back, run = core ++ last :: back ∧ last.isOr = false ∧
      (∀ token ∈ back, token.isOr = true) ∧
      (run.reverse.takeWhile Token.isOr).length = back.length := by
  have hsplit := List.takeWhile_append_dropWhile (p := Token.isOr) (l := run.reverse)
  have hhead := List.head?_dropWhile_not Token.isOr run.reverse
  have hall : ∀ token ∈ run.reverse.takeWhile Token.isOr, token.isOr = true :=
    fun token htoken => List.mem_takeWhile_imp htoken
  generalize run.reverse.takeWhile Token.isOr = back at hsplit hall
  generalize run.reverse.dropWhile Token.isOr = rest at hsplit hhead
  obtain rfl : (back ++ rest).reverse = run := by rw [hsplit, List.reverse_reverse]
  rcases rest with _ | ⟨last, rest⟩
  · obtain ⟨token, htoken, hplain⟩ := h
    rw [hall token (by simpa using htoken)] at hplain
    cases hplain
  · exact ⟨rest.reverse, last, back.reverse, by simp, hhead, by simpa using hall, by simp⟩

/-- **What the pass makes of a run** that has a token besides `or` tokens: a single piece keeps the
    `or` tokens in front of it, unless there are several behind; and of several pieces the last one is
    lost if a single `or` stands behind it. -/
theorem splitOr_eq {run : List Token} (h : ∃ token ∈ run, token.isOr = false) :
    splitOr run =
      if (piecesBetween Token.isOr run).length = 1 ∧
          (run.reverse.takeWhile Token.isOr).length ≤ 1 then
        run.takeWhile Token.isOr ++ (piecesBetween Token.isOr run).flatten
      else [Grammar.eitherOf ((if (run.reverse.takeWhile Token.isOr).length = 1 then
        (piecesBetween Token.isOr run).dropLast else piecesBetween Token.isOr run).map
          Token.ofRun)] := by
  obtain ⟨core, last, back, hrun, hlast, hback, hcount⟩ := exists_last h
  obtain ⟨front, held, hne, hsplit, hcollect⟩ := orPieces_append_piece core hlast []
  have hpieces : piecesBetween Token.isOr run = front ++ [held.reverse] := by
    have hends : piecesBetween Token.isOr (core ++ [last] ++ back)
        = piecesBetween Token.isOr (core ++ [last]) := piecesBetween_append_separators hback
    rw [List.append_assoc, List.singleton_append, ← hrun] at hends
    rw [hends, ← hsplit]
    rfl
  have hcollected := hcollect back
  rw [← hrun, orPieces_separators hne hback] at hcollected
  rw [hcount, splitOr, hcollected, hpieces]
  -- One case for each number of `or` tokens behind the last piece, by whether it is the only one.
  cases front with
  | nil =>
    have hsingle := takeWhile_of_single hpieces
    rcases back with _ | ⟨token, _ | ⟨next, more⟩⟩
    · simp [hsingle]
    · simp [hsingle]
    · simp
      rfl
  | cons first others =>
    rcases back with _ | ⟨token, _ | ⟨next, more⟩⟩
    · simp [hne, Grammar.eitherOf]
    · rw [if_neg (by simp), List.length_singleton, if_pos rfl, List.dropLast_concat]
      simp [Grammar.eitherOf]
    · simp [Grammar.eitherOf]

/-! ## When the pieces are kept -/

/-- Runs in which every token of the kind `or` is a bare one: none is a finished node with
    alternatives below it. -/
def BareOrs (run : List Token) : Prop := ∀ token ∈ run, token.kind = .or → token.children = []

/-- In such a run the pass parts at the `or` tokens, whatever it does to the runs below them. -/
theorem isOr_regroup {run : List Token} (h : BareOrs run) :
    ∀ token ∈ run, (token.regroup splitOr).isOr = token.isBareOr := by
  intro token htoken
  have hkind := h token htoken
  have hkept : (token.regroup splitOr).isOr = token.isOr := Token.isOperator_regroup ..
  rw [hkept, Token.isOr, Token.isOperator, Token.isBareOr, decide_eq_decide, or_comm]
  exact or_congr_right ⟨fun hor => ⟨hor, by simp [hkind hor]⟩, And.left⟩

theorem leadingOrs_regroup {run : List Token} (h : BareOrs run) :
    ((run.map (Token.regroup splitOr)).takeWhile Token.isOr).length = leadingOrs run := by
  rw [List.takeWhile_map, List.length_map, leadingOrs, ← takeWhile_congr (isOr_regroup h)]
  rfl

theorem trailingOrs_regroup {run : List Token} (h : BareOrs run) :
    ((run.map (Token.regroup splitOr)).reverse.takeWhile Token.isOr).length = trailingOrs run := by
  have hreverse : BareOrs run.reverse := fun token htoken => h token (List.mem_reverse.1 htoken)
  rw [← List.map_reverse, leadingOrs_regroup hreverse]
  rfl

/-- What the pass makes of a run whose tokens below are arranged: its pieces, or less than them. -/
theorem splitOr_eq_iff {run : List Token} (h : ∃ token ∈ run, token.isOr = false) :
    splitOr run = alternativesOf (piecesBetween Token.isOr run) ↔
      if (piecesBetween Token.isOr run).length = 1 then
        (run.takeWhile Token.isOr).length = 0 ∧ (run.reverse.takeWhile Token.isOr).length ≤ 1
      else (run.reverse.takeWhile Token.isOr).length ≠ 1 := by
  rw [splitOr_eq h]
  generalize (run.reverse.takeWhile Token.isOr).length = behind
  by_cases hsingle : (piecesBetween Token.isOr run).length = 1
  · obtain ⟨piece, hpiece⟩ := List.length_eq_one_iff.1 hsingle
    have hplain : ∀ token ∈ piece, token.isOr = false := by
      intro token htoken
      rw [← takeWhile_of_single hpiece] at htoken
      simpa using List.mem_takeWhile_imp htoken
    rw [if_pos hsingle, hpiece]
    by_cases hbehind : behind ≤ 1
    · rw [if_pos ⟨rfl, hbehind⟩]
      simp [alternativesOf, hbehind]
    · -- The single piece has become the only alternative, which is a finished `or` node.
      rw [if_neg fun hboth => hbehind hboth.2, if_neg (by omega)]
      refine iff_of_false (fun heq => ?_) fun hboth => hbehind hboth.2
      have hor := hplain _ (heq ▸ List.mem_singleton_self _)
      simp [Grammar.eitherOf, Token.isOr, Token.isOperator] at hor
  · rw [if_neg fun hboth => hsingle hboth.1, if_neg hsingle]
    have hne : piecesBetween Token.isOr run ≠ [] := by
      obtain ⟨token, htoken, hplain⟩ := h
      intro hnone
      have hmem : token ∈ (piecesBetween Token.isOr run).flatten := by
        rw [flatten_piecesBetween, List.mem_filter, hplain]
        exact ⟨htoken, rfl⟩
      rw [hnone] at hmem
      cases hmem
    generalize piecesBetween Token.isOr run = pieces at hsingle hne
    have halternatives : alternativesOf pieces = [Grammar.eitherOf (pieces.map Token.ofRun)] := by
      rcases pieces with _ | ⟨first, _ | ⟨second, others⟩⟩
      · rfl
      · simp at hsingle
      · rfl
    rw [halternatives]
    by_cases hbehind : behind = 1
    · refine iff_of_false (fun heq => ?_) fun hne => hne hbehind
      have hlength := congrArg (fun token => token.children.length) (List.singleton_inj.1 heq)
      have hpos := List.length_pos_iff.2 hne
      simp [Grammar.eitherOf, hbehind] at hlength
      omega
    · simp [hbehind]

/-- **Parting a run at its `or` tokens keeps every piece** — a single one as it is, and several as
    the alternatives in their order — exactly if no `or` stands in front of a single piece, at most
    one behind it, and not just one behind several. -/
theorem rearrange_splitOr_eq_iff {run : List Token} (hsome : ∃ token ∈ run, token.isBareOr = false)
    (hbare : BareOrs run) :
    rearrange splitOr run
        = alternativesOf ((piecesBetween Token.isBareOr run).map (List.map (Token.regroup splitOr))) ↔
      if (piecesBetween Token.isBareOr run).length = 1 then leadingOrs run = 0 ∧ trailingOrs run ≤ 1
      else trailingOrs run ≠ 1 := by
  have hor := isOr_regroup hbare
  have hpieces : piecesBetween Token.isOr (run.map (Token.regroup splitOr))
      = (piecesBetween Token.isBareOr run).map (List.map (Token.regroup splitOr)) := by
    rw [piecesBetween_map, piecesBetween_congr hor]
  have hplain : ∃ token ∈ run.map (Token.regroup splitOr), token.isOr = false := by
    obtain ⟨token, htoken, hbareOr⟩ := hsome
    exact ⟨_, List.mem_map_of_mem htoken, (hor token htoken).trans hbareOr⟩
  have hiff := splitOr_eq_iff hplain
  rwa [leadingOrs_regroup hbare, trailingOrs_regroup hbare, hpieces, List.length_map,
    ← Token.regroupAll_eq] at hiff

/-- The letters of any case, an `or` in front and two behind. -/
theorem rearrange_splitOr_two_pieces :
    let word (text : String) : Token := { kind := .word, text }
    let run := [word "or", word "a", word "b", { kind := .or, text := "|" }, word "c", word "Or",
      word "OR"]
    (∃ token ∈ run, token.isBareOr = false) ∧ BareOrs run ∧
      rearrange splitOr run
        = [Grammar.eitherOf [Token.paren [word "a", word "b"], word "c"]] := by
  intro word run
  have hsome : ∃ token ∈ run, token.isBareOr = false := ⟨word "a", by simp [run], by decide⟩
  have hbare : BareOrs run := by simp [BareOrs, run, word]
  have hors : ∀ text ∈ ["or", "Or", "OR"], (word text).isBareOr = true := by decide
  have hothers : ∀ text ∈ ["a", "b", "c"], (word text).isBareOr = false := by decide
  have hbar : Token.isBareOr { kind := .or, text := "|" } = true := by decide
  have hpieces : piecesBetween Token.isBareOr run = [[word "a", word "b"], [word "c"]] := by
    simp [piecesBetween, run, hors, hothers, hbar, List.splitOnP_cons_eq_if_modifyHead]
  refine ⟨hsome, hbare, ?_⟩
  rw [(rearrange_splitOr_eq_iff hsome hbare).2 (by decide), hpieces]
  rfl

/-- **A single `or` behind several pieces drops the last one**: of `a or b or` only `a` is left. -/
theorem trailing_or_drops :
    let run := (scan Resolver.plain "a or b or").roots
    (∃ token ∈ run, token.isBareOr = false) ∧ BareOrs run ∧
      (rearrange splitOr run).map Token.children = [[{ kind := .word, text := "a" }]] ∧
      rearrange splitOr run
        ≠ alternativesOf ((piecesBetween Token.isBareOr run).map
            (List.map (Token.regroup splitOr))) := by
  intro run
  have hrun : run = ["a", "or", "b", "or"].map fun text => { kind := .word, text } := by
    change (scan Resolver.plain "a or b or").roots = _
    with_unfolding_all rfl
  rw [hrun]
  refine ⟨⟨{ kind := .word, text := "a" }, by simp, by decide⟩, by simp [BareOrs], rfl,
    fun heq => ?_⟩
  have hlength := congrArg (List.map fun token => token.children.length) heq
  exact absurd hlength (by decide)

end InvertedIndex
