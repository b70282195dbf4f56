import InvertedIndex.Proofs.Cursor.Map
import InvertedIndex.Query.Compile

/-!
# `Proofs.Query.Compile` — compiling with other leaves

A compilation looks at the cursors of a source only for their kinds. So replacing the leaves in all
cursors of a source replaces them in every compiled cursor, and nothing else.

## Contents
- `Compiler.Replaces`: a compilation over replaced leaves;
- `members?_map`, …, `token?_map`: the nodes of a tree; `query_map`: whole queries.
-/

namespace InvertedIndex

/-! ## Replacing leaves -/

/-- The second compilation is over the cursors of the first with each leaf replaced. -/
structure Compiler.Replaces {S L S' L' : Type} [Source S L] [Source S' L'] (f : L → L')
    (compiler : Compiler S L) (compiler' : Compiler S' L') : Prop where
  cursor : ∀ term, Source.cursor compiler'.source term
    = (Source.cursor compiler.source term).map f
  stemCursor : ∀ stem, Source.stemCursor compiler'.source stem
    = (Source.stemCursor compiler.source stem).map f
  settings : compiler'.settings = compiler.settings
  hook : ∀ token, compiler'.hook token = (compiler.hook token).map (Cursor.map f)

namespace Compiler

section Nodes

variable {L L' : Type} {f : L → L'}

theorem members?_map (subs : List (Option (Cursor L))) :
    members? (subs.map (Option.map (Cursor.map f)))
      = (members? subs).map (List.map (Cursor.map f)) := by
  induction subs with
  | nil => rfl
  | cons sub rest ih =>
    cases sub with
    | none => rfl
    | some c =>
      simp only [List.map_cons, Option.map_some, members?, Cursor.map_kind, ih]
      by_cases hempty : c.kind = .empty
      · simp [hempty]
      · simp only [if_neg hempty, Option.map_map]
        rfl

theorem group?_map (kind : TokenKind) (subs : List (Option (Cursor L))) :
    group? kind (subs.map (Option.map (Cursor.map f)))
      = (group? kind subs).map (Cursor.map f) := by
  unfold group?
  rw [members?_map, Option.map_map, Option.map_map]
  refine congrArg (Option.map · _) (funext fun members => ?_)
  by_cases hquote : kind = .doubleQuote
  · simp only [Function.comp_apply, if_pos hquote, Cursor.phraseOf, Cursor.map, Cursor.maps_eq]
  · simp only [Function.comp_apply, if_neg hquote]
    rcases members with _ | ⟨c, _ | ⟨c', rest⟩⟩
    · rfl
    · rfl
    · simp [Cursor.interOf, Cursor.map]

theorem alternatives_map (subs : List (Option (Cursor L))) :
    alternatives (subs.map (Option.map (Cursor.map f))) = (alternatives subs).map f := by
  have hfound : (subs.map (Option.map (Cursor.map f))).filterMap id
      = (subs.filterMap id).map (Cursor.map f) := by
    rw [List.filterMap_map, List.map_filterMap]
    rfl
  unfold alternatives
  rw [hfound]
  rcases subs.filterMap id with _ | ⟨c, _ | ⟨c', rest⟩⟩
  · rfl
  · rfl
  · have hall : ((c :: c' :: rest).map (Cursor.map f)).all (fun c => c.kind.hasPositions)
        = (c :: c' :: rest).all fun c => c.kind.hasPositions := by
      simp [Function.comp_def]
    simp only [List.map_cons] at hall ⊢
    rw [hall]
    split <;> simp [Cursor.unionOf, Cursor.map]

theorem exclusion?_map (subs : List (Option (Cursor L))) :
    exclusion? (subs.map (Option.map (Cursor.map f)))
      = (exclusion? subs).map (Cursor.map f) := by
  rcases subs with _ | ⟨dropped, _ | ⟨kept, rest⟩⟩
  · rfl
  · rfl
  · cases kept <;> cases dropped <;> rfl

theorem inner?_map (kind : TokenKind) (subs : List (Option (Cursor L))) :
    inner? kind (subs.map (Option.map (Cursor.map f)))
      = (inner? kind subs).map (Cursor.map f) := by
  cases kind with
  | openParen => exact group?_map _ subs
  | doubleQuote => exact group?_map _ subs
  | or => exact congrArg some (alternatives_map subs)
  | not => exact exclusion?_map subs
  | _ => rfl

end Nodes

section Trees

variable {S L S' L' : Type} [Source S L] [Source S' L'] {f : L → L'} {compiler : Compiler S L}
  {compiler' : Compiler S' L'}

theorem leaf?_map (h : compiler.Replaces f compiler') (token : Token) :
    compiler'.leaf? token = (compiler.leaf? token).map (Cursor.map f) := by
  unfold leaf?
  rw [h.hook]
  cases compiler.hook token with
  | some c => rfl
  | none =>
    simp only [Option.map_none]
    by_cases hnull : token.kind = .null
    · simp only [if_pos hnull, Option.map_none]
    · simp only [if_neg hnull]
      rcases token.attrs with _ | ⟨attr, _ | ⟨attr', rest⟩⟩
      · cases stem? token.text with
        | none => exact congrArg some (h.cursor _)
        | some stem => exact congrArg some (h.stemCursor stem)
      · exact congrArg some (h.cursor _)
      · simp [Cursor.unionOf, Cursor.map, h.cursor]

mutual

theorem token?_map (h : compiler.Replaces f compiler') (depth : Nat) : (token : Token) →
    compiler'.token? depth token = (compiler.token? depth token).map (Cursor.map f)
  | ⟨kind, text, action, noParams, attrs, modifiers, children⟩ => by
    simp only [token?, h.settings]
    by_cases hdepth : compiler.settings.maxDepth < depth
    · simp only [if_pos hdepth, Option.map_none]
    · simp only [if_neg hdepth]
      cases children.isEmpty with
      | true => exact leaf?_map h _
      | false =>
        simp only [Bool.false_eq_true, if_false]
        rw [tokens?_map h (depth + 1) children, inner?_map]

theorem tokens?_map (h : compiler.Replaces f compiler') (depth : Nat) : (tokens : List Token) →
    token?.tokens? compiler' depth tokens
      = (token?.tokens? compiler depth tokens).map (Option.map (Cursor.map f))
  | [] => rfl
  | token :: rest => by
    simp only [token?.tokens?, List.map_cons, token?_map h depth token, tokens?_map h depth rest]

end

/-- **Replacing the leaves of a source replaces those of every compiled cursor.** -/
theorem query_map (h : compiler.Replaces f compiler') (query : Query) :
    compiler'.query query = (compiler.query query).map f := by
  unfold Compiler.query tree
  cases query.root with
  | none => rfl
  | some root =>
    simp only [Option.bind_some, token?_map h 0 root]
    cases compiler.token? 0 root <;> rfl

end Trees
end Compiler

end InvertedIndex
