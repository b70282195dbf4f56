import InvertedIndex.Proofs.Catalog
import InvertedIndex.Proofs.Cursor.Algebra
import InvertedIndex.Proofs.Query.Nodes

/-!
# `Proofs.Query.Meaning` — what a compiled token goes through

A compilation turns a tree of tokens into a cursor, or into none where nothing can match. Either way
the outcome **denotes** a set of documents: none denotes the empty set, and a cursor the ids that it
goes through, as those of a set expression. Each node of a tree combines the sets of its children, as
long as the tree is not too deep.

## Contents
- `Denotes`: the set of a cursor, or of none; `SetExpr.compositional`: nodes of a tree;
- `Token.depth`: the depth of a tree; `Compiler.Means`: what a tree means at any depth that fits;
- `Means.paren`, `Means.eitherOf`, `Means.exclusion`: trees from their children;
- `Compiler.RunMeans`: what tokens side by side mean.
-/

namespace InvertedIndex

/-! ## Sets of cursors -/

/-- The cursor is that of a set expression. -/
def SetExpr.Visits {L : Type} [IdStream L] (c : Cursor L) (set : Set DocId) : Prop :=
  ∃ e : SetExpr L, e.cursor = c ∧ e.denote = set

/-- The documents of a cursor as those of a set expression; none has none. -/
abbrev Denotes {L : Type} [IdStream L] : Option (Cursor L) → Set DocId → Prop :=
  Yields SetExpr.Visits

section Nodes

variable {L : Type} [IdStream L]

theorem Denotes.expr (e : SetExpr L) : Denotes (some e.cursor) e.denote := .cursor ⟨e, rfl, rfl⟩

theorem SetExpr.cursors_eq (subs : List (SetExpr L)) :
    cursor.cursors subs = subs.map SetExpr.cursor := by
  induction subs with
  | nil => rfl
  | cons e rest ih => rw [cursor.cursors, ih, List.map_cons]

theorem SetExpr.exists_exprs {subs : List (Cursor L)} {sets : List (Set DocId)}
    (h : List.Forall₂ SetExpr.Visits subs sets) :
    ∃ es : List (SetExpr L), es.map SetExpr.cursor = subs ∧ es.map SetExpr.denote = sets := by
  induction h with
  | nil => exact ⟨[], rfl, rfl⟩
  | cons he _ ih =>
    obtain ⟨e, rfl, rfl⟩ := he
    obtain ⟨es, rfl, rfl⟩ := ih
    exact ⟨e :: es, rfl, rfl⟩

/-- Set expressions are composed as cursors are. -/
theorem SetExpr.compositional : Compositional (SetExpr.Visits (L := L)) where
  empty := ⟨.empty, rfl, rfl⟩
  of_kind := by
    rintro _ _ ⟨e, rfl, rfl⟩ hkind
    cases e with
    | empty => rfl
    | union kind subs => cases kind <;> cases hkind
    | _ => cases hkind
  inter := by
    intro subs sets h hne
    obtain ⟨es, rfl, rfl⟩ := exists_exprs h
    refine ⟨.inter es, congrArg Cursor.interOf (cursors_eq es), ?_⟩
    ext id
    rw [mem_inter, and_iff_right (by simpa using hne)]
    simp
  union := by
    intro kind subs sets h
    obtain ⟨es, rfl, rfl⟩ := exists_exprs h
    refine ⟨.union kind es, congrArg (Cursor.unionOf kind) (cursors_eq es), ?_⟩
    ext id
    refine mem_join.trans ?_
    simp
  diff := by
    rintro _ _ _ _ ⟨k, rfl, rfl⟩ ⟨d, rfl, rfl⟩
    exact ⟨.diff k d, rfl, rfl⟩

/-- The ids that a cursor goes through depend on its set alone. -/
theorem Denotes.ids_eq {c : Cursor L} {set : Set DocId} (h : Denotes (some c) set) :
    IdStream.ids c = (IdList.ofSet set).toList := by
  obtain ⟨e, rfl, rfl⟩ := h.visits
  exact e.obeys.ids_eq

/-- They are those of its set, in order. -/
theorem Denotes.ids {c : Cursor L} {set : Set DocId} (h : Denotes (some c) set) :
    (IdStream.ids c).Pairwise (· < ·) ∧ ∀ id, id ∈ IdStream.ids c ↔ id ∈ set := by
  rw [h.ids_eq]
  refine ⟨(IdList.ofSet set).ascending, ?_⟩
  obtain ⟨e, rfl, rfl⟩ := h.visits
  intro id
  rw [← IdList.mem_def]
  exact e.mem_ofSet_denote

end Nodes

/-! ## Trees -/

/-- The depth of a tree: how far its deepest token lies below the token itself. -/
def Token.depth : Token → Nat
  | ⟨_, _, _, _, _, _, children⟩ => depths children
where
  /-- How far the deepest token of several trees lies below their parent. -/
  depths : List Token → Nat
    | [] => 0
    | token :: rest => max (token.depth + 1) (depths rest)

theorem Token.depth_lt {token child : Token} (h : child ∈ token.children) :
    child.depth < token.depth := by
  have hdepths (children : List Token) (h : child ∈ children) :
      child.depth + 1 ≤ depth.depths children := by
    induction children with
    | nil => cases h
    | cons first rest ih =>
      rw [depth.depths]
      rcases List.mem_cons.1 h with rfl | hrest
      · exact Nat.le_max_left _ _
      · exact (ih hrest).trans (Nat.le_max_right _ _)
  obtain ⟨⟩ := token
  exact hdepths _ h

namespace Compiler

variable {S L : Type} [Source S L] {compiler : Compiler S L}

theorem tokens?_eq (compiler : Compiler S L) (depth : Nat) (tokens : List Token) :
    token?.tokens? compiler depth tokens = tokens.map (compiler.token? depth) := by
  induction tokens with
  | nil => rfl
  | cons token rest ih => rw [token?.tokens?, ih, List.map_cons]

theorem token?_leaf {token : Token} {depth : Nat} (hdepth : depth ≤ compiler.settings.maxDepth)
    (hbare : token.children = []) : compiler.token? depth token = compiler.leaf? token := by
  obtain ⟨kind, text, action, noParams, attrs, modifiers, children⟩ := token
  obtain rfl : children = [] := hbare
  rw [token?, if_neg (Nat.not_lt.2 hdepth)]
  rfl

theorem token?_node {token : Token} {depth : Nat} (hdepth : depth ≤ compiler.settings.maxDepth)
    (hne : token.children ≠ []) : compiler.token? depth token
      = inner? token.kind (token.children.map (compiler.token? (depth + 1))) := by
  obtain ⟨kind, text, action, noParams, attrs, modifiers, children⟩ := token
  have hempty : children.isEmpty = false := by simpa using hne
  rw [token?, if_neg (Nat.not_lt.2 hdepth), hempty, tokens?_eq]
  rfl

/-- Wherever a tree fits, it compiles to the same. -/
theorem token?_fits {depth depth' : Nat} (token : Token)
    (h : depth + token.depth ≤ compiler.settings.maxDepth)
    (h' : depth' + token.depth ≤ compiler.settings.maxDepth) :
    compiler.token? depth token = compiler.token? depth' token := by
  rcases eq_or_ne token.children [] with hbare | hne
  · rw [token?_leaf (by omega) hbare, token?_leaf (by omega) hbare]
  · rw [token?_node (by omega) hne, token?_node (by omega) hne]
    refine congrArg (inner? token.kind) (List.map_congr_left fun child hchild => ?_)
    have hlt := Token.depth_lt hchild
    exact token?_fits child (by omega) (by omega)
termination_by token.depth

variable [IdStream L]

/-- Wherever a tree fits, it compiles to what denotes the set. -/
def Means (compiler : Compiler S L) (token : Token) (set : Set DocId) : Prop :=
  ∀ depth, depth + token.depth ≤ compiler.settings.maxDepth →
    Denotes (compiler.token? depth token) set

/-- What the children of a tree that fits compile to. -/
theorem Means.children {token : Token} {sets : List (Set DocId)} {depth : Nat}
    (h : List.Forall₂ compiler.Means token.children sets)
    (hdepth : depth + token.depth ≤ compiler.settings.maxDepth) :
    List.Forall₂ Denotes (token.children.map (compiler.token? (depth + 1))) sets := by
  have hfits : ∀ child ∈ token.children, depth + 1 + child.depth ≤ compiler.settings.maxDepth := by
    intro child hchild
    have := Token.depth_lt hchild
    omega
  generalize token.children = children at h hfits ⊢
  induction h with
  | nil => exact .nil
  | cons hchild _ ih =>
    obtain ⟨hfits', hrest⟩ := List.forall_mem_cons.1 hfits
    exact .cons (hchild _ hfits') (ih hrest)

section Nodes

variable {tokens : List Token} {sets : List (Set DocId)}

/-- Parentheses mean what all tokens in them do. -/
theorem Means.paren (h : List.Forall₂ compiler.Means tokens sets) (hne : tokens ≠ []) :
    compiler.Means (Token.paren tokens) {id | ∀ set ∈ sets, id ∈ set} := by
  intro depth hdepth
  have hsets : sets ≠ [] := by
    rintro rfl
    exact hne (List.forall₂_nil_right_iff.1 h)
  rw [token?_node (by omega) hne]
  exact group?_yields SetExpr.compositional (Means.children h hdepth) hsets

/-- Alternatives mean what any of them does. -/
theorem Means.eitherOf (h : List.Forall₂ compiler.Means tokens sets) (hne : tokens ≠ []) :
    compiler.Means { kind := .or, text := "or", children := tokens }
      {id | ∃ set ∈ sets, id ∈ set} := by
  intro depth hdepth
  rw [token?_node (by omega) hne]
  exact .cursor (alternatives_visits SetExpr.compositional (Means.children h hdepth))

/-- An exclusion means what the kept token does, less what the dropped one does. -/
theorem Means.exclusion {dropped kept : Token} {droppedSet keptSet : Set DocId}
    (hdropped : compiler.Means dropped droppedSet) (hkept : compiler.Means kept keptSet) :
    compiler.Means { kind := .not, text := "not", children := [dropped, kept] }
      (keptSet \ droppedSet) := by
  intro depth hdepth
  have hchildren := Means.children (.cons hdropped (.cons hkept .nil)) hdepth
  rw [token?_node (by omega) (List.cons_ne_nil _ _)]
  exact exclusion?_yields SetExpr.compositional hchildren

end Nodes

/-! ## Tokens side by side -/

/-- Tokens side by side, at least one, that together mean what all of them do. -/
structure RunMeans (compiler : Compiler S L) (tokens : List Token) (set : Set DocId) : Prop where
  nonempty : tokens ≠ []
  means : ∃ sets, List.Forall₂ compiler.Means tokens sets ∧ set = {id | ∀ s ∈ sets, id ∈ s}

namespace RunMeans

variable {tokens : List Token} {set : Set DocId}

/-- In parentheses they mean the same. -/
theorem paren (h : compiler.RunMeans tokens set) : compiler.Means (Token.paren tokens) set := by
  obtain ⟨hne, sets, hsets, rfl⟩ := h
  exact Means.paren hsets hne

/-- A single token means the same by itself. -/
theorem single {token : Token} : compiler.RunMeans [token] set ↔ compiler.Means token set := by
  have hone (s : Set DocId) : {id | ∀ t ∈ [s], id ∈ t} = s := by
    ext id
    simp
  constructor
  · rintro ⟨-, sets, hsets, rfl⟩
    cases hsets with
    | cons htoken hrest =>
      cases hrest
      rwa [hone]
  · intro h
    exact ⟨List.cons_ne_nil _ _, [set], .cons h .nil, (hone set).symm⟩

/-- As one token they mean the same. -/
theorem ofRun (h : compiler.RunMeans tokens set) : compiler.Means (Token.ofRun tokens) set := by
  rcases tokens with _ | ⟨token, _ | ⟨other, rest⟩⟩
  · exact absurd rfl h.nonempty
  · exact single.1 h
  · exact h.paren

end RunMeans

end Compiler
end InvertedIndex
