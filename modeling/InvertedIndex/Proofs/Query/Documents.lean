import InvertedIndex.Proofs.Query.Meaning
import InvertedIndex.Proofs.Query.Vocabulary
import InvertedIndex.Proofs.Corpus

/-!
# `Proofs.Query.Documents` — the documents that a token tree asks for

A source shows an answer for every term and every stem. From these the documents that a tree asks for
follow by recursion over the tree, whether it was read from a query or not: leaves ask for terms,
groups for what all their members ask for, and so on, down to the greatest depth. Quoted groups look
at the windows of their compiled members. Compiling a tree yields a cursor that goes through exactly
those documents, so no shortcut that the compiler takes for what cannot match changes the set.

## Contents
- `Vocabulary.leafSet`, `Compiler.documents`: the documents that a leaf and a tree ask for;
- `documents_node`, `mem_documents_ofRun`: those of a token with children, and of a run as one token;
- `stem?_eq_some_iff`: the texts that stand for a stem;
- `Answer.compositional`: answers are composed as cursors are;
- `Compiler.token?_yields`: what a compiled token goes through; `Compiler.tree_visits`,
  `Compiler.tree_ids`: whole trees.
-/

namespace InvertedIndex

/-! ## What trees ask for -/

/-- The documents that a leaf asks for: those of the terms that its attribute values name; without
    any, those of the stem before a star at the end of its text, if it is not empty, and else those
    of its text. A `null` leaf asks for none. -/
def Vocabulary.leafSet (vocabulary : Vocabulary) (token : Token) : Set DocId :=
  if token.kind = .null then ∅
  else if token.attrs ≠ [] then
    {id | ∃ attr ∈ token.attrs, id ∈ (vocabulary.term (token.text ++ attr)).ids}
  else
    {id | (∃ stem ≠ "", token.text = stem ++ "*" ∧ id ∈ (vocabulary.stem stem).ids) ∨
      ((∀ stem ≠ "", token.text ≠ stem ++ "*") ∧ id ∈ (vocabulary.term token.text).ids)}

/-- The positions that a compiled token shows in a document. -/
def Cursor.placesIn {L : Type} [IdStream L] (c : Option (Cursor L)) (id : DocId) : Set Position :=
  {p | ∃ cursor ∈ c, ∃ window, (id, window) ∈ IdStream.hits cursor ∧ p ∈ window}

/-- The documents that a tree asks for. The members of a quoted group have consecutive positions there
    in the windows that they show once compiled. -/
def Compiler.documents {S L : Type} [Source S L] [IdStream L] (compiler : Compiler S L)
    (vocabulary : Vocabulary) (depth : Nat) : Token → Set DocId
  | ⟨kind, text, action, noParams, attrs, modifiers, children⟩ =>
    if compiler.settings.maxDepth < depth then ∅
    else if children.isEmpty then
      vocabulary.leafSet ⟨kind, text, action, noParams, attrs, modifiers, []⟩
    else nodeSet kind (sets (depth + 1) children) fun id => ∃ start,
      Consecutive start (children.map fun child => Cursor.placesIn (compiler.token? (depth + 1) child) id)
where
  /-- The documents that each of several trees asks for. -/
  sets (depth : Nat) : List Token → List (Set DocId)
    | [] => []
    | token :: rest => compiler.documents vocabulary depth token :: sets depth rest

/-! ## Tokens with children -/

namespace Compiler

variable {S L : Type} [Source S L] [IdStream L] {compiler : Compiler S L} {vocabulary : Vocabulary}
  {depth : Nat}

theorem sets_eq (tokens : List Token) : documents.sets compiler vocabulary depth tokens
    = tokens.map (compiler.documents vocabulary depth) := by
  induction tokens with
  | nil => rfl
  | cons token rest ih => rw [documents.sets, ih, List.map_cons]

/-- Below the greatest depth a tree asks for nothing. -/
theorem documents_below {token : Token} (h : compiler.settings.maxDepth < depth) :
    compiler.documents vocabulary depth token = ∅ := by
  obtain ⟨⟩ := token
  rw [documents, if_pos h]

theorem documents_node {token : Token} (h : depth ≤ compiler.settings.maxDepth)
    (hne : token.children ≠ []) : compiler.documents vocabulary depth token
      = nodeSet token.kind (token.children.map (compiler.documents vocabulary (depth + 1)))
          fun id => ∃ start, Consecutive start (token.children.map fun child =>
            Cursor.placesIn (compiler.token? (depth + 1) child) id) := by
  obtain ⟨kind, text, action, noParams, attrs, modifiers, children⟩ := token
  have hempty : children.isEmpty = false := by simpa using hne
  rw [documents, if_neg (Nat.not_lt.2 h), hempty, sets_eq]
  rfl

theorem documents_leaf {token : Token} (h : depth ≤ compiler.settings.maxDepth)
    (hbare : token.children = []) :
    compiler.documents vocabulary depth token = vocabulary.leafSet token := by
  obtain ⟨kind, text, action, noParams, attrs, modifiers, children⟩ := token
  obtain rfl : children = [] := hbare
  rw [documents, if_neg (Nat.not_lt.2 h)]
  rfl

/-- Wherever a tree fits, it asks for the same. -/
theorem documents_fits {depth depth' : Nat} (token : Token)
    (h : depth + token.depth ≤ compiler.settings.maxDepth)
    (h' : depth' + token.depth ≤ compiler.settings.maxDepth) :
    compiler.documents vocabulary depth token = compiler.documents vocabulary depth' token := by
  rcases eq_or_ne token.children [] with hbare | hne
  · rw [documents_leaf (by omega) hbare, documents_leaf (by omega) hbare]
  · -- The induction is on the depth: every child is less deep, and so it fits one level further.
    have hsets : ∀ child ∈ token.children, compiler.documents vocabulary (depth + 1) child
        = compiler.documents vocabulary (depth' + 1) child := by
      intro child hchild
      have hlt := Token.depth_lt hchild
      exact documents_fits child (by omega) (by omega)
    have hcursors : ∀ child ∈ token.children,
        compiler.token? (depth + 1) child = compiler.token? (depth' + 1) child := by
      intro child hchild
      have hlt := Token.depth_lt hchild
      exact token?_fits child (by omega) (by omega)
    have hplaces (id : DocId) : (token.children.map fun child =>
          Cursor.placesIn (compiler.token? (depth + 1) child) id)
        = token.children.map fun child =>
          Cursor.placesIn (compiler.token? (depth' + 1) child) id :=
      List.map_congr_left fun child hchild => by rw [hcursors child hchild]
    rw [documents_node (by omega) hne, documents_node (by omega) hne, List.map_congr_left hsets]
    simp only [hplaces]
termination_by token.depth

/-- Parentheses ask for what all tokens in them do. -/
theorem mem_documents_paren {tokens : List Token} (hne : tokens ≠ []) {id : DocId} :
    id ∈ compiler.documents vocabulary depth (Token.paren tokens)
      ↔ ∀ token ∈ tokens, id ∈ compiler.documents vocabulary (depth + 1) token := by
  rcases Nat.lt_or_ge compiler.settings.maxDepth depth with hbelow | hdepth
  · -- What stands in them lies deeper still, and there is at least one token.
    obtain ⟨token, rest, rfl⟩ := List.exists_cons_of_ne_nil hne
    rw [documents_below hbelow]
    refine iff_of_false (Set.notMem_empty id) fun hall => ?_
    have hfirst := hall token List.mem_cons_self
    rw [documents_below (by omega)] at hfirst
    exact hfirst
  · rw [documents_node hdepth hne]
    simp [nodeSet, Token.paren]

/-- How many levels lie between several tokens and the one that stands for all of them. -/
def levels (tokens : List Token) : Nat := if tokens.length = 1 then 0 else 1

/-- A run as one token asks for what all its tokens do. -/
theorem mem_documents_ofRun {tokens : List Token} (hne : tokens ≠ []) {id : DocId} :
    id ∈ compiler.documents vocabulary depth (Token.ofRun tokens)
      ↔ ∀ token ∈ tokens, id ∈ compiler.documents vocabulary (depth + levels tokens) token := by
  match tokens, hne with
  | [token], _ => simp [Token.ofRun, levels]
  | first :: second :: rest, hne => exact mem_documents_paren hne

end Compiler

/-! ## Answers as sets -/

namespace Answer

variable {L : Type} [IdStream L]

/-- The cursor shows an answer with the documents. -/
def Visits (c : Cursor L) (set : Set DocId) : Prop :=
  ∃ answer : Answer, answer.Shows c ∧ answer.ids.toSet = set

theorem Shows.visits {answer : Answer} {c : Cursor L} (h : answer.Shows c) :
    Visits c answer.ids.toSet := ⟨answer, h, rfl⟩

theorem exists_answers {subs : List (Cursor L)} {sets : List (Set DocId)}
    (h : List.Forall₂ Visits subs sets) : ∃ answers : List Answer,
      List.Forall₂ (fun answer c => answer.Shows c) answers subs ∧
        answers.map (fun answer => answer.ids.toSet) = sets := by
  induction h with
  | nil => exact ⟨[], .nil, rfl⟩
  | cons hvisits _ ih =>
    obtain ⟨answer, hshows, rfl⟩ := hvisits
    obtain ⟨answers, hall, rfl⟩ := ih
    exact ⟨answer :: answers, .cons hshows hall, rfl⟩

/-- A cursor that shows an answer goes through its documents in ascending order. -/
theorem Visits.ids {c : Cursor L} {set : Set DocId} (h : Visits c set) :
    (IdStream.ids c).Pairwise (· < ·) ∧ ∀ id, id ∈ IdStream.ids c ↔ id ∈ set := by
  obtain ⟨answer, hshows, rfl⟩ := h
  rw [hshows.obeys.ids_eq]
  exact ⟨answer.ids.ascending, fun id => Iff.rfl⟩

/-- The empty cursor shows nothing. -/
theorem Shows.ids_empty {answer : Answer} (h : answer.Shows (.empty : Cursor L)) :
    answer.ids.toSet = ∅ := Cursor.toSet_of_obeys_empty h.obeys

/-- **Answers are composed as cursors are.** -/
theorem compositional : Compositional (Visits (L := L)) where
  empty := ⟨ofIds ∅, shows_empty, (shows_empty (L := L)).ids_empty⟩
  of_kind := by
    rintro c _ ⟨answer, hshows, rfl⟩ hkind
    cases c with
    | empty => exact hshows.ids_empty
    | union kind subs phase => cases kind <;> cases hkind
    | _ => cases hkind
  inter := by
    intro subs sets h hne
    obtain ⟨answers, hall, rfl⟩ := exists_answers h
    refine ⟨_, shows_inter hall, ?_⟩
    ext id
    rw [IdList.mem_toSet, mem_inter, and_iff_right (by simpa using hne)]
    simp
  union := by
    intro kind subs sets h
    obtain ⟨answers, hall, rfl⟩ := exists_answers h
    refine ⟨_, shows_union hall kind, ?_⟩
    ext id
    rw [IdList.mem_toSet, mem_union]
    simp
  diff := by
    rintro k d _ _ ⟨kept, hkept, rfl⟩ ⟨dropped, hdropped, rfl⟩
    refine ⟨_, shows_diff hkept hdropped, ?_⟩
    ext id
    rw [IdList.mem_toSet, mem_diff]
    exact Iff.rfl

end Answer

/-- Postings that a corpus was inserted into show its vocabulary. -/
theorem Corpus.exists_source (corpus : Corpus) : ∃ postings,
    Postings.empty.insertAll corpus.mentions = .ok postings ∧
      Source.Shows postings corpus.contents.vocabulary := by
  obtain ⟨postings, hpostings, hshows⟩ := corpus.insertAll_shows
  have hasc : corpus.contents.Ascending := by
    rintro term - hit ⟨mention, -, -, rfl⟩
    exact Window.ofPositions_ascending mention.positions
  exact ⟨postings, hpostings, hshows.source_shows hasc postings.catalog_serves⟩

/-! ## Leaves -/

/-- A text stands for a stem if it is the stem with a star behind it. -/
theorem stem?_eq_some_iff {text stem : String} :
    stem? text = some stem ↔ stem ≠ "" ∧ text = stem ++ "*" := by
  have hstar : ("*" : String).toList = ['*'] := rfl
  unfold stem?
  simp only
  constructor
  · intro h
    -- The last character is the star, and it is not the only one.
    split at h
    next hends =>
      obtain ⟨hlast, hlength⟩ := hends
      obtain rfl := Option.some.inj h
      have htext : text.toList = text.toList.dropLast ++ ['*'] :=
        (List.dropLast_append_getLast? '*' hlast).symm
      refine ⟨?_, ?_⟩
      · intro hempty
        have hnil : text.toList.dropLast = [] := by simpa using hempty
        rw [htext, hnil] at hlength
        exact hlength rfl
      · rw [← String.toList_inj, String.toList_append, String.toList_ofList, hstar]
        exact htext
    next => cases h
  · rintro ⟨hne, rfl⟩
    have hne' : stem.toList ≠ [] := by simpa using hne
    simp only [String.toList_append, hstar]
    rw [if_pos ⟨by simp, by simpa using hne'⟩, List.dropLast_concat, String.ofList_toList]

namespace Compiler

variable {S L : Type} [Source S L] [IdStream L] {compiler : Compiler S L} {vocabulary : Vocabulary}

/-- Without attributes, a leaf asks for a stem or for a term. -/
theorem text_visits (h : Source.Shows compiler.source vocabulary) (text : String) :
    Answer.Visits (match stem? text with
        | some stem => Source.stemCursor compiler.source stem
        | none => Source.cursor compiler.source text)
      {id | (∃ stem ≠ "", text = stem ++ "*" ∧ id ∈ (vocabulary.stem stem).ids) ∨
        ((∀ stem ≠ "", text ≠ stem ++ "*") ∧ id ∈ (vocabulary.term text).ids)} := by
  -- A text is read as a stem in one way at most, so one of the two alternatives is left.
  cases hstem : stem? text with
  | some stem =>
    have htext := stem?_eq_some_iff.1 hstem
    have hset : {id | (∃ stem ≠ "", text = stem ++ "*" ∧ id ∈ (vocabulary.stem stem).ids) ∨
        ((∀ stem ≠ "", text ≠ stem ++ "*") ∧ id ∈ (vocabulary.term text).ids)}
        = (vocabulary.stem stem).ids.toSet := by
      ext id
      constructor
      · rintro (⟨other, hne, hother, hid⟩ | ⟨hnone, -⟩)
        · obtain rfl : stem = other :=
            Option.some.inj (hstem.symm.trans (stem?_eq_some_iff.2 ⟨hne, hother⟩))
          exact hid
        · exact absurd htext.2 (hnone stem htext.1)
      · intro hid
        exact .inl ⟨stem, htext.1, htext.2, hid⟩
    rw [hset]
    exact (h.stemCursor stem).visits
  | none =>
    have hnone (stem : String) (hne : stem ≠ "") : text ≠ stem ++ "*" := by
      intro htext
      rw [stem?_eq_some_iff.2 ⟨hne, htext⟩] at hstem
      cases hstem
    have hset : {id | (∃ stem ≠ "", text = stem ++ "*" ∧ id ∈ (vocabulary.stem stem).ids) ∨
        ((∀ stem ≠ "", text ≠ stem ++ "*") ∧ id ∈ (vocabulary.term text).ids)}
        = (vocabulary.term text).ids.toSet := by
      ext id
      constructor
      · rintro (⟨stem, hne, htext, -⟩ | ⟨-, hid⟩)
        · exact absurd htext (hnone stem hne)
        · exact hid
      · intro hid
        exact .inr ⟨hnone, hid⟩
    rw [hset]
    exact (h.cursor text).visits

/-- Attributes ask for any of the terms that they name. -/
theorem attrs_visit (h : Source.Shows compiler.source vocabulary) (text : String)
    (attrs : List String) : List.Forall₂ Answer.Visits
      (attrs.map fun attr => Source.cursor compiler.source (text ++ attr))
      (attrs.map fun attr => (vocabulary.term (text ++ attr)).ids.toSet) :=
  visits_items fun attr _ => (h.cursor (text ++ attr)).visits

/-- A leaf that is left to the compiler goes through the documents that it asks for. -/
theorem leaf?_yields (h : Source.Shows compiler.source vocabulary) {token : Token}
    (hhook : compiler.hook token = none) :
    Yields Answer.Visits (compiler.leaf? token) (vocabulary.leafSet token) := by
  unfold leaf? Vocabulary.leafSet
  rw [hhook]
  by_cases hnull : token.kind = .null
  · simp only [if_pos hnull]
    exact .nothing
  · simp only [if_neg hnull]
    have htext := text_visits h token.text
    have hattrs := attrs_visit h token.text token.attrs
    -- The compiler unites the terms only if there are several of them.
    match token.attrs, hattrs with
    | [], _ =>
      rw [if_neg (not_not_intro rfl)]
      cases hstem : stem? token.text with
      | some stem =>
        simp only [hstem] at htext ⊢
        exact .cursor htext
      | none =>
        simp only [hstem] at htext ⊢
        exact .cursor htext
    | [attr], .cons hattr .nil =>
      have hone : {id | ∃ other ∈ [attr], id ∈ (vocabulary.term (token.text ++ other)).ids}
          = (vocabulary.term (token.text ++ attr)).ids.toSet := by
        ext id
        simp
      rw [if_pos (List.cons_ne_nil _ _), hone]
      exact .cursor hattr
    | attr :: other :: attrs, hattrs =>
      rw [if_pos (List.cons_ne_nil _ _)]
      have hunion := Answer.compositional.union .plain hattrs
      rw [any_items] at hunion
      exact .cursor hunion

/-! ## Quoted groups -/

/-- In a document that it goes through, a cursor shows the positions of its answer. -/
theorem placesIn_eq {answer : Answer} {c : Cursor L} (h : answer.Shows c) {id : DocId}
    (hid : id ∈ answer.ids) : Cursor.placesIn (some c) id = answer.places id := by
  ext p
  constructor
  · rintro ⟨other, hother, window, hhit, hp⟩
    obtain rfl := Option.some.inj hother
    exact (h.mem_hits.1 hhit).2.mem_iff.1 hp
  · intro hp
    obtain ⟨window, hhit⟩ := h.exists_hit hid
    exact ⟨c, rfl, window, hhit, (h.mem_hits.1 hhit).2.mem_iff.2 hp⟩

/-- Where all answers have a document, their cursors show the positions that they have there. -/
theorem map_placesIn {answers : List Answer} {members : List (Cursor L)}
    (h : List.Forall₂ (fun answer c => answer.Shows c) answers members) {id : DocId}
    (hid : ∀ answer ∈ answers, id ∈ answer.ids) :
    members.map (fun c => Cursor.placesIn (some c) id) = answers.map fun answer => answer.places id := by
  induction h with
  | nil => rfl
  | cons hshows _ ih =>
    obtain ⟨hfirst, hrest⟩ := List.forall_mem_cons.1 hid
    rw [List.map_cons, List.map_cons, placesIn_eq hshows hfirst, ih hrest]

/-- A quoted group goes through the documents that all members have at consecutive positions. -/
theorem phrase_yields {subs : List (Option (Cursor L))} {sets : List (Set DocId)}
    (h : List.Forall₂ (Yields Answer.Visits) subs sets) (hne : sets ≠ []) :
    Yields Answer.Visits (group? .doubleQuote subs) {id | (∀ set ∈ sets, id ∈ set) ∧
      ∃ start, Consecutive start (subs.map fun c => Cursor.placesIn c id)} := by
  rcases members?_yields Answer.compositional h with ⟨hnone, hempty⟩ | ⟨members, hsome, hall⟩
  · have hset : {id | (∀ set ∈ sets, id ∈ set) ∧
        ∃ start, Consecutive start (subs.map fun c => Cursor.placesIn c id)} = (∅ : Set DocId) :=
      Set.eq_empty_of_forall_notMem fun id hid => hid.1 ∅ hempty
    rw [group?, hnone, hset]
    exact .nothing
  · obtain ⟨answers, hshows, rfl⟩ := Answer.exists_answers hall
    have hanswers : answers ≠ [] := by simpa using hne
    rw [group?, hsome]
    refine .cursor ⟨_, Answer.shows_phrase hshows, ?_⟩
    ext id
    rw [IdList.mem_toSet, Answer.mem_phrase, members?_eq_some hsome]
    simp only [Set.mem_ofPred_eq, List.forall_mem_map, IdList.mem_toSet, List.map_map]
    refine and_congr_right fun hid => ?_
    have hplaces := map_placesIn hshows hid
    simp only [Function.comp_def, hplaces]
    constructor
    · rintro ⟨p, -, hstart⟩
      exact ⟨p.toNat, hstart⟩
    · rintro ⟨start, hstart⟩
      -- The first answer has the number `start`, so it is a position.
      obtain ⟨first, rest, rfl⟩ := List.exists_cons_of_ne_nil hanswers
      obtain ⟨⟨p, -, rfl⟩, -⟩ := consecutive_cons.1 hstart
      exact ⟨p, hanswers, hstart⟩

/-! ## Trees -/

mutual

/-- **A compiled token goes through the documents that its tree asks for.** -/
theorem token?_yields (h : Source.Shows compiler.source vocabulary)
    (hhook : ∀ token, compiler.hook token = none) (depth : Nat) : (token : Token) →
    Yields Answer.Visits (compiler.token? depth token) (compiler.documents vocabulary depth token)
  | ⟨kind, text, action, noParams, attrs, modifiers, children⟩ => by
    rw [token?, documents]
    by_cases hdepth : compiler.settings.maxDepth < depth
    · rw [if_pos hdepth, if_pos hdepth]
      exact .nothing
    · rw [if_neg hdepth, if_neg hdepth]
      cases children with
      | nil => exact leaf?_yields h (hhook _)
      | cons child rest =>
        have hall := tokens?_yield h hhook (depth + 1) (child :: rest)
        have hne : documents.sets compiler vocabulary (depth + 1) (child :: rest) ≠ [] := nofun
        by_cases hkind : kind = .doubleQuote
        · subst hkind
          have hquoted := phrase_yields hall hne
          simp only [tokens?_eq, List.map_map] at hquoted
          rw [tokens?_eq]
          exact hquoted
        · exact inner?_yields Answer.compositional hkind _ hall hne

theorem tokens?_yield (h : Source.Shows compiler.source vocabulary)
    (hhook : ∀ token, compiler.hook token = none) (depth : Nat) : (tokens : List Token) →
    List.Forall₂ (Yields Answer.Visits) (token?.tokens? compiler depth tokens)
      (documents.sets compiler vocabulary depth tokens)
  | [] => .nil
  | token :: rest => .cons (token?_yields h hhook depth token) (tokens?_yield h hhook depth rest)

end

/-- The cursor of a tree shows an answer with the documents that the tree asks for. -/
theorem tree_visits {source : S} {vocabulary : Vocabulary} (h : Source.Shows source vocabulary)
    (settings : CompileSettings) (root : Option Token) :
    let compiler : Compiler S L := { source, settings }
    Answer.Visits (compiler.tree root)
      {id | ∃ token ∈ root, id ∈ compiler.documents vocabulary 0 token} := by
  intro compiler
  -- A missing tree asks for nothing.
  have hyields : Yields Answer.Visits (root.bind (compiler.token? 0))
      {id | ∃ token ∈ root, id ∈ compiler.documents vocabulary 0 token} := by
    cases root with
    | none =>
      have hnone : {id | ∃ token ∈ (none : Option Token), id ∈ compiler.documents vocabulary 0 token}
          = (∅ : Set DocId) := by
        ext id
        simp
      rw [hnone]
      exact .nothing
    | some token =>
      have hsome : {id | ∃ t ∈ some token, id ∈ compiler.documents vocabulary 0 t}
          = compiler.documents vocabulary 0 token := by
        ext id
        simp
      rw [hsome]
      exact token?_yields h (fun _ => rfl) 0 token
  exact hyields.getD Answer.compositional

/-- **Compiling computes the documents that a tree asks for**: over any source that shows answers, the
    cursor of any tree goes through exactly these, in ascending order. -/
theorem tree_ids {source : S} {vocabulary : Vocabulary} (h : Source.Shows source vocabulary)
    (settings : CompileSettings) (root : Option Token) :
    let compiler : Compiler S L := { source, settings }
    let found := IdStream.ids (compiler.tree root)
    found.Pairwise (· < ·) ∧
      ∀ id, id ∈ found ↔ ∃ token ∈ root, id ∈ compiler.documents vocabulary 0 token := by
  intro compiler found
  exact (tree_visits h settings root).ids

/-- The postings of `oaks`, asked for an oak right before an elm or a tree with an elm's stem. -/
theorem tree_ids_oaks : ∃ postings, Postings.empty.insertAll Corpus.oaks.mentions = .ok postings ∧
    Source.Shows postings Corpus.oaks.contents.vocabulary ∧
    let compiler : Compiler Postings Walk := { source := postings, settings := {} }
    let quoted : Token := { kind := .doubleQuote, text := "\"", children :=
      [{ kind := .word, text := "oak" }, { kind := .or, text := "or", children :=
        [{ kind := .word, text := "elm" }, { kind := .word, text := "el*" }] }] }
    let found := IdStream.ids (compiler.tree (some quoted))
    found.Pairwise (· < ·) ∧ ∀ id, id ∈ found ↔ ∃ token ∈ some quoted,
      id ∈ compiler.documents Corpus.oaks.contents.vocabulary 0 token := by
  obtain ⟨postings, hpostings, hsource⟩ := Corpus.oaks.exists_source
  exact ⟨postings, hpostings, hsource, tree_ids hsource {} _⟩

end Compiler
end InvertedIndex
