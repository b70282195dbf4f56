import InvertedIndex.Proofs.Query.Scan
import InvertedIndex.Query.Lexicon

/-!
# `Proofs.Query.Lexicon` — a lexicon with one entry

A line `name normal expression` gives the name of an expression to its tree. The lexicon that holds
only this entry then lets every token through, and shows the tree in the place of each word that is
the name.

## Contents
- `Text.splitField?_append`, `Text.trimStart_cons`: fields off the front of a line;
- `Definition`, `Lexicon.add_line`: the entry on a line; `Lexicon.Holds`: what is found afterwards;
- `Leaf.Names`: the leaves that are the name; `Lexicon.Holds.shown`, `Lexicon.Holds.grafting`: what
  the resolver does to leaves.
-/

namespace InvertedIndex

/-! ## Fields -/

namespace Text

theorem splitField?_append {field : List Char} (h : ∀ c ∈ field, isFieldBreak c = false)
    (rest : List Char) : splitField? (field ++ ' ' :: rest) = some (field, rest) := by
  induction field with
  | nil => rfl
  | cons c more ih =>
    obtain ⟨hc, hmore⟩ := List.forall_mem_cons.1 h
    simp [splitField?, hc, ih hmore]

theorem trimStart_cons {c : Char} (h : isBlank c = false) (rest : List Char) :
    trimStart (c :: rest) = c :: rest := by
  simp [trimStart, h]

end Text

open Grammar

/-- A word has no character that ends a field. -/
theorem Grammar.Word.isFieldBreak_eq_false (word : Word) :
    ∀ c ∈ word.characters, Text.isFieldBreak c = false := by
  intro c hc
  have hvisible : 0x20 < c.toNat := Word.visible hc
  rw [Bool.eq_false_iff]
  intro hbreak
  simp only [Text.isFieldBreak, Bool.or_eq_true, decide_eq_true_eq] at hbreak
  rcases hbreak with (((rfl | rfl) | rfl) | rfl) | rfl <;> simp at hvisible

/-! ## Adding an entry -/

/-- A name and the expression that it stands for. -/
structure Grammar.Definition where
  name : Word
  notOr : ¬ name.Spells ['o', 'r']
  notNot : ¬ name.Spells ['n', 'o', 't']
  /-- White space in front of a line is no part of the name. -/
  untrimmed : ∀ c ∈ name.characters.head?, Text.isBlank c = false
  expr : Request

/-- The line of an definition. -/
def Grammar.Definition.line (definition : Definition) : String :=
  definition.name.text ++ " normal " ++ definition.expr.text

namespace Lexicon

/-- **The entry on a line.** -/
theorem add_line (lexicon : Lexicon) (definition : Definition) {root : Token}
    (hroot : (Query.parse definition.expr.text).root = some root) : lexicon.add definition.line
      = .ok ⟨lexicon.entries.insert definition.name.text
        { root with action := .normal, noParams := false }⟩ := by
  have hline : Text.trimStart definition.line.toList
      = definition.name.characters ++
        ' ' :: ("normal".toList ++ ' ' :: definition.expr.text.toList) := by
    obtain ⟨c, rest, hcons⟩ := List.exists_cons_of_ne_nil definition.name.nonempty
    have hc : Text.isBlank c = false := definition.untrimmed c (by simp [hcons])
    simp only [Definition.line, String.toList_append, Word.text, String.toList_ofList, hcons,
      List.cons_append]
    rw [Text.trimStart_cons hc]
    simp
  have hfield : Text.splitField? ("normal".toList ++ ' ' :: definition.expr.text.toList)
      = some ("normal".toList, definition.expr.text.toList) :=
    Text.splitField?_append (by simp [Text.isFieldBreak]) _
  have hflag : splitFlag "normal".toList = ("normal".toList, false) := by decide
  have htrim : Text.trimStart ("normal".toList ++ ' ' :: definition.expr.text.toList)
      = "normal".toList ++ ' ' :: definition.expr.text.toList := Text.trimStart_cons (by decide) _
  rw [add, hline, Text.splitField?_append definition.name.isFieldBreak_eq_false]
  simp only [htrim, hfield, hflag, String.ofList_toList, hroot, Word.text]
  rfl

/-- The lexicon puts a tree in the place of the name, and has no other names. -/
structure Holds (lexicon : Lexicon) (definition : Definition) (root : Token) : Prop where
  found : lexicon.get? definition.name.text = some root
  others : ∀ text, text ≠ definition.name.text → lexicon.get? text = none
  action : root.action = .normal

theorem holds_single (definition : Definition) {root : Token} (haction : root.action = .normal) :
    Holds ⟨empty.entries.insert definition.name.text root⟩ definition root where
  found := Std.TreeMap.getElem?_insert_self
  others := by
    intro text htext
    have hne : compare definition.name.text text ≠ .eq := by
      intro heq
      exact htext (Std.LawfulEqCmp.eq_of_compare heq).symm
    rw [get?, Std.TreeMap.getElem?_insert, if_neg hne]
    exact Std.TreeMap.getElem?_emptyc
  action := haction

end Lexicon

/-! ## The resolver -/

/-- Whether a leaf is the word. -/
def Grammar.Leaf.Names (name : Word) : Leaf → Prop
  | .word w _ _ => w.characters = name.characters
  | _ => False

instance (name : Word) (leaf : Leaf) : Decidable (leaf.Names name) :=
  match leaf with
  | .word w _ _ => inferInstanceAs (Decidable (w.characters = name.characters))
  | .stem _ | .named _ _ | .listed _ _ _ => inferInstanceAs (Decidable False)

/-- A text with a character that no word has is not that of the word. -/
theorem Grammar.Word.ofList_ne_text {name : Word} {characters : List Char} {c : Char}
    (hc : c ∈ characters) (hclass : CharClass.of c ≠ .word) :
    String.ofList characters ≠ name.text := by
  intro h
  rw [Word.text, String.ofList_inj] at h
  exact hclass (name.plain c (h ▸ hc))

theorem Grammar.Word.singleton_ne_text {name : Word} {c : Char} (hclass : CharClass.of c ≠ .word) :
    String.singleton c ≠ name.text :=
  Word.ofList_ne_text (List.mem_singleton.2 rfl) hclass

/-- A leaf is shown as the text of the word just if it is the word. -/
theorem Grammar.Leaf.text_eq_iff (name : Word) (leaf : Leaf) :
    leaf.token.text = name.text ↔ leaf.Names name := by
  have hstar : CharClass.of '*' ≠ .word := by decide
  have hcolon : CharClass.of ':' ≠ .word := by decide
  cases leaf with
  | word w _ _ => exact String.ofList_inj
  | stem s => exact iff_of_false (Word.ofList_ne_text (by simp) hstar) id
  | named n value => exact iff_of_false (Word.ofList_ne_text (by simp) hcolon) id
  | listed n value more => exact iff_of_false (Word.ofList_ne_text (by simp) hcolon) id

namespace Lexicon.Holds

variable {lexicon : Lexicon} {definition : Definition} {root : Token}

theorem shown_other (h : lexicon.Holds definition root) {token : Token}
    (htext : token.text ≠ definition.name.text) : lexicon.resolver.shown token = token := by
  have hnone : (lexicon.resolver token.text token.attrs).substitute = none := by
    simp only [resolver, h.others _ htext]
    split <;> rfl
  rw [Resolver.shown, hnone]

/-- The tree is put in the place of the name alone. -/
theorem shown (h : lexicon.Holds definition root) (leaf : Leaf) :
    leaf.shown lexicon.resolver = if leaf.Names definition.name then root else leaf.token := by
  split
  next hnames =>
    have hattrs : leaf.token.attrs = [] := by
      cases leaf with
      | word w _ _ => rfl
      | _ => exact absurd hnames id
    have hfound := h.found
    rw [← (leaf.text_eq_iff definition.name).2 hnames] at hfound
    unfold Leaf.shown Resolver.shown resolver
    simp only [hfound, hattrs]
    rfl
  next hnames =>
    exact h.shown_other fun htext => hnames ((leaf.text_eq_iff definition.name).1 htext)

/-- **The resolver of the lexicon** puts trees in the place of leaves alone. -/
theorem grafting (h : lexicon.Holds definition root) (hroot : root.Settled) :
    Grafting lexicon.resolver where
  keeps := by
    intro text
    by_cases htext : text = definition.name.text
    · subst htext
      simp [resolver, h.found, h.action]
    · simp only [resolver, h.others text htext]
      split <;> simp
  leaf := by
    intro leaf
    rw [h.shown]
    split
    · exact hroot
    · exact leaf.token_settled
  other := by
    intro lexeme hlexeme
    apply h.shown_other
    cases lexeme with
    | leaf l => exact absurd rfl (hlexeme l)
    | opening => exact Word.singleton_ne_text (c := '(') (by decide)
    | closing => exact Word.singleton_ne_text (c := ')') (by decide)
    | negation n =>
      intro htext
      have hsame : n.spelling.characters = definition.name.characters := String.ofList_inj.1 htext
      exact definition.notNot (by rw [Word.Spells, ← hsame]; exact n.spells)
    | separator s =>
      cases s with
      | bar => exact Word.singleton_ne_text (c := '|') (by decide)
      | word spelling spells =>
        intro htext
        have hsame : spelling.characters = definition.name.characters := String.ofList_inj.1 htext
        exact definition.notOr (by rw [Word.Spells, ← hsame]; exact spells)

end Lexicon.Holds

end InvertedIndex
