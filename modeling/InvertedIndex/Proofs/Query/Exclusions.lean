import InvertedIndex.Proofs.Query.Documents
import InvertedIndex.Proofs.Query.Precedence

/-!
# `Proofs.Query.Exclusions` — what a run with `not` tokens asks for

Read left to right, each `not` takes the token behind it as its operand, whatever that is, and the
tokens that are left are kept. A run then asks for the documents that all kept tokens have and no
operand has. A `not` at the end has no operand and should not count; it does not if there are operands
besides, but a run without any is left as it is, and then the `not` is asked for like a word.

## Contents
- `Role`, `roles`, `having`, `Dangling`: a run read left to right;
- `notParts_eq`: the parts that the pass collects; `splitNot_concat`: a `not` at the end;
- `mem_documents_splitNot`: what the rearranged run asks for;
- `rearrange_splitNot_ids`: what it finds; `dangling_not_found`: a `not` that is asked for.
-/

namespace InvertedIndex

/-! ## Roles -/

/-- What a token of a run does there. -/
inductive Role where
  /-- It is asked for. -/
  | kept
  /-- It is a `not` that takes the next token. -/
  | negation
  /-- It is taken by the `not` before it. -/
  | operand
  deriving Repr, DecidableEq

/-- The roles of tokens from left to right, the first of which may have a `not` before it. -/
def roles (negated : Bool) : List Token → List Role
  | [] => []
  | token :: rest =>
    if negated then .operand :: roles false rest
    else if token.isNot then .negation :: roles true rest
    else .kept :: roles false rest

/-- The tokens of a run that have the role. -/
def having (role : Role) (run : List Token) : List Token :=
  ((run.zip (roles false run)).filter fun entry => entry.2 = role).map Prod.fst

/-- The last token of the run is a `not` without an operand. -/
def Dangling (run : List Token) : Prop := (roles false run).getLast? = some .negation

instance (run : List Token) : Decidable (Dangling run) := by
  unfold Dangling
  infer_instance

/-- How many levels lie above the kept tokens of a run once it is rearranged. -/
def keptDepth (run : List Token) : Nat :=
  (if (having .operand run).isEmpty then 0 else 1) + Compiler.levels (having .kept run)

/-- How many levels lie above its operands. -/
def operandDepth (run : List Token) : Nat := 1 + Compiler.levels (having .operand run)

variable {run : List Token}

/-- Induction along a run by what is read at once: a token that is kept, or a `not` with its
    operand. -/
theorem roles_induct {motive : List Token → Prop} (nil : motive [])
    (kept : ∀ token rest, token.isNot = false → motive rest → motive (token :: rest))
    (dangling : ∀ token, token.isNot = true → motive [token])
    (negated : ∀ token operand rest, token.isNot = true → motive rest →
      motive (token :: operand :: rest)) : ∀ run, motive run
  | [] => nil
  | [token] => by
    cases htoken : token.isNot with
    | true => exact dangling token htoken
    | false => exact kept token [] htoken nil
  | token :: operand :: rest => by
    cases htoken : token.isNot with
    | true =>
      exact negated token operand rest htoken (roles_induct nil kept dangling negated rest)
    | false =>
      exact kept token _ htoken (roles_induct nil kept dangling negated (operand :: rest))

section Cons

variable {token operand : Token} {rest : List Token} {role : Role}

theorem having_nil : having role [] = [] := rfl

theorem having_keep (h : token.isNot = false) : having role (token :: rest)
    = if role = .kept then token :: having role rest else having role rest := by
  cases role <;> simp [having, roles, h]

theorem having_exclude (h : token.isNot = true) : having role (token :: operand :: rest)
    = match role with
      | .kept => having role rest
      | .negation => token :: having role rest
      | .operand => operand :: having role rest := by
  cases role <;> simp [having, roles, h]

theorem having_dangling (h : token.isNot = true) :
    having role [token] = if role = .negation then [token] else [] := by
  cases role <;> simp [having, roles, h]

theorem dangling_keep (h : token.isNot = false) : Dangling (token :: rest) ↔ Dangling rest := by
  cases hroles : roles false rest <;> simp [Dangling, roles, h, hroles]

theorem dangling_exclude (h : token.isNot = true) :
    Dangling (token :: operand :: rest) ↔ Dangling rest := by
  cases hroles : roles false rest <;> simp [Dangling, roles, h, hroles]

theorem dangling_single (h : token.isNot = true) : Dangling [token] := by
  simp [Dangling, roles, h]

end Cons

/-- The pass collects the operands and the kept tokens. -/
theorem notParts_eq (run : List Token) : notParts run = (having .operand run, having .kept run) := by
  induction run using roles_induct with
  | nil => rfl
  | kept token rest htoken ih =>
    rw [Grammar.notParts_kept htoken, ih, having_keep htoken, having_keep htoken]
    rfl
  | dangling token htoken => simp [notParts, htoken, having_dangling htoken]
  | negated token operand rest htoken ih =>
    rw [Grammar.notParts_negated htoken, ih, having_exclude htoken, having_exclude htoken]

/-- A run without operands in which no `not` dangles has no `not`. -/
theorem having_kept (hoperand : having .operand run = []) (hdangling : ¬ Dangling run) :
    having .kept run = run := by
  induction run using roles_induct with
  | nil => rfl
  | kept token rest htoken ih =>
    rw [having_keep htoken] at hoperand
    rw [dangling_keep htoken] at hdangling
    rw [having_keep htoken, if_pos rfl, ih hoperand hdangling]
  | dangling token htoken => exact absurd (dangling_single htoken) hdangling
  | negated token operand rest htoken =>
    rw [having_exclude htoken] at hoperand
    cases hoperand

/-- A `not` behind a run in which none dangles has a role of its own, and takes none from others. -/
theorem having_concat {last : Token} (hlast : last.isNot = true) (hdangling : ¬ Dangling run)
    {role : Role} (hrole : role ≠ .negation) : having role (run ++ [last]) = having role run := by
  induction run using roles_induct with
  | nil => rw [List.nil_append, having_dangling hlast, if_neg hrole, having_nil]
  | kept token rest htoken ih =>
    rw [dangling_keep htoken] at hdangling
    rw [List.cons_append, having_keep htoken, having_keep htoken, ih hdangling]
  | dangling token htoken => exact absurd (dangling_single htoken) hdangling
  | negated token operand rest htoken ih =>
    rw [dangling_exclude htoken] at hdangling
    rw [List.cons_append, List.cons_append, having_exclude htoken, having_exclude htoken,
      ih hdangling]

section Map

variable {change : Token → Token} (hchange : ∀ token, (change token).isNot = token.isNot)

include hchange

/-- Tokens that are changed one by one, but stay operators or none, keep their roles. -/
theorem having_map (role : Role) : having role (run.map change) = (having role run).map change := by
  induction run using roles_induct with
  | nil => rfl
  | kept token rest htoken ih =>
    rw [List.map_cons, having_keep ((hchange token).trans htoken), having_keep htoken, ih]
    split <;> rfl
  | dangling token htoken =>
    rw [List.map_cons, List.map_nil, having_dangling ((hchange token).trans htoken),
      having_dangling htoken]
    split <;> rfl
  | negated token operand rest htoken ih =>
    rw [List.map_cons, List.map_cons, having_exclude ((hchange token).trans htoken),
      having_exclude htoken, ih]
    cases role <;> rfl

theorem dangling_map : Dangling (run.map change) ↔ Dangling run := by
  induction run using roles_induct with
  | nil => rfl
  | kept token rest htoken ih =>
    rw [List.map_cons, dangling_keep ((hchange token).trans htoken), dangling_keep htoken, ih]
  | dangling token htoken =>
    exact iff_of_true (dangling_single ((hchange token).trans htoken)) (dangling_single htoken)
  | negated token operand rest htoken ih =>
    rw [List.map_cons, List.map_cons, dangling_exclude ((hchange token).trans htoken),
      dangling_exclude htoken, ih]

end Map

/-! ## The rearranged run -/

/-- The token that excludes one from another. -/
def excluding (dropped kept : Token) : Token :=
  { kind := .not, text := "not", children := [dropped, kept] }

/-- A run with operands and kept tokens becomes one token that excludes the ones from the others. -/
theorem splitNot_exclusion (hoperand : having .operand run ≠ []) (hkept : having .kept run ≠ []) :
    splitNot run = [excluding (anyOf (having .operand run)) (Token.ofRun (having .kept run))] := by
  rw [splitNot, notParts_eq]
  simp [hoperand, hkept, excluding]

/-- A run without operands stays as it is. -/
theorem splitNot_stays (hoperand : having .operand run = []) : splitNot run = run := by
  rw [splitNot, notParts_eq]
  simp [hoperand]

/-- A `not` at the end counts for nothing if there are operands besides. -/
theorem splitNot_concat {last : Token} (hlast : last.isNot = true) (hdangling : ¬ Dangling run)
    (hoperand : having .operand run ≠ []) (hkept : having .kept run ≠ []) :
    splitNot (run ++ [last]) = splitNot run := by
  have hoperands : having .operand (run ++ [last]) = having .operand run :=
    having_concat hlast hdangling (by decide)
  have hkepts : having .kept (run ++ [last]) = having .kept run :=
    having_concat hlast hdangling (by decide)
  rw [splitNot_exclusion hoperand hkept, splitNot_exclusion (hoperands ▸ hoperand) (hkepts ▸ hkept),
    hoperands, hkepts]

/-! ## What it asks for -/

section Documents

variable {S L : Type} [Source S L] [IdStream L] {compiler : Compiler S L} {vocabulary : Vocabulary}
  {depth : Nat} {id : DocId}

/-- Alternatives as one token ask for what any of them does. -/
theorem mem_documents_anyOf {tokens : List Token} (hne : tokens ≠ []) :
    id ∈ compiler.documents vocabulary depth (anyOf tokens) ↔
      ∃ token ∈ tokens, id ∈ compiler.documents vocabulary (depth + Compiler.levels tokens) token := by
  match tokens, hne with
  | [token], _ => simp [anyOf, Compiler.levels]
  | first :: second :: rest, hne =>
    rcases Nat.lt_or_ge compiler.settings.maxDepth depth with hbelow | hdepth
    · rw [Compiler.documents_below hbelow]
      refine iff_of_false (Set.notMem_empty id) ?_
      rintro ⟨token, -, hid⟩
      rw [Compiler.documents_below (by omega)] at hid
      exact hid
    · rw [anyOf, Compiler.documents_node hdepth hne]
      · simp [nodeSet, Compiler.levels]
      · simp

/-- An exclusion asks for what the kept part does and the dropped part does not. -/
theorem mem_documents_exclusion {dropped kept : Token} :
    id ∈ compiler.documents vocabulary 0 (excluding dropped kept) ↔
      id ∈ compiler.documents vocabulary 1 kept ∧ id ∉ compiler.documents vocabulary 1 dropped := by
  rw [Compiler.documents_node (Nat.zero_le _) (List.cons_ne_nil _ _)]
  simp [nodeSet, excluding]

/-- **What a run asks for once it is rearranged**: all that the kept tokens do and no operand does. -/
theorem mem_documents_splitNot (hkept : having .kept run ≠ [])
    (hoperand : having .operand run ≠ [] ∨ ¬ Dangling run) :
    (∃ token ∈ groupAll (splitNot run), id ∈ compiler.documents vocabulary 0 token) ↔
      (∀ token ∈ having .kept run, id ∈ compiler.documents vocabulary (keptDepth run) token) ∧
        ∀ token ∈ having .operand run,
          id ∉ compiler.documents vocabulary (operandDepth run) token := by
  by_cases hnone : having .operand run = []
  · have hdangling : ¬ Dangling run := hoperand.resolve_left (not_not_intro hnone)
    have hall := having_kept hnone hdangling
    rw [splitNot_stays hnone, Grammar.groupAll_eq (hall ▸ hkept), hnone, hall, keptDepth, hnone, hall]
    simp [Compiler.mem_documents_ofRun (hall ▸ hkept)]
  · have hroot (token : Token) : groupAll [token] = some token := rfl
    rw [splitNot_exclusion hnone hkept, hroot]
    simp [mem_documents_exclusion, Compiler.mem_documents_ofRun hkept, mem_documents_anyOf hnone,
      keptDepth, operandDepth, hnone]

end Documents

/-! ## What it finds -/

/-- Tokens as one are at least as deep as each of them, if several become children. -/
theorem depth_asOne {asOne : List Token → Token} (hone : ∀ token, asOne [token] = token)
    (hseveral : ∀ first second rest,
      (asOne (first :: second :: rest)).children = first :: second :: rest)
    {tokens : List Token} {token : Token} (h : token ∈ tokens) :
    Compiler.levels tokens + token.depth ≤ (asOne tokens).depth := by
  match tokens, h with
  | [_], .head _ => simp [Compiler.levels, hone]
  | first :: second :: rest, h =>
    rw [← hseveral] at h
    have hlt := Token.depth_lt h
    have hlevel : Compiler.levels (first :: second :: rest) = 1 := by simp [Compiler.levels]
    omega

theorem depth_ofRun {tokens : List Token} {token : Token} (h : token ∈ tokens) :
    Compiler.levels tokens + token.depth ≤ (Token.ofRun tokens).depth :=
  depth_asOne (fun _ => rfl) (fun _ _ _ => rfl) h

theorem depth_anyOf {tokens : List Token} {token : Token} (h : token ∈ tokens) :
    Compiler.levels tokens + token.depth ≤ (anyOf tokens).depth :=
  depth_asOne (fun _ => rfl) (fun _ _ _ => rfl) h

/-- Kept tokens and operands fit where they stand if the rearranged run does. -/
theorem depth_splitNot {limit : Nat} (hkept : having .kept run ≠ [])
    (hoperand : having .operand run ≠ [] ∨ ¬ Dangling run)
    (hfits : ∀ root ∈ groupAll (splitNot run), root.depth ≤ limit) :
    (∀ token ∈ having .kept run, keptDepth run + token.depth ≤ limit) ∧
      ∀ token ∈ having .operand run, operandDepth run + token.depth ≤ limit := by
  by_cases hnone : having .operand run = []
  · have hdangling : ¬ Dangling run := hoperand.resolve_left (not_not_intro hnone)
    have hall := having_kept hnone hdangling
    rw [splitNot_stays hnone, Grammar.groupAll_eq (hall ▸ hkept)] at hfits
    have hroot := hfits _ rfl
    rw [hnone, hall, keptDepth, hnone, hall]
    refine ⟨fun token htoken => ?_, nofun⟩
    have hdepth := depth_ofRun htoken
    simp only [List.isEmpty_nil, if_pos]
    omega
  · have hroot (token : Token) : groupAll [token] = some token := rfl
    rw [splitNot_exclusion hnone hkept, hroot] at hfits
    have hnode := hfits _ rfl
    have hdropped : (anyOf (having .operand run)).depth < (excluding (anyOf (having .operand run))
        (Token.ofRun (having .kept run))).depth := Token.depth_lt (.head _)
    have hkeeps : (Token.ofRun (having .kept run)).depth < (excluding (anyOf (having .operand run))
        (Token.ofRun (having .kept run))).depth := Token.depth_lt (.tail _ (.head _))
    have hsome : (having .operand run).isEmpty = false := by simpa using hnone
    rw [keptDepth, operandDepth, hsome]
    refine ⟨fun token htoken => ?_, fun token htoken => ?_⟩
    · have hdepth := depth_ofRun htoken
      simp only [Bool.false_eq_true, if_false]
      omega
    · have hdepth := depth_anyOf htoken
      omega

theorem isNot_regroup (pass : List Token → List Token) (token : Token) :
    (token.regroup pass).isNot = token.isNot := Token.isOperator_regroup ..

theorem keptDepth_regroup (pass : List Token → List Token) :
    keptDepth (run.map (Token.regroup pass)) = keptDepth run := by
  simp [keptDepth, having_map (isNot_regroup pass), Compiler.levels]

theorem operandDepth_regroup (pass : List Token → List Token) :
    operandDepth (run.map (Token.regroup pass)) = operandDepth run := by
  simp [operandDepth, having_map (isNot_regroup pass), Compiler.levels]

variable {S L : Type} [Source S L] [IdStream L]

/-- **A run finds what all kept tokens find and no operand finds**, if a token is kept, and operands
    stand besides where a `not` dangles: the documents that its tokens ask for at the depth to which
    they are moved, and if the tree fits, those that they find each by itself. One more `not` at the
    end of a run with operands changes nothing. -/
theorem rearrange_splitNot_ids {source : S} {vocabulary : Vocabulary}
    (h : Source.Shows source vocabulary) (settings : CompileSettings) (hkept : having .kept run ≠ [])
    (hoperand : having .operand run ≠ [] ∨ ¬ Dangling run) :
    let compiler : Compiler S L := { source, settings }
    let arranged := Token.regroup splitNot
    let root := groupAll (rearrange splitNot run)
    let found := IdStream.ids (compiler.tree root)
    found.Pairwise (· < ·) ∧
      (∀ id, id ∈ found ↔
        (∀ token ∈ having .kept run,
          id ∈ compiler.documents vocabulary (keptDepth run) (arranged token)) ∧
        ∀ token ∈ having .operand run,
          id ∉ compiler.documents vocabulary (operandDepth run) (arranged token)) ∧
      ((∀ token ∈ root, token.depth ≤ settings.maxDepth) → ∀ id, id ∈ found ↔
        (∀ token ∈ having .kept run, id ∈ IdStream.ids (compiler.tree (some (arranged token)))) ∧
        ∀ token ∈ having .operand run,
          id ∉ IdStream.ids (compiler.tree (some (arranged token)))) ∧
      (¬ Dangling run → having .operand run ≠ [] → ∀ last : Token, last.isNot = true →
        rearrange splitNot (run ++ [last]) = rearrange splitNot run) := by
  intro compiler arranged root found
  have hnot := isNot_regroup splitNot
  have hkept' : having .kept (run.map arranged) ≠ [] := by
    rw [having_map hnot]
    simpa using hkept
  have hoperand' : having .operand (run.map arranged) ≠ [] ∨ ¬ Dangling (run.map arranged) := by
    rw [having_map hnot, dangling_map hnot]
    simpa using hoperand
  have hroot : root = groupAll (splitNot (run.map arranged)) := by
    rw [← Token.regroupAll_eq]
    rfl
  have hids (root : Option Token) (id : DocId) : id ∈ IdStream.ids (compiler.tree root) ↔
      ∃ token ∈ root, id ∈ compiler.documents vocabulary 0 token :=
    (Compiler.tree_visits h settings root).ids.2 id
  have hdeep (id : DocId) : id ∈ found ↔
      (∀ token ∈ having .kept run,
        id ∈ compiler.documents vocabulary (keptDepth run) (arranged token)) ∧
      ∀ token ∈ having .operand run,
        id ∉ compiler.documents vocabulary (operandDepth run) (arranged token) := by
    rw [hids, hroot, mem_documents_splitNot hkept' hoperand', having_map hnot, having_map hnot,
      keptDepth_regroup, operandDepth_regroup, List.forall_mem_map, List.forall_mem_map]
  refine ⟨(Compiler.tree_visits h settings root).ids.1, hdeep, fun hfits id => ?_,
    fun hdangling hsome last hlast => ?_⟩
  · -- Where the tree fits, the depth at which a token stands makes no difference.
    have hself {depth : Nat} (token : Token) (hdepth : depth + token.depth ≤ settings.maxDepth) :
        id ∈ compiler.documents vocabulary depth token
          ↔ id ∈ IdStream.ids (compiler.tree (some token)) := by
      have hzero : 0 + token.depth ≤ settings.maxDepth := by omega
      rw [hids, Compiler.documents_fits token hdepth hzero]
      simp only [Option.mem_some_iff, exists_eq_left']
    rw [hroot] at hfits
    obtain ⟨hkepts, hoperands⟩ := depth_splitNot hkept' hoperand' hfits
    rw [having_map hnot, keptDepth_regroup, List.forall_mem_map] at hkepts
    rw [having_map hnot, operandDepth_regroup, List.forall_mem_map] at hoperands
    rw [hdeep]
    refine and_congr (forall₂_congr fun token htoken => ?_) (forall₂_congr fun token htoken => ?_)
    · exact hself _ (hkepts token htoken)
    · exact not_congr (hself _ (hoperands token htoken))
  · have hlast' : (last.regroup splitNot).isNot = true := (hnot last).trans hlast
    have hsome' : having .operand (run.map arranged) ≠ [] := by
      rw [having_map hnot]
      simpa using hsome
    rw [rearrange, rearrange, Token.regroupAll_eq, Token.regroupAll_eq, List.map_append]
    exact splitNot_concat hlast' (mt (dangling_map hnot).1 hdangling) hsome' hkept'

/-- Oaks without elms, and a `not` behind them that changes nothing. -/
theorem rearrange_splitNot_ids_oaks : ∃ postings,
    Postings.empty.insertAll Corpus.oaks.mentions = .ok postings ∧
    Source.Shows postings Corpus.oaks.contents.vocabulary ∧
    let word (text : String) : Token := { kind := .word, text }
    let run := [word "oak", word "NOT", word "elm"]
    let compiler : Compiler Postings Walk := { source := postings }
    having .kept run ≠ [] ∧ having .operand run ≠ [] ∧ ¬ Dangling run ∧
      (∀ id, id ∈ IdStream.ids (compiler.tree (groupAll (rearrange splitNot run))) ↔
        id ∈ IdStream.ids (compiler.tree (some (word "oak"))) ∧
          id ∉ IdStream.ids (compiler.tree (some (word "elm")))) ∧
      rearrange splitNot (run ++ [word "not"]) = rearrange splitNot run := by
  obtain ⟨postings, hpostings, hsource⟩ := Corpus.oaks.exists_source
  refine ⟨postings, hpostings, hsource, ?_⟩
  intro word run compiler
  have hkept : having .kept run ≠ [] := by decide
  have hoperand : having .operand run ≠ [] := by decide
  have hdangling : ¬ Dangling run := by decide
  obtain ⟨-, -, hids, hlast⟩ := rearrange_splitNot_ids hsource {} hkept (.inl hoperand)
  refine ⟨hkept, hoperand, hdangling, fun id => ?_, hlast hdangling hoperand (word "not") (by decide)⟩
  have hfits : ∀ root ∈ groupAll (rearrange splitNot run), root.depth ≤ 256 := by decide
  rw [hids hfits id]
  have hroles : roles false run = [.kept, .negation, .operand] := by decide
  have hkepts : having .kept run = [word "oak"] := by
    rw [having, hroles]
    rfl
  have hoperands : having .operand run = [word "elm"] := by
    rw [having, hroles]
    rfl
  have hbare (text : String) : (word text).regroup splitNot = word text := Token.regroup_bare rfl rfl
  rw [hkepts, hoperands, List.forall_mem_singleton, List.forall_mem_singleton, hbare, hbare]

/-- **A `not` that dangles in a run without operands is asked for** like a word: `a not` does not find
    the document of `a`. -/
theorem dangling_not_found :
    let word (text : String) : Token := { kind := .word, text }
    let run := [word "a", word "not"]
    let compiler : Compiler Postings Walk := { source := Postings.run [.insert "a" 1 []] }
    (having .kept run).map Token.text = ["a"] ∧ (having .operand run).map Token.text = [] ∧
      IdStream.ids (compiler.tree (some (word "a"))) = [1] ∧
      IdStream.ids (compiler.tree (groupAll (rearrange splitNot run))) = [] := by
  decide +kernel

end InvertedIndex
