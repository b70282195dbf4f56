import InvertedIndex.Proofs.Snapshot.Additions

/-!
# `Proofs.Snapshot.Offers` — occurrences with their stems

An occurrence can be offered to a draft with all stems of its term: besides the term, `stem*` is
recorded for each stem that is long enough. Such an offer is refused if the occurrence would be, and
otherwise comes to a run of plain additions, none of which is refused. So all that is known of drafts
after additions is known of drafts after offers of any kind.

## Contents
- `Offer`, `Offer.asked`, `Offer.besides`, `Offer.additions`: offers and what they come to;
- `mem_stemsFrom`: the stems of a text are stems of it;
- `Draft.attemptOffer_eq`, `Draft.refusals_eq`: which offers are refused;
- `Draft.offered_eq_run`: a draft after offers is one after additions; `Draft.offered_took`.
-/

namespace InvertedIndex

/-! ## Stems -/

/-- The stems of a text are stems of it. -/
theorem mem_stemsFrom {least : Nat} {stem : String} {read text : List Char}
    (h : stem ∈ Draft.stemsFrom least read text) : stem.toList <+: read.reverse ++ text := by
  -- On the text: what was read before is part of every stem of the rest.
  induction text generalizing read with
  | nil =>
    rw [Draft.stemsFrom, Draft.stemsFrom.ownStem] at h
    split at h
    · rw [List.mem_singleton.1 h, String.toList_ofList, List.append_nil]
    · cases h
  | cons c rest ih =>
    rw [Draft.stemsFrom, List.mem_append] at h
    rcases h with hlonger | hown
    · have hstem := ih hlonger
      rwa [List.reverse_cons, List.append_assoc] at hstem
    · rw [Draft.stemsFrom.ownStem] at hown
      split at hown
      · rw [List.mem_singleton.1 hown, String.toList_ofList]
        exact List.prefix_append _ _
      · cases hown

/-! ## Offers -/

/-- An occurrence is refused for its id or for its term. -/
theorem Addition.occurrence_accepted_iff {record : TermRecord} :
    (Addition.occurrence record).refusal? = none
      ↔ record.id.Valid ∧ '\x00' ∉ record.term.toList := by
  show (if ¬ record.id.Valid then _ else if '\x00' ∈ record.term.toList then _ else _) = _ ↔ _
  by_cases hid : record.id.Valid
  · by_cases hterm : '\x00' ∈ record.term.toList
    · simp [hid, hterm]
    · simp [hid, hterm]
  · simp [hid]

/-- What a draft can be offered. -/
inductive Offer where
  /-- An occurrence or a blob. -/
  | plain (addition : Addition)
  /-- An occurrence, and one of `stem*` for each stem of its term with at least so many bytes. -/
  | stems (least : Nat) (record : TermRecord)
  deriving Repr, DecidableEq

namespace Offer

/-- What is asked for by name. -/
def asked : Offer → Addition
  | plain addition => addition
  | stems _ record => .occurrence record

/-- The occurrences of stems that come with it. -/
def besides : Offer → List Addition
  | plain _ => []
  | stems least record => (Draft.stemsFrom least [] record.term.toList).map fun stem =>
      .occurrence { record with term := stem ++ "*" }

/-- The additions that an offer comes to. If what is asked for is refused, nothing comes with it. -/
def additions (offer : Offer) : List Addition :=
  offer.asked :: if offer.asked.refusal? = none then offer.besides else []

theorem asked_mem_additions (offer : Offer) : offer.asked ∈ offer.additions := List.mem_cons_self

/-- What comes with an occurrence is an occurrence at the same place, of a stem of its term. -/
theorem exists_of_mem_besides {offer : Offer} {addition : Addition} (h : addition ∈ offer.besides) :
    ∃ (record : TermRecord) (stem : String), offer.asked = .occurrence record ∧
      stem.toList <+: record.term.toList ∧
      addition = .occurrence { record with term := stem ++ "*" } := by
  cases offer with
  | plain addition => cases h
  | stems least record =>
    obtain ⟨stem, hstem, rfl⟩ := List.mem_map.1 h
    exact ⟨record, stem, rfl, mem_stemsFrom hstem, rfl⟩

/-- If what is asked for is not refused, nothing that comes with it is. -/
theorem besides_accepted {offer : Offer} (h : offer.asked.refusal? = none) :
    ∀ addition ∈ offer.besides, addition.refusal? = none := by
  intro addition haddition
  obtain ⟨record, stem, hasked, hstem, rfl⟩ := exists_of_mem_besides haddition
  rw [hasked, Addition.occurrence_accepted_iff] at h
  obtain ⟨hid, hterm⟩ := h
  refine Addition.occurrence_accepted_iff.2 ⟨hid, ?_⟩
  show '\x00' ∉ (stem ++ "*").toList
  rw [String.toList_append, List.mem_append, not_or]
  exact ⟨fun hmem => hterm (hstem.subset hmem), by decide⟩

end Offer

/-! ## Drafts after offers -/

namespace Draft

/-- Additions that are not refused are taken one after the other. -/
theorem foldlM_attempt (draft : Draft) {additions : List Addition}
    (h : ∀ addition ∈ additions, addition.refusal? = none) :
    additions.foldlM attempt draft = .ok (additions.foldl apply draft) := by
  induction additions generalizing draft with
  | nil => rfl
  | cons addition rest ih =>
    obtain ⟨haddition, hrest⟩ := List.forall_mem_cons.1 h
    rw [List.foldlM_cons, attempt_eq, haddition, List.foldl_cons]
    exact ih (draft.apply addition) hrest

/-- What an offer makes of a draft, or why it is refused. -/
def attemptOffer (draft : Draft) : Offer → Except Fault Draft
  | .plain addition => draft.attempt addition
  | .stems least record =>
    draft.addStems record.id record.value record.position least record.term

/-- The draft after an offer; a refused one leaves it as it is. -/
def accept (draft : Draft) (offer : Offer) : Draft :=
  match draft.attemptOffer offer with
  | .ok changed => changed
  | .error _ => draft

/-- A new draft after a run of offers. -/
def offered (settings : BuildSettings) (offers : List Offer) : Draft :=
  offers.foldl accept (new settings)

/-- Why each of a run of offers to a draft is refused, if it is. -/
def refusals (draft : Draft) : List Offer → List (Option Fault)
  | [] => []
  | offer :: rest =>
    (match draft.attemptOffer offer with
      | .ok _ => none
      | .error fault => some fault) :: (draft.accept offer).refusals rest

/-- An occurrence and its stems are attempted one after the other. -/
theorem attemptOffer_eq_foldlM (draft : Draft) (offer : Offer) :
    draft.attemptOffer offer = (offer.asked :: offer.besides).foldlM attempt draft := by
  cases offer with
  | plain addition =>
    show draft.attempt addition = _
    rw [Offer.asked, Offer.besides, List.foldlM_cons]
    cases draft.attempt addition <;> rfl
  | stems least record =>
    rw [Offer.asked, Offer.besides, List.foldlM_cons]
    simp only [List.foldlM_map]
    rfl

/-- **What an offer does**: it is refused if what is asked for is, and else its additions are
    taken. -/
theorem attemptOffer_eq (draft : Draft) (offer : Offer) : draft.attemptOffer offer =
    match offer.asked.refusal? with
    | some fault => .error fault
    | none => .ok (offer.additions.foldl apply draft) := by
  rw [attemptOffer_eq_foldlM]
  cases hrefusal : offer.asked.refusal? with
  | some fault =>
    rw [List.foldlM_cons, attempt_eq, hrefusal]
    rfl
  | none =>
    have hall : ∀ addition ∈ offer.asked :: offer.besides, addition.refusal? = none :=
      List.forall_mem_cons.2 ⟨hrefusal, Offer.besides_accepted hrefusal⟩
    rw [foldlM_attempt draft hall, Offer.additions, if_pos hrefusal]

theorem accept_eq (draft : Draft) (offer : Offer) :
    draft.accept offer = offer.additions.foldl apply draft := by
  unfold accept
  rw [attemptOffer_eq]
  cases hrefusal : offer.asked.refusal? with
  | none => rfl
  | some fault =>
    rw [Offer.additions, hrefusal, if_neg (by simp), List.foldl_cons,
      draft.apply_of_refused hrefusal]
    rfl

/-- **Whether an offer is refused** depends on what is asked for alone. -/
theorem refusals_eq (draft : Draft) (offers : List Offer) :
    draft.refusals offers = offers.map fun offer => offer.asked.refusal? := by
  induction offers generalizing draft with
  | nil => rfl
  | cons offer rest ih =>
    rw [refusals, List.map_cons, ih, attemptOffer_eq]
    cases offer.asked.refusal? <;> rfl

/-- **A draft after offers** is one after the additions that they come to. -/
theorem offered_eq_run (settings : BuildSettings) (offers : List Offer) :
    offered settings offers = run settings (offers.flatMap Offer.additions) := by
  have hall (draft : Draft) : offers.foldl accept draft
      = (offers.flatMap Offer.additions).foldl apply draft := by
    induction offers generalizing draft with
    | nil => rfl
    | cons offer rest ih =>
      rw [List.foldl_cons, List.flatMap_cons, List.foldl_append, ih, accept_eq]
  exact hall (new settings)

/-- So it has taken these. -/
theorem offered_took (settings : BuildSettings) (offers : List Offer) :
    (offered settings offers).Took settings (offers.flatMap Offer.additions) := by
  rw [offered_eq_run]
  exact run_took settings _

end Draft
end InvertedIndex
