import InvertedIndex.Proofs.Snapshot.Draft

/-!
# `Proofs.Snapshot.Additions` — what is added to a draft

A draft is given occurrences of terms and blobs of documents. Some additions are refused, some are
left out, and the rest are taken by the sorters in the order given. What the files hold then depends
on the first addition with each key alone: not on the budgets, not on the order of additions with
different keys, and not on later ones with the same key.

## Contents
- `Addition`, `Addition.key`, `Addition.fits`: what is added, and when it counts;
- `Draft.attempt`, `Draft.run`: drafts after additions;
- `Addition.record?`, `Addition.blob?`: what an addition leaves;
- `Addition.refusal?`, `Draft.faults`, `Draft.attempt_eq`: which additions are refused;
- `Draft.Took`: the invariant; `Draft.run_took`;
- `Draft.content`: the files and the counts; `Draft.content_eq_of_first`: what decides on them;
  `Draft.content_ne_of_refused_first`: a refused blob does not.
-/

namespace InvertedIndex

instance : Std.TransCmp (SortRecord.compareKeys (α := GlobalRecord)) :=
  inferInstanceAs (Std.TransCmp (compareOn GlobalRecord.id))

/-! ## Runs of additions -/

/-- What is added to a draft. -/
inductive Addition where
  | occurrence (record : TermRecord)
  | blob (record : GlobalRecord)
  deriving Repr, DecidableEq

/-- What only the first of several additions counts for. -/
inductive AdditionKey where
  | occurrence (term : String) (id : DocId) (position : Position)
  | blob (id : DocId)
  deriving Repr, DecidableEq

namespace Addition

def key : Addition → AdditionKey
  | occurrence record => .occurrence record.term record.id record.position
  | blob record => .blob record.id

/-- A blob of `2 ^ 32` bytes or more does not fit into a region. It is refused and does not count,
    unlike all else that is refused or left out, which has a key that is never recorded. -/
def fits : Addition → Bool
  | occurrence _ => true
  | blob record => record.blob.length < UInt32.size

end Addition

namespace Draft

/-- What an addition makes of a draft, or why it is refused. -/
def attempt (draft : Draft) : Addition → Except Fault Draft
  | .occurrence record => draft.addTerm record.id record.value record.position record.term
  | .blob record => draft.addGlobal record.id record.blob

/-- The draft after an addition; a refused one leaves it as it is. -/
def apply (draft : Draft) (addition : Addition) : Draft :=
  match draft.attempt addition with
  | .ok changed => changed
  | .error _ => draft

/-- A new draft after a run of additions. -/
def run (settings : BuildSettings) (additions : List Addition) : Draft :=
  additions.foldl apply (new settings)

end Draft

/-! ## What an addition leaves -/

/-- The records that a draft takes. -/
structure TermRecord.Taken (record : TermRecord) (maxPosition : Position) : Prop where
  id : record.id.Valid
  term : '\x00' ∉ record.term.toList
  position : record.position ≤ maxPosition

instance (record : TermRecord) (maxPosition : Position) : Decidable (record.Taken maxPosition) :=
  decidable_of_iff
    (record.id.Valid ∧ '\x00' ∉ record.term.toList ∧ record.position ≤ maxPosition)
    ⟨fun h => ⟨h.1, h.2.1, h.2.2⟩, fun h => ⟨h.id, h.term, h.position⟩⟩

/-- The blobs that a draft takes. -/
structure GlobalRecord.Taken (record : GlobalRecord) : Prop where
  id : record.id.Valid
  size : record.blob.length < UInt32.size

instance (record : GlobalRecord) : Decidable record.Taken :=
  decidable_of_iff (record.id.Valid ∧ record.blob.length < UInt32.size)
    ⟨fun h => ⟨h.1, h.2⟩, fun h => ⟨h.id, h.size⟩⟩

namespace Addition

/-- The occurrence that an addition leaves. -/
def record? (maxPosition : Position) : Addition → Option TermRecord
  | occurrence record => if record.Taken maxPosition then some record else none
  | blob _ => none

/-- The blob that an addition leaves. -/
def blob? : Addition → Option GlobalRecord
  | occurrence _ => none
  | blob record => if record.Taken then some record else none

theorem record?_eq_some_iff {maxPosition : Position} {addition : Addition} {record : TermRecord} :
    addition.record? maxPosition = some record
      ↔ addition = .occurrence record ∧ record.Taken maxPosition := by
  cases addition with
  | blob other => exact iff_of_false nofun fun h => nomatch h.1
  | occurrence other =>
    rw [record?, Option.ite_none_right_eq_some, Option.some.injEq, occurrence.injEq, and_comm]
    exact and_congr_right fun heq => heq ▸ Iff.rfl

theorem blob?_eq_some_iff {addition : Addition} {record : GlobalRecord} :
    addition.blob? = some record ↔ addition = .blob record ∧ record.Taken := by
  cases addition with
  | occurrence other => exact iff_of_false nofun fun h => nomatch h.1
  | blob other =>
    rw [blob?, Option.ite_none_right_eq_some, Option.some.injEq, blob.injEq, and_comm]
    exact and_congr_right fun heq => heq ▸ Iff.rfl

/-- Why an addition is refused: for its id first. -/
def refusal? : Addition → Option Fault
  | occurrence record =>
    if ¬ record.id.Valid then some (.invalidId record.id)
    else if '\x00' ∈ record.term.toList then some (.invalidTerm record.term)
    else none
  | blob record =>
    if ¬ record.id.Valid then some (.invalidId record.id)
    else if UInt32.size ≤ record.blob.length then
      some (.postingTooLarge s!"global {record.id}" record.blob.length)
    else none

end Addition

namespace Draft

/-- A blob is refused for its id, then for its size. -/
theorem addGlobal_eq (draft : Draft) (id : DocId) (blob : Bytes) : draft.addGlobal id blob
    = if ¬ id.Valid then .error (.invalidId id)
      else if UInt32.size ≤ blob.length then
        .error (.postingTooLarge s!"global {id}" blob.length)
      else .ok { draft with globals := draft.globals.push ⟨id, blob⟩ } := by
  unfold addGlobal checkBlob DocId.check
  by_cases hid : id.Valid
  · by_cases hsize : UInt32.size ≤ blob.length
    · simp only [hid, hsize, not_true, if_true, if_false]
      rfl
    · simp only [hid, hsize, not_true, if_true, if_false]
      rfl
  · simp only [hid, not_false_eq_true, if_true, if_false]
    rfl

/-- **What an addition does**: the sorters take what it leaves. -/
theorem apply_eq (draft : Draft) (addition : Addition) : draft.apply addition = { draft with
    terms := (addition.record? draft.settings.maxPosition).toList.foldl RunSorter.push draft.terms
    globals := addition.blob?.toList.foldl RunSorter.push draft.globals } := by
  unfold apply attempt
  cases addition with
  | occurrence record =>
    simp only [addTerm_eq, Addition.record?, Addition.blob?]
    by_cases hid : record.id.Valid
    · by_cases hterm : '\x00' ∈ record.term.toList
      · -- Refused for its term.
        rw [if_neg (not_not_intro hid), if_pos hterm, if_neg fun h : record.Taken _ => h.term hterm]
        rfl
      · rw [if_neg (not_not_intro hid), if_neg hterm]
        by_cases hposition : record.position ≤ draft.settings.maxPosition
        · rw [if_pos hposition, if_pos ⟨hid, hterm, hposition⟩]
          rfl
        · -- Left out for its position.
          rw [if_neg hposition, if_neg fun h : record.Taken _ => hposition h.position]
          rfl
    · rw [if_pos hid, if_neg fun h : record.Taken _ => hid h.id]
      rfl
  | blob record =>
    simp only [addGlobal_eq, Addition.record?, Addition.blob?]
    by_cases hid : record.id.Valid
    · by_cases hsize : UInt32.size ≤ record.blob.length
      · rw [if_neg (not_not_intro hid), if_pos hsize,
          if_neg fun h : record.Taken => Nat.not_lt_of_le hsize h.size]
        rfl
      · rw [if_neg (not_not_intro hid), if_neg hsize, if_pos ⟨hid, Nat.lt_of_not_le hsize⟩]
        rfl
    · rw [if_pos hid, if_neg fun h : record.Taken => hid h.id]
      rfl

/-! ## Refusals -/

/-- Why an addition to a draft is refused, if it is. -/
def fault? (draft : Draft) (addition : Addition) : Option Fault :=
  match draft.attempt addition with
  | .ok _ => none
  | .error fault => some fault

/-- Why each of a run of additions to a draft is refused, if it is. -/
def faults (draft : Draft) : List Addition → List (Option Fault)
  | [] => []
  | addition :: rest => draft.fault? addition :: (draft.apply addition).faults rest

/-- **Whether an addition is refused** depends on the addition alone. -/
theorem fault?_eq (draft : Draft) (addition : Addition) :
    draft.fault? addition = addition.refusal? := by
  unfold fault? attempt Addition.refusal?
  cases addition with
  | occurrence record =>
    simp only [addTerm_eq]
    by_cases hid : record.id.Valid
    · by_cases hterm : '\x00' ∈ record.term.toList
      · simp only [hid, hterm, not_true, if_true, if_false]
      · by_cases hposition : record.position ≤ draft.settings.maxPosition
        · simp only [hid, hterm, hposition, not_true, if_true, if_false]
        · simp only [hid, hterm, hposition, not_true, if_false]
    · simp only [hid, not_false_eq_true, if_true]
  | blob record =>
    simp only [addGlobal_eq]
    by_cases hid : record.id.Valid
    · by_cases hsize : UInt32.size ≤ record.blob.length
      · simp only [hid, hsize, not_true, if_true, if_false]
      · simp only [hid, hsize, not_true, if_false]
    · simp only [hid, not_false_eq_true, if_true]

/-- So an attempt fails for that reason, or gives the draft behind the addition. -/
theorem attempt_eq (draft : Draft) (addition : Addition) : draft.attempt addition =
    match addition.refusal? with
    | some fault => .error fault
    | none => .ok (draft.apply addition) := by
  have hfault := draft.fault?_eq addition
  unfold fault? at hfault
  unfold apply
  cases hattempt : draft.attempt addition with
  | ok changed =>
    rw [hattempt] at hfault
    rw [← hfault]
  | error fault =>
    rw [hattempt] at hfault
    rw [← hfault]

/-- A refused addition leaves a draft as it is. -/
theorem apply_of_refused (draft : Draft) {addition : Addition} {fault : Fault}
    (h : addition.refusal? = some fault) : draft.apply addition = draft := by
  unfold apply
  rw [attempt_eq, h]

/-- So a run of additions is refused one by one, whatever was taken before. -/
theorem faults_eq (draft : Draft) (additions : List Addition) :
    draft.faults additions = additions.map Addition.refusal? := by
  induction additions generalizing draft with
  | nil => rfl
  | cons addition rest ih => rw [faults, List.map_cons, ih, fault?_eq]

/-! ## What a draft took -/

/-- The sorters of a draft hold what a run of additions leaves. -/
structure Took (draft : Draft) (settings : BuildSettings) (additions : List Addition) : Prop where
  settings_eq : draft.settings = settings
  terms : draft.terms.Holds (additions.filterMap (Addition.record? settings.maxPosition))
  globals : draft.globals.Holds (additions.filterMap Addition.blob?)

variable {settings : BuildSettings}

/-- Each addition is taken behind those before. -/
theorem Took.apply {draft : Draft} {additions : List Addition} (h : draft.Took settings additions)
    (addition : Addition) : (draft.apply addition).Took settings (additions ++ [addition]) := by
  rw [apply_eq, h.settings_eq]
  refine ⟨rfl, ?_, ?_⟩
  · rw [List.filterMap_append, List.filterMap_cons, List.filterMap_nil]
    cases addition.record? settings.maxPosition with
    | none => simpa using h.terms
    | some record => exact h.terms.push record
  · rw [List.filterMap_append, List.filterMap_cons, List.filterMap_nil]
    cases addition.blob? with
    | none => simpa using h.globals
    | some record => exact h.globals.push record

/-- **A draft takes what a run of additions leaves.** -/
theorem run_took (settings : BuildSettings) (additions : List Addition) :
    (run settings additions).Took settings additions := by
  have hall : ∀ (rest done : List Addition) (draft : Draft), draft.Took settings done →
      (rest.foldl Draft.apply draft).Took settings (done ++ rest) := by
    intro rest
    induction rest with
    | nil =>
      intro done draft h
      rwa [List.append_nil]
    | cons addition rest ih =>
      intro done draft h
      have hrest := ih _ _ (h.apply addition)
      rwa [List.append_assoc] at hrest
  exact hall additions [] (new settings)
    ⟨rfl, RunSorter.holds_new settings.termBudget, RunSorter.holds_new settings.globalBudget⟩

end Draft

/-! ## The first additions decide -/

/-- The first addition with a key that counts. -/
def Addition.first? (additions : List Addition) (key : AdditionKey) : Option Addition :=
  additions.find? fun addition => addition.key = key ∧ addition.fits

/-- Keys of blobs are their ids. -/
theorem GlobalRecord.sameKey_eq (key : GlobalRecord) :
    RunSorter.sameKey key = fun record : GlobalRecord => decide (record.id = key.id) := by
  funext record
  rw [Bool.eq_iff_iff, RunSorter.sameKey_iff, decide_eq_true_iff]
  exact Std.compare_eq_iff_eq.trans eq_comm

namespace Addition

theorem first?_eq_none {additions : List Addition} {key : AdditionKey}
    (h : ∀ addition ∈ additions, addition.key ≠ key) : first? additions key = none := by
  refine List.find?_eq_none.2 fun addition haddition hfound => ?_
  exact h addition haddition (decide_eq_true_iff.1 hfound).1

/-- An addition leaves a record with a key that is taken if it has that key. -/
theorem record?_any_sameKey {maxPosition : Position} {key : TermRecord} (addition : Addition) :
    (addition.record? maxPosition).any (RunSorter.sameKey key) = true ↔ key.Taken maxPosition ∧
      addition.key = .occurrence key.term key.id key.position ∧ addition.fits := by
  cases addition with
  | blob record =>
    refine iff_of_false Bool.false_ne_true ?_
    rintro ⟨-, hkey, -⟩
    cases hkey
  | occurrence record =>
    rw [record?, Addition.key, fits, AdditionKey.occurrence.injEq]
    constructor
    · intro h
      split at h
      next htaken =>
        obtain ⟨hterm, hid, hposition⟩ := TermRecord.compareKeys_eq_eq.1 (RunSorter.sameKey_iff.1 h)
        refine ⟨⟨?_, ?_, ?_⟩, ⟨hterm.symm, hid.symm, hposition.symm⟩, rfl⟩
        · exact hid ▸ htaken.id
        · exact hterm ▸ htaken.term
        · exact hposition ▸ htaken.position
      next => cases h
    · rintro ⟨htaken, ⟨hterm, hid, hposition⟩, -⟩
      -- Whether a record is taken depends on its key alone.
      have htaken' : record.Taken maxPosition :=
        ⟨hid ▸ htaken.id, hterm ▸ htaken.term, hposition ▸ htaken.position⟩
      rw [if_pos htaken']
      exact RunSorter.sameKey_iff.2
        (TermRecord.compareKeys_eq_eq.2 ⟨hterm.symm, hid.symm, hposition.symm⟩)

/-- An addition leaves a blob with an id that is taken if it has that id and is not too large. -/
theorem blob?_any_sameKey {key : GlobalRecord} (addition : Addition) :
    addition.blob?.any (RunSorter.sameKey key) = true ↔
      key.id.Valid ∧ addition.key = .blob key.id ∧ addition.fits := by
  have hsame (record : GlobalRecord) :
      RunSorter.sameKey key record = true ↔ key.id = record.id := by
    rw [GlobalRecord.sameKey_eq, decide_eq_true_iff, eq_comm]
  cases addition with
  | occurrence record =>
    refine iff_of_false Bool.false_ne_true ?_
    rintro ⟨-, hkey, -⟩
    cases hkey
  | blob record =>
    rw [blob?, Addition.key, fits, AdditionKey.blob.injEq, decide_eq_true_iff]
    constructor
    · intro h
      split at h
      next htaken =>
        have hid := (hsame record).1 h
        exact ⟨hid ▸ htaken.id, hid.symm, htaken.size⟩
      next => cases h
    · rintro ⟨hvalid, hid, hsize⟩
      have htaken : record.Taken := ⟨hid ▸ hvalid, hsize⟩
      rw [if_pos htaken]
      exact (hsame record).2 hid.symm

/-- **The first record with a key** is that of the first addition with the key. -/
theorem find?_records (maxPosition : Position) (additions : List Addition) (key : TermRecord) :
    (additions.filterMap (record? maxPosition)).find? (RunSorter.sameKey key)
      = if key.Taken maxPosition then
          (first? additions (.occurrence key.term key.id key.position)).bind (record? maxPosition)
        else none := by
  rw [List.find?_filterMap]
  split
  next htaken =>
    rw [first?]
    congr 2
    funext addition
    rw [Bool.eq_iff_iff, record?_any_sameKey, and_iff_right htaken, decide_eq_true_iff]
  next hnot =>
    have hnone : additions.find? (fun addition =>
        (addition.record? maxPosition).any (RunSorter.sameKey key)) = none :=
      List.find?_eq_none.2 fun addition _ h => hnot (record?_any_sameKey addition |>.1 h).1
    rw [hnone]
    rfl

/-- **The first blob of a document** is that of the first addition for it that is not too large. -/
theorem find?_blobs (additions : List Addition) (key : GlobalRecord) :
    (additions.filterMap blob?).find? (RunSorter.sameKey key)
      = if key.id.Valid then (first? additions (.blob key.id)).bind blob? else none := by
  rw [List.find?_filterMap]
  split
  next hvalid =>
    rw [first?]
    congr 2
    funext addition
    rw [Bool.eq_iff_iff, blob?_any_sameKey, and_iff_right hvalid, decide_eq_true_iff]
  next hnot =>
    have hnone : additions.find? (fun addition =>
        addition.blob?.any (RunSorter.sameKey key)) = none :=
      List.find?_eq_none.2 fun addition _ h => hnot (blob?_any_sameKey addition |>.1 h).1
    rw [hnone]
    rfl

end Addition

namespace Draft

/-- The files and the counts, without the number of runs put aside. -/
def content (draft : Draft) : Except Fault (SnapshotFiles × BuildStats) :=
  draft.finish.map fun (files, stats) => (files, { stats with spilledRuns := 0 })

/-- Drafts whose sorters return the same have the same content. -/
theorem content_congr {draft draft' : Draft} (hterms : draft.terms.finish = draft'.terms.finish)
    (hglobals : draft.globals.finish = draft'.globals.finish) : draft.content = draft'.content := by
  unfold content finish
  rw [hterms, hglobals]
  cases (cutBy TermRecord.term draft'.terms.finish).mapM fun piece => encodeTerm piece.1 piece.2 with
  | error fault => rfl
  | ok images => rfl

/-- **The first addition with each key decides.** If that is the same in two runs of additions, then
    with whatever budgets and directories they are taken, in whatever order and whatever else is
    added, both drafts finish with the same files and the same counts, or both with the same fault. -/
theorem content_eq_of_first {settings settings' : BuildSettings}
    (hmax : settings.maxPosition = settings'.maxPosition) {additions additions' : List Addition}
    (hfirst : ∀ key, Addition.first? additions key = Addition.first? additions' key) :
    (run settings additions).content = (run settings' additions').content := by
  have htook := run_took settings additions
  have htook' := run_took settings' additions'
  refine content_congr ?_ ?_
  · refine RunSorter.finish_congr htook.terms htook'.terms fun key => ?_
    rw [Addition.find?_records, Addition.find?_records, hfirst, hmax]
  · refine RunSorter.finish_congr htook.globals htook'.globals fun key => ?_
    rw [Addition.find?_blobs, Addition.find?_blobs, hfirst]

/-- An oak and an elm of one document and its blob, some of them twice with other values: taken with
    no budget at all, and in another order with the usual one. -/
theorem content_eq_of_first_oak :
    let oak (value : Int32) : Addition := .occurrence ⟨"oak", 5, 3, value⟩
    let elm : Addition := .occurrence ⟨"elm", 5, 3, 1⟩
    let blob (bytes : Bytes) : Addition := .blob ⟨5, bytes⟩
    let additions := [oak 7, blob [1], elm, oak 8, blob []]
    let additions' := [blob [1], blob [], elm, oak 7, oak 8]
    let settings : BuildSettings := { termBudget := 0, globalBudget := 0 }
    (∀ key, Addition.first? additions key = Addition.first? additions' key) ∧
      ∃ files stats, (run settings additions).content = .ok (files, stats) ∧
        (run {} additions').content = .ok (files, stats) := by
  intro oak elm blob additions additions' settings
  have hfirst : ∀ key, Addition.first? additions key = Addition.first? additions' key := by
    intro key
    by_cases hoak : (oak 7).key = key
    · subst hoak
      decide
    by_cases helm : elm.key = key
    · subst helm
      decide
    by_cases hblob : (blob [1]).key = key
    · subst hblob
      decide
    -- Any other key is in neither run.
    have hnone : ∀ addition ∈ additions, addition.key ≠ key := by
      simp only [additions, List.forall_mem_cons]
      exact ⟨hoak, hblob, helm, hoak, hblob, by simp⟩
    have hnone' : ∀ addition ∈ additions', addition.key ≠ key := by
      simp only [additions', List.forall_mem_cons]
      exact ⟨hblob, hblob, helm, hoak, hoak, by simp⟩
    rw [Addition.first?_eq_none hnone, Addition.first?_eq_none hnone']
  refine ⟨hfirst, ?_⟩
  have hsame : (run settings additions).content = (run {} additions').content :=
    content_eq_of_first (Eq.refl largestPosition) hfirst
  obtain ⟨files, stats, hfinish, -⟩ :=
    finish_few (run_took settings additions).terms (by decide)
  have hcontent : (run settings additions).content
      = .ok (files, { stats with spilledRuns := 0 }) := by
    rw [content, hfinish]
    rfl
  exact ⟨files, _, hcontent, hsame.symm.trans hcontent⟩

/-- Of two blobs of a document the first is kept. -/
theorem finish_pair {settings : BuildSettings} {first second : GlobalRecord} (hfirst : first.Taken)
    (hsecond : second.Taken) (hid : first.id = second.id) :
    (run settings [.blob first, .blob second]).globals.finish = [first] := by
  have hboth : (run settings [.blob first, .blob second]).globals.Holds [first, second] := by
    simpa [Addition.blob?, hfirst, hsecond]
      using (run_took settings [.blob first, .blob second]).globals
  have halone : (run settings [.blob first]).globals.Holds [first] := by
    simpa [Addition.blob?, hfirst] using (run_took settings [.blob first]).globals
  -- What comes second is left out, as if it had not been added.
  refine (RunSorter.finish_congr hboth halone fun key => ?_).trans (RunSorter.finish_single halone)
  have hsame : RunSorter.sameKey key second = RunSorter.sameKey key first := by
    simp only [GlobalRecord.sameKey_eq, hid]
  cases hkey : RunSorter.sameKey key first with
  | true => rw [List.find?_cons_of_pos hkey, List.find?_cons_of_pos hkey]
  | false => simp [hsame, hkey]

/-- **A refused blob does not count as the first.** Here both runs have the same additions, and for
    each key the same comes first. But that is a blob of `2 ^ 32` bytes, which is refused, and so the
    second decides. -/
theorem content_ne_of_refused_first :
    let refused : Addition := .blob ⟨5, List.replicate UInt32.size 0⟩
    let additions := [refused, .blob ⟨5, [97]⟩, .blob ⟨5, [98]⟩]
    let additions' := [refused, .blob ⟨5, [98]⟩, .blob ⟨5, [97]⟩]
    additions.Perm additions' ∧
      (∀ key, (additions.find? fun addition => addition.key = key)
        = additions'.find? fun addition => addition.key = key) ∧
      (run {} additions).content ≠ (run {} additions').content := by
  intro refused additions additions'
  refine ⟨.cons _ (.swap _ _ _), fun key => ?_, fun hsame => ?_⟩
  · by_cases hkey : refused.key = key
    · have hfirst (rest : List Addition) :
          ((refused :: rest).find? fun addition => addition.key = key) = some refused :=
        List.find?_cons_of_pos (decide_eq_true hkey)
      exact (hfirst _).trans (hfirst _).symm
    · -- Any other key is in neither run.
      have hnone (calls : List Addition) (h : ∀ addition ∈ calls, addition.key = refused.key) :
          (calls.find? fun addition => addition.key = key) = none :=
        List.find?_eq_none.2 fun addition haddition hfound =>
          hkey ((h addition haddition).symm.trans (of_decide_eq_true hfound))
      have hkeys {a b c : Bytes} : ∀ addition ∈ [Addition.blob ⟨5, a⟩, .blob ⟨5, b⟩, .blob ⟨5, c⟩],
          addition.key = refused.key := by
        simp only [List.forall_mem_cons]
        exact ⟨rfl, rfl, rfl, by simp⟩
      exact (hnone additions hkeys).trans (hnone additions' hkeys).symm
  · obtain ⟨fault, hrefusal⟩ : ∃ fault, refused.refusal? = some fault := by
      have hvalid : DocId.Valid 5 := by decide
      rw [Addition.refusal?, if_neg (not_not_intro hvalid),
        if_pos (Nat.le_of_eq List.length_replicate.symm)]
      exact ⟨_, rfl⟩
    have hrun (rest : List Addition) : run {} (refused :: rest) = run {} rest := by
      rw [run, List.foldl_cons, apply_of_refused _ hrefusal, ← run]
    rw [hrun, hrun] at hsame
    obtain ⟨files, stats, hfinish, -⟩ :=
      finish_few (run_took {} [.blob ⟨5, [97]⟩, .blob ⟨5, [98]⟩]).terms (Nat.zero_le _)
    obtain ⟨files', stats', hfinish', -⟩ :=
      finish_few (run_took {} [.blob ⟨5, [98]⟩, .blob ⟨5, [97]⟩]).terms (Nat.zero_le _)
    obtain ⟨-, -, -, -, hdata, -⟩ := finish_eq_ok hfinish
    obtain ⟨-, -, -, -, hdata', -⟩ := finish_eq_ok hfinish'
    have hfiles : files = files' := by
      rw [content, content, hfinish, hfinish'] at hsame
      exact (Prod.mk.inj (Except.ok.inj hsame)).1
    have hsmall (byte : UInt8) : GlobalRecord.Taken ⟨5, [byte]⟩ :=
      ⟨show DocId.Valid 5 by decide, show 1 < UInt32.size by decide⟩
    rw [hfiles, hdata', finish_pair (hsmall 98) (hsmall 97) rfl,
      finish_pair (hsmall 97) (hsmall 98) rfl] at hdata
    exact absurd hdata (by decide)

end Draft
end InvertedIndex
