import InvertedIndex.Proofs.Cursor.Phrase
import InvertedIndex.Proofs.Window.Places

/-!
# `Proofs.Cursor.Answer` — composed cursors and the positions they show

Sets of ids do not tell what a phrase or a filter does: both look at the windows below them. An
**answer** has the ids and, for each of them, the set of positions at which it matches; every way to
compose cursors is an operation on answers. A stream **shows** an answer when it stands, after any
moves, where the machine stands that runs on its ids, with a window that lists the positions there.

Each operation is proved for parts that show their answers in whatever way, so a tree over leaves
follows from one lemma for each kind of node.

## Contents
- `Answer`, `Answer.Shown`, `Answer.Shows`: answers, and what it is to show one;
- `Answer.inter`, `Answer.union`, `Answer.diff`, `Answer.phrase`, `Answer.filter`;
- `Answer.shows_inter`, …: composed cursors show the composed answers;
- `Shows.lists_moves`: where it stands after some moves; `Shows.mem_hits`: what draining yields;
- `MatchExpr`, `MatchExpr.windows_shown`: trees over leaves that show their answers.
-/

namespace InvertedIndex

/-! ## Answers -/

/-- Which documents match, and at which positions. -/
structure Answer where
  ids : IdList
  /-- The positions of the match in a document. -/
  places : DocId → Set Position
  /-- Whether the window is known to be empty where no id is stood on. -/
  blank : Prop

namespace Answer

/-- What a stream shows while the machine is at a phase. -/
structure Shown {S : Type} [IdStream S] (answer : Answer) (phase : Phase) (s : S) : Prop where
  current_eq : IdStream.current s = phase.current
  lists : ∀ {id}, phase = .hit id → (IdStream.window s).Lists (answer.places id)
  nothing : answer.blank → phase.current = 0 → IdStream.window s = []

/-- The stream shows the answer, now and after any moves. -/
def ShownFrom {S : Type} [IdStream S] (answer : Answer) (phase : Phase) (s : S) : Prop :=
  ∀ ms, answer.Shown (answer.ids.run ms phase) (moves IdStream.move ms s)

/-- A stream before its first move that shows the answer from there on. -/
def Shows {S : Type} [IdStream S] (answer : Answer) (s : S) : Prop := answer.ShownFrom .fresh s

/-- Only what an answer has on its ids matters, and what is known of it elsewhere. -/
theorem Shows.congr {S : Type} [IdStream S] {answer other : Answer} {s : S} (h : answer.Shows s)
    (hids : other.ids = answer.ids) (hplaces : ∀ {id}, id ∈ answer.ids → other.places id = answer.places id)
    (hblank : other.blank → answer.blank) : other.Shows s := by
  intro ms
  obtain ⟨hcurrent, hlists, hnothing⟩ := h ms
  rw [hids]
  refine ⟨hcurrent, ?_, fun hother => hnothing (hblank hother)⟩
  intro id hphase
  rw [hplaces (IdList.has_run IdList.has_fresh ms id hphase)]
  exact hlists hphase

theorem Shows.obeys {S : Type} [IdStream S] {answer : Answer} {s : S} (h : answer.Shows s) :
    Obeys answer.ids .fresh s := fun ms => (h ms).current_eq

/-! ### Operations on answers -/

/-- The ids of a set, at no position. -/
noncomputable def ofIds (set : Set DocId) : Answer := ⟨.ofSet set, fun _ => ∅, True⟩

/-- What all of the answers have, at no position; nothing if there are none. -/
noncomputable def inter (answers : List Answer) : Answer :=
  ofIds {id | answers ≠ [] ∧ ∀ answer ∈ answers, id ∈ answer.ids}

/-- What any of the answers has. Unless ids alone are united, a document matches at the positions
    that the answers with it have. -/
noncomputable def union (kind : UnionKind) (answers : List Answer) : Answer where
  ids := .ofSet {id | ∃ answer ∈ answers, id ∈ answer.ids}
  places id := {p | kind ≠ .plain ∧ ∃ answer ∈ answers, id ∈ answer.ids ∧ p ∈ answer.places id}
  blank := True

/-- What the dropped answer does not have of the kept one, at the positions of that. -/
noncomputable def diff (kept dropped : Answer) : Answer where
  ids := .ofSet {id | id ∈ kept.ids ∧ id ∉ dropped.ids}
  places := kept.places
  blank := kept.blank

/-- The positions from which the answers have consecutive ones in a document. -/
def starts (answers : List Answer) (id : DocId) : Set Position :=
  {p | answers ≠ [] ∧ Consecutive p.toNat (answers.map fun answer => answer.places id)}

/-- What all of the answers have at consecutive positions, at the first of these. -/
noncomputable def phrase (answers : List Answer) : Answer where
  ids := .ofSet {id | (∀ answer ∈ answers, id ∈ answer.ids) ∧ (starts answers id).Nonempty}
  places := starts answers
  blank := True

/-- What the answer has where its positions meet all conditions. -/
noncomputable def filter (inner : Answer) (conditions : List Condition) : Answer where
  ids := .ofSet {id | id ∈ inner.ids ∧ ∀ condition ∈ conditions, condition.Met (inner.places id)}
  places := inner.places
  blank := inner.blank

section Members

variable {answers : List Answer} {kept dropped inner : Answer} {conditions : List Condition}
  {id : DocId}

/-- No answer has the id `0`. -/
theorem mem_ofIds {set : Set DocId} : id ∈ (ofIds set).ids ↔ id ≠ 0 ∧ id ∈ set :=
  IdList.mem_ofSet

theorem mem_inter : id ∈ (inter answers).ids ↔ answers ≠ [] ∧ ∀ answer ∈ answers, id ∈ answer.ids := by
  rw [inter, mem_ofIds]
  refine and_iff_right_of_imp ?_
  rintro ⟨hne, hall⟩
  obtain ⟨answer, hanswer⟩ := List.exists_mem_of_ne_nil _ hne
  exact IdList.ne_zero (hall answer hanswer)

theorem mem_union {kind : UnionKind} :
    id ∈ (union kind answers).ids ↔ ∃ answer ∈ answers, id ∈ answer.ids := by
  rw [union, IdList.mem_ofSet]
  refine and_iff_right_of_imp ?_
  rintro ⟨answer, -, hid⟩
  exact IdList.ne_zero hid

theorem mem_diff : id ∈ (kept.diff dropped).ids ↔ id ∈ kept.ids ∧ id ∉ dropped.ids := by
  rw [diff, IdList.mem_ofSet]
  exact and_iff_right_of_imp fun h => IdList.ne_zero h.1

theorem mem_phrase : id ∈ (phrase answers).ids ↔
    (∀ answer ∈ answers, id ∈ answer.ids) ∧ (starts answers id).Nonempty := by
  rw [phrase, IdList.mem_ofSet]
  refine and_iff_right_of_imp ?_
  rintro ⟨hall, p, hne, -⟩
  obtain ⟨answer, hanswer⟩ := List.exists_mem_of_ne_nil _ hne
  exact IdList.ne_zero (hall answer hanswer)

theorem mem_filter : id ∈ (inner.filter conditions).ids ↔
    id ∈ inner.ids ∧ ∀ condition ∈ conditions, condition.Met (inner.places id) := by
  rw [filter, IdList.mem_ofSet]
  exact and_iff_right_of_imp fun h => IdList.ne_zero h.1

-- Rewritten with, not seen by definition: lists of ids are too long to be compared by unfolding.
theorem diff_blank : (kept.diff dropped).blank = kept.blank := by
  rw [diff]

theorem filter_blank : (inner.filter conditions).blank = inner.blank := by
  rw [filter]

end Members

end Answer

/-! ## Cursors that show an answer, whatever they are -/

namespace Cursor

variable {L : Type} [IdStream L] {n : Nat}

/-- A bound on the height serves for any moves. -/
theorem moves_within {c : Cursor L} (h : c.height ≤ n) (ms : List Move) :
    moves (moveWithin n) ms c = moves IdStream.move ms c := by
  induction ms generalizing c with
  | nil => rfl
  | cons m ms ih =>
    have hmoved : (moveWithin n m c).height ≤ n := (height_moveWithin n m c).trans_le h
    have htail := ih hmoved
    rw [moveWithin_eq_move m h] at htail
    show moves (moveWithin n) ms (moveWithin n m c) = _
    rw [moveWithin_eq_move m h]
    exact htail

variable (n) in
/-- The cursors up to a height that show an answer. -/
def answerSim (answer : Answer) : Sim L n where
  ids := answer.ids
  At phase c := answer.ids.Has phase ∧ c.height ≤ n ∧ answer.ShownFrom phase c
  has h := h.1
  current_eq h := (h.2.2 []).current_eq
  move_at := by
    rintro m phase c ⟨hphase, hheight, hshown⟩
    refine ⟨IdList.has_move hphase m, (height_moveWithin n m c).trans_le hheight, ?_⟩
    rw [moveWithin_eq_move m hheight]
    exact fun ms => hshown (m :: ms)

theorem shown_of_at {answer : Answer} {phase : Phase} {c : Cursor L}
    (h : (answerSim n answer).At phase c) : answer.Shown phase c := h.2.2 []

theorem lists_of_at {answer : Answer} {id : DocId} {c : Cursor L}
    (h : (answerSim n answer).At (.hit id) c) : c.window.Lists (answer.places id) :=
  (shown_of_at h).lists rfl

theorem answerSim_fresh {answer : Answer} {c : Cursor L} (hheight : c.height ≤ n)
    (h : answer.Shows c) : (answerSim n answer).At .fresh c := ⟨IdList.has_fresh, hheight, h⟩

/-- A simulation on the ids of an answer whose states all show it proves that a cursor does. -/
theorem shows_of_sim {answer : Answer} {c : Cursor L} (sim : Sim L n) (hids : sim.ids = answer.ids)
    (hshown : ∀ {phase c}, sim.At phase c → answer.Shown phase c) (hheight : c.height ≤ n)
    (h : sim.At .fresh c) : answer.Shows c := by
  intro ms
  rw [← hids, ← moves_within hheight]
  exact hshown (sim.run_at h ms)

section Parts

variable {answers : List Answer} {subs : List (Cursor L)}

theorem allAt_fresh (hheight : height.heights subs ≤ n)
    (h : List.Forall₂ (fun answer c => answer.Shows c) answers subs) :
    AllAt (answers.map (answerSim n)) .fresh subs := by
  rw [heights_le] at hheight
  induction h with
  | nil => exact .nil
  | cons hshows _ ih =>
    obtain ⟨hhead, htail⟩ := List.forall_mem_cons.1 hheight
    exact .cons (answerSim_fresh hhead hshows) (ih htail)

theorem forall_answerSims {id : DocId} :
    (∀ sim ∈ answers.map (answerSim (L := L) n), id ∈ sim.ids) ↔ ∀ answer ∈ answers, id ∈ answer.ids :=
  List.forall_mem_map

theorem exists_answerSims {id : DocId} :
    (∃ sim ∈ answers.map (answerSim (L := L) n), id ∈ sim.ids)
      ↔ ∃ answer ∈ answers, id ∈ answer.ids := by
  simp only [List.mem_map, exists_exists_and_eq_and]
  exact Iff.rfl

/-- The windows of parts that stand together on an id. -/
theorem windows_lists {id : DocId} (h : AllAt (answers.map (answerSim n)) (.hit id) subs) :
    List.Forall₂ Window.Lists (window.windows subs) (answers.map fun answer => answer.places id) := by
  induction subs generalizing answers with
  | nil =>
    rw [List.map_eq_nil_iff.1 (List.forall₂_nil_right_iff.1 h)]
    exact .nil
  | cons c rest ih =>
    cases answers with
    | nil => cases h
    | cons answer answers =>
      obtain ⟨hhead, htail⟩ := List.forall₂_cons.1 h
      exact .cons (lists_of_at hhead) (ih htail)

open Classical in
/-- The windows of those parts of a union that have the current id. -/
theorem windowsAt_lists {id : DocId} (hid : id ≠ 0)
    (h : AllFirst (answers.map (answerSim n)) id.toNat subs) :
    List.Forall₂ Window.Lists (window.windowsAt id subs)
      ((answers.filter fun answer => id ∈ answer.ids).map fun answer => answer.places id) := by
  induction subs generalizing answers with
  | nil =>
    rw [List.map_eq_nil_iff.1 (List.forall₂_nil_right_iff.1 h)]
    exact .nil
  | cons c rest ih =>
    cases answers with
    | nil => cases h
    | cons answer answers =>
      obtain ⟨hhead, htail⟩ := List.forall₂_cons.1 h
      rw [window.windowsAt]
      by_cases hthere : id ∈ answer.ids
      · rw [if_pos ((current_eq_iff hid hhead).2 hthere), List.filter_cons_of_pos (by simpa using hthere),
          List.map_cons]
        exact .cons (lists_of_at (at_of_first hthere hhead)) (ih htail)
      · rw [if_neg (mt (current_eq_iff hid hhead).1 hthere),
          List.filter_cons_of_neg (by simpa using hthere)]
        exact ih htail

end Parts

/-! ## Phrases -/

/-- A phrase takes the ids of all answers from which these have consecutive positions. -/
theorem answers_taken {answers : List Answer} {ids : IdList} (hids : ∀ id, id ∈ ids ↔
    (∀ answer ∈ answers, id ∈ answer.ids) ∧ (Answer.starts answers id).Nonempty) :
    Taken (answers.map (answerSim (L := L) n)) ids where
  common id hid := forall_answerSims.2 ((hids id).1 hid).1
  aligned := by
    intro id subs hat
    -- The parts stand on the id together, so their windows list the positions there.
    have hlists : (Window.alignments (subs.map window)).Lists (Answer.starts answers id) := by
      have halign := Window.alignments_lists (windows_lists hat)
      rw [windows_eq_map] at halign
      simpa [Answer.starts] using halign
    rw [hids, and_iff_right (forall_answerSims.1 hat.mem), Ne, hlists.eq_nil_iff, not_not]

/-- A phrase has the ids that all parts have at consecutive positions. -/
def phraseSim (answers : List Answer) (ids : IdList) (hids : ∀ id, id ∈ ids ↔
    (∀ answer ∈ answers, id ∈ answer.ids) ∧ (Answer.starts answers id).Nonempty) :
    Sim L (n + 1) :=
  alignedSim (answers.map (answerSim n)) ids (answers_taken hids)

/-! ## Filters -/

section Filter

variable {answer : Answer} {conditions : List Condition} {ids : IdList}
  (hids : ∀ id, id ∈ ids ↔
    id ∈ answer.ids ∧ ∀ condition ∈ conditions, condition.Met (answer.places id))

include hids

/-- Trying an id of the inner cursor: it is taken if its positions meet the conditions. -/
theorem attemptFilter_spec {c : Cursor L} (hat : (answerSim n answer).At (.hit c.current) c) :
    (c.current ∈ ids ∧ attemptFilter (moveWithin n) conditions c = .accept c) ∨
      (c.current ∉ ids ∧
        ∃ c', attemptFilter (moveWithin n) conditions c = .retry c' ∧
          (answerSim n answer).At (.ofId (answer.ids.first (c.current.toNat + 1))) c') := by
  have hthere : c.current ∈ answer.ids := (answerSim n answer).has hat _ rfl
  have hholds : (conditions.all (Condition.holds c.window)) = true ↔
      ∀ condition ∈ conditions, condition.Met (answer.places c.current) := by
    rw [List.all_eq_true]
    exact forall₂_congr fun condition _ => condition.holds_iff (lists_of_at hat)
  unfold attemptFilter
  by_cases hmet : ∀ condition ∈ conditions, condition.Met (answer.places c.current)
  · rw [if_pos (hholds.2 hmet)]
    exact .inl ⟨(hids _).2 ⟨hthere, hmet⟩, rfl⟩
  · rw [if_neg (mt hholds.1 hmet)]
    refine .inr ⟨fun h => hmet ((hids _).1 h).2, _, rfl, ?_⟩
    exact Simulation.move_first (m := .next) hat Phase.hit_ne_spent (by simp [Move.rests])

/-- The search for the next id of a filter finds the first one at or after a bound. -/
theorem settleFilter_spec {low : Nat} {c : Cursor L}
    (h : (answerSim n answer).At (.ofId (answer.ids.first low)) c) :
    (answerSim n answer).At (.ofId (ids.first low))
      (settle current (attemptFilter (moveWithin n) conditions) c).1 := by
  have hstands {bound : Nat} {c : Cursor L}
      (hat : (answerSim n answer).At (.ofId (answer.ids.first bound)) c) :
      c.current = answer.ids.first bound :=
    ((answerSim n answer).current_eq hat).trans (Phase.ofId_current _)
  have htry {bound : Nat} {c : Cursor L}
      (hat : (answerSim n answer).At (.ofId (answer.ids.first bound)) c) (hne : c.current ≠ 0) :=
    attemptFilter_spec hids (by rwa [← hstands hat, Phase.ofId_of_ne hne] at hat)
  have hfound := settle_first current (attemptFilter (moveWithin n) conditions) _
    (fun id hid => ((hids id).1 hid).1) hstands htry h
  obtain ⟨-, hfirst, bound, hat⟩ := hfound
  rwa [← hstands hat, hfirst] at hat

end Filter

/-- A filter has the ids whose positions meet all conditions. -/
def filterSim (answer : Answer) (conditions : List Condition) (ids : IdList)
    (hids : ∀ id, id ∈ ids ↔
      id ∈ answer.ids ∧ ∀ condition ∈ conditions, condition.Met (answer.places id)) :
    Sim L (n + 1) where
  ids := ids
  At phase c := ids.Has phase ∧
    ∃ inner, c = .filter inner conditions ∧ (answerSim n answer).At phase inner
  has h := h.1
  current_eq := by
    rintro phase _ ⟨-, inner, rfl, hinner⟩
    show inner.current = phase.current
    exact (answerSim n answer).current_eq hinner
  move_at := by
    rintro m phase _ ⟨hphase, inner, rfl, hinner⟩
    refine ⟨IdList.has_move hphase m, ?_⟩
    have hcurrent := (answerSim n answer).current_eq hinner
    by_cases hrest : m.rests phase.current
    · rw [moveWithin_filter_rests (hcurrent ▸ hrest), IdList.move_rests hrest]
      exact ⟨inner, rfl, hinner⟩
    · rw [moveWithin_filter (hcurrent ▸ hrest)]
      -- A spent inner cursor stays spent.
      by_cases hspent : phase = .spent
      · subst hspent
        have hmoved := (answerSim n answer).move_at m hinner
        rw [IdList.move_spent] at hmoved ⊢
        have hgone : (moveWithin n m inner).current = 0 := (answerSim n answer).current_eq hmoved
        rw [settle, if_pos hgone]
        exact ⟨_, rfl, hmoved⟩
      · rw [IdList.move_eq hspent hrest]
        have hmoved := Simulation.move_first hinner hspent hrest
        exact ⟨_, rfl, settleFilter_spec hids hmoved⟩

end Cursor

/-! ## Composed answers -/

namespace Answer

variable {L : Type} [IdStream L]

open Cursor

/-- A cursor that never shows a window has the empty set of positions everywhere. -/
theorem shown_without_window {set : Set DocId} {phase : Phase} {c : Cursor L}
    (hcurrent : c.current = phase.current) (hwindow : c.window = []) :
    (ofIds set).Shown phase c where
  current_eq := hcurrent
  lists _ := by
    show c.window.Lists ∅
    rw [hwindow]
    exact Window.lists_nil
  nothing _ _ := hwindow

theorem shows_empty : (ofIds ∅).Shows (.empty : Cursor L) := by
  have hnone (id : DocId) : id ∉ (ofIds ∅).ids := fun h => (mem_ofIds.1 h).2
  refine shows_of_sim (n := 1) (stillSim (ofIds ∅).ids hnone .empty rfl fun _ => rfl) rfl ?_ le_rfl
    ⟨IdList.has_fresh, rfl⟩
  intro phase c h
  refine shown_without_window (Simulation.current_eq _ h) ?_
  obtain ⟨-, rfl⟩ := h
  rfl

theorem shows_range (start stop : DocId) :
    (ofIds {id | start ≤ id ∧ id < stop}).Shows (.ofRange start stop : Cursor L) := by
  have hstart : (if start = 0 then 1 else start) ≠ 0 := by
    split
    · decide
    · assumption
  have hids (id : DocId) : id ∈ (ofIds {id | start ≤ id ∧ id < stop}).ids ↔
      (if start = 0 then 1 else start) ≤ id ∧ id < stop := by
    rw [mem_ofIds, ← SetExpr.mem_range (L := L), IdList.mem_ofSet]
    refine and_congr_right fun hne => (and_iff_right ?_).symm
    exact UInt32.le_iff_toNat_le.2 (UInt32.lt_iff_toNat_lt.1 (UInt32.pos_iff_ne_zero.2 hne))
  refine shows_of_sim (n := 1) (rangeSim _ hstart hids) rfl ?_ le_rfl ⟨IdList.has_fresh, rfl⟩
  rintro phase _ ⟨hphase, rfl⟩
  exact shown_without_window rfl rfl

theorem shows_single (id : DocId) : (ofIds {id}).Shows (.ofId id : Cursor L) := by
  -- There is no document with the id `0`, so that cursor is spent from the start.
  by_cases hzero : id = 0
  · have hnone (other : DocId) : other ∉ (ofIds {id}).ids := by
      rw [mem_ofIds, hzero]
      exact fun h => h.1 h.2
    have hcursor : (.ofId id : Cursor L) = .single id .spent :=
      congrArg (Cursor.single id) (if_pos hzero)
    rw [hcursor]
    refine shows_of_sim (n := 1) (stillSim _ hnone (.single id .spent) rfl ?_) rfl ?_ le_rfl
      ⟨IdList.has_fresh, rfl⟩
    · intro m
      cases m <;> rfl
    · intro phase c h
      refine shown_without_window (Simulation.current_eq _ h) ?_
      obtain ⟨-, rfl⟩ := h
      rfl
  · have hone (other : DocId) : other ∈ (ofIds {id}).ids ↔ other = id := by
      rw [mem_ofIds]
      refine and_iff_right_of_imp ?_
      rintro rfl
      exact hzero
    have hcursor : (.ofId id : Cursor L) = .single id .fresh :=
      congrArg (Cursor.single id) (if_neg hzero)
    rw [hcursor]
    refine shows_of_sim (n := 1) (singleSim _ hzero hone) rfl ?_ le_rfl ⟨IdList.has_fresh, rfl⟩
    rintro phase _ ⟨-, rfl⟩
    exact shown_without_window rfl rfl

/-- A leaf shows what its stream shows. -/
theorem shows_leaf {answer : Answer} {l : L} (h : answer.Shows l) :
    answer.Shows (.leaf l : Cursor L) := by
  have hmoves (ms : List Move) (l : L) :
      moves IdStream.move ms (.leaf l : Cursor L) = .leaf (moves IdStream.move ms l) := by
    induction ms generalizing l with
    | nil => rfl
    | cons m ms ih =>
      have hmove : IdStream.move m (.leaf l : Cursor L) = .leaf (IdStream.move m l) := by
        cases m <;> rfl
      exact (congrArg (moves IdStream.move ms) hmove).trans (ih _)
  intro ms
  obtain ⟨hcurrent, hlists, hnothing⟩ := h ms
  rw [hmoves]
  exact ⟨hcurrent, hlists, hnothing⟩

section Parts

variable {answers : List Answer} {subs : List (Cursor L)}
  (hsubs : List.Forall₂ (fun answer c => answer.Shows c) answers subs)

include hsubs

/-- An intersection shows what all its parts have, without positions. -/
theorem shows_inter : (inter answers).Shows (Cursor.interOf subs) := by
  have hids (id : DocId) : id ∈ (inter answers).ids ↔ answers.map (answerSim (L := L)
      (height.heights subs)) ≠ [] ∧
      ∀ sim ∈ answers.map (answerSim (L := L) (height.heights subs)), id ∈ sim.ids := by
    rw [forall_answerSims, Ne, List.map_eq_nil_iff]
    exact mem_inter
  refine shows_of_sim (interSim _ (inter answers).ids hids) rfl ?_ le_rfl
    ⟨IdList.has_fresh, subs, rfl, fun _ => allAt_fresh le_rfl hsubs⟩
  rintro phase _ ⟨-, subs', rfl, -⟩
  exact shown_without_window rfl rfl

/-- A union shows what any of its parts has, at the positions of all parts that have it. -/
theorem shows_union (kind : UnionKind) : (union kind answers).Shows (Cursor.unionOf kind subs) := by
  have hids (id : DocId) : id ∈ (union kind answers).ids ↔
      ∃ sim ∈ answers.map (answerSim (L := L) (height.heights subs)), id ∈ sim.ids := by
    rw [exists_answerSims]
    exact mem_union
  refine shows_of_sim (unionSim _ kind (union kind answers).ids hids) rfl ?_ le_rfl
    ⟨IdList.has_fresh, subs, rfl, allAt_fresh le_rfl hsubs⟩
  rintro phase _ ⟨hphase, subs', rfl, hwaiting⟩
  refine ⟨rfl, ?_, ?_⟩
  · rintro id rfl
    have hne := IdList.ne_zero (hphase id rfl)
    have hlists := Window.unite_lists (windowsAt_lists hne hwaiting)
    have hunited : Window.Lists (if id = 0 then [] else Window.unite (window.windowsAt id subs'))
        {p | ∃ answer ∈ answers, id ∈ answer.ids ∧ p ∈ answer.places id} := by
      rw [if_neg hne]
      simpa [and_assoc] using hlists
    -- A plain union has no window at all; the others unite those of the parts that stand on the id.
    cases kind with
    | plain =>
      show Window.Lists [] _
      simpa [union] using Window.lists_nil
    | positional | wildcard =>
      show Window.Lists (if id = 0 then [] else Window.unite (window.windowsAt id subs')) _
      simpa [union] using hunited
  · intro _ hzero
    cases kind with
    | plain => rfl
    | positional => exact if_pos hzero
    | wildcard => exact if_pos hzero

/-- A phrase shows where its parts have consecutive positions. -/
theorem shows_phrase : (phrase answers).Shows (Cursor.phraseOf subs) := by
  refine shows_of_sim (phraseSim answers (phrase answers).ids fun _ => mem_phrase) rfl ?_ le_rfl
    ⟨IdList.has_fresh, subs, rfl, fun _ => allAt_fresh le_rfl hsubs⟩
  rintro phase _ ⟨hphase, subs', rfl, htogether⟩
  refine ⟨rfl, ?_, ?_⟩
  · rintro id rfl
    have hne := IdList.ne_zero (hphase id rfl)
    have hlists := Window.alignments_lists (windows_lists (htogether Phase.hit_ne_spent))
    have hwindow : Cursor.window (.phrase subs' (.hit id)) = Window.alignments (window.windows subs') :=
      if_neg hne
    show (Cursor.window _).Lists _
    rw [hwindow]
    simpa [phrase, starts] using hlists
  · intro _ hzero
    exact if_pos hzero

/-- The cursor of a stem shows the union, even of a single cursor or none. -/
theorem shows_wildcard (hblank : ∀ answer ∈ answers, answer.blank) :
    (union .wildcard answers).Shows (Cursor.wildcard subs) := by
  match answers, subs, hsubs with
  | [], [], .nil =>
    refine shows_empty.congr ?_ (fun hid => absurd (mem_ofIds.1 hid).2 (Set.notMem_empty _)) ?_
    · refine IdList.ext_mem fun id => ?_
      rw [mem_union, mem_ofIds]
      simp
    · exact fun _ => trivial
  | [answer], [c], .cons hc .nil =>
    refine hc.congr (IdList.ext_mem fun id => ?_) ?_ fun _ => hblank answer List.mem_cons_self
    · rw [mem_union]
      simp
    · intro id hid
      ext p
      simp [union, hid]
  | answer :: other :: answers, c :: c' :: subs, hsubs => exact shows_union hsubs .wildcard

end Parts

/-- A difference shows the part that it keeps. -/
theorem shows_diff {kept dropped : Answer} {k d : Cursor L} (hk : kept.Shows k)
    (hd : dropped.Shows d) : (kept.diff dropped).Shows (Cursor.diff k d) := by
  refine shows_of_sim (diffSim (answerSim (max k.height d.height) kept)
    (answerSim (max k.height d.height) dropped) (kept.diff dropped).ids fun _ => mem_diff) rfl ?_ le_rfl
    ⟨IdList.has_fresh, k, d, rfl, answerSim_fresh (Nat.le_max_left _ _) hk,
      fun _ => .inl (answerSim_fresh (Nat.le_max_right _ _) hd)⟩
  rintro phase _ ⟨-, k', d', rfl, hk', -⟩
  obtain ⟨hcurrent, hlists, hnothing⟩ := shown_of_at hk'
  exact ⟨hcurrent, hlists, fun hblank => hnothing (diff_blank ▸ hblank)⟩

/-- A filter shows its inner cursor. -/
theorem shows_filter {answer : Answer} {c : Cursor L} (h : answer.Shows c)
    (conditions : List Condition) : (answer.filter conditions).Shows (Cursor.filter c conditions) := by
  refine shows_of_sim (filterSim answer conditions (answer.filter conditions).ids fun _ => mem_filter) rfl
    ?_ le_rfl
    ⟨IdList.has_fresh, c, rfl, answerSim_fresh le_rfl h⟩
  rintro phase _ ⟨-, c', rfl, hc'⟩
  obtain ⟨hcurrent, hlists, hnothing⟩ := shown_of_at hc'
  exact ⟨hcurrent, hlists, fun hblank => hnothing (filter_blank ▸ hblank)⟩

/-! ### Draining -/

/-- Draining makes moves. -/
theorem exists_moves_of_mem_drain {S : Type} [IdStream S] {s t : S} (h : t ∈ IdStream.drain s) :
    ∃ ms, t = moves IdStream.move ms s := by
  fun_induction IdStream.drain s with
  | case1 s hlt ih =>
    rcases List.mem_cons.1 h with rfl | h
    · exact ⟨[.next], rfl⟩
    · obtain ⟨ms, rfl⟩ := ih h
      exact ⟨.next :: ms, rfl⟩
  | case2 s hle => exact ⟨[.next], List.mem_singleton.1 h⟩

/-- Draining yields a window for each id. -/
theorem Shows.exists_hit {S : Type} [IdStream S] {answer : Answer} {s : S} (h : answer.Shows s)
    {id : DocId} (hid : id ∈ answer.ids) : ∃ window, (id, window) ∈ IdStream.hits s := by
  have hmem : id ∈ IdStream.ids s := by rwa [h.obeys.ids_eq]
  obtain ⟨hdrained, hne⟩ := List.mem_filter.1 hmem
  obtain ⟨t, ht, rfl⟩ := List.mem_map.1 hdrained
  exact ⟨IdStream.window t, List.mem_filter.2 ⟨List.mem_map_of_mem ht, hne⟩⟩

/-- Wherever it stands after some moves, the window lists the positions of the answer. -/
theorem Shows.lists_moves {S : Type} [IdStream S] {answer : Answer} {s : S} (h : answer.Shows s)
    (ms : List Move) (hne : IdStream.current (moves IdStream.move ms s) ≠ 0) :
    let id := IdStream.current (moves IdStream.move ms s)
    id ∈ answer.ids ∧ (IdStream.window (moves IdStream.move ms s)).Lists (answer.places id) := by
  intro id
  have hshown := h ms
  have hhas : answer.ids.Has (answer.ids.run ms .fresh) := IdList.has_run IdList.has_fresh ms
  cases hphase : answer.ids.run ms .fresh with
  | fresh | spent =>
    rw [hphase] at hshown
    exact absurd hshown.current_eq hne
  | hit other =>
    rw [hphase] at hshown hhas
    have hid : id = other := hshown.current_eq
    rw [hid]
    exact ⟨hhas other rfl, hshown.lists rfl⟩

/-- **Draining yields the answer**: its ids, each with the window that lists its positions. -/
theorem Shows.mem_hits {S : Type} [IdStream S] {answer : Answer} {s : S} (h : answer.Shows s)
    {id : DocId} {window : Window} :
    (id, window) ∈ IdStream.hits s ↔ id ∈ answer.ids ∧ window.Lists (answer.places id) := by
  have hlists {id : DocId} {window : Window} (hhit : (id, window) ∈ IdStream.hits s) :
      id ∈ answer.ids ∧ window.Lists (answer.places id) := by
    obtain ⟨hmap, hne⟩ := List.mem_filter.1 hhit
    obtain ⟨t, ht, heq⟩ := List.mem_map.1 hmap
    obtain ⟨rfl, rfl⟩ := Prod.mk.inj heq
    -- Each state of the draining is reached by moves, so it shows what the answer has there.
    obtain ⟨ms, rfl⟩ := exists_moves_of_mem_drain ht
    exact h.lists_moves ms (by simpa using hne)
  constructor
  · exact hlists
  · rintro ⟨hid, hwindow⟩
    obtain ⟨other, hhit⟩ := h.exists_hit hid
    obtain rfl := (hlists hhit).2.unique hwindow
    exact hhit

end Answer

/-! ## Trees -/

/-- A tree over leaves that show their answers. -/
inductive MatchExpr (L : Type) [IdStream L] where
  | empty
  | leaf (c : Cursor L) (answer : Answer) (shows : answer.Shows c)
  | range (start stop : DocId)
  | single (id : DocId)
  | inter (subs : List (MatchExpr L))
  | union (kind : UnionKind) (subs : List (MatchExpr L))
  | diff (kept dropped : MatchExpr L)
  | phrase (subs : List (MatchExpr L))
  | filter (inner : MatchExpr L) (conditions : List Condition)

namespace MatchExpr

variable {L : Type} [IdStream L]

/-- The tree as a cursor before its first move. -/
def cursor : MatchExpr L → Cursor L
  | .empty => .empty
  | .leaf c _ _ => c
  | .range start stop => .ofRange start stop
  | .single id => .ofId id
  | .inter subs => .interOf (cursors subs)
  | .union kind subs => .unionOf kind (cursors subs)
  | .diff kept dropped => .diff kept.cursor dropped.cursor
  | .phrase subs => .phraseOf (cursors subs)
  | .filter inner conditions => .filter inner.cursor conditions
where
  cursors : List (MatchExpr L) → List (Cursor L)
    | [] => []
    | e :: rest => e.cursor :: cursors rest

/-- What the tree has to show. -/
noncomputable def answer : MatchExpr L → Answer
  | .empty => .ofIds ∅
  | .leaf _ answer _ => answer
  | .range start stop => .ofIds {id | start ≤ id ∧ id < stop}
  | .single id => .ofIds {id}
  | .inter subs => .inter (answers subs)
  | .union kind subs => .union kind (answers subs)
  | .diff kept dropped => .diff kept.answer dropped.answer
  | .phrase subs => .phrase (answers subs)
  | .filter inner conditions => inner.answer.filter conditions
where
  answers : List (MatchExpr L) → List Answer
    | [] => []
    | e :: rest => e.answer :: answers rest

mutual

/-- The cursor of a tree shows the answer of the tree. -/
theorem shows : (e : MatchExpr L) → e.answer.Shows e.cursor
  | .empty => Answer.shows_empty
  | .leaf _ _ shows => shows
  | .range start stop => Answer.shows_range start stop
  | .single id => Answer.shows_single id
  | .inter subs => Answer.shows_inter (all_show subs)
  | .union kind subs => Answer.shows_union (all_show subs) kind
  | .diff kept dropped => Answer.shows_diff kept.shows dropped.shows
  | .phrase subs => Answer.shows_phrase (all_show subs)
  | .filter inner conditions => Answer.shows_filter inner.shows conditions

theorem all_show : (subs : List (MatchExpr L)) →
    List.Forall₂ (fun answer c => answer.Shows c) (answer.answers subs) (cursor.cursors subs)
  | [] => .nil
  | e :: rest => .cons e.shows (all_show rest)

end

/-- **Windows stay in step with ids**: through any moves, the cursor of a tree stands where the
    machine stands that runs on the ids of its answer; on an id, its window lists the positions that
    the answer has there; and where it stands on none, its window is empty, unless it is the window of
    a leaf that shows something else there. -/
theorem windows_shown (e : MatchExpr L) (ms : List Move) :
    let phase := e.answer.ids.run ms .fresh
    let c := moves IdStream.move ms e.cursor
    c.current = phase.current ∧
      (∀ id, phase = .hit id → c.window.Lists (e.answer.places id)) ∧
      (phase.current = 0 → e.answer.blank → c.window = []) := by
  obtain ⟨hcurrent, hlists, hnothing⟩ := e.shows ms
  exact ⟨hcurrent, fun id => hlists, fun hzero hblank => hnothing hblank hzero⟩

end MatchExpr
end InvertedIndex
