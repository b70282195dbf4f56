import InvertedIndex.Proofs.Cursor.Step

/-!
# `Proofs.Cursor.Map` — cursors over streams that behave alike

Replacing the leaves of a cursor by others that behave alike leaves its behaviour unchanged. When the
replacement is a function that commutes with every observation and move, it commutes with those of
the whole cursor. A relation between two types of streams that every move keeps is reduced to this
case: the pairs that it holds of are streams themselves, and both sides are images of them.

## Contents
- `Cursor.map`: the leaves replaced;
- `StreamHom`: replacements that commute with observations and moves;
- `Cursor.map_move`: so does `Cursor.map`;
- `Bisimulation`, `Bisimulation.Pair`, `Bisimulation.Lifts`: related streams, and cursors over them;
- `Bisimulation.cursors`: cursors over related leaves are related.
-/

namespace InvertedIndex

/-! ## Loops -/

/-- An attempt with another state in it. -/
def Attempt.map {S T : Type} (g : S → T) : Attempt S → Attempt T
  | .accept s => .accept (g s)
  | .retry s => .retry (g s)

/-- A loop over the images of states ends in the image of where the loop over the states ends. -/
theorem settle_map {S T : Type} {candidate : S → DocId} {attempt : S → Attempt S}
    {candidate' : T → DocId} {attempt' : T → Attempt T} (g : S → T)
    (hcandidate : ∀ s, candidate' (g s) = candidate s)
    (hattempt : ∀ s, attempt' (g s) = (attempt s).map g) (s : S) :
    settle candidate' attempt' (g s)
      = (g (settle candidate attempt s).1, (settle candidate attempt s).2) := by
  fun_induction settle candidate attempt s with
  | case1 s hzero =>
    rw [settle, if_pos ((hcandidate s).trans hzero)]
  | case2 s hne s' haccept =>
    rw [settle, if_neg (fun h => hne ((hcandidate s).symm.trans h)), hattempt, haccept]
    simp only [Attempt.map, hcandidate]
  | case3 s hne s' hretry hlt ih =>
    rw [settle, if_neg (fun h => hne ((hcandidate s).symm.trans h)), hattempt, hretry]
    simp only [Attempt.map, hcandidate, if_pos hlt]
    exact ih
  | case4 s hne s' hretry hlt =>
    rw [settle, if_neg (fun h => hne ((hcandidate s).symm.trans h)), hattempt, hretry]
    simp only [Attempt.map, hcandidate, if_neg hlt]

section Loops

variable {C D : Type} {current : C → DocId} {seek : DocId → C → C} {current' : D → DocId}
  {seek' : DocId → D → D} {g : C → D}

theorem seekAll_map (hcurrent : ∀ c, current' (g c) = current c)
    (hseek : ∀ id c, seek' id (g c) = g (seek id c)) (id : DocId) (others : List C) :
    seekAll current' seek' id (others.map g)
      = ((seekAll current seek id others).1.map g, (seekAll current seek id others).2) := by
  induction others with
  | nil => rfl
  | cons c rest ih =>
    rw [List.map_cons]
    unfold seekAll
    simp only [hseek, hcurrent]
    split
    · rw [ih]
      rfl
    · rfl

theorem align_map (hcurrent : ∀ c, current' (g c) = current c)
    (hseek : ∀ id c, seek' id (g c) = g (seek id c)) (s : C × List C) :
    align current' seek' (Prod.map g (List.map g) s)
      = (Prod.map g (List.map g) (align current seek s).1, (align current seek s).2) := by
  refine settle_map (Prod.map g (List.map g)) (fun s => hcurrent s.1) ?_ s
  rintro ⟨c, others⟩
  simp only [Prod.map, hcurrent, seekAll_map hcurrent hseek]
  split
  · rfl
  · simp only [Attempt.map, Prod.map, hseek]

end Loops

/-! ## Cursors with other leaves -/

namespace Cursor

variable {L L' : Type}

/-- The cursor with each leaf replaced. -/
def map (f : L → L') : Cursor L → Cursor L'
  | .empty => .empty
  | .leaf l => .leaf (f l)
  | .range start stop phase => .range start stop phase
  | .single id phase => .single id phase
  | .inter subs phase => .inter (maps f subs) phase
  | .union kind subs phase => .union kind (maps f subs) phase
  | .diff kept dropped => .diff (kept.map f) (dropped.map f)
  | .phrase subs phase => .phrase (maps f subs) phase
  | .filter inner conditions => .filter (inner.map f) conditions
where
  maps (f : L → L') : List (Cursor L) → List (Cursor L')
    | [] => []
    | c :: rest => c.map f :: maps f rest

@[simp] theorem maps_eq (f : L → L') (subs : List (Cursor L)) : map.maps f subs = subs.map (map f) := by
  induction subs with
  | nil => rfl
  | cons c rest ih => rw [map.maps, ih, List.map_cons]

@[simp] theorem map_kind (f : L → L') (c : Cursor L) : (c.map f).kind = c.kind := by
  cases c with
  | union kind subs phase => cases kind <;> rfl
  | _ => rfl

mutual

@[simp] theorem map_height (f : L → L') : (c : Cursor L) → (c.map f).height = c.height
  | .empty | .leaf _ | .range _ _ _ | .single _ _ => rfl
  | .inter subs _ | .union _ subs _ | .phrase subs _ => congrArg (· + 1) (maps_height f subs)
  | .diff kept dropped =>
    congrArg (· + 1) (congrArg₂ max (map_height f kept) (map_height f dropped))
  | .filter inner _ => congrArg (· + 1) (map_height f inner)

theorem maps_height (f : L → L') : (subs : List (Cursor L)) →
    height.heights (map.maps f subs) = height.heights subs
  | [] => rfl
  | c :: rest => congrArg₂ max (map_height f c) (maps_height f rest)

end

end Cursor

/-- A replacement of streams that commutes with observations and moves. -/
structure StreamHom {L L' : Type} [IdStream L] [IdStream L'] (f : L → L') : Prop where
  current : ∀ l, IdStream.current (f l) = IdStream.current l
  window : ∀ l, IdStream.window (f l) = IdStream.window l
  move : ∀ m l, IdStream.move m (f l) = f (IdStream.move m l)

namespace Cursor

variable {L L' : Type} [IdStream L] [IdStream L'] {f : L → L'}

theorem map_current (hf : StreamHom f) : (c : Cursor L) → (c.map f).current = c.current
  | .empty | .range _ _ _ | .single _ _ | .inter _ _ | .union _ _ _ | .phrase _ _ => rfl
  | .leaf l => hf.current l
  | .diff kept _ => map_current hf kept
  | .filter inner _ => map_current hf inner

mutual

theorem map_window (hf : StreamHom f) : (c : Cursor L) → (c.map f).window = c.window
  | .empty | .range _ _ _ | .single _ _ | .inter _ _ | .union .plain _ _ => rfl
  | .leaf l => hf.window l
  | .diff kept _ => map_window hf kept
  | .filter inner _ => map_window hf inner
  | .union .positional subs phase | .union .wildcard subs phase => by
    show (if phase.current = 0 then [] else Window.unite (window.windowsAt phase.current
      (map.maps f subs))) = if phase.current = 0 then [] else _
    rw [maps_windowsAt hf]
  | .phrase subs phase => by
    show (if phase.current = 0 then [] else Window.alignments (window.windows (map.maps f subs)))
      = if phase.current = 0 then [] else _
    rw [maps_windows hf]

theorem maps_windows (hf : StreamHom f) : (subs : List (Cursor L)) →
    window.windows (map.maps f subs) = window.windows subs
  | [] => rfl
  | c :: rest => congrArg₂ List.cons (map_window hf c) (maps_windows hf rest)

theorem maps_windowsAt (hf : StreamHom f) (id : DocId) : (subs : List (Cursor L)) →
    window.windowsAt id (map.maps f subs) = window.windowsAt id subs
  | [] => rfl
  | c :: rest => by
    simp only [map.maps, window.windowsAt, map_current hf, map_window hf, maps_windowsAt hf id rest]

end

section Attempts

variable {n : Nat} (hf : StreamHom f)
  (hmove : ∀ m (c : Cursor L), moveWithin n m (c.map f) = (moveWithin n m c).map f)

include hf hmove

theorem align_mapped (s : Cursor L × List (Cursor L)) :
    align current (fun target => moveWithin n (.seek target)) (Prod.map (map f) (List.map (map f)) s)
      = (Prod.map (map f) (List.map (map f))
          (align current (fun target => moveWithin n (.seek target)) s).1,
        (align current (fun target => moveWithin n (.seek target)) s).2) :=
  align_map (map_current hf) (fun target c => hmove (.seek target) c) s

/-- The parts of a union, those moved that take part. -/
theorem union_mapped (m : Move) (phase : Phase) (subs : List (Cursor L)) :
    ((subs.map (map f)).map fun c => if joins phase m c.current then moveWithin n m c else c)
      = (subs.map fun c => if joins phase m c.current then moveWithin n m c else c).map (map f) := by
  rw [List.map_map, List.map_map]
  refine List.map_congr_left ?_
  intro c _
  simp only [Function.comp_apply, map_current hf, hmove]
  split
  · rfl
  · rfl

theorem attemptDiff_map (s : Cursor L × Cursor L) :
    attemptDiff (moveWithin n) (Prod.map (map f) (map f) s)
      = (attemptDiff (moveWithin n) s).map (Prod.map (map f) (map f)) := by
  obtain ⟨kept, dropped⟩ := s
  simp only [attemptDiff, Prod.map, map_current hf, hmove]
  split
  · rfl
  · rfl

theorem settleDiff_map (s : Cursor L × Cursor L) :
    settle (fun s => s.1.current) (attemptDiff (moveWithin n)) (Prod.map (map f) (map f) s)
      = (Prod.map (map f) (map f) (settle (fun s => s.1.current) (attemptDiff (moveWithin n)) s).1,
        (settle (fun s => s.1.current) (attemptDiff (moveWithin n)) s).2) := by
  have hcurrent (s : Cursor L × Cursor L) :
      (Prod.map (map f) (map f) s).1.current = s.1.current := map_current hf s.1
  exact settle_map (Prod.map (map f) (map f)) hcurrent (attemptDiff_map hf hmove) s

theorem attemptPhrase_map (s : (Cursor L × List (Cursor L)) × DocId) :
    attemptPhrase (moveWithin n) (Prod.map (Prod.map (map f) (List.map (map f))) id s)
      = (attemptPhrase (moveWithin n) s).map
        (Prod.map (Prod.map (map f) (List.map (map f))) id) := by
  obtain ⟨⟨lead, others⟩, place⟩ := s
  have hwindows : (others.map (map f)).map window = others.map window := by
    rw [List.map_map]
    exact List.map_congr_left fun c _ => map_window hf c
  simp only [attemptPhrase, Prod.map, map_window hf, hwindows, hmove]
  split
  · exact congrArg Attempt.retry (align_mapped hf hmove (moveWithin n .next lead, others))
  · rfl

theorem settlePhrase_map (s : (Cursor L × List (Cursor L)) × DocId) :
    settle Prod.snd (attemptPhrase (moveWithin n))
        (Prod.map (Prod.map (map f) (List.map (map f))) id s)
      = (Prod.map (Prod.map (map f) (List.map (map f))) id
          (settle Prod.snd (attemptPhrase (moveWithin n)) s).1,
        (settle Prod.snd (attemptPhrase (moveWithin n)) s).2) :=
  settle_map _ (fun _ => rfl) (attemptPhrase_map hf hmove) s

theorem attemptFilter_map (conditions : List Condition) (c : Cursor L) :
    attemptFilter (moveWithin n) conditions (c.map f)
      = (attemptFilter (moveWithin n) conditions c).map (map f) := by
  simp only [attemptFilter, map_window hf, hmove]
  split
  · rfl
  · rfl

end Attempts

/-- Moves commute with the replacement of leaves. -/
theorem map_moveWithin (hf : StreamHom f) (n : Nat) (m : Move) (c : Cursor L) :
    moveWithin n m (c.map f) = (moveWithin n m c).map f := by
  -- On the bound, for all moves and cursors: each kind moves its parts by one less.
  induction n generalizing m c with
  | zero => rfl
  | succ n ih =>
    cases c with
    | empty | range | single => rfl
    | leaf l => exact congrArg Cursor.leaf (hf.move m l)
    | inter subs phase =>
      simp only [map, maps_eq]
      by_cases h : m.rests phase.current ∨ phase = .spent
      · rw [moveWithin_inter_rests h, moveWithin_inter_rests h, map, maps_eq]
      · obtain ⟨hrest, hspent⟩ := not_or.1 h
        cases subs with
        | nil =>
          rw [List.map_nil, moveWithin_inter_nil, moveWithin_inter_nil]
          rfl
        | cons lead others =>
          have halign := align_mapped hf ih (moveWithin n m lead, others)
          rw [Prod.map_apply] at halign
          rw [List.map_cons, moveWithin_inter hrest hspent, moveWithin_inter hrest hspent, ih,
            halign]
          simp only [map, map.maps, maps_eq, Prod.map]
    | union kind subs phase =>
      simp only [map, maps_eq]
      by_cases h : m.rests phase.current ∨ phase = .spent
      · rw [moveWithin_union_rests h, moveWithin_union_rests h, map, maps_eq]
      · obtain ⟨hrest, hspent⟩ := not_or.1 h
        -- Which parts join the move depends on where they stand, and that is unchanged.
        have hcurrent (cs : List (Cursor L)) : (cs.map (map f)).map current = cs.map current := by
          rw [List.map_map]
          exact List.map_congr_left fun c _ => map_current hf c
        rw [moveWithin_union hrest hspent, moveWithin_union hrest hspent]
        simp only [map, maps_eq, union_mapped hf ih, hcurrent]
    | diff kept dropped =>
      simp only [map]
      by_cases hrest : m.rests kept.current
      · rw [moveWithin_diff_rests hrest, moveWithin_diff_rests (map_current hf kept ▸ hrest), map]
      · have hsettle := settleDiff_map hf ih (moveWithin n m kept, dropped)
        rw [Prod.map_apply] at hsettle
        rw [moveWithin_diff hrest, moveWithin_diff (map_current hf kept ▸ hrest), ih, hsettle]
        rfl
    | phrase subs phase =>
      simp only [map, maps_eq]
      by_cases h : m.rests phase.current ∨ phase = .spent
      · rw [moveWithin_phrase_rests h, moveWithin_phrase_rests h, map, maps_eq]
      · obtain ⟨hrest, hspent⟩ := not_or.1 h
        cases subs with
        | nil =>
          rw [List.map_nil, moveWithin_phrase_nil, moveWithin_phrase_nil]
          rfl
        | cons lead others =>
          have halign := align_mapped hf ih (moveWithin n m lead, others)
          have hsettle := settlePhrase_map hf ih
            (align current (fun target => moveWithin n (.seek target)) (moveWithin n m lead, others))
          rw [Prod.map_apply] at halign
          rw [Prod.map_apply', id_eq, ← halign] at hsettle
          rw [List.map_cons, moveWithin_phrase hrest hspent, moveWithin_phrase hrest hspent, ih,
            hsettle]
          simp only [map, map.maps, maps_eq, Prod.map]
    | filter inner conditions =>
      simp only [map]
      by_cases hrest : m.rests inner.current
      · rw [moveWithin_filter_rests hrest, moveWithin_filter_rests (map_current hf inner ▸ hrest),
          map]
      · rw [moveWithin_filter hrest, moveWithin_filter (map_current hf inner ▸ hrest), ih,
          settle_map (map f) (map_current hf) (attemptFilter_map hf ih conditions)]
        rfl

/-- **Moves commute with the replacement of leaves.** -/
theorem map_move (hf : StreamHom f) : StreamHom (Cursor.map f) where
  current := map_current hf
  window := map_window hf
  move m c := by
    have hmove {K : Type} [IdStream K] (c : Cursor K) :
        IdStream.move m c = moveWithin c.height m c := by cases m <;> rfl
    rw [hmove, hmove, map_height, map_moveWithin hf]

end Cursor

/-! ## Streams that behave alike -/

/-- A relation between streams with the same observations that every move keeps. -/
structure Bisimulation (S T : Type) [IdStream S] [IdStream T] where
  Rel : S → T → Prop
  current_eq : ∀ {s t}, Rel s t → IdStream.current s = IdStream.current t
  window_eq : ∀ {s t}, Rel s t → IdStream.window s = IdStream.window t
  move : ∀ m {s t}, Rel s t → Rel (IdStream.move m s) (IdStream.move m t)

namespace Bisimulation

variable {S T : Type} [IdStream S] [IdStream T] (bisim : Bisimulation S T)

/-- The other way around. -/
def symm : Bisimulation T S where
  Rel t s := bisim.Rel s t
  current_eq h := (bisim.current_eq h).symm
  window_eq h := (bisim.window_eq h).symm
  move m _ _ h := bisim.move m h

/-- Through a stream between. -/
def comp {U : Type} [IdStream U] (next : Bisimulation T U) : Bisimulation S U where
  Rel s u := ∃ t, bisim.Rel s t ∧ next.Rel t u
  current_eq := fun ⟨_, h, h'⟩ => (bisim.current_eq h).trans (next.current_eq h')
  window_eq := fun ⟨_, h, h'⟩ => (bisim.window_eq h).trans (next.window_eq h')
  move m := fun ⟨t, h, h'⟩ => ⟨IdStream.move m t, bisim.move m h, next.move m h'⟩

/-- Related streams show the same ids and windows through all moves. -/
theorem trace_eq {s : S} {t : T} (h : bisim.Rel s t) (ms : List Move) :
    (IdStream.trace ms s).map (fun s => (IdStream.current s, IdStream.window s))
      = (IdStream.trace ms t).map fun t => (IdStream.current t, IdStream.window t) := by
  induction ms generalizing s t with
  | nil => rfl
  | cons m ms ih =>
    have hmoved := bisim.move m h
    simp only [IdStream.trace, List.map_cons]
    rw [bisim.current_eq hmoved, bisim.window_eq hmoved, ih hmoved]

theorem rel_moves {s : S} {t : T} (h : bisim.Rel s t) (ms : List Move) :
    bisim.Rel (moves IdStream.move ms s) (moves IdStream.move ms t) := by
  induction ms generalizing s t with
  | nil => exact h
  | cons m ms ih => exact ih (bisim.move m h)

/-- What obeys the protocol on one side does so on the other. -/
theorem obeys {s : S} {t : T} (h : bisim.Rel s t) {ids : IdList} {phase : Phase}
    (hobeys : Obeys ids phase s) : Obeys ids phase t := by
  intro ms
  rw [← hobeys ms]
  exact (bisim.current_eq (bisim.rel_moves h ms)).symm

/-- Two streams that are related. -/
def Pair := {pair : S × T // bisim.Rel pair.1 pair.2}

instance : IdStream bisim.Pair where
  current pair := IdStream.current pair.1.1
  window pair := IdStream.window pair.1.1
  next pair := ⟨(IdStream.next pair.1.1, IdStream.next pair.1.2), bisim.move .next pair.2⟩
  seek target pair :=
    ⟨(IdStream.seek target pair.1.1, IdStream.seek target pair.1.2),
      bisim.move (.seek target) pair.2⟩

/-- The stream on the left. -/
def Pair.left (pair : bisim.Pair) : S := pair.1.1

/-- The stream on the right. -/
def Pair.right (pair : bisim.Pair) : T := pair.1.2

theorem left_hom : StreamHom (Pair.left bisim) where
  current _ := rfl
  window _ := rfl
  move m _ := by cases m <;> rfl

theorem right_hom : StreamHom (Pair.right bisim) where
  current pair := (bisim.current_eq pair.2).symm
  window pair := (bisim.window_eq pair.2).symm
  move m _ := by cases m <;> rfl

/-- Cursors of one shape over related leaves. -/
def Lifts (c : Cursor S) (c' : Cursor T) : Prop :=
  ∃ pairs : Cursor bisim.Pair, c = pairs.map (Pair.left bisim) ∧ c' = pairs.map (Pair.right bisim)

theorem Lifts.kind_eq {c : Cursor S} {c' : Cursor T} (h : bisim.Lifts c c') : c.kind = c'.kind := by
  obtain ⟨pairs, rfl, rfl⟩ := h
  rw [Cursor.map_kind, Cursor.map_kind]

/-- **Cursors over related leaves are related.** -/
def cursors : Bisimulation (Cursor S) (Cursor T) where
  Rel := bisim.Lifts
  current_eq := by
    rintro _ _ ⟨pairs, rfl, rfl⟩
    exact (Cursor.map_current bisim.left_hom pairs).trans
      (Cursor.map_current bisim.right_hom pairs).symm
  window_eq := by
    rintro _ _ ⟨pairs, rfl, rfl⟩
    exact (Cursor.map_window bisim.left_hom pairs).trans
      (Cursor.map_window bisim.right_hom pairs).symm
  move := by
    rintro m _ _ ⟨pairs, rfl, rfl⟩
    exact ⟨IdStream.move m pairs, (Cursor.map_move bisim.left_hom).move m pairs,
      (Cursor.map_move bisim.right_hom).move m pairs⟩

end Bisimulation
end InvertedIndex
