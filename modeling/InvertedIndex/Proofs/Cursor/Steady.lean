import InvertedIndex.Proofs.Cursor.Phrase

/-!
# `Proofs.Cursor.Steady` — windows that depend on the id alone

What a phrase goes through depends on the windows of its parts, and these can be any lists of
positions, in order or not. The protocol holds all the same: a cursor is **steady** if it obeys and
the window that it shows on an id is the same whichever moves have led there, and composed cursors are
steady if their parts are. So every cursor built from steady leaves goes through some ascending list
of ids, whatever the windows are.

## Contents
- `Windowed`, `Steady`: windows that the moves do not matter to;
- `steady_leaf`, `steady_inter`, `steady_union`, `steady_diff`, `steady_phrase`;
- `Steady.obeys`, `Steady.ids_eq`: what a steady cursor goes through.
-/

namespace InvertedIndex
namespace Cursor

variable {L : Type} [IdStream L] {n : Nat}

/-- On each id the simulated cursors show the same window. -/
def Windowed (sim : Sim L n) (windows : DocId → Window) : Prop :=
  ∀ {id c}, sim.At (.hit id) c → c.window = windows id

/-- The cursor goes through the ids, and shows in each document a window that depends on the id
    alone. -/
def Steady (c : Cursor L) (ids : IdList) : Prop :=
  ∃ windows, ∀ n, c.height ≤ n →
    ∃ sim : Sim L n, sim.ids = ids ∧ sim.At .fresh c ∧ Windowed sim windows

namespace Steady

variable {c : Cursor L} {ids : IdList}

/-- A steady cursor obeys the protocol. -/
theorem obeys (h : Steady c ids) : Obeys ids .fresh c := by
  obtain ⟨windows, hsims⟩ := h
  obtain ⟨sim, rfl, hat, -⟩ := hsims c.height le_rfl
  intro ms
  rw [moves_eq]
  exact sim.current_eq (sim.run_at hat ms)

theorem ids_eq (h : Steady c ids) : IdStream.ids c = ids.toList := h.obeys.ids_eq

end Steady

/-! ## Parts -/

section Parts

variable {subs : List (Cursor L)} {lists : List IdList}

/-- Steady parts have simulations at any height, with the same windows in all of them. -/
theorem steady_parts (h : List.Forall₂ Steady subs lists) :
    ∃ windows : List (DocId → Window), ∀ n, height.heights subs ≤ n →
      ∃ sims : List (Sim L n), sims.map Simulation.ids = lists ∧ AllAt sims .fresh subs ∧
        List.Forall₂ Windowed sims windows := by
  induction h with
  | nil => exact ⟨[], fun n _ => ⟨[], rfl, .nil, .nil⟩⟩
  | cons hsub _ ih =>
    obtain ⟨window, hsim⟩ := hsub
    obtain ⟨windows, hsims⟩ := ih
    refine ⟨window :: windows, fun n hheight => ?_⟩
    obtain ⟨hfirst, hrest⟩ := Nat.max_le.1 hheight
    obtain ⟨sim, hids, hat, hwindow⟩ := hsim n hfirst
    obtain ⟨sims, hlists, hats, hwindows⟩ := hsims n hrest
    exact ⟨sim :: sims, congrArg₂ List.cons hids hlists, .cons hat hats, .cons hwindow hwindows⟩

variable {sims : List (Sim L n)} {windows : List (DocId → Window)} {id : DocId}

theorem forall_mem_ids (h : sims.map Simulation.ids = lists) :
    (∀ sim ∈ sims, id ∈ sim.ids) ↔ ∀ ids ∈ lists, id ∈ ids := by
  rw [← h, List.forall_mem_map]

theorem exists_mem_ids (h : sims.map Simulation.ids = lists) :
    (∃ sim ∈ sims, id ∈ sim.ids) ↔ ∃ ids ∈ lists, id ∈ ids := by
  simp [← h]

/-- The windows of parts that stand together on an id. -/
theorem map_window_eq (hat : AllAt sims (.hit id) subs) (hwindows : List.Forall₂ Windowed sims windows) :
    subs.map window = windows.map fun window => window id := by
  induction hat generalizing windows with
  | nil =>
    obtain rfl := List.forall₂_nil_left_iff.1 hwindows
    rfl
  | cons hfirst _ ih =>
    obtain ⟨window, rest, hwindow, hrest, rfl⟩ := List.forall₂_cons_left_iff.1 hwindows
    rw [List.map_cons, List.map_cons, hwindow hfirst, ih hrest]

open Classical in
/-- The windows of those parts that have an id. -/
noncomputable def windowsOf (id : DocId) (parts : List (IdList × (DocId → Window))) : List Window :=
  (parts.filter fun part => id ∈ part.1).map fun part => part.2 id

/-- The windows of those parts of a union that stand on an id. -/
theorem windowsAt_eq (hid : id ≠ 0) (hat : AllFirst sims id.toNat subs)
    (hwindows : List.Forall₂ Windowed sims windows) :
    window.windowsAt id subs = windowsOf id ((sims.map Simulation.ids).zip windows) := by
  induction hat generalizing windows with
  | nil =>
    obtain rfl := List.forall₂_nil_left_iff.1 hwindows
    rfl
  | @cons sim c sims subs hfirst _ ih =>
    obtain ⟨window, rest, hwindow, hrest, rfl⟩ := List.forall₂_cons_left_iff.1 hwindows
    have hrest' := ih hrest
    rw [window.windowsAt]
    unfold windowsOf at hrest' ⊢
    by_cases hthere : id ∈ sim.ids
    · rw [if_pos ((current_eq_iff hid hfirst).2 hthere), hwindow (at_of_first hthere hfirst), hrest',
        List.map_cons, List.zip_cons_cons, List.filter_cons_of_pos (by simpa using hthere),
        List.map_cons]
    · rw [if_neg (mt (current_eq_iff hid hfirst).1 hthere), hrest', List.map_cons,
        List.zip_cons_cons, List.filter_cons_of_neg (by simpa using hthere)]

end Parts

/-! ## Leaves -/

/-- A simulation of leaves. -/
def streamSim (sim : Simulation (S := L) IdStream.current IdStream.move) : Sim L (n + 1) where
  ids := sim.ids
  At phase c := ∃ l : L, c = .leaf l ∧ sim.At phase l
  has := by
    rintro phase _ ⟨l, -, hat⟩
    exact sim.has hat
  current_eq := by
    rintro phase _ ⟨l, rfl, hat⟩
    exact sim.current_eq hat
  move_at := by
    rintro m phase _ ⟨l, rfl, hat⟩
    exact ⟨_, rfl, sim.move_at m hat⟩

/-- A leaf is steady if its stream is. -/
theorem steady_leaf (sim : Simulation (S := L) IdStream.current IdStream.move)
    {windows : DocId → Window}
    (hwindows : ∀ {id l}, sim.At (.hit id) l → IdStream.window l = windows id) {l : L}
    (h : sim.At .fresh l) : Steady (.leaf l) sim.ids := by
  refine ⟨windows, ?_⟩
  rintro (_ | n) hheight
  · exact absurd hheight (Nat.not_succ_le_zero _)
  refine ⟨streamSim sim, rfl, ⟨l, rfl, h⟩, ?_⟩
  rintro id _ ⟨l, rfl, hat⟩
  exact hwindows hat

theorem steady_empty : Steady (.empty : Cursor L) (.ofSet ∅) := by
  have hnone (id : DocId) : id ∉ IdList.ofSet ∅ := fun h => (IdList.mem_ofSet.1 h).2
  refine ⟨fun _ => [], ?_⟩
  rintro (_ | n) hheight
  · exact absurd hheight (Nat.not_succ_le_zero _)
  refine ⟨stillSim _ hnone .empty rfl fun _ => rfl, rfl, ⟨IdList.has_fresh, rfl⟩, ?_⟩
  rintro id _ ⟨-, rfl⟩
  rfl

/-! ## Composed cursors -/

section Composed

variable {subs : List (Cursor L)} {lists : List IdList} {ids : IdList}
  (h : List.Forall₂ Steady subs lists)

include h

/-- An intersection goes through the ids of all parts, without windows. -/
theorem steady_inter (hids : ∀ id, id ∈ ids ↔ lists ≠ [] ∧ ∀ list ∈ lists, id ∈ list) :
    Steady (.interOf subs) ids := by
  obtain ⟨_, hsims⟩ := steady_parts h
  refine ⟨fun _ => [], ?_⟩
  rintro (_ | n) hheight
  · exact absurd hheight (Nat.not_succ_le_zero _)
  obtain ⟨sims, hlists, hat, -⟩ := hsims n (Nat.le_of_succ_le_succ hheight)
  have hids' (id : DocId) : id ∈ ids ↔ sims ≠ [] ∧ ∀ sim ∈ sims, id ∈ sim.ids := by
    rw [hids, forall_mem_ids hlists, ← hlists, Ne, List.map_eq_nil_iff]
  refine ⟨interSim sims ids hids', rfl, ⟨IdList.has_fresh, subs, rfl, fun _ => hat⟩, ?_⟩
  rintro id _ ⟨-, subs', rfl, -⟩
  rfl

/-- A union goes through the ids of any part. Unless it shows no windows, it unites those of the parts
    that have the id. -/
theorem steady_union (kind : UnionKind) (hids : ∀ id, id ∈ ids ↔ ∃ list ∈ lists, id ∈ list) :
    Steady (.unionOf kind subs) ids := by
  obtain ⟨windows, hsims⟩ := steady_parts h
  refine ⟨fun id => if kind = .plain then [] else Window.unite (windowsOf id (lists.zip windows)), ?_⟩
  rintro (_ | n) hheight
  · exact absurd hheight (Nat.not_succ_le_zero _)
  obtain ⟨sims, hlists, hat, hwindows⟩ := hsims n (Nat.le_of_succ_le_succ hheight)
  have hids' (id : DocId) : id ∈ ids ↔ ∃ sim ∈ sims, id ∈ sim.ids := by
    rw [hids, exists_mem_ids hlists]
  refine ⟨unionSim sims kind ids hids', rfl, ⟨IdList.has_fresh, subs, rfl, hat⟩, ?_⟩
  rintro id _ ⟨hphase, subs', rfl, hwaiting⟩
  have hne := IdList.ne_zero (hphase id rfl)
  have hunited : (if id = 0 then [] else Window.unite (window.windowsAt id subs'))
      = Window.unite (windowsOf id (lists.zip windows)) := by
    rw [if_neg hne, windowsAt_eq hne hwaiting hwindows, hlists]
  cases kind with
  | plain => rfl
  | positional => exact hunited
  | wildcard => exact hunited

/-- **A phrase goes through the ids at which the windows of its parts are aligned**, whatever these
    windows are. -/
theorem steady_phrase : ∃ ids, Steady (.phraseOf subs) ids := by
  obtain ⟨windows, hsims⟩ := steady_parts h
  let aligned (id : DocId) : Window := Window.alignments (windows.map fun window => window id)
  refine ⟨.ofSet {id | (∀ list ∈ lists, id ∈ list) ∧ aligned id ≠ []}, aligned, ?_⟩
  rintro (_ | n) hheight
  · exact absurd hheight (Nat.not_succ_le_zero _)
  obtain ⟨sims, hlists, hat, hwindows⟩ := hsims n (Nat.le_of_succ_le_succ hheight)
  have htaken : Taken sims (.ofSet {id | (∀ list ∈ lists, id ∈ list) ∧ aligned id ≠ []}) := by
    constructor
    · intro id hid
      exact (forall_mem_ids hlists).2 (IdList.mem_ofSet.1 hid).2.1
    · intro id subs' hat'
      have hall := (forall_mem_ids hlists).1 hat'.mem
      rw [IdList.mem_ofSet, map_window_eq hat' hwindows]
      constructor
      · exact fun hid => hid.2.2
      · intro haligned
        -- Without parts there would be no windows to align.
        cases hat' with
        | nil =>
          obtain rfl := List.forall₂_nil_left_iff.1 hwindows
          exact absurd rfl haligned
        | @cons sim _ _ _ hfirst _ =>
          exact ⟨IdList.ne_zero (sim.has hfirst id rfl), hall, haligned⟩
  refine ⟨alignedSim sims _ htaken, rfl, ⟨IdList.has_fresh, subs, rfl, fun _ => hat⟩, ?_⟩
  rintro id _ ⟨hphase, subs', rfl, htogether⟩
  have hne := IdList.ne_zero (hphase id rfl)
  have hwindow : Cursor.window (.phrase subs' (.hit id))
      = Window.alignments (window.windows subs') := if_neg hne
  rw [hwindow, windows_eq_map, map_window_eq (htogether Phase.hit_ne_spent) hwindows]

end Composed

/-- A difference goes through the ids of the kept part that the dropped one does not have, and shows
    the windows of the kept part. -/
theorem steady_diff {k d : Cursor L} {kept dropped ids : IdList} (hk : Steady k kept)
    (hd : Steady d dropped) (hids : ∀ id, id ∈ ids ↔ id ∈ kept ∧ id ∉ dropped) :
    Steady (.diff k d) ids := by
  obtain ⟨windows, hkepts⟩ := hk
  obtain ⟨_, hdroppeds⟩ := hd
  refine ⟨windows, ?_⟩
  rintro (_ | n) hheight
  · exact absurd hheight (Nat.not_succ_le_zero _)
  obtain ⟨hkept, hdropped⟩ := Nat.max_le.1 (Nat.le_of_succ_le_succ hheight)
  obtain ⟨keptSim, rfl, hkeptAt, hwindows⟩ := hkepts n hkept
  obtain ⟨droppedSim, rfl, hdroppedAt, -⟩ := hdroppeds n hdropped
  refine ⟨diffSim keptSim droppedSim ids hids, rfl,
    ⟨IdList.has_fresh, k, d, rfl, hkeptAt, fun _ => .inl hdroppedAt⟩, ?_⟩
  rintro id _ ⟨-, k', d', rfl, hk', -⟩
  show k'.window = windows id
  exact hwindows hk'

end Cursor
end InvertedIndex
