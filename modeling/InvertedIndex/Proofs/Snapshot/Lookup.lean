import InvertedIndex.Proofs.Snapshot.Loading
import InvertedIndex.Proofs.Snapshot.TermCursor

/-!
# `Proofs.Snapshot.Lookup` — look-ups in arbitrary files

Once files have been opened in place, all that the image says of terms lies within them. That is
enough for every look-up: the search by halving cuts each text that it compares out of the index, a
blob is looked for at whatever offset stands in the index, and a cursor runs over the region of its
term. None of them traps, and each finds what the snapshot has.

Files that were never written by this program may still be opened. Their cursors end early where the
data cannot be read, and no sequence of moves leads them out of their region.

## Contents
- `lowerBoundAt_spec`, `takeWhileAt_spec`: search with tests that may trap;
- `PlacedImage.globalAt_spec`, `containsAt_spec`, `cursorAt_spec`, `stemCursorsAt_spec`: look-ups;
- `PlacedImage.Steady`, `PlacedImage.Safe`, `openAt_safe`: any files, any look-ups, any moves.
-/

namespace InvertedIndex

open Checked

/-! ## Search -/

section Search

variable {α β : Type}

/-- The first place from `low` on, before `high`, that is not `below`, or `high`. -/
def lowerBoundAt (below : α → Checked Bool) (items : Array α) (low high : Nat) : Checked Nat :=
  if low < high then do
    let middle := low + (high - low) / 2
    match items[middle]? with
    | none => .error (.slice middle (middle + 1))
    | some item =>
      if ← below item then lowerBoundAt below items (middle + 1) high
      else lowerBoundAt below items low middle
  else return low
termination_by high - low
decreasing_by all_goals omega

theorem lowerBoundIn_le {below : α → Bool} {items : Array α} {low high : Nat} (h : low ≤ high) :
    lowerBoundIn below items low high ≤ high := by
  fun_induction lowerBoundIn below items low high with
  | case1 low high hlt middle hbelow ih => exact ih (by omega)
  | case2 low high hlt middle hbelow ih => exact Nat.le_trans (ih (by omega)) (by omega)
  | case3 => exact h

/-- Only the items that it looks at matter for a search. -/
theorem lowerBoundIn_map (f : α → β) {below : β → Bool} {items : Array α} {low high : Nat} :
    lowerBoundIn below (items.map f) low high
      = lowerBoundIn (fun item => below (f item)) items low high := by
  fun_induction lowerBoundIn (fun item => below (f item)) items low high with
  | case1 low high hlt middle hbelow ih =>
    rw [lowerBoundIn, if_pos hlt]
    dsimp only
    rw [if_pos (by simpa [Array.getElem?_map, Option.any_map] using hbelow), ih]
  | case2 low high hlt middle hbelow ih =>
    rw [lowerBoundIn, if_pos hlt]
    dsimp only
    rw [if_neg (by simpa [Array.getElem?_map, Option.any_map] using hbelow), ih]
  | case3 low high hend =>
    rw [lowerBoundIn, if_neg hend]

theorem lowerBoundAt_spec {below : α → Checked Bool} {isBelow : α → Bool} {items : Array α}
    (hbelow : ∀ item ∈ items, below item = .ok (isBelow item)) {low high : Nat}
    (hhigh : high ≤ items.size) :
    lowerBoundAt below items low high = .ok (lowerBoundIn isBelow items low high) := by
  have hstep {low high : Nat} (hlt : low < high) (hhigh : high ≤ items.size) :
      ∃ item, items[low + (high - low) / 2]? = some item ∧ below item = .ok (isBelow item) := by
    have hmiddle : low + (high - low) / 2 < items.size := by omega
    exact ⟨_, Array.getElem?_eq_getElem hmiddle, hbelow _ (Array.getElem_mem hmiddle)⟩
  fun_induction lowerBoundIn isBelow items low high with
  | case1 low high hlt middle hitem ih =>
    obtain ⟨item, hget, hbelow⟩ := hstep hlt hhigh
    rw [show items[middle]? = some item from hget, Option.any_some] at hitem
    rw [lowerBoundAt, if_pos hlt]
    simp only [hget, hbelow, hitem, if_true, bind, Except.bind]
    exact ih hhigh
  | case2 low high hlt middle hitem ih =>
    obtain ⟨item, hget, hbelow⟩ := hstep hlt hhigh
    rw [show items[middle]? = some item from hget, Option.any_some, Bool.not_eq_true] at hitem
    rw [lowerBoundAt, if_pos hlt]
    simp only [hget, hbelow, hitem, Bool.false_eq_true, if_false, bind, Except.bind]
    exact ih (by omega)
  | case3 low high hend =>
    rw [lowerBoundAt, if_neg hend]
    rfl

/-- The items up to the first that fails a test. -/
def takeWhileAt (test : α → Checked Bool) : List α → Checked (List α)
  | [] => return []
  | item :: rest => do
    if ← test item then return item :: (← takeWhileAt test rest) else return []

theorem takeWhileAt_spec {test : α → Checked Bool} {passes : α → Bool} {items : List α}
    (htest : ∀ item ∈ items, test item = .ok (passes item)) :
    takeWhileAt test items = .ok (items.takeWhile passes) := by
  induction items with
  | nil => rfl
  | cons item rest ih =>
    obtain ⟨hitem, hrest⟩ := List.forall_mem_cons.1 htest
    rw [takeWhileAt, hitem, List.takeWhile_cons]
    simp only [bind, Except.bind, ih hrest]
    cases passes item <;> rfl

end Search

/-! ## Look-ups -/

namespace PlacedImage

/-- The blob of an id. -/
def globalAt (image : PlacedImage) (id : DocId) : Checked (Option Bytes) :=
  match mul? id.toNat 8 with
  | none => return none
  | some place => do
    match ← readUInt64At image.globalIndex place with
    | none => return none
    | some offset =>
      if offset = 0 then return none
      match ← prefixedAt image.globalData offset with
      | none => return none
      | some extent => return some (← extent.cut image.globalData)

/-- The first place of a term that is not below the text. -/
def placeAt (image : PlacedImage) (text : String) : Checked Nat :=
  lowerBoundAt (fun placed => return (← placed.name.cut image.termIndex) < textBytes text)
    image.slots 0 image.slots.size

/-- Where a term lies. -/
def findAt (image : PlacedImage) (term : String) : Checked (Option PlacedSlot) := do
  match image.slots[← image.placeAt term]? with
  | none => return none
  | some placed =>
    return if (← placed.name.cut image.termIndex) = textBytes term then some placed else none

/-- Whether there is such a term. -/
def containsAt (image : PlacedImage) (term : String) : Checked Bool :=
  return (← image.findAt term).isSome

/-- A cursor over the postings of a term; the text is for its warnings. -/
def openCursor (image : PlacedImage) (placed : PlacedSlot) : Checked TermCursor := do
  let _text ← placed.name.cut image.termIndex
  return .start (← placed.region.cut image.termData)

/-- A cursor over the ids of a term. -/
def cursorAt (image : PlacedImage) (term : String) : Checked (Option TermCursor) := do
  match ← image.findAt term with
  | none => return none
  | some placed => return some (← image.openCursor placed)

/-- A cursor over the ids of each term with a stem, in order. -/
def stemCursorsAt (image : PlacedImage) (stem : String) : Checked (List TermCursor) := do
  let slots ← slice image.slots.toList (← image.placeAt stem) image.slots.size
  let withStem ← takeWhileAt (fun placed =>
    return (textBytes stem).isPrefixOf (← placed.name.cut image.termIndex)) slots
  withStem.mapM image.openCursor

variable {image : PlacedImage}

/-- The blob of an id is where the index says. -/
theorem globalAt_spec (h : image.Inside) (id : DocId) :
    image.globalAt id = .ok (image.snapshot.global? id) := by
  have hid := id.toNat_lt
  obtain ⟨offset?, hread, hsuffix, -⟩ := readUInt64At_spec image.globalIndex
    (id.toNat * 8) (by unfold sizeLimit; omega)
  rw [Nat.mul_comm id.toNat 8] at hsuffix
  unfold globalAt Snapshot.global?
  rw [mul?_eq (by unfold sizeLimit; omega)]
  have hindex : image.snapshot.globalIndex = image.globalIndex := rfl
  have hdata : image.snapshot.globalData = image.globalData := rfl
  rw [hindex, hdata, hsuffix]
  simp only [hread, bind, Except.bind]
  cases offset? with
  | none => rfl
  | some offset =>
    obtain ⟨extent?, hextent, hregion, hwithin⟩ := prefixedAt_spec h.small.globalData offset
    simp only [hextent, hregion, Option.map_some]
    split
    · rfl
    · cases extent? with
      | none => rfl
      | some extent =>
        simp only [(hwithin extent rfl).cut_eq]
        rfl

/-- The text of a term is cut out of the index. -/
theorem Inside.cut_name (h : image.Inside) {placed : PlacedSlot} (hplaced : placed ∈ image.slots) :
    placed.name.cut image.termIndex
      = .ok (textBytes (placed.slot image.termIndex image.termData).term) := by
  have hinside := h.slots placed hplaced
  rw [hinside.name.cut_eq, hinside.text]

theorem placeAt_spec (h : image.Inside) (text : String) :
    image.placeAt text = .ok (image.snapshot.placeOf text) := by
  have hsize : image.snapshot.slots.size = image.slots.size := Array.size_map
  rw [Snapshot.placeOf, lowerBound, hsize, placeAt, snapshot, lowerBoundIn_map]
  refine lowerBoundAt_spec (fun placed hplaced => ?_) (Nat.le_refl _)
  simp only [h.cut_name hplaced, bind, Except.bind, textBytes_lt_iff]
  rfl

/-- A term is found where it is. -/
theorem findAt_spec (h : image.Inside) (term : String) :
    ∃ placed?, image.findAt term = .ok placed? ∧
      image.snapshot.slot? term
        = placed?.map (PlacedSlot.slot image.termIndex image.termData) ∧
      ∀ placed ∈ placed?, placed ∈ image.slots := by
  have hget (place : Nat) : image.snapshot.slots[place]?
      = image.slots[place]?.map (PlacedSlot.slot image.termIndex image.termData) :=
    Array.getElem?_map
  unfold findAt Snapshot.slot?
  rw [placeAt_spec h, hget]
  simp only [bind, Except.bind]
  cases hplaced : image.slots[image.snapshot.placeOf term]? with
  | none => exact ⟨none, rfl, rfl, nofun⟩
  | some placed =>
    have hmem : placed ∈ image.slots := Array.mem_of_getElem? hplaced
    simp only [h.cut_name hmem, textBytes_inj, Option.map_some]
    by_cases hterm : (placed.slot image.termIndex image.termData).term = term
    · refine ⟨some placed, by rw [if_pos hterm]; rfl, ?_, ?_⟩
      · rw [Option.filter_some, if_pos (decide_eq_true hterm)]
        rfl
      · rintro other ⟨⟩
        exact hmem
    · refine ⟨none, by rw [if_neg hterm]; rfl, ?_, nofun⟩
      rw [Option.filter_some, if_neg (by simpa using hterm)]
      rfl

theorem containsAt_spec (h : image.Inside) (term : String) :
    image.containsAt term = .ok (image.snapshot.contains term) := by
  obtain ⟨placed?, hfind, hslot, -⟩ := findAt_spec h term
  rw [containsAt, hfind, Snapshot.contains, hslot, Option.isSome_map]
  rfl

/-- The cursor over the postings of a term. -/
def cursorOf (image : PlacedImage) (placed : PlacedSlot) : TermCursor :=
  .start (placed.region.of image.termData)

theorem openCursor_spec (h : image.Inside) {placed : PlacedSlot} (hplaced : placed ∈ image.slots) :
    image.openCursor placed = .ok (image.cursorOf placed) := by
  rw [openCursor, h.cut_name hplaced, (h.slots placed hplaced).region.cut_eq]
  rfl

/-- A cursor over a term is opened where its postings are. -/
theorem cursorAt_spec (h : image.Inside) (term : String) :
    ∃ placed? : Option PlacedSlot, image.cursorAt term = .ok (placed?.map image.cursorOf) ∧
      image.snapshot.slot? term
        = placed?.map (PlacedSlot.slot image.termIndex image.termData) := by
  obtain ⟨placed?, hfind, hslot, hmem⟩ := findAt_spec h term
  refine ⟨placed?, ?_, hslot⟩
  rw [cursorAt, hfind]
  cases placed? with
  | none => rfl
  | some placed =>
    simp only [bind, Except.bind, openCursor_spec h (hmem placed rfl)]
    rfl

theorem hasStem_eq (stem term : String) :
    (textBytes stem).isPrefixOf (textBytes term) = hasStem stem term := by
  rw [Bool.eq_iff_iff, hasStem, List.isPrefixOf_iff_prefix, List.isPrefixOf_iff_prefix,
    textBytes_prefix_iff]

/-- The cursors over the terms with a stem are opened where their postings are. -/
theorem stemCursorsAt_spec (h : image.Inside) (stem : String) :
    ∃ slots : List PlacedSlot, image.stemCursorsAt stem = .ok (slots.map image.cursorOf) ∧
      image.snapshot.slotsWithStem stem
        = slots.map (PlacedSlot.slot image.termIndex image.termData) := by
  have hplace : image.snapshot.placeOf stem ≤ image.slots.size := by
    have hsize : image.snapshot.slots.size = image.slots.size := Array.size_map
    rw [← hsize]
    exact lowerBoundIn_le (Nat.zero_le _)
  have hslots : slice image.slots.toList (image.snapshot.placeOf stem) image.slots.size
      = .ok (image.slots.toList.drop (image.snapshot.placeOf stem)) := by
    rw [← Array.length_toList] at hplace ⊢
    rw [slice_eq hplace (Nat.le_refl _), List.take_length]
  have hmem : ∀ placed ∈ image.slots.toList.drop (image.snapshot.placeOf stem),
      placed ∈ image.slots := fun placed hplaced =>
    Array.mem_toList_iff.1 (List.mem_of_mem_drop hplaced)
  have htest : ∀ placed ∈ image.slots.toList.drop (image.snapshot.placeOf stem),
      (do return (textBytes stem).isPrefixOf (← placed.name.cut image.termIndex) : Checked Bool)
        = .ok (hasStem stem (placed.slot image.termIndex image.termData).term) := by
    intro placed hplaced
    rw [h.cut_name (hmem placed hplaced), ← hasStem_eq]
    rfl
  refine ⟨(image.slots.toList.drop (image.snapshot.placeOf stem)).takeWhile fun placed =>
    hasStem stem (placed.slot image.termIndex image.termData).term, ?_, ?_⟩
  · rw [stemCursorsAt, placeAt_spec h]
    show (slice image.slots.toList (image.snapshot.placeOf stem) image.slots.size >>= _) = _
    rw [hslots]
    show (takeWhileAt _ _ >>= _) = _
    rw [takeWhileAt_spec htest]
    refine mapM_eq_map fun placed hplaced => openCursor_spec h (hmem placed ?_)
    exact (List.takeWhile_sublist _).subset hplaced
  · rw [Snapshot.slotsWithStem, snapshot, Array.toList_map, ← List.map_drop, List.takeWhile_map]
    rfl

/-! ## Safety -/

/-- A cursor before its first move, over the postings of a term, that no sequence of moves leads
    astray: no move traps, each stays within the postings and does what the walk over them does, and
    behind the first `0` there are only repetitions of it. -/
structure Steady (cursor : TermCursor) (data : Bytes) : Prop where
  start : cursor = .start data
  run : ∀ moves, ∃ steps, cursor.run moves = .ok steps ∧ TermCursor.Steps cursor moves steps ∧
    (steps.map fun step => step.2.walk) = IdStream.trace moves (SnapshotWalk.ofData data) ∧
    steps.Pairwise fun earlier later => earlier.1 = 0 → later = earlier

/-- Look-ups by offsets never trap, find what the snapshot has, and give steady cursors. -/
structure Safe (image : PlacedImage) : Prop where
  global : ∀ id, image.globalAt id = .ok (image.snapshot.global? id)
  contains : ∀ term, image.containsAt term = .ok (image.snapshot.contains term)
  cursor : ∀ term, ∃ cursor?, image.cursorAt term = .ok cursor? ∧
    Option.Rel Steady cursor? ((image.snapshot.slot? term).map Slot.data)
  stemCursors : ∀ stem, ∃ cursors, image.stemCursorsAt stem = .ok cursors ∧
    List.Forall₂ Steady cursors ((image.snapshot.slotsWithStem stem).map Slot.data)

theorem Inside.steady (h : image.Inside) (placed : PlacedSlot) :
    Steady (image.cursorOf placed) (placed.slot image.termIndex image.termData).data := by
  refine ⟨rfl, fun moves => ?_⟩
  have hinside : (image.cursorOf placed).Inside := .start (h.small.termData.of placed.region)
  obtain ⟨steps, hrun, hsteps⟩ := TermCursor.run_spec hinside moves
  refine ⟨steps, hrun, hsteps, ?_, hsteps.ended hrun⟩
  rw [hsteps.walk, cursorOf, TermCursor.walk_start]
  rfl

/-- **All look-ups in an image that lies within its files are safe.** -/
theorem Inside.safe (h : image.Inside) : image.Safe where
  global := globalAt_spec h
  contains := containsAt_spec h
  cursor term := by
    obtain ⟨placed?, hcursor, hslot⟩ := cursorAt_spec h term
    refine ⟨_, hcursor, ?_⟩
    rw [hslot]
    cases placed? with
    | none => exact .none
    | some placed => exact .some (h.steady placed)
  stemCursors stem := by
    obtain ⟨slots, hcursors, hslots⟩ := stemCursorsAt_spec h stem
    refine ⟨_, hcursors, ?_⟩
    rw [hslots, List.map_map, List.forall₂_map_left_iff, List.forall₂_map_right_iff]
    exact List.forall₂_same.2 fun placed _ => h.steady placed

end PlacedImage

/-- **Arbitrary files are safe.** Whatever the files hold, opening them comes to an end without a
    trap: they are refused as corrupt, or give the snapshot, all look-ups in which are safe. -/
theorem openAt_safe {files : SnapshotFiles} (hfiles : files.Small) (base : String)
    (settings : OpenSettings) :
    ∃ result, openAt base settings files = .ok result ∧
      Snapshot.open? base settings files = result.map PlacedImage.snapshot ∧
      (∀ fault, result = .error fault → ∃ cause, fault = .corrupt base cause) ∧
      ∀ image, result = .ok image → image.Safe := by
  obtain ⟨result, hopen, hsnapshot, hinside⟩ := openAt_spec hfiles base settings
  refine ⟨result, hopen, hsnapshot, ?_, fun image himage => (hinside image himage).safe⟩
  rintro fault rfl
  unfold Snapshot.open? at hsnapshot
  split at hsnapshot
  · cases hsnapshot
  next cause hread =>
    cases hsnapshot
    exact ⟨cause, rfl⟩

/-- Files whose one blob has the largest offset there is. -/
def wildFiles : SnapshotFiles := fun
  | .globalIndex => some (List.replicate 8 0xFF)
  | _ => some []

theorem wildFiles_small : wildFiles.Small := by
  intro file contents hcontents
  cases file <;> cases hcontents <;> decide

/-- The largest offset traps no sum. -/
theorem openAt_safe_wildFiles : wildFiles.Small ∧
    openAt "index" {} wildFiles = .ok (.error (.corrupt "index" (.globalRange 0))) := by
  obtain ⟨result, hopen, hsnapshot, -⟩ := openAt_safe wildFiles_small "index" {}
  have hread : Snapshot.read {} wildFiles = .error (.globalRange 0) := by
    have hfault : globalsFault? [] 0 (List.replicate 8 0xFF) = some (.globalRange 0) := by
      rw [globalsFault?_of_some (show Bytes.readUInt64? (List.replicate 8 0xFF)
        = some (0xFFFFFFFFFFFFFFFF, []) by decide)]
      decide
    rw [Snapshot.read_eq]
    show Regions.check {} ⟨List.replicate 8 0xFF, [], [], []⟩ = _
    rw [Regions.check, hfault]
    rfl
  rw [Snapshot.open?, hread] at hsnapshot
  refine ⟨wildFiles_small, ?_⟩
  cases result with
  | error fault =>
    cases hsnapshot
    exact hopen
  | ok image => cases hsnapshot

end InvertedIndex
