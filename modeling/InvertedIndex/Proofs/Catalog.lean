import InvertedIndex.Proofs.Postings.Ledger
import InvertedIndex.Proofs.Postings.Walk
import InvertedIndex.Proofs.Query.Compile
import InvertedIndex.Proofs.Snapshot.Open
import InvertedIndex.Search

/-!
# `Proofs.Catalog` — sources as lists of terms

Whatever a source is made of, it answers like a **catalog**: the terms in ascending order, each with
a stream. The cursor of a term is the stream listed for it, and the cursor of a stem unites those of
the neighbouring terms that have it. Live postings and opened snapshots both answer like a catalog of
theirs, and two catalogs of related streams give related cursors for every query.

## Contents
- `Catalog`, with `Catalog.cursor` and `Catalog.stemCursor`; `Catalog.map`: other streams;
- `mem_withStem`: the terms with a stem are neighbours;
- `Catalog.Serves`: a source answers like a catalog; `Postings.catalog_serves`,
  `Snapshot.catalog_serves`; `Serves.cursor_cases`: the cursor of a term is the one listed or empty;
- `Catalog.Alike`: related streams for the same terms; `Alike.query_lifts`: one query over two alike
  catalogs;
- `Contents`, `Catalog.Shows`: what the streams of a catalog show; `Shows.alike`: catalogs that show
  the same are alike; `Tracks.catalog_shows`: live postings show what the ledger has;
- `Postings.contents`: what live postings have.
-/

namespace InvertedIndex

/-! ## Catalogs -/

/-- Terms in ascending order, each with a stream. -/
structure Catalog (L : Type) where
  entries : List (String × L)
  ascending : entries.Pairwise fun a b => a.1 < b.1

namespace Catalog

variable {L L' : Type}

/-- The cursor of a term is the stream listed for it. -/
def cursor (catalog : Catalog L) (term : String) : Cursor L :=
  match catalog.entries.find? fun entry => entry.1 = term with
  | some entry => .leaf entry.2
  | none => .empty

/-- The entries of the terms with a stem, looked for from the stem on. -/
def withStem (catalog : Catalog L) (stem : String) : List (String × L) :=
  (catalog.entries.dropWhile fun entry => entry.1 < stem).takeWhile fun entry =>
    hasStem stem entry.1

/-- The cursor of a stem unites the streams of the terms that have it. -/
def stemCursor (catalog : Catalog L) (stem : String) : Cursor L :=
  Cursor.wildcard ((catalog.withStem stem).map fun entry => .leaf entry.2)

instance : Source (Catalog L) L where
  cursor := cursor
  stemCursor := stemCursor

/-- A source answers like a catalog. -/
structure Serves {S : Type} [Source S L] (catalog : Catalog L) (source : S) : Prop where
  cursor : ∀ term, Source.cursor source term = catalog.cursor term
  stemCursor : ∀ stem, Source.stemCursor source stem = catalog.stemCursor stem

theorem cursor_of_mem (catalog : Catalog L) {entry : String × L}
    (hentry : entry ∈ catalog.entries) : catalog.cursor entry.1 = .leaf entry.2 := by
  unfold cursor
  cases hfound : catalog.entries.find? fun other => other.1 = entry.1 with
  | none =>
    have hnone := List.find?_eq_none.1 hfound entry hentry
    simp at hnone
  | some other =>
    have hterm : other.1 = entry.1 := by simpa using List.find?_some hfound
    have hnodup : (catalog.entries.map Prod.fst).Nodup := by
      refine List.pairwise_map.2 (catalog.ascending.imp ?_)
      intro a b hlt heq
      rw [heq] at hlt
      exact String.lt_irrefl _ hlt
    have hsame : other = entry :=
      List.inj_on_of_nodup_map hnodup (List.mem_of_find?_eq_some hfound) hentry hterm
    rw [hsame]

theorem cursor_of_notMem (catalog : Catalog L) {term : String}
    (hnone : ∀ entry ∈ catalog.entries, entry.1 ≠ term) : catalog.cursor term = .empty := by
  have hfound : catalog.entries.find? (fun entry => entry.1 = term) = none := by
    refine List.find?_eq_none.2 ?_
    intro entry hentry
    simpa using hnone entry hentry
  rw [cursor, hfound]

/-- The cursor of a term is that of its stream if the term is listed, and an empty one if not. -/
theorem Serves.cursor_cases {S : Type} [Source S L] {catalog : Catalog L} {source : S}
    (h : catalog.Serves source) (term : String) :
    (∃ entry ∈ catalog.entries, entry.1 = term ∧ Source.cursor source term = .leaf entry.2) ∨
      (∀ entry ∈ catalog.entries, entry.1 ≠ term) ∧ Source.cursor source term = .empty := by
  rw [h.cursor]
  by_cases hterm : ∃ entry ∈ catalog.entries, entry.1 = term
  · obtain ⟨entry, hentry, rfl⟩ := hterm
    exact .inl ⟨entry, hentry, rfl, catalog.cursor_of_mem hentry⟩
  · have hnone : ∀ entry ∈ catalog.entries, entry.1 ≠ term := fun entry hentry heq =>
      hterm ⟨entry, hentry, heq⟩
    exact .inr ⟨hnone, catalog.cursor_of_notMem hnone⟩

/-! ## Stems -/

/-- A text between a stem and a text that has it has it too. -/
theorem isPrefix_of_between {stem text other : List Char} (hstem : ¬ text < stem)
    (hother : text < other) (hbegins : stem <+: other) : stem <+: text := by
  induction stem generalizing text other with
  | nil => exact List.nil_prefix
  | cons c stem ih =>
    obtain ⟨rest, rfl⟩ := hbegins
    cases text with
    | nil => exact absurd (List.nil_lt_cons c stem) hstem
    | cons d text =>
      rw [List.cons_append, List.cons_lt_cons_iff] at hother
      rw [List.cons_lt_cons_iff, not_or] at hstem
      rcases hother with hlt | ⟨rfl, hrest⟩
      · exact absurd hlt hstem.1
      · have hbelow : ¬ text < stem := fun hlt => hstem.2 ⟨rfl, hlt⟩
        exact List.cons_prefix_cons.2 ⟨rfl, ih hbelow hrest (List.prefix_append _ _)⟩

theorem hasStem_iff {stem term : String} :
    hasStem stem term = true ↔ stem.toList <+: term.toList := List.isPrefixOf_iff_prefix

/-- Among terms from the stem on, those that have it come first. -/
theorem mem_takeWhile_stem {stem : String} {entries : List (String × L)}
    (hasc : entries.Pairwise fun a b => a.1 < b.1) (habove : ∀ entry ∈ entries, ¬ entry.1 < stem)
    {entry : String × L} : entry ∈ entries.takeWhile (fun entry => hasStem stem entry.1)
      ↔ entry ∈ entries ∧ hasStem stem entry.1 = true := by
  induction entries with
  | nil => simp
  | cons first rest ih =>
    obtain ⟨hfirst, hrest⟩ := List.pairwise_cons.1 hasc
    obtain ⟨hfrom, habove'⟩ := List.forall_mem_cons.1 habove
    have hbehind := ih hrest habove'
    cases hstem : hasStem stem first.1 with
    | true =>
      rw [List.takeWhile_cons, if_pos hstem, List.mem_cons, List.mem_cons, hbehind]
      constructor
      · rintro (rfl | ⟨hentry, hterm⟩)
        · exact ⟨.inl rfl, hstem⟩
        · exact ⟨.inr hentry, hterm⟩
      · rintro ⟨rfl | hentry, hterm⟩
        · exact .inl rfl
        · exact .inr ⟨hentry, hterm⟩
    | false =>
      -- Past the first term without the stem no other has it, as it would lie between.
      have hnone : ∀ other ∈ first :: rest, ¬ hasStem stem other.1 = true := by
        intro other hother hterm
        rcases List.mem_cons.1 hother with rfl | hlater
        · rw [hstem] at hterm
          cases hterm
        · have hhas := isPrefix_of_between hfrom (hfirst other hlater) (hasStem_iff.1 hterm)
          rw [hasStem_iff.2 hhas] at hstem
          cases hstem
      rw [List.takeWhile_cons, if_neg (by simp [hstem])]
      constructor
      · intro hentry
        cases hentry
      · rintro ⟨hentry, hterm⟩
        exact absurd hterm (hnone entry hentry)

/-- **The terms with a stem are neighbours**: the entries found from the stem on are all of them. -/
theorem mem_withStem (catalog : Catalog L) {stem : String} {entry : String × L} :
    entry ∈ catalog.withStem stem ↔ entry ∈ catalog.entries ∧ hasStem stem entry.1 = true := by
  have hasc := catalog.ascending
  unfold withStem
  generalize catalog.entries = entries at hasc
  induction entries with
  | nil => simp
  | cons first rest ih =>
    obtain ⟨hfirst, hrest⟩ := List.pairwise_cons.1 hasc
    have hnotBelow {term : String} (hterm : hasStem stem term = true) : ¬ term < stem := by
      rw [String.lt_iff]
      exact List.not_lt.2 (hasStem_iff.1 hterm).le
    -- Terms below the stem are dropped, and none of them has it.
    by_cases hbelow : first.1 < stem
    · have hno : hasStem stem first.1 = false := by
        rw [Bool.eq_false_iff]
        exact fun hterm => hnotBelow hterm hbelow
      rw [List.dropWhile_cons, if_pos (decide_eq_true hbelow), List.mem_cons]
      refine (ih hrest).trans ?_
      constructor
      · rintro ⟨hentry, hterm⟩
        exact ⟨.inr hentry, hterm⟩
      · rintro ⟨rfl | hentry, hterm⟩
        · rw [hno] at hterm
          cases hterm
        · exact ⟨hentry, hterm⟩
    · rw [List.dropWhile_cons, if_neg (by simpa using hbelow)]
      refine mem_takeWhile_stem hasc ?_
      intro other hother hlt
      rcases List.mem_cons.1 hother with rfl | hlater
      · exact hbelow hlt
      · exact hbelow (String.lt_trans (hfirst other hlater) hlt)

/-! ## Other streams -/

/-- The catalog with each stream replaced. -/
def map (f : L → L') (catalog : Catalog L) : Catalog L' where
  entries := catalog.entries.map fun entry => (entry.1, f entry.2)
  ascending := List.pairwise_map.2 catalog.ascending

theorem map_cursor (f : L → L') (catalog : Catalog L) (term : String) :
    (catalog.map f).cursor term = (catalog.cursor term).map f := by
  unfold cursor map
  simp only [List.find?_map, Function.comp_def]
  cases catalog.entries.find? fun entry => entry.1 = term <;> rfl

theorem map_stemCursor (f : L → L') (catalog : Catalog L) (stem : String) :
    (catalog.map f).stemCursor stem = (catalog.stemCursor stem).map f := by
  unfold stemCursor withStem map
  simp only [List.dropWhile_map, List.takeWhile_map, List.map_map, Function.comp_def]
  generalize (catalog.entries.dropWhile _).takeWhile _ = entries
  rcases entries with _ | ⟨entry, _ | ⟨entry', rest⟩⟩
  · rfl
  · rfl
  · simp [Cursor.wildcard, Cursor.unionOf, Cursor.map]

end Catalog

/-! ## Live postings -/

theorem compare_eq_lt_iff {a b : String} : compare a b = .lt ↔ a < b := compareOfLessAndEq_eq_lt

namespace Postings

/-- The catalog of live postings. -/
def catalog (postings : Postings) : Catalog Walk where
  entries := postings.holdings.toList.map fun held => (held.1, Walk.ofGroups held.2.groups)
  ascending := by
    refine List.pairwise_map.2 (Std.TreeMap.ordered_keys_toList.imp ?_)
    intro a b hlt
    exact compare_eq_lt_iff.1 hlt

theorem mem_catalog {postings : Postings} {term : String} {walk : Walk} :
    (term, walk) ∈ postings.catalog.entries
      ↔ ∃ holding, postings.holdings[term]? = some holding ∧
        Walk.ofGroups holding.groups = walk := by
  simp only [catalog, List.mem_map, Prod.exists, Prod.mk.injEq,
    Std.TreeMap.mem_toList_iff_getElem?_eq_some]
  constructor
  · rintro ⟨term, holding, hholding, rfl, hwalk⟩
    exact ⟨holding, hholding, hwalk⟩
  · rintro ⟨holding, hholding, hwalk⟩
    exact ⟨term, holding, hholding, rfl, hwalk⟩

/-- **Live postings answer like their catalog.** -/
theorem catalog_serves (postings : Postings) : postings.catalog.Serves postings where
  cursor := by
    intro term
    show postings.cursor term = _
    cases hholding : postings.holdings[term]? with
    | none =>
      rw [cursor, walk?, hholding, Catalog.cursor_of_notMem]
      · rfl
      · rintro ⟨other, walk⟩ hentry rfl
        obtain ⟨holding, hholding', -⟩ := mem_catalog.1 hentry
        rw [hholding] at hholding'
        cases hholding'
    | some holding =>
      have hentry := mem_catalog.2 ⟨holding, hholding, rfl⟩
      rw [cursor, walk?, hholding, postings.catalog.cursor_of_mem hentry]
      rfl
  stemCursor := by
    intro stem
    show postings.stemCursor stem = _
    rw [stemCursor, holdingsWithStem, Catalog.stemCursor, Catalog.withStem]
    simp only [catalog, List.dropWhile_map, List.takeWhile_map, List.map_map]
    rfl

end Postings

/-! ## Opened snapshots -/

namespace Snapshot

/-- The catalog of a snapshot. -/
def catalog (snapshot : Snapshot) (h : snapshot.Ordered) : Catalog SnapshotWalk where
  entries := snapshot.slots.toList.map fun slot => (slot.term, SnapshotWalk.ofData slot.data)
  ascending := by
    rw [List.pairwise_map]
    exact h

/-- **A snapshot answers like its catalog.** -/
theorem catalog_serves {snapshot : Snapshot} (h : snapshot.Ordered) :
    (snapshot.catalog h).Serves snapshot where
  cursor := by
    intro term
    show snapshot.cursor term = _
    cases hslot : snapshot.slot? term with
    | none =>
      rw [cursor, walk?, hslot, Catalog.cursor_of_notMem]
      · rfl
      · rintro entry hentry rfl
        obtain ⟨slot, hmem, rfl⟩ := List.mem_map.1 hentry
        rw [(slot?_eq_some h).2 ⟨hmem, rfl⟩] at hslot
        cases hslot
    | some slot =>
      obtain ⟨hmem, rfl⟩ := (slot?_eq_some h).1 hslot
      have hentry : (slot.term, SnapshotWalk.ofData slot.data) ∈ (snapshot.catalog h).entries :=
        List.mem_map_of_mem hmem
      rw [cursor, walk?, hslot, Catalog.cursor_of_mem _ hentry]
      rfl
  stemCursor := by
    intro stem
    show snapshot.stemCursor stem = _
    rw [stemCursor, slotsWithStem, drop_placeOf h, Catalog.stemCursor, Catalog.withStem]
    simp only [catalog, List.dropWhile_map, List.takeWhile_map, List.map_map]
    rfl

end Snapshot

/-! ## Related catalogs -/

namespace Catalog

variable {L L' : Type} [IdStream L] [IdStream L'] {bisim : Bisimulation L L'}

/-- The catalogs list the same terms, with related streams. -/
def Alike (bisim : Bisimulation L L') (catalog : Catalog L) (catalog' : Catalog L') : Prop :=
  ∃ pairs : Catalog bisim.Pair, catalog = pairs.map (Bisimulation.Pair.left bisim) ∧
    catalog' = pairs.map (Bisimulation.Pair.right bisim)

/-- Entries of the same terms pair up if streams listed for one term are related. -/
theorem exists_pairs {entries : List (String × L)} {entries' : List (String × L')}
    (hsame : entries.map Prod.fst = entries'.map Prod.fst)
    (hstreams : ∀ entry ∈ entries, ∀ entry' ∈ entries', entry.1 = entry'.1 →
      bisim.Rel entry.2 entry'.2) :
    ∃ pairs : List (String × bisim.Pair),
      entries = pairs.map (fun pair => (pair.1, Bisimulation.Pair.left bisim pair.2)) ∧
        entries' = pairs.map fun pair => (pair.1, Bisimulation.Pair.right bisim pair.2) := by
  -- Pairwise along both lists, which have the same terms in the same order.
  induction entries generalizing entries' with
  | nil =>
    rw [List.map_nil, eq_comm, List.map_eq_nil_iff] at hsame
    exact ⟨[], rfl, hsame⟩
  | cons entry rest ih =>
    cases entries' with
    | nil => cases hsame
    | cons entry' rest' =>
      rw [List.map_cons, List.map_cons, List.cons.injEq] at hsame
      obtain ⟨pairs, hleft, hright⟩ := ih hsame.2 fun e he e' he' =>
        hstreams e (List.mem_cons_of_mem _ he) e' (List.mem_cons_of_mem _ he')
      have hrel := hstreams entry List.mem_cons_self entry' List.mem_cons_self hsame.1
      refine ⟨(entry.1, ⟨(entry.2, entry'.2), hrel⟩) :: pairs, ?_, ?_⟩
      · rw [List.map_cons, ← hleft]
        rfl
      · rw [List.map_cons, ← hright, hsame.1]
        rfl

/-- Catalogs with the same terms are alike if streams listed for one term are related. -/
theorem alike_of {catalog : Catalog L} {catalog' : Catalog L'}
    (hterms : ∀ term, (∃ entry ∈ catalog.entries, entry.1 = term)
      ↔ ∃ entry ∈ catalog'.entries, entry.1 = term)
    (hstreams : ∀ entry ∈ catalog.entries, ∀ entry' ∈ catalog'.entries, entry.1 = entry'.1 →
      bisim.Rel entry.2 entry'.2) : Alike bisim catalog catalog' := by
  have hsame : catalog.entries.map Prod.fst = catalog'.entries.map Prod.fst := by
    refine (List.pairwise_map.2 catalog.ascending).eq_of_mem_iff
      (List.pairwise_map.2 catalog'.ascending) ?_
    intro term
    rw [List.mem_map, List.mem_map]
    exact hterms term
  obtain ⟨pairs, hleft, hright⟩ := exists_pairs hsame hstreams
  obtain ⟨entries, hasc⟩ := catalog
  obtain ⟨entries', hasc'⟩ := catalog'
  subst hleft hright
  rw [List.pairwise_map] at hasc
  exact ⟨⟨pairs, hasc⟩, rfl, rfl⟩

variable {catalog : Catalog L} {catalog' : Catalog L'} {S S' : Type} [Source S L] [Source S' L']
  {source : S} {source' : S'}

/-- **One query over two sources** that answer like alike catalogs compiles to related cursors. -/
theorem Alike.query_lifts (h : Alike bisim catalog catalog') (hserves : catalog.Serves source)
    (hserves' : catalog'.Serves source') (settings : CompileSettings) (query : Query) :
    bisim.Lifts (Compiler.query { source, settings } query)
      (Compiler.query { source := source', settings } query) := by
  obtain ⟨pairs, rfl, rfl⟩ := h
  have hleft : Compiler.Replaces (Bisimulation.Pair.left bisim)
      ({ source := pairs, settings } : Compiler (Catalog bisim.Pair) bisim.Pair)
      ({ source, settings } : Compiler S L) :=
    ⟨fun term => (hserves.cursor term).trans (map_cursor _ pairs term),
      fun stem => (hserves.stemCursor stem).trans (map_stemCursor _ pairs stem), rfl, fun _ => rfl⟩
  have hright : Compiler.Replaces (Bisimulation.Pair.right bisim)
      ({ source := pairs, settings } : Compiler (Catalog bisim.Pair) bisim.Pair)
      ({ source := source', settings } : Compiler S' L') :=
    ⟨fun term => (hserves'.cursor term).trans (map_cursor _ pairs term),
      fun stem => (hserves'.stemCursor stem).trans (map_stemCursor _ pairs stem), rfl, fun _ => rfl⟩
  exact ⟨_, Compiler.query_map hleft query, Compiler.query_map hright query⟩

end Catalog

/-! ## What a catalog shows -/

/-- Terms, and the hits under each. -/
structure Contents where
  terms : Set String
  hits : String → Set Hit

/-- The catalog lists the terms, each with a stream that shows its hits. -/
structure Catalog.Shows {L : Type} [IdStream L] (shows : Bisimulation HitStream L)
    (catalog : Catalog L) (contents : Contents) : Prop where
  terms : ∀ term, (∃ entry ∈ catalog.entries, entry.1 = term) ↔ term ∈ contents.terms
  hits : ∀ entry ∈ catalog.entries, ∃ list : HitList,
    (∀ hit, hit ∈ list.hits ↔ hit ∈ contents.hits entry.1) ∧ shows.Rel list.stream entry.2

/-- Lists of the same hits are the same. -/
theorem HitList.ext_mem {list list' : HitList} (h : ∀ hit, hit ∈ list.hits ↔ hit ∈ list'.hits) :
    list = list' := by
  have hirrefl : Std.Irrefl fun a b : Hit => a.id < b.id := ⟨fun a => UInt32.lt_irrefl a.id⟩
  have hantisymm : Std.Antisymm fun a b : Hit => a.id < b.id :=
    ⟨fun a b hab hba => absurd (UInt32.lt_trans hab hba) (UInt32.lt_irrefl a.id)⟩
  have hhits : list.hits = list'.hits := list.ascending.eq_of_mem_iff list'.ascending h
  obtain ⟨hits, _, _⟩ := list
  obtain ⟨hits', _, _⟩ := list'
  subst hhits
  rfl

/-- **Catalogs that show the same are alike.** -/
theorem Catalog.Shows.alike {L L' : Type} [IdStream L] [IdStream L']
    {shows : Bisimulation HitStream L} {shows' : Bisimulation HitStream L'}
    {catalog : Catalog L} {catalog' : Catalog L'} {contents : Contents}
    (h : catalog.Shows shows contents) (h' : catalog'.Shows shows' contents) :
    Alike (shows.symm.comp shows') catalog catalog' := by
  refine alike_of (fun term => (h.terms term).trans (h'.terms term).symm) ?_
  intro entry hentry entry' hentry' hterm
  obtain ⟨list, hlist, hrel⟩ := h.hits entry hentry
  obtain ⟨list', hlist', hrel'⟩ := h'.hits entry' hentry'
  have hsame : list = list' := by
    refine HitList.ext_mem ?_
    intro hit
    rw [hlist, hlist', hterm]
  subst hsame
  exact ⟨list.stream, hrel, hrel'⟩

/-- The entries with a stem are those of the terms that have it. -/
theorem Catalog.Shows.exists_withStem {L : Type} [IdStream L] {shows : Bisimulation HitStream L}
    {catalog : Catalog L} {contents : Contents} (h : catalog.Shows shows contents)
    (stem term : String) : (∃ entry ∈ catalog.withStem stem, entry.1 = term) ↔
      term ∈ contents.terms ∧ stem.toList <+: term.toList := by
  rw [← h.terms]
  constructor
  · rintro ⟨entry, hentry, rfl⟩
    obtain ⟨hentry', hstem⟩ := catalog.mem_withStem.1 hentry
    exact ⟨⟨entry, hentry', rfl⟩, hasStem_iff.1 hstem⟩
  · rintro ⟨⟨entry, hentry, rfl⟩, hstem⟩
    exact ⟨entry, catalog.mem_withStem.2 ⟨hentry, hasStem_iff.2 hstem⟩, rfl⟩

/-- The terms of a ledger, with the documents under each and the positions recorded for them. -/
def Ledger.contents (ledger : Ledger) : Contents where
  terms := {term | term ∈ ledger.terms}
  hits term := {hit | hit.id.Valid ∧ ∃ payload, ledger.payload? term hit.id = some payload ∧
    hit.window = Window.decode payload}

/-- **Postings in step with a ledger show what it has.** -/
theorem Postings.Tracks.catalog_shows {postings : Postings} {ledger : Ledger}
    (h : postings.Tracks ledger) : postings.catalog.Shows Walk.shows ledger.contents where
  terms := by
    intro term
    show _ ↔ term ∈ ledger.terms
    rw [← h.terms, Option.isSome_iff_exists]
    constructor
    · rintro ⟨⟨_, walk⟩, hentry, rfl⟩
      obtain ⟨holding, hholding, -⟩ := mem_catalog.1 hentry
      exact ⟨holding, hholding⟩
    · rintro ⟨holding, hholding⟩
      exact ⟨(term, _), mem_catalog.2 ⟨holding, hholding, rfl⟩, rfl⟩
  hits := by
    rintro ⟨term, walk⟩ hentry
    obtain ⟨holding, hholding, rfl⟩ := mem_catalog.1 hentry
    have hsound := h.sound term holding hholding
    have hzero := h.zero term holding hholding
    refine ⟨hitsOf holding.groups hsound.ascending hsound.groups hzero, ?_,
      Walk.shows_ofGroups hsound.ascending hsound.groups hzero⟩
    intro hit
    show hit ∈ (landingsOf holding.groups).map Landing.hit ↔ _
    constructor
    · intro hmem
      obtain ⟨landing, hlanding, rfl⟩ := List.mem_map.1 hmem
      obtain ⟨hid, hpayload⟩ := (h.landing hholding).1 hlanding
      exact ⟨hid, landing.payload, hpayload, rfl⟩
    · rintro ⟨hid, payload, hpayload, hwindow⟩
      refine List.mem_map.2 ⟨⟨hit.id, payload⟩, (h.landing hholding).2 ⟨hid, hpayload⟩, ?_⟩
      obtain ⟨id, window⟩ := hit
      exact congrArg (Hit.mk id) hwindow.symm

namespace Postings

/-- The terms of the postings, with the documents found under each and the positions recorded. -/
def contents (postings : Postings) : Contents where
  terms := {term | postings.contains term}
  hits term := {hit | ∃ payload, postings.find? term hit.id = some payload ∧
    hit.window = Window.decode payload}

/-- Postings in step with a ledger have what it has. -/
theorem Tracks.contents_eq {postings : Postings} {ledger : Ledger} (h : postings.Tracks ledger) :
    postings.contents = ledger.contents := by
  rw [contents, Ledger.contents, Contents.mk.injEq]
  constructor
  · ext term
    exact h.agrees.contains term
  · funext term
    ext hit
    show (∃ payload, postings.find? term hit.id = some payload ∧ _) ↔ hit.id.Valid ∧ _
    rw [h.find?_eq]
    refine ⟨?_, And.right⟩
    rintro ⟨payload, hpayload, hwindow⟩
    refine ⟨?_, payload, hpayload, hwindow⟩
    by_contra hid
    rw [h.payload, if_neg hid] at hpayload
    cases hpayload

end Postings

end InvertedIndex
