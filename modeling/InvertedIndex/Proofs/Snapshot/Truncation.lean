import InvertedIndex.Proofs.Snapshot.Blobs
import InvertedIndex.Proofs.Snapshot.Loading
import InvertedIndex.Proofs.Snapshot.Offers

/-!
# `Proofs.Snapshot.Truncation` — files of a draft, whole and cut short

The files of a finished draft hold what its sorters return: the regions of the blobs and of the
terms, and where each of them lies. Opened whole, they pass all checks of the places. If a data file
is cut short anywhere, the check of its index comes to a region that does not lie within what is
left, and the snapshot is refused, verified or not.

## Contents
- `Regions.load_eq_ok`: the contents of the files;
- `Regions.written`, `Snapshot.written`: contents as they are written and as they are opened;
- `Locatable`: when their places hold;
- `Locatable.check_cut_globals`, `Locatable.check_cut_terms`: their checks, cut short;
- `SnapshotFiles.Short`; `Took.finish_written`, `Took.finish_opens`: the files of a draft;
- `Draft.cut_refused`: its data files cut short.
-/

namespace InvertedIndex

/-! ## Contents of files -/

namespace Regions

variable {files : SnapshotFiles} {regions : Regions}

theorem load_eq_ok : load files = .ok regions ↔
    files .globalIndex = some regions.globalIndex ∧ files .globalData = some regions.globalData ∧
      files .termIndex = some regions.termIndex ∧ files .termData = some regions.termData := by
  have hrequire (file : FileRole) (bytes : Bytes) :
      Snapshot.require files file = .ok bytes ↔ files file = some bytes := by
    unfold Snapshot.require
    cases files file <;> simp
  unfold load
  simp only [bind_eq_ok, hrequire]
  constructor
  · rintro ⟨globalIndex, h₁, globalData, h₂, termIndex, h₃, termData, h₄, hall⟩
    cases hall
    exact ⟨h₁, h₂, h₃, h₄⟩
  · rintro ⟨h₁, h₂, h₃, h₄⟩
    exact ⟨_, h₁, _, h₂, _, h₃, _, h₄, rfl⟩

theorem load_set_globalData (h : load files = .ok regions) (bytes : Bytes) :
    load (files.set .globalData bytes) = .ok { regions with globalData := bytes } := by
  obtain ⟨h₁, -, h₃, h₄⟩ := load_eq_ok.1 h
  exact load_eq_ok.2 ⟨h₁, rfl, h₃, h₄⟩

theorem load_set_termData (h : load files = .ok regions) (bytes : Bytes) :
    load (files.set .termData bytes) = .ok { regions with termData := bytes } := by
  obtain ⟨h₁, h₂, h₃, -⟩ := load_eq_ok.1 h
  exact load_eq_ok.2 ⟨h₁, h₂, h₃, rfl⟩

/-- A snapshot is opened as its contents are checked. -/
theorem read_of_load (h : load files = .ok regions) (settings : OpenSettings) :
    Snapshot.read settings files = regions.check settings := by
  rw [Snapshot.read_eq, h]
  rfl

/-- Contents that fail a check are refused for it. -/
theorem open?_refused (h : load files = .ok regions) {settings : OpenSettings} {cause : Corruption}
    (hcheck : regions.check settings = .error cause) (base : String) :
    Snapshot.open? base settings files = .error (.corrupt base cause) := by
  rw [Snapshot.open?, read_of_load h, hcheck]

/-- The contents of the files for some blobs and some terms. -/
def written (globals : List GlobalRecord) (images : List TermImage) : Regions where
  globalIndex := InvertedIndex.globalIndex 0 regionHeader globals
  globalData := InvertedIndex.globalData globals
  termIndex := InvertedIndex.termIndex regionHeader images
  termData := InvertedIndex.termData images

end Regions

/-- The snapshot that such files are opened as. -/
def Snapshot.written (globals : List GlobalRecord) (images : List TermImage) : Snapshot :=
  ⟨InvertedIndex.globalIndex 0 regionHeader globals, InvertedIndex.globalData globals,
    (images.map TermImage.slot).toArray⟩

theorem Snapshot.written_slots (globals : List GlobalRecord) (images : List TermImage) :
    (Snapshot.written globals images).slots.toList = images.map TermImage.slot := rfl

/-! ## Checks -/

/-- Blobs and terms whose regions can be found again. -/
structure Locatable (globals : List GlobalRecord) (images : List TermImage) : Prop where
  blobs : ∀ record ∈ globals, record.blob.length < 2 ^ 32
  findable : ∀ image ∈ images, image.Findable
  ascending : images.Pairwise fun a b => a.term < b.term
  /-- Offsets have eight bytes. -/
  globalRoom : (globalData globals).length < 2 ^ 64
  termRoom : (termData images).length < 2 ^ 64

namespace Locatable

variable {globals : List GlobalRecord} {images : List TermImage}

/-- The blobs are all found if nothing was cut off. -/
theorem globalsFault?_cut (h : Locatable globals images) (n : Nat) :
    globalsFault? ((globalData globals).take n) 0 (globalIndex 0 regionHeader globals) = none
      ↔ (globalData globals).length ≤ n := by
  have hroom : ([] : Bytes).length + (globalData globals).length < 2 ^ 64 := by
    simpa using h.globalRoom
  simpa using globalsFault?_take 0 0 hroom h.blobs (Nat.zero_le n)

theorem globalsFault?_whole (h : Locatable globals images) :
    globalsFault? (globalData globals) 0 (globalIndex 0 regionHeader globals) = none := by
  have hwhole := (h.globalsFault?_cut (globalData globals).length).2 (Nat.le_refl _)
  rwa [List.take_length] at hwhole

/-- Cut short, the blobs are refused for one that is not found. -/
theorem check_cut_globals (h : Locatable globals images) {n : Nat}
    (hcut : n < (globalData globals).length) (settings : OpenSettings) :
    ∃ id, Regions.check settings { Regions.written globals images with
      globalData := (globalData globals).take n } = .error (.globalRange id) := by
  cases hfault : globalsFault? ((globalData globals).take n) 0
      (globalIndex 0 regionHeader globals) with
  | none => exact absurd ((h.globalsFault?_cut n).1 hfault) (Nat.not_le_of_lt hcut)
  | some fault =>
    obtain ⟨id, rfl⟩ := globalsFault?_eq_some hfault
    refine ⟨id, ?_⟩
    unfold Regions.check Regions.written
    simp only [globalIndex_length, hfault, bind, Except.bind]
    rfl

/-- Cut short, the terms are refused for one whose region is not found. -/
theorem check_cut_terms (h : Locatable globals images) {n : Nat}
    (hcut : n < (termData images).length) (settings : OpenSettings) :
    ∃ place, Regions.check settings { Regions.written globals images with
      termData := (termData images).take n } = .error (.termRange place) := by
  obtain ⟨place, hplace⟩ : ∃ place, readSlots ((termData images).take n)
      (termIndex regionHeader images).length none (termIndex regionHeader images)
        = .error (.termRange place) :=
    @readSlots_take images [] _ none n (by simpa using h.termRoom) h.findable h.ascending (by simp)
      (Nat.zero_le n) (by simpa using hcut)
  refine ⟨place, ?_⟩
  unfold Regions.check Regions.written
  simp only [globalIndex_length, h.globalsFault?_whole, hplace, bind, Except.bind]
  rfl

end Locatable

/-! ## Drafts -/

/-- Data files that are not too long for offsets of eight bytes. -/
structure SnapshotFiles.Short (files : SnapshotFiles) : Prop where
  globalData : ∀ bytes, files .globalData = some bytes → bytes.length < 2 ^ 64
  termData : ∀ bytes, files .termData = some bytes → bytes.length < 2 ^ 64

namespace Draft

variable {settings : BuildSettings}

variable {draft : Draft} {additions : List Addition}

/-- What comes out of a sorter of blobs was taken. -/
theorem Took.blob_taken (h : draft.Took settings additions) :
    ∀ record ∈ draft.globals.finish, record.Taken := by
  intro record hrecord
  have harrived := (RunSorter.finish_spec h.globals).2.1 record hrecord
  obtain ⟨addition, -, hleft⟩ := List.mem_filterMap.1 harrived
  exact (Addition.blob?_eq_some_iff.1 hleft).2

/-- What comes out of a sorter of occurrences was taken. -/
theorem Took.record_taken (h : draft.Took settings additions) :
    ∀ record ∈ draft.terms.finish, record.Taken settings.maxPosition := by
  intro record hrecord
  have harrived := (RunSorter.finish_spec h.terms).2.1 record hrecord
  obtain ⟨addition, -, hleft⟩ := List.mem_filterMap.1 harrived
  exact (Addition.record?_eq_some_iff.1 hleft).2

theorem Took.storable (h : draft.Took settings additions)
    (hmax : settings.maxPosition ≤ largestPosition) :
    ∀ record ∈ draft.terms.finish, Storable record := by
  intro record hrecord
  have htaken := h.record_taken record hrecord
  exact ⟨htaken.id, UInt16.le_trans htaken.position hmax⟩

/-- Few blobs and few terms make short files. -/
theorem short_of_finish {files : SnapshotFiles} {stats : BuildStats}
    (hfinish : draft.finish = .ok (files, stats))
    (hblobs : (globalData draft.globals.finish).length < 2 ^ 64)
    (hterms : ∀ bytes, files .termData = some bytes → bytes.length < 2 ^ 64) : files.Short := by
  refine ⟨?_, hterms⟩
  intro bytes hbytes
  obtain ⟨-, -, -, -, hglobals, -, -⟩ := finish_eq_ok hfinish
  obtain rfl := Option.some.inj (hglobals.symm.trans hbytes)
  exact hblobs

/-- **The files of a finished draft** hold what its sorters return, where it can be found again. -/
theorem Took.finish_written (h : draft.Took settings additions) {files : SnapshotFiles} {stats : BuildStats}
    (hfinish : draft.finish = .ok (files, stats)) (hshort : files.Short) :
    ∃ images, ImagesOf draft.terms.finish images ∧ stats.Counts images ∧
      Regions.load files = .ok (.written draft.globals.finish images) ∧
      Locatable draft.globals.finish images := by
  obtain ⟨images, himages, hstats, hglobalIndex, hglobalData, htermIndex, htermData⟩ :=
    finish_eq_ok hfinish
  refine ⟨images, himages, hstats, ?_, ?_⟩
  · exact Regions.load_eq_ok.2 ⟨hglobalIndex, hglobalData, htermIndex, htermData⟩
  · exact {
      blobs := fun record hrecord => (h.blob_taken record hrecord).size
      findable := images_findable himages fun record hrecord => (h.record_taken record hrecord).term
      ascending := images_ascending himages (RunSorter.finish_strictlySorted h.terms)
      globalRoom := hshort.globalData _ hglobalData
      termRoom := hshort.termData _ htermData }

/-- **The files of a finished draft can be opened**: the snapshot has its blobs and the images of
    its terms. -/
theorem Took.finish_opens (h : draft.Took settings additions) {files : SnapshotFiles}
    {stats : BuildStats} (hfinish : draft.finish = .ok (files, stats)) (hshort : files.Short) :
    ∃ images, ImagesOf draft.terms.finish images ∧ ∀ base opening,
      Snapshot.open? base opening files = .ok (.written draft.globals.finish images) := by
  obtain ⟨images, himages, -, hload, hlocatable⟩ := h.finish_written hfinish hshort
  obtain ⟨hglobalIndex, hglobalData, htermIndex, htermData⟩ := Regions.load_eq_ok.1 hload
  have hsound := images_flawless himages (RunSorter.finish_strictlySorted h.terms)
    fun record hrecord => (h.record_taken record hrecord).id
  refine ⟨images, himages, fun base opening => ?_⟩
  have hread : Snapshot.read opening files = .ok (.written draft.globals.finish images) :=
    Snapshot.read_eq_ok hglobalIndex hglobalData htermIndex htermData (globalIndex_length ..)
      hlocatable.globalsFault?_whole hlocatable.termRoom hlocatable.findable hlocatable.ascending
      hsound opening
  rw [Snapshot.open?, hread]

/-- **Data files that were cut short are refused.** Whatever was offered to a draft, and whether the
    postings are verified or not, its files cannot be opened once one of the data files has lost any
    bytes at its end: the postings of a term, or the blob of a document, do not lie within the rest. -/
theorem cut_refused {offers : List Offer} {files : SnapshotFiles} {stats : BuildStats}
    (hfinish : (offered settings offers).finish = .ok (files, stats)) (hshort : files.Short)
    (base : String) (opening : OpenSettings) :
    (∃ bytes, files .termData = some bytes ∧ ∀ n < bytes.length, ∃ place,
      Snapshot.open? base opening (files.set .termData (bytes.take n))
        = .error (.corrupt base (.termRange place))) ∧
    ∃ bytes, files .globalData = some bytes ∧ ∀ n < bytes.length, ∃ id,
      Snapshot.open? base opening (files.set .globalData (bytes.take n))
        = .error (.corrupt base (.globalRange id)) := by
  obtain ⟨images, -, -, hload, hlocatable⟩ :=
    (offered_took settings offers).finish_written hfinish hshort
  obtain ⟨-, hglobalData, -, htermData⟩ := Regions.load_eq_ok.1 hload
  constructor
  · refine ⟨_, htermData, fun n hcut => ?_⟩
    obtain ⟨place, hcheck⟩ := hlocatable.check_cut_terms hcut opening
    exact ⟨place, Regions.open?_refused (Regions.load_set_termData hload _) hcheck base⟩
  · refine ⟨_, hglobalData, fun n hcut => ?_⟩
    obtain ⟨id, hcheck⟩ := hlocatable.check_cut_globals hcut opening
    exact ⟨id, Regions.open?_refused (Regions.load_set_globalData hload _) hcheck base⟩

/-- An oak with its stems and a blob, whose files have lost a byte each. -/
theorem cut_refused_oak :
    let offers : List Offer := [.stems 2 ⟨"oak", 5, 3, 7⟩, .plain (.blob ⟨5, [1]⟩)]
    ∃ files stats, (offered {} offers).finish = .ok (files, stats) ∧ files.Short ∧
      (∃ bytes place, files .termData = some bytes ∧
        Snapshot.open? "oaks" {} (files.set .termData bytes.dropLast)
          = .error (.corrupt "oaks" (.termRange place))) ∧
      ∃ bytes id, files .globalData = some bytes ∧
        Snapshot.open? "oaks" {} (files.set .globalData bytes.dropLast)
          = .error (.corrupt "oaks" (.globalRange id)) := by
  intro offers
  have htook := offered_took {} offers
  obtain ⟨files, stats, hfinish, hroom⟩ := finish_few htook.terms (by decide)
  have hblobs : (offered {} offers).globals.finish = [⟨5, [1]⟩] :=
    RunSorter.finish_single htook.globals
  have hshort : files.Short := by
    apply short_of_finish hfinish _ hroom
    rw [hblobs]
    decide
  obtain ⟨images, himages, -, hload, -⟩ := htook.finish_written hfinish hshort
  obtain ⟨-, hglobals, -, hterms⟩ := Regions.load_eq_ok.1 hload
  -- The oak is written, so there is a byte to lose.
  have hpositive : 0 < (termData images).length := by
    obtain ⟨kept, hkept, -⟩ := (RunSorter.finish_spec htook.terms).2.2 ⟨"oak", 5, 3, 7⟩ (by decide)
    obtain ⟨image, himage, -⟩ := List.mem_map.1 ((mem_images himages).2 ⟨kept, hkept, rfl⟩)
    exact termData_pos himage
  obtain ⟨⟨bytes, hbytes, hcut⟩, ⟨bytes', hbytes', hcut'⟩⟩ := cut_refused hfinish hshort "oaks" {}
  refine ⟨files, stats, hfinish, hshort, ?_, ?_⟩
  · obtain rfl := Option.some.inj (hterms.symm.trans hbytes)
    obtain ⟨place, hplace⟩ := hcut _ (Nat.sub_lt hpositive Nat.one_pos)
    rw [← List.dropLast_eq_take] at hplace
    exact ⟨_, place, hbytes, hplace⟩
  · obtain rfl := Option.some.inj (hglobals.symm.trans hbytes')
    have hpositive' : 0 < (globalData (offered {} offers).globals.finish).length := by
      rw [hblobs]
      decide
    obtain ⟨id, hid⟩ := hcut' _ (Nat.sub_lt hpositive' Nat.one_pos)
    rw [← List.dropLast_eq_take] at hid
    exact ⟨_, id, hbytes', hid⟩

end Draft
end InvertedIndex
