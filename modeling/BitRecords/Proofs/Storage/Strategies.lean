import BitRecords.Proofs.Layout.Versions
import BitRecords.Proofs.Storage.Simulation

/-!
# One schema by different rules

Storages of one schema hold the same contents however the bits are laid out. They
give the same answers in every session, apart from the fingerprints by which
handles and errors name layouts, as long as no size overflows.
-/

namespace BitRecords

open Layout LayoutRules

/-- The tables differ only in where their layouts put the bits, and in what names a
layout. -/
structure Table.SameButLayout (ρ : Fingerprint → Fingerprint) (t t' : Table) : Prop where
  alike : t.layout.Alike ρ t'.layout
  state : SameState t t'
  contents : ∃ c, t.Shows c ∧ t'.Shows c
  slots : t.SameSlots t'

theorem Table.Twins.sameButLayout {ρ : Fingerprint → Fingerprint} {t t' : Table}
    (twins : t.Twins ρ False t') : t.SameButLayout ρ t' where
  alike := twins.alike
  state := twins.state
  contents := twins.shows
  slots := twins.slots not_false

namespace Storage

/-- Storages of one schema by two rules answer alike. Some renaming takes the
fingerprints in the one layout to those in the other, and with every such renaming
the requests with renamed handles get the renamed answers, if none of the answers
is the refusal of a size that overflows. The storages after that hold the same
contents, with objects in the same slots. -/
theorem answers_of_rules {r r' : LayoutRules} {schema : Schema} (buildable : schema.Buildable)
    {l l' : Layout}
    (ok : r.layout schema = .ok l) (ok' : r'.layout schema = .ok l') {capacity : Option UInt64}
    {s s' : Storage} (created : create l capacity = .ok s) (created' : create l' capacity = .ok s') :
    (∃ ρ, Translates ρ l l') ∧ ∀ ρ, Translates ρ l l' → ∀ requests : List Request,
      (∀ a ∈ s.answers requests, overflowed a = false) →
      (∀ a ∈ s'.answers (requests.map (·.rename ρ)), overflowed a = false) →
      s'.answers (requests.map (·.rename ρ)) = (s.answers requests).map (renameAnswer ρ) ∧
        (s.afterwards requests).Throughout₂ (Table.SameButLayout ρ)
          (s'.afterwards (requests.map (·.rename ρ))) := by
  have versions := versions_layout buildable.named ok ok'
  have good : l.Throughout SoundTyped := (Compiled.root buildable ok).soundTyped
  have good' : l'.Throughout SoundTyped := (Compiled.root buildable ok').soundTyped
  refine ⟨exists_translates versions, fun ρ right requests fits fits' => ?_⟩
  have alike : l.Alike ρ l' := versions.alike (good.mono fun _ good => good.sound)
    (good'.mono fun _ good => good.sound) right
  obtain ⟨rows, rfl, first⟩ := create_eq_ok.mp created
  obtain ⟨_, same, second⟩ := create_eq_ok.mp created'
  cases same
  have news : Matches ρ (Twins ρ False) (allocate l rows false) (allocate l' rows false) :=
    twins_allocate alike good good' False.elim rows false
      (.inr ⟨by rw [first]; rfl, by rw [second]; rfl⟩)
  rw [first, second] at news
  cases news with
  | ok twins =>
    obtain ⟨answers, afters⟩ := twins.session requests (.inr ⟨fits, fits'⟩)
    exact ⟨answers, afters.mono fun _ _ => Table.Twins.sameButLayout⟩

def alignedLayout : Layout :=
  (LayoutRules.layout { strategy := .aligned .bits8 } album).toOption.get (by rfl)

def alignedPageLayout : Layout := ((alignedLayout.struct? 1).bind (·.element)).get (by rfl)

def alignedAlbums : Storage := (create alignedLayout (some 2)).toOption.get (by rfl)

/-- The second album gets a year and a page with a picture, and both are read back.
The handles are those of layouts with these fingerprints. -/
def browsing (album page : Fingerprint) : List Request :=
  let year : FieldHandle := ⟨album, 2, .unsigned 11⟩
  let pages : StructHandle := ⟨album, 1, { list := true }⟩
  let picture : FieldHandle := ⟨page, 0, .object⟩
  [.tell (.select 1), .tell (.write year (.int 1999)), .tell .commit,
    .ask (.read .committed year), .tell (.createOrClearList pages 1),
    .tell (.inList pages (.select 0)),
    .tell (.inList pages (.write picture (.object (some ⟨"dog"⟩)))), .tell (.inList pages .commit),
    .ask (.inList pages (.read .committed picture))]

theorem answers_of_rules_albums : ∃ ρ, Translates ρ albumLayout alignedLayout ∧
    alignedAlbums.answers (browsing alignedLayout.fingerprint alignedPageLayout.fingerprint) =
      (albums.answers (browsing albumLayout.fingerprint pageLayout.fingerprint)).map
        (renameAnswer ρ) ∧
    (∀ a ∈ albums.answers (browsing albumLayout.fingerprint pageLayout.fingerprint), a.isOk) ∧
    albumLayout.rowStride ≠ alignedLayout.rowStride := by
  have packed : LayoutRules.layout { strategy := .packed } album = .ok albumLayout := by rfl
  have aligned : LayoutRules.layout { strategy := .aligned .bits8 } album = .ok alignedLayout := by
    rfl
  have created : create alignedLayout (some 2) = .ok alignedAlbums := by rfl
  obtain ⟨⟨ρ, right⟩, same⟩ := answers_of_rules album_buildable packed
    aligned create_albums created
  have root : ρ albumLayout.fingerprint = alignedLayout.fingerprint := (right _ _ .here _).mpr rfl
  have pages : Counterpart albumLayout alignedLayout pageLayout alignedPageLayout :=
    .element (show albumLayout.element? 1 = some pageLayout by rfl) (by rfl) .here
  have inner : ρ pageLayout.fingerprint = alignedPageLayout.fingerprint :=
    (right _ _ pages _).mpr rfl
  have renamed : (browsing albumLayout.fingerprint pageLayout.fingerprint).map (·.rename ρ) =
      browsing alignedLayout.fingerprint alignedPageLayout.fingerprint := by
    rw [← root, ← inner]
    rfl
  refine ⟨ρ, right, ?_, by decide +kernel, by decide +kernel⟩
  rw [← renamed]
  refine (same ρ right _ (by decide +kernel) ?_).1
  rw [renamed]
  decide +kernel

end Storage

end BitRecords
