import BitRecords.Storage.Snapshot

/-!
# Storages and snapshots as text

One line that tells sizes and counts, without the contents.
-/

namespace BitRecords

def ObjectTable.summary (t : ObjectTable) : String :=
  s!"ObjectTable \x7b slots: {t.slots.size}, live: {t.live} \x7d"

def ListenerRegistry.summary (r : ListenerRegistry) : String :=
  s!"ListenerRegistry \x7b listeners: {r.listeners.length} \x7d"

/-- A cursor as an optional row number. -/
def cursorText : Option UInt64 → String
  | none => "None"
  | some row => s!"Some({row.toNat})"

def truthText (b : Bool) : String := if b then "true" else "false"

def Storage.summary (label : Fingerprint → String) (s : Storage) : String :=
  let t := s.table
  s!"Storage \x7b schema: {label t.layout.fingerprint}, capacity: {t.capacity.toNat}, " ++
    s!"growable: {truthText t.growable}, cursor: {cursorText t.cursor}, " ++
    s!"pending: {t.pending.size}, lists: {s.lists.length}, " ++
    s!"objects: {t.objects.summary}, listeners: {t.listeners.summary} \x7d"

def Snapshot.summary (label : Fingerprint → String) (s : Snapshot) : String :=
  s!"StorageSnapshot \x7b fingerprint: {label s.fingerprint}, " ++
    s!"capacity: {s.capacity.toNat}, row_stride_bits: {s.rowStride.toNat}, " ++
    s!"segments: {s.segments.length}, objects: {s.liveObjects}, lists: {s.lists.length} \x7d"

end BitRecords
