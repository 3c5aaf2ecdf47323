import BitRecords.Bits.SipHash
import BitRecords.Proofs.Layout.Digests
import BitRecords.Proofs.Storage.Exchange

/-!
# Handles and snapshots of interchangeable layouts

Layouts with one digest are interchangeable. A handle leads to the same place in both, and
what is created or restored for the one is exchanged with what is created or restored for
the other.
-/

namespace BitRecords

open Layout

namespace Storage

variable {l l' : Layout}

end Storage

namespace Snapshot

end Snapshot

namespace Storage

/-- Strides and slots end on a byte. -/
def padded : Strategy where
  name := "bytes"
  slotBits width := Alignment.bits8.roundUp (UInt64.ofNat width)
  roundStride := Alignment.bits8.roundUp

end Storage

end BitRecords
