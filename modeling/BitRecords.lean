import BitRecords.Layout.Description
import BitRecords.Layout.Placement
import BitRecords.Proofs.Layout.Cursor
import BitRecords.Proofs.Layout.Resolution
import BitRecords.Proofs.Storage.Clearing
import BitRecords.Proofs.Storage.Creation
import BitRecords.Proofs.Storage.Delta
import BitRecords.Proofs.Storage.Interchange
import BitRecords.Proofs.Storage.Lengths
import BitRecords.Proofs.Storage.Listening
import BitRecords.Proofs.Storage.Presence
import BitRecords.Proofs.Storage.Refinement
import BitRecords.Proofs.Storage.Representation
import BitRecords.Proofs.Storage.Restored
import BitRecords.Proofs.Storage.Scan
import BitRecords.Proofs.Storage.Staging
import BitRecords.Proofs.Storage.Strategies
import BitRecords.Storage.Session
import BitRecords.Storage.SnapshotHeader
import BitRecords.Storage.Summary
import BitRecords.Table.Commit
import BitRecords.Table.Listen
import BitRecords.Table.Stage
import BitRecords.Proofs.Storage.Remembered
import BitRecords.Proofs.Layout.Flattening
import BitRecords.Proofs.Layout.Verdict
import BitRecords.Proofs.Layout.Acceptance
import BitRecords.Proofs.Layout.Density
import BitRecords.Proofs.Schema
import BitRecords.Proofs.Table.Alignment
import BitRecords.Proofs.Layout.Enclosure
import BitRecords.Proofs.Bits.Changes
import BitRecords.Proofs.Storage.Header
