import IndexedTables.Store.Overlay
import IndexedTables.Store.Disk
import IndexedTables.Store.Snapshot
import IndexedTables.Row.Packed
import IndexedTables.Table.Numbered
import IndexedTables.Table.Natural
import IndexedTables.Query.Router
import IndexedTables.Main
import IndexedTables.Keeper
import IndexedTables.Session
import IndexedTables.SortedMap.Lemmas
import IndexedTables.Bytes.Lemmas
import IndexedTables.Proofs.ByteOrder
import IndexedTables.Proofs.Parts
import IndexedTables.Proofs.Operations
import IndexedTables.Proofs.IndexEntries
import IndexedTables.Proofs.Consistency
import IndexedTables.Proofs.TableWrites
import IndexedTables.Proofs.Overlays
import IndexedTables.Proofs.Histories
import IndexedTables.Proofs.IndexScans
import IndexedTables.Proofs.EntryCodes
import IndexedTables.Proofs.Building
import IndexedTables.Proofs.Constructions
import IndexedTables.Proofs.NumericKeys
import IndexedTables.Proofs.Lookups
import IndexedTables.Proofs.NumberScans
import IndexedTables.Proofs.FailStop
import IndexedTables.Proofs.Ownership
import IndexedTables.Proofs.Confinement
import IndexedTables.Proofs.Isolation
import IndexedTables.Proofs.Composition
import IndexedTables.Proofs.RowChanges
import IndexedTables.Proofs.NaturalKeys
import IndexedTables.Proofs.Counters
import IndexedTables.Proofs.FreshNumbers
import IndexedTables.Proofs.Transfers
import IndexedTables.Proofs.HexText
import IndexedTables.Proofs.JsonText
import IndexedTables.Proofs.Pages
import IndexedTables.Proofs.Requests
import IndexedTables.Proofs.Queries
import IndexedTables.Proofs.Snapshots
import IndexedTables.Proofs.Inspections
import IndexedTables.Proofs.Corruption
import IndexedTables.Proofs.Paging
import IndexedTables.Proofs.LayeredScans
import IndexedTables.Proofs.Views
import IndexedTables.Proofs.SaveWrites
import IndexedTables.Proofs.PackedRows
import IndexedTables.Proofs.JsonDumps
import IndexedTables.Proofs.Acceptance
import IndexedTables.Proofs.Commits
