import OxiSql.Ondisk.CellRoundTrip
import OxiSql.Ondisk.RecordRoundTrip
import OxiSql.Wal.Backfill
import OxiSql.Wal.DirtyReads
import OxiSql.Wal.Snapshot
import OxiSql.Vdbe.LockOwnership
import OxiSql.Vdbe.StatementUndo
import OxiSql.Storage.HeaderRestore
import OxiSql.Btree.Enumeration
import OxiSql.Btree.TableSeek
import OxiSql.Btree.IndexSeek
import OxiSql.Types.NumericExact
import OxiSql.Types.RecordOrder
import OxiSql.Optimizer.ConstantConditions
import OxiSql.Optimizer.EquivalentValues
import OxiSql.Optimizer.OrderTarget
import OxiSql.Optimizer.SortElimination
import OxiSql.Translate.RowImages
import OxiSql.Mvcc.Rollback
import OxiSql.Mvcc.SnapshotIsolation
import OxiSql.Storage.Freelist
import OxiSql.Wal.CrashRecovery
import OxiSql.Storage.PageCacheInvariant
import OxiSql.Integrity.Survival
import OxiSql.Params.Rewriting
import OxiSql.Params.Parameterization
import OxiSql.Plan.PlanCache
import OxiSql.Replication.Stream
import OxiSql.Replication.ReaderTask
import OxiSql.Replication.Commands
import OxiSql.Postgres.Copy
import OxiSql.Postgres.Numeric
import OxiSql.Postgres.Interval
import OxiSql.Migrate.Failures
import OxiSql.Migrate.Drivers
import OxiSql.Cache.QueryCache
import OxiSql.Cache.JsonCache
import OxiSql.Vdbe.NewRowid
import OxiSql.Mvcc.ScanCursors
import OxiSql.Embedded.Csv
import OxiSql.Vdbe.Positions
import OxiSql.Plan.PlannedTables
import OxiSql.Plan.ProjectionPruning
