import GraphiteSql.Format.RecordCodec
import GraphiteSql.Pager.Shrink
import GraphiteSql.Pager.HeaderUpdates
import GraphiteSql.Pager.WalReader
import GraphiteSql.Pager.WalOpens
import GraphiteSql.Pager.WalSerial
import GraphiteSql.Session.Composition
import GraphiteSql.Dml.Resurrection
import GraphiteSql.Value.BinaryCollation
import GraphiteSql.Util.Ieee754
import GraphiteSql.Sql.ParserDepth
import GraphiteSql.Exec.IntegrityLinks
import GraphiteSql.Fts5.Near
import GraphiteSql.Fts5.Structure
import GraphiteSql.Fts5.SegmentRoundTrip
import GraphiteSql.Btree.Distribution
import GraphiteSql.Pager.FreelistWalk
import GraphiteSql.Btree.PayloadSafety
import GraphiteSql.Btree.SplitExact
import GraphiteSql.Btree.PlacedCells
import GraphiteSql.Exec.Autoincrement
import GraphiteSql.Exec.WeekDate
import GraphiteSql.Exec.MergePatch
import GraphiteSql.Exec.RecursiveCte
import GraphiteSql.Exec.Comparison
import GraphiteSql.Pager.OpenPoints
import GraphiteSql.Pager.RecoverRestart
