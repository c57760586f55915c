import RedDb.Sql.PgBlanks
import RedDb.Driver.PgPool
import RedDb.Diff.PgOrder
import RedDb.Driver.Cancel
import RedDb.Service.Paging
import RedDb.Driver.MysqlScope
import RedDb.Ai.ReviewMode
import RedDb.Ai.CursorOwners
import RedDb.Panes.Layout
import RedDb.Docs.Import
import RedDb.Grid.SeekPages
import RedDb.Grid.RunWindow
import RedDb.Grid.BatchReplies
import RedDb.Kv.Faithful
import RedDb.Docs.ExtJsonReads
import RedDb.Browse.DocOrder
import RedDb.Grid.Checkpoints
import RedDb.Driver.DsnRoundTrip
import RedDb.Ai.WritePreview
import RedDb.Schema.Script
import RedDb.Transfer.DryRun
import RedDb.Kv.ClusterScan
import RedDb.Config.History
import RedDb.Config.Connections
import RedDb.Sql.RangeCover
import RedDb.Sql.WholeTable
import RedDb.Sql.ExplainText
import RedDb.Sql.TargetNames
import RedDb.Ai.ToolLoop
import RedDb.Config.SavedQueries
import RedDb.App.ConfirmedWrites
import RedDb.Transfer.FkOrder
import RedDb.Docs.SaveBack
import RedDb.Driver.EditText
import RedDb.Driver.NumericText
import RedDb.Service.Wrapping
import RedDb.Driver.Predicates
import RedDb.Kv.DumpFile
import RedDb.Kv.ExportHeader
import RedDb.Ai.AcpPermission
import RedDb.Transfer.XlsxText
import RedDb.Kv.ValidateJson
import RedDb.Kv.JsonPathText
import RedDb.Transfer.JsonArrayText
import RedDb.Docs.FastFilter
import RedDb.Driver.IndexColumns
import RedDb.Kv.StringCap
import RedDb.Kv.MsgPack
import RedDb.Approval.KvTtl
import RedDb.Transfer.ForeignKeys
import RedDb.Transfer.KeptIndexes
import RedDb.Ai.Windows
import RedDb.Driver.ChRows
import RedDb.Ai.TrimHistory
import RedDb.Grid.CellSuggest
import RedDb.Transfer.CreatedShape
import RedDb.Service.ScriptRun
import RedDb.Transfer.Workbook
