import Rustqlite.Btree.Balance
import Rustqlite.Btree.CellSpace
import Rustqlite.Btree.DeleteScan
import Rustqlite.Btree.DestroyEnds
import Rustqlite.Btree.InPlace
import Rustqlite.Btree.IndexBalance
import Rustqlite.Btree.IndexDelete
import Rustqlite.Btree.IndexPromotion
import Rustqlite.Btree.InsertRows
import Rustqlite.Btree.IntegritySound
import Rustqlite.Btree.InteriorSplit
import Rustqlite.Btree.MiddleSplit
import Rustqlite.Btree.PageBuild
import Rustqlite.Btree.ParentLookup
import Rustqlite.Btree.Redistribute
import Rustqlite.Btree.Termination
import Rustqlite.Codegen.BetweenValue
import Rustqlite.Codegen.CompoundSelect
import Rustqlite.Codegen.Covering
import Rustqlite.Codegen.JoinResults
import Rustqlite.Codegen.LikeDropped
import Rustqlite.Codegen.OperandScope
import Rustqlite.Codegen.UpsertUpdate
import Rustqlite.Codegen.WindowLimit
import Rustqlite.Codegen.WindowRows
import Rustqlite.Format.Encoding
import Rustqlite.Format.RecordSafety
import Rustqlite.Foundation.Calendar
import Rustqlite.Foundation.Members
import Rustqlite.Foundation.Nearest
import Rustqlite.Foundation.Run
import Rustqlite.Foundation.Wildcards
import Rustqlite.Func.DateArithmetic
import Rustqlite.Func.JsonEdit
import Rustqlite.Func.JsonErrorPosition
import Rustqlite.Func.JsonPatch
import Rustqlite.Func.LikeLanguage
import Rustqlite.Func.Ntile
import Rustqlite.Func.Quote
import Rustqlite.Pager.LockByte
import Rustqlite.Pager.Recovery
import Rustqlite.Pager.SavepointNames
import Rustqlite.Pager.WalCrash
import Rustqlite.Pager.WalReader
import Rustqlite.Util.FpConvert
import Rustqlite.Util.FpRoundTrip
import Rustqlite.Vdbe.Arithmetic
import Rustqlite.Vdbe.CommitFailure
import Rustqlite.Vdbe.Ephemeral
import Rustqlite.Vdbe.ForeignKey
import Rustqlite.Vdbe.StatementSavepoint
import Rustqlite.Vfs.LockRequests
import Rustqlite.Vfs.ShmCounts
