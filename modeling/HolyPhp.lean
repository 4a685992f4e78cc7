import HolyPhp.Lib.Flow
import HolyPhp.Sema.Ast
import HolyPhp.Lib.Runs
import HolyPhp.Lib.Ring
import HolyPhp.Runtime.Value
import HolyPhp.Thread.Chan
import HolyPhp.Thread.ChanInv
import HolyPhp.Thread.ChanDelivery
import HolyPhp.Thread.ChanWaiter
import HolyPhp.Thread.Barrier
import HolyPhp.Thread.Mutex
import HolyPhp.Lib.Probe
import HolyPhp.Runtime.Arr
import HolyPhp.Runtime.Str
import HolyPhp.Runtime.ArrKeys
import HolyPhp.Runtime.ArrIndex
import HolyPhp.Runtime.ArrScan
import HolyPhp.Lib.Power
import HolyPhp.Regex.Syntax
import HolyPhp.Regex.Parse
import HolyPhp.Regex.Match
import HolyPhp.Regex.Sound
import HolyPhp.Thread.Spawn
import HolyPhp.Thread.Pmap
import HolyPhp.Parser.Expr
import HolyPhp.Parser.Prec
import HolyPhp.Runtime.ArrFill
import HolyPhp.Lib.Assoc
import HolyPhp.Lib.Json
import HolyPhp.Json.Decode
import HolyPhp.Json.DecodeSpec
import HolyPhp.Json.DecodeText
import HolyPhp.Json.Encode
import HolyPhp.Json.RoundTrip
import HolyPhp.Json.WellFormed
import HolyPhp.Sema.Check
import HolyPhp.Sema.Log
import HolyPhp.Sema.Move
import HolyPhp.Sema.Borrow
import HolyPhp.Codegen.Stmts
import HolyPhp.Codegen.Emit
import HolyPhp.Codegen.Jumps
import HolyPhp.Codegen.Legal
import HolyPhp.Codegen.TryFlow
import HolyPhp.Codegen.Catch
import HolyPhp.Lib.Forest
import HolyPhp.Sema.Classes
import HolyPhp.Codegen.Members
import HolyPhp.Codegen.Virt
import HolyPhp.Lib.JsonTokens
import HolyPhp.Lib.Substr
import HolyPhp.Package.Registry
import HolyPhp.Package.RegistryJson
import HolyPhp.Package.RegistryRuns
import HolyPhp.Lib.Posix
import HolyPhp.Package.Archive
import HolyPhp.Package.ArchivePaths
import HolyPhp.Package.ArchiveRun
import HolyPhp.Package.ArchiveTree
import HolyPhp.Lib.Codec
import HolyPhp.Runtime.StrFuns
import HolyPhp.Websocket.Frame
import HolyPhp.Websocket.Handshake
import HolyPhp.Websocket.Server
import HolyPhp.Lib.Traces
import HolyPhp.Websocket.Lifecycle
import HolyPhp.Websocket.LifecycleRuns
import HolyPhp.Websocket.Delivery
import HolyPhp.Websocket.DeliveryRuns
import HolyPhp.Runtime.ArrList
import HolyPhp.Runtime.ArrUnset
import HolyPhp.Runtime.Cmp
import HolyPhp.Json.Cursor
import HolyPhp.Runtime.Try
import HolyPhp.Json.Halts
import HolyPhp.Runtime.Clone
import HolyPhp.Lib.Sorting
import HolyPhp.Runtime.Sort
import HolyPhp.Thread.Pool
import HolyPhp.Package.Http
import HolyPhp.Package.Server
import HolyPhp.Package.Install
import HolyPhp.Lib.Postorder
import HolyPhp.Loader.Search
import HolyPhp.Loader.Load
import HolyPhp.Lib.Split
import HolyPhp.Runtime.Base64
import HolyPhp.Runtime.Explode
import HolyPhp.Json.Pretty
import HolyPhp.Regex.Preg
import HolyPhp.Regex.Delim
import HolyPhp.Regex.Ends
import HolyPhp.Regex.Scan
import HolyPhp.Regex.Pieces
import HolyPhp.Regex.Replace
import HolyPhp.Regex.Groups
import HolyPhp.Lib.Insertion
import HolyPhp.Runtime.Usort
import HolyPhp.Runtime.SortIndex
import HolyPhp.Runtime.Codes
import HolyPhp.Runtime.KeyReads
import HolyPhp.Runtime.KeyVisits
import HolyPhp.Lib.Escape
import HolyPhp.Runtime.Entities
import HolyPhp.Lib.Digest
import HolyPhp.Mysql.Escape
import HolyPhp.Runtime.Digest
import HolyPhp.Runtime.Slices
import HolyPhp.Runtime.Wordwrap
import HolyPhp.Runtime.Password
import HolyPhp.Lib.Framing
import HolyPhp.Mysql.Packet
import HolyPhp.Mysql.Query
import HolyPhp.Mysql.Bounds
import HolyPhp.Mysql.Rows
import HolyPhp.Lib.EditDistance
import HolyPhp.Runtime.Glob
import HolyPhp.Runtime.Levenshtein
import HolyPhp.Runtime.Boxed
import HolyPhp.Runtime.IntDiv
import HolyPhp.Runtime.Radix
import HolyPhp.Runtime.Range
import HolyPhp.Package.ArchiveCursor
import HolyPhp.Package.ManifestJson
import HolyPhp.Runtime.ParseUrl
import HolyPhp.Runtime.Sprintf
import HolyPhp.Lib.Owners
import HolyPhp.Runtime.Owned
import HolyPhp.Codegen.Copies
import HolyPhp.Lexer.Lex
import HolyPhp.Lexer.Literal
import HolyPhp.Lexer.Safe
import HolyPhp.Lexer.Template
import HolyPhp.Lib.CLiteral
import HolyPhp.Codegen.CString
import HolyPhp.Codegen.IntLit
import HolyPhp.Parser.Newlines
import HolyPhp.Parser.Types
import HolyPhp.Parser.TypeText
import HolyPhp.Parser.TypeTrip
import HolyPhp.Codegen.ArrayLit
import HolyPhp.Codegen.CExpr
import HolyPhp.Codegen.Conditional
import HolyPhp.Codegen.Switch
import HolyPhp.Codegen.Ctor
import HolyPhp.Codegen.OpenSlice
import HolyPhp.Lib.Balanced
import HolyPhp.Codegen.Concat
import HolyPhp.Codegen.Symbols
import HolyPhp.Codegen.Closures
import HolyPhp.Websocket.Overlong
import HolyPhp.Lib.Climb
import HolyPhp.Sema.Bases
import HolyPhp.Codegen.Names
import HolyPhp.Codegen.Binop
import HolyPhp.Lib.Progress
import HolyPhp.Parser.Tree
import HolyPhp.Parser.Cursor
import HolyPhp.Parser.Exprs
import HolyPhp.Parser.Stmts
import HolyPhp.Parser.Ends
import HolyPhp.Codegen.Fold
import HolyPhp.Runtime.ConcatN
import HolyPhp.Runtime.Pow
import HolyPhp.Async.LineReader
import HolyPhp.Async.Timers
import HolyPhp.Async.TimerRuns
import HolyPhp.Package.Assemble
import HolyPhp.Package.StorePaths
import HolyPhp.Package.HpxFiles
import HolyPhp.Package.TwoReaders
import HolyPhp.Package.Unpack
import HolyPhp.Package.InstallFile
import HolyPhp.Package.EntryFile
import HolyPhp.Lib.Sections
import HolyPhp.Thread.Atomic
import HolyPhp.Thread.Stream
import HolyPhp.Thread.StreamWait
