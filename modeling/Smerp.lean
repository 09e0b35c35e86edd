import Smerp.Protocol.DataLines
import Smerp.Protocol.Commands
import Smerp.Pecho.Progress
import Smerp.Pecho.Simulation
import Smerp.Pecho.Boundaries
import Smerp.Pecho.OneByte
import Smerp.Pecho.FirstEcho
import Smerp.Pecho.Sessions
import Smerp.SmerpHandler.Replies
import Smerp.Authentication.PamHandles
import Smerp.Authentication.PamIsolation
import Smerp.SmerpHandler.Connection
import Smerp.Network.Limits
import Smerp.Network.Accepting
import Smerp.Network.Shutdown
import Smerp.Mtproc.Sessions
import Smerp.Pecho.Rejection
import Smerp.SmerpHandler.Bounds
import Smerp.Protocol.Received
import Smerp.Protocol.ArgumentVector
import Smerp.Pool.ObjectPool
import Smerp.Client.SMERPClient
import Smerp.Protocol.ArgumentLimits
import Smerp.Protocol.Interrupted
import Smerp.Mtproc.ReplyLines
import Smerp.Mtproc.Isolatin1
import Smerp.Authentication.PamReplies
import Smerp.Network.Timeouts
import Smerp.Pecho.Unstuffing
import Smerp.Protocol.OutputBlocks
import Smerp.Protocol.Compaction
import Smerp.Pool.TimedGet
import Smerp.Client.HistoryLineEdit
import Smerp.Xml.XPathExpression
import Smerp.Utils.ResolvePath
import Smerp.Lua.Echo
import Smerp.Textwolf.CharSets
import Smerp.Textwolf.TextScanner
import Smerp.Textwolf.Statemachine
import Smerp.Textwolf.XMLScanner
import Smerp.Textwolf.Orderly
import Smerp.Textwolf.ScannerRuns
import Smerp.Textwolf.Resumption
import Smerp.Textwolf.Requests
import Smerp.Textwolf.Texts
import Smerp.Textwolf.Tokens
import Smerp.Textwolf.Passes
import Smerp.Textwolf.Markup
import Smerp.Textwolf.Documents
import Smerp.Textwolf.PathAutomaton
import Smerp.Textwolf.PathSelect
import Smerp.Textwolf.SelectRuns
import Smerp.Textwolf.Scopes
import Smerp.Textwolf.ScopeRefinement
import Smerp.Textwolf.SelectDocuments
import Smerp.Textwolf.TagPaths
