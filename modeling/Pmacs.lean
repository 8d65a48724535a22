import Pmacs.Buffer.Owners
import Pmacs.Buffer.Clean
import Pmacs.Key.KeymapSpec
import Pmacs.Key.KeymapStack
import Pmacs.Window.Partition
import Pmacs.Lsp.DiagnosticsSpec
import Pmacs.Packages.ResolverAgree
import Pmacs.Lsp.ForgottenRun
import Pmacs.Lsp.LifecycleRun
import Pmacs.Async.JobsEnd
import Pmacs.Naming.Run
import Pmacs.Packages.ResolverEnds
import Pmacs.Parse.IsolationRun
import Pmacs.Replica.Attach
import Pmacs.Terminal.Display
import Pmacs.Sessions.Presence
import Pmacs.Display.PanelCommit
import Pmacs.Display.PositionsRun
import Pmacs.Panel.Gesture
import Pmacs.Semantic.Carry
import Pmacs.Sessions.Retention
import Pmacs.Undo.Boundaries
import Pmacs.Undo.Refines
import Pmacs.Buffer.TypedCommand
import Pmacs.Buffer.MidEdit
import Pmacs.Lsp.RangeAnswers
import Pmacs.Lsp.TokenDelta
import Pmacs.Mcp.Restarts
import Pmacs.Rope.Read
import Pmacs.Terminal.AnsiStyle
import Pmacs.Terminal.AnsiText
import Pmacs.Lsp.Frames
import Pmacs.Lsp.HandedPositions
import Pmacs.Terminal.ResizeLines
import Pmacs.Window.LayoutCalls
import Pmacs.Window.LineTable
import Pmacs.Window.Folds
import Pmacs.Window.VisibleLines
import Pmacs.Terminal.ViewAnchors
import Pmacs.Lsp.TextEdits
import Pmacs.Crdt.Pieces
import Pmacs.Naming.Derived
import Pmacs.Parse.Backoff
import Pmacs.Semantic.Summary
import Pmacs.Completion.Dabbrev
import Pmacs.Sessions.Transport
