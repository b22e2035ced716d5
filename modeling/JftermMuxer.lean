import JftermMuxer.Foundation.Transducer
import JftermMuxer.Foundation.Decimal
import JftermMuxer.Foundation.Descriptors
import JftermMuxer.Foundation.Framing
import JftermMuxer.Foundation.Assignment
import JftermMuxer.Foundation.Batches
import JftermMuxer.Vte.Params
import JftermMuxer.Vte.Utf8
import JftermMuxer.Vte.Table
import JftermMuxer.Vte.Sequences
import JftermMuxer.Vte.Items
import JftermMuxer.Vte.Terminal
import JftermMuxer.Vte.Style
import JftermMuxer.Vte.Labels
import JftermMuxer.Core.Ring
import JftermMuxer.Core.OpLog
import JftermMuxer.Core.Sticky
import JftermMuxer.Core.Cache
import JftermMuxer.Core.Scanner
import JftermMuxer.Core.Trace
import JftermMuxer.Core.Progress
import JftermMuxer.Core.Prologue
import JftermMuxer.Core.Plain
import JftermMuxer.Core.Sanitization
import JftermMuxer.Core.Replay
import JftermMuxer.Core.Seamless
import JftermMuxer.Core.Reassert
import JftermMuxer.Core.SelfContained
import JftermMuxer.Core.Watermark
import JftermMuxer.Core.Sizes
import JftermMuxer.Core.Text
import JftermMuxer.Core.Standalone
import JftermMuxer.Core.Strings
import JftermMuxer.Core.Oracle
import JftermMuxer.Core.Labels
import JftermMuxer.Core.Rendition
import JftermMuxer.Core.Reset
import JftermMuxer.Core.Preservation
import JftermMuxer.Core.Style
import JftermMuxer.Core.Reattach
import JftermMuxer.Core.Journal
import JftermMuxer.Core.Nested
import JftermMuxer.Daemon.Protocol
import JftermMuxer.Daemon.Decoder
import JftermMuxer.Daemon.Daemonize
import JftermMuxer.Daemon.Actor
import JftermMuxer.Daemon.Offers
import JftermMuxer.Daemon.Stream
import JftermMuxer.Daemon.Input
import JftermMuxer.Daemon.Attach
import JftermMuxer.Daemon.Registry
import JftermMuxer.Daemon.Reader
import JftermMuxer.Daemon.Control
import JftermMuxer.Daemon.Close
import JftermMuxer.Daemon.Exit
import JftermMuxer.Daemon.Binding
import JftermMuxer.Daemon.Handshake
import JftermMuxer.Daemon.Viewer
import JftermMuxer.Daemon.Notices
import JftermMuxer.Daemon.Detach
import JftermMuxer.Daemon.Escalation
import JftermMuxer.Daemon.Idle
import JftermMuxer.Daemon.Reap
import JftermMuxer.Daemon.Lifecycle
import JftermMuxer.Daemon.Retention
import JftermMuxer.Daemon.Wire
import JftermMuxer.Daemon.Progress
import JftermMuxer.Daemon.Environment
import JftermMuxer.Daemon.Spawn
import JftermMuxer.Daemon.Delivery
import JftermMuxer.Daemon.Continuity
import JftermMuxer.Daemon.Conversation
import JftermMuxer.Daemon.Launch
import JftermMuxer.Daemon.Fork
import JftermMuxer.Daemon.Typing
import JftermMuxer.Daemon.Coupling
import JftermMuxer.Daemon.Teardown
