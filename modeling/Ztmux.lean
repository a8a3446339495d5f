import Ztmux.Machine
import Ztmux.Library.Lists
import Ztmux.Library.RoundRobin
import Ztmux.Layout.Cell
import Ztmux.Layout.Resize
import Ztmux.Layout.Adjust
import Ztmux.Layout.Flow
import Ztmux.Layout.Supply
import Ztmux.Layout.Spared
import Ztmux.Layout.Termination
import Ztmux.Layout.Edit
import Ztmux.Layout.Tiled
import Ztmux.Layout.Offsets
import Ztmux.Layout.TiledRun
import Ztmux.Layout.Custom
import Ztmux.Layout.Spread
import Ztmux.Layout.Sets
import Ztmux.Layout.SetsFit
import Ztmux.Layout.TiledGrid
import Ztmux.Layout.Exact
import Ztmux.Layout.Border
import Ztmux.Layout.Shape
import Ztmux.WaitFor.Channel
import Ztmux.WaitFor.Wakeup
import Ztmux.WaitFor.Lock
import Ztmux.Utf8.Table
import Ztmux.Utf8.Handles
import Ztmux.Utf8.Words
import Ztmux.Utf8.Decode
import Ztmux.Utf8.Sanitize
import Ztmux.Paste.Buffer
import Ztmux.Paste.Linked
import Ztmux.Paste.Store
import Ztmux.Paste.Run
import Ztmux.Cmdq.Queue
import Ztmux.Cmdq.Insert
import Ztmux.Cmdq.Schedule
import Ztmux.Cmdq.Run
import Ztmux.Commands.Lexer
import Ztmux.Commands.Stream
import Ztmux.Commands.Unicode
import Ztmux.Commands.Quoted
import Ztmux.Commands.Template
import Ztmux.Commands.Splice
import Ztmux.Sessions.Winlink
import Ztmux.Sessions.Group
import Ztmux.Sessions.Current
import Ztmux.Sessions.Links
import Ztmux.Sessions.Replace
import Ztmux.Sessions.Renumber
import Ztmux.Sessions.Run
import Ztmux.Sessions.Synchronize
import Ztmux.Sessions.GroupRun
import Ztmux.Library.RedBlack
import Ztmux.Compat.Tree
import Ztmux.Compat.Represents
import Ztmux.Compat.Rotate
import Ztmux.Compat.InsertColor
import Ztmux.Compat.RemoveColor
import Ztmux.Compat.Remove
import Ztmux.Compat.Insert
import Ztmux.Compat.Walk
import Ztmux.Compat.Run
import Ztmux.Compat.Foreach
import Ztmux.Sessions.ByNumber
import Ztmux.Sessions.Renumbered
import Ztmux.Sessions.Shuffle
import Ztmux.Library.Memory
import Ztmux.Library.Endings
import Ztmux.Library.Decimal
import Ztmux.Library.References
import Ztmux.Keys.Table
import Ztmux.Keys.Sound
import Ztmux.Keys.Client
import Ztmux.Keys.Reference
import Ztmux.Keys.Bindings
import Ztmux.Keys.Run
import Ztmux.Keys.Held
import Ztmux.Keys.Extended
import Ztmux.FormatDraw.Arrange
import Ztmux.FormatDraw.Fair
import Ztmux.FormatDraw.Sections
import Ztmux.Hyperlinks.Escape
import Ztmux.Hyperlinks.Table
import Ztmux.Hyperlinks.Linked
import Ztmux.Hyperlinks.Put
import Ztmux.Hyperlinks.Calls
import Ztmux.Hyperlinks.Run
import Ztmux.Panes.Window
import Ztmux.Panes.Kept
import Ztmux.Panes.Zoom
import Ztmux.Panes.Run
import Ztmux.ScreenWrite.Cell
import Ztmux.ScreenWrite.Writer
import Ztmux.ScreenWrite.Operations
import Ztmux.ScreenWrite.Flush
import Ztmux.EventLoop.Buffer
import Ztmux.EventLoop.Lines
import Ztmux.EventLoop.Queue
import Ztmux.EventLoop.Bufferevent
import Ztmux.EventLoop.Delivered
import Ztmux.EventLoop.Base
import Ztmux.EventLoop.Registered
import Ztmux.EventLoop.Kept
import Ztmux.EventLoop.Delivery
import Ztmux.Mouse.Report
import Ztmux.Mouse.Numbers
import Ztmux.Mouse.RoundTrip
import Ztmux.Grids.Cell
import Ztmux.Grids.Store
import Ztmux.Grids.Wrap
import Ztmux.Grids.Lines
import Ztmux.Grids.Columns
import Ztmux.Grids.Inserted
import Ztmux.Grids.Sound
import Ztmux.Grids.Reflow
import Ztmux.Grids.Reflowed
import Ztmux.Grids.Written
import Ztmux.Input.Tables
import Ztmux.Input.Parse
import Ztmux.Input.SinceGround
import Ztmux.Commands.Argv
import Ztmux.Regsub
import Ztmux.ScreenWrite.Puts
import Ztmux.ScreenWrite.Obscured
import Ztmux.ScreenWrite.Visible
import Ztmux.Utf8.Vis
import Ztmux.Utf8.Unvis
import Ztmux.Options.Style
import Ztmux.Options.Cached
import Ztmux.Layout.Installed
import Ztmux.Compat.Base64Exact
import Ztmux.Keys.Clipboard
import Ztmux.Commands.Pushback
import Ztmux.Keys.TreeMap
import Ztmux.Grids.Reader
import Ztmux.Grids.Jump
import Ztmux.Library.Runs
import Ztmux.Grids.Words
import Ztmux.Grids.ReadingOrder
import Ztmux.Grids.WordMotion
