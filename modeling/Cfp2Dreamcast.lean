import Cfp2Dreamcast.Program.Basic
import Cfp2Dreamcast.Program.Rules
import Cfp2Dreamcast.Program.Monitor
import Cfp2Dreamcast.Program.Preempt
import Cfp2Dreamcast.Program.Execute
import Cfp2Dreamcast.Program.Halts
import Cfp2Dreamcast.Program.Serial
import Cfp2Dreamcast.Program.Draws
import Cfp2Dreamcast.Program.Progress
import Cfp2Dreamcast.Memory.Bits
import Cfp2Dreamcast.Memory.Bytes
import Cfp2Dreamcast.Memory.Cache
import Cfp2Dreamcast.Memory.Flush
import Cfp2Dreamcast.Memory.Search
import Cfp2Dreamcast.Memory.Splice
import Cfp2Dreamcast.Memory.Interleave
import Cfp2Dreamcast.Memory.File
import Cfp2Dreamcast.Memory.Layout
import Cfp2Dreamcast.Memory.Copies
import Cfp2Dreamcast.Text.Pattern
import Cfp2Dreamcast.Text.Csv
import Cfp2Dreamcast.Lists.Members
import Cfp2Dreamcast.Coding.BitPoly
import Cfp2Dreamcast.Coding.Crc
import Cfp2Dreamcast.Machine.AddressMap
import Cfp2Dreamcast.Machine.Commands
import Cfp2Dreamcast.Machine.Drive
import Cfp2Dreamcast.Machine.Step
import Cfp2Dreamcast.Machine.Frame
import Cfp2Dreamcast.Machine.Durable
import Cfp2Dreamcast.Machine.Flat
import Cfp2Dreamcast.Machine.Cached
import Cfp2Dreamcast.Machine.Devices
import Cfp2Dreamcast.Machine.Lag
import Cfp2Dreamcast.Cart.Gd
import Cfp2Dreamcast.Cart.Service
import Cfp2Dreamcast.Cart.Split
import Cfp2Dreamcast.Cart.Guard
import Cfp2Dreamcast.Cart.GdRead
import Cfp2Dreamcast.Cart.Read
import Cfp2Dreamcast.Cart.Deliver
import Cfp2Dreamcast.Cart.ServiceGuard
import Cfp2Dreamcast.Cart.EndToEnd
import Cfp2Dreamcast.Cart.Footprint
import Cfp2Dreamcast.Cart.Progress
import Cfp2Dreamcast.Cart.History
import Cfp2Dreamcast.Cart.Edges
import Cfp2Dreamcast.Cart.Coherence
import Cfp2Dreamcast.Cart.Eviction
import Cfp2Dreamcast.Cart.Picture
import Cfp2Dreamcast.Cart.Loadbar
import Cfp2Dreamcast.Cart.Retry
import Cfp2Dreamcast.Maple.Bus
import Cfp2Dreamcast.Maple.Jvs
import Cfp2Dreamcast.Maple.Reply
import Cfp2Dreamcast.Maple.Walk
import Cfp2Dreamcast.Maple.Guard
import Cfp2Dreamcast.Maple.Polls
import Cfp2Dreamcast.Maple.Complete
import Cfp2Dreamcast.Maple.Answer
import Cfp2Dreamcast.Maple.Cable
import Cfp2Dreamcast.Maple.Sends
import Cfp2Dreamcast.Maple.Home
import Cfp2Dreamcast.Maple.Landing
import Cfp2Dreamcast.Maple.Responder
import Cfp2Dreamcast.Maple.Transport
import Cfp2Dreamcast.Maple.Framing
import Cfp2Dreamcast.Gdc.Wrapper
import Cfp2Dreamcast.Gdc.Transparent
import Cfp2Dreamcast.System.VmuSafety
import Cfp2Dreamcast.System.Delivery
import Cfp2Dreamcast.System.DeathScreen
import Cfp2Dreamcast.Sh4.Cpu
import Cfp2Dreamcast.Sh4.Save
import Cfp2Dreamcast.Sh4.Fetch
import Cfp2Dreamcast.Patch.Table
import Cfp2Dreamcast.Patch.Thunk
import Cfp2Dreamcast.Loader.Handoff
import Cfp2Dreamcast.Loader.Copy
import Cfp2Dreamcast.Loader.Place
import Cfp2Dreamcast.Loader.Spare
import Cfp2Dreamcast.Loader.Routines
import Cfp2Dreamcast.Loader.Deliver
import Cfp2Dreamcast.Loader.Boot
import Cfp2Dreamcast.Mastering.Marks
import Cfp2Dreamcast.Mastering.Disc
import Cfp2Dreamcast.Mastering.Track
import Cfp2Dreamcast.Mastering.Checksum
import Cfp2Dreamcast.Mastering.Texture
import Cfp2Dreamcast.Checks.MapleLiterals
import Cfp2Dreamcast.Checks.Triples
import Cfp2Dreamcast.Checks.CartLog
import Cfp2Dreamcast.Checks.StreamingMap
import Cfp2Dreamcast.Checks.Canonical
import Cfp2Dreamcast.Checks.Servable
import Cfp2Dreamcast.Checks.Harvest
import Cfp2Dreamcast.Loader.Rehearsal
import Cfp2Dreamcast.Patch.Installed
import Cfp2Dreamcast.System.BothBuilds
import Cfp2Dreamcast.System.Cable
import Cfp2Dreamcast.Checks.Replay
