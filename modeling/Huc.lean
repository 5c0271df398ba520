import Huc.Lib.Transition
import Huc.Lib.ByteMemory
import Huc.Lib.Pointwise
import Huc.Lib.Blocks
import Huc.Lib.Rounding
import Huc.Message
import Huc.Host.Prepare
import Huc.Host.PinOnSame
import Huc.Device.Basic
import Huc.Affinity.Basic
import Huc.Device.Interrupt
import Huc.Device.Framing
import Huc.Device.Server
import Huc.Device.Bounds
import Huc.Device.Window
import Huc.Guest.Receive
import Huc.Guest.Loader
import Huc.Guest.Copy
import Huc.Affinity.Stack
import Huc.Affinity.Race
import Huc.Affinity.Recorders
import Huc.Affinity.Once
import Huc.Affinity.Binding
import Huc.Affinity.Order
import Huc.Newdev.Basic
import Huc.Newdev.Remapping
import Huc.Newdev.Rewrite
import Huc.Newdev.Server
import Huc.Affinity.Reset
import Huc.Spscq.Queue
import Huc.Spscq.Pool
import Huc.Spscq.Shutdown
import Huc.Spscq.SlotMap
import Huc.Spscq.Fifo
import Huc.Spscq.Cover
import Huc.Spscq.Roll
import Huc.Channel.Basic
import Huc.Channel.Notify
import Huc.Channel.Delivery
import Huc.Channel.Transfer
import Huc.Channel.Turns
import Huc.Channel.Doorbell
import Huc.Channel.Saving
import Huc.Channel.Loading
import Huc.Lib.StoreBuffer
import Huc.Spscq.Tso
import Huc.Spscq.Reorder
import Huc.Spscq.TsoPool
import Huc.Affinity.Fine
import Huc.Affinity.Pipeline
import Huc.Lib.Alignment
import Huc.Spscq.Layout
import Huc.Spscq.Program
import Huc.Device.Clients
import Huc.Device.Unplug
import Huc.Channel.BytecodePath
