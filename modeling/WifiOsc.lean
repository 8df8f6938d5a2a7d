import WifiOsc.Basis.Machine
import WifiOsc.Basis.Sampling
import WifiOsc.Basis.History
import WifiOsc.Basis.Delimited
import WifiOsc.Basis.Chain
import WifiOsc.Basis.Ring
import WifiOsc.Basis.Window
import WifiOsc.Basis.Restart
import WifiOsc.Basis.Pacing
import WifiOsc.Basis.Periodic
import WifiOsc.Basis.Refinement
import WifiOsc.Basis.Pipe
import WifiOsc.Basis.Crossing
import WifiOsc.Fpga.Uart
import WifiOsc.Fpga.RegWrite
import WifiOsc.Fpga.Packet
import WifiOsc.Fpga.RegRead
import WifiOsc.Fpga.UartRx
import WifiOsc.Fpga.TxLine
import WifiOsc.Fpga.HostLine
import WifiOsc.Fpga.Sender
import WifiOsc.Fpga.Framing
import WifiOsc.Fpga.Capture
import WifiOsc.Driver.ReceiveData
import WifiOsc.Driver.DataLines
import WifiOsc.Driver.ReceiveSafe
import WifiOsc.Driver.Sequeue
import WifiOsc.Driver.RingQueue
import WifiOsc.Driver.Handlers
import WifiOsc.Driver.Runs
import WifiOsc.Driver.Session
import WifiOsc.Driver.Failures
import WifiOsc.Driver.Forwarding
import WifiOsc.Driver.Stored
import WifiOsc.Driver.Restarts
import WifiOsc.Link.Handshake
import WifiOsc.Link.Overlong
import WifiOsc.Fpga.Spi
import WifiOsc.Fpga.Div
import WifiOsc.Fpga.DacPolling
import WifiOsc.Fpga.DacOutputs
import WifiOsc.Fpga.ControlPath
import WifiOsc.Fpga.GetFreq
import WifiOsc.Fpga.Frequency
import WifiOsc.Fpga.Trigger
import WifiOsc.Fpga.CaptureLength
import WifiOsc.Fpga.Dcfifo
import WifiOsc.Fpga.Scope
import WifiOsc.Fpga.ScopeFrames
import WifiOsc.Fpga.FrontEnd
import WifiOsc.Fpga.Board
import WifiOsc.Link.Acquisition
import WifiOsc.Fpga.UartBlock
import WifiOsc.Fpga.Glitches
import WifiOsc.Fpga.VhdlPair
import WifiOsc.User.Linklist
import WifiOsc.User.SocketList
import WifiOsc.User.Connections
import WifiOsc.User.Broadcast
import WifiOsc.User.Instrument
import WifiOsc.User.Delivery
import WifiOsc.User.Announcements
