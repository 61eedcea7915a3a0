import RunPerf.Lib.Machine
import RunPerf.Lib.RingWindow
import RunPerf.Lib.BoundedQueue
import RunPerf.Lib.Bytes
import RunPerf.Lib.Interleave
import RunPerf.Lib.Windows
import RunPerf.Lib.Handles
import RunPerf.Lib.Text
import RunPerf.Lib.LongestPrefix
import RunPerf.Lib.Sampling
import RunPerf.Lib.SharedMemory
import RunPerf.Lib.OptionWords
import RunPerf.Lib.Parallel
import RunPerf.Simd
import RunPerf.Simd.Memory
import RunPerf.Pacing
import RunPerf.Cpus
import RunPerf.Pinning
import RunPerf.Options
import RunPerf.Receive.Gaps
import RunPerf.Net.Server
import RunPerf.Net.Sockets
import RunPerf.Net.Accounting
import RunPerf.Xdp.Umem
import RunPerf.Xdp.SocketSetup
import RunPerf.Xdp.RingQueue
import RunPerf.Xdp.MappedRing
import RunPerf.Xdp.RingSharing
import RunPerf.Xdp.Frame
import RunPerf.Xdp.Template
import RunPerf.Xdp.Checksum
import RunPerf.Xdp.FrameFormat
import RunPerf.Xdp.Arp
import RunPerf.Xdp.Routes
import RunPerf.Xdp.Filter
import RunPerf.Xdp.FilterMemory
import RunPerf.Xdp.Chunks
import RunPerf.Xdp.Sink
import RunPerf.Xdp.Gen
import RunPerf.Xdp.GenFrames
import RunPerf.Xdp.GenOversized
import RunPerf.Xdp.GenRuns
import RunPerf.Xdp.GenDelivery
import RunPerf.Xdp.GenAttempt
import RunPerf.Xdp.GenKick
import RunPerf.Xdp.GenLengths
import RunPerf.Xdp.GenTimed
import RunPerf.Xdp.WireFormat
import RunPerf.Xdp.Decode
import RunPerf.Xdp.SinkSetup
import RunPerf.Loss.Reports
import RunPerf.Loss.Reordering
import RunPerf.Net.Client
import RunPerf.Net.ClientAccounting
import RunPerf.Net.Volume
import RunPerf.Net.Reporting
import RunPerf.Net.Reporter
import RunPerf.Net.Tcp
import RunPerf.Net.Timeline
import RunPerf.Rate.Burst
import RunPerf.Rate.Overshoot
import RunPerf.Rate.Target
import RunPerf.Guard
import RunPerf.Meminfo
import RunPerf.Cli
import RunPerf.Xdp.Blast
import RunPerf.Xdp.BlastAccounting
import RunPerf.Xdp.BlastEnd
import RunPerf.Xdp.BlastFrames
import RunPerf.Loss.Refused
import RunPerf.Loss.Clients
import RunPerf.Loss.Starved
import RunPerf.Loss.Wraparound
import RunPerf.Loss.Conservation
import RunPerf.Loss.XdpConservation
import RunPerf.Loss.Receivers
