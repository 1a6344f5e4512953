import PicoHybridCrypto.Theory.Machine
import PicoHybridCrypto.Theory.Cells
import PicoHybridCrypto.Theory.TailDrop
import PicoHybridCrypto.Tcp.Lwip
import PicoHybridCrypto.Tcp.Socket
import PicoHybridCrypto.Tcp.SocketLemmas
import PicoHybridCrypto.Tcp.ReceiveQueue
import PicoHybridCrypto.Tcp.ReceiveStream
import PicoHybridCrypto.Tcp.Acknowledgements
import PicoHybridCrypto.Tcp.Transmit
import PicoHybridCrypto.Tcp.BufferBound
import PicoHybridCrypto.Tcp.ReadWait
import PicoHybridCrypto.Tcp.Connect
import PicoHybridCrypto.Tcp.Handles
import PicoHybridCrypto.Tcp.PcbConservation
import PicoHybridCrypto.Tcp.AckAccounting
import PicoHybridCrypto.Client.TlsClient
import PicoHybridCrypto.Client.TcpClient
import PicoHybridCrypto.Memory.Layout
import PicoHybridCrypto.Bench.RsaBenchmark
import PicoHybridCrypto.Bench.MlDsaBenchmark
import PicoHybridCrypto.Bench.RoundTrip
import PicoHybridCrypto.Bench.Timer
import PicoHybridCrypto.Bench.MlKem
import PicoHybridCrypto.Theory.LossyQueue
import PicoHybridCrypto.Bench.Buffers
import PicoHybridCrypto.Client.TcpLifetimes
import PicoHybridCrypto.Client.Wifi
import PicoHybridCrypto.Host.KeyExchange
import PicoHybridCrypto.Memory.StackHeap
import PicoHybridCrypto.Tcp.CallTrace
import PicoHybridCrypto.Tcp.EarlyReads
import PicoHybridCrypto.Tcp.Iterations
import PicoHybridCrypto.Tcp.Segmentation
