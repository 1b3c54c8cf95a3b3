import LibvmaTlt.Lwip.SendWindow
import LibvmaTlt.Lwip.ParseBounds
import LibvmaTlt.Lwip.SackReport
import LibvmaTlt.Lwip.SackBlocks
import LibvmaTlt.Lwip.ForceFail
import LibvmaTlt.Sock.IpOutput
import LibvmaTlt.Sock.RcvBuff
import LibvmaTlt.Sock.TcpTx
import LibvmaTlt.Util.Match
import LibvmaTlt.Dev.RxProcess
import LibvmaTlt.Lwip.FinPlace
import LibvmaTlt.Lwip.StateDiagram
import LibvmaTlt.Proto.GatewaySource
import LibvmaTlt.Iomux.EpollOnce
import LibvmaTlt.Daemon.FlowTree
import LibvmaTlt.Daemon.Message
import LibvmaTlt.Lwip.LossRounds
import LibvmaTlt.Lwip.UimpAdd
import LibvmaTlt.Lwip.UimpMerge
import LibvmaTlt.Lwip.EcnEcho
import LibvmaTlt.Lwip.CwndFloor
import LibvmaTlt.Lwip.EceGate
import LibvmaTlt.Lwip.WriteMem
import LibvmaTlt.Lwip.SplitFail
import LibvmaTlt.Lwip.Rexmit
import LibvmaTlt.Lwip.SndBuf
import LibvmaTlt.Dev.GroMerge
import LibvmaTlt.Proto.FragComplete
import LibvmaTlt.Iomux.EpollWakeup
import LibvmaTlt.Lwip.OoseqQueue
import LibvmaTlt.Event.Credit
import LibvmaTlt.Dev.RingMigration
import LibvmaTlt.Dev.TxCredit
import LibvmaTlt.Dev.TxWakeup
