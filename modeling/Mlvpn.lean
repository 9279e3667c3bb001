import Mlvpn.Ports.FecRecoveryTraps
import Mlvpn.Ports.FecRestart
import Mlvpn.Ports.RxDelivery
import Mlvpn.Ports.FecGate
import Mlvpn.Ports.SendBatch
import Mlvpn.Ports.GsoPlan
import Mlvpn.Ports.MtuAgreement
import Mlvpn.Ports.PathFit
import Mlvpn.Ports.TxStall
import Mlvpn.Ports.ReportWindows
import Mlvpn.Ports.DeliveryIdle
import Mlvpn.Ports.DeliveryAccount
import Mlvpn.Ports.SharedShortfall
import Mlvpn.Ports.PrimarySwitch
import Mlvpn.Ports.ProbeAccounting
import Mlvpn.Ports.LossWindow
import Mlvpn.Ports.ProbeBackoff
import Mlvpn.Ports.RefreshTasks
import Mlvpn.Ports.WgFraming
import Mlvpn.Ports.VersionExchange
import Mlvpn.Ports.MssExact
import Mlvpn.Ports.DisabledLink
import Mlvpn.Ports.PrimaryOnly
import Mlvpn.Ports.CapAccounting
import Mlvpn.Ports.ThroughputTests
import Mlvpn.Ports.BandwidthProber
import Mlvpn.Ports.FamilyFallback
import Mlvpn.Ports.TicketLimits
import Mlvpn.Ports.TrackerRestart
import Mlvpn.Ports.CounterEvents
import Mlvpn.Ports.LogStream
import Mlvpn.Ports.HttpRead
import Mlvpn.Ports.EventPages
import Mlvpn.Ports.ParityPlacement
import Mlvpn.Ports.FecRetention
