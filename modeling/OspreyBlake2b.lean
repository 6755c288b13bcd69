import OspreyBlake2b.Rtl.UartReceiverLaws
import OspreyBlake2b.Rtl.UartTransmitterLaws
import OspreyBlake2b.Rtl.CoreLaws
import OspreyBlake2b.Rtl.ResultArbFair
import OspreyBlake2b.Rtl.NonceSeed
import OspreyBlake2b.Rtl.TopLaws
import OspreyBlake2b.Rtl.WorkBroadcastLaws
import OspreyBlake2b.Miner.PackLaws
import OspreyBlake2b.Miner.PrefilterLaws
import OspreyBlake2b.Miner.BypassLaws
import OspreyBlake2b.Miner.FrameSyncLaws
import OspreyBlake2b.Miner.PoolLoopLaws
import OspreyBlake2b.Miner.PushLoop
import OspreyBlake2b.Miner.SoloLoop
import OspreyBlake2b.Miner.SubmitLaws
import OspreyBlake2b.Miner.BlockLaws
import OspreyBlake2b.Miner.WorkItemLaws
import OspreyBlake2b.Miner.DevfeeLaws
import OspreyBlake2b.Miner.ExtranonceLaws
import OspreyBlake2b.Miner.StratumPollLaws
import OspreyBlake2b.Miner.LineAssembly
import OspreyBlake2b.Miner.LimitsLaws
import OspreyBlake2b.Miner.RedirectLaws
import OspreyBlake2b.Miner.ReplayLaws
import OspreyBlake2b.Miner.RollLaws
import OspreyBlake2b.Miner.Bech32Laws
import OspreyBlake2b.Miner.TemplateLaws
import OspreyBlake2b.Miner.CoinbaseLaws
import OspreyBlake2b.Miner.DnsLaws
import OspreyBlake2b.Zynq.Blake2bReferenceLaws
import OspreyBlake2b.Zynq.SiaReferenceLaws
import OspreyBlake2b.Miner.ShareTarget
import OspreyBlake2b.Lib.Decimal
import OspreyBlake2b.Lib.JsonParse
import OspreyBlake2b.Zynq.SiaReference
import OspreyBlake2b.Lib.DoubleLaws
import OspreyBlake2b.Lib.JsonNumber
import OspreyBlake2b.Lib.JsonObject
import OspreyBlake2b.Miner.ReconnectLaws
import OspreyBlake2b.Miner.Verdicts
import OspreyBlake2b.Miner.VerdictLaws
import OspreyBlake2b.Lib.ScriptNum
import OspreyBlake2b.Miner.Transaction
import OspreyBlake2b.Miner.Dns
import OspreyBlake2b.Miner.CheckedLine
import OspreyBlake2b.Miner.CheckedLineLaws
import OspreyBlake2b.Miner.CheckedDispatchLaws
import OspreyBlake2b.Miner.Bech32Lengths
import OspreyBlake2b.Miner.CompactTarget
import OspreyBlake2b.Lib.Merkle
import OspreyBlake2b.Miner.MerkleLaws
import OspreyBlake2b.Lib.PrimeRoots
import OspreyBlake2b.Lib.Sha2
import OspreyBlake2b.Hash.Sha256Laws
import OspreyBlake2b.Hash.Blake2bRfc
import OspreyBlake2b.Rtl.Board
import OspreyBlake2b.Rtl.BoardLaws
import OspreyBlake2b.Miner.BoardReports
import OspreyBlake2b.Rtl.SiaBoard
import OspreyBlake2b.Miner.SiaReports
import OspreyBlake2b.Lib.Fifo
import OspreyBlake2b.Miner.UartLite
import OspreyBlake2b.Miner.Loopback
import OspreyBlake2b.Rtl.VendorCore
import OspreyBlake2b.Zynq.BuildWorkItem
import OspreyBlake2b.Lib.JsonDump
import OspreyBlake2b.Zynq.StratumTestServer
import OspreyBlake2b.Zynq.StratumTestServerLaws
import OspreyBlake2b.Zynq.FixtureMessages
import OspreyBlake2b.Zynq.FixtureLink
import OspreyBlake2b.Zynq.FixtureThread
import OspreyBlake2b.Zynq.FixtureMiner
import OspreyBlake2b.Zynq.FixtureLinkLaws
import OspreyBlake2b.Zynq.FixtureRuns
import OspreyBlake2b.Zynq.FixtureSettles
