import Ml605.Lib.Run
import Ml605.Lib.Trace
import Ml605.Lib.Lag
import Ml605.Lib.Fifo
import Ml605.Lib.Turns
import Ml605.Lib.Window
import Ml605.Lib.XorStream
import Ml605.Lib.OnesComplement
import Ml605.Lib.RefPool
import Ml605.Lib.WrapClock
import Ml605.Lib.Lanes
import Ml605.Lib.Rijndael
import Ml605.Lib.Cells
import Ml605.Lib.Dialogue
import Ml605.Scst.Blockio
import Ml605.Scst.BlockioLifetime
import Ml605.Scst.BlockioCompletion
import Ml605.Scst.BlockioRefused
import Ml605.Scst.BlockioBuild
import Ml605.Scst.BlockioTables
import Ml605.Scst.BlockioUnwind
import Ml605.Driver.DmaBuf
import Ml605.Driver.BdRing
import Ml605.Driver.AesDma
import Ml605.Driver.AesPost
import Ml605.Driver.AesSystem
import Ml605.Driver.AesOrder
import Ml605.Driver.AesRefusal
import Ml605.Driver.BdQueue
import Ml605.Driver.EthSend
import Ml605.Driver.AesLedger
import Ml605.Driver.BdVisible
import Ml605.Driver.BdWords
import Ml605.Driver.BdRefine
import Ml605.Driver.BdCalls
import Ml605.Driver.BdChain
import Ml605.Driver.BdMarks
import Ml605.Driver.BdRestart
import Ml605.Driver.AesSegments
import Ml605.Driver.AesWatchdog
import Ml605.Driver.AesIrq
import Ml605.Driver.AesRefs
import Ml605.Driver.AesRelease
import Ml605.Driver.Vpci
import Ml605.Pcie.RxmFifo
import Ml605.Pcie.RxmAxi
import Ml605.Pcie.SyncFifo
import Ml605.Pcie.AltStub
import Ml605.Aes.Mm2s
import Ml605.Aes.Mm2sStream
import Ml605.Aes.Mm2sReset
import Ml605.Aes.Sector
import Ml605.Aes.AxiLite
import Ml605.Aes.Status
import Ml605.Aes.Round
import Ml605.Aes.Expand
import Ml605.Aes.Core
import Ml605.Aes.Chip
import Ml605.Eth.Frame
import Ml605.Eth.OfmOut
import Ml605.Eth.OfmInsert
import Ml605.Eth.OfmRun
import Ml605.Eth.Csum
import Ml605.Eth.CsumTrack
import Ml605.Eth.CsumJob
import Ml605.Eth.CsumFrames
import Ml605.Eth.OfmIn
import Ml605.Eth.OfmInRun
import Ml605.Eth.SmallFifo
import Ml605.Eth.OfmPath
import Ml605.Eth.OfmBounds
import Ml605.Eth.IfmIn
import Ml605.Eth.IfmOut
import Ml605.Eth.IfmWriter
import Ml605.Eth.IfmRun
import Ml605.Eth.IfmPath
import Ml605.Eth.IfmCount
import Ml605.Eth.IfmBounds
