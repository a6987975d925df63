import H264SendReceiver.Library.Marker
import H264SendReceiver.Library.Text
import H264SendReceiver.Library.Simulation
import H264SendReceiver.SyntaxElements
import H264SendReceiver.SignedGolomb
import H264SendReceiver.Cursor
import H264SendReceiver.BitList
import H264SendReceiver.EmulationPrevention
import H264SendReceiver.AnnexB.FileReader
import H264SendReceiver.AnnexB.Dump
import H264SendReceiver.AnnexB.Scan
import H264SendReceiver.AnnexB.Chunks
import H264SendReceiver.AnnexB.Pass
import H264SendReceiver.AnnexB.OneCall
import H264SendReceiver.AnnexB.AnyMemory
import H264SendReceiver.AnnexB.Runs
import H264SendReceiver.Splitting
import H264SendReceiver.AnnexB.ByteStream
import H264SendReceiver.RoundTrip
import H264SendReceiver.Rescans
import H264SendReceiver.Program
import H264SendReceiver.Misled
import H264SendReceiver.Padding
import H264SendReceiver.Transcript
import H264SendReceiver.Listings
import H264SendReceiver.MemorySafety
import H264SendReceiver.Remux
import H264SendReceiver.Counting
import H264SendReceiver.AnnexB.Sessions
import H264SendReceiver.Conservation
import H264SendReceiver.OverRead
import H264SendReceiver.Reopen
import H264SendReceiver.Stuck
import H264SendReceiver.ReadFailure
import H264SendReceiver.FinalEscape
import H264SendReceiver.RbspReads
import H264SendReceiver.AnnexB.Checked
import H264SendReceiver.DefinedArithmetic
import H264SendReceiver.ComposedReads
import H264SendReceiver.FalseDecode
import H264SendReceiver.Fields
import H264SendReceiver.Payloads
import H264SendReceiver.Draining
import H264SendReceiver.StreamTests
import H264SendReceiver.InStep
