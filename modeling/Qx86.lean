import Qx86.Properties.GasMetering
import Qx86.Properties.PipelineHistory
import Qx86.Properties.Successor
import Qx86.Properties.Termination
import Qx86.Properties.PipelineSize
import Qx86.Properties.WriteableCode
import Qx86.Properties.ReadOnlyMemory
import Qx86.Decode.Addressing
import Qx86.Properties.OperandAddresses
import Qx86.Properties.SelfDelimiting
import Qx86.Properties.FetchWindow
import Qx86.Properties.SectionedMemory
import Qx86.Properties.RepUnrolling
import Qx86.Properties.RepResume
import Qx86.Properties.BlockMoves
import Qx86.Properties.StringSearch
import Qx86.Properties.RepEncodings
import Qx86.Properties.ErrorLocation
import Qx86.Properties.HostSafety
import Qx86.Properties.AlternativeEncodings
import Qx86.Properties.Arithmetic
import Qx86.Properties.Comparisons
import Qx86.Properties.FlagsOnly
import Qx86.Properties.CarryChains
import Qx86.Properties.ReadModifyWrite
import Qx86.Properties.Calls
import Qx86.Properties.Products
import Qx86.Properties.SignedProducts
import Qx86.Properties.SignedDivision
import Qx86.Properties.Shifts
import Qx86.Properties.Negation
import Qx86.Properties.BitTests
import Qx86.Properties.BitScans
import Qx86.Properties.CompareExchange
import Qx86.Properties.PackedDecimals
import Qx86.Properties.Rotations
import Qx86.Properties.CarryRotations
import Qx86.Properties.StackOrder
import Qx86.Properties.StackFrames
import Qx86.Properties.SavedState
import Qx86.Properties.RegisterViews
import Qx86.Properties.SignExtensions
import Qx86.Properties.ArgumentLens
import Qx86.Properties.SlotPrices
import Qx86.Properties.SectionLayout
import Qx86.Properties.TableConstruction
import Qx86.Properties.MemoryLocality
import Qx86.Properties.ErrorKinds
import Qx86.Properties.MeteringErasure
import Qx86.Properties.Fibonacci
import Qx86.Properties.LoopFree
import Qx86.Properties.ProgramLoading
import Qx86.Properties.DemandPaging
import Qx86.Properties.OperandEncodings
import Qx86.Properties.OverlappingMoves
import Qx86.Properties.LongDivision
import Qx86.Properties.LongMultiplication
