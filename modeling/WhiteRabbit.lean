import WhiteRabbit.AccessLogs
import WhiteRabbit.AlignedMasks
import WhiteRabbit.BigEndianWords
import WhiteRabbit.BitFields
import WhiteRabbit.BlockingCalls
import WhiteRabbit.BufferPointers
import WhiteRabbit.BusFidelity
import WhiteRabbit.BusOperations
import WhiteRabbit.CStrings
import WhiteRabbit.CallbackHandles
import WhiteRabbit.CellLedger
import WhiteRabbit.CellPool
import WhiteRabbit.ChannelIndices
import WhiteRabbit.ChannelModes
import WhiteRabbit.CheckPhases
import WhiteRabbit.ChunkedStreams
import WhiteRabbit.ClockReads
import WhiteRabbit.ConfigReads
import WhiteRabbit.CycleAccounts
import WhiteRabbit.CycleEncoding
import WhiteRabbit.CycleResults
import WhiteRabbit.CycleValidation
import WhiteRabbit.DescriptorCopies
import WhiteRabbit.DeviceFlush
import WhiteRabbit.DeviceSets
import WhiteRabbit.DeviceTraversal
import WhiteRabbit.DioTimestamps
import WhiteRabbit.EepromBurning
import WhiteRabbit.EepromChip
import WhiteRabbit.EepromDialogues
import WhiteRabbit.EepromImage
import WhiteRabbit.EepromTransfers
import WhiteRabbit.EncodingShape
import WhiteRabbit.ErrorRegister
import WhiteRabbit.EtherboneWidths
import WhiteRabbit.Exchanges
import WhiteRabbit.ExpiryTimes
import WhiteRabbit.FirstMatches
import WhiteRabbit.FlushContents
import WhiteRabbit.FlushedCycles
import WhiteRabbit.FpgaLoader
import WhiteRabbit.FrameIds
import WhiteRabbit.FruStrings
import WhiteRabbit.GroupPacking
import WhiteRabbit.HandlerRanges
import WhiteRabbit.HeaderChecksums
import WhiteRabbit.IdentitySearch
import WhiteRabbit.InterruptLoad
import WhiteRabbit.LegalModes
import WhiteRabbit.LinkedCells
import WhiteRabbit.LoopedPulses
import WhiteRabbit.MemoryPool
import WhiteRabbit.MemoryWords
import WhiteRabbit.MessageDecoder
import WhiteRabbit.MezzanineIoctl
import WhiteRabbit.ModeArguments
import WhiteRabbit.NicTransmitRing
import WhiteRabbit.NoReadsFlag
import WhiteRabbit.OnesComplement
import WhiteRabbit.OpenCycles
import WhiteRabbit.OperationLanes
import WhiteRabbit.PacketIsolation
import WhiteRabbit.PacketSections
import WhiteRabbit.PendingSearch
import WhiteRabbit.PrefixCodes
import WhiteRabbit.ReceiveRing
import WhiteRabbit.RecordAccesses
import WhiteRabbit.RecordBounds
import WhiteRabbit.RecordDecoder
import WhiteRabbit.RecordEncoder
import WhiteRabbit.RecordExecution
import WhiteRabbit.RecordFormat
import WhiteRabbit.ReplyCallbacks
import WhiteRabbit.ReplyFraming
import WhiteRabbit.ResponseCursors
import WhiteRabbit.ResponseHeap
import WhiteRabbit.ResponseQueue
import WhiteRabbit.ResponseTickets
import WhiteRabbit.Responses
import WhiteRabbit.ReturnAddresses
import WhiteRabbit.RingArcs
import WhiteRabbit.RulerEvents
import WhiteRabbit.ScanLifetimes
import WhiteRabbit.SdbArrays
import WhiteRabbit.SdbDevices
import WhiteRabbit.SdbFiles
import WhiteRabbit.SdbReads
import WhiteRabbit.SdbRoundTrip
import WhiteRabbit.SdbScan
import WhiteRabbit.SdbSearch
import WhiteRabbit.SdbTables
import WhiteRabbit.SessionReplies
import WhiteRabbit.SnoopMemory
import WhiteRabbit.SocketAccess
import WhiteRabbit.SocketMachine
import WhiteRabbit.SocketMoves
import WhiteRabbit.SpanTilings
import WhiteRabbit.StampExchanges
import WhiteRabbit.StampFlags
import WhiteRabbit.StampSeconds
import WhiteRabbit.StepRuns
import WhiteRabbit.StrandedCycles
import WhiteRabbit.StreamFragmentation
import WhiteRabbit.StreamSessions
import WhiteRabbit.TimeArguments
import WhiteRabbit.TimespecSums
import WhiteRabbit.TlvFiles
import WhiteRabbit.ToolAccesses
import WhiteRabbit.ToolFormats
import WhiteRabbit.TransferPlans
import WhiteRabbit.TransferRoundTrip
import WhiteRabbit.TransmitFrames
import WhiteRabbit.TunnelFraming
import WhiteRabbit.TwoWireBus
import WhiteRabbit.UnfoldedForests
import WhiteRabbit.WidthAgreement
import WhiteRabbit.WidthNegotiation
import WhiteRabbit.WidthRuns
import WhiteRabbit.WriteBacks
