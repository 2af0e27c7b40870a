import Userworks.Lib.LittleEndian
import Userworks.Lib.Edges
import Userworks.Lib.InputFile
import Userworks.Lib.Paint
import Userworks.LogicFilter.TriggerDecision
import Userworks.Exam6.TriggerEngines
import Userworks.LogicFilter.TriggerCoverage
import Userworks.Exam6.TimeFrameBuilding
import Userworks.Exam6.MessageSplitting
import Userworks.TriggerView.TriggerRoundTrip
import Userworks.TriggerView.TriggerSources
import Userworks.LogicFilter.TriggerCompiler
import Userworks.LogicFilter.TableBounds
import Userworks.LogicFilter.RowAlignment
import Userworks.LogicFilter.InfixAcceptance
import Userworks.Exam6.TruncatedFiles
import Userworks.Watchdog.RestartRule
import Userworks.Exam3.SubTimeFrameBuilding
import Userworks.Recbe.EventStream
import Userworks.LogicFilter.TdcWordFormat
import Userworks.LogicFilter.TriggerExpressions
import Userworks.LogicFilter.OldExpressions
import Userworks.LogicFilter.SignalNesting
import Userworks.Recbe.SuppressedEvents
import Userworks.Recbe.RawEvents
import Userworks.Exam6.FailedSends
import Userworks.Exam6.SuppressedFrames
import Userworks.Lib.Records
import Userworks.LogicFilter.FieldAssignments
import Userworks.Lib.Ring
import Userworks.Utility.RingBuffer
import Userworks.Utility.Stoi
import Userworks.TriggerView.Reconfiguration
import Userworks.Exam6.SinkHeaderSkip
import Userworks.Watchdog.StateConsistency
import Userworks.Elph2018.SubTimeFrameBuilder
import Userworks.Elph2018.StreamConservation
import Userworks.Lib.Parity
import Userworks.Utility.Ecc
import Userworks.Utility.EccDistance
import Userworks.Utility.RegisterMapParser
import Userworks.Utility.RegisterMapDocuments
import Userworks.Utility.RegisterMapReading
import Userworks.Utility.RegisterMapWalks
import Userworks.Utility.RegisterMapAttribution
import Userworks.Utility.RegisterMapOwners
import Userworks.Utility.RegisterMapLayout
import Userworks.Utility.FileSplitting
import Userworks.Utility.FileRuns
import Userworks.Utility.GrayCode
import Userworks.Lib.BitSets
import Userworks.Utility.EnumBitset
import Userworks.Lib.Splitting
import Userworks.Utility.StringToContainer
import Userworks.Elph2018.RegisterSessions
import Userworks.E16.WorkerOrder
import Userworks.E16.WorkerProgress
import Userworks.E16.SinkRuns
import Userworks.LogicFilter.FilteredRuns
import Userworks.LogicFilter.FilterChains
import Userworks.Exam6.TimeFrameDelivery
import Userworks.Exam6.ReorderedFrames
import Userworks.Elph2018.TimeFrameFates
import Userworks.Exam6.RecordedFrames
import Userworks.Exam3.TimeFramesOfStreams
