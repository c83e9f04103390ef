import FlowBlaze.Common.SlotMap
import FlowBlaze.Common.Strtoul
import FlowBlaze.Common.Json
import FlowBlaze.Common.DataMap
import FlowBlaze.Common.HashTables
import FlowBlaze.Common.StashedTable
import FlowBlaze.Common.ShiftChain
import FlowBlaze.Common.AffineForm
import FlowBlaze.Hw.Ht128dp
import FlowBlaze.Hw.HtSpec
import FlowBlaze.Hw.Stash
import FlowBlaze.Hw.StashSpec
import FlowBlaze.Hw.Cuckoo
import FlowBlaze.Hw.CuckooRefines
import FlowBlaze.Hw.CuckooLoss
import FlowBlaze.Hw.CuckooMap
import FlowBlaze.Hw.Controller
import FlowBlaze.Hw.ControllerSpec
import FlowBlaze.Hw.Tcam
import FlowBlaze.Loader.Programmer
import FlowBlaze.Hw.TcamSpec
import FlowBlaze.Hw.Pipealu
import FlowBlaze.Loader.PipeAlu
import FlowBlaze.Loader.PipeAluSpec
import FlowBlaze.Sw.Table
import FlowBlaze.Sw.TableSpec
import FlowBlaze.Sw.Partition
import FlowBlaze.RowChoice
import FlowBlaze.Common.LinkedHashMap
import FlowBlaze.Common.BucketMap
import FlowBlaze.Xl.Operand
import FlowBlaze.Xl.Action
import FlowBlaze.Xl.ConditionFactory
import FlowBlaze.Xl.TableRowFactory
import FlowBlaze.Xl.StageRows
import FlowBlaze.Xl.StateBlock
import FlowBlaze.Xl.StageFactory
import FlowBlaze.Xl.Serializers
import FlowBlaze.Sw.Packet
import FlowBlaze.Sw.HeaderPointers
import FlowBlaze.Sw.FieldBytes
import FlowBlaze.Sw.FlowKey
import FlowBlaze.Sw.Actions
import FlowBlaze.Sw.ActionsSpec
import FlowBlaze.Sw.Instances
import FlowBlaze.Sw.FreshFlows
import FlowBlaze.Sw.Worker
import FlowBlaze.Sw.Release
import FlowBlaze.Sw.FlowCache
import FlowBlaze.Sw.Isolation
import FlowBlaze.Sw.Loader
import FlowBlaze.Sw.LoaderBounds
import FlowBlaze.Encoding
import FlowBlaze.PipealuRun
import FlowBlaze.PipealuUpdates
import FlowBlaze.EventRows
import FlowBlaze.Loader.PipeAluWords
import FlowBlaze.PipealuFrame
import FlowBlaze.Hw.Conditions
import FlowBlaze.Hw.TcamFields
import FlowBlaze.Loader.Parser
import FlowBlaze.Comparators
import FlowBlaze.FieldEntries
import FlowBlaze.Loader.FlowKeys
import FlowBlaze.Xl.ParseTree
import FlowBlaze.Xl.Factories
import FlowBlaze.Xl.XtraCompiler
import FlowBlaze.Xl.Resolution
import FlowBlaze.Xl.ResolvedProgram
import FlowBlaze.Xl.Scope
import FlowBlaze.Xl.MacroExpansion
import FlowBlaze.Xl.MacroReplay
import FlowBlaze.Xl.MacroDefinitions
import FlowBlaze.Xl.UndefinedMacros
import FlowBlaze.Xl.MacroActions
import FlowBlaze.Xl.LaterBlocks
import FlowBlaze.Xl.StageTables
import FlowBlaze.Xl.Learning
import FlowBlaze.Xl.NextStates
import FlowBlaze.Xl.Transitions
import FlowBlaze.Xl.Pieces
import FlowBlaze.Xl.PieceStages
import FlowBlaze.Xl.ClosedStages
import FlowBlaze.Sw.Timestamp
import FlowBlaze.Sw.StageLoop
import FlowBlaze.StageCycles
import FlowBlaze.Hw.AxiSlave
import FlowBlaze.Hw.RegisterFile
import FlowBlaze.Hw.HostRows
import FlowBlaze.Xl.RegisterNames
import FlowBlaze.PacketOffsets
import FlowBlaze.Xl.Callbacks
import FlowBlaze.Xl.Places
import FlowBlaze.Xl.NullReferences
import FlowBlaze.Sw.FlowIdentity
import FlowBlaze.Sw.Directions
import FlowBlaze.Sw.KeyBounds
import FlowBlaze.Sw.ParserBounds
import FlowBlaze.Sw.StandardFields
import FlowBlaze.Sw.FirstMatch
import FlowBlaze.Sw.PoolBounds
import FlowBlaze.Xl.TwinStages
import FlowBlaze.UseCases.Elephant
import FlowBlaze.UseCases.PortKnocking
import FlowBlaze.UseCases.TrafficPolicer
import FlowBlaze.Sw.HeapContents
import FlowBlaze.Sw.ParsedNumbers
import FlowBlaze.Sw.RegisterArithmetic
import FlowBlaze.Sw.ConditionSlots
import FlowBlaze.Sw.FieldWrites
import FlowBlaze.Sw.Operands
import FlowBlaze.Sw.NoInstance
import FlowBlaze.Xl.Accepted
import FlowBlaze.Xl.StateLabels
import FlowBlaze.Xl.OneTransition
import FlowBlaze.Common.Bytes
import FlowBlaze.Hw.ModifyField
import FlowBlaze.Hw.ModifySpec
import FlowBlaze.Loader.RowActions
import FlowBlaze.SetFields
import FlowBlaze.Hw.AddField
import FlowBlaze.Hw.InsertedBytes
import FlowBlaze.Hw.Beats
import FlowBlaze.Hw.AddSteps
import FlowBlaze.Hw.AddSpec
import FlowBlaze.Xl.SerialBlocks
import FlowBlaze.Xl.SerialRows
import FlowBlaze.Xl.SerialActions
import FlowBlaze.Common.Pattern
import FlowBlaze.Xl.Lexer
import FlowBlaze.Xl.Lexemes
import FlowBlaze.Xl.PreProcessor
import FlowBlaze.Xl.Rewriting
import FlowBlaze.Xl.Preprocessed
import FlowBlaze.Hw.StashCounters
import FlowBlaze.Hw.DelayerAxi
import FlowBlaze.Hw.IsolatedInsert
import FlowBlaze.Hw.FlowRemoval
import FlowBlaze.Firmware.Rsscanf
import FlowBlaze.Firmware.SerialWrites
import FlowBlaze.Xl.LateConditions
import FlowBlaze.Xl.TwinRows
import FlowBlaze.Xl.Independence
import FlowBlaze.Hw.OwnAction
import FlowBlaze.Hw.StreamIntegrity
import FlowBlaze.Hw.FlowBlazeCore
import FlowBlaze.Hw.SpacedPackets
import FlowBlaze.Hw.CoreMachine
import FlowBlaze.Hw.CoreAlignment
import FlowBlaze.Hw.CoreRefines
import FlowBlaze.Hw.CalmRuns
import FlowBlaze.Hw.Program
import FlowBlaze.Common.CellLoop
import FlowBlaze.Hw.CamMatchEnc
import FlowBlaze.Hw.CamWord
import FlowBlaze.Common.SlowWrites
import FlowBlaze.Hw.CamRtl
import FlowBlaze.Hw.CoreCams
