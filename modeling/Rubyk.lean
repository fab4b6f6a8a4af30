import Rubyk.Lib.Runs
import Rubyk.Lib.Logs
import Rubyk.Core.OrderedList
import Rubyk.Core.Worker
import Rubyk.Core.WorkerSteps
import Rubyk.Core.WorkerTermination
import Rubyk.Core.WorkerDelivery
import Rubyk.Core.WorkerCancel
import Rubyk.Core.Slot
import Rubyk.Core.SlotSteps
import Rubyk.Core.LinkGraph
import Rubyk.Core.SendingOrder
import Rubyk.Lib.PartialDerivatives
import Rubyk.TextCommand.Tables
import Rubyk.TextCommand.Classes
import Rubyk.TextCommand.Parse
import Rubyk.TextCommand.Grammar
import Rubyk.TextCommand.Pieces
import Rubyk.TextCommand.Correct
import Rubyk.TextCommand.Rejection
import Rubyk.TextCommand.Recovery
import Rubyk.TextCommand.Listen
import Rubyk.Core.PendingLinks
import Rubyk.Core.NodeSlots
import Rubyk.Core.WorkerFree
import Rubyk.Core.WorkerLooped
import Rubyk.Core.Hosted
import Rubyk.Objects.Metro
import Rubyk.Objects.MetroPending
import Rubyk.Objects.MetroBeats
import Rubyk.LibObjects.MidiOut
import Rubyk.LibObjects.MidiOutDelivery
import Rubyk.Core.LinkAlgebra
import Rubyk.Core.LinkTargets
import Rubyk.Core.OrderedListCells
import Rubyk.Core.OrderedListRuns
import Rubyk.Core.LuaValues
import Rubyk.Core.LuaScript
import Rubyk.Lib.Rows
import Rubyk.ObjectsOff.Turing
import Rubyk.ObjectsOff.TuringTables
import Rubyk.ObjectsOff.TuringRules
import Rubyk.ObjectsOff.TuringRuns
import Rubyk.ObjectsOff.TuringEdits
import Rubyk.Core.TMatrix
import Rubyk.Core.Buffer
import Rubyk.Core.TMatrixScale
import Rubyk.Core.TMatrixOwned
import Rubyk.Core.TMatrixRows
import Rubyk.Core.TMatrixFile
import Rubyk.ObjectsOff.VQ
import Rubyk.ObjectsOff.Ctrl
import Rubyk.ObjectsOff.Replay
import Rubyk.Core.SlotTies
import Rubyk.TextCommand.ErrorPosition
import Rubyk.Core.ClassFinder
import Rubyk.Lib.Walks
import Rubyk.Core.Propagation
import Rubyk.Objects.Value
import Rubyk.Core.RequestedLinks
import Rubyk.TextCommand.Session
import Rubyk.Core.ObjectTree
import Rubyk.Core.Instances
import Rubyk.TextCommand.PatchFile
import Rubyk.Core.LuaLists
import Rubyk.Core.LuaSlots
import Rubyk.Core.BufferStream
import Rubyk.ObjectsOff.BufferNode
import Rubyk.ObjectsOff.Cabox
import Rubyk.ObjectsOff.ElbgTraining
