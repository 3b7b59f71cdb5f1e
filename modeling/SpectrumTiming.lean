import SpectrumTiming.Computer
import SpectrumTiming.Main
import SpectrumTiming.Script.Printer
import SpectrumTiming.Proofs.Evidence
import SpectrumTiming.Proofs.Recognition
import SpectrumTiming.Proofs.Settling
import SpectrumTiming.Proofs.Schedule
import SpectrumTiming.Proofs.IndexBytes
import SpectrumTiming.Proofs.Account
import SpectrumTiming.Proofs.Reachable
import SpectrumTiming.Proofs.Encoding
import SpectrumTiming.Proofs.Reconciliation
import SpectrumTiming.Proofs.Discrepancy
import SpectrumTiming.Proofs.Classification
import SpectrumTiming.Proofs.Redistribution
import SpectrumTiming.Proofs.Suspension
import SpectrumTiming.Proofs.Grammar
import SpectrumTiming.Proofs.Reading
import SpectrumTiming.Proofs.Uncontended
import SpectrumTiming.Proofs.PairIndependence
import SpectrumTiming.Proofs.Delays
import SpectrumTiming.Proofs.Instructions
import SpectrumTiming.Proofs.ScriptTotals
import SpectrumTiming.Proofs.DelayBounds
import SpectrumTiming.Proofs.ContentionClass
import SpectrumTiming.Proofs.Overtaking
import SpectrumTiming.Proofs.Results
import SpectrumTiming.Proofs.Hooks
import SpectrumTiming.Proofs.Noninterference
import SpectrumTiming.Proofs.BusTrace
import SpectrumTiming.Proofs.Bounds
import SpectrumTiming.Proofs.Overflow
import SpectrumTiming.Proofs.DisplayNotices
import SpectrumTiming.Proofs.ClassTables
import SpectrumTiming.Proofs.Checked
import SpectrumTiming.Proofs.Safety
import SpectrumTiming.Proofs.Composition
import SpectrumTiming.Proofs.RoundTrip
import SpectrumTiming.Proofs.Walking
import SpectrumTiming.Proofs.Lookahead
import SpectrumTiming.Proofs.Spaces
import SpectrumTiming.Proofs.Refusals
import SpectrumTiming.Proofs.Decoding
import SpectrumTiming.Proofs.IndexSymmetry
import SpectrumTiming.Proofs.BlockProgress
import SpectrumTiming.Proofs.Repetition
import SpectrumTiming.Proofs.BlockCopy
import SpectrumTiming.Proofs.BlockPorts
import SpectrumTiming.Proofs.BlockSearch
import SpectrumTiming.Proofs.BlockTime
import SpectrumTiming.Proofs.Stack
import SpectrumTiming.Proofs.Frames
import SpectrumTiming.Proofs.InstructionLength
import SpectrumTiming.Proofs.DelayBudget
import SpectrumTiming.Proofs.ClassifyCommand
import SpectrumTiming.Proofs.Validation
