import WaveSequencer.Capture.Config
import WaveSequencer.Digital.Sequence
import WaveSequencer.Dump.Decode
import WaveSequencer.Proofs.Dump.Words
import WaveSequencer.Proofs.SortedMap.Entries
import WaveSequencer.Proofs.SortedMap.Order
import WaveSequencer.Proofs.SortedMap.Runs
import WaveSequencer.Proofs.SortedMap.Search
import WaveSequencer.Proofs.SortedMap.Acceptance
import WaveSequencer.Proofs.Containers.InsertionOrder
import WaveSequencer.Proofs.Containers.Calls
import WaveSequencer.Proofs.Log.Diagnostics
import WaveSequencer.Proofs.Dump.WellFormed
import WaveSequencer.Proofs.Dump.Overwrite
import WaveSequencer.Proofs.Dump.Blocks
import WaveSequencer.Proofs.Dump.Image
import WaveSequencer.Proofs.Dump.Recording
import WaveSequencer.Proofs.Dump.Footprint
import WaveSequencer.Proofs.Waves.Reachable
import WaveSequencer.Proofs.Waves.Playing
import WaveSequencer.Proofs.Waves.Programmed
import WaveSequencer.Proofs.Waves.CycleLimit
import WaveSequencer.Proofs.Waves.WireForm
import WaveSequencer.Proofs.Waves.Soundness
import WaveSequencer.Proofs.Digital.WireForm
import WaveSequencer.Proofs.Capture.WireForm
import WaveSequencer.Proofs.Dump.Channels
import WaveSequencer.Proofs.SortedMap.LastValues
import WaveSequencer.Proofs.Dump.Regions
import WaveSequencer.Proofs.Dump.Descriptor
import WaveSequencer.Proofs.Dump.StepSizes
import WaveSequencer.Proofs.Dump.Validation
import WaveSequencer.Proofs.Dump.Progress
import WaveSequencer.Proofs.Numeric.Canonical
import WaveSequencer.Proofs.Numeric.Nearest
import WaveSequencer.Proofs.Numeric.Sums
import WaveSequencer.Proofs.Numeric.Order
import WaveSequencer.Proofs.Numeric.UpperBounds
import WaveSequencer.Proofs.Numeric.HalvesAway
import WaveSequencer.Proofs.Numeric.Signs
import WaveSequencer.Proofs.Synthesis.Repetition
import WaveSequencer.Proofs.Synthesis.Padding
import WaveSequencer.Proofs.Synthesis.Warnings
import WaveSequencer.Proofs.Synthesis.Phase
import WaveSequencer.Proofs.Waves.Admission
import WaveSequencer.Proofs.Waves.Rebinding
import WaveSequencer.Proofs.Waves.Timing
import WaveSequencer.Proofs.Capture.Devices
import WaveSequencer.Proofs.Dump.Reads
