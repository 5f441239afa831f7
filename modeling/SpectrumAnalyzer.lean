import SpectrumAnalyzer.Lib.Machine
import SpectrumAnalyzer.Lib.Neighbours
import SpectrumAnalyzer.Lib.Writer
import SpectrumAnalyzer.Lib.Framing
import SpectrumAnalyzer.Lib.Deframer
import SpectrumAnalyzer.Lib.Faults
import SpectrumAnalyzer.Lib.Edit
import SpectrumAnalyzer.Lib.Bytes
import SpectrumAnalyzer.Lib.ShiftRegister
import SpectrumAnalyzer.Lib.ParityCheck
import SpectrumAnalyzer.Lib.CyclicCode
import SpectrumAnalyzer.Lib.RegisterPolynomial
import SpectrumAnalyzer.Lib.BitReversal
import SpectrumAnalyzer.Lib.Radix2
import SpectrumAnalyzer.Lib.Rounding
import SpectrumAnalyzer.Lib.Dict
import SpectrumAnalyzer.Lib.Transition
import SpectrumAnalyzer.Lib.Flags
import SpectrumAnalyzer.Lib.Ledger
import SpectrumAnalyzer.Lib.Arrivals
import SpectrumAnalyzer.Types
import SpectrumAnalyzer.Telemetry.RawPacket
import SpectrumAnalyzer.Telemetry.Encoder
import SpectrumAnalyzer.Telemetry.Decoder
import SpectrumAnalyzer.Telemetry.Layout
import SpectrumAnalyzer.Telemetry.Wire
import SpectrumAnalyzer.Telemetry.Capacity
import SpectrumAnalyzer.Telemetry.Receiver
import SpectrumAnalyzer.Telemetry.Accounting
import SpectrumAnalyzer.Telemetry.Sequence
import SpectrumAnalyzer.Telemetry.RoundTrip
import SpectrumAnalyzer.Telemetry.EditSafety
import SpectrumAnalyzer.Telemetry.BitErrors
import SpectrumAnalyzer.Telemetry.Task
import SpectrumAnalyzer.Platform.Uart
import SpectrumAnalyzer.Spectrum.Portable
import SpectrumAnalyzer.Spectrum.Permutation
import SpectrumAnalyzer.Spectrum.Transform
import SpectrumAnalyzer.Spectrum.Cmsis
import SpectrumAnalyzer.Spectrum.Levels
import SpectrumAnalyzer.Firmware.Health
import SpectrumAnalyzer.Firmware.Continuity
import SpectrumAnalyzer.Firmware.Dsp
import SpectrumAnalyzer.Firmware.System
import SpectrumAnalyzer.Firmware.Steps
import SpectrumAnalyzer.Firmware.Undisturbed
import SpectrumAnalyzer.Firmware.Ownership
import SpectrumAnalyzer.Firmware.BlockLoss
import SpectrumAnalyzer.Firmware.Handout
import SpectrumAnalyzer.Firmware.Overruns
import SpectrumAnalyzer.Firmware.Unpack
import SpectrumAnalyzer.Firmware.Quality
import SpectrumAnalyzer.Spectrum.Dominant
import SpectrumAnalyzer.Firmware.Lifetime
import SpectrumAnalyzer.Firmware.Votes
import SpectrumAnalyzer.Host.Packet
import SpectrumAnalyzer.Host.CrcPolynomial
import SpectrumAnalyzer.Host.FrameDecoder
import SpectrumAnalyzer.Host.Agreement
import SpectrumAnalyzer.Host.OverRun
import SpectrumAnalyzer.Host.Numbering
import SpectrumAnalyzer.Host.Assembler
import SpectrumAnalyzer.Host.Delivery
import SpectrumAnalyzer.Host.EndToEnd
import SpectrumAnalyzer.Host.Pushes
import SpectrumAnalyzer.Host.Histories
import SpectrumAnalyzer.Host.Interleaving
import SpectrumAnalyzer.Host.Records
import SpectrumAnalyzer.Firmware.Provenance
import SpectrumAnalyzer.Firmware.Transmission
import SpectrumAnalyzer.Spectrum.Amplitudes
import SpectrumAnalyzer.Host.LiveStream
import SpectrumAnalyzer.Firmware.Injection
import SpectrumAnalyzer.Firmware.FaultBuilds
import SpectrumAnalyzer.Firmware.InjectedFaults
import SpectrumAnalyzer.Firmware.InjectedCounts
import SpectrumAnalyzer.Firmware.InjectedVotes
import SpectrumAnalyzer.Firmware.Recovery
import SpectrumAnalyzer.Firmware.Causes
import SpectrumAnalyzer.Firmware.CleanRuns
import SpectrumAnalyzer.Host.Acceptance
import SpectrumAnalyzer.Lib.Countdown
import SpectrumAnalyzer.Firmware.StartUp
import SpectrumAnalyzer.Firmware.Board
import SpectrumAnalyzer.Firmware.Guarded
import SpectrumAnalyzer.Host.Attachment
import SpectrumAnalyzer.Host.LateListener
import SpectrumAnalyzer.Lib.Butterflies
import SpectrumAnalyzer.Spectrum.PrecisionReport
import SpectrumAnalyzer.Spectrum.Deviation
import SpectrumAnalyzer.Host.TestFrames
