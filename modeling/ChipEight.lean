import ChipEight.Cadence
import ChipEight.Countdown
import ChipEight.Dump
import ChipEight.Emulation.Run
import ChipEight.Host.Recorder
import ChipEight.Instruction.Decode
import ChipEight.Keypad
import ChipEight.Machine.Cycle
import ChipEight.Program
import ChipEight.Tally
import ChipEight.Proofs.Bracketing
import ChipEight.Proofs.Decoding
import ChipEight.Proofs.Effects
import ChipEight.Proofs.Faults
import ChipEight.Proofs.History
import ChipEight.Proofs.Remainders
import ChipEight.Proofs.Schedule
import ChipEight.Proofs.Splitting
import ChipEight.Proofs.Timers
import ChipEight.Proofs.Waiting
import ChipEight.Proofs.Footprint
import ChipEight.Proofs.Bounds
import ChipEight.Proofs.Coupling
import ChipEight.Proofs.Sessions
import ChipEight.Proofs.UpperBits
import ChipEight.Proofs.Clearing
import ChipEight.Proofs.Countdowns
import ChipEight.Proofs.Polling
import ChipEight.Proofs.Pacing
import ChipEight.Proofs.Drawing
import ChipEight.Proofs.Redraws
import ChipEight.Proofs.Listings
import ChipEight.Proofs.Legibility
import ChipEight.Proofs.Dumps
import ChipEight.Proofs.Totals
import ChipEight.Proofs.Rates
import ChipEight.Proofs.Lag
import ChipEight.Proofs.Overlays
import ChipEight.Proofs.Flags
import ChipEight.Proofs.Saving
import ChipEight.Proofs.Traffic
import ChipEight.Proofs.Loading
import ChipEight.Proofs.Rows
import ChipEight.Proofs.Decimals
import ChipEight.Proofs.Keys
import ChipEight.Proofs.Steps
import ChipEight.Proofs.Tallies
