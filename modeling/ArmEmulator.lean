import ArmEmulator.Device.Bench
import ArmEmulator.Guest.Assembly
import ArmEmulator.Host.Assembler
import ArmEmulator.Host.Decoding
import ArmEmulator.Main
import ArmEmulator.Proofs.Emulator.Halting
import ArmEmulator.Proofs.Emulator.LifeCycle
import ArmEmulator.Proofs.Emulator.Snapshot
import ArmEmulator.Proofs.Emulator.Accounting
import ArmEmulator.Proofs.Guest.Assembly
import ArmEmulator.Proofs.Emulator.Faults
import ArmEmulator.Proofs.Block.Discipline
import ArmEmulator.Proofs.Block.Native
import ArmEmulator.Proofs.Guest.Decoding
import ArmEmulator.Proofs.Bus.History
import ArmEmulator.Proofs.Emulator.Mode
import ArmEmulator.Proofs.Emulator.Fetching
import ArmEmulator.Proofs.Emulator.Generations
import ArmEmulator.Proofs.Guest.Arithmetic
import ArmEmulator.Proofs.Guest.Comparison
import ArmEmulator.Proofs.Emulator.Atomicity
import ArmEmulator.Proofs.Guest.Outcomes
import ArmEmulator.Proofs.Bus.Resolution
import ArmEmulator.Proofs.Block.Leaving
import ArmEmulator.Proofs.Guest.Stacking
import ArmEmulator.Proofs.Bus.Watching
import ArmEmulator.Proofs.Emulator.Loading
import ArmEmulator.Proofs.Host.Decoding
import ArmEmulator.Proofs.Configuration
import ArmEmulator.Proofs.Host.Fixups
import ArmEmulator.Proofs.Guest.Listing
import ArmEmulator.Proofs.Guest.Alignment
import ArmEmulator.Proofs.Emulator.Alignment
import ArmEmulator.Proofs.Translator.Reporting
import ArmEmulator.Proofs.CodeCache.Log
import ArmEmulator.Proofs.Guest.Immediates
