import BoundedCheck.Backend.Recorder
import BoundedCheck.Design.Run
import BoundedCheck.Design.WellFormed
import BoundedCheck.Enumerator.History
import BoundedCheck.Main
import BoundedCheck.Proofs.Words
import BoundedCheck.Proofs.Terms
import BoundedCheck.Proofs.Cones
import BoundedCheck.Proofs.Counting
import BoundedCheck.Proofs.Arena
import BoundedCheck.Proofs.Decision
import BoundedCheck.Proofs.Widths
import BoundedCheck.Proofs.Reading
import BoundedCheck.Proofs.Parallel
import BoundedCheck.Proofs.Scanning
import BoundedCheck.Proofs.Printing
import BoundedCheck.Proofs.Operators
import BoundedCheck.Proofs.Runs
import BoundedCheck.Proofs.Origins
import BoundedCheck.Proofs.Frames
import BoundedCheck.Proofs.Preparing
import BoundedCheck.Proofs.Stepping
import BoundedCheck.Proofs.Unrolling
import BoundedCheck.Proofs.Queries
import BoundedCheck.Proofs.Verdicts
import BoundedCheck.Proofs.Refusals
import BoundedCheck.Proofs.Embedding
import BoundedCheck.Proofs.Mirroring
import BoundedCheck.Proofs.Splicing
import BoundedCheck.Proofs.Models
import BoundedCheck.Proofs.Histories
import BoundedCheck.Proofs.Requests
import BoundedCheck.Proofs.Naming
import BoundedCheck.Proofs.Scopes
import BoundedCheck.Proofs.Typing
import BoundedCheck.Proofs.Arithmetic
import BoundedCheck.Proofs.Emission
import BoundedCheck.Proofs.LastModel
import BoundedCheck.Proofs.Places
import BoundedCheck.Proofs.Blaming
import BoundedCheck.Proofs.Tokens
import BoundedCheck.Proofs.Continuing
import BoundedCheck.Proofs.Constants
import BoundedCheck.Proofs.Layout
import BoundedCheck.Proofs.Requirements
import BoundedCheck.Proofs.Resuming
import BoundedCheck.Proofs.Coupling
import BoundedCheck.Proofs.Symbols
import BoundedCheck.Proofs.Limits
import BoundedCheck.Proofs.Ticking
import BoundedCheck.Proofs.Machine
import BoundedCheck.Proofs.MachineReading
import BoundedCheck.Proofs.MachineSearch
import BoundedCheck.Proofs.Growing
import BoundedCheck.Proofs.Faults
import BoundedCheck.Proofs.Outcomes
import BoundedCheck.Proofs.Persistence
import BoundedCheck.Proofs.Traversal
import BoundedCheck.Proofs.Enumeration
