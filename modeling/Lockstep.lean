import Lockstep.Closure
import Lockstep.Conditions
import Lockstep.Error
import Lockstep.Expr
import Lockstep.Expr.Assembly
import Lockstep.Instr
import Lockstep.Machine
import Lockstep.Program
import Lockstep.Program.Builder
import Lockstep.Program.Flatten
import Lockstep.Program.Freeze
import Lockstep.Program.Lead
import Lockstep.Proofs.Accepting
import Lockstep.Proofs.Advancing
import Lockstep.Proofs.Agreement
import Lockstep.Proofs.Assembling
import Lockstep.Proofs.Backtracking
import Lockstep.Proofs.Backwards
import Lockstep.Proofs.Bounds
import Lockstep.Proofs.Budget
import Lockstep.Proofs.Buffers
import Lockstep.Proofs.Candidates
import Lockstep.Proofs.Choice
import Lockstep.Proofs.Classes
import Lockstep.Proofs.Copies
import Lockstep.Proofs.Counterparts
import Lockstep.Proofs.Custody
import Lockstep.Proofs.Decoding
import Lockstep.Proofs.DepthFirst
import Lockstep.Proofs.Encoding
import Lockstep.Proofs.Enumeration
import Lockstep.Proofs.Extent
import Lockstep.Proofs.Finishing
import Lockstep.Proofs.Flattening
import Lockstep.Proofs.Groups
import Lockstep.Proofs.Handover
import Lockstep.Proofs.History
import Lockstep.Proofs.Invariants
import Lockstep.Proofs.Iterations
import Lockstep.Proofs.Language
import Lockstep.Proofs.Layers
import Lockstep.Proofs.Layouts
import Lockstep.Proofs.Leading
import Lockstep.Proofs.Limits
import Lockstep.Proofs.Linking
import Lockstep.Proofs.Methods
import Lockstep.Proofs.Offsets
import Lockstep.Proofs.Outcome
import Lockstep.Proofs.Ownership
import Lockstep.Proofs.Passage
import Lockstep.Proofs.Presence
import Lockstep.Proofs.Priority
import Lockstep.Proofs.Recognition
import Lockstep.Proofs.Recursion
import Lockstep.Proofs.Reference
import Lockstep.Proofs.Refinement
import Lockstep.Proofs.Rounds
import Lockstep.Proofs.Savings
import Lockstep.Proofs.Selection
import Lockstep.Proofs.Seniority
import Lockstep.Proofs.Shapes
import Lockstep.Proofs.Skipping
import Lockstep.Proofs.Spelling
import Lockstep.Proofs.Splicing
import Lockstep.Proofs.Stages
import Lockstep.Proofs.Starts
import Lockstep.Proofs.Strings
import Lockstep.Proofs.Sweeping
import Lockstep.Proofs.Tracking
import Lockstep.Proofs.Transcoding
import Lockstep.Proofs.Unrolling
import Lockstep.Proofs.Walk
import Lockstep.Proofs.WellFormed
import Lockstep.Regex
import Lockstep.Regex.Captures
import Lockstep.RunList
import Lockstep.Search
import Lockstep.Slots
import Lockstep.Sweep
import Lockstep.Symbol
import Lockstep.Symbol.CaseMapping
import Lockstep.Symbol.Shapeless
import Lockstep.SymbolClass
import Lockstep.SymbolClass.Normal
import Lockstep.Text
import Lockstep.Text.Occurrence
import Lockstep.Text.Quoted
import Lockstep.Text.Utf16
import Lockstep.Text.Utf8
