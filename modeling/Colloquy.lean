import Colloquy.Binding.Generate
import Colloquy.Binding.Meaning
import Colloquy.Call.Client
import Colloquy.Message.Decoder
import Colloquy.Message.Encoder
import Colloquy.Native.Spelling
import Colloquy.Program.Text
import Colloquy.Sample.Ledger
import Colloquy.Sample.Types
import Colloquy.Source.Literal
import Colloquy.Subtype
import Colloquy.Table.Reach
import Colloquy.Value.Annotate
import Colloquy.Value.Text
import Colloquy.Wire.Reader
import Colloquy.Workload
import Colloquy.Proofs.Search.Basic
import Colloquy.Proofs.Search.Rounds
import Colloquy.Proofs.Results
import Colloquy.Proofs.Search.Evidence
import Colloquy.Proofs.Table.Resolve
import Colloquy.Proofs.Table.WellFormed
import Colloquy.Proofs.Table.Chains
import Colloquy.Proofs.Table.Validation
import Colloquy.Proofs.Subtype.Comparison
import Colloquy.Proofs.Subtype.Fuel
import Colloquy.Proofs.Subtype.Relation
import Colloquy.Proofs.Message.Header
import Colloquy.Proofs.Table.Cycles
import Colloquy.Proofs.Subtype.Ending
import Colloquy.Proofs.Message.Spans
import Colloquy.Proofs.Message.Coercion
import Colloquy.Proofs.Message.Coercing
import Colloquy.Proofs.Message.Decoding
import Colloquy.Proofs.Wire.Writing
import Colloquy.Proofs.Wire.Numerals
import Colloquy.Proofs.Wire.Registers
import Colloquy.Proofs.Message.Entries
import Colloquy.Proofs.Message.Sections
import Colloquy.Proofs.Message.Placing
import Colloquy.Proofs.Message.Images
import Colloquy.Proofs.Message.Written
import Colloquy.Proofs.Message.Normal
import Colloquy.Proofs.Message.Counting
import Colloquy.Proofs.Message.RoundTrip
import Colloquy.Proofs.Message.Encoding
import Colloquy.Proofs.Message.Failing
import Colloquy.Proofs.Message.Skipping
import Colloquy.Proofs.Message.InStep
import Colloquy.Proofs.Message.WireTypes
import Colloquy.Proofs.Wire.Local
import Colloquy.Proofs.Message.PrefixFree
import Colloquy.Proofs.Source.Grammar
import Colloquy.Proofs.Source.Lexemes
import Colloquy.Proofs.Source.Lexing
import Colloquy.Proofs.Ty.Same
import Colloquy.Proofs.Source.Spelling
import Colloquy.Proofs.Source.Soundness
import Colloquy.Proofs.Source.Tiling
import Colloquy.Proofs.Source.Acceptance
import Colloquy.Proofs.Table.Same
import Colloquy.Proofs.Program.Resolving
import Colloquy.Proofs.Program.Writable
import Colloquy.Proofs.Program.RoundTrip
import Colloquy.Proofs.Principal.Text
import Colloquy.Proofs.Principal.Registers
import Colloquy.Proofs.Principal.Canonical
import Colloquy.Proofs.Source.Literals
import Colloquy.Proofs.Value.Restoring
import Colloquy.Proofs.Value.Literals
import Colloquy.Proofs.Value.Spelling
import Colloquy.Proofs.Value.RoundTrip
import Colloquy.Proofs.Message.Opening
import Colloquy.Proofs.Message.Settling
import Colloquy.Proofs.Message.Settled
import Colloquy.Proofs.Message.Stability
import Colloquy.Proofs.Message.WireForm
import Colloquy.Proofs.Message.Described
import Colloquy.Proofs.Message.Renumbering
import Colloquy.Proofs.Message.CanonicalForm
import Colloquy.Proofs.Arrangement
import Colloquy.Proofs.Ty.Arrangement
import Colloquy.Proofs.Table.Arrangement
import Colloquy.Proofs.Outcomes
import Colloquy.Proofs.Message.Moving
import Colloquy.Proofs.Value.Arrangement
import Colloquy.Proofs.Message.Likeness
import Colloquy.Proofs.Message.Arrangement
import Colloquy.Proofs.Value.Parts
import Colloquy.Proofs.Value.Rereading
import Colloquy.Proofs.Value.Comparison
import Colloquy.Proofs.Value.Equality
import Colloquy.Proofs.Message.Equality
import Colloquy.Proofs.Value.Reparsing
import Colloquy.Proofs.Message.Guarding
import Colloquy.Proofs.Message.Limits
import Colloquy.Proofs.Value.Depth
import Colloquy.Proofs.Message.Nesting
import Colloquy.Proofs.Message.DepthLimit
import Colloquy.Proofs.Message.Consuming
import Colloquy.Proofs.Wire.Taking
import Colloquy.Proofs.Message.ZeroSize
import Colloquy.Proofs.Table.Reach
import Colloquy.Proofs.Binding.Names
import Colloquy.Proofs.Binding.Drafting
import Colloquy.Proofs.Binding.Declaring
import Colloquy.Proofs.Binding.Declared
import Colloquy.Proofs.Binding.Containment
import Colloquy.Proofs.Value.Keeping
import Colloquy.Proofs.Value.Floats
import Colloquy.Proofs.Table.Naming
import Colloquy.Proofs.Table.Endings
import Colloquy.Proofs.Binding.Naming
import Colloquy.Proofs.Program.Methods
import Colloquy.Proofs.Binding.Functions
import Colloquy.Proofs.Table.Exposure
import Colloquy.Proofs.Binding.Unboxed
import Colloquy.Proofs.Binding.Compounds
import Colloquy.Proofs.Binding.Capture
import Colloquy.Proofs.Binding.Layout
import Colloquy.Proofs.Table.Replacing
import Colloquy.Proofs.Binding.Twins
import Colloquy.Proofs.Binding.Respelling
