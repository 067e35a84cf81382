import EnumCodegen.Code.Writer
import EnumCodegen.Main
import EnumCodegen.Run.World
import EnumCodegen.Text.Utf8.RoundTrip
import EnumCodegen.Proofs.Run.Failure
import EnumCodegen.Proofs.Run.History
import EnumCodegen.Proofs.Code.Lines
import EnumCodegen.Proofs.Code.Blocks
import EnumCodegen.Proofs.Description.Meaning
import EnumCodegen.Proofs.Lookup.Aliases
import EnumCodegen.Proofs.Lookup.Collisions
import EnumCodegen.Proofs.Emission.Parts
import EnumCodegen.Proofs.Emission.Tables
import EnumCodegen.Proofs.Code.Counts
import EnumCodegen.Proofs.Emission.Helpers
import EnumCodegen.Proofs.Code.Conditionals
import EnumCodegen.Proofs.Emission.Nesting
import EnumCodegen.Proofs.Description.NormalForm
import EnumCodegen.Proofs.Description.Sections
import EnumCodegen.Proofs.Emission.Sections
import EnumCodegen.Proofs.Storage.Components
import EnumCodegen.Proofs.Storage.Places
import EnumCodegen.Proofs.Storage.Ancestors
import EnumCodegen.Proofs.Run.Settling
import EnumCodegen.Proofs.Run.Order
import EnumCodegen.Proofs.Description.Refusals
import EnumCodegen.Proofs.Description.Composition
import EnumCodegen.Proofs.Description.Comments
import EnumCodegen.Proofs.Storage.Targets
import EnumCodegen.Proofs.Run.Reconciling
import EnumCodegen.Proofs.Description.Entries
import EnumCodegen.Proofs.Description.Layout
import EnumCodegen.Proofs.Emission.Locality
import EnumCodegen.Proofs.Emission.Indentation
import EnumCodegen.Proofs.Code.Wrapping
import EnumCodegen.Proofs.Emission.Conditions
import EnumCodegen.Proofs.Lookup.Comparison
import EnumCodegen.Proofs.Code.Writing
import EnumCodegen.Proofs.CommandLine.WorkDir
import EnumCodegen.Proofs.Lookup.Traits
import EnumCodegen.Proofs.Run.Recovery
import EnumCodegen.Proofs.Emission.Traits
import EnumCodegen.Proofs.Emission.Literals
import EnumCodegen.Proofs.Run.FreshToken
