import Shading.Session
import Shading.Source.Lines
import Shading.Syntax.Equality
import Shading.Syntax.Path
import Shading.Syntax.Relabel
import Shading.Proofs.Except
import Shading.Proofs.Print.Relaxed
import Shading.Proofs.Extract.Index
import Shading.Proofs.Extract.Reaches
import Shading.Proofs.Extract.Entry
import Shading.Proofs.Extract.Emission
import Shading.Proofs.Extract.Parts
import Shading.Proofs.Extract.Closed
import Shading.Proofs.Extract.Success
import Shading.Proofs.Options.Runs
import Shading.Proofs.Parse.Checks
import Shading.Proofs.Options.Placement
import Shading.Proofs.Extract.Free
import Shading.Proofs.Extract.Lexical
import Shading.Proofs.Options.Scoping
import Shading.Proofs.Options.Steady
import Shading.Proofs.Options.Mentions
import Shading.Proofs.Options.Chosen
import Shading.Proofs.Extract.Unreached
import Shading.Proofs.Options.Outside
import Shading.Proofs.Options.TwoPass
import Shading.Proofs.Options.Fusion
import Shading.Proofs.Options.Elided
import Shading.Proofs.Extract.Calls
import Shading.Proofs.Glsl.Order
import Shading.Proofs.Glsl.Definitions
import Shading.Proofs.Glsl.Calls
import Shading.Proofs.Glsl.Topological
import Shading.Proofs.Glsl.Declarations
import Shading.Proofs.Glsl.Foreseen
import Shading.Proofs.Glsl.Flattening
import Shading.Proofs.Glsl.Upgrade
import Shading.Proofs.Glsl.WrittenTypes
import Shading.Proofs.Glsl.Structs
import Shading.Proofs.Syntax.Rename
import Shading.Proofs.Glsl.References
import Shading.Proofs.Binary32.Rounding
import Shading.Proofs.Binary32.Shortest
import Shading.Proofs.Token.Digits
import Shading.Proofs.Token.Literal
import Shading.Proofs.Token.Float
import Shading.Proofs.Token.Spelling
import Shading.Proofs.Token.Reading
import Shading.Proofs.Token.Misreading
import Shading.Proofs.Parse.Grammar
import Shading.Proofs.Parse.Derived
import Shading.Proofs.Parse.Complete
import Shading.Proofs.Print.Kinds
import Shading.Proofs.Print.Pieces
import Shading.Proofs.Print.Phrase
import Shading.Proofs.Print.Expr
import Shading.Proofs.Parse.Marks
import Shading.Proofs.Parse.Canonical
import Shading.Proofs.Parse.Legible
import Shading.Proofs.Print.Declaration
import Shading.Proofs.Print.Stmt
import Shading.Proofs.Parse.Attribute
import Shading.Proofs.Parse.StmtLegible
import Shading.Proofs.Parse.ItemLegible
import Shading.Proofs.Glsl.BeforeUse
import Shading.Proofs.Glsl.Initializers
import Shading.Proofs.Parse.Inclusion
import Shading.Proofs.Parse.Expansion
import Shading.Proofs.Parse.Exact
import Shading.Proofs.Parse.ItemReads
import Shading.Proofs.Token.Spellable
import Shading.Proofs.Token.Pieces
import Shading.Proofs.Print.Legible
import Shading.Proofs.Print.RoundTrip
import Shading.Proofs.Print.Tokenized
import Shading.Proofs.Extract.Kept
import Shading.Proofs.Extract.Interface
import Shading.Proofs.Extract.Alike
import Shading.Proofs.Extract.Texts
import Shading.Proofs.Extract.Idempotent
import Shading.Proofs.Parallel
import Shading.Proofs.Syntax.ErasedNodes
import Shading.Proofs.Parse.Places
import Shading.Proofs.Parse.ItemPlaces
import Shading.Proofs.Parse.LibraryPlaces
import Shading.Proofs.Parse.Located
import Shading.Proofs.Options.Places
import Shading.Proofs.Extract.Places
import Shading.Proofs.Print.Places
import Shading.Proofs.Print.Refusals
import Shading.Proofs.Glsl.Places
import Shading.Proofs.Places
import Shading.Proofs.Parse.Placed
import Shading.Proofs.Options.Placed
import Shading.Proofs.Extract.Presents
import Shading.Proofs.Token.Partition
import Shading.Proofs.Parse.ItemLocal
import Shading.Proofs.Parse.Closes
import Shading.Proofs.Parse.Reordered
import Shading.Proofs.Extract.LastLoad
import Shading.Proofs.Coherence
import Shading.Proofs.Print.ReadsBack
import Shading.Proofs.Syntax.Outline
import Shading.Proofs.Parse.Holds
import Shading.Proofs.Parse.Lays
import Shading.Proofs.Parse.ItemLays
import Shading.Proofs.Options.Arithmetic
import Shading.Proofs.Options.Bindings
import Shading.Proofs.Options.Replaced
import Shading.Proofs.Options.Literals
import Shading.Proofs.Parse.Advances
import Shading.Proofs.Parse.Progress
import Shading.Proofs.Parse.Bounded
import Shading.Proofs.Token.Integers
import Shading.Proofs.Parse.Surroundings
import Shading.Proofs.Parse.Limits
import Shading.Proofs.Token.Separated
import Shading.Proofs.Print.Lines
import Shading.Proofs.Print.Clear
import Shading.Proofs.Print.LineEnds
import Shading.Proofs.Glsl.LineEnds
import Shading.Proofs.Parse.Clear
import Shading.Proofs.Emitted
import Shading.Proofs.Parse.Lookahead
import Shading.Proofs.Glsl.Search
import Shading.Proofs.Extract.Tables
import Shading.Proofs.Syntax.Traversals
import Shading.Proofs.Extract.Arena
