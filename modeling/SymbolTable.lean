import SymbolTable.Tree.Ancestry
import SymbolTable.Tree.Coordinate
import SymbolTable.Tree.Traversal
import SymbolTable.Tree.Consistency
import SymbolTable.Tree.Outline
import SymbolTable.Tree.Graph
import SymbolTable.Tree.Copy
import SymbolTable.Text.Blank
import SymbolTable.Text.Replace
import SymbolTable.Json.Printer
import SymbolTable.Json.Reader
import SymbolTable.Library.Json
import SymbolTable.Declaration.Event
import SymbolTable.Declaration.Json
import SymbolTable.Analysis.Pass
import SymbolTable.Regex.Basic
import SymbolTable.Text.Letter
import SymbolTable.Java.Parse
import SymbolTable.Application.Report
import SymbolTable.Files.Volume
import SymbolTable.CommandLine.Run
import SymbolTable.Main
import SymbolTable.Proofs.Tree.Growth
import SymbolTable.Proofs.Tree.Path
import SymbolTable.Proofs.Tree.QualifiedName
import SymbolTable.Proofs.Tree.Entry
import SymbolTable.Proofs.Tree.Merge
import SymbolTable.Proofs.Tree.Outline
import SymbolTable.Proofs.Analysis.Lockstep
import SymbolTable.Proofs.Analysis.Alike
import SymbolTable.Proofs.Analysis.Placement
import SymbolTable.Proofs.Analysis.DeclarationWalk
import SymbolTable.Proofs.Analysis.UnitTree
import SymbolTable.Proofs.Analysis.Skeleton
import SymbolTable.Proofs.Analysis.Correspondence
import SymbolTable.Proofs.Tree.Inclusion
import SymbolTable.Proofs.Analysis.Session
import SymbolTable.Proofs.Analysis.Fixpoint
import SymbolTable.Proofs.Analysis.Concordance
import SymbolTable.Proofs.Analysis.FileOrder
import SymbolTable.Proofs.Analysis.Exposure
import SymbolTable.Proofs.Analysis.Anonymity
import SymbolTable.Proofs.Tree.Search
import SymbolTable.Proofs.Analysis.Selection
import SymbolTable.Proofs.Analysis.Acts
import SymbolTable.Proofs.Analysis.ProgramScope
import SymbolTable.Proofs.Analysis.Edges
import SymbolTable.Proofs.Analysis.Bodies
import SymbolTable.Proofs.Analysis.Steady
import SymbolTable.Proofs.Analysis.Constructors
import SymbolTable.Proofs.Tree.Height
import SymbolTable.Proofs.Tree.Consistency
import SymbolTable.Proofs.Tree.Absorption
import SymbolTable.Proofs.Tree.Union
import SymbolTable.Proofs.Analysis.Idempotence
import SymbolTable.Proofs.Analysis.CursorPath
import SymbolTable.Proofs.Analysis.SearchOrder
import SymbolTable.Proofs.Analysis.Arrival
import SymbolTable.Proofs.Analysis.Midway
import SymbolTable.Proofs.Analysis.OwnPackage
import SymbolTable.Proofs.Analysis.Interchange
import SymbolTable.Proofs.Analysis.Reordering
import SymbolTable.Proofs.Analysis.Additions
import SymbolTable.Proofs.Analysis.DeclarationOrder
import SymbolTable.Proofs.Analysis.EarlyReading
import SymbolTable.Proofs.Analysis.SiteEdges
import SymbolTable.Proofs.Analysis.SiteWalk
import SymbolTable.Proofs.Analysis.EdgeOrder
import SymbolTable.Proofs.Analysis.Shape
import SymbolTable.Proofs.Analysis.Bare
import SymbolTable.Proofs.Tree.Walks
import SymbolTable.Proofs.Library.RoundTrip
import SymbolTable.Proofs.Analysis.QualifiedLookup
import SymbolTable.Proofs.Tree.Assembly
import SymbolTable.Proofs.Analysis.Upkeep
import SymbolTable.Proofs.Tree.Segments
import SymbolTable.Proofs.Analysis.Delimiter
import SymbolTable.Proofs.Analysis.DelimiterWalk
import SymbolTable.Proofs.Analysis.Header
import SymbolTable.Proofs.Analysis.Isolation
import SymbolTable.Proofs.Analysis.Audit
import SymbolTable.Proofs.Analysis.CursorReturn
import SymbolTable.Proofs.Files.PathOrder
import SymbolTable.Proofs.Revision.FileOrder
import SymbolTable.Proofs.Revision.Framing
import SymbolTable.Proofs.Glob.Language
import SymbolTable.Proofs.Files.Discovery
import SymbolTable.Proofs.Application.PrivateAccess
import SymbolTable.Proofs.Analysis.Overloads
import SymbolTable.Proofs.Analysis.TypeErasure
import SymbolTable.Proofs.Analysis.FailedFiles
import SymbolTable.Proofs.Java.CleanTree
import SymbolTable.Proofs.Tree.Graph
import SymbolTable.Proofs.Tree.Isomorphism
import SymbolTable.Proofs.Tree.Relocation
import SymbolTable.Proofs.Tree.Ancestry
import SymbolTable.Proofs.Declaration.Construct
import SymbolTable.Proofs.Declaration.Nesting
import SymbolTable.Proofs.Tree.Rows
import SymbolTable.Proofs.Application.UpwardSearch
