import ConfigTree.Session
import ConfigTree.FileSystem
import ConfigTree.CommandLine
import ConfigTree.Main
import ConfigTree.Proofs.Outcome
import ConfigTree.Proofs.PublicSubset
import ConfigTree.Proofs.Faults
import ConfigTree.Proofs.Composition
import ConfigTree.Proofs.Visits
import ConfigTree.Proofs.Provenance
import ConfigTree.Proofs.Precedence
import ConfigTree.Proofs.Noninterference
import ConfigTree.Proofs.Sessions
import ConfigTree.Proofs.Cycles
import ConfigTree.Proofs.Grammar
import ConfigTree.Proofs.Blame
import ConfigTree.Proofs.Spelling
import ConfigTree.Proofs.Walk
import ConfigTree.Proofs.Reordering
import ConfigTree.Proofs.MemberOrder
import ConfigTree.Proofs.Printing
import ConfigTree.Proofs.RoundTrip
import ConfigTree.Proofs.Agreement
import ConfigTree.Proofs.Residue
import ConfigTree.Proofs.Respelling
import ConfigTree.Proofs.Rendering
import ConfigTree.Proofs.AddedMarks
import ConfigTree.Proofs.InlinedBlocks
import ConfigTree.Proofs.Associativity
import ConfigTree.Proofs.RepeatedIncludes
import ConfigTree.Proofs.PublicContext
import ConfigTree.Proofs.OutermostMarks
import ConfigTree.Proofs.Overlay
import ConfigTree.Proofs.CoveredPlaces
import ConfigTree.Proofs.Log
import ConfigTree.Proofs.Termination
import ConfigTree.Proofs.AbsoluteText
import ConfigTree.Proofs.PrintedPlaces
