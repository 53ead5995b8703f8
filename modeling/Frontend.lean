import Frontend.CommandLine
import Frontend.Main
import Frontend.Proofs.Parser.EndOfInput
import Frontend.Proofs.Tree.Nesting
import Frontend.Proofs.Unit.Independence
import Frontend.Proofs.Unit.Diagnostics
import Frontend.Proofs.Unit.Refusals
import Frontend.Proofs.Tree.Anchors
import Frontend.Proofs.Unit.Sources
import Frontend.Proofs.Command.Outcomes
import Frontend.Proofs.FileTree.Rewriting
import Frontend.Proofs.Tree.Canonical
import Frontend.Proofs.Command.Formatting
import Frontend.Proofs.Tree.Nodes
import Frontend.Proofs.Parser.Ordering
import Frontend.Proofs.Unit.Lines
import Frontend.Proofs.Command.Watching
import Frontend.Proofs.Command.Selection
import Frontend.Proofs.Parser.Climbing
import Frontend.Proofs.Parser.Inference
import Frontend.Proofs.Unit.Offsets
import Frontend.Proofs.Parser.SignatureForms
import Frontend.Proofs.Parser.Spacing
import Frontend.Proofs.Source.Directories
import Frontend.Proofs.Command.Finding
import Frontend.Proofs.Config.Merging
import Frontend.Proofs.Parser.Objections
import Frontend.Proofs.Parser.Logged
import Frontend.Proofs.Parser.Progress
import Frontend.Proofs.Token.Literals
