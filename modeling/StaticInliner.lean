import StaticInliner.Syntax.Tree
import StaticInliner.Syntax.Printer
import StaticInliner.Syntax.Walk
import StaticInliner.Syntax.Encoding
import StaticInliner.Json.Printer
import StaticInliner.Json.Parser
import StaticInliner.Validation
import StaticInliner.Scope.Resolve
import StaticInliner.Analysis.Free
import StaticInliner.Analysis.Body
import StaticInliner.Definition.Collect
import StaticInliner.ChangedBodies
import StaticInliner.NameSupply
import StaticInliner.Inline.Call
import StaticInliner.Inline.Program
import StaticInliner.Diagnostic.Report
import StaticInliner.Diagnostic.Explanation
import StaticInliner.Config.Toml
import StaticInliner.Text.Uppercase
import StaticInliner.Run
import StaticInliner.CommandLine.Command
import StaticInliner.Main
import StaticInliner.Proofs.Nodes
import StaticInliner.Proofs.FreshNames
import StaticInliner.Proofs.Analysis
import StaticInliner.Proofs.Expansion
import StaticInliner.Proofs.Marks
import StaticInliner.Proofs.Meaning.Expression
import StaticInliner.Proofs.Meaning.Statement
import StaticInliner.Proofs.Meaning.Purity
import StaticInliner.Proofs.Meaning.Simulation
import StaticInliner.Proofs.Meaning.Call
import StaticInliner.Proofs.Meaning.Substitution
import StaticInliner.Proofs.Meaning.Arguments
import StaticInliner.Proofs.Meaning.Direct
import StaticInliner.Proofs.Meaning.Runs
import StaticInliner.Proofs.Meaning.Scoping
import StaticInliner.Proofs.Meaning.Copying
import StaticInliner.Proofs.Meaning.Returns
import StaticInliner.Proofs.Meaning.Rebinding
import StaticInliner.Proofs.Meaning.Prologue
import StaticInliner.Proofs.Meaning.Drawn
import StaticInliner.Proofs.Meaning.Frame
import StaticInliner.Proofs.Meaning.Block
import StaticInliner.Proofs.Copies
import StaticInliner.Proofs.Resolution
import StaticInliner.Proofs.Changes
import StaticInliner.Proofs.RunInvariants
import StaticInliner.Proofs.Meaning.Inlinings
import StaticInliner.Proofs.Operands
import StaticInliner.Proofs.Ahead
import StaticInliner.Proofs.Tame
import StaticInliner.Proofs.Branches
import StaticInliner.Proofs.Hoisting
import StaticInliner.Proofs.FreeNames
import StaticInliner.Proofs.Hygiene
import StaticInliner.Proofs.References
import StaticInliner.Proofs.Encoding
import StaticInliner.Proofs.Collection
import StaticInliner.Proofs.Counts
import StaticInliner.Proofs.Targets
import StaticInliner.Proofs.Relabeling.Trees
import StaticInliner.Proofs.Relabeling.Analyses
import StaticInliner.Proofs.Relabeling.Copies
import StaticInliner.Proofs.Relabeling.Scopes
import StaticInliner.Proofs.Relabeling.Expansions
import StaticInliner.Proofs.Relabeling.Tables
import StaticInliner.Proofs.Relabeling.Walks
import StaticInliner.Proofs.Operators
import StaticInliner.Proofs.Relabeling.Supplies
import StaticInliner.Proofs.Reading.Parse
import StaticInliner.Proofs.BlockScopes
import StaticInliner.Proofs.Assigned
import StaticInliner.Proofs.LocalReads
import StaticInliner.Proofs.AlphaConversion
import StaticInliner.Proofs.ControlFlow
import StaticInliner.Proofs.Redeclarations
import StaticInliner.Proofs.Discarded
import StaticInliner.Proofs.FreeVariables
import StaticInliner.Proofs.Reading.LongestMatch
import StaticInliner.Proofs.Reading.Numerals
import StaticInliner.Proofs.Reading.Boundaries
import StaticInliner.Proofs.Reading.Leading
import StaticInliner.Proofs.Draws
import StaticInliner.Proofs.Malformations
import StaticInliner.Proofs.ScopeChains
import StaticInliner.Proofs.Attempts
import StaticInliner.Proofs.Preorder
import StaticInliner.Proofs.DottedNames
import StaticInliner.Proofs.Rebinding
