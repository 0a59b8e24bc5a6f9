import FiniteAutomata.Ascending
import FiniteAutomata.Automaton
import FiniteAutomata.CommandLine.Arguments
import FiniteAutomata.CommandLine.Files
import FiniteAutomata.CommandLine.Help
import FiniteAutomata.CommandLine.Run
import FiniteAutomata.Count
import FiniteAutomata.Determinize
import FiniteAutomata.Document.Basic
import FiniteAutomata.Document.Fault
import FiniteAutomata.Document.Reader
import FiniteAutomata.Document.Writer
import FiniteAutomata.Drawing
import FiniteAutomata.Family
import FiniteAutomata.Fragment
import FiniteAutomata.FreeRelation
import FiniteAutomata.Json.Display
import FiniteAutomata.Json.Double
import FiniteAutomata.Json.Numeral
import FiniteAutomata.Json.Reader
import FiniteAutomata.Json.StringBody
import FiniteAutomata.Json.Token
import FiniteAutomata.Json.Value
import FiniteAutomata.Json.Writer
import FiniteAutomata.Label
import FiniteAutomata.Main
import FiniteAutomata.Mark
import FiniteAutomata.MoveRelation
import FiniteAutomata.Pattern
import FiniteAutomata.Pattern.Build
import FiniteAutomata.Proofs.BuildOrder
import FiniteAutomata.Proofs.DeterminizeTwice
import FiniteAutomata.Proofs.Document
import FiniteAutomata.Proofs.DocumentFields
import FiniteAutomata.Proofs.Exploration
import FiniteAutomata.Proofs.FragmentLanguage
import FiniteAutomata.Proofs.Invariants
import FiniteAutomata.Proofs.JsonReading
import FiniteAutomata.Proofs.JsonText
import FiniteAutomata.Proofs.Lexemes
import FiniteAutomata.Proofs.Loading
import FiniteAutomata.Proofs.Lockstep
import FiniteAutomata.Proofs.Machine
import FiniteAutomata.Proofs.Normalization
import FiniteAutomata.Proofs.PatternLanguage
import FiniteAutomata.Proofs.Pipeline
import FiniteAutomata.Proofs.Reachable
import FiniteAutomata.Proofs.Renumbering
import FiniteAutomata.Proofs.RoundTrip
import FiniteAutomata.Proofs.SameParts
import FiniteAutomata.Proofs.SubsetAutomaton
import FiniteAutomata.Proofs.Success
import FiniteAutomata.Proofs.Trail
import FiniteAutomata.Proofs.WellFormed
import FiniteAutomata.Reach
import FiniteAutomata.Recipe
import FiniteAutomata.Run
import FiniteAutomata.Settings
import FiniteAutomata.Sorting
import FiniteAutomata.Table
import FiniteAutomata.Text.Identifier
import FiniteAutomata.Text.Line
import FiniteAutomata.Text.Quoted
import FiniteAutomata.Text.Ranges
import FiniteAutomata.Text.Unprintable
import FiniteAutomata.Workspace
import FiniteAutomata.Proofs.Deterministic
import FiniteAutomata.Proofs.Embedding
import FiniteAutomata.Proofs.Builders
import FiniteAutomata.Proofs.Collections
import FiniteAutomata.Proofs.Delimited
import FiniteAutomata.Proofs.DrawingText
import FiniteAutomata.Proofs.TableLayout
import FiniteAutomata.Proofs.TableText
import FiniteAutomata.Proofs.FragmentShape
import FiniteAutomata.Proofs.FamilySubsets
import FiniteAutomata.Proofs.FamilyLowerBound
import FiniteAutomata.Proofs.Engines
import FiniteAutomata.Proofs.Bracketing
import FiniteAutomata.Proofs.Growth
import FiniteAutomata.Proofs.DrawingArrows
import FiniteAutomata.Proofs.DrawingLabels
import FiniteAutomata.Proofs.TableColumns
import FiniteAutomata.Proofs.PatternBuilders
import FiniteAutomata.Proofs.WordChain
import FiniteAutomata.Proofs.PendingStates
import FiniteAutomata.Proofs.FreeListing
import FiniteAutomata.Proofs.WriteHistory
