import FormalLanguages.Automaton.Path
import FormalLanguages.Grammar.Derivation
import FormalLanguages.Main
import FormalLanguages.Proofs.Automaton.Determinisation
import FormalLanguages.Proofs.Automaton.DeterminisedPairs
import FormalLanguages.Proofs.Automaton.Emptiness
import FormalLanguages.Proofs.Automaton.Equivalence.ClassOrder
import FormalLanguages.Proofs.Automaton.Equivalence.Refutations
import FormalLanguages.Proofs.Automaton.Isomorphism
import FormalLanguages.Proofs.Automaton.Redeterminisation
import FormalLanguages.Proofs.Automaton.Table.RoundTrip
import FormalLanguages.Proofs.Automaton.Table.Validity
import FormalLanguages.Proofs.Automaton.Walks
import FormalLanguages.Proofs.Command.PrintedTables
import FormalLanguages.Proofs.Grammar.Histories
import FormalLanguages.Proofs.Grammar.LineFormat.NormalForm
import FormalLanguages.Proofs.Grammar.LineFormat.RoundTrip
import FormalLanguages.Proofs.Grammar.NormalForm.RecordedSteps
import FormalLanguages.Proofs.Grammar.NormalForm.SinglePasses
import FormalLanguages.Proofs.Grammar.ParseTrees
import FormalLanguages.Proofs.Grammar.Parsing
import FormalLanguages.Proofs.Grammar.Productivity
import FormalLanguages.Proofs.Grammar.ReusedNames
import FormalLanguages.Proofs.Name.RoundTrip
import FormalLanguages.Proofs.Reachability.Rounds
import FormalLanguages.Proofs.Regex.EliminationSteps
import FormalLanguages.Proofs.Regex.Emptiness
import FormalLanguages.Proofs.Regex.Extraction
import FormalLanguages.Proofs.Regex.Pairing
import FormalLanguages.Proofs.Regex.Parsing
import FormalLanguages.Proofs.Regex.PrintedExtraction
import FormalLanguages.Proofs.Regex.Renesting
import FormalLanguages.Proofs.Regex.Rests
import FormalLanguages.Proofs.Regex.Settling
import FormalLanguages.Proofs.Regex.Synthesis
import FormalLanguages.Proofs.Text.LongestFirst
import FormalLanguages.Regex.GraphPath
