import ContentAutomata.Checker
import ContentAutomata.Position.Bounded
import ContentAutomata.Proofs.Run.Verdicts
import ContentAutomata.Proofs.Builder.Caches
import ContentAutomata.Proofs.Builder.History
import ContentAutomata.Proofs.Language.Runs
import ContentAutomata.Proofs.Language.Tame
import ContentAutomata.Proofs.Language.Cover
import ContentAutomata.Proofs.Tree.Squeezing
import ContentAutomata.Proofs.Attribution.Squeezed
import ContentAutomata.Proofs.Attribution.Approximation
import ContentAutomata.Proofs.Automaton.Words
import ContentAutomata.Proofs.Automaton.Tables
import ContentAutomata.Proofs.Position.Refinement
import ContentAutomata.Proofs.Run.Copies
import ContentAutomata.Proofs.Run.Expectations
import ContentAutomata.Proofs.Tree.Spelling
import ContentAutomata.Proofs.Builder.Budget
import ContentAutomata.Proofs.Builder.Affordable
import ContentAutomata.Proofs.Builder.Depth
import ContentAutomata.Proofs.Wildcard.Attribute
import ContentAutomata.Proofs.Builder.Vanishing
import ContentAutomata.Proofs.Run.Counters
import ContentAutomata.Proofs.Tree.Renumbering
