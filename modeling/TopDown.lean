import TopDown.Analysis.First
import TopDown.Analysis.Follow
import TopDown.Analysis.Table
import TopDown.Automaton.Basic
import TopDown.Automaton.Run
import TopDown.CommandLine
import TopDown.Dict
import TopDown.Family
import TopDown.Fixpoint
import TopDown.Grammar.Basic
import TopDown.Grammar.Derivation
import TopDown.Grammar.Draft
import TopDown.Grammar.Production
import TopDown.Grammar.Sample
import TopDown.Grammar.Tree
import TopDown.ListSet
import TopDown.Log
import TopDown.Main
import TopDown.Parser
import TopDown.Proofs.Agreement
import TopDown.Proofs.Derivation
import TopDown.Proofs.Draft
import TopDown.Proofs.First
import TopDown.Proofs.Follow
import TopDown.Proofs.Growth
import TopDown.Proofs.LeftRecursion
import TopDown.Proofs.Limit
import TopDown.Proofs.Linear
import TopDown.Proofs.Monotone
import TopDown.Proofs.Notation
import TopDown.Proofs.Padding
import TopDown.Proofs.Passes
import TopDown.Proofs.Path
import TopDown.Proofs.Recognition
import TopDown.Proofs.Record
import TopDown.Proofs.Rejection
import TopDown.Proofs.Safety
import TopDown.Proofs.Script
import TopDown.Proofs.Sentence
import TopDown.Proofs.Table
import TopDown.Proofs.Trace
import TopDown.Proofs.Unambiguity
import TopDown.Report
import TopDown.Sentence.Generator
import TopDown.Sentence.Source
import TopDown.Symbol
import TopDown.Text
