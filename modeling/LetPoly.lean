import LetPoly.CommandLine
import LetPoly.Expr.Parser.Progress
import LetPoly.Main
import LetPoly.Parser.Cursor
import LetPoly.Session
import LetPoly.Proofs.Composition
import LetPoly.Proofs.MostGeneralUnifier
import LetPoly.Proofs.SolvedUnifiers
import LetPoly.Proofs.ArgumentOrder
import LetPoly.Proofs.UnificationFailure
import LetPoly.Proofs.UnificationTermination
import LetPoly.Proofs.NumberedNames
import LetPoly.Proofs.DrawnNames
import LetPoly.Proofs.NameEnumeration
import LetPoly.Proofs.Run
import LetPoly.Proofs.BindTrace
import LetPoly.Proofs.FreeVariables
import LetPoly.Proofs.Hygiene
import LetPoly.Proofs.Provenance
import LetPoly.Proofs.FreshCopies
import LetPoly.Proofs.TermVariables
import LetPoly.Proofs.SolvedForm
import LetPoly.Proofs.Soundness
import LetPoly.Proofs.Completeness
import LetPoly.Proofs.DerivableTypes
import LetPoly.Proofs.TopLevelLets
import LetPoly.Proofs.LetOrder
import LetPoly.Proofs.Lockstep
import LetPoly.Proofs.AlphaEquivalence
import LetPoly.Proofs.LetScope
import LetPoly.Proofs.SchemeRenaming
import LetPoly.Proofs.Grammar
import LetPoly.Proofs.Lexing
import LetPoly.Proofs.Parsing
import LetPoly.Proofs.ParseFailure
import LetPoly.Proofs.GrammarTermination
import LetPoly.Proofs.RoundTrip
import LetPoly.Proofs.ErrorPositions
import LetPoly.Proofs.LiteralRange
import LetPoly.Proofs.PrintedTypes
