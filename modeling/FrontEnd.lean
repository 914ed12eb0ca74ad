import FrontEnd.Release
import FrontEnd.Sealed
import FrontEnd.Proofs.Nfa.Path
import FrontEnd.Proofs.Regex.Language
import FrontEnd.Proofs.Nfa.Part
import FrontEnd.Proofs.Nfa.Thompson
import FrontEnd.Proofs.Nfa.Until
import FrontEnd.Proofs.Nfa.Recognition
import FrontEnd.Proofs.Nfa.Rules
import FrontEnd.Proofs.Dfa
import FrontEnd.Proofs.Lexer.Scan
import FrontEnd.Proofs.Lexer.Resolve
import FrontEnd.Proofs.Lexer.Cursor
import FrontEnd.Proofs.Lexer.Match
import FrontEnd.Proofs.Grammar.Resolve
import FrontEnd.Proofs.Grammar.Derivation
import FrontEnd.Proofs.Grammar.First
import FrontEnd.Proofs.Sorted
import FrontEnd.Proofs.Lalr.Closure
import FrontEnd.Proofs.Lalr.Automaton
import FrontEnd.Proofs.Lalr.Path
import FrontEnd.Proofs.Lalr.Lookahead
import FrontEnd.Proofs.Lalr.Tables
import FrontEnd.Proofs.Grammar.Rightmost
import FrontEnd.Proofs.Parser.Tree
import FrontEnd.Proofs.Parser.Soundness
import FrontEnd.Proofs.Parser.Completeness
import FrontEnd.Proofs.Lalr.Canonical
import FrontEnd.Proofs.Lalr.Conflicts
import FrontEnd.Proofs.Lalr.Reductions
import FrontEnd.Proofs.Parser.Termination
import FrontEnd.Proofs.Parser.Prefixes
import FrontEnd.Proofs.Grammar.Expression
import FrontEnd.Proofs.Grammar.Operators
import FrontEnd.Proofs.Lalr.Operators
import FrontEnd.Proofs.Grammar.Levels
import FrontEnd.Proofs.Parser.Operators
import FrontEnd.Proofs.Dfa.Simulation
import FrontEnd.Proofs.Lexer.EmptyMatch
import FrontEnd.Proofs.Lexer.Termination
import FrontEnd.Proofs.Regex.RoundTrip
import FrontEnd.Proofs.Lifecycle
import FrontEnd.Proofs.Grammar.TokenIds
import FrontEnd.Proofs.Lexer.LineRange
import FrontEnd.Proofs.Lexer.Tables
import FrontEnd.Proofs.Lexer.IgnoreCase
import FrontEnd.Proofs.Grammar.Precedence
import FrontEnd.Proofs.Regex.Quantifiers
import FrontEnd.Proofs.Regex.References
import FrontEnd.Proofs.Regex.Inlining
import FrontEnd.Proofs.Refusals
import FrontEnd.Proofs.Lexer.NeverMatched
import FrontEnd.Proofs.Lexer.Stack
import FrontEnd.Proofs.Lexer.Handles
import FrontEnd.Proofs.Grammar.LevelOrder
import FrontEnd.Proofs.Regex.QuotedText
import FrontEnd.Proofs.Lalr.Construction
import FrontEnd.Proofs.Grammar.SymbolTable
import FrontEnd.Proofs.Lexer.Invalid
import FrontEnd.Proofs.ByteSet.Edits
import FrontEnd.Proofs.ByteSet.Refinement
import FrontEnd.Proofs.Lalr.Increments
