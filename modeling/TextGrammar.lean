import TextGrammar.Grammar.Dependent
import TextGrammar.Proofs.BoundedSearches
import TextGrammar.Proofs.CharacterSearches
import TextGrammar.Proofs.Interruptions
import TextGrammar.Proofs.LengthPrefixes
import TextGrammar.Proofs.LoopLengths
import TextGrammar.Proofs.NamedFields
import TextGrammar.Proofs.NumberLiterals
import TextGrammar.Proofs.Origins
import TextGrammar.Proofs.Preference
import TextGrammar.Proofs.ProcedureRuns
import TextGrammar.Proofs.RoundTrip
import TextGrammar.Proofs.Termination
