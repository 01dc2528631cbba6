import SolidityTokens.Recognizer.Whole
import SolidityTokens.Session
import SolidityTokens.Proofs.Grammar.Restoration
import SolidityTokens.Proofs.Grammar.Rematch
import SolidityTokens.Proofs.Machine.Safety
import SolidityTokens.Proofs.Recognizer.Preceding
import SolidityTokens.Proofs.Recognizer.Record
import SolidityTokens.Proofs.Grammar.Classification
import SolidityTokens.Proofs.Grammar.Delimiters
import SolidityTokens.Proofs.Session.Speculation
import SolidityTokens.Proofs.Grammar.WordBoundaries
import SolidityTokens.Proofs.Grammar.StringFamilies
import SolidityTokens.Proofs.Grammar.WholeText
import SolidityTokens.Proofs.Grammar.QuoteSymmetry
import SolidityTokens.Proofs.Grammar.NumbersInContext
import SolidityTokens.Proofs.Grammar.StringsInContext
import SolidityTokens.Proofs.Grammar.KeywordTables
import SolidityTokens.Proofs.Grammar.Identifiers
import SolidityTokens.Proofs.Recognizer.Counting
import SolidityTokens.Proofs.Grammar.StringReadings
import SolidityTokens.Proofs.Recognizer.OrderedChoice
import SolidityTokens.Proofs.Recognizer.Termination
import SolidityTokens.Proofs.Recognizer.FixedWords
