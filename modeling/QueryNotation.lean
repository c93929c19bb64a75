import QueryNotation.Main
import QueryNotation.Proofs.Acceptance
import QueryNotation.Proofs.NotationRoundTrip
import QueryNotation.Proofs.AcceptedItems
import QueryNotation.Proofs.StatementQuotes
import QueryNotation.Proofs.Normalization
import QueryNotation.Proofs.NestingBound
import QueryNotation.Proofs.StatementMeaning
import QueryNotation.Proofs.DepthAccounting
import QueryNotation.Proofs.CanonicalReading
import QueryNotation.Proofs.UnmarkedRoundTrip
import QueryNotation.Proofs.FirstBadToken
import QueryNotation.Proofs.ItemComposition
import QueryNotation.Proofs.RelationalReading
import QueryNotation.Proofs.AdjacentMinus
import QueryNotation.Proofs.SharedNotation
import QueryNotation.Proofs.QueryHistory
import QueryNotation.Proofs.CanonicalLog
import QueryNotation.Proofs.CallHistory
import QueryNotation.Proofs.SameTokens
import QueryNotation.Proofs.CallProgress
import QueryNotation.Proofs.StrayCharacters
import QueryNotation.Proofs.FreshReader
import QueryNotation.Proofs.LexingPlaces
import QueryNotation.Proofs.ErrorPlaces
import QueryNotation.Proofs.TokenSlices
import QueryNotation.Proofs.QuotedNames
import QueryNotation.Proofs.ExactNumerals
import QueryNotation.Proofs.Rounding
import QueryNotation.Proofs.SortDirections
import QueryNotation.Proofs.StringSpellings
import QueryNotation.Proofs.LexerHistory
import QueryNotation.Proofs.LexerProgress
import QueryNotation.Proofs.EqualDirectives
import QueryNotation.Proofs.JsonStrings
import QueryNotation.Proofs.TrimmedTexts
