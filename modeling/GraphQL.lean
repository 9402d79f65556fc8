import GraphQL.Value.Item
import GraphQL.Proofs.ErrorVisibility
import GraphQL.Proofs.NullPropagation
import GraphQL.Proofs.SerialExecution
import GraphQL.Proofs.Inlining
import GraphQL.Proofs.TypedArguments
import GraphQL.Proofs.SettledInputs
import GraphQL.Proofs.Termination
import GraphQL.Proofs.PrintedLiterals
import GraphQL.Proofs.SourceSpans
import GraphQL.Proofs.InlineExtensions
import GraphQL.Proofs.ReportedDefaults
import GraphQL.Proofs.JsonRoundTrip
import GraphQL.Proofs.RequestLayout
import GraphQL.Proofs.IntrospectionRequest
import GraphQL.Proofs.ReportedFields
import GraphQL.Proofs.MergedSelections
import GraphQL.Proofs.CollectedOnce
import GraphQL.Proofs.JsonDecoding
import GraphQL.Proofs.WrittenNulls
import GraphQL.Proofs.ExcludedSelections
import GraphQL.Proofs.AbstractFragments
import GraphQL.Proofs.HookTrace
import GraphQL.Proofs.IndependentVariables
import GraphQL.Proofs.KeptEmptyStrings
import GraphQL.Proofs.DefaultCycles
import GraphQL.Proofs.OutputTypes
import GraphQL.Proofs.NameIndices
import GraphQL.Proofs.RepeatedNames
import GraphQL.Proofs.JoinedTexts
import GraphQL.Proofs.IntegerLiterals
import GraphQL.Proofs.StringLiterals
import GraphQL.Proofs.ReportedReferences
import GraphQL.Proofs.ErrorExcerpts
import GraphQL.Proofs.ObjectHistories
import GraphQL.Proofs.ResolverKeys
import GraphQL.Proofs.ReadingEnds
