import GraphQLClient.Client.Basic
import GraphQLClient.Client.Error
import GraphQLClient.Client.Request
import GraphQLClient.Client.Response
import GraphQLClient.Client.Session
import GraphQLClient.Document.Printer
import GraphQLClient.Document.Reader
import GraphQLClient.Http.Exchange
import GraphQLClient.Http.Message
import GraphQLClient.Http.Retry
import GraphQLClient.Json.Printer
import GraphQLClient.Json.Reader
import GraphQLClient.Json.Value
import GraphQLClient.Number.Binary64
import GraphQLClient.OrderedMap
import GraphQLClient.Proofs.AcceptedSelections
import GraphQLClient.Proofs.AliasChains
import GraphQLClient.Proofs.AliasMeaning
import GraphQLClient.Proofs.ArgumentReading
import GraphQLClient.Proofs.BinaryRounding
import GraphQLClient.Proofs.BoundedRetries
import GraphQLClient.Proofs.CamelCase
import GraphQLClient.Proofs.CharacterClasses
import GraphQLClient.Proofs.CheckedSchemas
import GraphQLClient.Proofs.ChunkedBodies
import GraphQLClient.Proofs.CodecApplication
import GraphQLClient.Proofs.CompleteRequests
import GraphQLClient.Proofs.DeclarationOrder
import GraphQLClient.Proofs.DeclaredNames
import GraphQLClient.Proofs.DefaultSelections
import GraphQLClient.Proofs.DerivedSelections
import GraphQLClient.Proofs.DistinctDeclarations
import GraphQLClient.Proofs.DocumentUnambiguity
import GraphQLClient.Proofs.DoublingWaits
import GraphQLClient.Proofs.ErrorPlaces
import GraphQLClient.Proofs.ExpressionGrammar
import GraphQLClient.Proofs.ExpressionReading
import GraphQLClient.Proofs.FieldUnfolding
import GraphQLClient.Proofs.FurtherDeclarations
import GraphQLClient.Proofs.HeaderNames
import GraphQLClient.Proofs.HeaderReading
import GraphQLClient.Proofs.Heartbeats
import GraphQLClient.Proofs.InputDescriptions
import GraphQLClient.Proofs.InputFields
import GraphQLClient.Proofs.ItemWalks
import GraphQLClient.Proofs.LargerTables
import GraphQLClient.Proofs.LedgerHistory
import GraphQLClient.Proofs.LineEndings
import GraphQLClient.Proofs.ListItems
import GraphQLClient.Proofs.LiteralRoundTrip
import GraphQLClient.Proofs.LiteralUnambiguity
import GraphQLClient.Proofs.LocalRefinement
import GraphQLClient.Proofs.LookupAgreement
import GraphQLClient.Proofs.NestedValues
import GraphQLClient.Proofs.NumberReading
import GraphQLClient.Proofs.OrderedMaps
import GraphQLClient.Proofs.Outcomes
import GraphQLClient.Proofs.RecordUnfolding
import GraphQLClient.Proofs.RegistrationSoundness
import GraphQLClient.Proofs.ReorderedLiterals
import GraphQLClient.Proofs.RequestOrigins
import GraphQLClient.Proofs.RequestRoutes
import GraphQLClient.Proofs.ResponseHeads
import GraphQLClient.Proofs.ScalarRoundTrip
import GraphQLClient.Proofs.SchemaExtension
import GraphQLClient.Proofs.SelectedKeys
import GraphQLClient.Proofs.SelectionRoundTrip
import GraphQLClient.Proofs.SelectionShapes
import GraphQLClient.Proofs.SelectionTokens
import GraphQLClient.Proofs.SentMessages
import GraphQLClient.Proofs.SessionCourses
import GraphQLClient.Proofs.ShortcutNames
import GraphQLClient.Proofs.ShortestDecimals
import GraphQLClient.Proofs.SingleSend
import GraphQLClient.Proofs.SinkEvents
import GraphQLClient.Proofs.SuppliedInput
import GraphQLClient.Proofs.TextEncoding
import GraphQLClient.Proofs.TokenReading
import GraphQLClient.Proofs.TokenTiles
import GraphQLClient.Proofs.TruncatedResponses
import GraphQLClient.Proofs.TypeExpressions
import GraphQLClient.Proofs.UrlReading
import GraphQLClient.Proofs.ValidSelections
import GraphQLClient.Proofs.WalkedValues
import GraphQLClient.Proofs.WordsAndNumerals
import GraphQLClient.Schema.Basic
import GraphQLClient.Schema.Definition
import GraphQLClient.Schema.Error
import GraphQLClient.Schema.Literal
import GraphQLClient.Schema.Resolution
import GraphQLClient.Selection.Basic
import GraphQLClient.Selection.Reader
import GraphQLClient.Selection.Record
import GraphQLClient.Socket.Connection
import GraphQLClient.Socket.Endpoint
import GraphQLClient.Socket.Message
import GraphQLClient.Text.Basic
import GraphQLClient.Text.Utf8
import GraphQLClient.TypeExpr.Lexer
import GraphQLClient.TypeExpr.Parser
