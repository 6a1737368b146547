import FlatDae.Handle
import FlatDae.Main
import FlatDae.Source.Print
import FlatDae.Expr.Equality
import FlatDae.Expr.Substitution
import FlatDae.Proofs.ExpressionGraph
import FlatDae.Proofs.SubstitutionGraph
import FlatDae.Proofs.TreeEvaluation
import FlatDae.Proofs.EvaluatorAgreement
import FlatDae.Proofs.ModelRuns
import FlatDae.Proofs.Calculation
import FlatDae.Proofs.RunInvariants
import FlatDae.Proofs.CurrentValues
import FlatDae.Proofs.DependencyOrder
import FlatDae.Proofs.TableAgreement
import FlatDae.Proofs.DefinitionOrder
import FlatDae.Proofs.DefinitionTables
import FlatDae.Proofs.ParameterValues
import FlatDae.Proofs.TypeAssignment
import FlatDae.Proofs.RegistrationOrder
import FlatDae.Proofs.OrderIndependence
import FlatDae.Proofs.WellFormedText
import FlatDae.Proofs.FaultChecks
import FlatDae.Proofs.ExpressionElaboration
import FlatDae.Proofs.DeclarationElaboration
import FlatDae.Proofs.ComponentElaboration
import FlatDae.Proofs.ModelElaboration
import FlatDae.Proofs.GraphGrowth
import FlatDae.Proofs.RegisteredKinds
import FlatDae.Proofs.ExpressionTranslation
import FlatDae.Proofs.DeclarationTranslation
import FlatDae.Proofs.ComponentTranslation
import FlatDae.Proofs.ModelTranslation
import FlatDae.Proofs.TextReading
import FlatDae.Proofs.ModelFidelity
import FlatDae.Proofs.SourceEvaluation
import FlatDae.Proofs.TextEvaluation
import FlatDae.Proofs.CallFailures
import FlatDae.Proofs.EvaluationFailures
import FlatDae.Proofs.DeclaredKinds
import FlatDae.Proofs.Rearrangement
import FlatDae.Proofs.DerivativeLinks
import FlatDae.Proofs.LinkPass
import FlatDae.Proofs.LinkedModels
import FlatDae.Proofs.LinkedRuns
import FlatDae.Proofs.RepeatedPass
import FlatDae.Proofs.LinkedKinds
import FlatDae.Proofs.TextLinks
import FlatDae.Proofs.LinkSoundness
import FlatDae.Proofs.TypeKeeping
import FlatDae.Proofs.ModelCatalogue
import FlatDae.Proofs.RefusedRegistration
import FlatDae.Proofs.OutdatedValues
import FlatDae.Proofs.FailedCalculation
import FlatDae.Proofs.AliasChains
import FlatDae.Proofs.AliasValues
import FlatDae.Proofs.CallNesting
import FlatDae.Proofs.CallsMade
import FlatDae.Proofs.RecursiveCalls
import FlatDae.Proofs.ValueIndependence
import FlatDae.Proofs.CallInlining
import FlatDae.Proofs.TokenReading
import FlatDae.Proofs.NumberReading
import FlatDae.Proofs.WrittenExpressions
import FlatDae.Proofs.OperatorReading
import FlatDae.Proofs.ExpressionReading
import FlatDae.Proofs.DeclarationReading
import FlatDae.Proofs.DefinitionCycles
import FlatDae.Proofs.SubstitutionSharing
import FlatDae.Proofs.SymbolOccurrences
import FlatDae.Proofs.StructuralEquality
import FlatDae.Proofs.MissingSymbols
import FlatDae.Proofs.RepeatedCalculation
import FlatDae.Proofs.KeyedExpressions
import FlatDae.Proofs.NumberText
import FlatDae.Proofs.ExpressionLayout
import FlatDae.Proofs.PrintedExpressions
import FlatDae.Proofs.RegistryRequests
import FlatDae.Proofs.AttributeValues
import FlatDae.Proofs.AliasLookup
import FlatDae.Proofs.TokenPlaces
import FlatDae.Proofs.ExpressionPlaces
import FlatDae.Proofs.TextPlaces
import FlatDae.Proofs.DerivativeChains
import FlatDae.Proofs.DeclaredCalls
import FlatDae.Proofs.NameFaults
import FlatDae.Proofs.ExpressionsInUse
import FlatDae.Proofs.NameReports
import FlatDae.Proofs.UnresolvedNames
import FlatDae.Proofs.SyntaxPairs
import FlatDae.Proofs.PairReading
import FlatDae.Proofs.ParserAgreement
import FlatDae.Proofs.TokenAgreement
import FlatDae.Proofs.ExpressionAgreement
import FlatDae.Proofs.DeclarationAgreement
import FlatDae.Proofs.CheckedBuilding
import FlatDae.Proofs.CheckedLookups
import FlatDae.Proofs.TextAnswers
import FlatDae.Proofs.NodeCounts
import FlatDae.Proofs.HandlePlaces
import FlatDae.Proofs.HandleRuns
