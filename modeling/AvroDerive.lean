import AvroDerive.Main
import AvroDerive.Proofs.EmissionOrder
import AvroDerive.Proofs.Outcome
import AvroDerive.Proofs.Mention
import AvroDerive.Proofs.MergedMention
import AvroDerive.Proofs.Eviction
import AvroDerive.Proofs.Inlining
import AvroDerive.Proofs.Unfolding
import AvroDerive.Proofs.InlinedTree
import AvroDerive.Proofs.SchemaText
import AvroDerive.Proofs.Promise
import AvroDerive.Proofs.Building
import AvroDerive.Proofs.RecordReference
import AvroDerive.Proofs.ImportReference
import AvroDerive.Proofs.NodeReference
import AvroDerive.Proofs.DefinitionReference
import AvroDerive.Proofs.OutputReference
import AvroDerive.Proofs.DefinitionOrder
import AvroDerive.Proofs.ParallelRun
import AvroDerive.Proofs.NodeVisit
import AvroDerive.Proofs.RecordParallel
import AvroDerive.Proofs.NodeParallel
import AvroDerive.Proofs.DefinitionMeaning
import AvroDerive.Proofs.ReferenceParallel
import AvroDerive.Proofs.EvictedMeaning
import AvroDerive.Proofs.StandaloneFragment
import AvroDerive.Proofs.Orderly
import AvroDerive.Proofs.OrderlyRecord
import AvroDerive.Proofs.OrderlyNode
import AvroDerive.Proofs.ConverterState
import AvroDerive.Proofs.DefinitionTurn
import AvroDerive.Proofs.AnyOrder
import AvroDerive.Proofs.ImportStep
import AvroDerive.Proofs.ImportRun
import AvroDerive.Proofs.NodeStep
import AvroDerive.Proofs.CallStep
import AvroDerive.Proofs.NamedReference
import AvroDerive.Proofs.DefinitionKept
import AvroDerive.Proofs.FailedCall
import AvroDerive.Proofs.TypePart
import AvroDerive.Proofs.RegularType
import AvroDerive.Proofs.RegularKeyword
import AvroDerive.Proofs.NodeSpot
import AvroDerive.Proofs.Law
import AvroDerive.Proofs.LawfulRecord
import AvroDerive.Proofs.LawfulNode
import AvroDerive.Proofs.LawfulCall
import AvroDerive.Proofs.LastingName
import AvroDerive.Proofs.RegularOutput
import AvroDerive.Proofs.NeutralRun
import AvroDerive.Proofs.Lockstep
import AvroDerive.Proofs.LockstepNode
import AvroDerive.Proofs.DepthAgreement
import AvroDerive.Proofs.DepthLimit
import AvroDerive.Proofs.PlaceName
import AvroDerive.Proofs.DefinitionOrigin
import AvroDerive.Proofs.RecordField
import AvroDerive.Proofs.ConversionCall
import AvroDerive.Proofs.FieldName
import AvroDerive.Proofs.LockstepCall
import AvroDerive.Proofs.WrittenReference
import AvroDerive.Proofs.InnerSpot
import AvroDerive.Proofs.Descent
import AvroDerive.Proofs.Coincidence
import AvroDerive.Proofs.HomeDocument
import AvroDerive.Proofs.RecordCycle
import AvroDerive.Proofs.RecordLayout
import AvroDerive.Proofs.LegalNamespace
import AvroDerive.Proofs.SiblingKeys
import AvroDerive.Proofs.ParedSchema
import AvroDerive.Proofs.KeyedSchema
import AvroDerive.Proofs.ParedMerge
import AvroDerive.Proofs.AlikeSchema
import AvroDerive.Proofs.AlikeComposition
import AvroDerive.Proofs.AlikeKeyword
import AvroDerive.Proofs.ConcurringRun
import AvroDerive.Proofs.ConcurringRecord
import AvroDerive.Proofs.ConcurringNode
import AvroDerive.Proofs.ConcurringTurn
import AvroDerive.Proofs.ParedDocument
import AvroDerive.Proofs.ConditionalKeyword
import AvroDerive.Proofs.MergedConstraint
import AvroDerive.Proofs.AlternativeMerge
import AvroDerive.Proofs.AlternativeUnion
import AvroDerive.Proofs.FlattenedUnion
import AvroDerive.Proofs.MergedDependency
import AvroDerive.Proofs.MergedRecord
import AvroDerive.Proofs.CandidateSequence
import AvroDerive.Proofs.Registration
import AvroDerive.Proofs.RepeatedOrder
import AvroDerive.Proofs.MadeRecord
import AvroDerive.Proofs.ListedType
import AvroDerive.Proofs.ListedDefinition
import AvroDerive.Proofs.ShallowerScope
import AvroDerive.Proofs.FirstResolution
import AvroDerive.Proofs.DerivedNamespace
import AvroDerive.Proofs.MergedSize
import AvroDerive.Proofs.WrittenFile
import AvroDerive.Proofs.FailedJob
import AvroDerive.Proofs.RegistryLookup
import AvroDerive.Proofs.DefinitionPointer
import AvroDerive.Proofs.EnumSymbol
