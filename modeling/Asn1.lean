import Asn1.Compilation
import Asn1.Decoding
import Asn1.Encoding
import Asn1.Encoding.Target
import Asn1.Proofs.AcceptanceAgreement
import Asn1.Proofs.AutomaticTagging
import Asn1.Proofs.CanonicalValues
import Asn1.Proofs.CapturedElements
import Asn1.Proofs.CollectionSteps
import Asn1.Proofs.CompilationFailures
import Asn1.Proofs.CompilationGrowth
import Asn1.Proofs.CompilationOrder
import Asn1.Proofs.CompilationProgress
import Asn1.Proofs.CompilationRuns
import Asn1.Proofs.CompilationSteps
import Asn1.Proofs.CompiledTypes
import Asn1.Proofs.Conforming
import Asn1.Proofs.CopiedTypes
import Asn1.Proofs.CopiedValues
import Asn1.Proofs.Correspondence
import Asn1.Proofs.CorrespondingReads
import Asn1.Proofs.CyclicDefinitions
import Asn1.Proofs.DeclaredLayouts
import Asn1.Proofs.DecodingErrors
import Asn1.Proofs.DefaultRule
import Asn1.Proofs.DottedNotation
import Asn1.Proofs.EarlyAliases
import Asn1.Proofs.ElaborationAgreement
import Asn1.Proofs.ElementExtents
import Asn1.Proofs.ElementLevels
import Asn1.Proofs.ElementReading
import Asn1.Proofs.ElementTrees
import Asn1.Proofs.ElementaryChanges
import Asn1.Proofs.Encodable
import Asn1.Proofs.EncodingErrors
import Asn1.Proofs.EnoughSteps
import Asn1.Proofs.FirstIdentifiers
import Asn1.Proofs.ForeignElements
import Asn1.Proofs.ForwardCompatibility
import Asn1.Proofs.FoundElements
import Asn1.Proofs.HeaderCodec
import Asn1.Proofs.HeaderForms
import Asn1.Proofs.Idempotence
import Asn1.Proofs.InternalErrors
import Asn1.Proofs.LayoutParts
import Asn1.Proofs.LayoutSections
import Asn1.Proofs.LayoutSteps
import Asn1.Proofs.LayoutVersions
import Asn1.Proofs.LeafCodec
import Asn1.Proofs.LeafContent
import Asn1.Proofs.LeafReading
import Asn1.Proofs.Lookups
import Asn1.Proofs.MirroredCompilation
import Asn1.Proofs.MirroredSteps
import Asn1.Proofs.NestingLimit
import Asn1.Proofs.NumberForms
import Asn1.Proofs.OnlyElements
import Asn1.Proofs.Reading
import Asn1.Proofs.Recognition
import Asn1.Proofs.ReducedValues
import Asn1.Proofs.Reencoding
import Asn1.Proofs.ReferenceChains
import Asn1.Proofs.References
import Asn1.Proofs.Relaxation
import Asn1.Proofs.ResolvedValues
import Asn1.Proofs.Results
import Asn1.Proofs.RoundTrip
import Asn1.Proofs.RulesRelaxation
import Asn1.Proofs.SchemaCalls
import Asn1.Proofs.SchemaConsistency
import Asn1.Proofs.SchemaSteps
import Asn1.Proofs.SchemaViews
import Asn1.Proofs.SegmentedStrings
import Asn1.Proofs.SelfDelimiting
import Asn1.Proofs.SequenceMatching
import Asn1.Proofs.SequenceRule
import Asn1.Proofs.SetOrder
import Asn1.Proofs.SettledTypes
import Asn1.Proofs.SettlingCalls
import Asn1.Proofs.ShortenedHeaders
import Asn1.Proofs.SourceCalls
import Asn1.Proofs.SourceImages
import Asn1.Proofs.SourceOctets
import Asn1.Proofs.Splicing
import Asn1.Proofs.TagClashes
import Asn1.Proofs.TagMatching
import Asn1.Proofs.TargetWriting
import Asn1.Proofs.TextualInclusion
import Asn1.Proofs.TimeSyntax
import Asn1.Proofs.TypeReading
import Asn1.Proofs.TypeWriting
import Asn1.Proofs.TypesUpToHandles
import Asn1.Proofs.UniqueEncoding
import Asn1.Proofs.UnreachableErrors
import Asn1.Proofs.ValueReferences
import Asn1.Proofs.VersionOrder
import Asn1.Proofs.Walking
import Asn1.Proofs.WrittenElements
import Asn1.Proofs.WrittenOutComponents
import Asn1.Proofs.WrittenRules
