import FuzzyInference.Config
import FuzzyInference.Inference.Engine
import FuzzyInference.Number.Exact
import FuzzyInference.Proofs.Additions
import FuzzyInference.Proofs.CommentSpans
import FuzzyInference.Proofs.CrispValues
import FuzzyInference.Proofs.Joining
import FuzzyInference.Proofs.Layout
import FuzzyInference.Proofs.Lexemes
import FuzzyInference.Proofs.PremiseTrees
import FuzzyInference.Proofs.Progress
import FuzzyInference.Proofs.References
import FuzzyInference.Proofs.Relevance
import FuzzyInference.Proofs.RepeatedTerms
import FuzzyInference.Proofs.RoundTrip
import FuzzyInference.Proofs.RuleSets
import FuzzyInference.Proofs.RuleText
import FuzzyInference.Proofs.SlotCatalogs
import FuzzyInference.Proofs.SourceOrder
import FuzzyInference.Proofs.Ordinates
import FuzzyInference.Proofs.TermIndex
import FuzzyInference.Proofs.UnitInterval
import FuzzyInference.Proofs.VariableText
import FuzzyInference.Proofs.BestOutput
import FuzzyInference.Proofs.SampleGrid
import FuzzyInference.Proofs.Chains
import FuzzyInference.Proofs.Domains
import FuzzyInference.Proofs.Slopes
import FuzzyInference.Proofs.Duality
import FuzzyInference.Proofs.Ramps
import FuzzyInference.Proofs.Translation
import FuzzyInference.Proofs.Symmetry
import FuzzyInference.Proofs.TableExtension
import FuzzyInference.Proofs.Arguments
import FuzzyInference.Proofs.Universes
import FuzzyInference.Proofs.Settings
