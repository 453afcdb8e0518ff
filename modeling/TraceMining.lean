import TraceMining.Session
import TraceMining.Proofs.Archive
import TraceMining.Proofs.EdgeOrder
import TraceMining.Proofs.Falsification
import TraceMining.Proofs.FirstEdge
import TraceMining.Proofs.Hold
import TraceMining.Proofs.Implication
import TraceMining.Proofs.Opportunity
import TraceMining.Proofs.Preparation
import TraceMining.Proofs.Regrouping
import TraceMining.Proofs.Reporting
import TraceMining.Proofs.Rescaling.Verdicts
import TraceMining.Proofs.SelfValidation
import TraceMining.Proofs.Succession
import TraceMining.Proofs.Survival
import TraceMining.Proofs.Timing
import TraceMining.Proofs.Waveform.Acceptance
import TraceMining.Proofs.Waveform.AliasGroups
import TraceMining.Proofs.Waveform.Denotation
import TraceMining.Proofs.Waveform.Nesting
import TraceMining.Proofs.Waveform.Scopes
import TraceMining.Proofs.Waveform.Blanks
import TraceMining.Proofs.Waveform.Layout
import TraceMining.Proofs.Waveform.Refusal
import TraceMining.Proofs.Alternation
import TraceMining.Proofs.Expectation
import TraceMining.Proofs.Merging
import TraceMining.Proofs.Resampling
import TraceMining.Proofs.Causality
import TraceMining.Proofs.Accumulation
import TraceMining.Proofs.Waveform.Grammar
import TraceMining.Proofs.Period
import TraceMining.Proofs.Range
import TraceMining.Proofs.Waveform.Recoding
import TraceMining.Proofs.Waveform.Sections
import TraceMining.Proofs.PreparationError
import TraceMining.Proofs.FalseStart
import TraceMining.Proofs.ClockNames
import TraceMining.Proofs.Waveform.Directives
import TraceMining.Proofs.Traversal
