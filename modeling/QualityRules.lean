import QualityRules.Main
import QualityRules.Literal.Number
import QualityRules.Token.Tap
import QualityRules.Proofs.Conservation
import QualityRules.Proofs.Places
import QualityRules.Proofs.Blanks
import QualityRules.Proofs.Call
import QualityRules.Proofs.Drained
import QualityRules.Proofs.Located
import QualityRules.Proofs.Tiling
import QualityRules.Proofs.Unread
import QualityRules.Proofs.Munch
import QualityRules.Proofs.Alone
import QualityRules.Proofs.Order.Parts
import QualityRules.Proofs.Order.Rules
import QualityRules.Proofs.Order.Rulesets
import QualityRules.Proofs.Spans
import QualityRules.Proofs.Wrapped
import QualityRules.Proofs.Concatenated
import QualityRules.Proofs.Numerals
import QualityRules.Proofs.WellFormed
import QualityRules.Proofs.Described.Trees
import QualityRules.Proofs.Nested
import QualityRules.Proofs.Order.Layout
import QualityRules.Proofs.Siblings
import QualityRules.Proofs.Members
import QualityRules.Proofs.Ends
import QualityRules.Proofs.Excerpts
import QualityRules.Proofs.Floating.Trees
import QualityRules.Proofs.Handed.Rules
import QualityRules.Proofs.Printed
import QualityRules.Proofs.Taps
import QualityRules.Proofs.Covered
import QualityRules.Proofs.Listed
import QualityRules.Proofs.Trays
import QualityRules.Proofs.Trailing
import QualityRules.Proofs.Putback.Moments
import QualityRules.Proofs.Overrun
