import ClauseForm.Bindings.Show
import ClauseForm.Conversion.Convert
import ClauseForm.Renaming
import ClauseForm.Term.Build
import ClauseForm.Term.WellFormed
import ClauseForm.Unify
import ClauseForm.Proofs.Syntax.Formula
import ClauseForm.Proofs.Negation.Recursive
import ClauseForm.Proofs.Negation.Shape
import ClauseForm.Proofs.Semantics.Coincidence
import ClauseForm.Proofs.Negation.Meaning
import ClauseForm.Proofs.Conversion.Run
import ClauseForm.Proofs.Conversion.Bulk
import ClauseForm.Proofs.Conversion.Budget
import ClauseForm.Proofs.Conversion.Flattening
import ClauseForm.Proofs.Conversion.Rewriting
import ClauseForm.Proofs.Conversion.Minting
import ClauseForm.Proofs.Conversion.Biconditional
import ClauseForm.Proofs.Conversion.Settled
import ClauseForm.Proofs.Conversion.Distribution
import ClauseForm.Proofs.Conversion.Gathering
import ClauseForm.Proofs.Conversion.Stages
import ClauseForm.Proofs.Conversion.Scope
import ClauseForm.Proofs.Conversion.Clearing
import ClauseForm.Proofs.Semantics.Replacement
import ClauseForm.Proofs.Conversion.Passes
import ClauseForm.Proofs.Conversion.Levels
import ClauseForm.Proofs.Evaluation.Folding
import ClauseForm.Proofs.Evaluation.Meaning
import ClauseForm.Proofs.Conversion.Correct
import ClauseForm.Proofs.Conversion.Reentry
import ClauseForm.Proofs.Conversion.Clausal
import ClauseForm.Proofs.Syntax.Symbols
import ClauseForm.Proofs.Substitution.Walk
import ClauseForm.Proofs.Substitution.Acyclic
import ClauseForm.Proofs.Substitution.Extension
import ClauseForm.Proofs.Unification.Cases
import ClauseForm.Proofs.Unification.Soundness
import ClauseForm.Proofs.Unification.Termination
import ClauseForm.Proofs.Unification.Completeness
import ClauseForm.Proofs.Renaming.Pairs
import ClauseForm.Proofs.Renaming.Check
import ClauseForm.Proofs.Renaming.Equivalence
import ClauseForm.Proofs.Bindings.Listing
import ClauseForm.Proofs.Number.Forms
import ClauseForm.Proofs.Number.Positions
import ClauseForm.Proofs.Number.Reading
import ClauseForm.Proofs.Number.RoundTrip
import ClauseForm.Proofs.Syntax.Relabeling
import ClauseForm.Proofs.Syntax.Alpha
import ClauseForm.Proofs.Conversion.Mirroring
import ClauseForm.Proofs.Conversion.Mirrored
import ClauseForm.Proofs.Conversion.Ledger
import ClauseForm.Proofs.Conversion.Covered
import ClauseForm.Proofs.Conversion.Introducing
import ClauseForm.Proofs.Conversion.NewSymbols
import ClauseForm.Proofs.Conversion.Invariance
import ClauseForm.Proofs.Conversion.Respelling
import ClauseForm.Proofs.Conversion.Programs
import ClauseForm.Proofs.Conversion.Steps
import ClauseForm.Proofs.Conversion.Sequence
import ClauseForm.Proofs.Syntax.Exchange
import ClauseForm.Proofs.Conversion.Settling
import ClauseForm.Proofs.Conversion.FixedPoint
import ClauseForm.Proofs.Conversion.Weaving
import ClauseForm.Proofs.Conversion.Staged
import ClauseForm.Proofs.Conversion.Conjunction
import ClauseForm.Proofs.Negation.Composition
import ClauseForm.Proofs.Conversion.Totality
import ClauseForm.Proofs.Unification.Quantified
import ClauseForm.Proofs.Unification.Idempotence
import ClauseForm.Proofs.Clause.Tautology
import ClauseForm.Proofs.Conversion.Cleaning
import ClauseForm.Proofs.Conversion.Names
import ClauseForm.Proofs.Semantics.Capture
import ClauseForm.Proofs.Evaluation.Constants
import ClauseForm.Proofs.Evaluation.Substitution
import ClauseForm.Proofs.Evaluation.Simplified
import ClauseForm.Proofs.Evaluation.Ground
import ClauseForm.Proofs.Negation.Pending
import ClauseForm.Proofs.Conversion.Leaves
