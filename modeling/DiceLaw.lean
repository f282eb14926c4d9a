import DiceLaw.Calculator
import DiceLaw.Main
import DiceLaw.Proofs.Notation.Grammar
import DiceLaw.Proofs.Notation.Meaning
import DiceLaw.Proofs.Notation.Steps
import DiceLaw.Proofs.Notation.Soundness
import DiceLaw.Proofs.Notation.Completeness
import DiceLaw.Proofs.Notation.Language
import DiceLaw.Proofs.Integral
import DiceLaw.Proofs.Chance
import DiceLaw.Proofs.Notation.Shares
import DiceLaw.Proofs.KeptCopies
import DiceLaw.Proofs.Mixture
import DiceLaw.Proofs.Doubling
import DiceLaw.Proofs.Notation.Refusal
import DiceLaw.Proofs.Listing
import DiceLaw.Proofs.Rolls
import DiceLaw.Proofs.KeepEnds
import DiceLaw.Proofs.Average
import DiceLaw.Proofs.KeptSums
import DiceLaw.Proofs.Mass
import DiceLaw.Proofs.Notation.Mass
import DiceLaw.Proofs.Scaling
import DiceLaw.Proofs.Notation.Scaling
import DiceLaw.Proofs.Notation.Placement
import DiceLaw.Proofs.Notation.Cleaning
import DiceLaw.Proofs.Notation.Union
import DiceLaw.Proofs.Notation.Spelling
import DiceLaw.Proofs.Dominance
import DiceLaw.Proofs.Quantile
import DiceLaw.Proofs.Reroll
import DiceLaw.Proofs.PushForward
import DiceLaw.Proofs.RefusedCounts
import DiceLaw.Proofs.Notation.Carving
import DiceLaw.Proofs.Notation.Likeness
import DiceLaw.Proofs.Notation.Blame
import DiceLaw.Proofs.Notation.Substitution
import DiceLaw.Proofs.Notation.DepthCounter
import DiceLaw.Proofs.Notation.Selectors
import DiceLaw.Proofs.ReadOut
import DiceLaw.Proofs.CommandLine
import DiceLaw.Proofs.Supply
