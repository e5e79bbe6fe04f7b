import ArrayEquations.Main
import ArrayEquations.Proofs.Evaluation
import ArrayEquations.Proofs.WellFormed
import ArrayEquations.Proofs.EquationSoundness
import ArrayEquations.Proofs.Differential
import ArrayEquations.Proofs.Tangent
import ArrayEquations.Proofs.Recording
import ArrayEquations.Proofs.RecordedSlope
import ArrayEquations.Proofs.ForwardRule
import ArrayEquations.Proofs.Extension
import ArrayEquations.Proofs.ForwardSoundness
import ArrayEquations.Proofs.StretchedAxes
import ArrayEquations.Proofs.ArrangedAxes
import ArrayEquations.Proofs.UnitSeed
import ArrayEquations.Proofs.ReverseRule
import ArrayEquations.Proofs.Cotangents
import ArrayEquations.Proofs.ReversePass
import ArrayEquations.Proofs.ReverseSoundness
import ArrayEquations.Proofs.GradientSoundness
import ArrayEquations.Proofs.IndexHygiene
import ArrayEquations.Proofs.ReadFormula
import ArrayEquations.Proofs.RecordedTrace
import ArrayEquations.Proofs.DefinedSymbols
import ArrayEquations.Proofs.DerivativeLabels
import ArrayEquations.Proofs.ForwardShapes
import ArrayEquations.Proofs.ScalarGradient
import ArrayEquations.Proofs.Obstacles
import ArrayEquations.Proofs.WritableDerivatives
import ArrayEquations.Proofs.SpelledTokens
import ArrayEquations.Proofs.WrittenScripts
import ArrayEquations.Proofs.TakenTokens
import ArrayEquations.Proofs.ReadTerms
import ArrayEquations.Proofs.ReadScripts
import ArrayEquations.Proofs.CheckedRuns
import ArrayEquations.Proofs.MutualStretches
import ArrayEquations.Proofs.SymbolsApart
import ArrayEquations.Proofs.IndexStack
import ArrayEquations.Proofs.IndependentQueries
import ArrayEquations.Proofs.GivenIndices
import ArrayEquations.Proofs.CotangentSums
import ArrayEquations.Proofs.CutTexts
import ArrayEquations.Proofs.PlacedScripts
import ArrayEquations.Proofs.ReadOutcomes
import ArrayEquations.Proofs.TermOutcomes
import ArrayEquations.Proofs.ScriptOutcomes
import ArrayEquations.Proofs.UniquePlaces
import ArrayEquations.Proofs.ShiftedPlaces
import ArrayEquations.Proofs.SlicedTexts
import ArrayEquations.Proofs.ExactSpans
import ArrayEquations.Proofs.OpenCalls
import ArrayEquations.Proofs.RenamedScripts
import ArrayEquations.Proofs.ArgumentSymbols
import ArrayEquations.Proofs.CommonShapes
import ArrayEquations.Proofs.ScopedSymbols
import ArrayEquations.Proofs.LastingProperties
import ArrayEquations.Proofs.ReplayedBindings
import ArrayEquations.Proofs.PrintedMarks
import ArrayEquations.Proofs.PrintedNumbers
import ArrayEquations.Proofs.MarkedValues
import ArrayEquations.Proofs.FlattenedSums
