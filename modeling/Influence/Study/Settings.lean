import Influence.Program.Enumeration

/-!
# Settings

Limits of the solver and contents of reports, independent of any diagram.
-/

namespace Influence

/-- What reports show. -/
structure AnalysisSettings (α : Type) where
  /-- The levels of risk measures. -/
  riskLevels : List α
  /-- Utilities are rounded to so many decimals. -/
  precision : Option Nat
  deriving Repr, DecidableEq

/-- A settings file. -/
structure Settings (α : Type) where
  schemaVersion : String
  solver : SearchSettings α
  analysis : AnalysisSettings α
  deriving Repr, DecidableEq

variable {α : Type} [Scalar α]

/-- About a million assignments, checked up to a billionth. -/
def SearchSettings.default : SearchSettings α := ⟨1048576, 1e-9⟩

/-- Three low levels, and utilities as they are. -/
def AnalysisSettings.default : AnalysisSettings α := ⟨[0.05, 0.1, 0.2], none⟩

/-- The settings in force where no file gives others. -/
def Settings.default : Settings α := ⟨"1.0.0", .default, .default⟩

end Influence
