import HigherRank.Checker
import HigherRank.Proofs.Extension
import HigherRank.Proofs.Budget
import HigherRank.Proofs.Hygiene
import HigherRank.Proofs.Scope
import HigherRank.Proofs.Termination
import HigherRank.Proofs.ScopeDiscipline
import HigherRank.Proofs.Weakening
import HigherRank.Proofs.Labels
import HigherRank.Proofs.Principality
import HigherRank.Proofs.MostGeneral
import HigherRank.Proofs.GenericInstance
import HigherRank.Proofs.Reflexivity
import HigherRank.Proofs.Fallback
import HigherRank.Proofs.NormalForm
import HigherRank.Proofs.Symmetry
import HigherRank.Proofs.OpenInstance
import HigherRank.Proofs.Transitivity
import HigherRank.Proofs.ScopeRules
import HigherRank.Proofs.Stability
import HigherRank.Proofs.UniqueReading
