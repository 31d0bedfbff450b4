import Tuuli.ConstraintMerging
import Tuuli.EdgeCalls
import Tuuli.EligibilityClosure
import Tuuli.EmptyInputUses
import Tuuli.FilterCompleteness
import Tuuli.FilteredPairs
import Tuuli.FrameReads
import Tuuli.JoinKeyExactness
import Tuuli.MemoAgreement
import Tuuli.NotNullSoundness
import Tuuli.NullRejection
import Tuuli.OrderConstraints
import Tuuli.PairLaws
import Tuuli.ProjectListLaws
import Tuuli.PruneSteps
import Tuuli.RangeAlgebra
import Tuuli.RegionJoinability
import Tuuli.ReorderSoundness
import Tuuli.ResultTypmods
import Tuuli.RewriteGuards
import Tuuli.ScalarCaptures
import Tuuli.StepRestriction
import Tuuli.UniqueSoundness
