import GoalCoverage.Suite.Statistics

/-!
Reports on test generation.
-/

namespace GoalCoverage

structure Report where
  /-- Were all runs of engines sound? -/
  sound : Bool
  /-- Goals processed since the generator was made. -/
  processed : Nat
  /-- The goals of the initial pass and of each retry round, in the order in which they were processed. -/
  rounds : List (List Nat)
  statistics : Statistics
  deriving DecidableEq

namespace Report

def retryRounds (r : Report) : Nat := r.rounds.length - 1

/-- The report as text; the time that generation took is written by the caller. -/
def text (r : Report) (elapsed : String) : String :=
  (if r.sound then "Test generation was sound.\n"
    else "Test generation contained unsound analysis runs!\n") ++
  "Number of processed test goals:           " ++ toString r.processed ++ "\n" ++
  "Number of retry rounds:                   " ++ toString r.retryRounds ++ "\n" ++
  "Generation time:                          " ++ elapsed ++ "\n" ++
  r.statistics.text

end Report

end GoalCoverage
