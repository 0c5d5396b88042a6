import GoalCoverage.Generation.Replay
import GoalCoverage.Generation.Report
import GoalCoverage.Generation.Search

/-!
The schedule of test generation.

Goals are processed in batches. The goals that timed out are processed again in retry rounds, if the
settings ask for that, under a limit that grows from round to round.
-/

namespace GoalCoverage

/-- Cuts a queue of goals into batches. -/
def Settings.batches (s : Settings) (queue : List Nat) : List (List Nat) :=
  cut queue.length queue
where
  cut : Nat → List Nat → List (List Nat)
    | 0, _ => []
    | left + 1, queue =>
      let size := s.batchSize queue.length
      if queue.isEmpty then [] else queue.take size :: cut left (queue.drop size)

/-- The goals to process again: those that timed out, given by their places and in their order. -/
def RetryOrder.queue (order : RetryOrder) (timedOut : IdMap Nat) (timeouts : List Nat) : List Nat :=
  match order with
  | .forward => timedOut.values
  | .inverted => timedOut.values.reverse
  | .unordered => timeouts.filter timedOut.values.contains

namespace Generator

open Session (Finding)

variable {F E S P : Type} [AbstractState S]

/-- Gives up the goals of a batch whose automata accept nothing. -/
def giveUpDegenerate (batch : List Nat) : Procedure (Generator F P) Unit :=
  batch.forM fun index => do
    if (← isResolved index) then return ()
    if (← goal index).automaton.isDegenerate then giveUp index

/-- Replays the test cases against the goals of a batch, but for goals predicted to be infeasible. -/
def replayBatch (batch : List Nat) : Procedure (Generator F P) Unit :=
  batch.forM fun index => do
    if (← isResolved index) then return ()
    if (← get).suite.prediction index != .infeasible then replay index

/-- One attempt at a batch; `sound` tells whether the attempts before were sound. -/
def attemptBatch (a : Analysis F E S P) (fuel : Nat) (batch : List Nat) (sound : Bool) :
    Procedure (Generator F P) (Bool ⊕ Bool) := do
  if ← isDone batch then return .inr sound
  if (← get).settings.checkCoverage then
    replayBatch batch
    if ← isDone batch then return .inr sound
  let finding ← search a fuel batch
  let sound := sound && finding.sound
  return if finding.outcome = .timedOut then .inr sound else .inl sound

/-- Processes a batch until it is resolved or times out; yields whether all was sound. -/
def processBatch (a : Analysis F E S P) (fuel : Nat) (batch : List Nat) :
    Procedure (Generator F P) Bool := do
  modify fun g => { g with processed := g.processed + batch.length }
  if (← get).suite.variability then
    let _ ← remainingRegion batch
  giveUpDegenerate batch
  Procedure.repeatUntil (attemptBatch a fuel batch) fuel true

/-- Processes the goals of a queue in batches. -/
def processQueue (a : Analysis F E S P) (fuel : Nat) (queue : List Nat) :
    Procedure (Generator F P) Bool := do
  let sound ← ((← get).settings.batches queue).mapM (processBatch a fuel)
  return sound.all id

/-- Is there to be a retry round after so many of them? -/
def retries (g : Generator F P) (rounds : Nat) : Bool :=
  !g.suite.timedOut.isEmpty && g.settings.timeoutStrategy == .retry &&
    !g.settings.maxRetryRounds.any (· ≤ rounds)

/-- Prepares a retry round: the limit grows, and the goals that timed out are taken back. -/
def beginRetry : Procedure (Generator F P) (List Nat) := do
  let g ← get
  let (timedOut, suite) := g.suite.takeTimedOut
  let queue := g.settings.retryOrder.queue timedOut g.timeouts
  let timeLimit := g.timeLimit.map (· + g.settings.timeLimitIncrement)
  set { g with suite, timeouts := [], timeLimit }
  if g.processed < queue.length then Procedure.violate .negativeCount
  modify fun g => { g with processed := g.processed - queue.length }
  return queue

/-- The rounds processed so far, whether they were sound, and the queue of the next one. -/
structure Progress where
  rounds : List (List Nat)
  sound : Bool
  queue : List Nat

/-- One round, and the decision on the next. -/
def round (a : Analysis F E S P) (fuel : Nat) (p : Progress) :
    Procedure (Generator F P) (Progress ⊕ Progress) := do
  let sound ← processQueue a fuel p.queue
  let p := { p with rounds := p.rounds ++ [p.queue], sound := p.sound && sound }
  let g ← get
  if g.retries (p.rounds.length - 1) then return .inl { p with queue := ← beginRetry }
  return .inr p

/-- Processes all goals. No loop gets more than `fuel` iterations. -/
def generate (a : Analysis F E S P) (fuel : Nat) : Procedure (Generator F P) Report := do
  let all := (← get).suite.goalIds
  let p ← Procedure.repeatUntil (round a fuel) fuel { rounds := [], sound := true, queue := all }
  if (← get).settings.allCoveredGoals then all.forM replay
  let g ← get
  let statistics ← onRegions g.suite.statistics
  return { sound := p.sound, processed := g.processed, rounds := p.rounds, statistics }

end Generator

end GoalCoverage
