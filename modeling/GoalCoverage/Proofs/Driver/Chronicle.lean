import GoalCoverage.Generation.Schedule
import GoalCoverage.Proofs.Driver.Handling

/-!
The chronicle of a generation: which batches are processed, for which of them engines are composed, where the explorations
and where the runs of engines begin. It is computed with the procedures themselves, which are cut in two where a search
and where an exploration begins; put together again the parts are what they were (`attemptBatch_eq`, `search_eq`).
-/

namespace GoalCoverage

open Procedure

variable {F E S P : Type} [AbstractState S]

namespace Session

/-- How the run of a turn ends, if it does. -/
def outcome? (a : Analysis F E S P) (fuel : Nat) (s : Session F E S P) : Option Outcome := result? (runEngine a fuel) s

/-- The harvest of a run. -/
def gather (a : Analysis F E S P) (batch : List Nat) : Procedure (Session F E S P) (Harvest S) := do
  let s ← get
  withGenerator (Generator.harvest batch (a.counterexamples s.engine) s.reached)

/-- What a turn harvests. There is no harvest after a run that timed out. -/
def harvest? (a : Analysis F E S P) (fuel : Nat) (batch : List Nat) (s : Session F E S P) : Option (Harvest S) :=
  match runEngine a fuel s with
  | .ok .timedOut _ => none
  | .ok .sound t => result? (gather a batch) t
  | .ok .unsound t => result? (gather a batch) t
  | .error _ _ => none

/-- The run of a turn is not classified as unsound, and a test case is made if it found targets. -/
def Faultless (a : Analysis F E S P) (fuel : Nat) (batch : List Nat) (s : Session F E S P) : Prop :=
  outcome? a fuel s ≠ some .unsound ∧ ∀ found, harvest? a fuel batch s = some found → 0 < found.targets → 0 < found.created

end Session

namespace Generator

/-- What an engine is asked for. -/
structure Commission (P : Type) where
  observers : List Observer
  /-- The region that is open, if configurations are tracked. -/
  region : Option Region
  precision : Option P
  /-- Is the precision of the engine kept for the next one? -/
  keeps : Bool

def commission (batch : List Nat) : Procedure (Generator F P) (Commission P) := do
  let observers ← observers (← unresolved batch)
  drawAutomata observers
  let variability := (← get).suite.variability
  let region ← if variability then some <$> remainingRegion batch else pure none
  let g ← get
  return ⟨observers, region, if g.settings.reusePrecision then g.precision else none, g.settings.reusePrecision⟩

/-- Aims the engine at what is open, if configurations are tracked. -/
def aim (a : Analysis F E S P) (batch : List Nat) (region : Option Region) : Procedure (Session F E S P) Unit :=
  match region with
  | some r => Session.restrict a batch r
  | none => pure ()

/-- Composes an engine and prepares the session in which it explores. -/
def opening (a : Analysis F E S P) (batch : List Nat) (c : Commission P) : Procedure (Generator F P) (Session F E S P) := do
  let engine ← onShared (a.compose c.observers c.region c.precision)
  let initial ← onShared (a.initialState engine)
  let (s, _) ← inSession engine (.start initial) (aim a batch c.region *> get)
  return s

/-- What a search does after the exploration. -/
def closing (a : Analysis F E S P) (batch : List Nat) (keeps : Bool) (finding : Session.Finding) (engine : E)
    (reached : Exploration S) : Procedure (Generator F P) Session.Finding := do
  if keeps then
    modify fun g => { g with precision := some (a.precision engine) }
  conclude batch finding.outcome
  drawGraphs batch reached.graph
  return finding

/-- Is anything left to search for once the test cases are replayed? -/
def lacking (batch : List Nat) : Procedure (Generator F P) Bool := do
  if ← isDone batch then return false
  if (← get).settings.checkCoverage then
    replayBatch batch
    if ← isDone batch then return false
  return true

/-- What is done for a batch before the first attempt. -/
def openBatch (batch : List Nat) : Procedure (Generator F P) Unit := do
  modify fun g => { g with processed := g.processed + batch.length }
  if (← get).suite.variability then
    let _ ← remainingRegion batch
  giveUpDegenerate batch

/-- What is left of a generation after its rounds: test cases are replayed, if that is asked for, and counted. -/
def reporting (all : List Nat) (p : Progress) : Procedure (Generator F P) Report := do
  if (← get).settings.allCoveredGoals then all.forM replay
  let g ← get
  let statistics ← onRegions g.suite.statistics
  return { sound := p.sound, processed := g.processed, rounds := p.rounds, statistics }

variable (a : Analysis F E S P) (fuel : Nat)

theorem processBatch_eq (batch : List Nat) : processBatch a fuel batch = (do
    openBatch batch
    repeatUntil (attemptBatch a fuel batch) fuel true : Procedure (Generator F P) Bool) := by
  simp only [processBatch, openBatch, bind_assoc]
  congr 1
  funext _
  congr 1
  funext g
  split <;> simp only [bind_assoc]

theorem attemptBatch_eq (batch : List Nat) (sound : Bool) : attemptBatch a fuel batch sound = (do
    if ← lacking batch then
      let finding ← search a fuel batch
      return if finding.outcome = .timedOut then .inr (sound && finding.sound) else .inl (sound && finding.sound)
    else return .inr sound : Procedure (Generator F P) (Bool ⊕ Bool)) := by
  simp only [attemptBatch, lacking, bind_assoc]
  congr 1
  funext done
  cases done with
  | true => simp
  | false =>
    simp only [Bool.false_eq_true, if_false, bind_assoc]
    congr 1
    funext g
    split
    next =>
      simp only [bind_assoc]
      congr 1
      funext _
      congr 1
      funext done
      cases done <;> simp
    next => simp

omit [AbstractState S] in
/-- The session in which an engine is aimed goes on. -/
theorem inSession_aim {α : Type} (batch : List Nat) (region : Option Region) (engine : E) (reached : Exploration S)
    (next : Procedure (Session F E S P) α) : inSession engine reached (aim a batch region *> next) = (do
      let x ← inSession engine reached (aim a batch region *> get)
      inSession x.1.engine x.1.reached next : Procedure (Generator F P) (α × E × Exploration S)) := by
  funext g
  simp only [inSession, bind, EStateM.bind, SeqRight.seqRight, EStateM.seqRight]
  cases aim a batch region { generator := g, engine, reached } with
  | ok _ s => exact rfl
  | error e s => exact rfl

theorem search_eq (batch : List Nat) : search a fuel batch = (do
    let c ← commission batch
    let s ← opening a batch c
    let (finding, engine, reached) ← inSession s.engine s.reached (Session.explore a fuel batch)
    closing a batch c.keeps finding engine reached : Procedure (Generator F P) Session.Finding) := by
  have aimed : ∀ region engine initial, (inSession engine (.start initial) (aim a batch region *> Session.explore a fuel batch)
      : Procedure (Generator F P) (Session.Finding × E × Exploration S)) = _ := fun region engine initial =>
    inSession_aim a batch region engine (.start initial) _
  simp only [search, commission, opening, closing, bind_assoc, pure_bind]
  congr 1
  funext left
  congr 1
  funext observers
  congr 1
  funext _
  congr 1
  funext g
  split
  next =>
    simp only [bind_assoc, pure_bind]
    congr 1
    funext region
    congr 1
    funext g
    congr 1
    funext engine
    congr 1
    funext initial
    rw [← bind_assoc, ← aimed]
    cases region with
    | some r => exact rfl
    | none => exact rfl
  next =>
    simp only [bind_assoc, pure_bind]
    exact rfl

/-- The attempts at a batch. -/
def attempts (batch : List Nat) (g : Generator F P) : List (Bool × Generator F P) :=
  match openBatch batch g with
  | .ok _ g => turns (attemptBatch a fuel batch) fuel true g
  | .error _ _ => []

/-- Where searches begin, in the processing of a batch. -/
def searches (batch : List Nat) (g : Generator F P) : List (Generator F P) :=
  (attempts a fuel batch g).filterMap fun attempt => after? (lacking batch) attempt.2

/-- What engines are composed for, in the processing of a batch. -/
def compositions (batch : List Nat) (g : Generator F P) : List (Commission P) :=
  (searches a fuel batch g).filterMap (result? (commission batch))

/-- Where explorations begin, in the processing of a batch. -/
def sessions (batch : List Nat) (g : Generator F P) : List (Session F E S P) :=
  (searches a fuel batch g).filterMap (result? (commission batch >>= opening a batch))

/-- Where the rounds of a generation begin. -/
def rounds (g : Generator F P) : List (Progress × Generator F P) :=
  turns (round a fuel) fuel { rounds := [], sound := true, queue := g.suite.goalIds } g

/-- The batches that are processed in a round. -/
def batchesOf (p : Progress) (g : Generator F P) : List (List Nat × Generator F P) :=
  calls (processBatch a fuel) (g.settings.batches p.queue) g

/-- The batches that are processed in a generation. -/
def batchCalls (g : Generator F P) : List (List Nat × Generator F P) :=
  (rounds a fuel g).flatMap fun e => batchesOf a fuel e.1 e.2

/-- The explorations of a generation, each with its batch. -/
def explorations (g : Generator F P) : List (List Nat × Session F E S P) :=
  (batchCalls a fuel g).flatMap fun e => (sessions a fuel e.1 e.2).map fun s => (e.1, s)

/-- Where the runs of engines begin in a generation, each with its batch. -/
def runs (g : Generator F P) : List (List Nat × Session F E S P) :=
  (explorations a fuel g).flatMap fun e => (turns (Session.turn a fuel e.1) fuel true e.2).map fun t => (e.1, t.2)

end Generator

end GoalCoverage
