import GoalCoverage.Suite

/-!
The timeline of a suite: how many goals were covered after each test case.

Test cases are taken in the order of the times at which they were made. When configurations are tracked,
every covered goal is credited to the first test case that covers it, as completely or as partially
covered, and the columns add these counts up.
-/

namespace GoalCoverage

/-- One line of the timeline. -/
structure TimelineRow where
  testCase : Nat
  time : Duration
  covered : Nat
  complete : Nat
  inPart : Nat
  deriving DecidableEq

namespace Suite

def updateTestCase (s : Suite) (id : Nat) (f : TestCase → TestCase) : Suite :=
  { s with testCases := s.testCases.map fun t => if t.id = id then f t else t }

/-- The first stored test case that covers a goal. -/
def firstCovering? (s : Suite) (testCases : IdSet) : Option TestCase :=
  match testCases.toList.filterMap s.testCase? with
  | [] => none
  | t :: rest => some (rest.foldl (fun best t => if best.precedes t then best else t) t)

/-- Credits one goal to the first test case that covers it. -/
def credit (s : Suite) (g : Nat) : Regional Suite := do
  match s.coveredBy.get? g with
  | none => return s
  | some testCases =>
    let complete ← s.isCovered g
    match s.firstCovering? testCases with
    | none => return s
    | some t =>
      return s.updateTestCase t.id fun t =>
        if complete then { t with newlyCovered := t.newlyCovered + 1 }
        else { t with newlyPartial := t.newlyPartial + 1 }

/-- Credits every covered goal anew. -/
def creditAll (s : Suite) : Regional Suite :=
  let uncredited := fun t : TestCase => { t with newlyCovered := 0, newlyPartial := 0 }
  s.goalIds.foldlM credit { s with testCases := s.testCases.map uncredited }

/-- The test cases by the times at which they were made. -/
def chronological (s : Suite) : List TestCase := s.testCases.mergeSort TestCase.precedes

/-- Rows that add up the goals credited to the test cases. -/
def creditedRows : (complete inPart : Nat) → List TestCase → List TimelineRow
  | _, _, [] => []
  | complete, inPart, t :: rest =>
    let complete := complete + t.newlyCovered
    let inPart := inPart + t.newlyPartial
    ⟨t.id, t.time, complete + inPart, complete, inPart⟩ :: creditedRows complete inPart rest

/-- Rows that count the goals covered by any of the test cases so far. -/
def coveringRows (s : Suite) : (covered : IdSet) → List TestCase → List TimelineRow
  | _, [] => []
  | covered, t :: rest =>
    let covered := covered.union (s.goalsCoveredBy t.id)
    ⟨t.id, t.time, covered.size, 0, 0⟩ :: s.coveringRows covered rest

def timelineRows (s : Suite) : List TimelineRow :=
  if s.variability then creditedRows 0 0 s.chronological else s.coveringRows ∅ s.chronological

def timelineHeader (s : Suite) : String :=
  if s.variability then
    "Test Case;Generation Time;Covered Goals After Generation;" ++
      "Completely Covered Goals After Generation;Partially Covered Goals After Generation"
  else "Test Case;Generation Time;Covered Goals After Generation"

def timelineRow (s : Suite) (r : TimelineRow) : String :=
  let counts := if s.variability then [r.covered, r.complete, r.inPart] else [r.covered]
  ";".intercalate (([r.testCase, r.time.millis] ++ counts).map toString)

/-- The timeline as text, with the suite in which all goals are credited. -/
def timeline (s : Suite) : Regional (String × Suite) := do
  let s ← s.creditAll
  return (String.join ((s.timelineHeader :: s.timelineRows.map s.timelineRow).map (· ++ "\n")), s)

end Suite

end GoalCoverage
