import Mathlib.Algebra.Order.Ring.Rat
import Mathlib.Data.String.Basic
import Mathlib.Order.Compare
import ServiceToolkit.Coverage
import ServiceToolkit.Dict

/-!
# Segment Intervals

The Rust core classifies the time of a project: manual overrides, maintenance reported by a
plugin or by the server's message, and three detectors of suspicious player counts each
produce intervals with a priority, `build_segment_intervals` concatenates and merges them, and
`resolve_state_at` picks the state of an instant, `resolve_state_for_range` that of a range.

Timestamps and averages, `f64` in the source, are rational numbers here: there is no infinity
and no `NaN` (on which `merge_intervals` panics). Differences of timestamps are exact. The sums
and ratios of the near-flat detector are rounded, each operation by `F64.nearest`, about which
nothing is assumed. Player counts, `i64` in the source, are integers, so differences do not
overflow.

Loops of the source are folds. The intervals a loop pushes are kept last first while it runs,
in the accumulators `pushed` below, and reversed at its end.
-/

namespace ServiceToolkit.Segments

/-! ### Data -/

/-- `Sample`. -/
structure Sample where
  ts : ℚ
  online : Option ℤ
  pluginMaintenance : Bool
  motdMaintenance : Bool
  deriving DecidableEq

/-- `Override`. -/
structure Override where
  startsAt : ℚ
  endsAt : ℚ
  mode : String
  deriving DecidableEq

/-- What an interval says about its time. -/
structure Label where
  priority : ℤ
  source : String
  status : Option String
  excludeFromScore : Bool
  clears : Bool
  deriving DecidableEq

/-- `Interval`, with the fields beside its bounds as one label. -/
structure Interval where
  startsAt : ℚ
  endsAt : ℚ
  label : Label
  deriving DecidableEq

/-- `State`. -/
structure State where
  status : Option String
  source : Option String
  excludeFromScore : Bool
  deriving DecidableEq

/-- The state of an instant that nothing is said about. -/
def State.empty : State := ⟨none, none, false⟩

/-! ### Constants -/

def statusSuspect : String := "suspect"

def statusMaintenance : String := "maintenance"

def modeForceNormal : String := "force_normal"

def modeForceSuspect : String := "force_suspect"

def modeForceMaintenance : String := "force_maintenance"

/-- The label of a `force_normal` override (`PRIORITY_MANUAL_CLEAR`). -/
def manualClear : Label := ⟨100, "manual", none, false, true⟩

/-- The label of a `force_suspect` override (`PRIORITY_MANUAL_SUSPECT`). -/
def manualSuspect : Label := ⟨90, "manual", some statusSuspect, true, false⟩

/-- The label of a `force_maintenance` override (`PRIORITY_MANUAL_MAINTENANCE`). -/
def manualMaintenance : Label := ⟨80, "manual", some statusMaintenance, true, false⟩

/-- The label of maintenance reported by the plugin (`PRIORITY_PLUGIN_MAINTENANCE`). -/
def plugin : Label := ⟨70, "plugin", some statusMaintenance, true, false⟩

/-- The label of maintenance reported by the server's message (`PRIORITY_MOTD_MAINTENANCE`). -/
def motd : Label := ⟨60, "motd", some statusMaintenance, true, false⟩

/-- The label of what the detectors find (`PRIORITY_AUTO_SUSPECT`). -/
def autoSuspect : Label := ⟨50, "auto", some statusSuspect, true, false⟩

def suspectTriggerAbsDelta : ℤ := 40

def suspectLargeAbsDelta : ℤ := 80

def suspectResetOnlineMax : ℤ := 2

def suspectResetHighMin : ℤ := 30

def suspectTriggerWindowSecs : ℚ := 30 * 60

def suspectCloseOnlineThreshold : ℤ := 5

def suspectStagnantMinDurationSecs : ℚ := 6 * 60 * 60

def suspectStagnantMaxGapSecs : ℚ := 30 * 60

def suspectNearFlatMinOnline : ℤ := 100

def suspectNearFlatMinDurationSecs : ℚ := 12 * 60 * 60

def suspectNearFlatMaxGapSecs : ℚ := 30 * 60

def suspectNearFlatMaxRangeRatio : ℚ := 12 / 100

def suspectNearFlatMaxMeanDeltaRatio : ℚ := 15 / 1000

def suspectNearFlatMinSmallDeltaRatio : ℚ := 85 / 100

def suspectNearFlatSmallDeltaAbs : ℤ := 3

/-! ### Clamping and merging -/

/-- `clamp`. -/
def clamp (startsAt endsAt windowStart windowEnd : ℚ) : Option (ℚ × ℚ) :=
  let s := max startsAt windowStart
  let e := min endsAt windowEnd
  if e ≤ s then none else some (s, e)

/-- The pushes of the source: the clamped interval with a label, if there is one. -/
def push (pushed : List Interval) (label : Label) (startsAt endsAt windowStart windowEnd : ℚ) :
    List Interval :=
  match clamp startsAt endsAt windowStart windowEnd with
  | some (s, e) => ⟨s, e, label⟩ :: pushed
  | none => pushed

/-- The order `merge_intervals` sorts by. -/
def compareIntervals : Interval → Interval → Ordering :=
  compareLex (compareOn (·.label.priority)) <|
  compareLex (compareOn (·.label.source)) <|
  compareLex (compareOn (·.label.status.getD "")) <|
  compareLex (compareOn (·.label.clears)) <|
  compareLex (compareOn (·.startsAt)) (compareOn (·.endsAt))

/-- The interval is merged into the one before it. -/
def canMerge (prev iv : Interval) : Bool :=
  prev.label == iv.label && decide (iv.startsAt ≤ prev.endsAt)

/-- The one before it reaches as far as both. -/
def extend (prev iv : Interval) : Interval :=
  if iv.endsAt > prev.endsAt then { prev with endsAt := iv.endsAt } else prev

/-- `merge_intervals`. -/
def mergeIntervals (intervals : List Interval) : List Interval :=
  Coverage.mergeRuns canMerge extend
    (intervals.mergeSort fun a b => (compareIntervals a b).isLE)

/-! ### Maintenance -/

/-- The loop of `build_stateful_intervals`: the intervals pushed, and where the current one
started. -/
structure Stateful where
  pushed : List Interval
  currentStart : Option ℚ

/-- One iteration of `build_stateful_intervals`. -/
def statefulStep (activeFn : Sample → Bool) (label : Label) (windowStart windowEnd : ℚ)
    (st : Stateful) (sample : Sample) : Stateful :=
  match st.currentStart with
  | none => if activeFn sample then { st with currentStart := some (max sample.ts windowStart) }
      else st
  | some currentStart =>
    if activeFn sample then st
    else ⟨push st.pushed label currentStart sample.ts windowStart windowEnd, none⟩

/-- What `build_stateful_intervals` pushes. -/
def statefulPushed (label : Label) (windowStart windowEnd : ℚ) (st : Stateful) :
    List Interval :=
  match st.currentStart with
  | some currentStart => push st.pushed label currentStart windowEnd windowStart windowEnd
  | none => st.pushed

/-- `build_stateful_intervals`. -/
def buildStatefulIntervals (samples : List Sample) (windowStart windowEnd : ℚ)
    (activeFn : Sample → Bool) (label : Label) : List Interval :=
  let st := samples.foldl (statefulStep activeFn label windowStart windowEnd) ⟨[], none⟩
  mergeIntervals (statefulPushed label windowStart windowEnd st).reverse

/-! ### Sudden swings -/

/-- `is_suspect_trigger`. -/
def isSuspectTrigger (prev curr : Sample) : Bool :=
  match prev.online, curr.online with
  | some prevOnline, some currOnline =>
    let gap := curr.ts - prev.ts
    let delta := |currOnline - prevOnline|
    let low := min prevOnline currOnline
    let high := max prevOnline currOnline
    let resetSwing := low ≤ suspectResetOnlineMax ∧ high ≥ suspectResetHighMin
    decide (¬ (gap ≤ 0 ∨ gap > suspectTriggerWindowSecs) ∧ ¬ delta < suspectTriggerAbsDelta ∧
      (resetSwing ∨ delta ≥ suspectLargeAbsDelta))
  | _, _ => false

/-- The loop of `build_auto_suspect_intervals`. -/
structure Swings where
  pushed : List Interval
  recentTriggers : List ℚ
  openStart : Option ℚ
  previous : Sample

/-- The sample is known to be low enough to close an interval. -/
def closes (sample : Sample) : Bool :=
  sample.online.any fun online => decide (online ≤ suspectCloseOnlineThreshold)

/-- A swing that did not close an interval may open one: at the second trigger within the
window. -/
def swing (windowStart : ℚ) (st : Swings) (current : Sample) : Swings :=
  if isSuspectTrigger st.previous current then
    let recentTriggers := (st.recentTriggers ++ [st.previous.ts]).filter fun t =>
      decide (current.ts - t ≤ suspectTriggerWindowSecs)
    { st with
      recentTriggers := recentTriggers
      openStart := match st.openStart, recentTriggers with
        | none, first :: _ :: _ => some (max first windowStart)
        | openStart, _ => openStart
      previous := current }
  else { st with previous := current }

/-- One iteration of `build_auto_suspect_intervals`. -/
def swingsStep (windowStart windowEnd : ℚ) (st : Swings) (current : Sample) : Swings :=
  if current.ts < windowStart then { st with previous := current }
  else
    match st.openStart with
    | some start =>
      if closes current then
        ⟨push st.pushed autoSuspect start current.ts windowStart windowEnd, [], none, current⟩
      else swing windowStart st current
    | none => swing windowStart st current

/-- What `build_auto_suspect_intervals` pushes. -/
def swingsPushed (windowStart windowEnd : ℚ) (st : Swings) : List Interval :=
  match st.openStart with
  | some start => push st.pushed autoSuspect start windowEnd windowStart windowEnd
  | none => st.pushed

/-- `build_auto_suspect_intervals`. -/
def buildAutoSuspectIntervals (samples : List Sample) (windowStart windowEnd : ℚ) :
    List Interval :=
  match samples with
  | first :: second :: rest =>
    let st := (second :: rest).foldl (swingsStep windowStart windowEnd) ⟨[], [], none, first⟩
    mergeIntervals (swingsPushed windowStart windowEnd st).reverse
  | _ => []

/-! ### Stagnant counts -/

/-- `push_stagnant_suspect_run`. -/
def pushStagnantSuspectRun (pushed : List Interval) (runValue : Option ℤ)
    (runStart runEnd windowStart windowEnd : ℚ) (stagnantMinOnline : ℤ) : List Interval :=
  match runValue with
  | none => pushed
  | some online =>
    if online < stagnantMinOnline ∨ runEnd - runStart < suspectStagnantMinDurationSecs then pushed
    else push pushed autoSuspect runStart runEnd windowStart windowEnd

/-- The loop of `build_stagnant_suspect_intervals`. -/
structure Stagnant where
  pushed : List Interval
  runValue : Option ℤ
  runStart : ℚ
  previousTs : ℚ

/-- A run may start at the sample. -/
def stagnantFrom (stagnantMinOnline : ℤ) (pushed : List Interval) (sample : Sample) : Stagnant :=
  match sample.online with
  | some online =>
    if online ≥ stagnantMinOnline then ⟨pushed, some online, sample.ts, sample.ts⟩
    else ⟨pushed, none, 0, sample.ts⟩
  | none => ⟨pushed, none, 0, sample.ts⟩

/-- The sample belongs to the run. -/
def sameValue (st : Stagnant) (current : Sample) : Bool :=
  match st.runValue, current.online with
  | some runOnline, some online =>
    runOnline == online && decide (current.ts - st.previousTs ≤ suspectStagnantMaxGapSecs)
  | _, _ => false

/-- One iteration of `build_stagnant_suspect_intervals`. -/
def stagnantStep (windowStart windowEnd : ℚ) (stagnantMinOnline : ℤ) (st : Stagnant)
    (current : Sample) : Stagnant :=
  if sameValue st current then { st with previousTs := current.ts }
  else
    let runEnd :=
      if st.runValue.isSome ∧ current.ts - st.previousTs > suspectStagnantMaxGapSecs then
        st.previousTs
      else current.ts
    stagnantFrom stagnantMinOnline
      (pushStagnantSuspectRun st.pushed st.runValue st.runStart runEnd windowStart windowEnd
        stagnantMinOnline)
      current

/-- `build_stagnant_suspect_intervals`. -/
def buildStagnantSuspectIntervals (samples : List Sample) (windowStart windowEnd : ℚ)
    (stagnantMinOnline : ℤ) : List Interval :=
  match samples with
  | first :: second :: rest =>
    if stagnantMinOnline ≤ 0 then []
    else
      let st := (second :: rest).foldl (stagnantStep windowStart windowEnd stagnantMinOnline)
        (stagnantFrom stagnantMinOnline [] first)
      mergeIntervals (pushStagnantSuspectRun st.pushed st.runValue st.runStart windowEnd
        windowStart windowEnd stagnantMinOnline).reverse
  | _ => []

/-! ### Nearly flat counts -/

/-- The arithmetic of `f64`: what an operation makes of its exact result. -/
class F64 where
  nearest : ℚ → ℚ

/-- `NearFlatRun`. -/
structure NearFlatRun where
  start : ℚ
  previousTs : ℚ
  previousOnline : ℤ
  minOnline : ℤ
  maxOnline : ℤ
  sumOnline : ℚ
  sampleCount : ℤ
  sumDelta : ℚ
  smallDeltaCount : ℤ
  transitionCount : ℤ

section

open F64

variable [F64]

/-- `NearFlatRun::new`. -/
def NearFlatRun.new (ts : ℚ) (online : ℤ) : NearFlatRun where
  start := ts
  previousTs := ts
  previousOnline := online
  minOnline := online
  maxOnline := online
  sumOnline := nearest online
  sampleCount := 1
  sumDelta := 0
  smallDeltaCount := 0
  transitionCount := 0

/-- `NearFlatRun::push`. -/
def NearFlatRun.push (run : NearFlatRun) (ts : ℚ) (online : ℤ) : NearFlatRun :=
  let delta := |online - run.previousOnline|
  { run with
    minOnline := min run.minOnline online
    maxOnline := max run.maxOnline online
    sumOnline := nearest (run.sumOnline + nearest online)
    sampleCount := run.sampleCount + 1
    sumDelta := nearest (run.sumDelta + nearest delta)
    smallDeltaCount :=
      if delta ≤ suspectNearFlatSmallDeltaAbs then run.smallDeltaCount + 1
      else run.smallDeltaCount
    transitionCount := run.transitionCount + 1
    previousTs := ts
    previousOnline := online }

/-- `NearFlatRun::qualifies`. -/
def NearFlatRun.qualifies (run : NearFlatRun) (runEnd : ℚ) : Bool :=
  let meanOnline := nearest (run.sumOnline / nearest run.sampleCount)
  let rangeRatio := nearest (nearest (run.maxOnline - run.minOnline : ℤ) / meanOnline)
  let meanDeltaRatio := nearest (nearest (run.sumDelta / nearest run.transitionCount) / meanOnline)
  let smallDeltaRatio := nearest (nearest run.smallDeltaCount / nearest run.transitionCount)
  decide (¬ runEnd - run.start < suspectNearFlatMinDurationSecs ∧
    ¬ (run.sampleCount < 2 ∨ run.transitionCount ≤ 0) ∧ ¬ meanOnline ≤ 0 ∧
    ¬ rangeRatio > nearest suspectNearFlatMaxRangeRatio ∧
    ¬ meanDeltaRatio > nearest suspectNearFlatMaxMeanDeltaRatio ∧
    smallDeltaRatio ≥ nearest suspectNearFlatMinSmallDeltaRatio)

/-- `push_near_flat_suspect_run`. -/
def pushNearFlatSuspectRun (pushed : List Interval) (run : Option NearFlatRun)
    (runEnd windowStart windowEnd : ℚ) : List Interval :=
  match run with
  | none => pushed
  | some activeRun =>
    if activeRun.qualifies runEnd then
      push pushed autoSuspect activeRun.start runEnd windowStart windowEnd
    else pushed

/-- The loop of `build_near_flat_suspect_intervals`. -/
structure NearFlat where
  pushed : List Interval
  run : Option NearFlatRun

/-- One iteration of `build_near_flat_suspect_intervals`. -/
def nearFlatStep (windowStart windowEnd : ℚ) (minOnline : ℤ) (st : NearFlat)
    (sample : Sample) : NearFlat :=
  match sample.online with
  | none => ⟨pushNearFlatSuspectRun st.pushed st.run sample.ts windowStart windowEnd, none⟩
  | some online =>
    if online < minOnline then
      ⟨pushNearFlatSuspectRun st.pushed st.run sample.ts windowStart windowEnd, none⟩
    else
      match st.run with
      | none => { st with run := some (.new sample.ts online) }
      | some activeRun =>
        if sample.ts ≤ activeRun.previousTs then st
        else if sample.ts - activeRun.previousTs > suspectNearFlatMaxGapSecs then
          ⟨pushNearFlatSuspectRun st.pushed st.run activeRun.previousTs windowStart windowEnd,
            some (.new sample.ts online)⟩
        else { st with run := some (activeRun.push sample.ts online) }

/-- What `build_near_flat_suspect_intervals` pushes. -/
def nearFlatPushed (windowStart windowEnd : ℚ) (st : NearFlat) : List Interval :=
  match st.run with
  | none => st.pushed
  | some activeRun =>
    let runEnd :=
      if windowEnd - activeRun.previousTs > suspectNearFlatMaxGapSecs then activeRun.previousTs
      else windowEnd
    pushNearFlatSuspectRun st.pushed st.run runEnd windowStart windowEnd

/-- `build_near_flat_suspect_intervals`. -/
def buildNearFlatSuspectIntervals (samples : List Sample) (windowStart windowEnd : ℚ)
    (stagnantMinOnline : ℤ) : List Interval :=
  if samples.length < 2 ∨ stagnantMinOnline ≤ 0 then []
  else
    let minOnline := max stagnantMinOnline suspectNearFlatMinOnline
    let st := samples.foldl (nearFlatStep windowStart windowEnd minOnline) ⟨[], none⟩
    mergeIntervals (nearFlatPushed windowStart windowEnd st).reverse

/-! ### All intervals, and the state of an instant -/

/-- The label of an override's mode; an unknown mode has none. -/
def overrideLabel (mode : String) : Option Label :=
  if mode = modeForceNormal then some manualClear
  else if mode = modeForceSuspect then some manualSuspect
  else if mode = modeForceMaintenance then some manualMaintenance
  else none

/-- The manual part of `build_segment_intervals`. -/
def overrideStep (windowStart windowEnd : ℚ) (pushed : List Interval) (ov : Override) :
    List Interval :=
  match overrideLabel ov.mode with
  | some label => push pushed label ov.startsAt ov.endsAt windowStart windowEnd
  | none => pushed

/-- What the three detectors find. -/
def autoIntervals (samples : List Sample) (windowStart windowEnd : ℚ) (stagnantMinOnline : ℤ) :
    List Interval :=
  buildAutoSuspectIntervals samples windowStart windowEnd ++
    buildStagnantSuspectIntervals samples windowStart windowEnd (max stagnantMinOnline 0) ++
    buildNearFlatSuspectIntervals samples windowStart windowEnd (max stagnantMinOnline 0)

/-- `build_segment_intervals`. -/
def buildSegmentIntervals (samples : List Sample) (overrides : List Override)
    (windowStart windowEnd : ℚ) (stagnantMinOnline : ℤ) : List Interval :=
  mergeIntervals <|
    (overrides.foldl (overrideStep windowStart windowEnd) []).reverse ++
    buildStatefulIntervals samples windowStart windowEnd (·.pluginMaintenance) plugin ++
    buildStatefulIntervals samples windowStart windowEnd (·.motdMaintenance) motd ++
    autoIntervals samples windowStart windowEnd stagnantMinOnline

end

/-- The interval covers the instant. -/
def Interval.active (ts : ℚ) (iv : Interval) : Bool :=
  decide (iv.startsAt ≤ ts ∧ ts < iv.endsAt)

/-- `resolve_state_at`. -/
def resolveStateAt (ts : ℚ) (intervals : List Interval) : State :=
  let active := intervals.filter (Interval.active ts)
  if active.any (·.label.clears) then .empty
  else
    match Coverage.maxByKey (·.label.priority) active with
    | some best => ⟨best.label.status, some best.label.source, best.label.excludeFromScore⟩
    | none => .empty

/-- The interval meets the range. -/
def Interval.overlaps (startsAt endsAt : ℚ) (iv : Interval) : Bool :=
  decide (iv.startsAt < endsAt ∧ iv.endsAt > startsAt)

/-- `resolve_state_for_range`. -/
def resolveStateForRange (startsAt endsAt : ℚ) (intervals : List Interval) : State :=
  let active := intervals.filter (Interval.overlaps startsAt endsAt)
  if active.any (·.label.clears) then .empty
  else
    match Coverage.maxByKey (·.label.priority) active with
    | some best => ⟨best.label.status, some best.label.source, best.label.excludeFromScore⟩
    | none => .empty

/-- `build_bucket_state_map`. Distinct bit patterns are distinct instants. -/
def buildBucketStateMap (bucketTimes : List ℚ) (bucketSeconds : ℚ) (intervals : List Interval) :
    Dict ℚ State :=
  if bucketSeconds ≤ 0 then .empty
  else .ofList <| bucketTimes.map fun t =>
    (t, resolveStateForRange t (t + bucketSeconds) intervals)

end ServiceToolkit.Segments
