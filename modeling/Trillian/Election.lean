import Mathlib

/-! Mastership of logs: the `MasterTracker` of `util/tracker.go`, the election runner of each
log, and `LogOperationManager.masterFor`. Each return of a blocking call of a runner is a step,
with what it returns chosen by the environment (an `Event`); the steps of all runners interleave
with the calls of `masterFor` over one shared tracker. -/

namespace Trillian

namespace Election

structure MasterTracker where
  masterFor : AList fun _ : ℤ => Bool
  masterCount : ℤ

/-- `NewMasterTracker`: every ID known, and none held. -/
def newMasterTracker (ids : List ℤ) : MasterTracker :=
  ⟨ids.foldl (fun mf id => mf.insert id false) ∅, 0⟩

namespace MasterTracker

/-- `Set`. Setting an ID to the value it has only logs a warning. -/
def set (mt : MasterTracker) (id : ℤ) (val : Bool) : MasterTracker :=
  let existing := (mt.masterFor.lookup id).getD false
  { masterFor := mt.masterFor.insert id val
    masterCount :=
      if val && !existing then mt.masterCount + 1
      else if !val && existing then mt.masterCount - 1
      else mt.masterCount }

def count (mt : MasterTracker) : ℤ := mt.masterCount

/-- `Held`: the IDs set to true, in increasing order. -/
def held (mt : MasterTracker) : List ℤ :=
  ((mt.masterFor.entries.filter fun e => e.2).map Sigma.fst).mergeSort fun a b => a ≤ b

end MasterTracker

/-- The fields of `LogOperationInfo` the election runner reads, in nanoseconds for a duration. -/
structure LogOperationInfo where
  masterHoldInterval : ℤ
  resignOdds : ℤ

/-- `shouldResign`, given what it reads of the clock (`now`) and of `rand.Intn` (`roll`, reduced
modulo the odds). -/
def shouldResign (info : LogOperationInfo) (masterSince now : ℤ) (roll : ℕ) : Bool :=
  -- Always hold onto mastership for a minimum interval to prevent churn.
  if now - masterSince < info.masterHoldInterval then false
  else if info.resignOdds ≤ 0 then true
  else (roll : ℤ) % info.resignOdds = 0

/-- Where `electionRunner.Run` is blocked. -/
inductive Phase where
  /-- before `election.Start` returns -/
  | starting
  /-- in `WaitForMastership` -/
  | waiting
  /-- in the while-master loop, master since the time given -/
  | master (masterSince : ℤ)
  /-- until the resignation it queued is acted on -/
  | resigning
  /-- returned -/
  | stopped
  deriving DecidableEq, Repr

/-- What a blocking call of `electionRunner.Run` returns. -/
inductive Event where
  | start (err : Option String)
  /-- `now` is what `masterSince` reads of the clock after a success -/
  | waitForMastership (err : Option String) (now : ℤ)
  /-- `ctx.Done()` in the while-master loop -/
  | cancelled
  /-- `now` and `roll` are what `shouldResign` reads after a true result -/
  | isMaster (result : Except String Bool) (now : ℤ) (roll : ℕ)
  /-- the resignation was acted on: `ResignAndRestart` returned, and `done` was sent -/
  | resigned (err : Option String)
  deriving DecidableEq, Repr

namespace ElectionRunner

/-- One step of `electionRunner.Run` of log `logID`; `none` for an event the runner is not waiting
for. -/
def runStep (info : LogOperationInfo) (logID : ℤ) :
    Phase → MasterTracker → Event → Option (Phase × MasterTracker)
  | .starting, mt, .start err => some (if err.isSome then .stopped else .waiting, mt)
  | .waiting, mt, .waitForMastership err now =>
    match err with
    | some _ => some (.stopped, mt)
    | none => some (.master now, mt.set logID true)
  | .master _, mt, .cancelled => some (.stopped, mt)
  | .master masterSince, mt, .isMaster result now roll =>
    match result with
    -- the check failed: back to `WaitForMastership`, and the tracker is left as it is
    | .error _ => some (.waiting, mt)
    | .ok false => some (.waiting, mt.set logID false)
    | .ok true =>
      if shouldResign info masterSince now roll then some (.resigning, mt.set logID false)
      else some (.master masterSince, mt)
  | .resigning, mt, .resigned _ => some (.waiting, mt)
  | _, _, _ => none

end ElectionRunner

/-- `LogOperationManager`, by what `masterFor` and the runners use: whether the registry has an
`ElectionFactory`, the phase of the runner of each log, and the tracker, nil until the first
`masterFor`. -/
structure LogOperationManager where
  electionFactory : Bool
  electionRunner : AList fun _ : ℤ => Phase
  tracker : Option MasterTracker

/-- `NewLogOperationManager`: no runner and no tracker. -/
def newLogOperationManager (electionFactory : Bool) : LogOperationManager := ⟨electionFactory, ∅, none⟩

/-- The loop of `masterFor` that creates a runner for each log without one; `newElection` gives the
error of `NewElection` for a log, if it fails. -/
def createRunners (newElection : ℤ → Option String) :
    List ℤ → (AList fun _ : ℤ => Phase) → Option String × (AList fun _ : ℤ => Phase)
  | [], runners => (none, runners)
  | logID :: ids, runners =>
    match runners.lookup logID with
    | some _ => createRunners newElection ids runners
    | none =>
      match newElection logID with
      | some err => (some s!"failed to create election for {logID}: {err}", runners)
      | none => createRunners newElection ids (runners.insert logID .starting)

namespace LogOperationManager

/-- `masterFor`: the logs to act on. -/
def masterFor (l : LogOperationManager) (allIDs : List ℤ) (newElection : ℤ → Option String) :
    Except String (List ℤ) × LogOperationManager :=
  if !l.electionFactory then (.ok allIDs, l)
  else
    let tracker := l.tracker.getD (newMasterTracker allIDs)
    match createRunners newElection allIDs l.electionRunner with
    | (some err, runners) => (.error err, { l with electionRunner := runners, tracker := some tracker })
    | (none, runners) => (.ok tracker.held, { l with electionRunner := runners, tracker := some tracker })

/-- A step of the runner of `logID`, which sets its own log in the shared tracker. -/
def runnerStep (info : LogOperationInfo) (l : LogOperationManager) (logID : ℤ) (e : Event) :
    Option LogOperationManager := do
  let phase ← l.electionRunner.lookup logID
  let tracker ← l.tracker
  let (phase', tracker') ← ElectionRunner.runStep info logID phase tracker e
  pure { l with electionRunner := l.electionRunner.insert logID phase', tracker := some tracker' }

end LogOperationManager

/-- What happens next to the manager: a call of `masterFor`, or a step of a runner. -/
inductive Action where
  | masterFor (allIDs : List ℤ) (newElection : ℤ → Option String)
  | runner (logID : ℤ) (e : Event)

def Action.apply (info : LogOperationInfo) (l : LogOperationManager) : Action → Option LogOperationManager
  | .masterFor allIDs newElection => some (l.masterFor allIDs newElection).2
  | .runner logID e => l.runnerStep info logID e

/-- The manager after a run of actions, interleaved in any order. -/
def runActions (info : LogOperationInfo) : LogOperationManager → List Action → Option LogOperationManager
  | l, [] => some l
  | l, a :: as => (a.apply info l).bind fun l' => runActions info l' as

/-- The event of the runner of `logID` an action is, if it is one. -/
def Action.eventOf (logID : ℤ) : Action → Option Event
  | .runner i e => if i = logID then some e else none
  | .masterFor _ _ => none

/-- The events of the runner of `logID` in a run. -/
def eventsOf (logID : ℤ) (actions : List Action) : List Event := actions.filterMap (Action.eventOf logID)

/-- The events after which a held log stays held: an `IsMaster` check that returned true or
failed, the cancellation, a failed `WaitForMastership`. -/
def Event.Retains : Event → Prop
  | .isMaster (.ok true) _ _ => True
  | .isMaster (.error _) _ _ => True
  | .cancelled => True
  | .waitForMastership (some _) _ => True
  | _ => False

/-- Since the last successful `WaitForMastership` in `events`, only events that retain mastership. -/
def SinceMastership (events : List Event) : Prop :=
  ∃ pre now post, events = pre ++ .waitForMastership none now :: post ∧ ∀ e ∈ post, e.Retains

/-- The last events are a successful `WaitForMastership` and then only `IsMaster` checks that
returned true. -/
def TrueChecksSinceMastership (events : List Event) : Prop :=
  ∃ pre now post, events = pre ++ .waitForMastership none now :: post ∧
    ∀ e ∈ post, ∃ now roll, e = .isMaster (.ok true) now roll

namespace MasterTracker

variable {mt : MasterTracker} {id id' : ℤ} {val : Bool}

@[simp] theorem lookup_set_self (mt : MasterTracker) (id : ℤ) (val : Bool) :
    (mt.set id val).masterFor.lookup id = some val :=
  AList.lookup_insert _

theorem lookup_set_of_ne (h : id' ≠ id) : (mt.set id val).masterFor.lookup id' = mt.masterFor.lookup id' :=
  AList.lookup_insert_ne h

theorem mem_held_iff : id ∈ mt.held ↔ mt.masterFor.lookup id = some true := by
  rw [held, List.mem_mergeSort, List.mem_map]
  constructor
  · rintro ⟨e, he, rfl⟩
    rw [List.mem_filter] at he
    have hmem : e.2 ∈ mt.masterFor.lookup e.1 := AList.mem_lookup_iff.mpr he.1
    rw [Option.mem_def, he.2] at hmem
    exact hmem
  · intro h
    refine ⟨⟨id, true⟩, List.mem_filter.mpr ⟨AList.mem_lookup_iff.mp h, rfl⟩, rfl⟩

end MasterTracker

theorem lookup_newMasterTracker_ne_true (ids : List ℤ) (id : ℤ) :
    (newMasterTracker ids).masterFor.lookup id ≠ some true := by
  -- every insert of the fold is of `false`
  suffices h : ∀ mf : AList (fun _ : ℤ => Bool), mf.lookup id ≠ some true →
      (ids.foldl (fun mf id => mf.insert id false) mf).lookup id ≠ some true from
    h ∅ (by simp)
  induction ids with
  | nil => exact fun _ h => h
  | cons i ids ih =>
    intro mf hmf
    apply ih
    by_cases hi : id = i
    · subst hi
      simp
    · rwa [AList.lookup_insert_ne hi]

theorem length_filter_kerase (id : ℤ) :
    ∀ l : List (Sigma fun _ : ℤ => Bool), (l.filter fun e => e.2).length =
      ((l.kerase id).filter fun e => e.2).length + if l.dlookup id = some true then 1 else 0
  | [] => rfl
  | ⟨a, b⟩ :: l => by
    by_cases h : id = a
    · subst h
      cases b <;> simp
    · have ih := length_filter_kerase id l
      rw [List.kerase_cons_ne h, List.dlookup_cons_ne l ⟨a, b⟩ h]
      cases b with
      | false => simpa using ih
      | true =>
        simp only [List.filter_cons, if_true, List.length_cons, ih]
        omega

namespace MasterTracker

/-- `masterCount` is the number of IDs set to true. -/
def Consistent (mt : MasterTracker) : Prop :=
  mt.masterCount = ((mt.masterFor.entries.filter fun e => e.2).length : ℤ)

theorem Consistent.set {mt : MasterTracker} (h : mt.Consistent) (id : ℤ) (val : Bool) :
    (mt.set id val).Consistent := by
  have hcount := length_filter_kerase id mt.masterFor.entries
  rw [Consistent] at h ⊢
  -- the entry of `id` is replaced: the count moves by what `Set` adds and takes away
  simp only [MasterTracker.set, AList.entries_insert, List.filter_cons]
  have hlookup : mt.masterFor.entries.dlookup id = mt.masterFor.lookup id := rfl
  rw [hlookup] at hcount
  cases hl : mt.masterFor.lookup id with
  | none => cases val <;> simp_all
  | some b => cases b <;> cases val <;> simp_all

theorem length_held (mt : MasterTracker) : mt.held.length = (mt.masterFor.entries.filter fun e => e.2).length := by
  rw [held, List.length_mergeSort, List.length_map]

/-- In a consistent tracker, `Count` is the length of `Held`. -/
theorem Consistent.count_eq {mt : MasterTracker} (h : mt.Consistent) : mt.count = mt.held.length := by
  rw [count, h, length_held]

end MasterTracker

theorem consistent_newMasterTracker (ids : List ℤ) : (newMasterTracker ids).Consistent := by
  -- no entry of the fold is true
  suffices h : ∀ mf : AList (fun _ : ℤ => Bool), (mf.entries.filter fun e => e.2) = [] →
      ((ids.foldl (fun mf id => mf.insert id false) mf).entries.filter fun e => e.2) = [] by
    rw [MasterTracker.Consistent, newMasterTracker, h ∅ rfl]
    rfl
  induction ids with
  | nil => exact fun _ h => h
  | cons i ids ih =>
    intro mf hmf
    apply ih
    have hsub : ((mf.entries.kerase i).filter fun e => e.2) = [] := by
      rw [List.filter_eq_nil_iff] at hmf ⊢
      exact fun e he => hmf e (List.kerase_sublist i _ |>.subset he)
    simp [AList.entries_insert, hsub]

namespace ElectionRunner

variable {info : LogOperationInfo} {logID : ℤ} {p p' : Phase} {mt mt' : MasterTracker} {e : Event}

/-- What a step of the runner can do: take mastership after `WaitForMastership`, give it up in the
tracker, or leave the tracker as it is, which it does only after `Start`, after a resignation, or
on an event that retains mastership. -/
theorem runStep_cases (h : runStep info logID p mt e = some (p', mt')) :
    (∃ now, p = .waiting ∧ e = .waitForMastership none now ∧ p' = .master now ∧
      mt' = mt.set logID true) ∨
    ((p' = .waiting ∨ p' = .resigning) ∧ mt' = mt.set logID false) ∨
    (mt' = mt ∧ p' ≠ .starting ∧ p' ≠ .resigning ∧ (p = .starting ∨ p = .resigning ∨ e.Retains) ∧
      ∀ t, p' = .master t → p = .master t) := by
  unfold runStep at h
  split at h
  next err =>
    -- `Start`
    obtain ⟨rfl, rfl⟩ := Prod.mk.inj (Option.some.inj h)
    refine .inr (.inr ⟨rfl, ?_, ?_, .inl rfl, ?_⟩) <;> cases err <;> simp
  next err now =>
    split at h
    · obtain ⟨rfl, rfl⟩ := Prod.mk.inj (Option.some.inj h)
      exact .inr (.inr ⟨rfl, nofun, nofun, .inr (.inr trivial), nofun⟩)
    · obtain ⟨rfl, rfl⟩ := Prod.mk.inj (Option.some.inj h)
      exact .inl ⟨now, rfl, rfl, rfl, rfl⟩
  next =>
    -- the cancellation
    obtain ⟨rfl, rfl⟩ := Prod.mk.inj (Option.some.inj h)
    exact .inr (.inr ⟨rfl, nofun, nofun, .inr (.inr trivial), nofun⟩)
  next masterSince result now roll =>
    split at h
    · obtain ⟨rfl, rfl⟩ := Prod.mk.inj (Option.some.inj h)
      exact .inr (.inr ⟨rfl, nofun, nofun, .inr (.inr trivial), nofun⟩)
    · obtain ⟨rfl, rfl⟩ := Prod.mk.inj (Option.some.inj h)
      exact .inr (.inl ⟨.inl rfl, rfl⟩)
    · split at h
      · obtain ⟨rfl, rfl⟩ := Prod.mk.inj (Option.some.inj h)
        exact .inr (.inl ⟨.inr rfl, rfl⟩)
      · obtain ⟨rfl, rfl⟩ := Prod.mk.inj (Option.some.inj h)
        exact .inr (.inr ⟨rfl, nofun, nofun, .inr (.inr trivial), fun _ ht => ht⟩)
  next err =>
    -- the resignation was acted on
    obtain ⟨rfl, rfl⟩ := Prod.mk.inj (Option.some.inj h)
    exact .inr (.inr ⟨rfl, nofun, nofun, .inr (.inl rfl), nofun⟩)
  next => cases h

end ElectionRunner

theorem SinceMastership.snoc {events : List Event} (h : SinceMastership events) {e : Event}
    (he : e.Retains) : SinceMastership (events ++ [e]) := by
  obtain ⟨pre, now, post, rfl, hpost⟩ := h
  refine ⟨pre, now, post ++ [e], by simp, ?_⟩
  intro e' he'
  rcases List.mem_append.mp he' with he' | he'
  · exact hpost e' he'
  · rw [List.mem_singleton.mp he']
    exact he

/-- What holds of the runner of a log after its events: a runner that does not exist yet, is
starting or is resigning does not hold its log, a runner in the while-master loop holds it, and a
held log has seen only retaining events since its last successful `WaitForMastership`. -/
structure RunnerInv (events : List Event) (phase : Option Phase) (entry : Option Bool) : Prop where
  idle : phase = none ∨ phase = some .starting ∨ phase = some .resigning → entry ≠ some true
  master : ∀ t, phase = some (.master t) → entry = some true
  since : entry = some true → SinceMastership events

namespace ElectionRunner

variable {info : LogOperationInfo} {logID : ℤ} {p p' : Phase} {mt mt' : MasterTracker} {e : Event}

theorem runnerInv_runStep {events : List Event}
    (hinv : RunnerInv events (some p) (mt.masterFor.lookup logID))
    (h : runStep info logID p mt e = some (p', mt')) :
    RunnerInv (events ++ [e]) (some p') (mt'.masterFor.lookup logID) := by
  rcases runStep_cases h with ⟨now, -, rfl, rfl, rfl⟩ | ⟨hp', rfl⟩ | ⟨rfl, hstart, hresign, hfrom, hmaster⟩
  · -- mastership taken: the successful wait is the last event
    refine ⟨by simp, fun _ _ => by simp, fun _ => ⟨events, now, [], rfl, nofun⟩⟩
  · -- mastership given up: the log is not held
    have hfalse : (mt.set logID false).masterFor.lookup logID ≠ some true := by simp
    refine ⟨fun _ => hfalse, ?_, fun h => absurd h hfalse⟩
    intro t ht
    rcases hp' with rfl | rfl <;> cases ht
  · -- the tracker is left as it is
    refine ⟨?_, fun t ht => hinv.master t (by rw [hmaster t (Option.some.inj ht)]), fun hheld => ?_⟩
    · rintro (h | h | h) <;> simp_all
    · rcases hfrom with rfl | rfl | hret
      · exact absurd hheld (hinv.idle (.inr (.inl rfl)))
      · exact absurd hheld (hinv.idle (.inr (.inr rfl)))
      · exact (hinv.since hheld).snoc hret

theorem lookup_runStep_of_ne (h : runStep info logID p mt e = some (p', mt')) {id : ℤ}
    (hid : id ≠ logID) : mt'.masterFor.lookup id = mt.masterFor.lookup id := by
  rcases runStep_cases h with ⟨-, -, -, -, rfl⟩ | ⟨-, rfl⟩ | ⟨rfl, -⟩
  · exact MasterTracker.lookup_set_of_ne hid
  · exact MasterTracker.lookup_set_of_ne hid
  · rfl

end ElectionRunner

theorem RunnerInv.of_created {events : List Event} {phase phase' : Option Phase} {entry entry' : Option Bool}
    (h : RunnerInv events phase entry) (hphase : phase' = phase ∨ phase = none ∧ phase' = some .starting)
    (hentry : entry' = entry ∨ entry = none ∧ entry' ≠ some true) : RunnerInv events phase' entry' := by
  constructor
  · intro hidle
    rcases hentry with rfl | ⟨-, hne⟩
    · rcases hphase with rfl | ⟨hnone, -⟩
      · exact h.idle hidle
      · exact h.idle (.inl hnone)
    · exact hne
  · intro t ht
    rcases hphase with rfl | ⟨-, rfl⟩
    · rcases hentry with rfl | ⟨hnone, -⟩
      · exact h.master t ht
      · exact absurd (h.master t ht) (by rw [hnone]; exact nofun)
    · cases ht
  · intro hheld
    rcases hentry with rfl | ⟨-, hne⟩
    · exact h.since hheld
    · exact absurd hheld hne

theorem lookup_createRunners (newElection : ℤ → Option String) (id : ℤ) :
    ∀ (ids : List ℤ) (runners : AList fun _ : ℤ => Phase),
      (createRunners newElection ids runners).2.lookup id = runners.lookup id ∨
        runners.lookup id = none ∧ (createRunners newElection ids runners).2.lookup id = some .starting
  | [], _ => .inl rfl
  | logID :: ids, runners => by
    unfold createRunners
    split
    · exact lookup_createRunners newElection id ids runners
    · next hnone =>
      split
      · exact .inl rfl
      · -- the runner created for `logID`, then the rest of the loop
        rcases lookup_createRunners newElection id ids (runners.insert logID .starting) with
          h | ⟨h, hstart⟩
        · rw [h]
          by_cases hid : id = logID
          · subst hid
            exact .inr ⟨hnone, AList.lookup_insert _⟩
          · exact .inl (AList.lookup_insert_ne hid)
        · by_cases hid : id = logID
          · subst hid
            simp at h
          · rw [AList.lookup_insert_ne hid] at h
            exact .inr ⟨h, hstart⟩

namespace LogOperationManager

/-- The tracker entry of a log, nil without a tracker. -/
def entry (l : LogOperationManager) (id : ℤ) : Option Bool := l.tracker.bind fun t => t.masterFor.lookup id

/-- The invariant of a manager after a run: that of the runner of every log, over its events. -/
def Inv (actions : List Action) (l : LogOperationManager) : Prop :=
  ∀ id, RunnerInv (eventsOf id actions) (l.electionRunner.lookup id) (l.entry id)

end LogOperationManager

@[simp] theorem eventsOf_masterFor (logID : ℤ) (actions : List Action) (allIDs : List ℤ)
    (newElection : ℤ → Option String) :
    eventsOf logID (actions ++ [.masterFor allIDs newElection]) = eventsOf logID actions := by
  simp [eventsOf, Action.eventOf]

theorem eventsOf_runner (id logID : ℤ) (actions : List Action) (e : Event) :
    eventsOf id (actions ++ [.runner logID e]) =
      if logID = id then eventsOf id actions ++ [e] else eventsOf id actions := by
  by_cases h : logID = id <;> simp [eventsOf, Action.eventOf, h]

namespace LogOperationManager

theorem inv_newLogOperationManager (electionFactory : Bool) :
    Inv [] (newLogOperationManager electionFactory) := fun _ =>
  ⟨fun _ => nofun, fun _ => nofun, nofun⟩

/-- `masterFor` changes nothing without an election factory; with one, it creates the tracker if
there is none, and the runners. -/
theorem masterFor_snd (l : LogOperationManager) (allIDs : List ℤ) (newElection : ℤ → Option String) :
    (l.masterFor allIDs newElection).2 = l ∨
      (l.masterFor allIDs newElection).2 = { l with
        electionRunner := (createRunners newElection allIDs l.electionRunner).2
        tracker := some (l.tracker.getD (newMasterTracker allIDs)) } := by
  unfold masterFor
  split
  · exact .inl rfl
  · right
    split <;> next hc => rw [hc]

theorem inv_masterFor {actions : List Action} {l : LogOperationManager} (hinv : Inv actions l)
    (allIDs : List ℤ) (newElection : ℤ → Option String) :
    Inv (actions ++ [.masterFor allIDs newElection]) (l.masterFor allIDs newElection).2 := by
  intro id
  rw [eventsOf_masterFor]
  rcases masterFor_snd l allIDs newElection with h | h <;> rw [h]
  · exact hinv id
  · apply (hinv id).of_created (lookup_createRunners newElection id allIDs l.electionRunner)
    -- the tracker is the one there was, or a new one with no log held
    cases ht : l.tracker with
    | none => exact .inr ⟨by rw [entry, ht]; rfl, lookup_newMasterTracker_ne_true allIDs id⟩
    | some t => exact .inl (by simp [entry, ht])

theorem runnerStep_eq_some {info : LogOperationInfo} {l l' : LogOperationManager} {logID : ℤ} {e : Event}
    (h : l.runnerStep info logID e = some l') :
    ∃ p t p' t', l.electionRunner.lookup logID = some p ∧ l.tracker = some t ∧
      ElectionRunner.runStep info logID p t e = some (p', t') ∧
      l' = { l with electionRunner := l.electionRunner.insert logID p', tracker := some t' } := by
  simp only [runnerStep, Option.bind_eq_bind, Option.bind_eq_some_iff] at h
  obtain ⟨p, hp, t, ht, ⟨p', t'⟩, hstep, hl'⟩ := h
  exact ⟨p, t, p', t', hp, ht, hstep, (Option.some.inj hl').symm⟩

theorem inv_runnerStep {info : LogOperationInfo} {actions : List Action} {l l' : LogOperationManager}
    {logID : ℤ} {e : Event} (hinv : Inv actions l) (h : l.runnerStep info logID e = some l') :
    Inv (actions ++ [.runner logID e]) l' := by
  obtain ⟨p, t, p', t', hp, ht, hstep, rfl⟩ := runnerStep_eq_some h
  intro id
  rw [eventsOf_runner]
  by_cases hid : logID = id
  · -- the runner that stepped
    subst hid
    have hold := hinv logID
    rw [hp, entry, ht] at hold
    simpa [entry, hp] using ElectionRunner.runnerInv_runStep hold hstep
  · -- another log: its runner and its tracker entry are as they were
    have hentry : t'.masterFor.lookup id = t.masterFor.lookup id :=
      ElectionRunner.lookup_runStep_of_ne hstep (Ne.symm hid)
    have hold := hinv id
    rw [entry, ht] at hold
    simpa [entry, AList.lookup_insert_ne (Ne.symm hid), hentry, hid] using hold

end LogOperationManager

theorem runActions_append (info : LogOperationInfo) (l : LogOperationManager) (actions : List Action)
    (a : Action) : runActions info l (actions ++ [a]) = (runActions info l actions).bind (a.apply info) := by
  induction actions generalizing l with
  | nil => simp [runActions]
  | cons a' actions ih => simp only [List.cons_append, runActions, ih, Option.bind_assoc]

/-- Induction over the runs of a new manager: a property of a run and the manager after it that
holds at the start and that every action keeps. -/
theorem runActions_induction {info : LogOperationInfo} {electionFactory : Bool}
    {P : List Action → LogOperationManager → Prop} (hnew : P [] (newLogOperationManager electionFactory))
    (hstep : ∀ actions l a l', P actions l → a.apply info l = some l' → P (actions ++ [a]) l')
    {actions : List Action} {l : LogOperationManager}
    (h : runActions info (newLogOperationManager electionFactory) actions = some l) : P actions l := by
  induction actions using List.reverseRecOn generalizing l with
  | nil =>
    cases h
    exact hnew
  | append_singleton actions a ih =>
    rw [runActions_append] at h
    obtain ⟨l₀, h₀, ha⟩ := Option.bind_eq_some_iff.mp h
    exact hstep actions l₀ a l (ih h₀) ha

namespace LogOperationManager

theorem inv_runActions {info : LogOperationInfo} {electionFactory : Bool} {actions : List Action}
    {l : LogOperationManager} (h : runActions info (newLogOperationManager electionFactory) actions = some l) :
    Inv actions l := by
  apply runActions_induction (inv_newLogOperationManager electionFactory) _ h
  intro actions l a l' hinv ha
  cases a with
  | masterFor allIDs newElection =>
    cases ha
    exact inv_masterFor hinv allIDs newElection
  | runner logID e => exact inv_runnerStep hinv ha

theorem consistent_runActions {info : LogOperationInfo} {electionFactory : Bool} {actions : List Action}
    {l : LogOperationManager} (h : runActions info (newLogOperationManager electionFactory) actions = some l) :
    ∀ t, l.tracker = some t → t.Consistent := by
  apply runActions_induction (P := fun _ l => ∀ t, l.tracker = some t → t.Consistent) (fun _ => nofun) _ h
  intro actions l a l' hcons ha t ht
  cases a with
  | masterFor allIDs newElection =>
    cases ha
    rcases masterFor_snd l allIDs newElection with hl | hl <;> rw [hl] at ht
    · exact hcons t ht
    · -- the tracker there was, or a new one
      cases hl₀ : l.tracker with
      | none =>
        rw [hl₀] at ht
        cases ht
        exact consistent_newMasterTracker allIDs
      | some t₀ =>
        rw [hl₀] at ht
        cases ht
        exact hcons t₀ hl₀
  | runner logID e =>
    obtain ⟨p, t₀, p', t', -, ht₀, hstep, rfl⟩ := runnerStep_eq_some ha
    cases ht
    rcases ElectionRunner.runStep_cases hstep with ⟨-, -, -, -, rfl⟩ | ⟨-, rfl⟩ | ⟨heq, -⟩
    · exact (hcons t₀ ht₀).set logID true
    · exact (hcons t₀ ht₀).set logID false
    · rw [heq]
      exact hcons t₀ ht₀

end LogOperationManager

section Runs

variable {info : LogOperationInfo} {electionFactory : Bool} {actions : List Action}
  {l : LogOperationManager}

/-- A log in the tracker's `Held` has seen, since its runner's last successful `WaitForMastership`,
only `IsMaster` checks that returned true or failed, the cancellation, or failed waits. -/
theorem held_imp_sinceMastership (hrun : runActions info (newLogOperationManager electionFactory) actions = some l)
    {tracker : MasterTracker} (ht : l.tracker = some tracker) {logID : ℤ} (hheld : logID ∈ tracker.held) :
    SinceMastership (eventsOf logID actions) := by
  apply (LogOperationManager.inv_runActions hrun logID).since
  rw [LogOperationManager.entry, ht]
  exact MasterTracker.mem_held_iff.mp hheld

theorem held_imp_sinceMastership_after_wait :
    let actions := [Action.masterFor [1] fun _ => none, .runner 1 (.start none),
      .runner 1 (.waitForMastership none 0)]
    ∃ l tracker, runActions ⟨0, 1⟩ (newLogOperationManager true) actions = some l ∧
      l.tracker = some tracker ∧ 1 ∈ tracker.held ∧ SinceMastership (eventsOf 1 actions) := by
  intro actions
  have hheld : 1 ∈ ((newMasterTracker [1]).set 1 true).held := by
    rw [MasterTracker.mem_held_iff, MasterTracker.lookup_set_self]
  have hrun : runActions ⟨0, 1⟩ (newLogOperationManager true) actions =
      some ⟨true, (((∅ : AList _).insert 1 Phase.starting).insert 1 .waiting).insert 1 (.master 0),
        some ((newMasterTracker [1]).set 1 true)⟩ := rfl
  exact ⟨_, _, hrun, rfl, hheld, held_imp_sinceMastership hrun rfl hheld⟩

/-- A runner in its while-master loop holds its log. -/
theorem held_of_master (hrun : runActions info (newLogOperationManager electionFactory) actions = some l)
    {logID t : ℤ} (hphase : l.electionRunner.lookup logID = some (.master t)) :
    ∃ tracker, l.tracker = some tracker ∧ logID ∈ tracker.held := by
  have hentry := (LogOperationManager.inv_runActions hrun logID).master t hphase
  rw [LogOperationManager.entry] at hentry
  obtain ⟨tracker, ht, hlookup⟩ := Option.bind_eq_some_iff.mp hentry
  exact ⟨tracker, ht, MasterTracker.mem_held_iff.mpr hlookup⟩

/-- `Count` is the number of logs `Held` lists, after any run. -/
theorem count_eq_length_held (hrun : runActions info (newLogOperationManager electionFactory) actions = some l)
    {tracker : MasterTracker} (ht : l.tracker = some tracker) : tracker.count = tracker.held.length :=
  (LogOperationManager.consistent_runActions hrun tracker ht).count_eq

end Runs

/-- What the last event must be where only true checks follow the last successful wait. -/
theorem TrueChecksSinceMastership.last {events : List Event} {e : Event}
    (h : TrueChecksSinceMastership (events ++ [e])) :
    (∃ now, e = .waitForMastership none now) ∨ ∃ now roll, e = .isMaster (.ok true) now roll := by
  obtain ⟨pre, now, post, heq, hpost⟩ := h
  rcases List.eq_nil_or_concat post with rfl | ⟨post', x, rfl⟩
  · -- no check after the wait: the wait is the last event
    have hlast := (List.append_inj' heq rfl).2
    exact .inl ⟨now, List.singleton_inj.mp hlast⟩
  · rw [List.concat_eq_append] at heq hpost
    rw [← List.cons_append, ← List.append_assoc] at heq
    have hlast := List.singleton_inj.mp (List.append_inj' heq rfl).2
    subst hlast
    exact .inr (hpost e (List.mem_append_right _ (List.mem_singleton_self e)))

theorem held_after_failed_isMaster :
    let actions := [Action.masterFor [1] fun _ => none, .runner 1 (.start none),
      .runner 1 (.waitForMastership none 0), .runner 1 (.isMaster (.error "context deadline exceeded") 1 0)]
    ∃ l tracker, runActions ⟨0, 1⟩ (newLogOperationManager true) actions = some l ∧
      l.tracker = some tracker ∧ 1 ∈ tracker.held ∧ l.electionRunner.lookup 1 = some .waiting ∧
      ¬TrueChecksSinceMastership (eventsOf 1 actions) := by
  intro actions
  have hheld : 1 ∈ ((newMasterTracker [1]).set 1 true).held := by
    rw [MasterTracker.mem_held_iff, MasterTracker.lookup_set_self]
  have hevents : eventsOf 1 actions = [.start none, .waitForMastership none 0] ++
      [.isMaster (.error "context deadline exceeded") 1 0] := rfl
  refine ⟨_, _, rfl, rfl, hheld, AList.lookup_insert _, ?_⟩
  rw [hevents]
  intro h
  -- the last event is the failed check
  rcases h.last with ⟨now, hnow⟩ | ⟨now, roll, hcheck⟩
  · cases hnow
  · cases hcheck

end Election

end Trillian
