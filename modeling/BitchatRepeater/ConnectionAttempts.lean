import BitchatRepeater.Program

/-!
# When a connection is tried

The flags that keep the main loop from trying a neighbour, over whole runs of
the program. Between two tries the link that was being set up has been reported
and a query has ended (`tries_apart`). A peer that has the service but not the
characteristic is queried again each time, and nobody is tried any more
(`untried_while_queried`).
-/

namespace BitchatRepeater.Program

open Lib Tracker

variable {P : Platform} {p q : Program} {i : ProgramInput} {out : List ProgramEffect}

def Tries (P : Platform) (p : Program) (i : ProgramInput) : Prop :=
  .call .connectToFirstNeighbour ∈ (step P p i).2

def Starts (P : Platform) (p : Program) (i : ProgramInput) : Prop :=
  .connectionStarted ∈ (step P p i).2

-- ---------------------------------------------------------------------------
-- Steps
-- ---------------------------------------------------------------------------

/-- No neighbour is tried, and no flag but the one for scanning changes. -/
structure Keeps (p q : Program) (out : List ProgramEffect) : Prop where
  connectionInProgress : q.connectionInProgress = p.connectionInProgress
  discoverPrimaryServices : q.discoverPrimaryServices = p.discoverPrimaryServices
  discoverCharacteristicsForService :
    q.discoverCharacteristicsForService = p.discoverCharacteristicsForService
  untried : .call .connectToFirstNeighbour ∉ out
  unstarted : .connectionStarted ∉ out

/-- What a step may do to the flags. -/
inductive FlagStep (P : Platform) (p : Program) (i : ProgramInput) (q : Program)
    (out : List ProgramEffect) : Prop
  | keeps (h : Keeps p q out)
  | tries (idle : p.busy = false)
      (started : .connectionStarted ∈ out → q.connectionInProgress = true)
  | completes (h : Handle) (address : Bytes) (addressType : AddressType) (role : Role)
      (action : i.action = .gapConnectionComplete h address addressType role)
      (discovering : q.discoverPrimaryServices = true)
      (untried : .call .connectToFirstNeighbour ∉ out) (unstarted : .connectionStarted ∉ out)
  | queried (h : Handle) (action : i.action = .gattQueryComplete h)
      (connectionInProgress : q.connectionInProgress = p.connectionInProgress)
      (again : q.discoverCharacteristicsForService =
        (q.tracker.connectionAt h).canAndNeedToDiscoverBitchatCharacteristicsQuery.isSome)
      (untried : .call .connectToFirstNeighbour ∉ out) (unstarted : .connectionStarted ∉ out)

theorem Keeps.same (p : Program) : Keeps p p [] := ⟨rfl, rfl, rfl, by simp, by simp⟩

theorem keeps_act (P : Platform) (p : Program) (event : Event) (ambient : Ambient) :
    Keeps p (p.act P event ambient).1 (p.act P event ambient).2 :=
  ⟨rfl, rfl, rfl, by simp [act], by simp [act]⟩

theorem Keeps.cons (h : Keeps p q out) {e : ProgramEffect} (ht : e ≠ .call .connectToFirstNeighbour)
    (hs : e ≠ .connectionStarted) : Keeps p q (e :: out) :=
  { h with
    untried := fun hm => (List.mem_cons.mp hm).elim (fun he => ht he.symm) h.untried
    unstarted := fun hm => (List.mem_cons.mp hm).elim (fun he => hs he.symm) h.unstarted }

theorem keeps_goTo {result : Program × List ProgramEffect} (h : Keeps p result.1 result.2)
    (stage : LoopStage) : Keeps p (goTo stage result).1 (goTo stage result).2 :=
  ⟨h.1, h.2, h.3, h.4, h.5⟩

theorem keeps_loop (hs : p.stage ≠ .connect) : Keeps p (p.loop P i).1 (p.loop P i).2 := by
  unfold loop
  split
  next =>
    split
    · unfold loopTop
      simp only
      split
      · have h := keeps_act P { p with loopStart := timeUs32 i.time, stage := .announce,
                                       lifeCheck := false }
          .lifeCheck i.ambient
        have h := h.cons (e := .passStarts i.time) (by simp) (by simp)
        split <;> exact ⟨h.1, h.2, h.3, h.4, h.5⟩
      · exact ⟨rfl, rfl, rfl, by simp, by simp⟩
    · exact .same p
  next =>
    refine keeps_goTo ?_ _
    split
    · have h := (keeps_act P p .announceToConnections i.ambient).cons
        (e := .call .announceToConnections) (by simp) (by simp)
      exact ⟨h.1, h.2, h.3, h.4, h.5⟩
    · exact .same p
  next h => exact absurd h hs
  next => exact keeps_goTo (keeps_act P p _ _) _
  next => exact ⟨rfl, rfl, rfl, by simp [loopDisconnect], by simp [loopDisconnect]⟩
  next =>
    have h := (keeps_act P p .sendPackets i.ambient).cons (e := .call .sendPackets)
      (by simp) (by simp)
    exact ⟨h.1, h.2, h.3, h.4, h.5⟩
  next => exact ⟨rfl, rfl, rfl, by simp [loopFlash], by simp [loopFlash]⟩
  next =>
    refine keeps_goTo ?_ _
    split
    · exact .same p
    · exact ⟨rfl, rfl, rfl, by simp, by simp⟩
  next =>
    refine keeps_goTo ?_ _
    split
    · exact ⟨rfl, rfl, rfl,
        by simp [startScanningForLocalNodes], by simp [startScanningForLocalNodes]⟩
    · exact .same p
  next =>
    refine keeps_goTo ?_ _
    split
    · have h := (keeps_act P p .cleanupStaleItems i.ambient).cons
        (e := .call .cleanupStaleItems) (by simp) (by simp)
      exact ⟨h.1, h.2, h.3, h.4, h.5⟩
    · exact .same p
  next =>
    unfold loopSleep
    split
    · exact ⟨rfl, rfl, rfl, by simp, by simp⟩
    · split <;> exact ⟨rfl, rfl, rfl, by simp, by simp⟩
  next => exact ⟨rfl, rfl, rfl, by simp [loopWfi], by simp [loopWfi]⟩

theorem flagStep_connect (P : Platform) (p : Program) (i : ProgramInput) :
    FlagStep P p i (p.loopConnect P i).1 (p.loopConnect P i).2 := by
  unfold loopConnect
  split
  next hgate =>
    have hidle : p.busy = false := by
      simp only [Bool.and_eq_true, Bool.not_eq_true'] at hgate
      exact hgate.1
    simp only
    split
    · exact .tries hidle fun _ => rfl
    · refine .tries hidle fun hm => ?_
      simp [act] at hm
  next => exact .keeps ⟨rfl, rfl, rfl, by simp, by simp⟩

theorem dispatch_flags (P : Platform) (p : Program) (i : ProgramInput) :
    FlagStep P p i (p.dispatch P i).1 (p.dispatch P i).2 := by
  unfold dispatch
  cases ha : i.action with
  | callback e => exact .keeps (keeps_act P p _ _)
  | stackWorking =>
    exact .keeps ⟨rfl, rfl, rfl,
      by simp [startScanningForLocalNodes], by simp [startScanningForLocalNodes]⟩
  | gapConnectionComplete h address addressType role =>
    have hk := keeps_act P p (.connectionComplete h address addressType role) i.ambient
    refine .completes h address addressType role ha rfl ?_ ?_
    · simpa [gapConnectionComplete] using hk.untried
    · simpa [gapConnectionComplete] using hk.unstarted
  | gattQueryComplete h =>
    have hk := keeps_act P p (.gattQueryComplete h) i.ambient
    simp only [gattQueryComplete]
    split
    next service hservice =>
      refine .queried h ha rfl ?_ ?_ ?_
      · simp [hservice]
      · simpa using hk.untried
      · simpa using hk.unstarted
    next hservice =>
      refine .queried h ha rfl ?_ hk.untried hk.unstarted
      simp [hservice]
  | stopScanTimer => exact .keeps ⟨rfl, rfl, rfl, by simp, by simp⟩
  | exitPin => exact .keeps ⟨rfl, rfl, rfl, by simp, by simp⟩
  | lifeCheckPin => exact .keeps ⟨rfl, rfl, rfl, by simp, by simp⟩
  | otherCallback => exact .keeps (.same p)
  | loop =>
    by_cases hs : p.stage = .connect
    · simp only [loop, hs]
      exact flagStep_connect P p i
    · exact .keeps (keeps_loop hs)

theorem step_flags (P : Platform) (p : Program) (i : ProgramInput) :
    FlagStep P p i (step P p i).1 (step P p i).2 := by
  unfold step
  split
  · -- counting is no matter of the flags
    cases dispatch_flags P p.active i with
    | keeps hk => exact .keeps ⟨hk.1, hk.2, hk.3, hk.4, hk.5⟩
    | tries idle started => exact .tries idle started
    | completes h address addressType role action discovering untried unstarted =>
      exact .completes h address addressType role action discovering untried unstarted
    | queried h action same again untried unstarted =>
      exact .queried h action same again untried unstarted
  · exact dispatch_flags P p i

theorem not_busy_of_tries (h : Tries P p i) : p.busy = false := by
  cases step_flags P p i with
  | keeps hk => exact absurd h hk.untried
  | tries idle => exact idle
  | completes _ _ _ _ _ _ untried => exact absurd h untried
  | queried _ _ _ _ untried => exact absurd h untried

theorem inProgress_of_starts (h : Starts P p i) : (step P p i).1.connectionInProgress = true := by
  cases step_flags P p i with
  | keeps hk => exact absurd h hk.unstarted
  | tries _ started => exact started h
  | completes _ _ _ _ _ _ _ unstarted => exact absurd h unstarted
  | queried _ _ _ _ _ unstarted => exact absurd h unstarted

/-- Only the report of a link ends the attempt, and a search for its services begins. -/
theorem completes_of_clears (h : p.connectionInProgress = true)
    (h' : (step P p i).1.connectionInProgress = false) :
    (∃ h address addressType role, i.action = .gapConnectionComplete h address addressType role) ∧
      (step P p i).1.discoverPrimaryServices = true := by
  cases step_flags P p i with
  | keeps hk => rw [hk.connectionInProgress, h] at h'; cases h'
  | tries idle => simp [busy, h] at idle
  | completes k address addressType role action discovering =>
    exact ⟨⟨k, address, addressType, role, action⟩, discovering⟩
  | queried _ _ same => rw [same, h] at h'; cases h'

theorem queried_of_clears (h : p.discoverPrimaryServices = true)
    (h' : (step P p i).1.discoverPrimaryServices = false) :
    ∃ h, i.action = .gattQueryComplete h := by
  cases step_flags P p i with
  | keeps hk => rw [hk.discoverPrimaryServices, h] at h'; cases h'
  | tries idle => simp [busy, h] at idle
  | completes _ _ _ _ _ discovering => rw [discovering] at h'; cases h'
  | queried k action => exact ⟨k, action⟩

-- ---------------------------------------------------------------------------
-- Runs
-- ---------------------------------------------------------------------------

/-- Once a connection has been started, a neighbour is tried only after the stack
has reported a link and after that the end of a query. -/
theorem tries_apart (P : Platform) (p : Program) (i j : ProgramInput) (middle : List ProgramInput)
    (hstart : Starts P p i) (htry : Tries P (run (step P) p (i :: middle)).1 j) :
    ∃ before c between q after h address addressType role k,
      middle = before ++ c :: between ++ q :: after ∧
      c.action = .gapConnectionComplete h address addressType role ∧
      q.action = .gattQueryComplete k := by
  have hidle := not_busy_of_tries htry
  simp only [busy, Bool.or_eq_false_iff] at hidle
  obtain ⟨⟨⟨-, hprogress⟩, hprimary⟩, -⟩ := hidle
  obtain ⟨before, c, rest, rfl, hon, hoff⟩ :=
    run_clears (inProgress_of_starts hstart) hprogress
  obtain ⟨⟨h, address, addressType, role, hc⟩, hfound⟩ := completes_of_clears hon hoff
  have hrest :
      (run (step P) (step P (run (step P) (step P p i).1 before).1 c).1
        rest).1.discoverPrimaryServices = false := by
    simpa [run, run_append] using hprimary
  obtain ⟨between, q, after, rfl, hon', hoff'⟩ := run_clears hfound hrest
  obtain ⟨k, hq⟩ := queried_of_clears hon' hoff'
  exact ⟨before, c, between, q, after, h, address, addressType, role, k, by simp, hc, hq⟩

/-- Where a query ends, the service of the peer is known and its characteristic is not. -/
def StillMissing (p : Program) (i : ProgramInput) : Prop :=
  match i.action with
  | .gattQueryComplete h =>
    ((p.tracker.connectionForConnHandle h).connectionAt
      h).canAndNeedToDiscoverBitchatCharacteristicsQuery.isSome
  | _ => True

instance decidableStillMissing (p : Program) : (i : ProgramInput) → Decidable (StillMissing p i)
  | ⟨.gattQueryComplete h, _, _, _⟩ => inferInstanceAs (Decidable
      (((p.tracker.connectionForConnHandle h).connectionAt
        h).canAndNeedToDiscoverBitchatCharacteristicsQuery.isSome = true))
  | ⟨.callback _, _, _, _⟩ => isTrue trivial
  | ⟨.stackWorking, _, _, _⟩ => isTrue trivial
  | ⟨.gapConnectionComplete .., _, _, _⟩ => isTrue trivial
  | ⟨.stopScanTimer, _, _, _⟩ => isTrue trivial
  | ⟨.exitPin, _, _, _⟩ => isTrue trivial
  | ⟨.lifeCheckPin, _, _, _⟩ => isTrue trivial
  | ⟨.otherCallback, _, _, _⟩ => isTrue trivial
  | ⟨.loop, _, _, _⟩ => isTrue trivial

theorem step_gattQueryComplete (hi : i.action = .gattQueryComplete h) :
    step P p i = p.active.gattQueryComplete P i.ambient h := by
  unfold step dispatch
  rw [hi]
  rfl

theorem queriedAgain_of_missing (hm : StillMissing p i) (hi : i.action = .gattQueryComplete h) :
    (step P p i).1.discoverCharacteristicsForService = true ∧
      ∃ service, .discoverCharacteristics h service ∈ (step P p i).2 := by
  unfold StillMissing at hm
  rw [hi] at hm
  obtain ⟨service, hservice⟩ := Option.isSome_iff_exists.mp hm
  have hafter : ((p.active.act P (.gattQueryComplete h) i.ambient).1.tracker.connectionAt
      h).canAndNeedToDiscoverBitchatCharacteristicsQuery = some service := hservice
  rw [step_gattQueryComplete hi]
  simp only [gattQueryComplete, hafter]
  exact ⟨trivial, service, by simp⟩

theorem discovering_step (hm : StillMissing p i) (hd : p.discoverCharacteristicsForService = true) :
    (step P p i).1.discoverCharacteristicsForService = true := by
  cases step_flags P p i with
  | keeps hk => exact hk.discoverCharacteristicsForService.trans hd
  | tries idle => simp [busy, hd] at idle
  | completes h address addressType role action =>
    simp only [step, dispatch, action]
    exact hd
  | queried h action => exact (queriedAgain_of_missing hm action).1

/-- A peer whose characteristic is not found is queried again whenever a query ends,
and as long as all queries end so no neighbour is tried. -/
theorem untried_while_queried (P : Platform) (p : Program) (i : ProgramInput)
    (is : List ProgramInput)
    (hi : i.action = .gattQueryComplete h) (hm : Along (step P) StillMissing p (i :: is)) :
    Along (step P) (fun p j => ¬ Tries P p j ∧ ∀ k, j.action = .gattQueryComplete k →
      ∃ service, .discoverCharacteristics k service ∈ (step P p j).2) (step P p i).1 is := by
  refine hm.2.imp_invariant (fun p => p.discoverCharacteristicsForService = true)
    (fun p j hd hj => ?_)
    (queriedAgain_of_missing hm.1 hi).1
  refine ⟨⟨fun htry => ?_, fun k hk => (queriedAgain_of_missing hj hk).2⟩, discovering_step hj hd⟩
  have hidle := not_busy_of_tries htry
  simp [busy, hd] at hidle

-- ---------------------------------------------------------------------------
-- Two neighbours
-- ---------------------------------------------------------------------------

def twoNeighbours : List ProgramInput :=
  [onCallback ⟨.advertisingReport [1, 1, 1, 1, 1, 1] .lePublic .serviceUUIDAndNameFound (-60), rfl⟩,
    onCallback
      ⟨.advertisingReport [2, 2, 2, 2, 2, 2] .lePublic .serviceUUIDAndNameFound (-60), rfl⟩,
    onLoop 3000000, onLoop 3000000]

def firstLink : List ProgramInput :=
  [⟨.gapConnectionComplete 64 [1, 1, 1, 1, 1, 1] .lePublic .master, .idle, 0, 0⟩,
    ⟨.gattQueryComplete 64, .idle, 0, 0⟩] ++ List.replicate 8 (onLoop 3000000)

theorem second_tried_after_first : ∃ before c between q after h address addressType role k,
    firstLink = before ++ c :: between ++ q :: after ∧
    c.action = .gapConnectionComplete h address addressType role ∧
    q.action = .gattQueryComplete k :=
  tries_apart .bare (run (step .bare) (start 0 0) twoNeighbours).1 (onLoop 3000000)
  (onLoop 3000000) firstLink
    (by unfold Starts; decide +kernel) (by unfold Tries; decide +kernel)

/-- The first has the service but no characteristic, at the second query either. -/
def noCharacteristic : List ProgramInput :=
  [⟨.gapConnectionComplete 64 [1, 1, 1, 1, 1, 1] .lePublic .master, .idle, 0, 0⟩,
    onCallback ⟨.gattServiceQueryResult 64 ⟨0, bitchatServiceUuid, 16, 20⟩, rfl⟩]

theorem second_untried :
    Along (step .bare) (fun p j => ¬ Tries .bare p j ∧ ∀ k, j.action = .gattQueryComplete k →
        ∃ service, .discoverCharacteristics k service ∈ (step .bare p j).2)
      (step .bare (run (step .bare) (start 0 0)
        (twoNeighbours ++ onLoop 3000000 :: noCharacteristic)).1
        ⟨.gattQueryComplete 64, .idle, 0, 0⟩).1
      (⟨.gattQueryComplete 64, .idle, 0, 0⟩ :: List.replicate 20 (onLoop 9000000)) :=
  untried_while_queried .bare _ ⟨.gattQueryComplete 64, .idle, 0, 0⟩ _ rfl (by decide +kernel)

end BitchatRepeater.Program
