import BitchatRepeater.LoopPasses

/-!
# The tracker of the program

`Events` lets anything happen to a tracker at any time. The program is more
orderly, but what happens to its tracker is one of those runs: the callbacks in
the order in which they came, and the calls the loop made in theirs.
-/

namespace BitchatRepeater

open Lib Tracker

def Event.loopCall : Event → Option LoopCall
  | .announceToConnections => some .announceToConnections
  | .connectToFirstNeighbour _ => some .connectToFirstNeighbour
  | .sendPackets => some .sendPackets
  | .cleanupStaleItems => some .cleanupStaleItems
  | _ => none

def Event.ofStack : Event → Bool
  | .lifeCheck | .announceToConnections | .connectToFirstNeighbour _ | .getAnyDuplicateHandle
  | .sendPackets | .cleanupStaleItems => false
  | _ => true

def LoopCall.onTracker : LoopCall → Bool
  | .announceToConnections | .connectToFirstNeighbour | .sendPackets | .cleanupStaleItems => true
  | .gapDisconnect _ | .requestNextRssi _ | .startScanning => false

def ProgramAction.event : ProgramAction → Option Event
  | .callback e => some e.1
  | .gapConnectionComplete h address addressType role =>
    some (.connectionComplete h address addressType role)
  | .gattQueryComplete h => some (.gattQueryComplete h)
  | _ => none

namespace Program

def trackerEffects (log : List ProgramEffect) : List Effect :=
  log.filterMap fun
    | .tracker e => some e
    | _ => none

/-- The run `js` is what the tracker saw of a run over `is` that began with `p`. -/
structure Mirrors (P : Platform) (p : Program) (is : List ProgramInput)
    (result : Program × List ProgramEffect) (js : List Input) : Prop where
  tracker : result.1.tracker = (run (BitchatRepeater.step P) p.tracker js).1
  effects : trackerEffects result.2 = (run (BitchatRepeater.step P) p.tracker js).2
  loopCalls : js.filterMap (fun j => j.event.loopCall) = (calls result.2).filter LoopCall.onTracker
  ofStack : (js.map Input.event).filter Event.ofStack = is.filterMap fun i => i.action.event

variable {P : Platform} {p q : Program} {i : ProgramInput} {js js' : List Input}
  {is is' : List ProgramInput} {out out' : List ProgramEffect} {r : Program × List ProgramEffect}

@[simp] theorem trackerEffects_append :
    trackerEffects (out ++ out') = trackerEffects out ++ trackerEffects out' :=
  List.filterMap_append

@[simp] theorem trackerEffects_act (event : Event) (ambient : Ambient) :
    trackerEffects (p.act P event ambient).2 =
    (BitchatRepeater.step P p.tracker ⟨event, ambient⟩).2 := by
  simp [act, trackerEffects, List.filterMap_map]

@[simp] theorem trackerEffects_nil : trackerEffects [] = [] := rfl

@[simp] theorem trackerEffects_cons_of_ne (h : ∀ e, effect ≠ .tracker e) :
    trackerEffects (effect :: out) = trackerEffects out := by
  cases effect <;> first | rfl | exact absurd rfl (h _)

theorem Mirrors.trans (h : Mirrors P p is (q, out) js)
    (h' : Mirrors P q is' r js') : Mirrors P p (is ++ is') (r.1, out ++ r.2) (js ++ js') where
  tracker := by
    rw [run_append, ← h.tracker]
    exact h'.tracker
  effects := by
    rw [trackerEffects_append, run_append, ← h.effects, ← h.tracker, ← h'.effects]
  loopCalls := by
    rw [List.filterMap_append, calls_append, List.filter_append, ← h.loopCalls, ← h'.loopCalls]
  ofStack := by
    rw [List.map_append, List.filter_append, List.filterMap_append, ← h.ofStack, ← h'.ofStack]

theorem mirrors_unseen (hi : i.action.event = none) (htracker : r.1.tracker = p.tracker)
    (heffects : trackerEffects r.2 = []) (hcalls : (calls r.2).filter LoopCall.onTracker = []) :
    Mirrors P p [i] r [] where
  tracker := htracker
  effects := heffects
  loopCalls := hcalls.symm
  ofStack := by simp [hi]

theorem mirrors_seen (event : Event) (call : Option LoopCall) (ambient : Ambient)
    (htracker : r.1.tracker = (BitchatRepeater.step P p.tracker ⟨event, ambient⟩).1)
    (heffects : trackerEffects r.2 = (BitchatRepeater.step P p.tracker ⟨event, ambient⟩).2)
    (hcalls : (calls r.2).filter LoopCall.onTracker = call.toList) (hcall : event.loopCall = call)
    (hstack : i.action.event = if event.ofStack then some event else none) :
    Mirrors P p [i] r [⟨event, ambient⟩] where
  tracker := htracker
  effects := by
    rw [heffects]
    exact (List.append_nil _).symm
  loopCalls := by
    rw [hcalls]
    cases call <;> simp [hcall]
  ofStack := by
    cases h : event.ofStack <;> simp [h, hstack]

theorem mirrors_loop (hi : i.action = .loop) : ∃ js, Mirrors P p [i] (p.loop P i) js := by
  have hno : i.action.event = none := by rw [hi]; rfl
  have unseen {r : Program × List ProgramEffect} (htracker : r.1.tracker = p.tracker)
      (heffects : trackerEffects r.2 = []) (hcalls : (calls r.2).filter LoopCall.onTracker = []) :
      ∃ js, Mirrors P p [i] r js := ⟨[], mirrors_unseen hno htracker heffects hcalls⟩
  have seen {r : Program × List ProgramEffect} (event : Event) (call : Option LoopCall)
      (hs : event.ofStack = false) (hcall : event.loopCall = call)
      (htracker : r.1.tracker = (BitchatRepeater.step P p.tracker ⟨event, i.ambient⟩).1)
      (heffects : trackerEffects r.2 = (BitchatRepeater.step P p.tracker ⟨event, i.ambient⟩).2)
      (hcalls : (calls r.2).filter LoopCall.onTracker = call.toList) : ∃ js, Mirrors P p [i] r js :=
    ⟨[⟨event, i.ambient⟩],
      mirrors_seen event call i.ambient htracker heffects hcalls hcall (by rw [hno, hs]; rfl)⟩
  unfold loop
  split
  next =>
    split
    · unfold loopTop
      simp only
      split
      · refine seen .lifeCheck none rfl rfl ?_ ?_ ?_
        · simp only
          split <;> rfl
        · exact trackerEffects_act _ _
        · simp
      · exact unseen rfl rfl rfl
    · exact unseen rfl rfl rfl
  next =>
    unfold loopAnnounce goTo
    split
    · exact seen .announceToConnections (some .announceToConnections) rfl rfl rfl (by simp)
        (by simp [LoopCall.onTracker])
    · exact unseen rfl rfl rfl
  next =>
    unfold loopConnect
    split
    · refine seen (.connectToFirstNeighbour i.status) (some .connectToFirstNeighbour)
        rfl rfl ?_ ?_ ?_
      · simp only
        split <;> rfl
      · simp only
        split <;> simp
      · simp only
        split <;> simp [LoopCall.onTracker]
    · exact unseen rfl rfl rfl
  next =>
    exact seen .getAnyDuplicateHandle none rfl rfl rfl (by simp [loopDuplicate, goTo])
      (by simp [loopDuplicate, goTo])
  next => exact unseen rfl rfl rfl
  next =>
    exact seen .sendPackets (some .sendPackets) rfl rfl rfl (by simp [loopSend])
      (by simp [loopSend, LoopCall.onTracker])
  next => exact unseen rfl rfl rfl
  next =>
    unfold loopRssi goTo
    split <;> exact unseen rfl rfl rfl
  next =>
    unfold loopScan goTo
    split <;> exact unseen rfl rfl rfl
  next =>
    unfold loopCleanup goTo
    split
    · exact seen .cleanupStaleItems (some .cleanupStaleItems) rfl rfl rfl (by simp)
        (by simp [LoopCall.onTracker])
    · exact unseen rfl rfl rfl
  next =>
    unfold loopSleep
    split
    · exact unseen rfl rfl rfl
    · split <;> exact unseen rfl rfl rfl
  next => exact unseen rfl rfl rfl

theorem mirrors_dispatch (P : Platform) (p : Program) (i : ProgramInput) :
    ∃ js, Mirrors P p [i] (p.dispatch P i) js := by
  unfold dispatch
  cases ha : i.action with
  | callback e =>
    obtain ⟨event, hplain⟩ := e
    have hstack : event.ofStack = true ∧ event.loopCall = none := by
      cases event <;> first | exact ⟨rfl, rfl⟩ | cases hplain
    refine ⟨_, mirrors_seen event none i.ambient rfl (by simp) (by simp) hstack.2 ?_⟩
    rw [ha, hstack.1]
    rfl
  | stackWorking => exact ⟨[], mirrors_unseen (by rw [ha]; rfl) rfl rfl rfl⟩
  | gapConnectionComplete h address addressType role =>
    refine ⟨_, mirrors_seen (.connectionComplete h address addressType role) none i.ambient
      rfl ?_ ?_ rfl ?_⟩
    · simp [gapConnectionComplete]
    · simp [gapConnectionComplete]
    · rw [ha]
      rfl
  | gattQueryComplete h =>
    refine ⟨_, mirrors_seen (.gattQueryComplete h) none i.ambient ?_ ?_ ?_ rfl ?_⟩
    · simp only [gattQueryComplete]
      split <;> rfl
    · simp only [gattQueryComplete]
      split <;> simp
    · simp only [gattQueryComplete]
      split <;> simp
    · rw [ha]
      rfl
  | stopScanTimer => exact ⟨[], mirrors_unseen (by rw [ha]; rfl) rfl rfl rfl⟩
  | exitPin => exact ⟨[], mirrors_unseen (by rw [ha]; rfl) rfl rfl rfl⟩
  | lifeCheckPin => exact ⟨[], mirrors_unseen (by rw [ha]; rfl) rfl rfl rfl⟩
  | otherCallback => exact ⟨[], mirrors_unseen (by rw [ha]; rfl) rfl rfl rfl⟩
  | loop => exact mirrors_loop ha

theorem mirrors_step (P : Platform) (p : Program) (i : ProgramInput) :
    ∃ js, Mirrors P p [i] (step P p i) js := by
  unfold step
  split
  · obtain ⟨js, h⟩ := mirrors_dispatch P p.active i
    exact ⟨js, h.tracker, h.effects, h.loopCalls, h.ofStack⟩
  · exact mirrors_dispatch P p i

theorem mirrors_run (P : Platform) (p : Program) (is : List ProgramInput) :
    ∃ js, Mirrors P p is (run (step P) p is) js := by
  induction is generalizing p with
  | nil => exact ⟨[], rfl, rfl, rfl, rfl⟩
  | cons i is ih =>
    obtain ⟨js, h⟩ := mirrors_step P p i
    obtain ⟨js', h'⟩ := ih (step P p i).1
    exact ⟨js ++ js', h.trans h'⟩

end Program

end BitchatRepeater
