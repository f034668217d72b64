import BitchatRepeater.Program

/-!
# Passes of the loop

The loop of the program, taken stage by stage with callbacks between them, makes
the calls and keeps the timers of `LoopTimers.pass`, which takes a pass in one
step. What a pass is given there, the program finds out on the way.
-/

namespace BitchatRepeater

open Lib Tracker

def LoopCall.stage : LoopCall → LoopStage
  | .announceToConnections => .announce
  | .connectToFirstNeighbour => .connect
  | .gapDisconnect duplicate => .disconnect duplicate
  | .sendPackets => .send
  | .requestNextRssi _ => .rssi
  | .startScanning => .scan
  | .cleanupStaleItems => .cleanup

def ProgramEffect.stage : ProgramEffect → Option LoopStage
  | .call c => some c.stage
  | .passStarts _ => some .top
  | .connectionStarted => some .connect
  | .startScan => some .scan
  | .rssiOf _ => some .rssi
  | .sleep => some .wfi
  | .tracker _ | .setupAdvertisements | .enableAdvertisements | .stopScan
  | .discoverPrimaryServices _
  | .discoverCharacteristics .. => none

namespace Program

def calls (log : List ProgramEffect) : List LoopCall :=
  log.filterMap fun
    | .call c => some c
    | _ => none

def starts (log : List ProgramEffect) : List Nat :=
  log.filterMap fun
    | .passStarts time => some time
    | _ => none

section Log
variable {log out : List ProgramEffect}

@[simp] theorem calls_append : calls (log ++ out) = calls log ++ calls out := List.filterMap_append

@[simp] theorem starts_append : starts (log ++ out) = starts log ++ starts out :=
  List.filterMap_append

@[simp] theorem calls_nil : calls [] = [] := rfl

@[simp] theorem calls_call : calls (.call c :: out) = c :: calls out := rfl

@[simp] theorem starts_nil : starts [] = [] := rfl

@[simp] theorem starts_passStarts : starts (.passStarts time :: out) = time :: starts out := rfl

@[simp] theorem calls_cons_of_ne (h : ∀ c, e ≠ .call c) : calls (e :: out) = calls out := by
  cases e <;> first | rfl | exact absurd rfl (h _)

@[simp] theorem starts_cons_of_ne (h : ∀ time, e ≠ .passStarts time) :
    starts (e :: out) = starts out := by
  cases e <;> first | rfl | exact absurd rfl (h _)

end Log

end Program

-- ---------------------------------------------------------------------------
-- A pass up to a stage
-- ---------------------------------------------------------------------------

namespace LoopTimers

section Upto
variable (v : LoopTimers) (q : LoopPass)

def announces : Bool := elapsed (timeUs32 q.loopStart) v.lastAnnounce twoSecondsInUs

def connects : Bool := !q.busy && holdOffOver v.disconnectionStartedAt (timeUs32 q.loopStart)

def disconnects : Bool := v.connects q && !q.connecting && q.duplicate ≠ 0

def announced : LoopTimers × List LoopCall :=
  ({ v with lastAnnounce := if v.announces q then timeUs32 q.announced else v.lastAnnounce },
    if v.announces q then [.announceToConnections] else [])

def connected : LoopTimers × List LoopCall :=
  ((v.announced q).1, (v.announced q).2 ++ if v.connects q then [.connectToFirstNeighbour] else [])

def disconnected : LoopTimers × List LoopCall :=
  ({ (v.connected q).1 with
      disconnectionStartedAt :=
        if v.disconnects q && q.disconnectStatus = 0 then timeUs32 q.disconnected
        else v.disconnectionStartedAt },
    (v.connected q).2 ++ if v.disconnects q then [.gapDisconnect q.duplicate] else [])

def flashed : LoopTimers × List LoopCall :=
  ({ (v.disconnected q).1 with
      lastFlash := if elapsed (timeUs32 q.loopStart) v.lastFlash twoSecondsInUs then
      timeUs32 q.flashed
        else v.lastFlash },
    (v.disconnected q).2 ++ [.sendPackets])

def swept : LoopTimers × List LoopCall :=
  let rssi := v.rssiRestart (timeUs32 q.loopStart)
  ({ (v.flashed q).1 with
      lastRssiUpdate := if rssi = some true then timeUs32 q.rssiRequested else v.lastRssiUpdate
      rssiUpdateInProgress := rssi.isSome && q.moreRssi },
    (v.flashed q).2 ++ (rssi.map LoopCall.requestNextRssi).toList)

def scanned : LoopTimers × List LoopCall :=
  let scan := elapsed (timeUs32 q.loopStart) v.lastScan tenMinutesInUs
  ({ (v.swept q).1 with lastScan := if scan then timeUs32 q.scanStarted else v.lastScan },
    (v.swept q).2 ++ if scan then [.startScanning] else [])

def upTo : LoopStage → LoopTimers × List LoopCall
  | .top | .announce => (v, [])
  | .connect => v.announced q
  | .duplicate | .disconnect _ => v.connected q
  | .send => v.disconnected q
  | .flash => ((v.disconnected q).1, (v.disconnected q).2 ++ [.sendPackets])
  | .rssi => v.flashed q
  | .scan => v.swept q
  | .cleanup => v.scanned q
  | .sleep | .wfi => v.pass q

variable {v q} in
theorem disconnected_of_not (h : v.disconnects q = false) : v.disconnected q = v.connected q := by
  simp only [disconnected, h, Bool.false_and, Bool.false_eq_true, if_false, List.append_nil]
  rfl

variable {v q} in
theorem disconnected_of (h : v.disconnects q) : v.disconnected q =
    ({ (v.connected q).1 with
        disconnectionStartedAt :=
          if q.disconnectStatus = 0 then timeUs32 q.disconnected else v.disconnectionStartedAt },
      (v.connected q).2 ++ [.gapDisconnect q.duplicate]) := by
  simp [disconnected, h]

def Reaches : LoopStage → Prop
  | .duplicate => v.connects q ∧ q.connecting = false
  | .disconnect duplicate =>
    v.connects q ∧ q.connecting = false ∧ q.duplicate = duplicate ∧ duplicate ≠ 0
  | _ => True

theorem upTo_prefix (stage : LoopStage) : (v.upTo q stage).2 <+: (v.pass q).2 := by
  have hfull : (v.pass q).2 = (v.scanned q).2 ++
      if elapsed (timeUs32 q.loopStart) v.lastCleanup tenMinutesInUs then [.cleanupStaleItems]
      else [] := rfl
  have hscan : (v.scanned q).2 <+: (v.pass q).2 := hfull ▸ List.prefix_append _ _
  have hsweep := (List.prefix_append (v.swept q).2 _).trans hscan
  have hflash := (List.prefix_append (v.flashed q).2 _).trans hsweep
  have hsend := (List.prefix_append (v.disconnected q).2 _).trans hflash
  have hconnect := (List.prefix_append (v.connected q).2 _).trans hsend
  cases stage with
  | top | announce => exact List.nil_prefix
  | connect => exact (List.prefix_append (v.announced q).2 _).trans hconnect
  | duplicate | disconnect => exact hconnect
  | send => exact hsend
  | flash => exact hflash
  | rssi => exact hflash
  | scan => exact hsweep
  | cleanup => exact hscan
  | sleep | wfi => exact List.prefix_refl _

end Upto

end LoopTimers

-- ---------------------------------------------------------------------------
-- Stages
-- ---------------------------------------------------------------------------

namespace Program

variable {P : Platform} {p : Program} {i : ProgramInput} {v : LoopTimers} {q : LoopPass}
  {log : List ProgramEffect}

def readings (q : LoopPass) : LoopStage → List Nat
  | .top => []
  | _ => [q.loopStart]

/-- The program is in a pass `q` that began with the timers `v`, and this happened in it. -/
structure Within (v : LoopTimers) (q : LoopPass) (p : Program)
    (log : List ProgramEffect) : Prop where
  reaches : v.Reaches q p.stage
  loopStart : p.stage ≠ .top → p.loopStart = timeUs32 q.loopStart
  starts : starts log = readings q p.stage
  upTo : v.upTo q p.stage = (p.timers, calls log)

@[simp] theorem timers_act (event : Event) (ambient : Ambient) :
    (p.act P event ambient).1.timers = p.timers := rfl

@[simp] theorem calls_act (event : Event) (ambient : Ambient) :
    calls (p.act P event ambient).2 = [] := by
  simp [act, calls, List.filterMap_map]

@[simp] theorem starts_act (event : Event) (ambient : Ambient) :
    starts (p.act P event ambient).2 = [] := by
  simp [act, starts, List.filterMap_map]

theorem within_top (h : Within v q p log) (hs : p.stage = .top) :
    ∃ q, Within v q (p.loopTop P i).1 (log ++ (p.loopTop P i).2) := by
  obtain ⟨-, -, hstarts, hupTo⟩ := h
  rw [hs] at hupTo hstarts
  refine ⟨{ q with loopStart := i.time }, ?_⟩
  unfold loopTop
  simp only
  split
  · generalize hr : ({ p with loopStart := timeUs32 i.time, stage := .announce,
                              lifeCheck := false } : Program).act
      P .lifeCheck i.ambient = result
    have hstage : result.1.stage = .announce := hr ▸ rfl
    have hstart : result.1.loopStart = timeUs32 i.time := hr ▸ rfl
    have htimers : result.1.timers = p.timers := hr ▸ rfl
    have hcalls : calls result.2 = [] := hr ▸ calls_act _ _
    have hnone : starts result.2 = [] := hr ▸ starts_act _ _
    split
    all_goals
      refine ⟨?_, fun _ => hstart, ?_, ?_⟩
      · simp [LoopTimers.Reaches, active, hstage]
      · simp [hstarts, hnone, hstage, readings, active]
      · simpa [hcalls, hstage, htimers, LoopTimers.upTo, active] using hupTo
  · refine ⟨trivial, fun _ => rfl, ?_, ?_⟩
    · rw [starts_append, hstarts]
      rfl
    · rw [calls_append, calls_cons_of_ne (by simp), calls_nil, List.append_nil]
      exact hupTo

theorem within_announce (h : Within v q p log) (hs : p.stage = .announce) :
    ∃ q, Within v q (p.loopAnnounce P i).1 (log ++ (p.loopAnnounce P i).2) := by
  obtain ⟨-, hstart, hstarts, hupTo⟩ := h
  have hstart := hstart (by simp [hs])
  rw [hs] at hupTo hstarts
  obtain ⟨rfl, hcalls⟩ := Prod.mk.inj hupTo
  have hdue : elapsed p.loopStart p.timers.lastAnnounce twoSecondsInUs =
      p.timers.announces { q with announced := i.time } := by
    rw [hstart]
    rfl
  refine ⟨{ q with announced := i.time }, ?_⟩
  unfold loopAnnounce goTo
  rw [hdue]
  split
  next hd =>
    refine ⟨trivial, fun _ => hstart, ?_, ?_⟩
    · simp [hstarts, readings]
    · simp [LoopTimers.upTo, LoopTimers.announced, hd, ← hcalls]
  next hd =>
    refine ⟨trivial, fun _ => hstart, ?_, ?_⟩
    · simp [hstarts, readings]
    · simp [LoopTimers.upTo, LoopTimers.announced, hd, ← hcalls]

theorem within_connect (h : Within v q p log) (hs : p.stage = .connect) :
    ∃ q, Within v q (p.loopConnect P i).1 (log ++ (p.loopConnect P i).2) := by
  obtain ⟨-, hstart, hstarts, hupTo⟩ := h
  have hstart := hstart (by simp [hs])
  rw [hs] at hupTo hstarts
  generalize hq : ({ q with busy := p.busy, connecting := connecting p.tracker i.status } :
      LoopPass) = q'
  have hloopStart : q'.loopStart = q.loopStart := by rw [← hq]
  have hannounced : v.announced q' = (p.timers, calls log) := by
    rw [← hq]
    exact hupTo
  have hgate : (!p.busy && holdOffOver p.timers.disconnectionStartedAt p.loopStart) =
      v.connects q' := by
    have hheld : v.disconnectionStartedAt = p.timers.disconnectionStartedAt :=
      congrArg (fun r => r.1.disconnectionStartedAt) hupTo
    rw [hstart, ← hq, ← hheld]
    rfl
  have hconnecting : connecting p.tracker i.status = q'.connecting := by rw [← hq]
  rw [← hloopStart] at hstart
  refine ⟨q', ?_⟩
  unfold loopConnect
  rw [hgate, hconnecting]
  cases hc : v.connects q' with
  | false =>
    have hd : v.disconnects q' = false := by simp [LoopTimers.disconnects, hc]
    refine ⟨trivial, fun _ => hstart, by simp [hstarts, readings, hloopStart], ?_⟩
    show v.disconnected q' = _
    rw [LoopTimers.disconnected_of_not hd, LoopTimers.connected, hannounced, hc]
    simp
  | true =>
    have hconnected : v.connected q' = (p.timers, calls log ++ [.connectToFirstNeighbour]) := by
      rw [LoopTimers.connected, hannounced, hc]
      rfl
    simp only [if_true]
    cases hn : q'.connecting with
    | true =>
      have hd : v.disconnects q' = false := by simp [LoopTimers.disconnects, hn]
      refine ⟨trivial, fun _ => hstart, by simp [hstarts, readings, hloopStart], ?_⟩
      show v.disconnected q' = _
      rw [LoopTimers.disconnected_of_not hd, hconnected]
      simp
    | false =>
      refine ⟨⟨hc, hn⟩, fun _ => hstart, by simp [hstarts, readings, hloopStart], ?_⟩
      show v.connected q' = _
      rw [hconnected]
      simp

theorem within_duplicate (h : Within v q p log) (hs : p.stage = .duplicate) :
    ∃ q, Within v q (p.loopDuplicate P i).1 (log ++ (p.loopDuplicate P i).2) := by
  obtain ⟨hreaches, hstart, hstarts, hupTo⟩ := h
  have hstart := hstart (by simp [hs])
  rw [hs] at hupTo hstarts hreaches
  refine ⟨{ q with duplicate := p.tracker.getAnyDuplicateHandle.2 }, ?_⟩
  unfold loopDuplicate goTo
  simp only
  by_cases hz : p.tracker.getAnyDuplicateHandle.2 = 0
  · rw [if_pos hz]
    refine ⟨trivial, fun _ => hstart, by simp [hstarts, readings], ?_⟩
    show v.disconnected _ = _
    rw [LoopTimers.disconnected_of_not (by simp [LoopTimers.disconnects, hz]),
      calls_append, calls_act, List.append_nil]
    exact hupTo
  · rw [if_neg hz]
    refine ⟨⟨hreaches.1, hreaches.2, rfl, hz⟩, fun _ => hstart, by simp [hstarts, readings], ?_⟩
    rw [calls_append, calls_act, List.append_nil]
    exact hupTo

theorem within_disconnect {duplicate : Handle} (h : Within v q p log)
    (hs : p.stage = .disconnect duplicate) :
    ∃ q, Within v q (p.loopDisconnect duplicate i).1 (log ++ (p.loopDisconnect duplicate i).2) := by
  obtain ⟨hreaches, hstart, hstarts, hupTo⟩ := h
  have hstart := hstart (by simp [hs])
  rw [hs] at hupTo hstarts hreaches
  obtain ⟨hconnects, hconnecting, rfl, hz⟩ := hreaches
  refine ⟨{ q with disconnectStatus := i.status, disconnected := i.time }, trivial, fun _ => hstart,
    by simp [hstarts, readings, loopDisconnect], ?_⟩
  have hdisconnects : v.disconnects { q with disconnectStatus := i.status,
                                             disconnected := i.time } := by
    have hc : v.connects q = true := hconnects
    show (v.connects q && !q.connecting && decide (q.duplicate ≠ 0)) = true
    simp [hc, hconnecting, hz]
  have hheld : v.disconnectionStartedAt = p.timers.disconnectionStartedAt :=
    congrArg (fun r => r.1.disconnectionStartedAt) hupTo
  have hconnected : v.connected { q with disconnectStatus := i.status, disconnected := i.time } =
      (p.timers, calls log) := hupTo
  show v.disconnected _ = _
  rw [LoopTimers.disconnected_of hdisconnects, hconnected, hheld]
  simp [loopDisconnect]

theorem within_send (h : Within v q p log) (hs : p.stage = .send) :
    ∃ q, Within v q (p.loopSend P i).1 (log ++ (p.loopSend P i).2) := by
  obtain ⟨-, hstart, hstarts, hupTo⟩ := h
  have hstart := hstart (by simp [hs])
  rw [hs] at hupTo hstarts
  refine ⟨q, trivial, fun _ => hstart, by simp [hstarts, readings, loopSend], ?_⟩
  have hsend : v.disconnected q = (p.timers, calls log) := hupTo
  show ((v.disconnected q).1, (v.disconnected q).2 ++ [.sendPackets]) = _
  rw [hsend]
  simp [loopSend]

theorem within_flash (h : Within v q p log) (hs : p.stage = .flash) :
    ∃ q, Within v q (p.loopFlash i).1 (log ++ (p.loopFlash i).2) := by
  obtain ⟨-, hstart, hstarts, hupTo⟩ := h
  have hstart := hstart (by simp [hs])
  rw [hs] at hupTo hstarts
  obtain ⟨htimers, hcalls⟩ := Prod.mk.inj hupTo
  refine ⟨{ q with flashed := i.time }, trivial, fun _ => hstart,
    by simp [hstarts, readings, loopFlash], ?_⟩
  have hheld : p.timers.lastFlash = v.lastFlash := by
    rw [← htimers]
    rfl
  simp only [loopFlash, List.append_nil, hstart, hheld, ← hcalls]
  rw [← htimers]
  rfl

theorem within_rssi (h : Within v q p log) (hs : p.stage = .rssi) :
    ∃ q, Within v q (p.loopRssi i).1 (log ++ (p.loopRssi i).2) := by
  obtain ⟨-, hstart, hstarts, hupTo⟩ := h
  have hstart := hstart (by simp [hs])
  rw [hs] at hupTo hstarts
  have hrestart : v.rssiRestart p.loopStart = p.timers.rssiRestart p.loopStart :=
    congrArg (fun r => r.1.rssiRestart p.loopStart) hupTo
  have hheld : v.lastRssiUpdate = p.timers.lastRssiUpdate :=
    congrArg (fun r => r.1.lastRssiUpdate) hupTo
  unfold loopRssi goTo
  cases hr : p.timers.rssiRestart p.loopStart with
  | none =>
    refine ⟨q, trivial, fun _ => hstart, by simp [hstarts, readings], ?_⟩
    have hidle : p.timers.rssiUpdateInProgress = false := by
      unfold LoopTimers.rssiRestart at hr
      split at hr <;> simp_all
    have hflash : v.flashed q = (p.timers, calls log) := hupTo
    show v.swept q = _
    rw [LoopTimers.swept, ← hstart, hrestart, hr, hflash]
    simp [hheld]
    rw [← hidle]
  | some restart =>
    refine ⟨{ q with
      rssiRequested := i.time
      moreRssi := (requestNextRssi p.tracker p.rssiIterator restart).2.2 }, trivial,
      fun _ => hstart,
      by simp [hstarts, readings], ?_⟩
    have hflash : v.flashed { q with
        rssiRequested := i.time
        moreRssi := (requestNextRssi p.tracker p.rssiIterator restart).2.2 } =
        (p.timers, calls log) := hupTo
    show v.swept _ = _
    rw [LoopTimers.swept, hflash]
    simp only [← hstart, hrestart, hr, hheld]
    simp

theorem within_scan (h : Within v q p log) (hs : p.stage = .scan) :
    ∃ q, Within v q (p.loopScan i).1 (log ++ (p.loopScan i).2) := by
  obtain ⟨-, hstart, hstarts, hupTo⟩ := h
  have hstart := hstart (by simp [hs])
  rw [hs] at hupTo hstarts
  have hheld : v.lastScan = p.timers.lastScan := congrArg (fun r => r.1.lastScan) hupTo
  refine ⟨{ q with scanStarted := i.time }, ?_⟩
  have hsweep : v.swept { q with scanStarted := i.time } = (p.timers, calls log) := hupTo
  unfold loopScan goTo
  split
  next hdue =>
    refine ⟨trivial, fun _ => hstart, by simp [hstarts, readings, startScanningForLocalNodes], ?_⟩
    show v.scanned _ = _
    rw [LoopTimers.scanned, hsweep]
    simp [← hstart, hheld, hdue, startScanningForLocalNodes]
  next hdue =>
    refine ⟨trivial, fun _ => hstart, by simp [hstarts, readings], ?_⟩
    show v.scanned _ = _
    rw [LoopTimers.scanned, hsweep]
    simp [← hstart, hheld, hdue]

theorem within_cleanup (h : Within v q p log) (hs : p.stage = .cleanup) :
    ∃ q, Within v q (p.loopCleanup P i).1 (log ++ (p.loopCleanup P i).2) := by
  obtain ⟨-, hstart, hstarts, hupTo⟩ := h
  have hstart := hstart (by simp [hs])
  rw [hs] at hupTo hstarts
  have hheld : v.lastCleanup = p.timers.lastCleanup := congrArg (fun r => r.1.lastCleanup) hupTo
  have hscan : v.scanned { q with cleaned := i.time } = (p.timers, calls log) := hupTo
  have hpass : v.pass { q with cleaned := i.time } =
      ({ (v.scanned { q with cleaned := i.time }).1 with
          lastCleanup := if elapsed (timeUs32 q.loopStart) v.lastCleanup tenMinutesInUs then
          timeUs32 i.time
            else v.lastCleanup },
        (v.scanned { q with cleaned := i.time }).2 ++
          if elapsed (timeUs32 q.loopStart) v.lastCleanup tenMinutesInUs then [.cleanupStaleItems]
          else []) := rfl
  refine ⟨{ q with cleaned := i.time }, ?_⟩
  unfold loopCleanup goTo
  split
  next hdue =>
    refine ⟨trivial, fun _ => hstart, by simp [hstarts, readings], ?_⟩
    show v.pass _ = _
    rw [hpass, hscan]
    simp [← hstart, hheld, hdue]
  next hdue =>
    refine ⟨trivial, fun _ => hstart, by simp [hstarts, readings], ?_⟩
    show v.pass _ = _
    rw [hpass, hscan]
    simp [← hstart, hheld, hdue]

/-- The loop goes to sleep in its pass, or the pass was a whole one. -/
theorem within_sleep (h : Within v q p log) (hs : p.stage = .sleep) :
    (∃ q, Within v q (p.loopSleep i).1 (log ++ (p.loopSleep i).2)) ∨
      (p.loopSleep i).1.stage = .top ∧ ∃ q, starts (log ++ (p.loopSleep i).2) = [q.loopStart] ∧
        v.pass q = ((p.loopSleep i).1.timers, calls (log ++ (p.loopSleep i).2)) := by
  obtain ⟨-, hstart, hstarts, hupTo⟩ := h
  have hpass : v.pass q = (p.timers, calls log) := by
    rw [hs] at hupTo
    exact hupTo
  unfold loopSleep
  split
  · left
    rw [hs] at hstarts
    exact ⟨q, trivial, fun _ => hstart (by simp [hs]), by simp [hstarts, readings],
      by simp [LoopTimers.upTo, hpass]⟩
  · right
    rw [hs] at hstarts
    split
    all_goals exact ⟨rfl, q, by simp [hstarts, readings], by simp [hpass]⟩

theorem within_wfi (h : Within v q p log) (hs : p.stage = .wfi) :
    Within v q p.loopWfi.1 (log ++ p.loopWfi.2) := by
  obtain ⟨-, hstart, hstarts, hupTo⟩ := h
  rw [hs] at hupTo hstarts
  refine ⟨trivial, fun _ => hstart (by simp [hs]), ?_, ?_⟩
  · simp [loopWfi, hstarts, readings]
  · rw [calls_append, loopWfi, calls_cons_of_ne (by simp), calls_nil, List.append_nil]
    exact hupTo

-- ---------------------------------------------------------------------------
-- What a stage calls
-- ---------------------------------------------------------------------------

section MadeAt
variable {stage : LoopStage} {out out' : List ProgramEffect} {e : ProgramEffect}

def MadeAt (stage : LoopStage) (out : List ProgramEffect) : Prop :=
  ∀ e ∈ out, (∃ x, e = .tracker x) ∨ e.stage = some stage

theorem madeAt_nil (stage : LoopStage) : MadeAt stage [] := fun _ hm => (by cases hm)

theorem madeAt_act (event : Event) (ambient : Ambient) :
    MadeAt stage (p.act P event ambient).2 := by
  intro e hm
  obtain ⟨x, -, rfl⟩ := List.mem_map.mp hm
  exact .inl ⟨x, rfl⟩

theorem MadeAt.cons (h : MadeAt stage out) (he : e.stage = some stage) :
    MadeAt stage (e :: out) := by
  intro x hm
  rcases List.mem_cons.mp hm with rfl | hm
  · exact .inr he
  · exact h x hm

theorem MadeAt.append (h : MadeAt stage out) (h' : MadeAt stage out') :
    MadeAt stage (out ++ out') := by
  intro x hm
  rcases List.mem_append.mp hm with hm | hm
  · exact h x hm
  · exact h' x hm

end MadeAt

theorem madeAt_loop (P : Platform) (p : Program) (i : ProgramInput) :
    MadeAt p.stage (p.loop P i).2 := by
  unfold loop
  split
  next hs =>
    rw [hs]
    split
    · unfold loopTop
      simp only
      split
      · exact (madeAt_act _ _).cons rfl
      · exact (madeAt_nil _).cons rfl
    · exact madeAt_nil _
  next hs =>
    rw [hs]
    unfold loopAnnounce goTo
    split
    · exact (madeAt_act _ _).cons rfl
    · exact madeAt_nil _
  next hs =>
    rw [hs]
    unfold loopConnect
    split
    · simp only
      split
      · exact ((madeAt_act _ _).cons rfl).append ((madeAt_nil _).cons rfl)
      · exact (madeAt_act _ _).cons rfl
    · exact madeAt_nil _
  next => exact madeAt_act _ _
  next hs =>
    rw [hs]
    exact (madeAt_nil _).cons rfl
  next hs =>
    rw [hs]
    exact (madeAt_act _ _).cons rfl
  next => exact madeAt_nil _
  next hs =>
    rw [hs]
    unfold loopRssi goTo
    split
    · exact madeAt_nil _
    · exact ((madeAt_nil _).cons rfl).cons rfl
  next hs =>
    rw [hs]
    unfold loopScan goTo
    split
    · exact ((madeAt_nil _).cons rfl).cons rfl
    · exact madeAt_nil _
  next hs =>
    rw [hs]
    unfold loopCleanup goTo
    split
    · exact (madeAt_act _ _).cons rfl
    · exact madeAt_nil _
  next hs =>
    rw [hs]
    unfold loopSleep
    split
    · exact madeAt_nil _
    · split <;> exact madeAt_nil _
  next hs =>
    rw [hs]
    exact (madeAt_nil _).cons rfl

-- ---------------------------------------------------------------------------
-- Runs
-- ---------------------------------------------------------------------------

theorem within_loop (h : Within v q p log) :
    (∃ q, Within v q (p.loop P i).1 (log ++ (p.loop P i).2)) ∨
      (p.loop P i).1.stage = .top ∧ ∃ q, starts (log ++ (p.loop P i).2) = [q.loopStart] ∧
        v.pass q = ((p.loop P i).1.timers, calls (log ++ (p.loop P i).2)) := by
  unfold loop
  cases hs : p.stage with
  | top =>
    left
    dsimp only
    split
    · exact within_top h hs
    · exact ⟨q, by rwa [List.append_nil]⟩
  | announce => exact .inl (within_announce h hs)
  | connect => exact .inl (within_connect h hs)
  | duplicate => exact .inl (within_duplicate h hs)
  | disconnect duplicate => exact .inl (within_disconnect h hs)
  | send => exact .inl (within_send h hs)
  | flash => exact .inl (within_flash h hs)
  | rssi => exact .inl (within_rssi h hs)
  | scan => exact .inl (within_scan h hs)
  | cleanup => exact .inl (within_cleanup h hs)
  | sleep => exact within_sleep h hs
  | wfi => exact .inl ⟨q, within_wfi h hs⟩

theorem step_loop (hi : i.action = .loop) : step P p i = p.loop P i := by
  unfold step dispatch
  rw [hi]
  rfl

/-- What a stage of the loop leaves alone: the readings and marks each have their stage. -/
structure LoopFrame (p q : Program) : Prop where
  keepRunning : q.keepRunning = p.keepRunning
  loopStart : p.stage ≠ .top → q.loopStart = p.loopStart
  lifeCheck : p.stage ≠ .top → q.lifeCheck = p.lifeCheck
  globalActivity : p.stage ≠ .top → q.globalActivity = p.globalActivity
  lastActivity : p.stage ≠ .sleep → q.lastActivity = p.lastActivity

theorem loop_frame (P : Platform) (p : Program) (i : ProgramInput) :
    LoopFrame p (p.loop P i).1 := by
  unfold loop
  split
  next hs =>
    split
    · have htop {q : Program} (hrun : q.keepRunning = p.keepRunning)
          (hlast : q.lastActivity = p.lastActivity) : LoopFrame p q :=
        ⟨hrun, fun h => absurd hs h, fun h => absurd hs h, fun h => absurd hs h, fun _ => hlast⟩
      unfold loopTop
      simp only
      split
      · simp only
        split <;> exact htop rfl rfl
      · exact htop rfl rfl
    · exact ⟨rfl, fun _ => rfl, fun _ => rfl, fun _ => rfl, fun _ => rfl⟩
  next =>
    unfold loopAnnounce goTo
    split <;> exact ⟨rfl, fun _ => rfl, fun _ => rfl, fun _ => rfl, fun _ => rfl⟩
  next =>
    unfold loopConnect
    split
    · simp only
      split <;> exact ⟨rfl, fun _ => rfl, fun _ => rfl, fun _ => rfl, fun _ => rfl⟩
    · exact ⟨rfl, fun _ => rfl, fun _ => rfl, fun _ => rfl, fun _ => rfl⟩
  next => exact ⟨rfl, fun _ => rfl, fun _ => rfl, fun _ => rfl, fun _ => rfl⟩
  next => exact ⟨rfl, fun _ => rfl, fun _ => rfl, fun _ => rfl, fun _ => rfl⟩
  next => exact ⟨rfl, fun _ => rfl, fun _ => rfl, fun _ => rfl, fun _ => rfl⟩
  next => exact ⟨rfl, fun _ => rfl, fun _ => rfl, fun _ => rfl, fun _ => rfl⟩
  next =>
    unfold loopRssi goTo
    split <;> exact ⟨rfl, fun _ => rfl, fun _ => rfl, fun _ => rfl, fun _ => rfl⟩
  next =>
    unfold loopScan goTo
    split <;> exact ⟨rfl, fun _ => rfl, fun _ => rfl, fun _ => rfl, fun _ => rfl⟩
  next =>
    unfold loopCleanup goTo
    split <;> exact ⟨rfl, fun _ => rfl, fun _ => rfl, fun _ => rfl, fun _ => rfl⟩
  next hs =>
    unfold loopSleep
    split
    · exact ⟨rfl, fun _ => rfl, fun _ => rfl, fun _ => rfl, fun _ => rfl⟩
    · split <;> exact ⟨rfl, fun _ => rfl, fun _ => rfl, fun _ => rfl, fun h => absurd hs h⟩
  next => exact ⟨rfl, fun _ => rfl, fun _ => rfl, fun _ => rfl, fun _ => rfl⟩

/-- What the handlers of the callbacks leave alone, but for the count. -/
structure CallbackFrame (i : ProgramInput) (p q : Program) : Prop where
  timers : q.timers = p.timers
  stage : q.stage = p.stage
  loopStart : q.loopStart = p.loopStart
  lastActivity : q.lastActivity = p.lastActivity
  keepRunning : i.action ≠ .exitPin → q.keepRunning = p.keepRunning
  lifeCheck : p.lifeCheck = true → q.lifeCheck = true

theorem dispatch_frame (hi : i.action ≠ .loop) :
    CallbackFrame i p (p.dispatch P i).1 ∧
      (p.dispatch P i).1.globalActivity = p.globalActivity ∧
      starts (p.dispatch P i).2 = [] ∧ calls (p.dispatch P i).2 = [] := by
  unfold dispatch
  cases ha : i.action with
  | callback e =>
    exact ⟨⟨rfl, rfl, rfl, rfl, fun _ => rfl, id⟩, rfl, starts_act _ _, calls_act _ _⟩
  | gapConnectionComplete h address addressType role =>
    exact ⟨⟨rfl, rfl, rfl, rfl, fun _ => rfl, id⟩, rfl,
      by simp [gapConnectionComplete], by simp [gapConnectionComplete]⟩
  | gattQueryComplete h =>
    simp only [gattQueryComplete]
    split <;> exact ⟨⟨rfl, rfl, rfl, rfl, fun _ => rfl, id⟩, rfl, by simp, by simp⟩
  | exitPin => exact ⟨⟨rfl, rfl, rfl, rfl, fun h => absurd ha h, id⟩, rfl, rfl, rfl⟩
  | lifeCheckPin => exact ⟨⟨rfl, rfl, rfl, rfl, fun _ => rfl, fun _ => rfl⟩, rfl, rfl, rfl⟩
  | loop => exact absurd ha hi
  | _ => exact ⟨⟨rfl, rfl, rfl, rfl, fun _ => rfl, id⟩, rfl, rfl, rfl⟩

theorem callback_frame (hi : i.action ≠ .loop) :
    CallbackFrame i p (step P p i).1 ∧
      starts (step P p i).2 = [] ∧ calls (step P p i).2 = [] := by
  unfold step
  split
  · obtain ⟨h, -, hnone⟩ := dispatch_frame (P := P) (p := p.active) hi
    exact ⟨⟨h.timers, h.stage, h.loopStart, h.lastActivity, h.keepRunning, h.lifeCheck⟩, hnone⟩
  · obtain ⟨h, -, hnone⟩ := dispatch_frame (P := P) (p := p) hi
    exact ⟨h, hnone⟩

/-- The effects are those of whole passes and of one in which the loop is. -/
def InPass (v : LoopTimers) (p : Program) (log : List ProgramEffect) : Prop :=
  ∃ ps done rest q, log = done ++ rest ∧ starts done = ps.map LoopPass.loopStart ∧
    calls done = (run LoopTimers.pass v ps).2 ∧ Within (run LoopTimers.pass v ps).1 q p rest

theorem inPass_step (h : InPass v p log) : InPass v (step P p i).1 (log ++ (step P p i).2) := by
  obtain ⟨ps, done, rest, q, rfl, hstarts, hcalls, hwithin⟩ := h
  by_cases hi : i.action = .loop
  · rw [step_loop hi, List.append_assoc]
    rcases within_loop (P := P) (i := i) hwithin with ⟨q', hq⟩ | ⟨htop, q', hstart, hq⟩
    · exact ⟨ps, done, _, q', rfl, hstarts, hcalls, hq⟩
    · refine ⟨ps ++ [q'], _, [], q', (List.append_nil _).symm, ?_, ?_, ?_,
        fun hne => absurd htop hne, ?_, ?_⟩
      · rw [starts_append, hstarts, hstart, List.map_append]
        rfl
      · rw [calls_append, hcalls, run_snoc, hq]
      · rw [htop]
        trivial
      · rw [htop]
        rfl
      · rw [htop, run_snoc, hq]
        rfl
  · obtain ⟨⟨htimers, hstage, hstart, -, -, -⟩, hnostart, hnocall⟩ :=
      callback_frame (P := P) (p := p) hi
    rw [List.append_assoc]
    refine ⟨ps, done, _, q, rfl, hstarts, hcalls, hstage ▸ hwithin.reaches, ?_, ?_, ?_⟩
    · rw [hstage, hstart]
      exact hwithin.loopStart
    · rw [hstage, starts_append, hnostart, List.append_nil]
      exact hwithin.starts
    · rw [hstage, htimers, calls_append, hnocall, List.append_nil]
      exact hwithin.upTo

/-- Whatever callbacks come between its stages, the loop makes the calls of whole
passes and a beginning of one more, begun at the times at which it read the clock,
and its timers are those behind these passes. -/
theorem loop_refines_passes (P : Platform) (p : Program) (hp : p.stage = .top)
    (is : List ProgramInput) :
    ∃ ps cs q, calls (run (step P) p is).2 = (run LoopTimers.pass p.timers ps).2 ++ cs ∧
      cs <+: ((run LoopTimers.pass p.timers ps).1.pass q).2 ∧
      starts (run (step P) p is).2 =
        ps.map LoopPass.loopStart ++ readings q (run (step P) p is).1.stage ∧
      ((run (step P) p is).1.stage = .top →
        cs = [] ∧ (run (step P) p is).1.timers = (run LoopTimers.pass p.timers ps).1) := by
  have hinit : InPass p.timers p [] := by
    refine ⟨[], [], [], quickPass 0, rfl, rfl, rfl, ?_, fun hne => absurd hp hne, ?_, ?_⟩
    · rw [hp]
      trivial
    · rw [hp]
      rfl
    · rw [hp]
      rfl
  obtain ⟨ps, done, rest, q, hlog, hstarts, hcalls, -, -, hrest, hupTo⟩ :=
    run_invariant (fun _ _ _ _ h => inPass_step h) hinit (along_true p is)
  rw [List.nil_append] at hlog
  refine ⟨ps, calls rest, q, ?_, ?_, ?_, fun htop => ?_⟩
  · rw [hlog, calls_append, hcalls]
  · have hcs : calls rest = (LoopTimers.upTo _ q _).2 := (congrArg Prod.snd hupTo).symm
    rw [hcs]
    exact LoopTimers.upTo_prefix _ q _
  · rw [hlog, starts_append, hstarts, hrest]
  · rw [htop] at hupTo
    obtain ⟨htimers, hcs⟩ := Prod.mk.inj hupTo
    exact ⟨hcs.symm, htimers.symm⟩

theorem refines_from_start :
    let is : List ProgramInput := List.replicate 12 ⟨.loop, .idle, 3000000, 0⟩
    ∃ ps cs q, calls (run (step .bare) (start 0 0) is).2 =
        (run LoopTimers.pass (start 0 0).timers ps).2 ++ cs ∧
      cs <+: ((run LoopTimers.pass (start 0 0).timers ps).1.pass q).2 ∧
      starts (run (step .bare) (start 0 0) is).2 =
        ps.map LoopPass.loopStart ++ readings q (run (step .bare) (start 0 0) is).1.stage ∧
      ((run (step .bare) (start 0 0) is).1.stage = .top →
        cs = [] ∧ (run (step .bare) (start 0 0) is).1.timers =
        (run LoopTimers.pass (start 0 0).timers ps).1) :=
  loop_refines_passes .bare (start 0 0) rfl (List.replicate 12 ⟨.loop, .idle, 3000000, 0⟩)

end Program

end BitchatRepeater
