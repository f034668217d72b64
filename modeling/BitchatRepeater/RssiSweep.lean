import BitchatRepeater.MainLoop
import BitchatRepeater.LiveConnections
import BitchatRepeater.Lib.MapIterator

/-!
# The RSSI sweep

`requestNextRssi` keeps an iterator into the connections map from one call to the
next, while events change the map. The main loop starts a sweep every five minutes
and goes on with one as long as the last call says that there is more.
-/

namespace BitchatRepeater

open Lib Tracker MapIterator

variable {t : Tracker}

-- ---------------------------------------------------------------------------
-- The call and the loop around it
-- ---------------------------------------------------------------------------

/-- The static iterator, unset before the first call; the one that is dereferenced,
the one behind it, and the value returned. -/
def requestNextRssi (t : Tracker) (iterator : Option (MapIterator Handle)) (restart : Bool) :
    MapIterator Handle × MapIterator Handle × Bool :=
  let it := iterator.getD (first t.connections)
  let it := if it = .past || restart then first t.connections else it
  (it, next t.connections it, next t.connections it ≠ .past)

structure SweepState where
  tracker : Tracker
  iterator : Option (MapIterator Handle) := none
  timers : LoopTimers

inductive SweepInput
  | event (i : Input)
  /-- The main loop comes to its RSSI timer; other actions of the pass are events. -/
  | pass (p : LoopPass)

def sweepStep (P : Platform) (s : SweepState) : SweepInput → SweepState × List (MapIterator Handle)
  | .event i =>
    let t := (step P s.tracker i).1
    ({ s with tracker := t, iterator := s.iterator.map (MapIterator.follow t.connections) }, [])
  | .pass p =>
    match s.timers.rssiRestart (timeUs32 p.loopStart) with
    | none => ({ s with timers := (s.timers.pass p).1 }, [])
    | some restart =>
      let (visited, iterator, more) := requestNextRssi s.tracker s.iterator restart
      ({ s with iterator := some iterator,
                timers := (s.timers.pass { p with moreRssi := more }).1 }, [visited])

/-- Every iterator dereferenced designates an entry of the map. -/
def VisitsLive (P : Platform) (s : SweepState) (x : SweepInput) : Prop :=
  ∀ it ∈ (sweepStep P s x).2, Designates s.tracker.connections it

/-- A sweep starts with a connection in the map, and no cleanup takes away the one
at which a sweep stands. -/
def SweepUndisturbed (s : SweepState) : SweepInput → Prop
  | .pass p =>
    s.timers.rssiRestart (timeUs32 p.loopStart) = some true → s.tracker.connections.entries ≠ []
  | .event i => i.event = .cleanupStaleItems → s.timers.rssiUpdateInProgress →
    ∀ e ∈ s.tracker.connections.entries, s.iterator = some (.entry e.1) →
      connectionStale (s.tracker.getTimeMs i.ambient.now) e.2 = false

instance decidableSweepUndisturbed (s : SweepState) :
    (x : SweepInput) → Decidable (SweepUndisturbed s x)
  | .pass p => inferInstanceAs (Decidable (s.timers.rssiRestart (timeUs32 p.loopStart) = some true →
      s.tracker.connections.entries ≠ []))
  | .event i =>
    inferInstanceAs (Decidable (i.event = .cleanupStaleItems → s.timers.rssiUpdateInProgress →
      ∀ e ∈ s.tracker.connections.entries, s.iterator = some (.entry e.1) →
        connectionStale (s.tracker.getTimeMs i.ambient.now) e.2 = false))

-- ---------------------------------------------------------------------------
-- Entries stay
-- ---------------------------------------------------------------------------

theorem contains_iff_get? : t.connections.contains h ↔ ∃ c, t.connections.get? h = some c :=
  Option.isSome_iff_exists

theorem contains_of_stay (hk : t.connections.contains h) (hs : Stay t u) :
    u.connections.contains h := by
  obtain ⟨c, hc⟩ := contains_iff_get?.mp hk
  obtain ⟨c', hc', -⟩ := hs.connections h c hc
  exact contains_iff_get?.mpr ⟨c', hc'⟩

theorem contains_enqueueTargetedPacket (hk : t.connections.contains h) (a : Addr) (ttl : UInt8)
    (target : BleConnection) : (t.enqueueTargetedPacket a ttl target).connections.contains h := by
  unfold enqueueTargetedPacket
  split
  · have hkept := contains_of_stay hk (stay_connectionForConnHandle t target.connectionHandle)
    exact hkept
  · exact hk

theorem contains_announceTo (hk : t.connections.contains h) (now : UInt64) (stale : Stale)
    (k : Handle) :
    (announceTo now stale t k).connections.contains h := by
  unfold announceTo
  split
  · exact hk
  · split
    · exact contains_enqueueTargetedPacket (t := { t with
        announce := { t.announce with packetTimestamp := t.getTimeMs now } }) hk _ _ _
    · exact hk

theorem contains_announceToConnections (hk : t.connections.contains h) (P : Platform) (now : UInt64)
    (stale : Stale) : (t.announceToConnections P now stale).connections.contains h := by
  obtain ⟨announce, he, -⟩ := setupAnnounceIfNeeded_eq P t
  unfold announceToConnections
  rw [he]
  generalize hu : ({ t with announce } : Tracker) = u
  have hku : u.connections.contains h := by
    rw [← hu]
    exact hk
  clear hu
  simp only
  generalize u.connections.keys = keys
  induction keys generalizing u with
  | nil => exact hku
  | cons k keys ih => exact ih _ (contains_announceTo hku now stale k)

theorem contains_step (P : Platform) (i : Input) (hi : i.event ≠ .cleanupStaleItems)
    (hk : t.connections.contains h) : (step P t i).1.connections.contains h := by
  cases hv : visitsLists i.event with
  | false => exact contains_of_stay hk (stay_step hv)
  | true =>
    obtain ⟨event, ambient⟩ := i
    cases event
    case announceToConnections =>
      exact contains_announceToConnections hk P ambient.now ambient.stale
    case sendPackets =>
      have hkeys := (sendPackets_connections ambient.stale t).1
      rw [contains_iff_get?, ← OrdMap.mem_keys] at hk ⊢
      exact hkeys.symm ▸ hk
    case cleanupStaleItems => exact absurd rfl hi
    all_goals cases hv

theorem contains_cleanup (hc : t.connections.get? h = some c)
    (hs : connectionStale (t.getTimeMs time) c = false) :
    (t.cleanupStaleItems stale time).connections.contains h := by
  simp [cleanupStaleItems, OrdMap.contains, OrdMap.get?_eraseIf, hc, hs]

-- ---------------------------------------------------------------------------
-- A sweep in progress
-- ---------------------------------------------------------------------------

def SweepOk (s : SweepState) : Prop :=
  s.timers.rssiUpdateInProgress → ∃ it, s.iterator = some it ∧ Designates s.tracker.connections it

theorem pass_rssiUpdateInProgress (v : LoopTimers) (p : LoopPass) :
    (v.pass p).1.rssiUpdateInProgress = ((v.rssiRestart (timeUs32 p.loopStart)).isSome &&
      p.moreRssi) := rfl

theorem rssiRestart_continues {v : LoopTimers} (h : v.rssiRestart loopStart = some false) :
    v.rssiUpdateInProgress := by
  unfold LoopTimers.rssiRestart at h
  split at h
  · cases h
  · split at h
    · assumption
    · cases h

/-- The iterator of a call designates an entry if the sweep stands at one, or starts
in a map that has one. -/
theorem requestNextRssi_visits (hne : restart = true → t.connections.entries ≠ [])
    (hit : restart = false → ∃ it, iterator = some it ∧ Designates t.connections it) :
    Designates t.connections (requestNextRssi t iterator restart).1 := by
  unfold requestNextRssi
  cases restart with
  | true =>
    simp only [Bool.or_true, if_true]
    exact first_designates_iff.mpr (hne rfl)
  | false =>
    obtain ⟨it, rfl, k, rfl, hk⟩ := hit rfl
    simp only [Option.getD_some, reduceCtorEq, decide_false, Bool.or_self,
      Bool.false_eq_true, if_false]
    exact ⟨k, rfl, hk⟩

theorem sweepOk_step (h : SweepOk s) (hx : SweepUndisturbed s x) :
    VisitsLive P s x ∧ SweepOk (sweepStep P s x).1 := by
  cases x with
  | event i =>
    refine ⟨List.forall_mem_nil _, fun hprogress => ?_⟩
    obtain ⟨it, hit, k, rfl, hk⟩ := h hprogress
    refine ⟨MapIterator.follow (step P s.tracker i).1.connections (.entry k), ?_, ?_⟩
    · simp only [sweepStep, hit, Option.map_some]
    · refine follow_designates_iff.mpr ⟨k, rfl, ?_⟩
      by_cases hi : i.event = .cleanupStaleItems
      · obtain ⟨c, hc⟩ := contains_iff_get?.mp hk
        have hs := hx hi hprogress (k, c) (OrdMap.get?_eq_some.mp hc) hit
        simp only [sweepStep, step, hi]
        exact contains_cleanup hc hs
      · exact contains_step P i hi hk
  | pass p =>
    unfold VisitsLive
    cases hr : s.timers.rssiRestart (timeUs32 p.loopStart) with
    | none =>
      simp only [sweepStep, hr]
      refine ⟨List.forall_mem_nil _, fun hprogress => ?_⟩
      rw [pass_rssiUpdateInProgress, hr] at hprogress
      cases hprogress
    | some restart =>
      have hvisit : Designates s.tracker.connections
          (requestNextRssi s.tracker s.iterator restart).1 := by
        refine requestNextRssi_visits (fun htrue => hx (htrue ▸ hr)) fun hfalse => h ?_
        exact rssiRestart_continues (hfalse ▸ hr)
      simp only [sweepStep, hr]
      refine ⟨List.forall_mem_singleton.mpr hvisit, fun hprogress => ⟨_, rfl, ?_⟩⟩
      rw [pass_rssiUpdateInProgress, Bool.and_eq_true] at hprogress
      exact next_designates hvisit (of_decide_eq_true hprogress.2)

/-- In every run in which sweeps are not disturbed, only entries of the map are
visited. -/
theorem sweep_visits_live (P : Platform) (a : Addr) (time : Nat) (xs : List SweepInput)
    (h : Along (sweepStep P) SweepUndisturbed { tracker := { announceAddr := a },
                                                timers := .start time } xs) :
    Along (sweepStep P) (VisitsLive P) { tracker := { announceAddr := a },
                                         timers := .start time } xs := by
  refine h.imp_invariant SweepOk (fun s x hs hx => sweepOk_step hs hx) fun hprogress => ?_
  cases hprogress

def calmSweep : List SweepInput :=
  [.event ⟨.attConnected 64 [1, 1, 1, 1, 1, 1] .lePublic, .idle⟩,
    .event ⟨.attConnected 65 [2, 2, 2, 2, 2, 2] .lePublic, .idle⟩,
    .pass (quickPass 300000001), .event ⟨.cleanupStaleItems,
      { Ambient.idle with now := 700000000 }⟩,
    .pass (quickPass 300040001), .pass (quickPass 300080001)]

theorem calmSweep_visits :
    (run (sweepStep .bare) { tracker := { announceAddr := 0 }, timers := .start 0 } calmSweep).2 =
        [.entry 64, .entry 65] ∧
      Along (sweepStep .bare) (VisitsLive .bare) { tracker := { announceAddr := 0 },
                                                   timers := .start 0 } calmSweep :=
  ⟨by decide +kernel, sweep_visits_live .bare 0 0 calmSweep (by decide +kernel)⟩

/-- Nobody has connected when the first sweep starts, and the end position is
dereferenced. -/
theorem sweep_of_empty_map :
    (sweepStep .bare { tracker := { announceAddr := 0 },
                       timers := .start 0 } (.pass (quickPass 300000001))).2 =
        [.past] ∧
      ¬ Along (sweepStep .bare) (VisitsLive .bare) { tracker := { announceAddr := 0 },
                                                     timers := .start 0 }
        [.pass (quickPass 300000001)] := by
  have hvisits : (sweepStep .bare { tracker := { announceAddr := 0 }, timers := .start 0 }
      (.pass (quickPass 300000001))).2 = [.past] := by
    decide +kernel
  refine ⟨hvisits, fun hlive => ?_⟩
  obtain ⟨k, hk, -⟩ := hlive.1 .past (hvisits ▸ List.mem_singleton_self _)
  cases hk

end BitchatRepeater
