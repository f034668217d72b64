import BitchatRepeater.ReusedHandles
import BitchatRepeater.RssiSweep

/-!
# What a sweep reaches

A sweep takes as many passes as there are connections, while links come and go.
It still asks each handle at most once, in order, and none is passed over that
has an entry all the time.
-/

namespace BitchatRepeater

open Lib Tracker MapIterator

variable {P : Platform} {s : SweepState} {x : SweepInput} {keys : List Handle} {j : Handle}
  {handles : List Handle}

/-- The sweep is not disturbed and not begun again. -/
def GoesOn (s : SweepState) : SweepInput → Prop
  | .pass p => s.timers.rssiRestart (timeUs32 p.loopStart) ≠ some true
  | .event i => SweepUndisturbed s (.event i)

instance decidableGoesOn (s : SweepState) : (x : SweepInput) → Decidable (GoesOn s x)
  | .pass p => inferInstanceAs (Decidable (s.timers.rssiRestart (timeUs32 p.loopStart) ≠ some true))
  | .event i => inferInstanceAs (Decidable (SweepUndisturbed s (.event i)))

def AllThere (handles : List Handle) (s : SweepState) : Prop :=
  ∀ k ∈ handles, s.tracker.connections.contains k

instance decidableAllThere (handles : List Handle) (s : SweepState) :
    Decidable (AllThere handles s) :=
  List.decidableBAll (fun k => s.tracker.connections.contains k) handles

/-- A sweep that has asked `keys` stands behind them, and behind no other of the
handles; or it is over. -/
structure Swept (handles : List Handle) (s : SweepState) (keys : List Handle) : Prop where
  sorted : s.tracker.connections.Sorted
  ordered : keys.Pairwise (· < ·)
  underway : s.timers.rssiUpdateInProgress → ∃ j, s.iterator = some (.entry j) ∧
    s.tracker.connections.contains j ∧ (∀ k ∈ keys, k < j) ∧ ∀ k ∈ handles, k < j → k ∈ keys
  complete : s.timers.rssiUpdateInProgress = false → ∀ k ∈ handles, k ∈ keys

theorem idle_of_rssiRestart {v : LoopTimers} (h : v.rssiRestart loopStart = none) :
    v.rssiUpdateInProgress = false := by
  unfold LoopTimers.rssiRestart at h
  split at h
  · cases h
  · split at h
    · cases h
    next hidle => exact Bool.eq_false_iff.mpr hidle

theorem swept_visit (hsorted : s.tracker.connections.Sorted) (hthere : AllThere handles s)
    (hordered : keys.Pairwise (· < ·)) (hj : s.tracker.connections.contains j)
    (hbehind : ∀ k ∈ keys, k < j)
    (hpassed : ∀ k ∈ handles, k < j → k ∈ keys) {p : LoopPass} {restart : Bool}
    (hr : s.timers.rssiRestart (timeUs32 p.loopStart) = some restart)
    (hvisit : (requestNextRssi s.tracker s.iterator restart).1 = .entry j) :
    (sweepStep P s (.pass p)).2 = [.entry j] ∧ Swept handles (sweepStep P s (.pass p)).1
      (keys ++ [j]) := by
  have hcall : requestNextRssi s.tracker s.iterator restart =
      (entry j, next s.tracker.connections (entry j),
        decide (next s.tracker.connections (entry j) ≠ past)) := by
    rw [← hvisit]
    rfl
  have hstep : sweepStep P s (.pass p) =
      ({ s with
          iterator := some (next s.tracker.connections (.entry j))
          timers := (s.timers.pass { p with
            moreRssi := next s.tracker.connections (.entry j) ≠ .past }).1 }, [.entry j]) := by
    simp only [sweepStep, hr, hcall]
  have hmore : (sweepStep P s (.pass p)).1.timers.rssiUpdateInProgress =
      decide (next s.tracker.connections (.entry j) ≠ .past) := by
    rw [hstep]
    simp only [pass_rssiUpdateInProgress, hr, Option.isSome_some, Bool.true_and]
  refine ⟨by rw [hstep], ?_, ?_, ?_, ?_⟩
  · rw [hstep]
    exact hsorted
  · refine List.pairwise_append.mpr ⟨hordered, List.pairwise_singleton _ _, fun k hk l hl => ?_⟩
    rw [List.mem_singleton.mp hl]
    exact hbehind k hk
  · intro hprogress
    rw [hmore, decide_eq_true_iff] at hprogress
    obtain ⟨f, hf, hcontains⟩ := next_designates ⟨j, rfl, hj⟩ hprogress
    have hlt := lt_next hf
    refine ⟨f, by rw [hstep, hf], by rw [hstep]; exact hcontains, fun k hk => ?_,
      fun k hk hkf => ?_⟩
    · rcases List.mem_append.mp hk with hk | hk
      · exact (hbehind k hk).trans hlt
      · rw [List.mem_singleton.mp hk]
        exact hlt
    · rcases lt_trichotomy k j with hkj | rfl | hjk
      · exact List.mem_append_left _ (hpassed k hk hkj)
      · exact List.mem_append_right _ (List.mem_singleton_self _)
      · exact absurd hkf (not_lt.mpr (next_le hsorted hf (hthere k hk) hjk))
  · intro hover k hk
    rw [hmore, decide_eq_false_iff_not, not_not] at hover
    rcases (le_of_next_past hover (hthere k hk)).lt_or_eq with hkj | rfl
    · exact List.mem_append_left _ (hpassed k hk hkj)
    · exact List.mem_append_right _ (List.mem_singleton_self _)

theorem swept_step (hthere : AllThere handles s) (hx : GoesOn s x) (h : Swept handles s keys) :
    ∃ more : List Handle, (sweepStep P s x).2 = more.map entry ∧
    Swept handles (sweepStep P s x).1 (keys ++ more) := by
  cases x with
  | event i =>
    refine ⟨[], rfl, ?_⟩
    rw [List.append_nil]
    refine ⟨sorted_edits h.sorted (edits_step P s.tracker i), h.ordered,
      fun hprogress => ?_, h.complete⟩
    obtain ⟨j, hit, hj, hbehind, hpassed⟩ := h.underway hprogress
    have hx : SweepUndisturbed s (.event i) := hx
    obtain ⟨_, hit', hlive⟩ :=
      (sweepOk_step (P := P) (fun _ => ⟨_, hit, j, rfl, hj⟩) hx).2 hprogress
    have hfollow : (sweepStep P s (.event i)).1.iterator =
        some (MapIterator.follow (step P s.tracker i).1.connections (entry j)) := by
      simp only [sweepStep, hit, Option.map_some]
    cases hfollow.symm.trans hit'
    obtain ⟨k, hk, hstays⟩ := follow_designates_iff.mp hlive
    cases hk
    have hstays : (step P s.tracker i).1.connections.contains j := hstays
    refine ⟨j, ?_, hstays, hbehind, hpassed⟩
    rw [hfollow, MapIterator.follow, if_pos hstays]
  | pass p =>
    cases hr : s.timers.rssiRestart (timeUs32 p.loopStart) with
    | none =>
      have hstep : sweepStep P s (.pass p) = ({ s with timers := (s.timers.pass p).1 }, []) := by
        simp only [sweepStep, hr]
      rw [hstep]
      refine ⟨[], rfl, ?_⟩
      rw [List.append_nil]
      refine ⟨h.sorted, h.ordered, fun hprogress => ?_,
        fun _ => h.complete (idle_of_rssiRestart hr)⟩
      rw [pass_rssiUpdateInProgress, hr] at hprogress
      cases hprogress
    | some restart =>
      cases restart with
      | true => exact absurd hr hx
      | false =>
        obtain ⟨j, hit, hj, hbehind, hpassed⟩ := h.underway (rssiRestart_continues hr)
        have hvisit : (requestNextRssi s.tracker s.iterator false).1 = entry j := by
          simp [requestNextRssi, hit]
        exact ⟨[j], swept_visit h.sorted hthere h.ordered hj hbehind hpassed hr hvisit⟩

theorem sorted_sweep (P : Platform) (a : Addr) (time : Nat) (xs : List SweepInput) :
    (run (sweepStep P) { tracker := { announceAddr := a },
                         timers := .start time } xs).1.tracker.connections.Sorted := by
  refine run_state_invariant (fun s : SweepState => s.tracker.connections.Sorted)
    (fun s x _ hs => ?_)
    List.Pairwise.nil (along_true _ xs)
  cases x with
  | event i => exact sorted_edits hs (edits_step P s.tracker i)
  | pass p =>
    simp only [sweepStep]
    split <;> exact hs

/-- A sweep that is begun with a connection in the map asks handles in ascending
order, each once, and when it is over it has asked all that had an entry from its
beginning on, whatever else came and went. -/
theorem sweep_covers (P : Platform) (a : Addr) (time : Nat) (before after : List SweepInput)
    (p : LoopPass) (handles : List Handle) :
    let init : SweepState := { tracker := { announceAddr := a }, timers := .start time }
    let s := (run (sweepStep P) init before).1
    let u := (sweepStep P s (.pass p)).1
    s.timers.rssiRestart (timeUs32 p.loopStart) = some true → s.tracker.connections.entries ≠ [] →
    AllThere handles s → Along (sweepStep P) (fun s x => AllThere handles s ∧ GoesOn s x) u after →
    (run (sweepStep P) u after).1.timers.rssiUpdateInProgress = false →
    ∃ keys : List Handle, (run (sweepStep P) s (.pass p :: after)).2 = keys.map entry ∧
      keys.Pairwise (· < ·) ∧ ∀ k ∈ handles, k ∈ keys := by
  intro init s u hr hne hthere hrun hover
  have hsorted : s.tracker.connections.Sorted := sorted_sweep P a time before
  obtain ⟨f, hf, hcontains⟩ := first_designates_iff.mpr hne
  have hvisit : (requestNextRssi s.tracker s.iterator true).1 = entry f := by
    simp [requestNextRssi, hf]
  have hpassed : ∀ k ∈ handles, k < f → k ∈ ([] : List Handle) := fun k hk hlt =>
    absurd hlt (not_lt.mpr (first_le hsorted hf (hthere k hk)))
  have hstart := swept_visit (P := P) hsorted hthere .nil hcontains (fun _ hk =>
    (nomatch hk)) hpassed hr hvisit
  have hstep (s : SweepState) (log : List (MapIterator Handle)) (x : SweepInput)
      (hx : AllThere handles s ∧ GoesOn s x) (h : ∃ keys : List Handle, log = keys.map entry ∧
        Swept handles s keys) :
      ∃ keys : List Handle, log ++ (sweepStep P s x).2 = keys.map entry ∧
      Swept handles (sweepStep P s x).1 keys := by
    obtain ⟨keys, rfl, hk⟩ := h
    obtain ⟨more, hmore, hswept⟩ := swept_step (P := P) hx.1 hx.2 hk
    exact ⟨keys ++ more, by rw [hmore, List.map_append], hswept⟩
  obtain ⟨keys, hlog, hswept⟩ := run_invariant hstep ⟨_, hstart.1, hstart.2⟩ hrun
  exact ⟨keys, hlog, hswept.ordered, hswept.complete hover⟩

/-- A third link comes up between the two calls, under a lower handle. -/
theorem two_swept :
    let s := (run (sweepStep .bare) { tracker := { announceAddr := 0 }, timers := .start 0 }
      [.event ⟨.attConnected 64 [1, 1, 1, 1, 1, 1] .lePublic, .idle⟩,
        .event ⟨.attConnected 65 [2, 2, 2, 2, 2, 2] .lePublic, .idle⟩]).1
    ∃ keys : List Handle, (run (sweepStep .bare) s [.pass (quickPass 300000001),
        .event ⟨.attConnected 10 [3, 3, 3, 3, 3, 3] .lePublic, .idle⟩,
        .pass (quickPass 300040001)]).2 =
          keys.map entry ∧
      keys.Pairwise (· < ·) ∧ ∀ k ∈ [64, 65], k ∈ keys :=
  sweep_covers .bare 0 0
    [.event ⟨.attConnected 64 [1, 1, 1, 1, 1, 1] .lePublic, .idle⟩,
      .event ⟨.attConnected 65 [2, 2, 2, 2, 2, 2] .lePublic, .idle⟩]
    [.event ⟨.attConnected 10 [3, 3, 3, 3, 3, 3] .lePublic, .idle⟩, .pass (quickPass 300040001)]
    (quickPass 300000001) [64, 65] (by decide +kernel) (by decide +kernel) (by decide +kernel)
    (by decide +kernel) (by decide +kernel)

end BitchatRepeater
