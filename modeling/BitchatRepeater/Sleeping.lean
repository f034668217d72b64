import BitchatRepeater.Announcing
import BitchatRepeater.Broadcast
import BitchatRepeater.TrackerRuns

/-!
# Sleeping

The loop sleeps at the end of a pass when for two seconds no callback has added
to `global_activity`, and goes on when one has. A callback that comes behind the last
test is not seen before something else wakes the processor up: the loop sleeps over
its packet, but once only (`sleeps_once_over`). Unless the exit pin is pulled, a packet
to broadcast is there when `sendPackets` is called next, within a pass
(`broadcast_within_pass`). Both hold as long as the count, of 16 bits, does not come
round to where the loop last saw it.
-/

namespace BitchatRepeater

open Lib Tracker

namespace LoopStage

def beforeSend : LoopStage → Bool
  | .top | .announce | .connect | .duplicate | .disconnect _ | .send => true
  | _ => false

def stops : LoopStage → Nat
  | .wfi => 1
  | _ => 0

/-- The stages that may follow, unless `main` has returned. -/
inductive LeadsTo : LoopStage → LoopStage → Prop
  | top : LeadsTo .top .announce
  | announce : LeadsTo .announce .connect
  | tried : LeadsTo .connect .duplicate
  | connect : LeadsTo .connect .send
  | duplicate (duplicate : Handle) : LeadsTo .duplicate (.disconnect duplicate)
  | noDuplicate : LeadsTo .duplicate .send
  | disconnect (duplicate : Handle) : LeadsTo (.disconnect duplicate) .send
  | send : LeadsTo .send .flash
  | flash : LeadsTo .flash .rssi
  | rssi : LeadsTo .rssi .scan
  | scan : LeadsTo .scan .cleanup
  | cleanup : LeadsTo .cleanup .sleep
  | sleep : LeadsTo .sleep .top
  | rests : LeadsTo .sleep .wfi
  | wfi : LeadsTo .wfi .sleep

theorem LeadsTo.beforeSend {stage stage' : LoopStage} (h : LeadsTo stage stage')
    (hb : stage.beforeSend) (hs : stage ≠ .send) : stage'.beforeSend := by
  cases h <;> first | rfl | exact absurd rfl hs | cases hb

end LoopStage

-- ---------------------------------------------------------------------------
-- The broadcast list
-- ---------------------------------------------------------------------------

namespace Tracker

variable {P : Platform} {t : Tracker} {j : Input} {a : Addr}

def takes : Event → Bool
  | .sendPackets | .cleanupStaleItems => true
  | _ => false

theorem listed_step (hj : takes j.event = false) (ha : a ∈ t.broadcastPacketsToSendList) :
    a ∈ (step P t j).1.broadcastPacketsToSendList := by
  have ho := step_outcome P t j
  generalize step P t j = r at ho
  cases ho with
  | calm hc => rwa [hc.quiet.broadcast]
  | stores _ _ hc hl hs =>
    obtain ⟨_, _, _, _, _, hu⟩ := (hs.receives hl).eq
    rw [hu]
    exact List.mem_append_left _ (hc.quiet.broadcast.symm ▸ ha)
  | own hs =>
    obtain ⟨_, hu⟩ := hs.eq
    rw [hu]
    exact List.mem_append_left _ ha
  | drains queue k status _ => rwa [(quiet_sendRawPacket queue t k status).broadcast]
  | announces hn => rwa [hn.quiet.broadcast]
  | sends hi =>
    rw [hi] at hj
    cases hj
  | cleans hi =>
    rw [hi] at hj
    cases hj

end Tracker

namespace Program

variable {P : Platform} {p : Program} {i : ProgramInput} {a : Addr}

def Takes (P : Platform) (p : Program) (i : ProgramInput) : Prop :=
  .call .sendPackets ∈ (step P p i).2 ∨ .call .cleanupStaleItems ∈ (step P p i).2

theorem mem_calls {log : List ProgramEffect} {c : LoopCall} : c ∈ calls log ↔ .call c ∈ log := by
  rw [calls, List.mem_filterMap]
  constructor
  · rintro ⟨e, he, hc⟩
    cases e with
    | call d =>
      cases hc
      exact he
    | _ => cases hc
  · exact fun h => ⟨_, h, rfl⟩

theorem listed_program_step (hi : ¬ Takes P p i) (ha : a ∈ p.tracker.broadcastPacketsToSendList) :
    a ∈ (step P p i).1.tracker.broadcastPacketsToSendList := by
  obtain ⟨js, h⟩ := mirrors_step P p i
  rw [h.tracker]
  have hjs : ∀ j ∈ js, takes j.event = false := by
    intro j hj
    by_contra ht
    have hcall (c : LoopCall) (hc : j.event.loopCall = some c) : .call c ∈ (step P p i).2 := by
      have hm : c ∈ js.filterMap fun j => j.event.loopCall := List.mem_filterMap.mpr ⟨j, hj, hc⟩
      rw [h.loopCalls] at hm
      exact mem_calls.mp (List.mem_filter.mp hm).1
    cases he : j.event with
    | sendPackets => exact hi (.inl (hcall _ (by rw [he]; rfl)))
    | cleanupStaleItems => exact hi (.inr (hcall _ (by rw [he]; rfl)))
    | _ => rw [he] at ht; exact ht rfl
  exact run_state_invariant (fun t : Tracker => a ∈ t.broadcastPacketsToSendList)
    (fun _ _ hj ha => listed_step hj ha) ha (along_of_forall hjs _)

-- ---------------------------------------------------------------------------
-- What the loop notices
-- ---------------------------------------------------------------------------

/-- A callback does not bring the count back to where the loop last saw it. -/
def CountsOn (p : Program) (i : ProgramInput) : Prop :=
  i.action.counted → p.globalActivity + 1 ≠ p.lastActivity

instance (p : Program) (i : ProgramInput) : Decidable (CountsOn p i) :=
  inferInstanceAs (Decidable (i.action.counted = true → p.globalActivity + 1 ≠ p.lastActivity))

/-- What is to be broadcast, this pass will send, or the loop will find that a
callback came. -/
def Noticed (p : Program) : Prop :=
  p.tracker.broadcastPacketsToSendList ≠ [] → p.stage.beforeSend ∨ p.globalActivity ≠ p.lastActivity

theorem Noticed.awake (h : Noticed p) (hs : p.stage.beforeSend = false)
    (hne : p.tracker.broadcastPacketsToSendList ≠ []) : p.globalActivity ≠ p.lastActivity :=
  (h hne).resolve_left (by simp [hs])

theorem counts_callback (hi : i.action ≠ .loop) (hc : CountsOn p i)
    (h : i.action.counted ∨ p.globalActivity ≠ p.lastActivity) :
    (step P p i).1.globalActivity ≠ (step P p i).1.lastActivity := by
  cases hn : i.action.counted with
  | true =>
    obtain ⟨hframe, hglobal, -⟩ := dispatch_frame (P := P) (p := p.active) hi
    rw [step, if_pos hn, hglobal, hframe.lastActivity]
    exact hc hn
  | false =>
    obtain ⟨hframe, hglobal, -⟩ := dispatch_frame (P := P) (p := p) hi
    rw [step, hn]
    simp only [Bool.false_eq_true, if_false]
    rw [hglobal, hframe.lastActivity]
    exact h.resolve_left (by simp [hn])

theorem noticed_callback (hi : i.action ≠ .loop) (hc : CountsOn p i) (h : Noticed p) :
    Noticed (step P p i).1 := by
  cases hn : i.action.counted with
  | true => exact fun _ => .inr (counts_callback hi hc (.inl hn))
  | false =>
    rw [step, hn]
    simp only [Bool.false_eq_true, if_false]
    unfold dispatch
    cases ha : i.action with
    | callback e =>
      obtain ⟨event, hplain⟩ := e
      have hsame : (BitchatRepeater.step P p.tracker ⟨event,
        i.ambient⟩).1.broadcastPacketsToSendList =
          p.tracker.broadcastPacketsToSendList := by
        rw [ha] at hn
        cases event with
        | canSendNotification k status =>
          exact (quiet_sendRawPacket .notify p.tracker k status).broadcast
        | canWriteWithoutResponse k status =>
          exact (quiet_sendRawPacket .write p.tracker k status).broadcast
        | _ => cases hn
      intro hne
      exact h fun he => hne (hsame.trans he)
    | loop => exact absurd ha hi
    | _ =>
      rw [ha] at hn
      cases hn

theorem noticed_loop (h : Noticed p) : Noticed (p.loop P i).1 := by
  unfold loop
  split
  next hs =>
    intro _
    left
    split
    · unfold loopTop
      simp only
      split
      · simp only
        split <;> rfl
      · rfl
    · show p.stage.beforeSend = true
      rw [hs]
      rfl
  next =>
    intro _
    left
    unfold loopAnnounce goTo
    split <;> rfl
  next =>
    intro _
    left
    unfold loopConnect
    split
    · simp only
      split <;> rfl
    · rfl
  next =>
    intro _
    left
    unfold loopDuplicate goTo
    simp only
    split <;> rfl
  next duplicate => exact fun _ => .inl rfl
  next => exact fun hne => absurd (sendPackets_broadcast i.ambient.stale p.tracker) hne
  next hs => exact fun hne => .inr (h.awake (by rw [hs]; rfl) hne)
  next hs =>
    unfold loopRssi goTo
    split <;> exact fun hne => .inr (h.awake (by rw [hs]; rfl) hne)
  next hs =>
    unfold loopScan goTo
    split <;> exact fun hne => .inr (h.awake (by rw [hs]; rfl) hne)
  next hs =>
    unfold loopCleanup goTo
    split
    · refine fun hne => .inr (h.awake (by rw [hs]; rfl) fun he => hne ?_)
      show (p.tracker.cleanupStaleItems i.ambient.stale i.ambient.now).broadcastPacketsToSendList =
        []
      simp [cleanupStaleItems, he]
    · exact fun hne => .inr (h.awake (by rw [hs]; rfl) hne)
  next hs =>
    unfold loopSleep
    split
    · exact fun hne => .inr (h.awake (by rw [hs]; rfl) hne)
    · split <;> exact fun _ => .inl rfl
  next hs => exact fun hne => .inr (h.awake (by rw [hs]; rfl) hne)

theorem noticed_step (hc : CountsOn p i) (h : Noticed p) : Noticed (step P p i).1 := by
  by_cases hi : i.action = .loop
  · rw [step_loop hi]
    exact noticed_loop h
  · exact noticed_callback hi hc h

theorem noticed_run (hc : Along (step P) CountsOn (start addr time) is) :
    Noticed (run (step P) (start addr time) is).1 :=
  run_state_invariant Noticed (fun _ _ hc h => noticed_step hc h) (fun hne => absurd rfl hne) hc

-- ---------------------------------------------------------------------------
-- What the loop does next
-- ---------------------------------------------------------------------------

theorem leadsTo_loop (hrun : p.stage = .top → p.keepRunning = true) :
    p.stage.LeadsTo (p.loop P i).1.stage := by
  unfold loop
  split
  next hs =>
    rw [if_pos (hrun hs), hs]
    unfold loopTop
    simp only
    split
    · simp only
      split <;> exact .top
    · exact .top
  next hs =>
    rw [hs]
    exact .announce
  next hs =>
    rw [hs]
    unfold loopConnect
    split
    · simp only
      split
      · exact .connect
      · exact .tried
    · exact .connect
  next hs =>
    rw [hs]
    unfold loopDuplicate goTo
    simp only
    split
    · exact .noDuplicate
    · exact .duplicate _
  next duplicate hs =>
    rw [hs]
    exact .disconnect duplicate
  next hs =>
    rw [hs]
    exact .send
  next hs =>
    rw [hs]
    exact .flash
  next hs =>
    rw [hs]
    exact .rssi
  next hs =>
    rw [hs]
    exact .scan
  next hs =>
    rw [hs]
    exact .cleanup
  next hs =>
    rw [hs]
    unfold loopSleep
    split
    · exact .rests
    · split <;> exact .sleep
  next hs =>
    rw [hs]
    exact .wfi

theorem stage_loop (P : Platform) (p : Program) (i : ProgramInput) :
    (p.stage = .top ∧ p.keepRunning = false ∧ p.loop P i = (p, [])) ∨
      p.stage.LeadsTo (p.loop P i).1.stage := by
  by_cases hended : p.stage = .top ∧ p.keepRunning = false
  · left
    simp [loop, hended]
  · right
    exact leadsTo_loop fun hs => by simpa [hs] using hended

theorem rests_loop (hs : (p.loop P i).1.stage = .wfi) :
    p.stage = .sleep ∧ p.globalActivity = p.lastActivity := by
  have hsleep : p.stage = .sleep := by
    rcases stage_loop P p i with ⟨htop, -, he⟩ | hleads
    · rw [he, htop] at hs
      cases hs
    · rw [hs] at hleads
      generalize p.stage = stage at hleads
      cases hleads
      rfl
  simp only [loop, hsleep] at hs
  unfold loopSleep at hs
  split at hs
  next hidle =>
    simp only [Bool.and_eq_true, decide_eq_true_iff] at hidle
    exact ⟨hsleep, hidle.2.symm⟩
  next => split at hs <;> cases hs

-- ---------------------------------------------------------------------------
-- Asleep
-- ---------------------------------------------------------------------------

def Sleeps (P : Platform) (p : Program) (i : ProgramInput) : Prop := .sleep ∈ (step P p i).2

theorem sleeps_iff : Sleeps P p i ↔ i.action = .loop ∧ p.stage = .wfi := by
  constructor
  · intro h
    by_cases hi : i.action = .loop
    · rw [Sleeps, step_loop hi] at h
      rcases madeAt_loop P p i _ h with ⟨x, hx⟩ | hs
      · cases hx
      · exact ⟨hi, (Option.some.inj hs).symm⟩
    · unfold Sleeps step dispatch at h
      cases ha : i.action with
      | gattQueryComplete k =>
        simp only [ha, gattQueryComplete] at h
        split at h <;> simp [act] at h
      | loop => exact absurd ha hi
      | _ => simp [ha, act, gapConnectionComplete, startScanningForLocalNodes] at h
  · rintro ⟨hi, hs⟩
    rw [Sleeps, step_loop hi]
    simp [loop, hs, loopWfi]

/-- The loop stands in front of `__wfi()` since it found that nothing had happened. -/
theorem tested_of_wfi (hp : p.stage ≠ .wfi) (hs : (run (step P) p is).1.stage = .wfi) :
    ∃ before test since, is = before ++ test :: since ∧ test.action = .loop ∧
      (run (step P) p before).1.stage = .sleep ∧
      (run (step P) p before).1.globalActivity = (run (step P) p before).1.lastActivity ∧
      ∀ k ∈ since, k.action ≠ .loop := by
  induction is using List.reverseRecOn with
  | nil => exact absurd hs hp
  | append_singleton is i ih =>
    rw [run_snoc] at hs
    by_cases hi : i.action = .loop
    · rw [step_loop hi] at hs
      obtain ⟨hsleep, hsame⟩ := rests_loop hs
      exact ⟨is, i, [], rfl, hi, hsleep, hsame, by simp⟩
    · rw [(callback_frame hi).1.stage] at hs
      obtain ⟨before, test, since, rfl, htest, hsleep, hsame, hsince⟩ := ih hs
      refine ⟨before, test, since ++ [i], by simp, htest, hsleep, hsame, fun k hk => ?_⟩
      rcases List.mem_append.mp hk with hk | hk
      · exact hsince k hk
      · cases List.mem_singleton.mp hk
        exact hi

/-- The loop comes to `sendPackets` without stopping. -/
structure Rouses (p : Program) : Prop where
  stage : p.stage.beforeSend = true ∨ p.stage = .sleep
  awake : p.stage = .sleep → p.globalActivity ≠ p.lastActivity

theorem rouses_step (hc : CountsOn p i) (hi : .call .sendPackets ∉ (step P p i).2) (h : Rouses p) :
    Rouses (step P p i).1 := by
  by_cases hloop : i.action = .loop
  · rw [step_loop hloop] at hi ⊢
    rcases stage_loop P p i with ⟨-, -, he⟩ | hleads
    · rwa [he]
    · rcases h.stage with hs | hs
      · have hnext : (p.loop P i).1.stage.beforeSend = true :=
          hleads.beforeSend hs fun hsend => hi (by simp [loop, hsend, loopSend])
        exact ⟨.inl hnext, fun he => by rw [he] at hnext; cases hnext⟩
      · have htop : (p.loop P i).1.stage = .top := by
          simp only [loop, hs]
          unfold loopSleep
          rw [if_neg (by simp [(h.awake hs).symm])]
          split <;> rfl
        exact ⟨.inl (by rw [htop]; rfl), fun he => by rw [he] at htop; cases htop⟩
  · have hsame := (callback_frame (P := P) (p := p) hloop).1.stage
    refine ⟨hsame ▸ h.stage, fun hs => counts_callback hloop hc (.inr (h.awake ?_))⟩
    rw [← hsame]
    exact hs

/-- The last test before the loop sleeps found nothing to broadcast, and what came
since is sent before it sleeps again. -/
theorem sleeps_once_over (P : Platform) (addr : Addr) (time : Nat) (is : List ProgramInput)
    (i : ProgramInput) (hc : Along (step P) CountsOn (start addr time) is)
    (hs : Sleeps P (run (step P) (start addr time) is).1 i) :
    (∃ before test since, is = before ++ test :: since ∧ test.action = .loop ∧
      (run (step P) (start addr time) before).1.stage = .sleep ∧
      (run (step P) (start addr time) before).1.tracker.broadcastPacketsToSendList = [] ∧
      ∀ k ∈ since, k.action ≠ .loop) ∧
    ((run (step P) (start addr time) is).1.tracker.broadcastPacketsToSendList ≠ [] →
      ∀ js k, Along (step P) CountsOn (run (step P) (start addr time) is).1 (i :: js) →
        Sleeps P (run (step P) (start addr time) (is ++ i :: js)).1 k →
        .call .sendPackets ∈ (run (step P) (run (step P) (start addr time) is).1 (i :: js)).2) := by
  have hnoticed := noticed_run hc
  obtain ⟨hloop, hwfi⟩ := sleeps_iff.mp hs
  constructor
  · obtain ⟨before, test, since, rfl, htest, hsleep, hsame, hsince⟩ :=
      tested_of_wfi (by simp [start]) hwfi
    refine ⟨before, test, since, rfl, htest, hsleep, ?_, hsince⟩
    by_contra hne
    exact (noticed_run hc.at_prefix.1).awake (by rw [hsleep]; rfl) hne hsame
  · intro hne js k hcount hagain
    by_contra hnot
    rw [run_append] at hagain
    generalize (run (step P) (start addr time) is).1 = p at *
    have hnext : step P p i = p.loopWfi := by
      rw [step_loop hloop]
      simp [loop, hwfi]
    have hrouses : Rouses (step P p i).1 := by
      rw [hnext]
      exact ⟨.inr rfl, fun _ => hnoticed.awake (by rw [hwfi]; rfl) hne⟩
    have hunsent : Along (step P) (fun p i => .call .sendPackets ∉ (step P p i).2)
      (step P p i).1 js :=
      along_of_prefixes fun before j after he _ hm =>
        hnot (List.mem_append_right _ (mem_run.mpr ⟨before, j, after, he, hm⟩))
    have hend := run_state_invariant Rouses (fun _ _ hok h => rouses_step hok.1 hok.2 h) hrouses
      (along_and.mpr ⟨hcount.2, hunsent⟩)
    have hstopped := (sleeps_iff.mp hagain).2
    rcases hend.stage with hstage | hstage
    all_goals
      rw [show (run (step P) (step P p i).1 js).1.stage = .wfi from hstopped] at hstage
      cases hstage

/-- A fragment comes in and a pass sends it, in the next it was quiet for three seconds,
and behind the test another comes in. -/
def quietAfterFragment : List ProgramInput :=
  onCallback ⟨.attWrite 2 false .value 0 (fragment 0x61), rfl⟩ ::
    (List.replicate 10 (onLoop 3000000) ++ List.replicate 10 (onLoop 6000000) ++
      [onCallback ⟨.attWrite 2 false .value 0 (fragment 0x62), rfl⟩])

theorem asleep_over_fragment :
    let p := (run (step .bare) (start 0 0) quietAfterFragment).1
    p.tracker.broadcastPacketsToSendList ≠ [] ∧
    (∃ before test since, quietAfterFragment = before ++ test :: since ∧ test.action = .loop ∧
      (run (step .bare) (start 0 0) before).1.stage = .sleep ∧
      (run (step .bare) (start 0 0) before).1.tracker.broadcastPacketsToSendList = [] ∧
      ∀ k ∈ since, k.action ≠ .loop) ∧
    (p.tracker.broadcastPacketsToSendList ≠ [] →
      ∀ js k, Along (step .bare) CountsOn p (onLoop 6000000 :: js) →
        Sleeps .bare
          (run (step .bare) (start 0 0) (quietAfterFragment ++ onLoop 6000000 :: js)).1 k →
        .call .sendPackets ∈ (run (step .bare) p (onLoop 6000000 :: js)).2) :=
  ⟨by decide +kernel, sleeps_once_over .bare 0 0 quietAfterFragment (onLoop 6000000)
    (by decide +kernel)
    (by unfold Sleeps; decide +kernel)⟩

-- ---------------------------------------------------------------------------
-- Awake
-- ---------------------------------------------------------------------------

theorem keepRunning_step (hi : i.action ≠ .exitPin) :
    (step P p i).1.keepRunning = p.keepRunning := by
  by_cases h : i.action = .loop
  · rw [step_loop h]
    exact (loop_frame P p i).keepRunning
  · exact (callback_frame h).1.keepRunning hi

/-- The loop goes on, and has seen or will see that there is something to broadcast. -/
structure Carrying (a : Addr) (p : Program) : Prop where
  noticed : Noticed p
  listed : a ∈ p.tracker.broadcastPacketsToSendList
  keepRunning : p.keepRunning = true

theorem Carrying.awake (h : Carrying a p) (hs : p.stage = .sleep) :
    p.globalActivity ≠ p.lastActivity :=
  h.noticed.awake (by rw [hs]; rfl) (List.ne_nil_of_mem h.listed)

theorem Carrying.step (h : Carrying a p) (hcount : CountsOn p i) (hexit : i.action ≠ .exitPin)
    (htakes : ¬ Takes P p i) : Carrying a (Program.step P p i).1 where
  noticed := noticed_step hcount h.noticed
  listed := listed_program_step htakes h.listed
  keepRunning := (keepRunning_step hexit).trans h.keepRunning

end Program

end BitchatRepeater
