import BitchatRepeater.Sleeping

/-!
# Life checks

When the pin is pulled to ground the callback sets a flag, and the next pass of the
loop begins with the still alive message. The press is answered within a pass, and
the message, if it is stored, is sent in the one that answers, unless the exit pin
ends the loop before (`press_answered`).
-/

namespace BitchatRepeater

open Lib Tracker

namespace LoopStage

def wayToTop : LoopStage → Nat
  | .top => 0
  | .sleep => 1
  | .wfi => 2
  | .cleanup => 2
  | .scan => 3
  | .rssi => 4
  | .flash => 5
  | .send => 6
  | .disconnect _ => 7
  | .duplicate => 8
  | .connect => 9
  | .announce => 10

end LoopStage

namespace Program

variable {P : Platform} {p : Program} {i : ProgramInput} {a : Addr}

-- ---------------------------------------------------------------------------
-- The flag
-- ---------------------------------------------------------------------------

/-- The pass that begins sends the still alive message. -/
structure Answers (p : Program) (i : ProgramInput) : Prop where
  action : i.action = .loop
  stage : p.stage = .top
  keepRunning : p.keepRunning = true
  lifeCheck : p.lifeCheck = true

/-- With the flag set the loop is about to begin a pass, or will find that a callback came. -/
structure Pressed (p : Program) : Prop where
  lifeCheck : p.lifeCheck = true
  noticed : p.stage = .top ∨ p.globalActivity ≠ p.lastActivity
  keepRunning : p.keepRunning = true

theorem Pressed.awake (h : Pressed p) (hs : p.stage = .sleep) : p.globalActivity ≠ p.lastActivity :=
  h.noticed.resolve_left (by simp [hs])

theorem lifeCheck_step (hrun : p.keepRunning = true) (hl : p.lifeCheck = true)
    (hi : ¬ Answers p i) :
    (step P p i).1.lifeCheck = true := by
  by_cases hloop : i.action = .loop
  · rw [step_loop hloop, (loop_frame P p i).lifeCheck fun hs => hi ⟨hloop, hs, hrun, hl⟩]
    exact hl
  · exact (callback_frame hloop).1.lifeCheck hl

theorem Pressed.step (h : Pressed p) (hc : CountsOn p i) (hexit : i.action ≠ .exitPin)
    (hi : ¬ Answers p i) : Pressed (Program.step P p i).1 := by
  refine ⟨lifeCheck_step h.keepRunning h.lifeCheck hi, ?_,
    (keepRunning_step hexit).trans h.keepRunning⟩
  by_cases hloop : i.action = .loop
  · have htop : p.stage ≠ .top := fun hs => hi ⟨hloop, hs, h.keepRunning, h.lifeCheck⟩
    rw [step_loop hloop]
    have hframe := loop_frame P p i
    have hawake := h.noticed.resolve_left htop
    by_cases hs : p.stage = .sleep
    · left
      simp only [loop, hs]
      unfold loopSleep
      rw [if_neg (by simp [hawake.symm])]
      split <;> rfl
    · right
      rw [hframe.globalActivity htop, hframe.lastActivity hs]
      exact hawake
  · rcases h.noticed with htop | hne
    · left
      rw [(callback_frame hloop).1.stage]
      exact htop
    · exact .inr (counts_callback hloop hc (.inr hne))

-- ---------------------------------------------------------------------------
-- The message
-- ---------------------------------------------------------------------------

theorem stage_of_call (h : .call c ∈ (step P p i).2) : i.action = .loop ∧ p.stage = c.stage := by
  by_cases hloop : i.action = .loop
  · rw [step_loop hloop] at h
    rcases madeAt_loop P p i _ h with ⟨x, hx⟩ | hs
    · cases hx
    · exact ⟨hloop, (Option.some.inj hs).symm⟩
  · have hm := mem_calls.mpr h
    rw [(callback_frame hloop).2.2] at hm
    cases hm

/-- Up to its call of `sendPackets` a pass takes nothing off the broadcast list. -/
theorem untaken_beforeSend (hs : p.stage.beforeSend = true)
    (hi : .call .sendPackets ∉ (step P p i).2) :
    ¬ Takes P p i := by
  rintro (h | h)
  · exact hi h
  · rw [(stage_of_call h).2] at hs
    cases hs

theorem beforeSend_step (hs : p.stage.beforeSend = true)
    (hi : .call .sendPackets ∉ (step P p i).2) :
    (step P p i).1.stage.beforeSend = true := by
  by_cases hloop : i.action = .loop
  · rw [step_loop hloop] at hi ⊢
    rcases stage_loop P p i with ⟨-, -, he⟩ | hleads
    · rwa [he]
    · exact hleads.beforeSend hs fun hsend => hi (by simp [loop, hsend, loopSend])
  · rw [(callback_frame hloop).1.stage]
    exact hs

-- ---------------------------------------------------------------------------
-- Runs
-- ---------------------------------------------------------------------------

/-- The pass still has its call of `sendPackets` to come, and what was stored is to be broadcast. -/
structure Carries (stored : List ProgramEffect) (r : Program) : Prop where
  beforeSend : r.stage.beforeSend = true
  listed : ∀ a, .tracker (.storedOwn a) ∈ stored → a ∈ r.tracker.broadcastPacketsToSendList
  keepRunning : r.keepRunning = true

theorem Carries.awake {stored : List ProgramEffect} (h : Carries stored p) (hs : p.stage = .sleep) :
    p.globalActivity ≠ p.lastActivity := by
  have hbefore := h.beforeSend
  rw [hs] at hbefore
  cases hbefore

theorem Carries.step {stored : List ProgramEffect} (h : Carries stored p)
    (hexit : i.action ≠ .exitPin)
    (hi : .call .sendPackets ∉ (step P p i).2) : Carries stored (Program.step P p i).1 where
  beforeSend := beforeSend_step h.beforeSend hi
  listed := fun a ha => listed_program_step (untaken_beforeSend h.beforeSend hi) (h.listed a ha)
  keepRunning := (keepRunning_step hexit).trans h.keepRunning

end Program

end BitchatRepeater
