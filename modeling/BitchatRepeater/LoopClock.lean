import BitchatRepeater.LifeChecks

/-!
# The clock of the loop

Four calls of the loop have a timer each, the low 32 bits of the time of the call
before: they are made in the passes that begin later than a limit after it. Counted
in full, over any number of wraps and whatever callbacks come, they are made in just
those passes, if passes begin close enough to one another (`called_iff_due`). What the
timer of `cleanupStaleItems` starts with is ahead of the clock, and counts as the time
one wrap before.
-/

namespace BitchatRepeater

open Lib Tracker

inductive TimedCall
  | announce | rssi | scan | cleanup
  deriving DecidableEq, Repr

namespace TimedCall

def call : TimedCall → LoopCall
  | announce => .announceToConnections
  | rssi => .requestNextRssi true
  | scan => .startScanning
  | cleanup => .cleanupStaleItems

def limit : TimedCall → UInt32
  | announce => twoSecondsInUs
  | rssi => fiveMinutesInUs
  | scan => tenMinutesInUs
  | cleanup => tenMinutesInUs

def last (v : LoopTimers) : TimedCall → UInt32
  | announce => v.lastAnnounce
  | rssi => v.lastRssiUpdate
  | scan => v.lastScan
  | cleanup => v.lastCleanup

def setTo (time : Nat) : TimedCall → Int
  | cleanup => time + 300000000 - 2 ^ 32
  | _ => time

theorem last_start (c : TimedCall) (time : Nat) :
    ((c.last (.start time)).toNat : Int) = c.setTo time % 2 ^ 32 := by
  cases c with
  | cleanup =>
    show ((timeUs32 time + fiveMinutesInUs).toNat : Int) =
      (time + 300000000 - 2 ^ 32 : Int) % 2 ^ 32
    rw [UInt32.toNat_add, toNat_timeUs32, show fiveMinutesInUs.toNat = 300000000 from rfl]
    omega
  | _ =>
    show ((timeUs32 time).toNat : Int) = (time : Int) % 2 ^ 32
    rw [toNat_timeUs32]
    rfl

end TimedCall

-- ---------------------------------------------------------------------------
-- Stages
-- ---------------------------------------------------------------------------

namespace TimedCall

variable {c : TimedCall} {stage stage' : LoopStage}

def toCome (c : TimedCall) (stage : LoopStage) : Bool :=
  c.call.stage.wayToTop ≤ stage.wayToTop && stage ≠ .wfi

theorem toCome_stage (c : TimedCall) : c.toCome c.call.stage = true := by cases c <;> rfl

theorem not_toCome_top (c : TimedCall) : c.toCome .top = false := by cases c <;> rfl

theorem toCome_announce (c : TimedCall) : c.toCome .announce = true := by cases c <;> rfl

theorem not_toCome_of_leadsTo (h : c.call.stage.LeadsTo stage) : c.toCome stage = false := by
  cases c <;> cases h <;> rfl

theorem toCome_of_leadsTo (h : stage.LeadsTo stage') (htop : stage ≠ .top)
    (hs : stage ≠ c.call.stage) :
    c.toCome stage' = c.toCome stage := by
  cases h <;> cases c <;> first | rfl | exact absurd rfl htop | exact absurd rfl hs

end TimedCall

namespace Program

variable {P : Platform} {p : Program} {i : ProgramInput} {c : TimedCall}

theorem timed_loop (hs : p.stage = c.call.stage) :
    (.call c.call ∈ (p.loop P i).2 ↔ elapsed p.loopStart (c.last p.timers) c.limit) ∧
      c.last (p.loop P i).1.timers =
        if elapsed p.loopStart (c.last p.timers) c.limit then timeUs32 i.time
        else c.last p.timers := by
  cases c with
  | announce =>
    have hs : p.stage = .announce := hs
    simp only [loop, hs, loopAnnounce, goTo, TimedCall.last, TimedCall.limit]
    by_cases hdue : elapsed p.loopStart p.timers.lastAnnounce twoSecondsInUs
      <;> simp [hdue, TimedCall.call]
  | rssi =>
    have hs : p.stage = .rssi := hs
    simp only [loop, hs, loopRssi, goTo, TimedCall.last, TimedCall.limit, LoopTimers.rssiRestart]
    by_cases hdue : elapsed p.loopStart p.timers.lastRssiUpdate fiveMinutesInUs
    · simp [hdue, TimedCall.call]
    · cases hmore : p.timers.rssiUpdateInProgress <;> simp [hdue, TimedCall.call]
  | scan =>
    have hs : p.stage = .scan := hs
    simp only [loop, hs, loopScan, goTo, TimedCall.last, TimedCall.limit,
      startScanningForLocalNodes]
    by_cases hdue : elapsed p.loopStart p.timers.lastScan tenMinutesInUs
      <;> simp [hdue, TimedCall.call]
  | cleanup =>
    have hs : p.stage = .cleanup := hs
    simp only [loop, hs, loopCleanup, goTo, TimedCall.last, TimedCall.limit]
    by_cases hdue : elapsed p.loopStart p.timers.lastCleanup tenMinutesInUs
      <;> simp [hdue, TimedCall.call]

theorem last_loop_of_ne (hs : p.stage ≠ c.call.stage) :
    c.last (p.loop P i).1.timers = c.last p.timers := by
  unfold loop
  split
  next =>
    split
    · unfold loopTop
      simp only
      split
      · simp only
        split <;> rfl
      · rfl
    · rfl
  next h =>
    rw [h] at hs
    unfold loopAnnounce goTo
    cases c with
    | announce => exact absurd rfl hs
    | _ => split <;> rfl
  next =>
    unfold loopConnect
    split
    · simp only
      split <;> rfl
    · rfl
  next => rfl
  next => cases c <;> rfl
  next => rfl
  next => cases c <;> rfl
  next h =>
    rw [h] at hs
    unfold loopRssi goTo
    cases c with
    | rssi => exact absurd rfl hs
    | _ => split <;> rfl
  next h =>
    rw [h] at hs
    unfold loopScan goTo
    cases c with
    | scan => exact absurd rfl hs
    | _ => split <;> rfl
  next h =>
    rw [h] at hs
    unfold loopCleanup goTo
    cases c with
    | cleanup => exact absurd rfl hs
    | _ => split <;> rfl
  next =>
    unfold loopSleep
    split
    · rfl
    · split <;> rfl
  next => rfl

theorem last_step (P : Platform) (p : Program) (i : ProgramInput) (c : TimedCall) :
    c.last (step P p i).1.timers =
      if .call c.call ∈ (step P p i).2 then timeUs32 i.time else c.last p.timers := by
  by_cases hloop : i.action = .loop
  · rw [step_loop hloop]
    by_cases hs : p.stage = c.call.stage
    · obtain ⟨hcalled, hlast⟩ := timed_loop (P := P) (i := i) hs
      simp only [hlast, hcalled]
    · rw [if_neg fun h => hs (stage_of_call (step_loop (P := P) hloop ▸ h)).2, last_loop_of_ne hs]
  · rw [(callback_frame hloop).1.timers, if_neg fun h => hloop (stage_of_call h).1]

theorem loopStart_top (hs : p.stage = .top) (hrun : p.keepRunning = true) :
    starts (p.loop P i).2 = [i.time] ∧ (p.loop P i).1.loopStart = timeUs32 i.time := by
  simp only [loop, hs, hrun, if_true, loopTop]
  split
  · split <;> exact ⟨by simp, rfl⟩
  · exact ⟨rfl, rfl⟩

theorem starts_of_ne_top (hs : p.stage ≠ .top) : starts (p.loop P i).2 = [] := by
  refine List.filterMap_eq_nil_iff.mpr fun e he => ?_
  rcases madeAt_loop P p i e he with ⟨x, rfl⟩ | hstage
  · rfl
  · cases e with
    | passStarts time => exact absurd (Option.some.inj hstage).symm hs
    | _ => rfl

end Program

-- ---------------------------------------------------------------------------
-- Time counted in full
-- ---------------------------------------------------------------------------

theorem elapsed_iff_of_lt {value limit : UInt32} {last : Int} {time : Nat}
    (hvalue : (value.toNat : Int) = last % 2 ^ 32)
    (hle : last ≤ time) (hlt : time < last + 2 ^ 32) :
    elapsed (timeUs32 time) value limit ↔ last + limit.toNat < time := by
  rw [elapsed_iff, toNat_timeUs32]
  omega

namespace Program

variable {P : Platform} {p : Program} {i : ProgramInput} {c : TimedCall} {gap : Nat}
    {begun last : Int}
  {times readings : List Nat}

def loopTimes (is : List ProgramInput) : List Nat :=
  (is.filter fun i => i.action.ofLoop).map ProgramInput.time

def lastMade (P : Platform) (c : LoopCall) : Program → Int → List ProgramInput → Int
  | _, last, [] => last
  | p, last, i :: is =>
    lastMade P c (step P p i).1 (if .call c ∈ (step P p i).2 then i.time else last) is

theorem lastMade_snoc (P : Platform) (call : LoopCall) (p : Program) (last : Int)
    (is : List ProgramInput) (i : ProgramInput) : lastMade P call p last (is ++ [i]) =
      if .call call ∈ (step P (run (step P) p is).1 i).2 then (i.time : Int)
      else lastMade P call p last is := by
  induction is generalizing p last with
  | nil => rfl
  | cons j js ih => exact ih _ _

/-- The timer was set at `last`, and passes began at `readings`; in the one that
runs the call is still to come, or was made if it was due. -/
structure OnTime (c : TimedCall) (begun : Int) (times readings : List Nat) (last : Int)
    (p : Program) : Prop where
  set : ((c.last p.timers).toNat : Int) = last % 2 ^ 32
  last_mem : last = begun ∨ ∃ t ∈ times, last = t
  readings_mem : ∀ t ∈ readings.getLast?, t ∈ times
  loopStart : ∀ t ∈ readings.getLast?, p.loopStart = timeUs32 t
  first : readings = [] → last = begun ∧ p.stage = .top
  toCome : c.toCome p.stage = true → ∀ t ∈ readings.getLast?, last ≤ t ∧ t < last + 2 ^ 32
  made : c.toCome p.stage = false → ∀ t ∈ readings.getLast?, t ≤ last + c.limit.toNat

theorem OnTime.called_iff (h : OnTime c begun times readings last p) (hs : p.stage = c.call.stage)
    (ht : t ∈ readings.getLast?) : .call c.call ∈ (p.loop P i).2 ↔ last + c.limit.toNat < t := by
  obtain ⟨hle, hlt⟩ := h.toCome (by rw [hs, c.toCome_stage]) t ht
  rw [(timed_loop hs).1, h.loopStart t ht, elapsed_iff_of_lt h.set hle hlt]

theorem OnTime.last_le {time : Nat} (h : OnTime c begun times readings last p)
    (hbegun : begun ≤ time) (hclock : ∀ t ∈ times, t ≤ time) : last ≤ time := by
  rcases h.last_mem with rfl | ⟨t, ht, rfl⟩
  · exact hbegun
  · exact Int.ofNat_le.mpr (hclock t ht)

theorem OnTime.last_mem_append (h : OnTime c begun times readings last p) (later : List Nat) :
    last = begun ∨ ∃ t ∈ times ++ later, last = t := by
  rcases h.last_mem with he | ⟨t, ht, he⟩
  · exact .inl he
  · exact .inr ⟨t, List.mem_append_left _ ht, he⟩

theorem OnTime.callback (h : OnTime c begun times readings last p) (hi : i.action ≠ .loop) :
    OnTime c begun times readings last (step P p i).1 := by
  obtain ⟨⟨htimers, hstage, hstart, -, -, -⟩, -, -⟩ := callback_frame (P := P) (p := p) hi
  exact
    { set := htimers ▸ h.set
      last_mem := h.last_mem
      readings_mem := h.readings_mem
      loopStart := hstart ▸ h.loopStart
      first := hstage ▸ h.first
      toCome := hstage ▸ h.toCome
      made := hstage ▸ h.made }

/-- A pass begins: no later than the gap after the one before it, in which the call
was made if it was due. -/
theorem OnTime.top (h : OnTime c begun times readings last p) (hgap : gap + c.limit.toNat < 2 ^ 32)
    (hi : i.action = .loop) (hs : p.stage = .top) (hrun : p.keepRunning = true)
    (hbegun : begun ≤ i.time)
    (hclock : ∀ t ∈ times, t ≤ i.time) (hfirst : readings = [] → i.time < begun + 2 ^ 32)
    (hnext : ∀ t ∈ readings.getLast?, i.time ≤ t + gap) :
    OnTime c begun (times ++ [i.time]) (readings ++ [i.time]) last (step P p i).1 := by
  have hne : p.stage ≠ c.call.stage := by
    rw [hs]
    cases c <;> exact fun h => (by cases h)
  have hstage : (p.loop P i).1.stage = .announce := by
    have hleads := leadsTo_loop (P := P) (i := i) fun _ => hrun
    rw [hs] at hleads
    generalize (p.loop P i).1.stage = stage at hleads
    cases hleads
    rfl
  have hnear : i.time < last + 2 ^ 32 := by
    cases hr : readings.getLast? with
    | none =>
      have hnil := List.getLast?_eq_none_iff.mp hr
      rw [(h.first hnil).1]
      exact hfirst hnil
    | some t =>
      have hmade := h.made (by rw [hs, c.not_toCome_top]) t hr
      have hnext := hnext t hr
      omega
  rw [step_loop hi]
  refine
    { set := (last_loop_of_ne hne).symm ▸ h.set
      last_mem := h.last_mem_append _
      readings_mem := by simp
      loopStart := by simp [(loopStart_top hs hrun).2]
      first := by simp
      toCome := fun _ => by simpa using ⟨h.last_le hbegun hclock, hnear⟩
      made := fun hmade => ?_ }
  rw [hstage, c.toCome_announce] at hmade
  cases hmade

theorem OnTime.stage (h : OnTime c begun times readings last p) (hi : i.action = .loop)
    (hs : p.stage ≠ .top) (hclock : ∀ t ∈ times, t ≤ i.time) :
    OnTime c begun (times ++ [i.time]) readings
      (if .call c.call ∈ (step P p i).2 then (i.time : Int) else last) (step P p i).1 := by
  have hlast := last_step P p i c
  have hcalled : .call c.call ∈ (step P p i).2 → p.stage = c.call.stage :=
    fun hm => (stage_of_call hm).2
  have hleads := leadsTo_loop (P := P) (i := i) fun htop => absurd htop hs
  rw [step_loop hi] at hlast hcalled ⊢
  refine
    { set := ?_
      last_mem := ?_
      readings_mem := fun t ht => List.mem_append_left _ (h.readings_mem t ht)
      loopStart := ((loop_frame P p i).loopStart hs).symm ▸ h.loopStart
      first := fun hnone => absurd (h.first hnone).2 hs
      toCome := fun htoCome t ht => ?_
      made := fun hmade t ht => ?_ }
  · rw [hlast]
    split
    · rw [toNat_timeUs32]
      rfl
    · exact h.set
  · split
    · exact .inr ⟨i.time, by simp, rfl⟩
    · exact h.last_mem_append _
  · by_cases hstage : p.stage = c.call.stage
    · rw [hstage] at hleads
      rw [TimedCall.not_toCome_of_leadsTo hleads] at htoCome
      cases htoCome
    · rw [if_neg fun hm => hstage (hcalled hm)]
      exact h.toCome ((TimedCall.toCome_of_leadsTo hleads hs hstage).symm.trans htoCome) t ht
  · by_cases hstage : p.stage = c.call.stage
    · have hiff := h.called_iff (P := P) (i := i) hstage ht
      split
      next =>
        have hle := hclock t (h.readings_mem t ht)
        omega
      next hnot => exact Int.not_lt.mp fun hlt => hnot (hiff.mpr hlt)
    · rw [if_neg fun hm => hstage (hcalled hm)]
      exact h.made ((TimedCall.toCome_of_leadsTo hleads hs hstage).symm.trans hmade) t ht

theorem OnTime.ended (h : OnTime c begun times readings last p) (hi : i.action = .loop)
    (hs : p.stage = .top) (hended : p.keepRunning = false) :
    OnTime c begun (times ++ [i.time]) readings last (step P p i).1 := by
  have hsame : p.loop P i = (p, []) := by simp [loop, hs, hended]
  rw [step_loop hi, hsame]
  exact { h with
    last_mem := h.last_mem_append _
    readings_mem := fun t ht => List.mem_append_left _ (h.readings_mem t ht) }

/-- The times read by the loop go up from where the timer was set, the first pass
begins within a wrap from there, and no other later than the gap after the one before. -/
structure Regular (P : Platform) (gap : Nat) (begun : Int) (p : Program)
    (is : List ProgramInput) : Prop where
  begins : ∀ t ∈ loopTimes is, begun ≤ t
  clock : (loopTimes is).Pairwise (· ≤ ·)
  first : ∀ t ∈ (starts (run (step P) p is).2).head?, t < begun + 2 ^ 32
  passes : (starts (run (step P) p is).2).IsChain fun s t => t ≤ s + gap

theorem Regular.of_append (h : Regular P gap begun p (is ++ js)) : Regular P gap begun p is := by
  obtain ⟨hbegins, hclock, hfirst, hpasses⟩ := h
  rw [run_append, starts_append] at hfirst hpasses
  rw [loopTimes, List.filter_append, List.map_append] at hbegins hclock
  refine ⟨fun t ht => hbegins t (List.mem_append_left _ ht), (List.pairwise_append.mp hclock).1,
    fun t ht => ?_,
    hpasses.left_of_append⟩
  exact hfirst t (by simp [Option.mem_def.mp ht])

theorem onTime_run (hset : ((c.last p.timers).toNat : Int) = begun % 2 ^ 32) (hp : p.stage = .top)
    (hgap : gap + c.limit.toNat < 2 ^ 32) (h : Regular P gap begun p is) :
    OnTime c begun (loopTimes is) (starts (run (step P) p is).2) (lastMade P c.call p begun is)
      (run (step P) p is).1 := by
  induction is using List.reverseRecOn with
  | nil =>
    refine ⟨hset, .inl rfl, ?_, ?_, fun _ => ⟨rfl, hp⟩, ?_, ?_⟩
    all_goals simp [run, starts]
  | append_singleton is i ih =>
    have hold := ih h.of_append
    obtain ⟨hbegins, hclock, hfirst, hpasses⟩ := h
    rw [run_snoc] at hfirst hpasses ⊢
    rw [lastMade_snoc]
    simp only [starts_append]
    generalize run (step P) p is = r at hold hfirst hpasses ⊢
    by_cases hi : i.action = .loop
    · have htimes : loopTimes (is ++ [i]) = loopTimes is ++ [i.time] := by
        simp [loopTimes, hi, ProgramAction.ofLoop]
      rw [htimes] at hbegins hclock ⊢
      have hbegun : begun ≤ i.time := hbegins i.time (by simp)
      have hlater (t : Nat) (ht : t ∈ loopTimes is) : t ≤ i.time :=
        (List.pairwise_append.mp hclock).2.2 t ht i.time (List.mem_singleton_self _)
      by_cases hs : r.1.stage = .top
      · have hnot : .call c.call ∉ (step P r.1 i).2 := by
          intro hm
          have hstage := hs.symm.trans (stage_of_call hm).2
          cases c <;> cases hstage
        rw [if_neg hnot]
        cases hrun : r.1.keepRunning with
        | true =>
          have hstarts : starts (step P r.1 i).2 = [i.time] := by
            rw [step_loop hi, (loopStart_top hs hrun).1]
          rw [starts_append, hstarts] at hfirst hpasses
          rw [hstarts]
          refine hold.top hgap hi hs hrun hbegun hlater (fun hnone => ?_) fun t ht => ?_
          · exact hfirst i.time (by simp [hnone])
          · exact (List.isChain_append.mp hpasses).2.2 t ht i.time rfl
        | false =>
          have hstarts : starts (step P r.1 i).2 = [] := by
            rw [step_loop hi]
            simp [loop, hs, hrun]
          rw [hstarts, List.append_nil]
          exact hold.ended hi hs hrun
      · have hstarts : starts (step P r.1 i).2 = [] := by
          rw [step_loop hi, starts_of_ne_top hs]
        rw [hstarts, List.append_nil]
        exact hold.stage hi hs hlater
    · have htimes : loopTimes (is ++ [i]) = loopTimes is := by
        have hno : i.action.ofLoop = false := by
          cases ha : i.action <;> first | rfl | exact absurd ha hi
        simp [loopTimes, hno]
      rw [htimes, (callback_frame hi).2.1, List.append_nil,
        if_neg fun hm => hi (stage_of_call hm).1]
      exact hold.callback hi

/-- In every run: where the loop comes to the stage of a call that has a timer, it
makes it just if the pass began more than the limit after the call before, both
times counted in full. -/
theorem called_iff_due (P : Platform) (addr : Addr) (time : Nat) (c : TimedCall) (gap : Nat)
    (is : List ProgramInput) (hgap : gap + c.limit.toNat < 2 ^ 32)
    (h : Regular P gap (c.setTo time) (start addr time) is) :
    ∀ before i after, is = before ++ i :: after → i.action = .loop →
      (run (step P) (start addr time) before).1.stage = c.call.stage →
      ∀ passStart ∈ (starts (run (step P) (start addr time) before).2).getLast?,
        (.call c.call ∈ (step P (run (step P) (start addr time) before).1 i).2 ↔
          lastMade P c.call (start addr time) (c.setTo time) before + c.limit.toNat <
          passStart) := by
  rintro before i after rfl hi hs passStart ht
  rw [step_loop hi]
  exact (onTime_run (c.last_start time) rfl hgap h.of_append).called_iff hs ht

/-- Three passes, of which the first begins half a second behind the start, and a
callback in front of each other. The clock wraps between the first two. -/
def acrossWrap : List ProgramInput :=
  List.replicate 10 (onLoop 4294500000) ++
    ⟨.otherCallback, .idle, 0, 0⟩ :: List.replicate 10 (onLoop 4296100000) ++
    ⟨.otherCallback, .idle, 0, 0⟩ :: List.replicate 3 (onLoop 4298200000)

/-- The announces of the second pass and of the third are due. -/
theorem announces_across_wrap :
    (run (step .bare) (start 0 4294000000) acrossWrap).2.count (.call .announceToConnections) = 2 ∧
    ∀ before i after, acrossWrap = before ++ i :: after → i.action = .loop →
      (run (step .bare) (start 0 4294000000) before).1.stage = TimedCall.announce.call.stage →
      ∀ passStart ∈ (starts (run (step .bare) (start 0 4294000000) before).2).getLast?,
        (.call TimedCall.announce.call ∈
          (step .bare (run (step .bare) (start 0 4294000000) before).1 i).2 ↔
          lastMade .bare TimedCall.announce.call (start 0 4294000000)
            (TimedCall.announce.setTo 4294000000) before +
            TimedCall.announce.limit.toNat < passStart) :=
  ⟨by decide +kernel, called_iff_due .bare 0 4294000000 .announce 2100000 acrossWrap (by decide)
    ⟨by decide +kernel, by decide +kernel, by decide +kernel, by decide +kernel⟩⟩

end Program

end BitchatRepeater
