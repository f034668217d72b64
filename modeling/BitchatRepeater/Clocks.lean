import BitchatRepeater.EventLaws

/-!
# The two clocks

`time_us_64()` counts from boot, `getTimeMs` adds an offset taken from the announces
of others. An announce is to set the second clock so that it is not behind the
announce and not five minutes ahead; the times of connections are taken from the
first clock and compared with the second.
-/

namespace BitchatRepeater

open Lib Tracker

-- ---------------------------------------------------------------------------
-- Setting the clock
-- ---------------------------------------------------------------------------

def signed (x : UInt64) : Int := x.toInt64.toInt

def signedDiff (t : Tracker) (now timestampMs : UInt64) : Int :=
  signed timestampMs - signed (t.getTimeMs now)

/-- Neither the subtraction nor `llabs` overflows. -/
def NoOverflow (diff : Int) : Prop := (-2 ^ 63 ≤ diff ∧ diff < 2 ^ 63) ∧ diff.natAbs < 2 ^ 63

instance decidableNoOverflow (diff : Int) : Decidable (NoOverflow diff) :=
  inferInstanceAs (Decidable ((-2 ^ 63 ≤ diff ∧ diff < 2 ^ 63) ∧ diff.natAbs < 2 ^ 63))

/-- The clock is right behind the announce, or ahead of it by five minutes at most. -/
structure ClockSet (t : Tracker) (now timestampMs : UInt64) : Prop where
  noOverflow : NoOverflow (signedDiff t now timestampMs)
  not_behind : timestampMs.toNat ≤
    ((t.possiblyUpdateTimeOffset now timestampMs).getTimeMs now).toNat
  not_ahead : ((t.possiblyUpdateTimeOffset now timestampMs).getTimeMs now).toNat ≤
    timestampMs.toNat + 300000

theorem signed_eq (x : UInt64) :
    signed x = if x.toNat < 2 ^ 63 then (x.toNat : Int) else x.toNat - 2 ^ 64 := by
  rw [signed, Int64.toInt, UInt64.toBitVec_toInt64, BitVec.toInt_eq_toNat_cond,
    UInt64.toNat_toBitVec]
  have hx := x.toNat_lt
  split <;> split <;> omega

theorem diffAbs_eq (h : NoOverflow (signedDiff t now timestampMs)) :
    (if timestampMs - t.getTimeMs now < 0x8000000000000000 then timestampMs - t.getTimeMs now
      else 0 - (timestampMs - t.getTimeMs now)).toNat = (signedDiff t now timestampMs).natAbs := by
  have hdiff : (timestampMs - t.getTimeMs now).toNat =
      (2 ^ 64 - (t.getTimeMs now).toNat + timestampMs.toNat) % 2 ^ 64 := UInt64.toNat_sub ..
  have hs := timestampMs.toNat_lt
  have ho := (t.getTimeMs now).toNat_lt
  have hhalf : (0x8000000000000000 : UInt64).toNat = 2 ^ 63 := rfl
  unfold NoOverflow at h
  rw [signedDiff, signed_eq, signed_eq] at h ⊢
  split
  next hlt =>
    rw [UInt64.lt_iff_toNat_lt] at hlt
    omega
  next hge =>
    rw [UInt64.lt_iff_toNat_lt] at hge
    rw [UInt64.toNat_sub, UInt64.toNat_zero]
    omega

theorem offset_cancel (offset uptime timestampMs : UInt64) :
    offset + (timestampMs - (offset + uptime)) + uptime = timestampMs := by
  grind

theorem getTimeMs_update (h : NoOverflow (signedDiff t now timestampMs)) :
    (t.possiblyUpdateTimeOffset now timestampMs).getTimeMs now =
      if 300000 < (signedDiff t now timestampMs).natAbs ∨ t.getTimeMs now < timestampMs then
        timestampMs
      else t.getTimeMs now := by
  have habs := diffAbs_eq h
  simp only [possiblyUpdateTimeOffset]
  generalize (if timestampMs - t.getTimeMs now < 0x8000000000000000 then
      timestampMs - t.getTimeMs now
    else 0 - (timestampMs - t.getTimeMs now)) = diffAbs at habs ⊢
  have htest :
      (decide (diffAbs > messageTimeout) || decide (timestampMs > t.getTimeMs now)) = true ↔
      300000 < (signedDiff t now timestampMs).natAbs ∨ t.getTimeMs now < timestampMs := by
    rw [Bool.or_eq_true, decide_eq_true_iff, decide_eq_true_iff, ← habs, gt_iff_lt, gt_iff_lt,
      UInt64.lt_iff_toNat_lt (a := messageTimeout)]
    rfl
  by_cases hc : 300000 < (signedDiff t now timestampMs).natAbs ∨ t.getTimeMs now < timestampMs
  · rw [if_pos (htest.mpr hc), if_pos hc]
    exact offset_cancel _ _ _
  · rw [if_neg (mt htest.mp hc), if_neg hc]

/-- An announce sets the clock exactly if the two times lie in the same half of the
64 bit range or more than half of it apart, and the clock is not so close to its end
that the announce is behind its wrap. -/
theorem clockSet_iff (t : Tracker) (now timestampMs : UInt64) :
    ClockSet t now timestampMs ↔
      ((timestampMs.toNat < 2 ^ 63 ↔ (t.getTimeMs now).toNat < 2 ^ 63) ∨
        2 ^ 63 < ((timestampMs.toNat : Int) - (t.getTimeMs now).toNat).natAbs) ∧
      (t.getTimeMs now).toNat < timestampMs.toNat + (2 ^ 64 - 300000) := by
  have hs := timestampMs.toNat_lt
  have ho := (t.getTimeMs now).toNat_lt
  have hrange : NoOverflow (signedDiff t now timestampMs) ↔
      ((timestampMs.toNat < 2 ^ 63 ↔ (t.getTimeMs now).toNat < 2 ^ 63) ∨
        2 ^ 63 < ((timestampMs.toNat : Int) - (t.getTimeMs now).toNat).natAbs) := by
    rw [NoOverflow, signedDiff, signed_eq, signed_eq]
    split <;> split <;> omega
  rw [← hrange]
  have hclock (h : NoOverflow (signedDiff t now timestampMs)) :
      timestampMs.toNat ≤ ((t.possiblyUpdateTimeOffset now timestampMs).getTimeMs now).toNat ∧
        ((t.possiblyUpdateTimeOffset now timestampMs).getTimeMs now).toNat ≤
        timestampMs.toNat + 300000 ↔
      (t.getTimeMs now).toNat < timestampMs.toNat + (2 ^ 64 - 300000) := by
    rw [getTimeMs_update h]
    by_cases hc : 300000 < (signedDiff t now timestampMs).natAbs ∨ t.getTimeMs now < timestampMs
    · rw [if_pos hc]
      refine iff_of_true ⟨le_rfl, Nat.le_add_right ..⟩ ?_
      rw [signedDiff, signed_eq, signed_eq, UInt64.lt_iff_toNat_lt] at hc
      split at hc <;> split at hc <;> omega
    · -- the clock stays: it is close, or it only seems to be
      rw [if_neg hc]
      rw [signedDiff, signed_eq, signed_eq, UInt64.lt_iff_toNat_lt] at hc
      split at hc <;> split at hc <;> omega
  constructor
  · rintro ⟨hno, hbehind, hahead⟩
    exact ⟨hno, (hclock hno).mp ⟨hbehind, hahead⟩⟩
  · rintro ⟨hno, hlt⟩
    obtain ⟨hbehind, hahead⟩ := (hclock hno).mpr hlt
    exact ⟨hno, hbehind, hahead⟩

/-- The first announce carries `2 ^ 63`; or it carries the last time there is, and
the second one the first. -/
theorem clock_not_set : ¬ ClockSet { announceAddr := 0 } 0 0x8000000000000000 ∧
    ¬ ClockSet (({ announceAddr := 0 : Tracker }).possiblyUpdateTimeOffset 0 0xFFFFFFFFFFFFFFFF)
      0 0 := by
  constructor
  · rintro ⟨hno, -, -⟩
    revert hno
    decide +kernel
  · rintro ⟨-, -, hahead⟩
    revert hahead
    decide +kernel

-- ---------------------------------------------------------------------------
-- Cleaning up by the other clock
-- ---------------------------------------------------------------------------

def SeenLately (now : UInt64) (c : BleConnection) : Prop :=
  now.toNat < c.lastSeenTime.toNat + 600000000

instance decidableSeenLately (now : UInt64) (c : BleConnection) : Decidable (SeenLately now c) :=
  inferInstanceAs (Decidable (now.toNat < c.lastSeenTime.toNat + 600000000))

/-- A cleanup leaves every entry alone that was seen lately. -/
def KeepsSeen (P : Platform) (t : Tracker) (i : Input) : Prop :=
  i.event = .cleanupStaleItems →
    (∀ e ∈ t.connections.entries, SeenLately i.ambient.now e.2 →
      e ∈ (step P t i).1.connections.entries) ∧
    ∀ e ∈ t.availableNeighbours.entries, SeenLately i.ambient.now e.2 →
      e ∈ (step P t i).1.availableNeighbours.entries

/-- The offset does not make an entry look older than ten minutes: it is negative,
or with the age of the entry within ten minutes. -/
def OffsetSmall (t : Tracker) (now : UInt64) (c : BleConnection) : Prop :=
  2 ^ 64 ≤ t.timestampOffsetMs.toNat + now.toNat / 1000 ∨
    t.timestampOffsetMs.toNat + now.toNat / 1000 ≤ c.lastSeenTime.toNat / 1000 + 600000

instance decidableOffsetSmall (t : Tracker) (now : UInt64) (c : BleConnection) :
    Decidable (OffsetSmall t now c) :=
  inferInstanceAs (Decidable (2 ^ 64 ≤ t.timestampOffsetMs.toNat + now.toNat / 1000 ∨
    t.timestampOffsetMs.toNat + now.toNat / 1000 ≤ c.lastSeenTime.toNat / 1000 + 600000))

def ClocksAgree (t : Tracker) (i : Input) : Prop :=
  i.event = .cleanupStaleItems →
    ∀ c ∈ t.connections.entries.map Prod.snd ++ t.availableNeighbours.entries.map Prod.snd,
      ¬ c.connected → SeenLately i.ambient.now c → OffsetSmall t i.ambient.now c

theorem connectionStale_iff (t : Tracker) (c : BleConnection) (hs : SeenLately now c) :
    connectionStale (t.getTimeMs now) c = false ↔ c.connected ∨ OffsetSmall t now c := by
  have hl := c.lastSeenTime.toNat_lt
  have ht := t.timestampOffsetMs.toNat_lt
  have hlimit : tenMinutesInMs.toNat = 600000 := rfl
  have htest : c.timestampMs + tenMinutesInMs < t.getTimeMs now ↔
      c.lastSeenTime.toNat / 1000 + 600000 <
        (t.timestampOffsetMs.toNat + now.toNat / 1000) % 2 ^ 64 := by
    have hthousand : (1000 : UInt64).toNat = 1000 := rfl
    rw [UInt64.lt_iff_toNat_lt, BleConnection.timestampMs, getTimeMs, UInt64.toNat_add,
      UInt64.toNat_add, UInt64.toNat_div, UInt64.toNat_div, hlimit, hthousand]
    omega
  unfold SeenLately at hs
  have hn := now.toNat_lt
  rw [connectionStale, Bool.and_eq_false_iff, Bool.not_eq_false', decide_eq_false_iff_not,
    htest, OffsetSmall]
  refine or_congr_right ?_
  omega

theorem keepsSeen_iff (P : Platform) (t : Tracker) (i : Input) :
    KeepsSeen P t i ↔ ClocksAgree t i := by
  obtain ⟨event, ambient⟩ := i
  refine forall_congr' fun he => ?_
  cases he
  simp only [step, cleanupStaleItems, OrdMap.mem_eraseIf, List.forall_mem_append,
    List.forall_mem_map]
  refine and_congr (forall₂_congr fun e he => ?_) (forall₂_congr fun e he => ?_)
  all_goals
    rw [and_iff_right he]
    constructor
    · intro h hconn hs
      exact ((connectionStale_iff t e.2 hs).mp (h hs)).resolve_left hconn
    · intro h hs
      exact (connectionStale_iff t e.2 hs).mpr
        (Decidable.or_iff_not_imp_left.mpr fun hconn => h hconn hs)

/-- In every run no cleanup takes away what was seen lately, just if at all of them
the clocks agree so far. -/
theorem cleanups_keepSeen_iff (P : Platform) (t : Tracker) (is : List Input) :
    Along (step P) (KeepsSeen P) t is ↔ Along (step P) ClocksAgree t is :=
  ⟨fun h => h.mono fun t i => (keepsSeen_iff P t i).mp, fun h => h.mono fun t i =>
    (keepsSeen_iff P t i).mpr⟩

def offsetLearned : List Input :=
  [⟨.attWrite 64 false .value 0
      [1, 1, 3, 0, 0, 0, 0, 0, 9, 0x2B, 0xA9, 0, 0, 1, 1, 2, 3, 4, 5, 6, 7, 8, 0x61], .idle⟩,
    ⟨.disconnected 64, .idle⟩,
    ⟨.attConnected 65 [1, 1, 1, 1, 1, 1] .lePublic, .idle⟩, ⟨.disconnected 65, .idle⟩,
    ⟨.advertisingReport [2, 2, 2, 2, 2, 2] .lePublic .serviceUUIDFound (-60), .idle⟩]

def clockCleanup (now : UInt64) : Input := ⟨.cleanupStaleItems, { Ambient.idle with now := now }⟩

/-- All of them were seen at the time of boot. One second later they are gone. -/
theorem seen_entries_erased :
    let t := (run (step .bare) { announceAddr := 0 } offsetLearned).1
    t.connections.keys = [64, 65] ∧ t.availableNeighbours.keys = [[2, 2, 2, 2, 2, 2]] ∧
      (step .bare t (clockCleanup 1000000)).1.connections.keys = [] ∧
      (step .bare t (clockCleanup 1000000)).1.availableNeighbours.keys = [] ∧
      ¬ Along (step .bare) (KeepsSeen .bare) { announceAddr := 0 }
        (offsetLearned ++ [clockCleanup 1000000]) := by
  intro t
  have hneighbours : (step .bare t (clockCleanup 1000000)).1.availableNeighbours.entries = [] := by
    decide +kernel
  refine ⟨by decide +kernel, by decide +kernel, by decide +kernel, by decide +kernel,
    fun hkeeps => ?_⟩
  obtain ⟨-, hkept⟩ := (along_append.mp hkeeps).2.1 rfl
  have hentry : ∃ e ∈ t.availableNeighbours.entries, SeenLately 1000000 e.2 := by decide +kernel
  obtain ⟨e, he, hs⟩ := hentry
  have hin := hkept e he hs
  rw [hneighbours] at hin
  cases hin

end BitchatRepeater
