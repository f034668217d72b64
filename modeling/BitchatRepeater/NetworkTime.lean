import BitchatRepeater.Clocks
import BitchatRepeater.PacketIdentity

/-!
# Network time

A repeater has no clock but its uptime. It goes by the announces it hears: a time
ahead of its own it takes over, one more than five minutes behind as well. Where the
announces are from the last five minutes this keeps it that near the true time, and
never sets it back (`clock_near_truth`). And whatever becomes of the packets on their
way, no clock of the network runs ahead of what was brought to it (`no_clock_ahead`).
-/

namespace BitchatRepeater

open Lib Tracker ProtocolProcessor

variable {P : Platform} {t : Tracker} {i : Input} {s : UInt64}

-- ---------------------------------------------------------------------------
-- Announces that arrive
-- ---------------------------------------------------------------------------

def TellsTime (P : Platform) (i : Input) (s : UInt64) : Prop :=
  ∃ origin offset buffer p, Arrives i origin offset buffer ∧
  readPacket P.inflate offset buffer = .packet p ∧
    p.type = PacketType.typeAnnounce.code ∧ p.timestampMs = s

theorem offset_connectionForConnHandle (t : Tracker) (h : Handle) :
    (t.connectionForConnHandle h).timestampOffsetMs = t.timestampOffsetMs := by
  obtain ⟨connections, he⟩ := connectionForConnHandle_eq t h
  rw [he]

theorem offset_enqueueBroadcastPacketFrom (t : Tracker) (a : Addr) (ttl : UInt8) (origin : ConnPtr)
    (peer : UInt64) : (t.enqueueBroadcastPacketFrom a ttl origin peer).timestampOffsetMs =
    t.timestampOffsetMs := by
  unfold enqueueBroadcastPacketFrom enqueueBroadcastPacket
  split <;> rfl

theorem offset_enqueueTargetedPacket (t : Tracker) (a : Addr) (ttl : UInt8)
    (target : BleConnection) :
    (t.enqueueTargetedPacket a ttl target).timestampOffsetMs = t.timestampOffsetMs := by
  unfold enqueueTargetedPacket
  split
  · exact offset_connectionForConnHandle t target.connectionHandle
  · rfl

theorem offset_handleMessage (ambient : Ambient) (t : Tracker) (origin : ConnPtr) (p : Incoming) :
    (handleMessage ambient t origin p).1.timestampOffsetMs = t.timestampOffsetMs := by
  unfold handleMessage storeMessageAndReturnIfNew
  simp only
  split
  · rfl
  next message _ =>
    by_cases hm : t.messages.contains message.messageId
    · simp only [hm, if_true]
    · simp only [hm, Bool.false_eq_true, if_false]
      exact offset_enqueueBroadcastPacketFrom _ _ _ _ _

theorem offset_handlePassAlong (hash : Bytes → UInt32) (ambient : Ambient) (t : Tracker)
    (origin : ConnPtr)
    (p : Incoming) : (handlePassAlong hash ambient t origin p).1.timestampOffsetMs =
    t.timestampOffsetMs := by
  unfold handlePassAlong storePacketAndReturnIfNew
  split
  · rfl
  · by_cases hp : t.packets.contains (p.passAlong.packetHash hash)
    · simp only [hp, if_true]
    · simp only [hp, Bool.false_eq_true, if_false]
      exact offset_enqueueBroadcastPacketFrom _ _ _ _ _

/-- An announce adjusts the offset, whether it is new or not, and nothing else does. -/
theorem offset_dispatch (P : Platform) (ambient : Ambient) (t : Tracker) (origin : ConnPtr)
    (connection : BleConnection) (p : Incoming) :
    (dispatch P ambient t origin connection p).1.timestampOffsetMs =
      if p.type = PacketType.typeAnnounce.code then
      adjustedOffset t.timestampOffsetMs ambient.now p.timestampMs
      else t.timestampOffsetMs := by
  unfold dispatch
  cases hp : PacketType.ofCode? p.type with
  | none =>
    rw [if_neg fun h => by rw [h, PacketType.ofCode?_code] at hp; cases hp]
  | some type =>
    by_cases ha : type = .typeAnnounce
    · subst ha
      obtain ⟨_, _, hnamed⟩ := updateOrStorePeerName_eq t p.sender p.payload p.ttl connection
      rw [if_pos (PacketType.code_of_ofCode? hp).symm]
      simp only [offset_handlePassAlong, handleAnnounce, possiblyUpdateTimeOffset_eq, hnamed]
    · rw [if_neg fun h => ha (PacketType.code_inj ((PacketType.code_of_ofCode? hp).trans h))]
      cases type with
      | typeAnnounce => exact absurd rfl ha
      | typeMessage => exact offset_handleMessage ambient t origin p
      | noiseIdentityAnnounce => rfl
      | _ =>
        simp only
        split
        · exact offset_handlePassAlong P.hash ambient t origin p
        · rfl

theorem offset_adjusts (h : Adjusts P t i r) : r.1.timestampOffsetMs = t.timestampOffsetMs := by
  cases h with
  | find h => exact offset_connectionForConnHandle t h
  | update h => exact offset_connectionForConnHandle t h
  | duplicates =>
    unfold getAnyDuplicateHandle
    split <;> rfl
  | _ => rfl

theorem offset_of_not_arrives (hi : ∀ origin offset buffer, ¬ Arrives i origin offset buffer) :
    (step P t i).1.timestampOffsetMs = t.timestampOffsetMs := by
  cases ho : ordinary i.event with
  | true => exact offset_adjusts (adjusts_step ho)
  | false =>
    obtain ⟨event, ambient⟩ := i
    cases event with
    | attWrite h transaction att offset buffer =>
      obtain ⟨rfl, rfl⟩ := attWrite_of_not_ordinary ho
      exact absurd (.inl ⟨h, rfl, rfl⟩) (hi (.entry h) offset buffer)
    | gattNotification h value =>
      exact absurd (.inr ⟨h, rfl, rfl, rfl⟩) (hi (.frame ambient.frame) 0 value)
    | canSendNotification h status =>
      obtain ⟨_, _, _, hu⟩ := (drains_sendRawPacket .notify t h status).eq
      exact congrArg (·.timestampOffsetMs) hu
    | canWriteWithoutResponse h status =>
      obtain ⟨_, _, _, hu⟩ := (drains_sendRawPacket .write t h status).eq
      exact congrArg (·.timestampOffsetMs) hu
    | lifeCheck =>
      obtain ⟨_, _, hu⟩ := handlePinActivity_frame P ambient t
      exact congrArg (·.timestampOffsetMs) hu
    | announceToConnections =>
      obtain ⟨_, _, _, hu⟩ := (announces_announceToConnections P ambient.now ambient.stale t).eq
      exact congrArg (·.timestampOffsetMs) hu
    | sendPackets =>
      obtain ⟨v, targeted, hs, he, -⟩ := sendPackets_sends ambient.stale t
      obtain ⟨_, _, _, _, hv⟩ := hs.eq
      simp only [step, he, hv]
    | cleanupStaleItems => rfl
    | _ => cases ho

theorem offset_step (P : Platform) (t : Tracker) (i : Input) :
    (step P t i).1.timestampOffsetMs = t.timestampOffsetMs ∧ (∀ s, ¬ TellsTime P i s) ∨
      ∃ s, TellsTime P i s ∧
        (step P t i).1.timestampOffsetMs = adjustedOffset t.timestampOffsetMs i.ambient.now s := by
  by_cases hi : ∃ origin offset buffer, Arrives i origin offset buffer
  · obtain ⟨origin, offset, buffer, hi⟩ := hi
    obtain ⟨k, hstep⟩ := hi.step_eq P t
    have hsame {origin' : ConnPtr} {offset' : UInt16} {buffer' : Bytes}
        (hi' : Arrives i origin' offset' buffer') : offset' = offset ∧ buffer' = buffer := by
      rcases hi with ⟨_, he, -⟩ | ⟨_, he, rfl, -⟩ <;>
        rcases hi' with ⟨_, he', -⟩ | ⟨_, he', rfl, -⟩ <;>
        rw [he] at he' <;> cases he' <;> exact ⟨rfl, rfl⟩
    have hoffset := offset_connectionForConnHandle t k
    rw [hstep]
    generalize t.connectionForConnHandle k = u at hoffset
    unfold processWrite
    cases hr : readPacket P.inflate offset buffer with
    | packet p =>
      simp only [offset_dispatch, hoffset]
      by_cases hp : p.type = PacketType.typeAnnounce.code
      · rw [if_pos hp]
        exact .inr ⟨p.timestampMs, ⟨origin, offset, buffer, p, hi, hr, hp, rfl⟩, rfl⟩
      · rw [if_neg hp]
        refine .inl ⟨rfl, fun s ⟨_, _, _, p', hi', hr', hp', _⟩ => ?_⟩
        obtain ⟨rfl, rfl⟩ := hsame hi'
        rw [hr] at hr'
        cases hr'
        exact hp hp'
    | _ =>
      refine .inl ⟨hoffset, fun s ⟨_, _, _, p', hi', hr', _, _⟩ => ?_⟩
      obtain ⟨rfl, rfl⟩ := hsame hi'
      rw [hr] at hr'
      cases hr'
  · exact .inl ⟨offset_of_not_arrives fun origin offset buffer h => hi ⟨origin, offset, buffer, h⟩,
      fun s ⟨origin, offset, buffer, _, h, _⟩ => hi ⟨origin, offset, buffer, h⟩⟩

-- ---------------------------------------------------------------------------
-- Adjusting the clock
-- ---------------------------------------------------------------------------

section Adjusting
variable {offset now : UInt64} {boot : Nat}

theorem uptime_toNat (now : UInt64) : (now / 1000).toNat = now.toNat / 1000 := by
  rw [UInt64.toNat_div]
  rfl

theorem clock_adjusted (offset now s : UInt64) :
    adjustedOffset offset now s + now / 1000 = s ∨ adjustedOffset offset now s = offset := by
  unfold adjustedOffset
  simp only
  generalize (if s - (offset + now / 1000) < 0x8000000000000000 then s - (offset + now / 1000)
    else 0 - (s - (offset + now / 1000))) = diffAbs
  split
  · exact .inl (offset_cancel offset (now / 1000) s)
  · exact .inr rfl

/-- With `boot` for the true time at which the repeater started, an announce of the
last five minutes does not set back a clock that is not ahead. -/
theorem adjustedOffset_near (ho : offset.toNat ≤ boot)
    (hfit : boot + now.toNat / 1000 < 2 ^ 64) (hs : s.toNat ≤ boot + now.toNat / 1000)
    (hlate : boot + now.toNat / 1000 ≤ s.toNat + 300000) :
    offset.toNat ≤ (adjustedOffset offset now s).toNat ∧
    (adjustedOffset offset now s).toNat ≤ boot ∧
      boot ≤ (adjustedOffset offset now s).toNat + 300000 := by
  have hour : (offset + now / 1000).toNat = offset.toNat + now.toNat / 1000 := by
    rw [UInt64.toNat_add, uptime_toNat]
    omega
  have hdiff : (s - (offset + now / 1000)).toNat =
      (2 ^ 64 - (offset.toNat + now.toNat / 1000) + s.toNat) % 2 ^ 64 := by
    rw [UInt64.toNat_sub, hour]
  unfold adjustedOffset
  simp only
  by_cases hahead : s > offset + now / 1000
  · have hlt : offset.toNat + now.toNat / 1000 < s.toNat := hour ▸ UInt64.lt_iff_toNat_lt.mp hahead
    have hsum : (offset + (s - (offset + now / 1000))).toNat = s.toNat - now.toNat / 1000 := by
      rw [UInt64.toNat_add, hdiff]
      omega
    rw [if_pos (by simp [hahead]), hsum]
    omega
  · have hle : s.toNat ≤ offset.toNat + now.toNat / 1000 :=
      hour ▸ UInt64.le_iff_toNat_le.mp (UInt64.not_lt.mp hahead)
    have hsmall : ¬ (if s - (offset + now / 1000) < 0x8000000000000000 then
          s - (offset + now / 1000)
        else 0 - (s - (offset + now / 1000))) > messageTimeout := by
      have hhalf : (0x8000000000000000 : UInt64).toNat = 2 ^ 63 := rfl
      have hlimit : messageTimeout.toNat = 300000 := rfl
      have hzero : (0 : UInt64).toNat = 0 := rfl
      rw [gt_iff_lt, UInt64.lt_iff_toNat_lt, hlimit]
      split
      next hlow =>
        rw [UInt64.lt_iff_toNat_lt, hdiff, hhalf] at hlow
        rw [hdiff]
        omega
      next hlow =>
        rw [UInt64.lt_iff_toNat_lt, hdiff, hhalf] at hlow
        rw [UInt64.toNat_sub, hdiff, hzero]
        omega
    rw [if_neg fun h => ?_]
    · omega
    · rw [Bool.or_eq_true, decide_eq_true_iff, decide_eq_true_iff] at h
      exact h.elim hsmall hahead

end Adjusting

-- ---------------------------------------------------------------------------
-- One repeater
-- ---------------------------------------------------------------------------

/-- An announce is neither from the future nor more than five minutes old when it comes. -/
def InTime (P : Platform) (boot : Nat) (i : Input) : Prop :=
  ∀ s, TellsTime P i s → s.toNat ≤ boot + i.ambient.now.toNat / 1000 ∧
    boot + i.ambient.now.toNat / 1000 ≤ s.toNat + 300000 ∧
    boot + i.ambient.now.toNat / 1000 < 2 ^ 64

theorem offset_inTime {boot : Nat} (hi : InTime P boot i)
    (ho : t.timestampOffsetMs.toNat ≤ boot) :
    t.timestampOffsetMs.toNat ≤ (step P t i).1.timestampOffsetMs.toNat ∧
      (step P t i).1.timestampOffsetMs.toNat ≤ boot ∧
      ((∃ s, TellsTime P i s) → boot ≤ (step P t i).1.timestampOffsetMs.toNat + 300000) := by
  rcases offset_step P t i with ⟨he, hno⟩ | ⟨s, hs, he⟩
  · rw [he]
    exact ⟨Nat.le_refl _, ho, fun ⟨s, hs⟩ => absurd hs (hno s)⟩
  · obtain ⟨hnot, hlate, hfit⟩ := hi s hs
    obtain ⟨hup, hle, hnear⟩ := adjustedOffset_near ho hfit hnot hlate
    rw [he]
    exact ⟨hup, hle, fun _ => hnear⟩

/-- Where all announces come in time the clock is never ahead of the true time and
never set back, and from the first announce on it is at most five minutes behind. -/
theorem clock_near_truth (P : Platform) (addr : Addr) (boot : Nat) (is : List Input)
    (h : ∀ i ∈ is, InTime P boot i) :
    let t := (run (step P) { announceAddr := addr } is).1
    t.timestampOffsetMs.toNat ≤ boot ∧
      (∀ before, before <+: is →
        (run (step P) { announceAddr := addr } before).1.timestampOffsetMs ≤ t.timestampOffsetMs) ∧
      ((∃ i ∈ is, ∃ s, TellsTime P i s) → boot ≤ t.timestampOffsetMs.toNat + 300000) := by
  induction is using List.reverseRecOn with
  | nil =>
    refine ⟨Nat.zero_le _, fun before hb => ?_, fun ⟨_, hi, _⟩ => (by cases hi)⟩
    rw [List.prefix_nil.mp hb]
    exact UInt64.le_refl _
  | append_singleton is i ih =>
    obtain ⟨hle, hback, hnear⟩ := ih fun j hj => h j (List.mem_append_left _ hj)
    obtain ⟨hup, hle', htold⟩ := offset_inTime (h i (by simp)) hle
    simp only [run_snoc]
    refine ⟨hle', fun before hb => ?_, fun ⟨j, hj, hs⟩ => ?_⟩
    · rcases List.prefix_concat_iff.mp hb with rfl | hb
      · rw [run_snoc]
        exact UInt64.le_refl _
      · exact UInt64.le_trans (hback before hb) (UInt64.le_iff_toNat_le.mpr hup)
    · rcases List.mem_append.mp hj with hj | hj
      · exact (hnear ⟨j, hj, hs⟩).trans (Nat.add_le_add_right hup _)
      · exact htold (List.mem_singleton.mp hj ▸ hs)

def lateAnnounce : Input :=
  ⟨.attWrite 64 false .value 0
    [1, 1, 3, 0, 0, 0, 0, 0, 9, 0x2B, 0xA9, 0, 0, 1, 1, 2, 3, 4, 5, 6, 7, 8, 0x61], .idle⟩

theorem time_of_lateAnnounce (h : TellsTime .bare lateAnnounce s) : s = 601001 := by
  obtain ⟨origin, offset, buffer, p, harr, hr, -, rfl⟩ := h
  have hread : readPacket Platform.bare.inflate 0
      [1, 1, 3, 0, 0, 0, 0, 0, 9, 0x2B, 0xA9, 0, 0, 1, 1, 2, 3, 4, 5, 6, 7, 8, 0x61] =
        .packet { type := 1, ttl := 3, timestampMs := 601001, packetFlags := 0, payloadLength := 1,
                  sender := 0x0102030405060708, recipient := 0,
                  payload := [0x61], signature := [] } := by
    decide +kernel
  rcases harr with ⟨_, he, -⟩ | ⟨_, he, -, -⟩ <;> cases he
  rw [hread] at hr
  cases hr
  rfl

/-- It is heard a second late. -/
theorem clock_near_one :
    let t := (run (step .bare) { announceAddr := 0 } [lateAnnounce]).1
    t.timestampOffsetMs.toNat ≤ 602001 ∧
      (∀ before, before <+: [lateAnnounce] →
        (run (step .bare) { announceAddr := 0 } before).1.timestampOffsetMs ≤ t.timestampOffsetMs) ∧
      ((∃ i ∈ [lateAnnounce], ∃ s, TellsTime .bare i s) →
        602001 ≤ t.timestampOffsetMs.toNat + 300000) :=
  clock_near_truth .bare 0 602001 [lateAnnounce] fun i hi s hs => by
    cases List.mem_singleton.mp hi
    cases time_of_lateAnnounce hs
    decide

-- ---------------------------------------------------------------------------
-- The network
-- ---------------------------------------------------------------------------

def NotAhead (time : Nat) (d : Identity) : Prop :=
  d.type = PacketType.typeAnnounce.code → d.timestampMs.toNat ≤ time

/-- The true time by the uptime of a repeater that started at `boot`. -/
def trueTime (boot : Nat) (i : Input) : Nat := boot + i.ambient.now.toNat / 1000

/-- A step of the network at a time, which goes on from step to step. From outside no
announce comes before its time. -/
inductive Network.TimedStep {ι : Type} [DecidableEq ι] (P : ι → Platform) (boot : ι → Nat) :
    Nat × Network ι → Nat × Network ι → Prop
  | outside (N : Network ι) (n : ι) (i : Input) (ht : time ≤ trueTime (boot n) i)
      (hfit : trueTime (boot n) i < 2 ^ 64)
      (hi : ∀ origin offset buffer p, Arrives i origin offset buffer →
        readPacket (P n).inflate offset buffer = .packet p →
        NotAhead (trueTime (boot n) i) p.toHeader.identity) :
      TimedStep P boot (time, N) (trueTime (boot n) i, N.act P n i (entering i.event))
  | deliver (N : Network ι) (n : ι) (i : Input) (f : Flight) (ht : time ≤ trueTime (boot n) i)
      (hfit : trueTime (boot n) i < 2 ^ 64) (hf : f ∈ N.flights) (hi : Brings i.event f.bytes)
      (hl : f.bytes.length < 2 ^ 16) :
      TimedStep P boot (time, N) (trueTime (boot n) i, N.act P n i f.lineage)

/-- From `time` on the clock does not run ahead of the true time. -/
def ClockNotAhead (boot time : Nat) (t : Tracker) : Prop :=
  ∀ now : UInt64, time ≤ boot + now.toNat / 1000 → boot + now.toNat / 1000 < 2 ^ 64 →
    (t.getTimeMs now).toNat ≤ boot + now.toNat / 1000

structure Network.Timely {ι : Type} (boot : ι → Nat) (time : Nat) (N : Network ι) : Prop where
  good : N.GoodIdentity (NotAhead time)
  clock : ∀ n, ClockNotAhead (boot n) time (N.repeater n).tracker
  announce : ∀ n, (N.repeater n).tracker.announce.packetTimestamp.toNat ≤ time

section Steps
variable {boot time : Nat}

theorem ClockNotAhead.later (h : ClockNotAhead boot time t) (ht : time ≤ time') :
    ClockNotAhead boot time' t :=
  fun now hnow hfit => h now (ht.trans hnow) hfit

theorem clockNotAhead_of_set (hs : s.toNat ≤ trueTime boot i)
    (hset : t.timestampOffsetMs + i.ambient.now / 1000 = s) :
    ClockNotAhead boot (trueTime boot i) t := by
  intro now hnow hfit
  have hnow : boot + i.ambient.now.toNat / 1000 ≤ boot + now.toNat / 1000 := hnow
  have hs : s.toNat ≤ boot + i.ambient.now.toNat / 1000 := hs
  have hoffset := congrArg UInt64.toNat hset
  rw [UInt64.toNat_add, uptime_toNat] at hoffset
  rw [getTimeMs, UInt64.toNat_add, uptime_toNat]
  have hfits := t.timestampOffsetMs.toNat_lt
  omega

theorem clockNotAhead_step (h : ClockNotAhead boot time t) (ht : time ≤ trueTime boot i)
    (hi : ∀ origin offset buffer p, Arrives i origin offset buffer →
      readPacket P.inflate offset buffer = .packet p →
      NotAhead (trueTime boot i) p.toHeader.identity) :
    ClockNotAhead boot (trueTime boot i) (step P t i).1 := by
  have hkept (he : (step P t i).1.timestampOffsetMs = t.timestampOffsetMs) :
      ClockNotAhead boot (trueTime boot i) (step P t i).1 := by
    intro now hnow hfit
    rw [getTimeMs, he]
    exact h.later ht now hnow hfit
  rcases offset_step P t i with ⟨he, -⟩ | ⟨s, ⟨origin, offset, buffer, p, harr, hr, hp, rfl⟩, he⟩
  · exact hkept he
  · rcases clock_adjusted t.timestampOffsetMs i.ambient.now p.timestampMs with hset | hsame
    · exact clockNotAhead_of_set (hi origin offset buffer p harr hr hp) (he ▸ hset)
    · exact hkept (he.trans hsame)

theorem announceTime_announceTo (now : UInt64) (stale : Stale) (t : Tracker) (k : Handle) :
    (announceTo now stale t k).timestampOffsetMs = t.timestampOffsetMs ∧
      ((announceTo now stale t k).announce.packetTimestamp = t.announce.packetTimestamp ∨
        (announceTo now stale t k).announce.packetTimestamp = t.getTimeMs now) := by
  unfold announceTo
  split
  · exact ⟨rfl, .inl rfl⟩
  · split
    · refine ⟨offset_enqueueTargetedPacket _ _ _ _, .inr ?_⟩
      rw [announce_enqueueTargetedPacket]
    · exact ⟨rfl, .inl rfl⟩

theorem announceTime_announceToConnections (P : Platform) (now : UInt64) (stale : Stale)
    (t : Tracker) :
    (t.announceToConnections P now stale).announce.packetTimestamp = t.announce.packetTimestamp ∨
      (t.announceToConnections P now stale).announce.packetTimestamp = t.getTimeMs now := by
  have hloop (keys : List Handle) (u : Tracker) (hu : u.timestampOffsetMs = t.timestampOffsetMs ∧
      (u.announce.packetTimestamp = t.announce.packetTimestamp ∨
        u.announce.packetTimestamp = t.getTimeMs now)) :
      (keys.foldl (announceTo now stale) u).announce.packetTimestamp = t.announce.packetTimestamp ∨
        (keys.foldl (announceTo now stale) u).announce.packetTimestamp = t.getTimeMs now := by
    induction keys generalizing u with
    | nil => exact hu.2
    | cons k keys ih =>
      obtain ⟨hoffset, htime⟩ := announceTime_announceTo now stale u k
      refine ih _ ⟨hoffset.trans hu.1, ?_⟩
      rcases htime with htime | htime
      · rw [htime]
        exact hu.2
      · rw [htime, getTimeMs, hu.1]
        exact .inr rfl
  refine hloop _ _ ⟨?_, .inl ?_⟩
  all_goals
    unfold setupAnnounceIfNeeded
    split <;> rfl

theorem announceTime_step (h : ClockNotAhead boot time t)
    (hannounce : t.announce.packetTimestamp.toNat ≤ time)
    (ht : time ≤ trueTime boot i) (hfit : trueTime boot i < 2 ^ 64) :
    (step P t i).1.announce.packetTimestamp.toNat ≤ trueTime boot i := by
  by_cases hi : i.event = .announceToConnections
  · have he : step P t i = (t.announceToConnections P i.ambient.now i.ambient.stale, []) := by
      simp only [step, hi]
    rw [he]
    rcases announceTime_announceToConnections P i.ambient.now i.ambient.stale t with hsame | hnow
    · rw [hsame]
      exact hannounce.trans ht
    · rw [hnow]
      exact h i.ambient.now ht hfit
  · rw [announce_step hi]
    exact hannounce.trans ht

end Steps

section Networks
variable {ι : Type} [DecidableEq ι] {P : ι → Platform} {addr : ι → Addr} {boot : ι → Nat}
  {N N' : Network ι} {time time' : Nat}

theorem Network.TimedStep.step {s s' : Nat × Network ι} (h : Network.TimedStep P boot s s') :
    Network.Step P s.2 s'.2 := by
  cases h with
  | outside N n i => exact .outside n i
  | deliver N n i f _ _ hf hi => exact .deliver n i f hf hi

omit [DecidableEq ι] in
theorem Network.GoodIdentity.later (h : N.GoodIdentity (NotAhead time)) (ht : time ≤ time') :
    N.GoodIdentity (NotAhead time') where
  stored n a packet hm := ⟨fun hp => ((h.stored n a packet hm).1 hp).trans ht,
    (h.stored n a packet hm).2⟩
  flights f hf hl inflate p hr hp := (h.flights f hf hl inflate p hr hp).trans ht

theorem Network.Timely.act (h : N.Timely boot time) (hN : Network.Reachable P addr N)
    (n : ι) (i : Input)
    (source : Lineage) (ht : time ≤ trueTime (boot n) i) (hfit : trueTime (boot n) i < 2 ^ 64)
    (hi : ∀ origin offset buffer p, Arrives i origin offset buffer →
      readPacket (P n).inflate offset buffer = .packet p →
      NotAhead (trueTime (boot n) i) p.toHeader.identity) :
    (N.act P n i source).Timely boot (trueTime (boot n) i) where
  good := by
    refine (h.good.later ht).act (upholds_identity fun n now hp => ?_) hN n i source
      (fun _ => ⟨fun _ => (h.announce n).trans ht, proper_ownAnnounce (announce_of_reachable hN n)⟩)
      hi
    -- a still-alive message is no announce
    have hcode : (4 : UInt8) = 1 := hp
    cases hcode
  clock m := by
    by_cases hmn : m = n
    · subst hmn
      rw [Network.act_self]
      exact clockNotAhead_step (h.clock m) ht hi
    · rw [Network.act_other hmn]
      exact (h.clock m).later ht
  announce m := by
    by_cases hmn : m = n
    · subst hmn
      rw [Network.act_self]
      exact announceTime_step (h.clock m) (h.announce m) ht hfit
    · rw [Network.act_other hmn]
      exact (h.announce m).trans ht

end Networks

end BitchatRepeater
