import BitchatRepeater.Events
import BitchatRepeater.SendingLaws

/-!
# Broadcast completeness

`sendPackets` decides whether a broadcast packet still has to go to a connection
by walking the sent list from the first record of the packet to the end of the
list. Records of packets at higher addresses are met on the way, and one for the
same handle stops the packet. Without any record of the packet the walk does not
start at all. `complete_iff` gives the exact condition under which nothing is
missed.
-/

namespace BitchatRepeater.Tracker

open Lib

variable {t u : Tracker} {stale : Stale}

-- ---------------------------------------------------------------------------
-- The property
-- ---------------------------------------------------------------------------

def handleOf (stale : Stale) (t : Tracker) (c : ConnPtr) : Handle :=
  (t.derefConnection stale c).connectionHandle

/-- A listed packet, an available connection of the map, and no record of the
packet for the connection's handle. -/
structure Due (stale : Stale) (t : Tracker) (p : Addr) (k : Handle) (c : BleConnection) : Prop where
  listed : p ∈ t.broadcastPacketsToSendList
  entry : t.connections.get? k = some c
  available : available c
  unsent : ∀ c', (p, c') ∈ t.packetsConnectionsSentList.entries →
    handleOf stale t c' ≠ c.connectionHandle

/-- `sendPackets` calls `SendPacketToConnection` for all that is due. -/
def Complete (stale : Stale) (t : Tracker) : Prop :=
  ∀ p k c, Due stale t p k c → Calls (t.sendPackets stale).2 p (.entry k)

/-- Sent before this call of `sendPackets`, or to be sent by its targeted pass. -/
def Recorded (t : Tracker) (e : Addr × ConnPtr) : Prop :=
  e ∈ t.packetsConnectionsSentList.entries ∨ e ∈ t.targetedPacketsToSendList.entries

def keysBefore (t : Tracker) (k : Handle) : List Handle := t.connections.keys.takeWhile (· ≠ k)

def packetsBefore (t : Tracker) (p : Addr) : List Addr :=
  t.broadcastPacketsToSendList.takeWhile (· ≠ p)

def Available (t : Tracker) (k : Handle) : Prop :=
  ∃ c, t.connections.get? k = some c ∧ available c

/-- How a due packet is missed: the walk starts, because the packet has a record
or an available connection stood before `k`, and it meets the handle, because a
packet at the same or a higher address has a record for it, or comes first in
the list, or because an available connection before `k` has the same handle.
The targeted pass does not make up for it. -/
structure Missed (stale : Stale) (t : Tracker) (p : Addr) (k : Handle)
    (c : BleConnection) : Prop where
  starts : (∃ c', Recorded t (p, c')) ∨ ∃ j ∈ t.keysBefore k, Available t j
  meets : (∃ e, Recorded t e ∧ p ≤ e.1 ∧ handleOf stale t e.2 = c.connectionHandle) ∨
    (∃ q ∈ t.packetsBefore p, p ≤ q) ∨
    ∃ j ∈ t.keysBefore k, Available t j ∧ handleOf stale t (.entry j) = c.connectionHandle
  untargeted : t.targetedPacketsToSendList.entries.find? (fun e =>
    e.1 = p && handleOf stale t e.2 = c.connectionHandle) ≠ some (p, .entry k)

-- ---------------------------------------------------------------------------
-- The tests of the two loops
-- ---------------------------------------------------------------------------

theorem handleOf_same (h : SameConnections t u) (c : ConnPtr) :
    handleOf stale u c = handleOf stale t c :=
  h.handle stale c

theorem available_same (h : SameConnections t u) : Available u k ↔ Available t k := by
  have hk := h.2 k
  unfold Available
  cases hu : u.connections.get? k <;> cases ht : t.connections.get? k <;>
    simp only [hu, ht, Option.map_some, Option.map_none, Option.some.injEq, reduceCtorEq] at hk ⊢
  simp [available_of_settled hk]

theorem packetSentTo_iff : t.packetSentTo stale p h = true ↔
    ∃ c, (p, c) ∈ t.packetsConnectionsSentList.entries ∧ handleOf stale t c = h := by
  simp only [packetSentTo, List.any_eq_true, decide_eq_true_eq, Prod.exists,
    Multimap.mem_equalRange]
  constructor
  · rintro ⟨a, c, ⟨hm, rfl⟩, hh⟩
    exact ⟨c, hm, hh⟩
  · rintro ⟨c, hm, hh⟩
    exact ⟨p, c, ⟨hm, rfl⟩, hh⟩

theorem sendable_iff : t.sendable stale p c = false ↔
    (∃ c', (p, c') ∈ t.packetsConnectionsSentList.entries) ∧
    ∃ e ∈ t.packetsConnectionsSentList.entries, p ≤ e.1 ∧
    handleOf stale t e.2 = c.connectionHandle := by
  simp only [sendable, ← Bool.not_eq_true, List.all_eq_true, not_forall, decide_eq_true_eq,
    not_not, Multimap.mem_find]
  constructor
  · rintro ⟨e, ⟨hp, hm, hle⟩, hh⟩
    exact ⟨hp, e, hm, hle, hh⟩
  · rintro ⟨hp, e, hm, hle, hh⟩
    exact ⟨e, ⟨hp, hm, hle⟩, hh⟩

-- ---------------------------------------------------------------------------
-- What the sent list comes to hold
-- ---------------------------------------------------------------------------

def HasRecord (φ : Addr × ConnPtr → Prop) (t : Tracker) : Prop :=
  ∃ e ∈ t.packetsConnectionsSentList.entries, φ e

/-- A property that a record stopping a send has if the send had it: it asks for
the packet only, or for the handle and at least the packet's address. -/
def Spreads (stale : Stale) (t : Tracker) (φ : Addr × ConnPtr → Prop) : Prop :=
  ∀ q c, φ (q, c) → (∀ c', φ (q, c')) ∨
    ∀ e, q ≤ e.1 → handleOf stale t e.2 = handleOf stale t c → φ e

def ByHandle (stale : Stale) (t : Tracker) (φ : Addr × ConnPtr → Prop) : Prop :=
  ∀ q c c', handleOf stale t c' = handleOf stale t c → φ (q, c) → φ (q, c')

variable {s : Tracker} {φ : Addr × ConnPtr → Prop}

theorem Spreads.byHandle (h : Spreads stale t φ) : ByHandle stale t φ := by
  intro q c c' hh hφ
  rcases h q c hφ with hall | hhandle
  · exact hall c'
  · exact hhandle (q, c') le_rfl hh

theorem Sends.hasRecord {out : List Effect} (h : Sends stale s u out)
    (hc : ∀ b d, Calls out b d ↔ b = a ∧ d = c) : HasRecord φ u ↔ HasRecord φ s ∨ φ (a, c) := by
  have hsent (b : Addr) (d : ConnPtr) : (b, d) ∈ u.packetsConnectionsSentList.entries ↔
      (b, d) ∈ s.packetsConnectionsSentList.entries ∨ b = a ∧ d = c :=
    (h.sent b d).trans (or_congr_right (hc b d))
  simp only [HasRecord, Prod.exists, hsent]
  constructor
  · rintro ⟨b, d, hm | ⟨rfl, rfl⟩, hφ⟩
    · exact .inl ⟨b, d, hm, hφ⟩
    · exact .inr hφ
  · rintro (⟨b, d, hm, hφ⟩ | hφ)
    · exact ⟨b, d, .inl hm, hφ⟩
    · exact ⟨a, c, .inr ⟨rfl, rfl⟩, hφ⟩

theorem sendTargeted_hasRecord (hs : SameConnections t s) (hφ : ByHandle stale t φ)
    (item : Addr × ConnPtr) :
    HasRecord φ (sendTargeted stale s item).1 ↔ HasRecord φ s ∨ φ item := by
  obtain ⟨a, c⟩ := item
  rcases sendTargeted_cases stale s a c with ⟨hsent, he⟩ | ⟨-, hsends, hc⟩
  · rw [he]
    refine ⟨.inl, fun h => h.elim id fun hac => ?_⟩
    -- the record that stopped the send has the property as well
    obtain ⟨c', hm, hh⟩ := packetSentTo_iff.mp hsent
    refine ⟨_, hm, hφ a c c' ?_ hac⟩
    rw [← handleOf_same hs c', hh]
    exact handleOf_same hs c
  · exact hsends.hasRecord hc

def attempt (stale : Stale) (t : Tracker) (i : Addr × Handle) : Tracker × List Effect :=
  sendBroadcastTo stale i.1 t i.2

theorem attempt_hasRecord (hs : SameConnections t s) (hφ : Spreads stale t φ) (i : Addr × Handle) :
    HasRecord φ (attempt stale s i).1 ↔ HasRecord φ s ∨ Available t i.2 ∧ φ (i.1, .entry i.2) := by
  obtain ⟨q, k⟩ := i
  rcases sendBroadcastTo_cases stale s q k with ⟨hopen, he⟩ | ⟨hopen, hsends, hc⟩
  · simp only [attempt, he]
    refine ⟨.inl, fun h => h.elim id ?_⟩
    rintro ⟨havail, hqk⟩
    obtain ⟨c, hc, ha⟩ := (available_same hs).mpr havail
    -- the connection was available, so the walk has met its handle
    have hw : s.sendable stale q c = false := by
      rw [← Bool.not_eq_true]
      exact fun hw => hopen ⟨c, hc, ha, hw⟩
    obtain ⟨⟨c', hm'⟩, e, hm, hle, hh⟩ := sendable_iff.mp hw
    rcases hφ q (.entry k) hqk with hall | hhandle
    · exact ⟨_, hm', hall c'⟩
    · refine ⟨e, hm, hhandle e hle ?_⟩
      rw [← handleOf_same hs e.2, hh, ← handleOf_same hs (.entry k), handleOf,
        derefConnection_entry hc]
  · have havail : Available t k := by
      obtain ⟨c, hc, ha, -⟩ := hopen
      exact (available_same hs).mp ⟨c, hc, ha⟩
    exact (hsends.hasRecord hc).trans (by simp [havail])

theorem sameConnections_attempt (h : SameConnections t s) (i : Addr × Handle) :
    SameConnections t (attempt stale s i).1 :=
  h.trans (sends_sendBroadcastTo stale s i.1 i.2).connections

theorem sameConnections_sendTargeted (h : SameConnections t s) (item : Addr × ConnPtr) :
    SameConnections t (sendTargeted stale s item).1 :=
  h.trans (sends_sendTargeted stale s item).connections

theorem targetedPass_hasRecord (hφ : ByHandle stale t φ) (items : List (Addr × ConnPtr)) :
    HasRecord φ (run (sendTargeted stale) t items).1 ↔ HasRecord φ t ∨ ∃ e ∈ items, φ e :=
  run_accumulates (SameConnections t) (fun _ item hs => sameConnections_sendTargeted hs item)
    (fun _ hs item _ => sendTargeted_hasRecord hs hφ item) (.refl t)

theorem broadcastPass_hasRecord (hs : SameConnections t s) (hφ : Spreads stale t φ)
    (attempts : List (Addr × Handle)) :
    HasRecord φ (run (attempt stale) s attempts).1 ↔
      HasRecord φ s ∨ ∃ i ∈ attempts, Available t i.2 ∧ φ (i.1, .entry i.2) :=
  run_accumulates (SameConnections t) (fun _ i hs => sameConnections_attempt hs i)
    (fun _ hs i _ => attempt_hasRecord hs hφ i) hs

theorem spreads_packet (p : Addr) : Spreads stale t fun e => e.1 = p :=
  fun _ _ h => .inl fun _ => h

theorem spreads_handle (p : Addr) (h : Handle) :
    Spreads stale t fun e => p ≤ e.1 ∧ handleOf stale t e.2 = h :=
  fun _ _ hq => .inr fun _ hle hh => ⟨hq.1.trans hle, hh.trans hq.2⟩

theorem byHandle_both (p : Addr) (h : Handle) :
    ByHandle stale t fun e => e.1 = p ∧ handleOf stale t e.2 = h :=
  fun _ _ _ hh hφ => ⟨hφ.1, hh.trans hφ.2⟩

-- ---------------------------------------------------------------------------
-- The targeted pass
-- ---------------------------------------------------------------------------

theorem Due.handle (hd : Due stale t p k c) : handleOf stale t (.entry k) = c.connectionHandle := by
  rw [handleOf, derefConnection_entry hd.entry]

theorem Due.not_hasRecord (hd : Due stale t p k c) :
    ¬ HasRecord (fun e => e.1 = p ∧ handleOf stale t e.2 = c.connectionHandle) t := by
  rintro ⟨⟨q, c'⟩, hm, rfl, hh⟩
  exact hd.unsent c' hm hh

theorem packetSentTo_targetedPass (hd : Due stale t p k c) (items : List (Addr × ConnPtr)) :
    (run (sendTargeted stale) t items).1.packetSentTo stale p
      (handleOf stale (run (sendTargeted stale) t items).1 (.entry k)) = true ↔
        ∃ e ∈ items, e.1 = p ∧ handleOf stale t e.2 = c.connectionHandle := by
  have hs := (sends_run (sends_sendTargeted stale) t items).connections
  have hrec := targetedPass_hasRecord
    (byHandle_both p c.connectionHandle : ByHandle stale t _) items
  rw [or_iff_right hd.not_hasRecord] at hrec
  rw [← hrec, packetSentTo_iff, handleOf_same hs, hd.handle]
  constructor
  · rintro ⟨c', hm, hh⟩
    exact ⟨(p, c'), hm, rfl, handleOf_same hs c' ▸ hh⟩
  · rintro ⟨⟨q, c'⟩, hm, rfl, hh⟩
    exact ⟨c', hm, (handleOf_same hs c').trans hh⟩

theorem targetedPass_calls (hd : Due stale t p k c) :
    Calls (run (sendTargeted stale) t t.targetedPacketsToSendList.entries).2 p (.entry k) ↔
      t.targetedPacketsToSendList.entries.find? (fun e =>
        e.1 = p && handleOf stale t e.2 = c.connectionHandle) = some (p, .entry k) := by
  rw [calls_run_iff, List.find?_eq_some_iff_append]
  simp only [hd.handle, decide_true, Bool.and_true, true_and, Bool.not_eq_true',
    Bool.and_eq_false_iff, decide_eq_false_iff_not]
  constructor
  · rintro ⟨before, item, after, he, hc⟩
    obtain rfl := calls_sendTargeted hc
    refine ⟨before, after, he, fun e hm => ?_⟩
    rw [← not_and_or]
    rintro ⟨hp, hh⟩
    exact calls_sendTargeted_iff.mp hc ((packetSentTo_targetedPass hd before).mpr ⟨e, hm, hp, hh⟩)
  · rintro ⟨before, after, he, hfirst⟩
    refine ⟨before, _, after, he, calls_sendTargeted_iff.mpr fun hsent => ?_⟩
    obtain ⟨e, hm, hp, hh⟩ := (packetSentTo_targetedPass hd before).mp hsent
    exact (hfirst e hm).elim (· hp) (· hh)

-- ---------------------------------------------------------------------------
-- The broadcast pass
-- ---------------------------------------------------------------------------

def attempts (packets : List Addr) (keys : List Handle) : List (Addr × Handle) :=
  packets.flatMap fun p => keys.map (p, ·)

section Attempts
variable {ps ps' : List Addr} {ks : List Handle}

theorem attempts_append : attempts (ps ++ ps') ks = attempts ps ks ++ attempts ps' ks :=
  List.flatMap_append

theorem attempts_cons : attempts (p :: ps) ks = ks.map (p, ·) ++ attempts ps ks :=
  List.flatMap_cons

theorem mem_attempts : (q, j) ∈ attempts ps ks ↔ q ∈ ps ∧ j ∈ ks := by
  simp [attempts]

theorem run_sendBroadcast (stale : Stale) (packets : List Addr) (s : Tracker) :
    run (sendBroadcast stale) s packets = run (attempt stale) s
      (attempts packets s.connections.keys) := by
  induction packets generalizing s with
  | nil => rfl
  | cons p packets ih =>
    have hk : (sendBroadcast stale s p).1.connections.keys = s.connections.keys :=
      (sends_sendBroadcast stale s p).connections.1
    have hp : run (attempt stale) s (s.connections.keys.map (p, ·)) = sendBroadcast stale s p :=
      run_map _ _
    rw [run, ih, hk, attempts_cons, run_append, hp]

theorem takeWhile_split [DecidableEq α] {x : α} {xs : List α} (h : x ∈ xs) :
    ∃ rest, xs = xs.takeWhile (· ≠ x) ++ x :: rest := by
  induction xs with
  | nil => cases h
  | cons y ys ih =>
    by_cases hy : y = x
    · exact ⟨ys, by simp [hy]⟩
    · obtain ⟨rest, hr⟩ := ih ((List.mem_cons.mp h).resolve_left (Ne.symm hy))
      exact ⟨rest, by simpa [hy] using hr⟩

theorem takeWhile_subset [DecidableEq α] {x : α} {before after : List α} :
    (before ++ x :: after).takeWhile (· ≠ x) ⊆ before := by
  induction before with
  | nil => simp
  | cons y before ih =>
    by_cases hy : y = x
    · simp [hy]
    · simpa [hy] using List.cons_subset_cons y ih

theorem attempts_before (hp : p ∈ ps) (hk : k ∈ ks) :
    (attempts ps ks).takeWhile (· ≠ (p, k)) =
      attempts (ps.takeWhile (· ≠ p)) ks ++ (ks.takeWhile (· ≠ k)).map (p, ·) := by
  obtain ⟨ps', hps⟩ := takeWhile_split hp
  obtain ⟨ks', hks⟩ := takeWhile_split hk
  have hmap : ks.map (p, ·) = (ks.takeWhile (· ≠ k)).map (p, ·) ++ (p, k) :: ks'.map (p, ·) := by
    conv => lhs; rw [hks]
    simp
  have hrounds : attempts ps ks = attempts (ps.takeWhile (· ≠ p)) ks ++
      (ks.takeWhile (· ≠ k)).map (p, ·) ++ (p, k) :: (ks'.map (p, ·) ++ attempts ps' ks) := by
    conv => lhs; rw [hps, attempts_append, attempts_cons, hmap]
    simp
  have hnot : ∀ i ∈ attempts (ps.takeWhile (· ≠ p)) ks ++ (ks.takeWhile (· ≠ k)).map (p, ·),
      decide (i ≠ (p, k)) = true := by
    rintro ⟨q, j⟩ hi
    rcases List.mem_append.mp hi with hi | hi
    · have hq : q ≠ p := by simpa using List.mem_takeWhile_imp (mem_attempts.mp hi).1
      simp [hq]
    · obtain ⟨j', hj, he⟩ := List.mem_map.mp hi
      cases he
      have hj : j ≠ k := by simpa using List.mem_takeWhile_imp hj
      simp [hj]
  rw [hrounds, List.takeWhile_append_of_pos hnot]
  simp

end Attempts

theorem open_iff_hasRecord (hu : SameConnections t u) :
    Open stale u p k ↔ Available t k ∧ ¬ (HasRecord (fun e => e.1 = p) u ∧
      HasRecord (fun e => p ≤ e.1 ∧ handleOf stale t e.2 = handleOf stale t (.entry k)) u) := by
  have hwalk (c : BleConnection) (hc : u.connections.get? k = some c) :
      u.sendable stale p c = false ↔ HasRecord (fun e => e.1 = p) u ∧
        HasRecord (fun e => p ≤ e.1 ∧ handleOf stale t e.2 = handleOf stale t (.entry k)) u := by
    have hk : handleOf stale t (.entry k) = c.connectionHandle := by
      rw [← handleOf_same hu, handleOf, derefConnection_entry hc]
    simp only [sendable_iff, HasRecord, hk, handleOf_same hu, Prod.exists]
    refine and_congr_left fun _ => ⟨?_, ?_⟩
    · rintro ⟨c', hm⟩
      exact ⟨p, c', hm, rfl⟩
    · rintro ⟨q, c', hm, rfl⟩
      exact ⟨c', hm⟩
  rw [← available_same hu]
  constructor
  · rintro ⟨c, hc, ha, hw⟩
    refine ⟨⟨c, hc, ha⟩, fun hrec => ?_⟩
    rw [(hwalk c hc).mpr hrec] at hw
    cases hw
  · rintro ⟨⟨c, hc, ha⟩, hrec⟩
    refine ⟨c, hc, ha, ?_⟩
    rw [← Bool.not_eq_false, hwalk c hc]
    exact hrec

theorem open_iff (hs : SameConnections t s) (rounds : List (Addr × Handle)) :
    Open stale (run (attempt stale) s rounds).1 p k ↔ Available t k ∧
      ¬ ((HasRecord (fun e => e.1 = p) s ∨ ∃ i ∈ rounds, Available t i.2 ∧ i.1 = p) ∧
        (HasRecord (fun e => p ≤ e.1 ∧ handleOf stale t e.2 = handleOf stale t (.entry k)) s ∨
          ∃ i ∈ rounds, Available t i.2 ∧ p ≤ i.1 ∧
            handleOf stale t (.entry i.2) = handleOf stale t (.entry k))) := by
  have hu : SameConnections t (run (attempt stale) s rounds).1 :=
    hs.trans (sends_run (fun t i => sends_sendBroadcastTo stale t i.1 i.2) s rounds).connections
  rw [open_iff_hasRecord hu, broadcastPass_hasRecord hs (spreads_packet p),
    broadcastPass_hasRecord hs (spreads_handle p _)]

/-- Whether the broadcast pass calls is decided in the first round for packet and key. -/
theorem broadcastPass_calls (hs : SameConnections t s) (hp : p ∈ ps) (hk : k ∈ ks) :
    Calls (run (attempt stale) s (attempts ps ks)).2 p (.entry k) ↔
      Open stale (run (attempt stale) s ((attempts ps ks).takeWhile (· ≠ (p, k)))).1 p k := by
  rw [calls_run_iff]
  constructor
  · rintro ⟨before, i, after, he, hc⟩
    obtain ⟨hi₁, hi₂⟩ := calls_sendBroadcastTo hc
    obtain rfl : i = (p, k) := by
      cases hi₂
      exact Prod.ext hi₁.symm rfl
    have ho := (open_iff hs before).mp (calls_sendBroadcastTo_iff.mp hc)
    have hsub : (attempts ps ks).takeWhile (· ≠ (p, k)) ⊆ before := by
      rw [he]
      exact takeWhile_subset
    -- fewer rounds bring fewer records
    refine (open_iff hs _).mpr ⟨ho.1, fun h => ho.2 ⟨h.1.imp id ?_, h.2.imp id ?_⟩⟩
    · rintro ⟨i, hi, h⟩
      exact ⟨i, hsub hi, h⟩
    · rintro ⟨i, hi, h⟩
      exact ⟨i, hsub hi, h⟩
  · intro ho
    obtain ⟨after, he⟩ := takeWhile_split (mem_attempts.mpr ⟨hp, hk⟩)
    exact ⟨_, (p, k), after, he, calls_sendBroadcastTo_iff.mpr ho⟩

-- ---------------------------------------------------------------------------
-- Both passes
-- ---------------------------------------------------------------------------

theorem recorded_iff (hφ : ByHandle stale t φ) :
    HasRecord φ (sendTargetedPackets stale t).1 ↔ ∃ e, Recorded t e ∧ φ e := by
  have h := targetedPass_hasRecord hφ t.targetedPacketsToSendList.entries
  refine Iff.trans h ?_
  simp only [HasRecord, Recorded]
  constructor
  · rintro (⟨e, he, hφ⟩ | ⟨e, he, hφ⟩)
    · exact ⟨e, .inl he, hφ⟩
    · exact ⟨e, .inr he, hφ⟩
  · rintro ⟨e, he | he, hφ⟩
    · exact .inl ⟨e, he, hφ⟩
    · exact .inr ⟨e, he, hφ⟩

theorem meets_before (hd : Due stale t p k c) :
    (∃ i ∈ (attempts t.broadcastPacketsToSendList t.connections.keys).takeWhile (· ≠ (p, k)),
      Available t i.2 ∧ p ≤ i.1 ∧ handleOf stale t (.entry i.2) = c.connectionHandle) ↔
    (∃ q ∈ t.packetsBefore p, p ≤ q) ∨
      ∃ j ∈ t.keysBefore k, Available t j ∧ handleOf stale t (.entry j) = c.connectionHandle := by
  have hk : k ∈ t.connections.keys := OrdMap.mem_keys.mpr ⟨c, hd.entry⟩
  rw [attempts_before hd.listed hk]
  constructor
  · rintro ⟨⟨q, j⟩, hi, ha, hle, hh⟩
    rcases List.mem_append.mp hi with hi | hi
    · exact .inl ⟨q, (mem_attempts.mp hi).1, hle⟩
    · obtain ⟨j', hj, he⟩ := List.mem_map.mp hi
      cases he
      exact .inr ⟨j, hj, ha, hh⟩
  · rintro (⟨q, hq, hle⟩ | ⟨j, hj, ha, hh⟩)
    · exact ⟨(q, k), List.mem_append_left _ (mem_attempts.mpr ⟨hq, hk⟩),
        ⟨c, hd.entry, hd.available⟩, hle, hd.handle⟩
    · exact ⟨(p, j), List.mem_append_right _ (List.mem_map_of_mem hj), ha, le_rfl, hh⟩

theorem starts_before (hd : Due stale t p k c) :
    (∃ i ∈ (attempts t.broadcastPacketsToSendList t.connections.keys).takeWhile (· ≠ (p, k)),
      Available t i.2 ∧ i.1 = p) ↔ ∃ j ∈ t.keysBefore k, Available t j := by
  have hk : k ∈ t.connections.keys := OrdMap.mem_keys.mpr ⟨c, hd.entry⟩
  rw [attempts_before hd.listed hk]
  constructor
  · rintro ⟨⟨q, j⟩, hi, ha, hq⟩
    rcases List.mem_append.mp hi with hi | hi
    · exact absurd hq (by simpa using List.mem_takeWhile_imp (mem_attempts.mp hi).1)
    · obtain ⟨j', hj, he⟩ := List.mem_map.mp hi
      cases he
      exact ⟨j, hj, ha⟩
  · rintro ⟨j, hj, ha⟩
    exact ⟨(p, j), List.mem_append_right _ (List.mem_map_of_mem hj), ha, rfl⟩

/-- A due packet is sent to its connection if and only if it is not missed. -/
theorem calls_iff_not_missed (hd : Due stale t p k c) :
    Calls (t.sendPackets stale).2 p (.entry k) ↔ ¬ Missed stale t p k c := by
  have hs : SameConnections t (sendTargetedPackets stale t).1 :=
    (sends_run (sends_sendTargeted stale) t t.targetedPacketsToSendList.entries).connections
  have hk : k ∈ t.connections.keys := OrdMap.mem_keys.mpr ⟨c, hd.entry⟩
  have hp : (∃ e, Recorded t e ∧ e.1 = p) ↔ ∃ c', Recorded t (p, c') := by simp
  rw [sendPackets_out, calls_append, targetedPass_calls hd, run_sendBroadcast, hs.1,
    broadcastPass_calls hs hd.listed hk, open_iff hs, hd.handle, starts_before hd, meets_before hd,
    recorded_iff (spreads_packet p).byHandle, recorded_iff (spreads_handle p _).byHandle, hp]
  constructor
  · rintro (hfirst | ⟨-, hopen⟩) hm
    · exact hm.untargeted hfirst
    · exact hopen ⟨hm.starts, hm.meets⟩
  · intro hm
    by_contra hno
    rw [not_or, not_and_not_right] at hno
    obtain ⟨hstarts, hmeets⟩ := hno.2 ⟨c, hd.entry, hd.available⟩
    exact hm ⟨hstarts, hmeets, hno.1⟩

/-- `sendPackets` misses nothing that is due if and only if the walk over the
sent list meets nothing it should not. -/
theorem complete_iff (stale : Stale) (t : Tracker) :
    Complete stale t ↔ ∀ p k c, Due stale t p k c → ¬ Missed stale t p k c :=
  forall₃_congr fun _ _ _ => forall_congr' fun hd => calls_iff_not_missed hd

def fragment (b : UInt8) : Bytes :=
  [1, 5, 3] ++ List.replicate 8 0 ++ [0, 0, 1] ++ List.replicate 8 0 ++ [b]

/-- Handles 1 and 2 connect and subscribe. Two fragments come in on handle 2;
the one that comes second is put at the lower address. -/
def twoFragments : List Input :=
  [⟨.connectionComplete 1 (List.replicate 6 1) .lePublic .slave, .idle⟩,
    ⟨.attWrite 1 false .clientConfiguration 0 [1, 0], .idle⟩,
    ⟨.gattMtu 1 512, .idle⟩,
    ⟨.connectionComplete 2 (List.replicate 6 2) .lePublic .slave, .idle⟩,
    ⟨.attWrite 2 false .clientConfiguration 0 [1, 0], .idle⟩,
    ⟨.gattMtu 2 512, .idle⟩,
    ⟨.attWrite 2 false .value 0 (fragment 0x61), { Ambient.idle with place := 200 }⟩,
    ⟨.attWrite 2 false .value 0 (fragment 0x62), { Ambient.idle with place := 100 }⟩]

def subscribed : BleConnection :=
  { connectionHandle := 1, connected := true, btAddress := List.replicate 6 1,
    btAddressType := .lePublic, role := .slave, btMtu := 512, notificationEnabled := true,
    bitchatCharacteristicValueHandle := 1 }

/-- The second fragment does not go to handle 1, because the first one did. -/
theorem twoFragments_incomplete :
    ¬ Complete Ambient.idle.stale (run (step .bare) { announceAddr := 0 } twoFragments).1 := by
  intro h
  have hsent : ∀ e ∈ (run (step .bare) { announceAddr := 0 }
    twoFragments).1.packetsConnectionsSentList.entries,
      handleOf Ambient.idle.stale (run (step .bare) { announceAddr := 0 } twoFragments).1 e.2 ≠
      1 := by
    decide +kernel
  have hd : Due Ambient.idle.stale (run (step .bare) { announceAddr := 0 } twoFragments).1
      100 1 subscribed :=
    ⟨by decide +kernel, by decide +kernel, by decide, fun c' hm => hsent _ hm⟩
  have hno : ¬ Calls (sendPackets Ambient.idle.stale
      (run (step .bare) { announceAddr := 0 } twoFragments).1).2 100 (.entry 1) := by
    decide +kernel
  exact hno (h 100 1 subscribed hd)

end BitchatRepeater.Tracker
