import BitchatRepeater.AtMostOnce
import BitchatRepeater.LiveConnections

/-!
# The announce

The announce is enqueued for single connections only. Repeated calls of
`announceToConnections` before a send leave several entries for one connection;
the record of the first send keeps the others back. `Announcing` ties the
targeted list to the sent list: what is enqueued has not been sent. The records
hold pointers to map entries, so the address `reportDisconnection` compares with
is never among them, and the record of a connection survives it.
-/

namespace BitchatRepeater

open Lib Tracker ProtocolProcessor

variable {t u v : Tracker} {stale : Stale} {log out : List Effect}

-- ---------------------------------------------------------------------------
-- Records
-- ---------------------------------------------------------------------------

def Announced (t : Tracker) (h : Handle) : Prop :=
  (t.announceAddr, .entry h) ∈ t.packetsConnectionsSentList.entries

instance decidableAnnounced : Decidable (Announced t h) :=
  inferInstanceAs (Decidable ((t.announceAddr, .entry h) ∈ t.packetsConnectionsSentList.entries))

def announceQueued (t : Tracker) (h : Handle) : Prop :=
  (t.announceAddr, .entry h) ∈ t.targetedPacketsToSendList.entries

instance decidableAnnounceQueued : Decidable (announceQueued t h) :=
  inferInstanceAs (Decidable ((t.announceAddr, .entry h) ∈ t.targetedPacketsToSendList.entries))

def Proper (t : Tracker) (c : ConnPtr) : Prop :=
  ∃ k connection, c = .entry k ∧ t.connections.get? k = some connection ∧
  connection.connectionHandle = k

theorem Proper.deref (h : Proper t (.entry k)) (stale : Stale) :
    (t.derefConnection stale (.entry k)).connectionHandle = k := by
  obtain ⟨_, connection, he, hc, hk⟩ := h
  cases he
  rw [derefConnection_entry hc, hk]

theorem Proper.stay (h : Proper t c) (hs : Stay t u) : Proper u c := by
  obtain ⟨k, connection, rfl, hc, hk⟩ := h
  obtain ⟨connection', hc', hk'⟩ := hs.connections k connection hc
  exact ⟨k, connection', rfl, hc', hk' hk⟩

theorem Proper.sameConnections (h : Proper t c) (hs : SameConnections t u) : Proper u c := by
  obtain ⟨k, connection, rfl, hc, hk⟩ := h
  have hs := hs.2 k
  rw [hc, Option.map_some] at hs
  obtain ⟨connection', hc', he⟩ := Option.map_eq_some_iff.mp hs
  exact ⟨k, connection', rfl, hc', (connectionHandle_of_settled he).trans hk⟩

def ProperRecords (t : Tracker) : Prop :=
  ∀ c, (t.announceAddr, c) ∈ t.packetsConnectionsSentList.entries → Proper t c

theorem packetSentTo_announce (h : ProperRecords t) :
    t.packetSentTo stale t.announceAddr k = true ↔ Announced t k := by
  simp only [packetSentTo, List.any_eq_true, Multimap.mem_equalRange, decide_eq_true_eq]
  constructor
  · rintro ⟨⟨a, c⟩, ⟨hm, rfl⟩, hk⟩
    obtain ⟨k', connection, rfl, hc, hk'⟩ := h c hm
    rw [derefConnection_entry hc, hk'] at hk
    exact hk ▸ hm
  · intro hm
    exact ⟨_, ⟨hm, rfl⟩, (h _ hm).deref stale⟩

-- ---------------------------------------------------------------------------
-- The pass over the targeted list
-- ---------------------------------------------------------------------------

def mark (t : Tracker) (h : Handle) : Nat := if Announced t h then 1 else 0

theorem mark_le_one (t : Tracker) (h : Handle) : mark t h ≤ 1 := by
  unfold mark
  split <;> omega

theorem mark_mono (h : Announced t k → Announced u k) : mark t k ≤ mark u k := by
  unfold mark
  split
  next ha => rw [if_pos (h ha)]
  next => exact Nat.zero_le _

/-- Every call for the announce leaves a record that was not there. -/
structure Marks (t u : Tracker) (out : List Effect) : Prop where
  addr : u.announceAddr = t.announceAddr
  calls : ∀ h, callsTo t.announceAddr h out + mark t h ≤ mark u h

theorem Marks.trans (h : Marks t u out) (h' : Marks u v out') : Marks t v (out ++ out') := by
  refine ⟨h'.addr.trans h.addr, fun k => ?_⟩
  have h₁ := h.calls k
  have h₂ := h'.calls k
  rw [h.addr] at h₂
  rw [callsTo_append]
  omega

theorem marks_of_silent (ha : u.announceAddr = t.announceAddr)
    (hout : ∀ h, callsTo t.announceAddr h out = 0) (hkeep : ∀ h, Announced t h → Announced u h) :
    Marks t u out := by
  refine ⟨ha, fun h => ?_⟩
  rw [hout, Nat.zero_add]
  exact mark_mono (hkeep h)

theorem Marks.announced (h : Marks t u out) (ha : Announced t k) : Announced u k := by
  have hk := h.calls k
  rw [mark, mark, if_pos ha] at hk
  split at hk
  next hu => exact hu
  next => omega

theorem addr_sends (h : Sends stale t u out) : u.announceAddr = t.announceAddr := by
  obtain ⟨_, _, _, _, he⟩ := h.eq
  rw [he]

theorem callsTo_sendTargeted (hs : t.packetSentTo stale a
    (t.derefConnection stale c).connectionHandle = false) :
    callsTo b h (sendTargeted stale t (a, c)).2 =
      if b = a ∧ h = (t.derefConnection stale c).connectionHandle then 1 else 0 := by
  simp only [sendTargeted, hs, Bool.false_eq_true, if_false]
  exact callsTo_sendPacketToConnection

theorem sendTargeted_announce (stale : Stale) (hr : ProperRecords t) (hp : Proper t (.entry k)) :
    let r := sendTargeted stale t (t.announceAddr, .entry k)
    ProperRecords r.1 ∧ Announced r.1 k ∧ Marks t r.1 r.2 := by
  intro r
  have hsent : t.packetSentTo stale t.announceAddr k = true ↔ Announced t k :=
    packetSentTo_announce hr
  rcases sendTargeted_cases stale t t.announceAddr (.entry k) with ⟨hs, he⟩ | ⟨hs, hsends, hcalls⟩
  · rw [hp.deref stale, hsent] at hs
    simp only [r, he]
    exact ⟨hr, hs, marks_of_silent rfl (fun _ => rfl) fun _ ha => ha⟩
  · have hn : ¬ Announced t k := by
      rw [hp.deref stale, ← Bool.not_eq_true, hsent] at hs
      exact hs
    have hnew : Announced r.1 k := by
      rw [Announced, addr_sends hsends]
      exact (hsends.sent _ _).mpr (.inr ((hcalls _ _).mpr ⟨rfl, rfl⟩))
    refine ⟨fun c hc => ?_, hnew, addr_sends hsends, fun h => ?_⟩
    · rw [addr_sends hsends, hsends.sent] at hc
      rcases hc with hc | hc
      · exact (hr c hc).sameConnections hsends.connections
      · rw [((hcalls _ _).mp hc).2]
        exact hp.sameConnections hsends.connections
    · rw [callsTo_sendTargeted hs, hp.deref stale]
      by_cases hh : h = k
      · subst hh
        simp [mark, hn, hnew]
      · simp only [hh, and_false, if_false, Nat.zero_add]
        refine mark_mono fun ha => ?_
        rw [Announced, addr_sends hsends]
        exact (hsends.sent _ _).mpr (.inl ha)

theorem targetedPass_announce (stale : Stale) {items : List (Addr × ConnPtr)} (hr : ProperRecords t)
    (hi : ∀ e ∈ items, e.1 = t.announceAddr ∧ Proper t e.2) :
    let r := run (sendTargeted stale) t items
    ProperRecords r.1 ∧ (∀ e ∈ items, e ∈ r.1.packetsConnectionsSentList.entries) ∧
    Marks t r.1 r.2 := by
  induction items generalizing t with
  | nil => exact ⟨hr, List.forall_mem_nil _, marks_of_silent rfl (fun _ => rfl) fun _ ha => ha⟩
  | cons item items ih =>
    obtain ⟨a, c⟩ := item
    obtain ⟨rfl, hp⟩ := hi (a, c) List.mem_cons_self
    have ⟨k, _, hk, _⟩ := hp
    subst hk
    obtain ⟨hr₁, ha₁, hm₁⟩ := sendTargeted_announce stale hr hp
    have hsame := (sends_sendTargeted stale t (t.announceAddr, .entry k)).connections
    obtain ⟨hr₂, hsent₂, hm₂⟩ := ih hr₁ fun e he => by
      obtain ⟨ha, hp⟩ := hi e (List.mem_cons_of_mem _ he)
      exact ⟨ha.trans hm₁.addr.symm, hp.sameConnections hsame⟩
    refine ⟨hr₂, fun e he => ?_, hm₁.trans hm₂⟩
    rcases List.mem_cons.mp he with rfl | he
    · have ha := hm₂.announced ha₁
      rwa [Announced, hm₂.addr, hm₁.addr] at ha
    · exact hsent₂ e he

-- ---------------------------------------------------------------------------
-- sendPackets
-- ---------------------------------------------------------------------------

theorem mem_sentPackets : a ∈ sentPackets out ↔ ∃ c, Calls out a c := by
  simp only [sentPackets, List.mem_filterMap, Calls]
  constructor
  · rintro ⟨e, he, ha⟩
    cases e with
    | sendPacketToConnection b c h =>
      cases ha
      exact ⟨c, h, he⟩
    | _ => cases ha
  · rintro ⟨c, h, he⟩
    exact ⟨_, he, rfl⟩

theorem calls_broadcastPass (h : Calls (run (sendBroadcast stale) t ps).2 a c) : a ∈ ps := by
  refine calls_run (fun a _ => a ∈ ps) (fun u p hp b d hc => ?_) t a c h
  have hb : b = p := calls_run (fun a _ => a = p) (fun v k _ b d hc =>
    (calls_sendBroadcastTo hc).1) u b d hc
  exact hb ▸ hp

theorem targeted_sendPackets (stale : Stale) (t : Tracker) :
    (t.sendPackets stale).1.targetedPacketsToSendList.entries =
      t.targetedPacketsToSendList.entries.filter fun item =>
        item.1 ∉ sentPackets (run (sendTargeted stale) t
          t.targetedPacketsToSendList.entries).2 := by
  have h₁ := sends_run (sends_sendTargeted stale) t t.targetedPacketsToSendList.entries
  have h₂ := sends_run (sends_sendBroadcast stale) (sendTargetedPackets stale t).1
    (sendTargetedPackets stale t).1.broadcastPacketsToSendList
  unfold sendPackets
  split
  next he =>
    simp only [Bool.and_eq_true, List.isEmpty_iff] at he
    rw [he.2]
    rfl
  next =>
    simp only [sendBroadcastPackets_eq]
    rw [h₂.targeted]
    simp only [sendTargetedPackets, h₁.targeted, Multimap.eraseIf, decide_not]

-- ---------------------------------------------------------------------------
-- The invariant
-- ---------------------------------------------------------------------------

structure Announcing (t : Tracker) : Prop where
  keyed : Keyed t.connections
  broadcast : t.announceAddr ∉ t.broadcastPacketsToSendList
  records : ProperRecords t
  targeted : ∀ e ∈ t.targetedPacketsToSendList.entries,
    e.1 = t.announceAddr ∧ Proper t e.2 ∧ e ∉ t.packetsConnectionsSentList.entries

theorem announcing_init (addr : Addr) : Announcing { announceAddr := addr } where
  keyed := keyed_empty
  broadcast := List.not_mem_nil
  records := fun _ hc => absurd hc List.not_mem_nil
  targeted := List.forall_mem_nil _

theorem Announcing.calls (h : Announcing t) : Calls (t.sendPackets stale).2 t.announceAddr c ↔
    (t.announceAddr, c) ∈ t.targetedPacketsToSendList.entries := by
  have hpass := targetedPass_announce stale h.records fun e he =>
    ⟨(h.targeted e he).1, (h.targeted e he).2.1⟩
  have hsends := sends_run (sends_sendTargeted stale) t t.targetedPacketsToSendList.entries
  constructor
  · intro hc
    exact (calls_sendPackets hc).resolve_right fun hc => h.broadcast (calls_broadcastPass hc)
  · intro hm
    rw [sendPackets_out, calls_append]
    -- it was not recorded before the pass and is after it
    have hrec := hpass.2.1 _ hm
    rw [hsends.sent] at hrec
    exact .inl (hrec.resolve_left (h.targeted _ hm).2.2)

theorem Announcing.drained (h : Announcing t) :
    (t.sendPackets stale).1.targetedPacketsToSendList.entries = [] := by
  rw [targeted_sendPackets, List.filter_eq_nil_iff]
  intro e he
  have hcall : Calls (t.sendPackets stale).2 t.announceAddr e.2 := by
    rw [h.calls, ← (h.targeted e he).1]
    exact he
  rw [sendPackets_out, calls_append] at hcall
  have hc := hcall.resolve_right fun hc => h.broadcast (calls_broadcastPass hc)
  simp only [decide_not, Bool.not_eq_true', decide_eq_false_iff_not, not_not, mem_sentPackets]
  exact ⟨e.2, (h.targeted e he).1 ▸ hc⟩

theorem sent_sendPackets (stale : Stale) (t : Tracker) (a : Addr) (c : ConnPtr) :
    (a, c) ∈ (t.sendPackets stale).1.packetsConnectionsSentList.entries ↔
      (a, c) ∈ t.packetsConnectionsSentList.entries ∨ Calls (t.sendPackets stale).2 a c := by
  obtain ⟨v, targeted, hs, he, -⟩ := sendPackets_sends stale t
  rw [he]
  exact hs.sent a c

theorem sendPackets_broadcast (stale : Stale) (t : Tracker) :
    (t.sendPackets stale).1.broadcastPacketsToSendList = [] := by
  obtain ⟨v, targeted, hs, he, -⟩ := sendPackets_sends stale t
  rw [he]

theorem Announcing.sendPackets (h : Announcing t) (P : Platform) (ambient : Ambient) :
    Announcing (step P t ⟨.sendPackets, ambient⟩).1 := by
  have hsame := sendPackets_connections ambient.stale t
  have haddr := announceAddr_step P t ⟨.sendPackets, ambient⟩
  refine ⟨h.keyed.sameConnections hsame, ?_, fun c hc => ?_, fun e he => ?_⟩
  · simp [step, sendPackets_broadcast]
  · rw [haddr] at hc
    refine Proper.sameConnections (t := t) ?_ hsame
    rcases (sent_sendPackets ambient.stale t _ c).mp hc with hc | hc
    · exact h.records c hc
    · exact (h.targeted _ (h.calls.mp hc)).2.1
  · simp only [step, h.drained] at he
    cases he

theorem Announcing.sendPackets_marks (h : Announcing t) (P : Platform) (ambient : Ambient) :
    Marks t (step P t ⟨.sendPackets, ambient⟩).1 (step P t ⟨.sendPackets, ambient⟩).2 := by
  have haddr := announceAddr_step P t ⟨.sendPackets, ambient⟩
  have hpass := (targetedPass_announce ambient.stale h.records fun e he =>
    ⟨(h.targeted e he).1, (h.targeted e he).2.1⟩).2.2
  have hsends := sends_run (sends_sendTargeted ambient.stale) t t.targetedPacketsToSendList.entries
  refine ⟨haddr, fun k => ?_⟩
  have hbroadcast : callsTo t.announceAddr k (run (sendBroadcast ambient.stale)
      (sendTargetedPackets ambient.stale t).1 t.broadcastPacketsToSendList).2 = 0 :=
    callsTo_eq_zero.mpr fun c hc => h.broadcast (calls_broadcastPass ⟨k, hc⟩)
  -- what the pass over the targeted list records stays recorded
  have hmono : mark _ k ≤ mark (step P t ⟨.sendPackets, ambient⟩).1 k := mark_mono fun ha => by
    rw [Announced, hpass.addr, hsends.sent] at ha
    rw [Announced, haddr]
    refine (sent_sendPackets ambient.stale t _ _).mpr (ha.imp_right fun hc => ?_)
    rw [sendPackets_out, calls_append]
    exact .inl hc
  simp only [step] at hmono ⊢
  rw [sendPackets_out, callsTo_append, hbroadcast]
  exact (hpass.calls k).trans hmono

theorem Announcing.other (h : Announcing t) (hi : visitsLists i.event = false) :
    Announcing (step P t i).1 := by
  have hstay : Stay t (step P t i).1 := stay_step hi
  have haddr := announceAddr_step P t i
  have hlive : t.announceAddr ∈ t.liveAddrs := List.mem_cons_self
  have hsent (c : ConnPtr) (hc : (t.announceAddr, c) ∈
    (step P t i).1.packetsConnectionsSentList.entries) :
      (t.announceAddr, c) ∈ t.packetsConnectionsSentList.entries :=
    (sent_step hi hc).resolve_right fun hn => hn.1 hlive
  refine ⟨h.keyed.outcome (step_outcome P t i), ?_, fun c hc => ?_, fun e he => ?_⟩
  · rw [haddr]
    exact fun hm => (broadcast_step hi hm).elim h.broadcast fun hn => hn hlive
  · rw [haddr] at hc
    exact (h.records c (hsent c hc)).stay hstay
  · rw [hstay.targeted] at he
    obtain ⟨ha, hp, hn⟩ := h.targeted e he
    obtain ⟨a, c⟩ := e
    subst ha
    exact ⟨haddr.symm, hp.stay hstay, fun hm => hn (hsent c hm)⟩

theorem announceDue_iff (hr : ProperRecords t) : AnnounceDue stale t k ↔
    (∃ c, t.connections.get? k = some c ∧ available c) ∧ buildTimeMs ≤ t.timestampOffsetMs ∧
      ¬ Announced t k := by
  simp only [AnnounceDue, ← Bool.not_eq_true, packetSentTo_announce hr]
  constructor
  · rintro ⟨c, hc, ha, hb, hn⟩
    exact ⟨⟨c, hc, ha⟩, hb, hn⟩
  · rintro ⟨⟨c, hc, ha⟩, hb, hn⟩
    exact ⟨c, hc, ha, hb, hn⟩

theorem Announcing.announceToConnections (h : Announcing t) (P : Platform) (now : UInt64)
    (stale : Stale) :
    Announcing (t.announceToConnections P now stale) := by
  have henq := enqueues_announceToConnections P now stale h.keyed
  have htargeted (e : Addr × ConnPtr)
      (he : e ∈ (t.announceToConnections P now stale).targetedPacketsToSendList.entries) :
      e.1 = t.announceAddr ∧ Proper t e.2 ∧ e ∉ t.packetsConnectionsSentList.entries := by
    obtain ⟨a, c⟩ := e
    rcases (mem_announceToConnections P now stale h.keyed).mp he with he | ⟨rfl, k, rfl, hd⟩
    · exact h.targeted _ he
    · obtain ⟨⟨c, hc, ha⟩, -, hn⟩ := (announceDue_iff h.records).mp hd
      exact ⟨rfl, ⟨k, c, rfl, hc, h.keyed k c hc (available_connected ha)⟩, hn⟩
  obtain ⟨_, _, hu⟩ := henq.eq
  rw [hu] at htargeted ⊢
  exact ⟨h.keyed, h.broadcast, fun c hc => h.records c hc, fun e he => htargeted e he⟩

theorem Announcing.cleanup (h : Announcing t) (stale : Stale) (time : UInt64) :
    Announcing (t.cleanupStaleItems stale time) := by
  have hkept (a : Addr) (c : ConnPtr) (hp : Proper t c)
      (hf : t.packetConnectionStale stale (t.getTimeMs time) (a, c) = false) :
      Proper (t.cleanupStaleItems stale time) c := by
    obtain ⟨k, connection, rfl, hc, hk⟩ := hp
    simp only [packetConnectionStale, derefConnection_entry hc, Bool.or_eq_false_iff] at hf
    exact ⟨k, connection, rfl, get?_cleanup hc hf.2, hk⟩
  refine ⟨?_, fun hm => ?_, fun c hc => ?_, fun e he => ?_⟩
  · intro k c hc
    exact h.keyed k c (OrdMap.get?_eq_some.mpr
      (OrdMap.mem_eraseIf.mp (OrdMap.get?_eq_some.mp hc)).1)
  · exact h.broadcast (List.mem_filter.mp hm).1
  · obtain ⟨hm, hf⟩ := Multimap.mem_eraseIf.mp hc
    exact hkept _ c (h.records c hm) hf
  · obtain ⟨hm, hf⟩ := Multimap.mem_eraseIf.mp he
    obtain ⟨ha, hp, hn⟩ := h.targeted e hm
    exact ⟨ha, hkept e.1 e.2 hp hf, fun hs => hn (Multimap.mem_eraseIf.mp hs).1⟩

theorem Announcing.step (h : Announcing t) (P : Platform) (i : Input) :
    Announcing (step P t i).1 := by
  cases hi : visitsLists i.event with
  | false => exact h.other hi
  | true =>
    obtain ⟨event, ambient⟩ := i
    cases event with
    | announceToConnections => exact h.announceToConnections P ambient.now ambient.stale
    | sendPackets => exact h.sendPackets P ambient
    | cleanupStaleItems => exact h.cleanup ambient.stale ambient.now
    | _ => cases hi

theorem announcing_run (P : Platform) (addr : Addr) (is : List Input) :
    Announcing (run (step P) { announceAddr := addr } is).1 :=
  run_state_invariant Announcing (fun _ i _ h => h.step P i) (announcing_init addr) (along_true _ _)

-- ---------------------------------------------------------------------------
-- At most once
-- ---------------------------------------------------------------------------

theorem silent_step (hi : i.event ≠ .sendPackets) : callsTo a h (step P t i).2 = 0 := by
  have ho := step_outcome P t i
  generalize step P t i = r at ho
  cases ho with
  | calm hc => exact callsTo_passive hc.quiet.kinds
  | stores => exact callsTo_eq_zero.mpr fun c hc => by cases hc with | tail _ hc => cases hc
  | own => exact callsTo_eq_zero.mpr fun c hc => by cases hc with | tail _ hc => cases hc
  | drains queue k status _ => exact callsTo_passive (quiet_sendRawPacket queue t k status).kinds
  | announces => rfl
  | sends h => exact absurd h hi
  | cleans => rfl

theorem Announcing.marks_step (h : Announcing t) (P : Platform)
    (hi : i.event ≠ .cleanupStaleItems) :
    Marks t (BitchatRepeater.step P t i).1 (BitchatRepeater.step P t i).2 := by
  have haddr := announceAddr_step P t i
  cases hv : visitsLists i.event with
  | false =>
    have hsilent : i.event ≠ .sendPackets := fun he => by simp [visitsLists, he] at hv
    refine marks_of_silent haddr (fun k => silent_step hsilent) fun k hk => ?_
    rw [Announced, haddr]
    exact (stay_step hv).sent _ _ hk
  | true =>
    obtain ⟨event, ambient⟩ := i
    cases event with
    | announceToConnections =>
      refine marks_of_silent haddr (fun _ => rfl) fun k hk => ?_
      obtain ⟨_, _, hu⟩ := (enqueues_announceToConnections P ambient.now ambient.stale h.keyed).eq
      simp only [BitchatRepeater.step, hu]
      exact hk
    | sendPackets => exact h.sendPackets_marks P ambient
    | cleanupStaleItems => exact absurd rfl hi
    | _ => cases hv

theorem Announcing.marks_run (h : Announcing t) (P : Platform)
    (hs : ∀ i ∈ is, i.event ≠ .cleanupStaleItems) :
    Marks t (run (BitchatRepeater.step P) t is).1 (run (BitchatRepeater.step P) t is).2 := by
  have hstart : Marks t t [] := marks_of_silent rfl (fun _ => rfl) fun _ ha => ha
  have hstep (u : Tracker) (log : List Effect) (i : Input) (hi : i.event ≠ .cleanupStaleItems)
      (hu : Announcing u ∧ Marks t u log) : Announcing (BitchatRepeater.step P u i).1 ∧
        Marks t (BitchatRepeater.step P u i).1 (log ++ (BitchatRepeater.step P u i).2) :=
    ⟨hu.1.step P i, hu.2.trans (hu.1.marks_step P hi)⟩
  exact (run_invariant hstep ⟨h, hstart⟩ (along_of_forall hs t)).2

/-- In a segment without cleanup the announce goes to each handle at most once,
whatever connects and disconnects meanwhile, and both lists are empty after every
`sendPackets`. -/
theorem announced_at_most_once (P : Platform) (addr : Addr) (earlier segment : List Input)
    (hs : ∀ i ∈ segment, i.event ≠ .cleanupStaleItems) :
    let t := (run (step P) { announceAddr := addr } earlier).1
    (∀ h, callsTo addr h (run (step P) t segment).2 ≤ 1) ∧
    ∀ before ambient after, segment = before ++ ⟨.sendPackets, ambient⟩ :: after →
      let u := (run (step P) t (before ++ [⟨.sendPackets, ambient⟩])).1
      u.targetedPacketsToSendList.entries = [] ∧ u.broadcastPacketsToSendList = [] := by
  intro t
  have ht : Announcing t := announcing_run P addr earlier
  constructor
  · intro h
    have hcalls := (ht.marks_run P hs).calls h
    rw [show t.announceAddr = addr from announceAddr_run P _ earlier] at hcalls
    exact (Nat.le_add_right _ _).trans (hcalls.trans (mark_le_one _ h))
  · intro before ambient after _ u
    have hsent := announcing_run P addr (earlier ++ before)
    rw [run_append] at hsent
    simp only [u, run_snoc, step]
    exact ⟨hsent.drained, sendPackets_broadcast ambient.stale _⟩

/-- An announce of another device, at the time the program was built. -/
def foreignAnnounce : Bytes := [1, 1, 1] ++ split64 buildTimeMs ++ [0, 0, 1] ++
    List.replicate 8 7 ++ [0x61]

def attConnectedOne : Input := ⟨.attConnected 1 (List.replicate 6 0) .lePublic, .idle⟩

def clientArrives : List Input :=
  [attConnectedOne, ⟨.attWrite 1 false .clientConfiguration 0 [1, 0], .idle⟩,
    ⟨.attWrite 1 false .value 0 foreignAnnounce, .idle⟩]

def announceIdle : Input := ⟨.announceToConnections, .idle⟩

def sendIdle : Input := ⟨.sendPackets, .idle⟩

theorem announced_once_to_client :
    let t := (run (step .bare) { announceAddr := 1 } clientArrives).1
    let segment := [announceIdle, announceIdle, sendIdle, announceIdle, sendIdle]
    0 < callsTo 1 1 (run (step .bare) t segment).2 ∧
    callsTo 1 1 (run (step .bare) t segment).2 ≤ 1 :=
  ⟨by decide +kernel, (announced_at_most_once .bare 1 clientArrives
    [announceIdle, announceIdle, sendIdle, announceIdle, sendIdle] (by decide)).1 1⟩

-- ---------------------------------------------------------------------------
-- After a disconnection
-- ---------------------------------------------------------------------------

theorem announced_disconnected (P : Platform) (t : Tracker) (ambient : Ambient) (h k : Handle) :
    Announced (step P t ⟨.disconnected h, ambient⟩).1 k ↔ Announced t k := by
  constructor
  · intro hm
    exact (Multimap.mem_eraseIf.mp hm).1
  · intro hm
    exact (stay_step (i := ⟨.disconnected h, ambient⟩) rfl).sent _ k hm

theorem Announcing.queued_iff (h : Announcing t) (P : Platform) (ambient : Ambient)
    (hc : ∃ c, t.connections.get? k = some c ∧ available c)
    (hb : buildTimeMs ≤ t.timestampOffsetMs) :
    announceQueued (BitchatRepeater.step P t ⟨.announceToConnections, ambient⟩).1 k ↔
      ¬ Announced t k := by
  have haddr := announceAddr_step P t ⟨.announceToConnections, ambient⟩
  rw [announceQueued, haddr]
  refine (mem_announceToConnections P ambient.now ambient.stale h.keyed).trans ?_
  constructor
  · rintro (hm | ⟨-, k', he, hd⟩)
    · exact (h.targeted _ hm).2.2
    · cases he
      exact ((announceDue_iff h.records).mp hd).2.2
  · intro hn
    exact .inr ⟨rfl, k, rfl, (announceDue_iff h.records).mpr ⟨hc, hb, hn⟩⟩

theorem Announcing.queued_step (h : Announcing t) (P : Platform) (hq : announceQueued t k)
    (hi : i.event ≠ .sendPackets ∧ i.event ≠ .cleanupStaleItems) :
    announceQueued (BitchatRepeater.step P t i).1 k := by
  rw [announceQueued, announceAddr_step]
  cases hv : visitsLists i.event with
  | false =>
    rw [(stay_step hv).targeted]
    exact hq
  | true =>
    obtain ⟨event, ambient⟩ := i
    cases event with
    | announceToConnections =>
      exact (mem_announceToConnections P ambient.now ambient.stale h.keyed).mpr (.inl hq)
    | sendPackets => exact absurd rfl hi.1
    | cleanupStaleItems => exact absurd rfl hi.2
    | _ => cases hv

theorem Announcing.queued_run (h : Announcing t) (P : Platform) (hq : announceQueued t k)
    (hs : ∀ i ∈ is, i.event ≠ .sendPackets ∧ i.event ≠ .cleanupStaleItems) :
    announceQueued (run (BitchatRepeater.step P) t is).1 k := by
  have hboth := run_state_invariant (fun u => Announcing u ∧ announceQueued u k)
    (fun u i hi hu => ⟨hu.1.step P i, hu.1.queued_step P hu.2 hi⟩) ⟨h, hq⟩ (along_of_forall hs t)
  exact hboth.2

theorem Announcing.transmits (h : Announcing t) (P : Platform) (ambient : Ambient)
    (hq : announceQueued t k) :
    .sendPacketToConnection t.announceAddr (.entry k) k ∈
      (BitchatRepeater.step P t ⟨.sendPackets, ambient⟩).2 := by
  obtain ⟨k', hm⟩ : Calls (t.sendPackets ambient.stale).2 t.announceAddr (.entry k) :=
    h.calls.mpr hq
  obtain ⟨v, targeted, hs, -, -⟩ := sendPackets_sends ambient.stale t
  have hk := hs.handle _ _ _ hm
  rw [(h.targeted _ hq).2.1.deref ambient.stale] at hk
  exact hk ▸ hm

/-- A connection is announced to anew after it was reported as disconnected
exactly if neither the disconnection nor the next announcement finds a record of
an earlier announce to it. -/
theorem reannounced_iff (P : Platform) (addr : Addr)
    (earlier between waiting : List Input) (h : Handle) (atDisconnect atAnnounce atSend : Ambient)
    (hw : ∀ i ∈ waiting, i.event ≠ .sendPackets ∧ i.event ≠ .cleanupStaleItems) :
    let t := (run (step P) { announceAddr := addr } earlier).1
    let disconnected := (step P t ⟨.disconnected h, atDisconnect⟩).1
    let later := (run (step P) disconnected between).1
    let announcing := (step P later ⟨.announceToConnections, atAnnounce⟩).1
    let sending := (run (step P) announcing waiting).1
    (∃ c, later.connections.get? h = some c ∧ available c) → buildTimeMs ≤ later.timestampOffsetMs →
    (¬ Announced disconnected h ∧ announceQueued announcing h ∧
        (∃ c, .sendPacketToConnection addr c h ∈ (step P sending ⟨.sendPackets, atSend⟩).2) ↔
      ¬ Announced t h ∧ ¬ Announced later h) := by
  intro t disconnected later announcing sending hc hb
  have hlater : Announcing later := by
    have hrun := announcing_run P addr (earlier ++ [⟨.disconnected h, atDisconnect⟩] ++ between)
    rwa [run_append, run_snoc] at hrun
  rw [announced_disconnected, hlater.queued_iff P atAnnounce hc hb]
  refine and_congr_right fun _ => and_iff_left_of_imp fun hn => ?_
  have hq := (hlater.queued_iff P atAnnounce hc hb).mpr hn
  have hannouncing : Announcing announcing := hlater.step P _
  have hsending : Announcing sending :=
    run_state_invariant Announcing (fun _ i _ hu => hu.step P i) hannouncing (along_true _ _)
  have haddr : sending.announceAddr = addr := by
    simp only [sending, announcing, later, disconnected, t, announceAddr_run, announceAddr_step]
  refine ⟨.entry h, ?_⟩
  have hcall := hsending.transmits P atSend (hannouncing.queued_run P hq hw)
  rwa [haddr] at hcall

def clientReturns : List Input := [attConnectedOne]

theorem reannounced_if_not_before :
    let t := (run (step .bare) { announceAddr := 1 } clientArrives).1
    let disconnected := (step .bare t ⟨.disconnected 1, .idle⟩).1
    let announcing := (step .bare (run (step .bare) disconnected clientReturns).1 announceIdle).1
    ¬ Announced t 1 ∧ ¬ Announced disconnected 1 ∧ announceQueued announcing 1 ∧
      ∃ c, .sendPacketToConnection 1 c 1 ∈ (step .bare announcing sendIdle).2 := by
  have hnone : ¬ Announced (run (step .bare) { announceAddr := 1 } clientArrives).1 1 := by
    decide +kernel
  refine ⟨hnone, (reannounced_iff .bare 1 clientArrives clientReturns [] 1 .idle .idle .idle
    (List.forall_mem_nil _) ⟨_, rfl, ?_⟩ ?_).mpr ⟨hnone, ?_⟩⟩
  · decide +kernel
  · decide +kernel
  · decide +kernel

/-- The record of the first announce is still there after the disconnection. -/
theorem returning_client_not_announced :
    let t := (run (step .bare) { announceAddr := 1 } (clientArrives ++ [announceIdle, sendIdle])).1
    let disconnected := (step .bare t ⟨.disconnected 1, .idle⟩).1
    let later := (run (step .bare) disconnected clientReturns).1
    Announced disconnected 1 ∧ (∃ c, later.connections.get? 1 = some c ∧ available c) ∧
      buildTimeMs ≤ later.timestampOffsetMs ∧
      ¬ announceQueued (step .bare later announceIdle).1 1 := by
  refine ⟨by decide +kernel, ⟨_, rfl, ?_⟩, by decide +kernel, by decide +kernel⟩
  decide +kernel

end BitchatRepeater
