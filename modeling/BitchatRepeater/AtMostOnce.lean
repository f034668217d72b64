import BitchatRepeater.EventLaws

/-!
# Relayed at most once

Without cleanup a stored packet stays where it is. It enters the broadcast list
when it is stored and never again, and the `sendPackets` that takes it off the
list visits every connection once. The record of its arrival keeps it from the
connection it came from. `Once` is the invariant that ties these together.
-/

namespace BitchatRepeater

open Lib Tracker

variable {t u : Tracker} {stale : Stale} {log out : List Effect}

-- ---------------------------------------------------------------------------
-- Counting calls
-- ---------------------------------------------------------------------------

def isCallTo (a : Addr) (h : Handle) : Effect → Bool
  | .sendPacketToConnection b _ k => b = a && k = h
  | _ => false

def callsTo (a : Addr) (h : Handle) (log : List Effect) : Nat := log.countP (isCallTo a h)

@[simp] theorem callsTo_append : callsTo a h (log ++ out) = callsTo a h log + callsTo a h out :=
  List.countP_append

theorem callsTo_eq_zero : callsTo a h log = 0 ↔ ∀ c, .sendPacketToConnection a c h ∉ log := by
  rw [callsTo, List.countP_eq_zero]
  constructor
  · intro hz c hm
    simpa [isCallTo] using hz _ hm
  · intro hz e he
    cases e with
    | sendPacketToConnection b c k =>
      simp only [isCallTo, Bool.and_eq_true, decide_eq_true_eq, not_and]
      rintro rfl rfl
      exact hz c he
    | _ => simp [isCallTo]

theorem callsTo_sendPacketToConnection :
    callsTo b h (t.sendPacketToConnection a packet target connection).2 =
      if b = a ∧ h = connection.connectionHandle then 1 else 0 := by
  obtain ⟨rest, ho, hcall, -⟩ := t.sendPacketToConnection_out a packet target connection
  have hrest : callsTo b h rest = 0 := callsTo_eq_zero.mpr fun c => hcall b c h
  rw [callsTo] at hrest
  rw [ho, callsTo, List.countP_cons, hrest]
  simp only [isCallTo, Bool.and_eq_true, decide_eq_true_eq, Nat.zero_add, @eq_comm _ a,
    @eq_comm _ connection.connectionHandle]

-- ---------------------------------------------------------------------------
-- One pass of sendPackets
-- ---------------------------------------------------------------------------

theorem callsTo_sendBroadcastTo (hk : Keyed t.connections) :
    callsTo b h (sendBroadcastTo stale a t k).2 = 0 ∨
      callsTo b h (sendBroadcastTo stale a t k).2 = 1 ∧ b = a ∧ k = h ∧
        (a, .entry h) ∉ t.packetsConnectionsSentList.entries := by
  unfold sendBroadcastTo
  cases hc : t.connections.get? k with
  | none => exact .inl rfl
  | some c =>
    simp only
    split
    next ho =>
      rw [callsTo_sendPacketToConnection]
      split
      next he =>
        obtain ⟨rfl, rfl⟩ := he
        simp only [available, Bool.and_eq_true] at ho
        have hh := hk k c hc ho.1.1
        refine .inr ⟨rfl, rfl, hh.symm, fun hm => ?_⟩
        -- the record would have been found
        have hf := List.all_eq_true.mp ho.2 _ (Multimap.mem_find.mpr ⟨⟨_, hm⟩, hm, le_refl _⟩)
        simp [hh, derefConnection_entry hc] at hf
      next => exact .inl rfl
    next => exact .inl rfl

/-- A state in which nothing goes to the connection under `h`: a record says that
the packet has been there. -/
def Barred (t : Tracker) (a : Addr) (h : Handle) : Prop :=
  Keyed t.connections ∧ (a, .entry h) ∈ t.packetsConnectionsSentList.entries

theorem Barred.sends (hb : Barred t a h) (hs : Sends stale t u out) : Barred u a h :=
  ⟨hb.1.sameConnections hs.connections, (hs.sent a (.entry h)).mpr (.inl hb.2)⟩

theorem callsTo_sendBroadcast_other (hk : Keyed t.connections) (hne : b ≠ a) :
    callsTo b h (sendBroadcast stale t a).2 = 0 := by
  refine run_countP_eq_zero (fun t => Keyed t.connections) ?_ ?_ hk
  · exact fun t k hk => hk.sameConnections (sends_sendBroadcastTo stale t a k).connections
  · intro t hk k _
    rcases callsTo_sendBroadcastTo (b := b) (h := h) (a := a) (k := k) hk with hz | ⟨-, he, -⟩
    · exact hz
    · exact absurd he hne

theorem callsTo_sendBroadcast_le (hk : Keyed t.connections) :
    callsTo a h (sendBroadcast stale t a).2 ≤ 1 := by
  refine run_countP_le_one (fun t => Keyed t.connections) h ?_ ?_ ?_ t.connections.nodup hk
  · exact fun t k hk => hk.sameConnections (sends_sendBroadcastTo stale t a k).connections
  · intro t k hk hne
    rcases callsTo_sendBroadcastTo (b := a) (h := h) (a := a) (k := k) hk with hz | ⟨-, -, he, -⟩
    · exact hz
    · exact absurd he hne
  · intro t hk
    rcases callsTo_sendBroadcastTo (b := a) (h := h) (a := a) (k := h) hk with hz | ⟨hone, -⟩
    · exact hz.le.trans (Nat.zero_le 1)
    · exact hone.le

theorem callsTo_sendBroadcast_barred (hb : Barred t b h) :
    callsTo b h (sendBroadcast stale t a).2 = 0 := by
  refine run_countP_eq_zero (fun t => Barred t b h) ?_ ?_ hb
  · exact fun t k hb => hb.sends (sends_sendBroadcastTo stale t a k)
  · intro t hb k _
    rcases callsTo_sendBroadcastTo (b := b) (h := h) (a := a) (k := k) hb.1 with hz | ⟨-, rfl, -,
      hn⟩
    · exact hz
    · exact absurd hb.2 hn

theorem callsTo_targeted (ht : ∀ e ∈ t.targetedPacketsToSendList.entries, e.1 ≠ a) :
    callsTo a h (run (sendTargeted stale) t t.targetedPacketsToSendList.entries).2 = 0 := by
  refine run_countP_eq_zero (fun _ => True) (fun _ _ _ => trivial) (fun u _ item hi => ?_) trivial
  refine callsTo_eq_zero.mpr fun c hm => ht item hi ?_
  exact congrArg Prod.fst (calls_sendTargeted (⟨h, hm⟩ : Calls _ a c)).symm

theorem callsTo_sendPackets (stale : Stale) (h : Handle) (hk : Keyed t.connections)
    (hn : t.broadcastPacketsToSendList.Nodup)
    (ht : ∀ e ∈ t.targetedPacketsToSendList.entries, e.1 ≠ a) :
    callsTo a h (t.sendPackets stale).2 ≤ 1 ∧
      (a ∉ t.broadcastPacketsToSendList → callsTo a h (t.sendPackets stale).2 = 0) ∧
      ((a, .entry h) ∈ t.packetsConnectionsSentList.entries →
        callsTo a h (t.sendPackets stale).2 = 0) := by
  rw [sendPackets_out, callsTo_append, callsTo_targeted ht, Nat.zero_add]
  have hs := sends_run (sends_sendTargeted stale) t t.targetedPacketsToSendList.entries
  have hkt : Keyed (sendTargetedPackets stale t).1.connections := hk.sameConnections hs.connections
  have hstep (u : Tracker) (b : Addr) (hu : Keyed u.connections) :
      Keyed (sendBroadcast stale u b).1.connections :=
    hu.sameConnections (sends_sendBroadcast stale u b).connections
  refine ⟨?_, fun ha => ?_, fun hr => ?_⟩
  · exact run_countP_le_one (fun t => Keyed t.connections) a hstep
      (fun u b hu hne => callsTo_sendBroadcast_other hu hne.symm)
      (fun u hu => callsTo_sendBroadcast_le hu) hn hkt
  · exact run_countP_eq_zero (fun t => Keyed t.connections) hstep
      (fun u hu b hb => callsTo_sendBroadcast_other hu fun he => ha (he ▸ hb)) hkt
  · exact run_countP_eq_zero (fun t => Barred t a h)
      (fun u b hu => hu.sends (sends_sendBroadcast stale u b))
      (fun u hu b _ => callsTo_sendBroadcast_barred hu) ⟨hkt, (hs.sent a _).mpr (.inl hr)⟩

-- ---------------------------------------------------------------------------
-- The invariant
-- ---------------------------------------------------------------------------

/-- What ties the stores, the broadcast list and the sent list to the calls so far. -/
structure Once (t : Tracker) (log : List Effect) : Prop where
  placed : t.Placed
  keyed : Keyed t.connections
  targeted : ∀ e ∈ t.targetedPacketsToSendList.entries, e.1 = t.announceAddr
  nodup : t.broadcastPacketsToSendList.Nodup
  listed : ∀ a ∈ t.broadcastPacketsToSendList, (∃ p, (a, p) ∈ t.stored) ∧ ∀ h, callsTo a h log = 0
  calls : ∀ a c h, .sendPacketToConnection a c h ∈ log → a = t.announceAddr ∨ ∃ p, (a, p) ∈ t.stored
  once : ∀ a p, (a, p) ∈ t.stored → ∀ h, callsTo a h log ≤ 1
  /-- The record of an arrival is kept, and nothing has gone back. -/
  arrived : ∀ a h, .storedNew a (.entry h) ∈ log → (∃ p, (a, p) ∈ t.stored) ∧
    (a, .entry h) ∈ t.packetsConnectionsSentList.entries ∧ callsTo a h log = 0

theorem callsTo_passive (h : ∀ e ∈ out, passive e) : callsTo a k out = 0 :=
  callsTo_eq_zero.mpr fun _ hm => absurd (h _ hm) Bool.false_ne_true

theorem Once.quiet (h : Once t log) (hq : Quiet t u out) : Once u (log ++ out) := by
  have hs := hq.stored
  have ha := hq.announceAddr
  have hcount (a : Addr) (k : Handle) : callsTo a k (log ++ out) = callsTo a k log := by
    rw [callsTo_append, callsTo_passive hq.kinds, Nat.add_zero]
  have hlog {e : Effect} (he : e ∈ log ++ out) (hne : passive e = false) : e ∈ log := by
    rcases List.mem_append.mp he with he | he
    · exact he
    · exact absurd (hq.kinds e he) (by simp [hne])
  refine { placed := h.placed.congr hs ha, keyed := hq.keyed h.keyed, targeted := ?_,
           nodup := hq.broadcast ▸ h.nodup, listed := ?_, calls := ?_, once := ?_, arrived := ?_ }
  · intro e he
    rw [ha]
    exact (hq.targeted e he).elim (h.targeted e) And.left
  · intro a hm
    simp only [hcount, hs]
    exact h.listed a (hq.broadcast ▸ hm)
  · intro a c k hm
    rw [ha, hs]
    exact h.calls a c k (hlog hm rfl)
  · intro a p hm k
    rw [hcount]
    exact h.once a p (hs ▸ hm) k
  · intro a k hm
    obtain ⟨⟨p, hp⟩, hrec, hz⟩ := h.arrived a k (hlog hm rfl)
    rw [hcount, hs]
    exact ⟨⟨p, hp⟩, hq.sent_keep a _ hrec (h.placed.off_announce hp), hz⟩

theorem Once.unsent (h : Once t log) (hf : a ∉ t.announceAddr :: t.stored.map Prod.fst)
    (k : Handle) :
    callsTo a k log = 0 := by
  refine callsTo_eq_zero.mpr fun c hm => ?_
  rcases h.calls a c k hm with he | ⟨q, hq⟩
  · exact hf (he ▸ List.mem_cons_self)
  · exact hf (List.mem_cons_of_mem _ (List.mem_map_of_mem hq))

theorem Once.unlisted (h : Once t log) (hf : a ∉ t.announceAddr :: t.stored.map Prod.fst) :
    a ∉ t.broadcastPacketsToSendList := by
  intro hm
  obtain ⟨⟨q, hq⟩, -⟩ := h.listed a hm
  exact hf (List.mem_cons_of_mem _ (List.mem_map_of_mem hq))

theorem Once.add (h : Once t log) (hadd : t.Adds u a packet) (ha : u.announceAddr = t.announceAddr)
    (hc : u.connections = t.connections)
    (ht : u.targetedPacketsToSendList = t.targetedPacketsToSendList)
    (hb : u.broadcastPacketsToSendList = t.broadcastPacketsToSendList ++ l) (hl : l = [] ∨ l = [a])
    (hr : ∀ e ∈ t.packetsConnectionsSentList.entries, e ∈ u.packetsConnectionsSentList.entries)
    (ho : e = .storedOwn a ∨ ∃ origin, e = .storedNew a origin ∧
      (a, origin) ∈ u.packetsConnectionsSentList.entries) : Once u (log ++ [e]) := by
  have hcall (b : Addr) (c : ConnPtr) (k : Handle) : e ≠ .sendPacketToConnection b c k := by
    rcases ho with rfl | ⟨origin, rfl, -⟩ <;> simp
  have hcount (b : Addr) (k : Handle) : callsTo b k (log ++ [e]) = callsTo b k log := by
    have hz : callsTo b k [e] = 0 :=
      callsTo_eq_zero.mpr fun c hm => hcall b c k (List.mem_singleton.mp hm).symm
    rw [callsTo_append, hz, Nat.add_zero]
  have hstored {b : Addr} {q : Packet} (hq : (b, q) ∈ t.stored) : (b, q) ∈ u.stored :=
    (hadd.mem _).mpr (.inr hq)
  have hunsent := h.unsent hadd.fresh
  refine { placed := hadd.placed h.placed ha, keyed := hc ▸ h.keyed, targeted := ?_, nodup := ?_,
           listed := ?_, calls := ?_, once := ?_, arrived := ?_ }
  · rw [ht, ha]
    exact h.targeted
  · rw [hb]
    rcases hl with rfl | rfl
    · simpa using h.nodup
    · exact List.nodup_append.mpr ⟨h.nodup, List.nodup_singleton a, fun b hb c hc he =>
        h.unlisted hadd.fresh (List.mem_singleton.mp hc ▸ he ▸ hb)⟩
  · intro b hm
    simp only [hcount]
    rw [hb] at hm
    rcases List.mem_append.mp hm with hm | hm
    · obtain ⟨⟨q, hq⟩, hz⟩ := h.listed b hm
      exact ⟨⟨q, hstored hq⟩, hz⟩
    · have hba : b = a := by
        rcases hl with rfl | rfl
        · cases hm
        · exact List.mem_singleton.mp hm
      subst hba
      exact ⟨⟨packet, (hadd.mem _).mpr (.inl rfl)⟩, hunsent⟩
  · intro b c k hm
    rw [ha]
    rcases List.mem_append.mp hm with hm | hm
    · exact (h.calls b c k hm).imp id fun ⟨q, hq⟩ => ⟨q, hstored hq⟩
    · exact absurd (List.mem_singleton.mp hm).symm (hcall b c k)
  · intro b q hm k
    rw [hcount]
    rcases (hadd.mem _).mp hm with he | hq
    · cases he
      exact (hunsent k).le.trans (Nat.zero_le 1)
    · exact h.once b q hq k
  · intro b k hm
    rw [hcount]
    rcases List.mem_append.mp hm with hm | hm
    · obtain ⟨⟨q, hq⟩, hrec, hz⟩ := h.arrived b k hm
      exact ⟨⟨q, hstored hq⟩, hr _ hrec, hz⟩
    · rcases ho with rfl | ⟨origin, rfl, hrec⟩
      · simp at hm
      · cases List.mem_singleton.mp hm
        exact ⟨⟨packet, (hadd.mem _).mpr (.inl rfl)⟩, hrec, hunsent k⟩

theorem Once.sends (h : Once t log) :
    Once (t.sendPackets stale).1 (log ++ (t.sendPackets stale).2) := by
  have hne {a : Addr} {p : Packet} (hp : (a, p) ∈ t.stored) :
      ∀ e ∈ t.targetedPacketsToSendList.entries, e.1 ≠ a :=
    fun e he hea => h.placed.off_announce hp (hea ▸ h.targeted e he)
  have hpass {a : Addr} {p : Packet} (hp : (a, p) ∈ t.stored) (k : Handle) :=
    callsTo_sendPackets stale k h.keyed h.nodup (hne hp)
  obtain ⟨v, targeted, hs, he, hsub⟩ := sendPackets_sends stale t
  have hst : (t.sendPackets stale).1.stored = t.stored := by
    rw [he]
    exact hs.stored
  have han : (t.sendPackets stale).1.announceAddr = t.announceAddr := by
    rw [he]
    obtain ⟨_, _, _, _, rfl⟩ := hs.eq
    rfl
  refine { placed := h.placed.congr hst han, keyed := ?_, targeted := ?_, nodup := ?_, listed := ?_,
           calls := ?_, once := ?_, arrived := ?_ }
  · rw [he]
    exact h.keyed.sameConnections hs.connections
  · intro e hm
    rw [he] at hm
    rw [han]
    exact h.targeted e (hsub e hm)
  · rw [he]
    exact List.nodup_nil
  · intro a hm
    rw [he] at hm
    cases hm
  · intro a c k hm
    rw [han, hst]
    rcases List.mem_append.mp hm with hm | hm
    · exact h.calls a c k hm
    · rcases sendPackets_calls ⟨k, hm⟩ with ht | ⟨hb, -⟩
      · exact .inl (h.targeted _ ht)
      · exact .inr (h.listed a hb).1
  · intro a p hm k
    rw [hst] at hm
    rw [callsTo_append]
    by_cases hb : a ∈ t.broadcastPacketsToSendList
    · rw [(h.listed a hb).2 k, Nat.zero_add]
      exact (hpass hm k).1
    · rw [(hpass hm k).2.1 hb, Nat.add_zero]
      exact h.once a p hm k
  · intro a k hm
    have hlog : .storedNew a (.entry k) ∈ log := by
      rcases List.mem_append.mp hm with hm | hm
      · exact hm
      · exact absurd (hs.kinds _ hm) Bool.false_ne_true
    obtain ⟨⟨p, hp⟩, hrec, hz⟩ := h.arrived a k hlog
    refine ⟨⟨p, hst ▸ hp⟩, ?_, ?_⟩
    · rw [he]
      exact (hs.sent a _).mpr (.inl hrec)
    · rw [callsTo_append, hz, (hpass hp k).2.2 hrec]

theorem Once.outcome (h : Once t log) (ho : Outcome P t i r) (hi : i.event ≠ .cleanupStaleItems) :
    Once r.1 (log ++ r.2) := by
  cases ho with
  | calm hc => exact h.quiet hc.quiet
  | stores _ _ hc hl hs =>
    have hr := hs.receives hl
    have h₀ := h.quiet hc.quiet
    rw [List.append_nil] at h₀
    obtain ⟨_, _, _, _, _, hu⟩ := hr.eq
    refine h₀.add hr.adds ?_ ?_ ?_ (congrArg broadcastPacketsToSendList hu) ?_ ?_
      (.inr ⟨_, rfl, ?_⟩)
    · rw [hu]
    · rw [hu]
    · rw [hu]
    · split
      · exact .inr rfl
      · exact .inl rfl
    · rw [hu]
      exact fun e he => Multimap.mem_emplace.mpr (.inr he)
    · rw [hu]
      exact Multimap.mem_emplace.mpr (.inl rfl)
  | own hs =>
    obtain ⟨_, hu⟩ := hs.eq
    refine h.add hs.adds ?_ ?_ ?_ ?_ (.inr rfl) ?_ (.inl rfl)
    all_goals rw [hu]
    exact fun e he => he
  | drains queue k status _ => exact h.quiet (quiet_sendRawPacket queue t k status)
  | announces ha => exact h.quiet ha.quiet
  | sends _ => exact h.sends
  | cleans he => exact absurd he hi

theorem once_init (addr : Addr) : Once { announceAddr := addr } [] where
  placed := placed_init addr
  keyed := keyed_empty
  targeted _ h := by cases h
  nodup := List.nodup_nil
  listed _ h := by cases h
  calls _ _ _ h := by cases h
  once _ _ h := by cases h
  arrived _ _ h := by cases h

theorem once_run (P : Platform) (addr : Addr) (is : List Input)
    (hi : ∀ i ∈ is, i.event ≠ .cleanupStaleItems) :
    Once (run (step P) { announceAddr := addr } is).1
      (run (step P) { announceAddr := addr } is).2 := by
  have h : Once (run (step P) { announceAddr := addr } is).1
      ([] ++ (run (step P) { announceAddr := addr } is).2) :=
    run_invariant (fun t log i hok h => Once.outcome h (step_outcome P t i) hok) (once_init addr)
      (along_of_forall hi _)
  exact h

/-- A packet goes to every handle at most once, and not back to where it came from. -/
def RelayedOnce (a : Addr) (log : List Effect) : Prop :=
  ∀ h, callsTo a h log ≤ 1 ∧ (.storedNew a (.entry h) ∈ log → callsTo a h log = 0)

theorem Once.relayedOnce (h : Once t log) (hm : (a, p) ∈ t.stored) : RelayedOnce a log :=
  fun k => ⟨h.once a p hm k, fun hn => (h.arrived a k hn).2.2⟩

/-- In every run without cleanup, every stored message and every stored packet is
relayed at most once, and nothing but these and the announce is sent. -/
theorem relayed_at_most_once (P : Platform) (addr : Addr) (is : List Input)
    (hi : ∀ i ∈ is, i.event ≠ .cleanupStaleItems) :
    let t := (run (step P) { announceAddr := addr } is).1
    let log := (run (step P) { announceAddr := addr } is).2
    (∀ id node, (id, node) ∈ t.messages.entries → RelayedOnce node.addr log) ∧
    (∀ hash node, (hash, node) ∈ t.packets.entries → RelayedOnce node.addr log) ∧
    ∀ a c h, .sendPacketToConnection a c h ∈ log → a = t.announceAddr ∨ ∃ p, (a, p) ∈ t.stored := by
  intro t log
  have h : Once t log := once_run P addr is hi
  refine ⟨fun id node hm => ?_, fun hash node hm => ?_, h.calls⟩
  · exact h.relayedOnce (mem_stored.mpr (.inl ⟨id, node.val, hm, rfl⟩))
  · exact h.relayedOnce (mem_stored.mpr (.inr ⟨hash, node.val, hm, rfl⟩))

def twoCentrals : List Event :=
  let fragment : Bytes := [1, 5, 3] ++ List.replicate 9 0 ++ [0, 1] ++ List.replicate 8 0 ++ [0x61]
  [.attConnected 1 [1] .lePublic, .attWrite 1 false .clientConfiguration 0 [1, 0],
    .attConnected 2 [2] .lePublic, .attWrite 2 false .clientConfiguration 0 [1, 0],
    .attWrite 1 false .value 0 fragment, .sendPackets,
    .attWrite 1 false .value 0 fragment, .sendPackets]

theorem relayed_at_most_once_twoCentrals :
    let r := run (step .bare) { announceAddr := 1 } (twoCentrals.map (⟨·, .idle⟩))
    callsTo 0 2 r.2 = 1 ∧ ∀ hash node, (hash, node) ∈ r.1.packets.entries →
    RelayedOnce node.addr r.2 := by
  have hi : ∀ e ∈ twoCentrals, e ≠ .cleanupStaleItems := by decide
  refine ⟨by decide +kernel, (relayed_at_most_once .bare 1 (twoCentrals.map (⟨·, .idle⟩)) ?_).2.1⟩
  intro i hm
  obtain ⟨e, he, rfl⟩ := List.mem_map.mp hm
  exact hi e he

end BitchatRepeater
