import BitchatRepeater.AtMostOnce

/-!
# Relaying in order of arrival

Whatever is cleaned up in between, the packets that go to a handle go there in
the order in which they were stored, and each time one was stored it goes at most
once. Addresses may be used again, so this is said of the sequence of arrivals.
-/

namespace BitchatRepeater

open Lib Tracker

variable {t u : Tracker} {stale : Stale} {log out : List Effect}

def arrivals (log : List Effect) : List Addr :=
  log.filterMap fun
    | .storedNew a _ => some a
    | .storedOwn a => some a
    | _ => none

/-- The packets but for the announce for which `SendPacketToConnection` was called
with the handle. -/
def relayedTo (own : Addr) (h : Handle) (log : List Effect) : List Addr :=
  log.filterMap fun
    | .sendPacketToConnection a _ k => if k = h ∧ a ≠ own then some a else none
    | _ => none

def queuedPackets (own : Addr) (queue : RawQueue) (h : Handle) (log : List Effect) : List Addr :=
  log.filterMap fun
    | .queueRaw a q k _ => if q = queue ∧ k = h ∧ a ≠ own then some a else none
    | _ => none

@[simp] theorem arrivals_append : arrivals (log ++ out) = arrivals log ++ arrivals out :=
  List.filterMap_append

@[simp] theorem relayedTo_append :
    relayedTo a h (log ++ out) = relayedTo a h log ++ relayedTo a h out := List.filterMap_append

@[simp] theorem queuedPackets_append :
    queuedPackets a q h (log ++ out) = queuedPackets a q h log ++ queuedPackets a q h out :=
  List.filterMap_append

theorem mem_relayedTo : a ∈ relayedTo own h log ↔
    a ≠ own ∧ ∃ c, .sendPacketToConnection a c h ∈ log := by
  simp only [relayedTo, List.mem_filterMap]
  constructor
  · rintro ⟨e, he, hs⟩
    cases e with
    | sendPacketToConnection b c k =>
      simp only [Option.ite_none_right_eq_some, Option.some.injEq] at hs
      obtain ⟨⟨rfl, hne⟩, rfl⟩ := hs
      exact ⟨hne, c, he⟩
    | _ => cases hs
  · rintro ⟨hne, c, he⟩
    exact ⟨_, he, by simp [hne]⟩

-- ---------------------------------------------------------------------------
-- One call
-- ---------------------------------------------------------------------------

theorem queuedPackets_sendPacketToConnection (own : Addr) (q : RawQueue) (h : Handle) :
    (queuedPackets own q h (t.sendPacketToConnection a packet target connection).2).Sublist
      (relayedTo own h (t.sendPacketToConnection a packet target connection).2) := by
  unfold sendPacketToConnection
  simp only
  split
  · simp [queuedPackets]
  · by_cases hc : connection.connectionHandle = h ∧ a ≠ own
    · by_cases hq : queueFor connection = q <;> split <;> simp [queuedPackets, relayedTo, hc, hq]
    · split <;> simp [queuedPackets, relayedTo, hc]

theorem queuedPackets_run {step : Tracker → ι → Tracker × List Effect} (own : Addr)
    (q : RawQueue) (h : Handle)
    (hstep : ∀ t i, (queuedPackets own q h (step t i).2).Sublist (relayedTo own h (step t i).2))
    (t : Tracker) (is : List ι) :
    (queuedPackets own q h (run step t is).2).Sublist (relayedTo own h (run step t is).2) := by
  refine run_relation (fun _ _ out => (queuedPackets own q h out).Sublist (relayedTo own h out))
    (fun _ => List.Sublist.refl _) (fun _ _ _ _ _ h₁ h₂ => ?_) (fun t i _ => hstep t i) t
  rw [queuedPackets_append, relayedTo_append]
  exact h₁.append h₂

theorem queuedPackets_sendPackets (own : Addr) (q : RawQueue) (h : Handle) :
    (queuedPackets own q h (t.sendPackets stale).2).Sublist
      (relayedTo own h (t.sendPackets stale).2) := by
  rw [sendPackets_out, queuedPackets_append, relayedTo_append]
  refine List.Sublist.append (queuedPackets_run own q h (fun t item => ?_) t _)
    (queuedPackets_run own q h (fun t a => queuedPackets_run own q h (fun t k => ?_) t _) _ _)
  · unfold sendTargeted
    simp only
    split
    · exact List.Sublist.refl _
    · exact queuedPackets_sendPacketToConnection own q h
  · unfold sendBroadcastTo
    split
    · exact List.Sublist.refl _
    · split
      · exact queuedPackets_sendPacketToConnection own q h
      · exact List.Sublist.refl _

-- ---------------------------------------------------------------------------
-- One pass of sendPackets
-- ---------------------------------------------------------------------------

theorem count_relayedTo (hne : a ≠ own) (h : Handle) (log : List Effect) :
    (relayedTo own h log).count a = callsTo a h log := by
  induction log with
  | nil => rfl
  | cons e log ih =>
    rw [← List.singleton_append, relayedTo_append, callsTo_append, List.count_append, ih]
    congr 1
    cases e with
    | sendPacketToConnection b c k =>
      by_cases hk : k = h <;> by_cases hb : b = a <;> by_cases ho : b = own <;>
        simp_all [relayedTo, callsTo, isCallTo]
    | _ => rfl

theorem relayedTo_sendBroadcast (hk : Keyed t.connections) (own : Addr) (h : Handle) :
    (relayedTo own h (sendBroadcast stale t p).2).Sublist [p] := by
  have hall : ∀ a ∈ relayedTo own h (sendBroadcast stale t p).2, a = p := by
    intro a ha
    obtain ⟨-, c, hcall⟩ := mem_relayedTo.mp ha
    by_contra hne
    exact callsTo_eq_zero.mp (callsTo_sendBroadcast_other hk hne) c hcall
  cases hr : relayedTo own h (sendBroadcast stale t p).2 with
  | nil => exact List.nil_sublist [p]
  | cons a rest =>
    rw [hr] at hall
    obtain ⟨rfl, hrest⟩ := List.forall_mem_cons.mp hall
    have hne : a ≠ own := (mem_relayedTo.mp (hr ▸ List.mem_cons_self)).1
    have hcount : callsTo a h (sendBroadcast stale t a).2 ≤ 1 := callsTo_sendBroadcast_le hk
    rw [← count_relayedTo hne, hr, List.count_cons_self] at hcount
    have hnone : a ∉ rest := List.count_eq_zero.mp (by omega)
    cases rest with
    | nil => exact List.Sublist.refl _
    | cons b rest => exact absurd (hrest b List.mem_cons_self ▸ List.mem_cons_self) hnone

theorem relayedTo_broadcastPass (hk : Keyed t.connections) (own : Addr) (h : Handle)
    (packets : List Addr) :
    (relayedTo own h (run (sendBroadcast stale) t packets).2).Sublist packets := by
  induction packets generalizing t with
  | nil => exact List.nil_sublist _
  | cons p packets ih =>
    rw [run, relayedTo_append]
    exact (relayedTo_sendBroadcast hk own h).append
      (ih (hk.sameConnections (sends_sendBroadcast stale t p).connections))

theorem relayedTo_sendPackets (hk : Keyed t.connections)
    (ht : ∀ e ∈ t.targetedPacketsToSendList.entries, e.1 = own) (h : Handle) :
    (relayedTo own h (t.sendPackets stale).2).Sublist t.broadcastPacketsToSendList := by
  have hs := sends_run (sends_sendTargeted stale) t t.targetedPacketsToSendList.entries
  have htargeted : relayedTo own h (run (sendTargeted stale) t
      t.targetedPacketsToSendList.entries).2 = [] := by
    refine List.eq_nil_iff_forall_not_mem.mpr fun a ha => ?_
    obtain ⟨hne, c, hcall⟩ := mem_relayedTo.mp ha
    refine hne (calls_run (fun a _ => a = own) (fun u item hi b d hc => ?_) t a c ⟨h, hcall⟩)
    have hitem := ht item hi
    rwa [← calls_sendTargeted hc] at hitem
  have hkt : Keyed (sendTargetedPackets stale t).1.connections := hk.sameConnections hs.connections
  rw [sendPackets_out, relayedTo_append, htargeted, List.nil_append]
  exact relayedTo_broadcastPass hkt own h _

-- ---------------------------------------------------------------------------
-- Runs
-- ---------------------------------------------------------------------------

/-- What was relayed and what is still listed are in the order of arrival. -/
structure Ordered (own : Addr) (t : Tracker) (log : List Effect) : Prop where
  announceAddr : t.announceAddr = own
  keyed : Keyed t.connections
  targeted : ∀ e ∈ t.targetedPacketsToSendList.entries, e.1 = own
  relayed : ∀ h, (relayedTo own h log ++ t.broadcastPacketsToSendList).Sublist (arrivals log)
  queued : ∀ q h, (queuedPackets own q h log).Sublist (relayedTo own h log)

theorem relayedTo_passive (h : ∀ e ∈ out, passive e) : relayedTo own k out = [] := by
  refine List.filterMap_eq_nil_iff.mpr fun e he => ?_
  have hp := h e he
  cases e <;> first | rfl | cases hp

theorem queuedPackets_passive (h : ∀ e ∈ out, passive e) : queuedPackets own q k out = [] := by
  refine List.filterMap_eq_nil_iff.mpr fun e he => ?_
  have hp := h e he
  cases e <;> first | rfl | cases hp

theorem Ordered.quiet (h : Ordered own t log) (hq : Quiet t u out) :
    Ordered own u (log ++ out) where
  announceAddr := hq.announceAddr.trans h.announceAddr
  keyed := hq.keyed h.keyed
  targeted e he := (hq.targeted e he).elim (h.targeted e) fun he => he.1.trans h.announceAddr
  relayed k := by
    rw [relayedTo_append, relayedTo_passive hq.kinds, List.append_nil, hq.broadcast,
      arrivals_append]
    exact (h.relayed k).trans (List.sublist_append_left _ _)
  queued q k := by
    rw [relayedTo_append, relayedTo_passive hq.kinds, queuedPackets_append,
      queuedPackets_passive hq.kinds, List.append_nil, List.append_nil]
    exact h.queued q k

/-- A packet that is stored arrives, and is listed last if at all. -/
theorem Ordered.add (h : Ordered own t log) (ha : u.announceAddr = t.announceAddr)
    (hc : u.connections = t.connections)
    (ht : u.targetedPacketsToSendList = t.targetedPacketsToSendList)
    (hb : u.broadcastPacketsToSendList = t.broadcastPacketsToSendList ++ l) (hl : l.Sublist [a])
    (ho : e = .storedOwn a ∨ ∃ origin, e = .storedNew a origin) : Ordered own u (log ++ [e]) where
  announceAddr := ha.trans h.announceAddr
  keyed := hc ▸ h.keyed
  targeted := ht ▸ h.targeted
  relayed k := by
    have harrives : arrivals [e] = [a] ∧ relayedTo own k [e] = [] := by
      rcases ho with rfl | ⟨origin, rfl⟩ <;> exact ⟨rfl, rfl⟩
    rw [relayedTo_append, arrivals_append, harrives.1, harrives.2, List.append_nil,
      hb, ← List.append_assoc]
    exact (h.relayed k).append hl
  queued q k := by
    have hnone : queuedPackets own q k [e] = [] ∧ relayedTo own k [e] = [] := by
      rcases ho with rfl | ⟨origin, rfl⟩ <;> exact ⟨rfl, rfl⟩
    rw [queuedPackets_append, relayedTo_append, hnone.1, hnone.2, List.append_nil, List.append_nil]
    exact h.queued q k

theorem Ordered.sends (h : Ordered own t log) :
    Ordered own (t.sendPackets stale).1 (log ++ (t.sendPackets stale).2) := by
  obtain ⟨v, targeted, hs, he, hsub⟩ := sendPackets_sends stale t
  have harrivals : arrivals (t.sendPackets stale).2 = [] := by
    refine List.filterMap_eq_nil_iff.mpr fun e hm => ?_
    have hk := hs.kinds e hm
    cases e <;> first | rfl | cases hk
  refine ⟨?_, ?_, ?_, fun k => ?_, fun q k => ?_⟩
  · rw [he]
    obtain ⟨_, _, _, _, rfl⟩ := hs.eq
    exact h.announceAddr
  · rw [he]
    exact h.keyed.sameConnections hs.connections
  · rw [he]
    exact fun e hm => h.targeted e (hsub e hm)
  · have hlist : (t.sendPackets stale).1.broadcastPacketsToSendList = [] := by rw [he]
    rw [hlist, List.append_nil, relayedTo_append, arrivals_append, harrivals, List.append_nil]
    exact ((List.Sublist.refl _).append (relayedTo_sendPackets h.keyed h.targeted k)).trans
      (h.relayed k)
  · rw [queuedPackets_append, relayedTo_append]
    exact (h.queued q k).append (queuedPackets_sendPackets own q k)

theorem Keyed.eraseIf {connections : OrdMap Handle BleConnection} (h : Keyed connections)
    (gone : Handle × BleConnection → Bool) : Keyed (connections.eraseIf gone) := by
  intro k c hk
  rw [OrdMap.get?_eq_some, OrdMap.mem_eraseIf, ← OrdMap.get?_eq_some] at hk
  exact h k c hk.1

theorem Ordered.outcome (h : Ordered own t log) (ho : Outcome P t i r) :
    Ordered own r.1 (log ++ r.2) := by
  cases ho with
  | calm hc => exact h.quiet hc.quiet
  | stores _ _ hc hl hs =>
    have hr := hs.receives hl
    have h₀ := h.quiet hc.quiet
    rw [List.append_nil] at h₀
    obtain ⟨_, _, _, _, _, hu⟩ := hr.eq
    refine h₀.add ?_ ?_ ?_ (congrArg broadcastPacketsToSendList hu) ?_ (.inr ⟨_, rfl⟩)
    · rw [hu]
    · rw [hu]
    · rw [hu]
    · split
      · exact List.Sublist.refl _
      · exact List.nil_sublist _
  | own hs =>
    obtain ⟨_, hu⟩ := hs.eq
    refine h.add ?_ ?_ ?_ ?_ (List.Sublist.refl _) (.inl rfl)
    all_goals rw [hu]
  | drains queue k status _ => exact h.quiet (quiet_sendRawPacket queue t k status)
  | announces ha => exact h.quiet ha.quiet
  | sends _ => exact h.sends
  | cleans _ =>
    refine ⟨h.announceAddr, ?_, fun e he => h.targeted e (Multimap.mem_eraseIf.mp he).1,
      fun k => ?_, ?_⟩
    · exact h.keyed.eraseIf _
    · rw [List.append_nil]
      exact ((List.Sublist.refl _).append List.filter_sublist).trans (h.relayed k)
    · rw [List.append_nil]
      exact h.queued

/-- In every run, cleanups included, the packets that go to a handle go in the order
in which they were stored, no more often than that, and data is queued in that order. -/
theorem relayed_in_order (P : Platform) (own : Addr) (is : List Input) (h : Handle) :
    (relayedTo own h (run (step P) { announceAddr := own } is).2).Sublist
        (arrivals (run (step P) { announceAddr := own } is).2) ∧
      ∀ q, (queuedPackets own q h (run (step P) { announceAddr := own } is).2).Sublist
        (relayedTo own h (run (step P) { announceAddr := own } is).2) := by
  have hinit : Ordered own { announceAddr := own } [] :=
    ⟨rfl, keyed_empty, fun _ he => (nomatch he), fun _ => List.Sublist.refl _,
      fun _ _ => List.Sublist.refl _⟩
  have hrun := run_invariant (fun t log i _ h => Ordered.outcome h (step_outcome P t i)) hinit
    (along_true _ is)
  exact ⟨(List.sublist_append_left _ _).trans (hrun.relayed h), fun q => hrun.queued q h⟩

end BitchatRepeater
