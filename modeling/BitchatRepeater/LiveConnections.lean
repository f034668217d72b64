import BitchatRepeater.ConnectionLaws

/-!
# Dangling connection pointers

Two lists hold pointers to connections. A write by a client passes the address
of the map entry on, and the cleanup that removes a connection removes the list
entries that point to it as well. A notification is handled on a copy of the
connection, whose address ends up in the sent list when the packet is new.
-/

namespace BitchatRepeater

open Lib Tracker ProtocolProcessor

variable {t u : Tracker} {stale : Stale} {out : List Effect}

-- ---------------------------------------------------------------------------
-- The property
-- ---------------------------------------------------------------------------

def heldConnections (t : Tracker) : List ConnPtr :=
  t.packetsConnectionsSentList.entries.map Prod.snd ++
    t.targetedPacketsToSendList.entries.map Prod.snd

def RefersTo (t : Tracker) : ConnPtr → Prop
  | .entry h => t.connections.contains h
  | .frame _ => False

instance decidableRefersTo : Decidable (RefersTo t c) :=
  match c with
  | .entry h => inferInstanceAs (Decidable (t.connections.contains h))
  | .frame _ => inferInstanceAs (Decidable False)

/-- Every pointer is to an entry of the connections map. -/
def LiveConnections (t : Tracker) : Prop := ∀ c ∈ heldConnections t, RefersTo t c

instance decidableLiveConnections : Decidable (LiveConnections t) :=
  inferInstanceAs (Decidable (∀ c ∈ heldConnections t, RefersTo t c))

/-- If the step is a notification, then its packet is not one to be stored. -/
def NotifiesNothingNew (P : Platform) (t : Tracker) (i : Input) : Prop :=
  ∀ h value p, i.event = .gattNotification h value → readPacket P.inflate 0 value = .packet p →
    ¬ Fresh P t p

theorem mem_heldConnections : c ∈ heldConnections t ↔
    (∃ a, (a, c) ∈ t.packetsConnectionsSentList.entries) ∨
      ∃ a, (a, c) ∈ t.targetedPacketsToSendList.entries := by
  simp [heldConnections]

theorem refersTo_entry : RefersTo t (.entry k) ↔ ∃ c, t.connections.get? k = some c :=
  Option.isSome_iff_exists

theorem RefersTo.stay (h : RefersTo t c) (hs : Stay t u) : RefersTo u c := by
  cases c with
  | frame a => exact h
  | entry k =>
    obtain ⟨c, hc⟩ := refersTo_entry.mp h
    obtain ⟨c', hc', -⟩ := hs.connections k c hc
    exact refersTo_entry.mpr ⟨c', hc'⟩

theorem RefersTo.sameConnections (h : RefersTo t c) (hs : SameConnections t u) : RefersTo u c := by
  cases c with
  | frame a => exact h
  | entry k =>
    rw [refersTo_entry, ← OrdMap.mem_keys] at h ⊢
    rwa [hs.1]

-- ---------------------------------------------------------------------------
-- Steps
-- ---------------------------------------------------------------------------

theorem refersTo_connectionForConnHandle (t : Tracker) (h : Handle) :
    RefersTo (t.connectionForConnHandle h) (.entry h) := by
  unfold connectionForConnHandle
  split
  next hc => exact hc
  next => exact refersTo_entry.mpr ⟨_, OrdMap.get?_insert_self⟩

theorem refersTo_attWrite (he : i.event = .attWrite h false .value offset buffer) :
    RefersTo (step P t i).1 (.entry h) := by
  simp only [step, he, attWriteCallback]
  exact (refersTo_connectionForConnHandle t h).stay (stay_processWrite ..)

theorem live_other (h : LiveConnections t) (hi : visitsLists i.event = false)
    (hn : NotifiesNothingNew P t i) : LiveConnections (step P t i).1 := by
  have hstay : Stay t (step P t i).1 := stay_step hi
  intro c hc
  rcases mem_heldConnections.mp hc with ⟨a, hm⟩ | ⟨a, hm⟩
  · rcases sent_step hi hm with hm | ⟨-, offset, buffer, p, harr, hr, hf⟩
    · exact (h c (mem_heldConnections.mpr (.inl ⟨a, hm⟩))).stay hstay
    · rcases harr with ⟨k, he, rfl⟩ | ⟨k, he, rfl, rfl⟩
      · exact refersTo_attWrite he
      · exact absurd hf (hn k buffer p he hr)
  · rw [hstay.targeted] at hm
    exact (h c (mem_heldConnections.mpr (.inr ⟨a, hm⟩))).stay hstay

theorem live_announceToConnections (h : LiveConnections t) (hk : Keyed t.connections) :
    LiveConnections (t.announceToConnections P now stale) := by
  have hconn := (enqueues_announceToConnections P now stale hk).connections
  have hsent := (announces_announceToConnections P now stale t).quiet.sent_sub
  have hold (c : ConnPtr) (hc : RefersTo t c) :
      RefersTo (t.announceToConnections P now stale) c := by
    cases c with
    | frame a => exact hc
    | entry k =>
      rw [RefersTo, hconn]
      exact hc
  intro c hc
  rcases mem_heldConnections.mp hc with ⟨a, hm⟩ | ⟨a, hm⟩
  · exact hold c (h c (mem_heldConnections.mpr (.inl ⟨a, hsent _ hm⟩)))
  · rcases (mem_announceToConnections P now stale hk).mp hm with hm | ⟨-, k, rfl, c', hc', -⟩
    · exact hold c (h c (mem_heldConnections.mpr (.inr ⟨a, hm⟩)))
    · exact hold _ (refersTo_entry.mpr ⟨c', hc'⟩)

theorem calls_sendBroadcast (h : Calls (sendBroadcast stale t p).2 a c) :
    ∃ k ∈ t.connections.keys, c = .entry k := by
  refine calls_run (fun _ c => ∃ k ∈ t.connections.keys,
    c = .entry k) (fun u k hk b d hc => ?_) t a c h
  exact ⟨k, hk, (calls_sendBroadcastTo hc).2⟩

theorem sendPackets_targets (h : Calls (t.sendPackets stale).2 a c) :
    (a, c) ∈ t.targetedPacketsToSendList.entries ∨ RefersTo t c := by
  refine (calls_sendPackets h).imp_right fun h => ?_
  obtain ⟨before, p, after, -, hp⟩ := calls_run_iff.mp h
  obtain ⟨k, hk, rfl⟩ := calls_sendBroadcast hp
  -- the passes before have left the keys as they were
  have h₁ := sends_run (sends_sendTargeted stale) t t.targetedPacketsToSendList.entries
  have h₂ := sends_run (sends_sendBroadcast stale) (sendTargetedPackets stale t).1 before
  have hkeys : _ = t.connections.keys := h₂.connections.1.trans h₁.connections.1
  rw [refersTo_entry, ← OrdMap.mem_keys]
  exact hkeys ▸ hk

theorem live_sendPackets (h : LiveConnections t) : LiveConnections (t.sendPackets stale).1 := by
  have hsame := sendPackets_connections stale t
  obtain ⟨v, targeted, hs, he, hsub⟩ := sendPackets_sends stale t
  intro c hc
  refine RefersTo.sameConnections (t := t) ?_ hsame
  rw [he] at hc
  rcases mem_heldConnections.mp hc with ⟨a, hm⟩ | ⟨a, hm⟩
  · rcases (hs.sent a c).mp hm with hm | hm
    · exact h c (mem_heldConnections.mpr (.inl ⟨a, hm⟩))
    · rcases sendPackets_targets hm with hm | hr
      · exact h c (mem_heldConnections.mpr (.inr ⟨a, hm⟩))
      · exact hr
  · exact h c (mem_heldConnections.mpr (.inr ⟨a, hsub _ hm⟩))

/-- The test on list entries covers the test on connections. -/
theorem live_cleanup (h : LiveConnections t) :
    LiveConnections (t.cleanupStaleItems stale time) := by
  have hkept (a : Addr) (c : ConnPtr) (hr : RefersTo t c)
      (hf : t.packetConnectionStale stale (t.getTimeMs time) (a, c) = false) :
      RefersTo (t.cleanupStaleItems stale time) c := by
    cases c with
    | frame b => exact hr
    | entry k =>
      obtain ⟨c, hc⟩ := refersTo_entry.mp hr
      simp only [packetConnectionStale, derefConnection_entry hc, Bool.or_eq_false_iff] at hf
      exact refersTo_entry.mpr ⟨c, get?_cleanup hc hf.2⟩
  intro c hc
  rcases mem_heldConnections.mp hc with ⟨a, hm⟩ | ⟨a, hm⟩
  · obtain ⟨hm, hf⟩ := Multimap.mem_eraseIf.mp hm
    exact hkept a c (h c (mem_heldConnections.mpr (.inl ⟨a, hm⟩))) hf
  · obtain ⟨hm, hf⟩ := Multimap.mem_eraseIf.mp hm
    exact hkept a c (h c (mem_heldConnections.mpr (.inr ⟨a, hm⟩))) hf

theorem live_step (h : LiveConnections t) (hk : Keyed t.connections)
    (hn : NotifiesNothingNew P t i) :
    LiveConnections (step P t i).1 := by
  cases hi : visitsLists i.event with
  | false => exact live_other h hi hn
  | true =>
    obtain ⟨event, ambient⟩ := i
    cases event with
    | announceToConnections => exact live_announceToConnections h hk
    | sendPackets => exact live_sendPackets h
    | cleanupStaleItems => exact live_cleanup h
    | _ => cases hi

-- ---------------------------------------------------------------------------
-- Runs
-- ---------------------------------------------------------------------------

theorem live_run (h : LiveConnections t) (hk : Keyed t.connections)
    (hn : Along (step P) (NotifiesNothingNew P) t is) : LiveConnections (run (step P) t is).1 := by
  have hboth := run_state_invariant (fun t => LiveConnections t ∧ Keyed t.connections)
    (fun t i hi ht => ⟨live_step ht.1 ht.2 hi, ht.2.outcome (step_outcome P t i)⟩) ⟨h, hk⟩ hn
  exact hboth.1

theorem sent_of_storedNew (h : .storedNew a c ∈ (dispatch P ambient t origin connection p).2) :
    (a, c) ∈ (dispatch P ambient t origin connection p).1.packetsConnectionsSentList.entries := by
  have hh : Handled P ambient.place origin p t (dispatch P ambient t origin connection p) :=
    dispatch_handled
  rcases hh with ⟨-, ho⟩ | ⟨t', packet, hl, hs, ho⟩
  · rw [ho] at h
    cases h
  · rw [ho, List.mem_singleton] at h
    cases h
    obtain ⟨_, _, _, _, _, hu⟩ := (hs.receives hl).eq
    rw [hu]
    exact Multimap.mem_emplace.mpr (.inl rfl)

/-- A notification with a new packet leaves the address of the copy behind. -/
theorem not_live_notification (he : i.event = .gattNotification h value)
    (hr : readPacket P.inflate 0 value = .packet p) (hf : Fresh P t p) :
    ¬ LiveConnections (step P t i).1 := by
  intro hlive
  have hq := (calm_connectionForConnHandle t h).quiet
  obtain ⟨a, ha⟩ := (hf.congr hq.messages hq.packets).stored i.ambient (.frame i.ambient.frame)
    ((t.connectionForConnHandle h).connectionAt h)
  simp only [step, he, valueUpdate, processWrite, hr] at hlive
  exact hlive _ (mem_heldConnections.mpr (.inl ⟨a, sent_of_storedNew ha⟩))

/-- No connection pointer dangles throughout a run exactly if no notification in
it brings a packet to be stored. -/
theorem liveConnections_iff (P : Platform) (addr : Addr) (is : List Input) :
    (∀ before after, is = before ++ after →
      LiveConnections (run (step P) { announceAddr := addr } before).1) ↔
    Along (step P) (NotifiesNothingNew P) { announceAddr := addr } is := by
  constructor
  · intro h
    refine along_of_prefixes fun before i after he _ k value p hi hr hf => ?_
    have hnext := h (before ++ [i]) after (by rw [he, List.append_assoc]; rfl)
    rw [run_snoc] at hnext
    exact not_live_notification hi hr hf hnext
  · rintro h before after rfl
    refine live_run (fun c hc => ?_) keyed_empty (along_append.mp h).1
    cases hc

theorem notified_fragment_dangles :
    ¬ LiveConnections (run (step .bare) { announceAddr := 1 }
      [⟨.gattNotification 1 earlyBytes, .idle⟩]).1 := by
  decide +kernel

end BitchatRepeater
