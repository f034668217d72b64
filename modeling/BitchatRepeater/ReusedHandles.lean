import BitchatRepeater.Announcing
import BitchatRepeater.Broadcast
import BitchatRepeater.RawQueues
import BitchatRepeater.RepeatedReports

/-!
# Handles used again

The controller hands out connection handles anew once a link is closed. What
the tracker keeps under a handle is spread over the connection record, the two
raw queues, the sent and the targeted list and the peer map, and of these
`reportDisconnection` clears only the last. `reportConnection` replaces the
record if the new peer has been heard advertising, and otherwise goes on with
the old one. So the next link is as good as new just if nothing of all this is
there when the old one is closed.
-/

namespace BitchatRepeater

open Lib Tracker ProtocolProcessor

variable {t u : Tracker} {stale : Stale} {log out : List Effect}

-- ---------------------------------------------------------------------------
-- The order of the connections
-- ---------------------------------------------------------------------------

theorem sorted_edit {m m' : OrdMap Handle BleConnection} (hm : m.Sorted) (h : Edit t e m m') :
    m'.Sorted := by
  cases h with
  | create h hn => exact hm.insert
  | touch h c ht hn hc hv => exact hm.insert
  | change h f hh hv => exact hm.modify
  | report h address addressType now => exact hm.insert
  | settle _ hk hs => exact hm.of_keys hk
  | erase gone => exact hm.eraseIf

theorem sorted_edits {m m' : OrdMap Handle BleConnection} (hm : m.Sorted) (h : Edits t e m m') :
    m'.Sorted := by
  induction h with
  | refl => exact hm
  | tail _ hlast ih => exact sorted_edit ih hlast

theorem sorted_run (P : Platform) (a : Addr) (is : List Input) :
    (run (step P) { announceAddr := a } is).1.connections.Sorted :=
  run_state_invariant (fun t : Tracker => t.connections.Sorted)
    (fun t i _ hs => sorted_edits hs (edits_step P t i)) List.Pairwise.nil (along_true _ _)

-- ---------------------------------------------------------------------------
-- What is kept under a handle
-- ---------------------------------------------------------------------------

/-- The two states differ in nothing but what is kept under `h`. -/
structure DifferOnlyAt (h : Handle) (t u : Tracker) : Prop where
  connections : u.connections.erase h = t.connections.erase h
  handlePeerMap : u.handlePeerMap.erase h = t.handlePeerMap.erase h
  notify : u.rawPacketToNotify.eraseIf (·.1 = h) = t.rawPacketToNotify.eraseIf (·.1 = h)
  write : u.rawPacketToWrite.eraseIf (·.1 = h) = t.rawPacketToWrite.eraseIf (·.1 = h)
  sent : u.packetsConnectionsSentList.eraseIf (·.2 = .entry h) =
    t.packetsConnectionsSentList.eraseIf (·.2 = .entry h)
  targeted : u.targetedPacketsToSendList.eraseIf (·.2 = .entry h) =
    t.targetedPacketsToSendList.eraseIf (·.2 = .entry h)
  rest : u = { t with
    connections := u.connections
    handlePeerMap := u.handlePeerMap
    rawPacketToNotify := u.rawPacketToNotify
    rawPacketToWrite := u.rawPacketToWrite
    packetsConnectionsSentList := u.packetsConnectionsSentList
    targetedPacketsToSendList := u.targetedPacketsToSendList }

/-- What neither a disconnection nor a report of the next connection sets. -/
def carried (c : BleConnection) : LinkState × ServiceUuidCheckStatus × Int :=
  (c.linkState, c.servicesFound, c.rssi)

/-- Nothing is left under `h` that a connection to `address` would take over. -/
structure LeavesNothing (h : Handle) (address : Bytes) (t : Tracker) : Prop where
  record : HasNeighbour address t ∨ carried (t.connectionAt h) = carried {}
  notify : ∀ e ∈ t.rawPacketToNotify.entries, e.1 ≠ h
  write : ∀ e ∈ t.rawPacketToWrite.entries, e.1 ≠ h
  sent : ∀ e ∈ t.packetsConnectionsSentList.entries, e.2 ≠ .entry h
  targeted : ∀ e ∈ t.targetedPacketsToSendList.entries, e.2 ≠ .entry h

def relink (h : Handle) (address : Bytes) (addressType : AddressType) (role : Role)
    (first second : Ambient) : List Input :=
  [⟨.disconnected h, first⟩, ⟨.connectionComplete h address addressType role, second⟩]

theorem get?_of_erase_eq {m m' : OrdMap Handle BleConnection} (h : m.erase k = m'.erase k)
    (hj : j ≠ k) : m.get? j = m'.get? j := by
  have hget (m : OrdMap Handle BleConnection) : (m.erase k).get? j = m.get? j := by
    rw [OrdMap.erase, OrdMap.get?_eraseIf]
    cases m.get? j <;> simp [hj]
  rw [← hget m, h, hget]

def relinked (t : Tracker) (now : UInt64) (h : Handle) (address : Bytes) (addressType : AddressType)
    (role : Role) : BleConnection :=
  { reported now h address addressType ((t.availableNeighbours.get? address).getD
      { t.connectionAt h with notificationEnabled := false, connected := false }) with
    role := role }

theorem relinked_eq (hn : u.availableNeighbours = t.availableNeighbours)
    (hc : HasNeighbour address t ∨ carried (u.connectionAt h) = carried (t.connectionAt h)) :
    relinked u now h address addressType role = relinked t now h address addressType role := by
  unfold relinked
  rw [hn]
  cases hg : t.availableNeighbours.get? address with
  | some n => rfl
  | none =>
    have hc := hc.resolve_left (by simp [HasNeighbour, OrdMap.contains, hg])
    simp only [carried, BleConnection.linkState, Prod.mk.injEq, LinkState.mk.injEq] at hc
    obtain ⟨⟨h₁, h₂, h₃, h₄, h₅⟩, h₆, h₇⟩ := hc
    simp only [Option.getD_none, reported, h₁, h₂, h₃, h₄, h₅, h₆, h₇]

theorem connectionAt_reportConnection (t : Tracker) (now : UInt64) (h : Handle) (address : Bytes)
    (addressType : AddressType) :
    (t.reportConnection now h address addressType).connectionAt h =
      reported now h address addressType
        ((t.availableNeighbours.get? address).getD (t.connectionAt h)) :=
  connectionAt_of_get? OrdMap.get?_insert_self

theorem connectionAt_reportDisconnection : (t.reportDisconnection frame h).1.connectionAt h =
    { t.connectionAt h with notificationEnabled := false, connected := false } :=
  connectionAt_of_get? OrdMap.get?_insert_self

theorem run_relink (P : Platform) (hs : t.connections.Sorted) (h : Handle) (address : Bytes)
    (addressType : AddressType) (role : Role) (first second : Ambient) : ∃ m :
    OrdMap Handle BleConnection, m.Sorted ∧
    (∀ k, m.get? k = if k = h then some (relinked t second.now h address addressType role)
      else t.connections.get? k) ∧
    (run (step P) t (relink h address addressType role first second)).1 = { t with
      connections := m
      availableNeighbours := t.availableNeighbours.erase address
      handlePeerMap := t.handlePeerMap.erase h
      packetsConnectionsSentList := t.packetsConnectionsSentList.eraseIf fun item =>
        item.1 = t.announceAddr && item.2 = .frame first.frame } := by
  refine ⟨_, ?_, fun k => ?_, rfl⟩
  · exact hs.insert.insert.insert
  · simp only [OrdMap.get?_insert]
    split
    · have hr := connectionAt_reportConnection (t.reportDisconnection first.frame h).1 second.now h
        address addressType
      rw [connectionAt_reportDisconnection] at hr
      exact congrArg (fun c : BleConnection => some { c with role := role }) hr
    next hk =>
      simp only [step, reportConnection, reportDisconnection, setConnection,
        OrdMap.get?_insert, if_neg hk]

/-- A state that nothing is left in agrees with the other one on all but the
connection and the peer of `h`. -/
theorem DifferOnlyAt.eq (hd : DifferOnlyAt h t u) (ht : LeavesNothing h address t)
    (hu : LeavesNothing h address' u) :
    u = { t with connections := u.connections, handlePeerMap := u.handlePeerMap } := by
  have hself {κ α : Type} [LinearOrder κ] {m m' : Multimap κ α} {p : κ × α → Bool}
      (h : m'.eraseIf p = m.eraseIf p) (hm : ∀ e ∈ m.entries, p e = false)
      (hm' : ∀ e ∈ m'.entries, p e = false) : m' = m := by
    rwa [Multimap.eraseIf_eq_self hm, Multimap.eraseIf_eq_self hm'] at h
  have hnotify := hself hd.notify (by simpa using ht.notify) (by simpa using hu.notify)
  have hwrite := hself hd.write (by simpa using ht.write) (by simpa using hu.write)
  have hsent := hself hd.sent (by simpa using ht.sent) (by simpa using hu.sent)
  have htargeted := hself hd.targeted (by simpa using ht.targeted) (by simpa using hu.targeted)
  have hrest := hd.rest
  rwa [hnotify, hwrite, hsent, htargeted] at hrest

theorem relink_eq (P : Platform) (addressType : AddressType) (role : Role) (first second : Ambient)
    (hd : DifferOnlyAt h t u) (ht : LeavesNothing h address t)
    (hu : LeavesNothing h address u) (hs : t.connections.Sorted) (hs' : u.connections.Sorted) :
    (run (step P) u (relink h address addressType role first second)).1 =
      (run (step P) t (relink h address addressType role first second)).1 := by
  obtain ⟨m, hm, hg, he⟩ := run_relink P hs h address addressType role first second
  obtain ⟨m', hm', hg', he'⟩ := run_relink P hs' h address addressType role first second
  have hu' := hd.eq ht hu
  have hn : u.availableNeighbours = t.availableNeighbours := by rw [hu']
  have hrecord : relinked u second.now h address addressType role =
      relinked t second.now h address addressType role := by
    refine relinked_eq hn ?_
    rcases ht.record with hr | hr
    · exact .inl hr
    · exact hu.record.imp (fun hr => by rwa [HasNeighbour, hn] at hr) fun hr' => hr'.trans hr.symm
  have hmaps : m' = m := by
    refine hm'.ext hm fun k => ?_
    rw [hg, hg', hrecord]
    split
    · rfl
    next hk => exact get?_of_erase_eq hd.connections hk
  rw [he, he', hmaps, hd.handlePeerMap, hu']

-- ---------------------------------------------------------------------------
-- What a new link is sent
-- ---------------------------------------------------------------------------

def Taught (h : Handle) (heard : List Input) : Prop := ∃ i ∈ heard, teaches h i.event

def CharacteristicIf (h : Handle) (known : Prop) (m : OrdMap Handle BleConnection) : Prop :=
  ∀ c, m.get? h = some c → c.bitchatCharacteristicValueHandle ≠ 0 → known

section CharacteristicIf
variable {known : Prop} {m m' : OrdMap Handle BleConnection}

theorem CharacteristicIf.insert (hm : CharacteristicIf h known m)
    (hc : k = h → c.bitchatCharacteristicValueHandle ≠ 0 → known) :
    CharacteristicIf h known (m.insert k c) := by
  intro c' hc' hv
  rw [OrdMap.get?_insert] at hc'
  split at hc'
  next hk =>
    cases hc'
    exact hc hk.symm hv
  next => exact hm c' hc' hv

theorem CharacteristicIf.edit (hm : CharacteristicIf h known m) (hb : BlankNeighbours t)
    (ht : teaches h e → known) (he : Edit t e m m') : CharacteristicIf h known m' := by
  cases he with
  | create k hn => exact hm.insert fun _ hv => absurd rfl hv
  | touch k c _ _ _ hv => exact hm.insert fun _ hv' => absurd hv hv'
  | change k f _ hv =>
    intro c hc hne
    rw [OrdMap.get?_modify] at hc
    split at hc
    next hk =>
      obtain ⟨c', hc', rfl⟩ := Option.map_eq_some_iff.mp hc
      rcases hv with hv | hv
      · exact hm c' hc' (hv c' ▸ hne)
      · exact ht (hk ▸ hv)
    next => exact hm c hc hne
  | report k address addressType now =>
    refine hm.insert fun hk hne => ?_
    -- neighbours have no characteristic, so it is the one from before
    cases hn : t.availableNeighbours.get? address with
    | some n =>
      have hblank := congrArg LinkState.characteristicValueHandle (hb address n hn)
      rw [hn] at hne
      exact absurd hblank hne
    | none =>
      rw [hn, hk] at hne
      cases hc : m.get? h with
      | none =>
        rw [hc] at hne
        exact absurd rfl hne
      | some c =>
        rw [hc] at hne
        exact hm c hc hne
  | settle _ _ hs =>
    intro c' hc' hne
    obtain ⟨c, hc, he⟩ := Option.map_eq_some_iff.mp ((hs h).symm.trans (by rw [hc']; rfl))
    have hv := congrArg BleConnection.bitchatCharacteristicValueHandle he
    exact hm c hc (hv ▸ hne)
  | erase gone =>
    intro c hc hne
    exact hm c (OrdMap.get?_eq_some.mpr (OrdMap.mem_eraseIf.mp (OrdMap.get?_eq_some.mp hc)).1) hne

theorem CharacteristicIf.edits (hm : CharacteristicIf h known m) (hb : BlankNeighbours t)
    (ht : teaches h e → known) (he : Edits t e m m') : CharacteristicIf h known m' := by
  induction he with
  | refl => exact hm
  | tail _ hlast ih => exact ih.edit hb ht hlast

end CharacteristicIf

/-- All there is for the connection under `h` goes back to what was heard from
it in `heard`, and all its data was queued by the effects `log`. -/
structure OwnOnly (h : Handle) (heard : List Input) (log : List Effect) (t : Tracker) : Prop where
  announcing : Announcing t
  blank : BlankNeighbours t
  characteristic : CharacteristicIf h (Taught h heard) t.connections
  targeted : ∀ a, (a, .entry h) ∈ t.targetedPacketsToSendList.entries → Taught h heard
  queues : ∀ q data, (h, data) ∈ (t.rawQueue q).entries →
    Taught h heard ∧ ∃ a, .queueRaw a q h data ∈ log

theorem sendPackets_reaches (hc : Calls (t.sendPackets stale).2 a c) :
    (a, c) ∈ t.targetedPacketsToSendList.entries ∨ ∃ k, c = .entry k ∧ Available t k := by
  refine (calls_sendPackets hc).imp_right fun hc => ?_
  have h₁ := (sends_run (sends_sendTargeted stale) t
    t.targetedPacketsToSendList.entries).connections
  rw [run_sendBroadcast] at hc
  obtain ⟨before, ⟨p, k⟩, after, -, hc⟩ := calls_run_iff.mp hc
  obtain ⟨rfl, rfl⟩ := calls_sendBroadcastTo hc
  obtain ⟨c, hg, ha, -⟩ := calls_sendBroadcastTo_iff.mp hc
  have h₂ : SameConnections t (run (attempt stale) (sendTargetedPackets stale t).1 before).1 :=
    run_state_invariant (SameConnections t) (fun _ i _ hs => sameConnections_attempt hs i) h₁
      (along_true _ _)
  exact ⟨k, rfl, (available_same h₂).mp ⟨c, hg, ha⟩⟩

theorem Outcome.call_of_queueRaw (ho : Outcome P t i r) (hm : .queueRaw a q k data ∈ r.2) :
    ∃ c, .sendPacketToConnection a c k ∈ r.2 := by
  cases ho with
  | calm hc => exact absurd (hc.kinds _ hm) Bool.false_ne_true
  | drains queue j status =>
    exact absurd ((quiet_sendRawPacket queue t j status).kinds _ hm) Bool.false_ne_true
  | sends =>
    obtain ⟨v, targeted, hs, -, -⟩ := sendPackets_sends i.ambient.stale t
    exact (hs.data a q k data hm).1
  | _ => simp at hm

theorem OwnOnly.taught_of_call (ho : OwnOnly h heard log t)
    (hc : .sendPacketToConnection a c h ∈ (step P t i).2) : Taught h heard := by
  rw [(step_outcome P t i).sends_of_call hc] at hc
  obtain ⟨v, targeted, hs, -, -⟩ := sendPackets_sends i.ambient.stale t
  have hh := hs.handle a c h hc
  rcases sendPackets_reaches ⟨h, hc⟩ with hm | ⟨k, rfl, connection, hg, ha⟩
  · obtain ⟨-, ⟨k, connection, rfl, hg, hk⟩, -⟩ := ho.announcing.targeted _ hm
    rw [derefConnection_entry hg, hk] at hh
    exact ho.targeted a (hh ▸ hm)
  · rw [derefConnection_entry hg, ho.announcing.keyed k connection hg
      (available_connected ha)] at hh
    subst hh
    refine ho.characteristic connection hg fun hz => ?_
    simp [available, hz] at ha

theorem targeted_step (hk : Keyed t.connections)
    (hm : (a, .entry h) ∈ (step P t i).1.targetedPacketsToSendList.entries) :
    (a, .entry h) ∈ t.targetedPacketsToSendList.entries ∨ Available t h := by
  cases hi : visitsLists i.event with
  | false => exact .inl ((stay_step hi).targeted ▸ hm)
  | true =>
    obtain ⟨event, ambient⟩ := i
    cases event with
    | announceToConnections =>
      rcases (mem_announceToConnections P ambient.now ambient.stale hk).mp hm with hm | ⟨-, k,
        he, c, hc, ha, -⟩
      · exact .inl hm
      · cases he
        exact .inr ⟨c, hc, ha⟩
    | sendPackets =>
      obtain ⟨v, targeted, -, he, hsub⟩ := sendPackets_sends ambient.stale t
      simp only [step, he] at hm
      exact .inl (hsub _ hm)
    | cleanupStaleItems => exact .inl (Multimap.mem_eraseIf.mp hm).1
    | _ => cases hi

theorem OwnOnly.step (ho : OwnOnly h heard log t) (P : Platform) (i : Input) :
    OwnOnly h (heard ++ [i]) (log ++ (step P t i).2) (step P t i).1 := by
  have hmore (ht : Taught h heard) : Taught h (heard ++ [i]) := by
    obtain ⟨j, hj, ht⟩ := ht
    exact ⟨j, List.mem_append_left _ hj, ht⟩
  refine ⟨ho.announcing.step P i, blankNeighbours_step P t i ho.blank, ?_, fun a hm => ?_,
    fun q data hm => ?_⟩
  · have hchar : CharacteristicIf h (Taught h (heard ++ [i])) t.connections :=
      fun c hc hv => hmore (ho.characteristic c hc hv)
    exact hchar.edits ho.blank (fun ht => ⟨i, by simp, ht⟩) (edits_step P t i)
  · rcases targeted_step ho.announcing.keyed hm with hm | ⟨c, hc, ha⟩
    · exact hmore (ho.targeted a hm)
    · refine hmore (ho.characteristic c hc fun hz => ?_)
      simp [available, hz] at ha
  · rcases (step_outcome P t i).mem_rawQueue hm with hm | ⟨a, hm⟩
    · obtain ⟨ht, a, ha⟩ := ho.queues q data hm
      exact ⟨hmore ht, a, List.mem_append_left _ ha⟩
    · obtain ⟨c, hc⟩ := (step_outcome P t i).call_of_queueRaw hm
      exact ⟨hmore (ho.taught_of_call hc), a, List.mem_append_right _ hm⟩

def ServedFor (h : Handle) (t : Tracker) (i : Input) : Prop :=
  match (RawOp.event i).callback? with
  | some (queue, k, _) =>
    k = h → (t.rawQueue queue).valuesAt h ≠ [] ∨ ∀ e ∈ (t.rawQueue queue).entries, e.1 ≤ h
  | none => True

instance decidableServedFor : Decidable (ServedFor h t i) :=
  match hc : (RawOp.event i).callback? with
  | some (queue, k, _) =>
    decidable_of_iff (k = h → (t.rawQueue queue).valuesAt h ≠ [] ∨
      ∀ e ∈ (t.rawQueue queue).entries, e.1 ≤ h) (by simp only [ServedFor, hc])
  | none => isTrue (by simp only [ServedFor, hc])

theorem sendRawPacket_handle (hm : .handOver q j w data s ∈ (sendRawPacket queue t k status).2) :
    j = k := by
  cases hl : (t.rawQueue queue).lowerBound k with
  | nil => exact absurd hm (sendRawPacket_idle hl)
  | cons e rest =>
    cases sendRawPacket_handOver_eq hl hm
    rfl

theorem sendRawPacket_own
    (hs : (t.rawQueue queue).valuesAt k ≠ [] ∨ ∀ e ∈ (t.rawQueue queue).entries, e.1 ≤ k)
    (hm : .handOver q j w data s ∈ (sendRawPacket queue t k status).2) :
    (k, data) ∈ (t.rawQueue q).entries := by
  cases hv : (t.rawQueue queue).valuesAt k with
  | nil =>
    exact absurd hm (sendRawPacket_idle (lowerBound_of_served hv (hs.resolve_left fun hn => hn hv)))
  | cons d rest =>
    obtain ⟨es, hl⟩ := Multimap.lowerBound_of_valuesAt hv
    cases sendRawPacket_handOver_eq hl hm
    exact Multimap.mem_valuesAt.mp (hv ▸ List.mem_cons_self)

theorem Outcome.own_of_handOver (ho : Outcome P t i r) (hs : ServedFor h t i)
    (hm : .handOver q h w data s ∈ r.2) : (h, data) ∈ (t.rawQueue q).entries := by
  cases ho with
  | calm hc => exact absurd (hc.kinds _ hm) Bool.false_ne_true
  | drains queue k status hi =>
    obtain rfl := sendRawPacket_handle hm
    have hs' : (t.rawQueue queue).valuesAt h ≠ [] ∨ ∀ e ∈ (t.rawQueue queue).entries, e.1 ≤ h := by
      obtain ⟨event, ambient⟩ := i
      rcases hi with ⟨he, rfl⟩ | ⟨he, rfl⟩
      · cases he
        exact hs rfl
      · cases he
        exact hs rfl
    exact sendRawPacket_own hs' hm
  | sends =>
    obtain ⟨v, targeted, hsends, -, -⟩ := sendPackets_sends i.ambient.stale t
    exact absurd (hsends.kinds _ hm) Bool.false_ne_true
  | _ => simp at hm

-- ---------------------------------------------------------------------------
-- The property
-- ---------------------------------------------------------------------------

def reportsMtu (h : Handle) : Event → Bool
  | .gattMtu k _ => k = h
  | _ => false

/-- Nothing teaches the characteristic of `h` before its MTU is reported. -/
def MtuFirst (h : Handle) : List Input → Prop
  | [] => True
  | i :: is => reportsMtu h i.event ∨ teaches h i.event = false ∧ MtuFirst h is

instance decidableMtuFirst : ∀ is, Decidable (MtuFirst h is)
  | [] => isTrue trivial
  | i :: is =>
    have := decidableMtuFirst (h := h) is
    inferInstanceAs (Decidable (reportsMtu h i.event ∨ teaches h i.event = false ∧ MtuFirst h is))

theorem MtuFirst.reported (hm : MtuFirst h (before ++ after)) (ht : Taught h before) :
    ∃ i ∈ before, reportsMtu h i.event := by
  induction before with
  | nil =>
    obtain ⟨i, hi, -⟩ := ht
    cases hi
  | cons j before ih =>
    rcases hm with hj | ⟨hj, hm⟩
    · exact ⟨j, List.mem_cons_self, hj⟩
    · obtain ⟨i, hi, hteach⟩ := ht
      rcases List.mem_cons.mp hi with rfl | hi
      · rw [hj] at hteach
        cases hteach
      · obtain ⟨k, hk, hr⟩ := ih hm ⟨i, hi, hteach⟩
        exact ⟨k, List.mem_cons_of_mem j hk, hr⟩

def sentTo (h : Handle) : Effect → Bool
  | .sendPacketToConnection _ _ k => k = h
  | .handOver _ k _ _ _ => k = h
  | _ => false

def transmissions (h : Handle) (log : List Effect) : List Effect := log.filter (sentTo h)

/-- What the handle of a new link must not bring along, for the states `t` and
`u` in which the link comes up: the two are sent the same, nothing is handed over
that was not queued since, and nothing is sent before the link has told its
characteristic and its MTU. -/
structure InheritsNothing (P : Platform) (h : Handle) (t u : Tracker)
    (later : List Input) : Prop where
  same : transmissions h (run (step P) u later).2 = transmissions h (run (step P) t later).2
  own : ∀ before i after, later = before ++ i :: after → ∀ q w data s,
    .handOver q h w data s ∈ (step P (run (step P) t before).1 i).2 →
    ∃ a, .queueRaw a q h data ∈ (run (step P) t before).2
  known : ∀ before i after, later = before ++ i :: after →
    ∀ e ∈ (step P (run (step P) t before).1 i).2, sentTo h e →
    Taught h before ∧ ∃ j ∈ before, reportsMtu h j.event

theorem characteristic_relinked (hb : BlankNeighbours t) (hl : LeavesNothing h address t) :
    (relinked t now h address addressType role).bitchatCharacteristicValueHandle = 0 := by
  unfold relinked
  cases hn : t.availableNeighbours.get? address with
  | some n => exact congrArg LinkState.characteristicValueHandle (hb address n hn)
  | none =>
    have hc := hl.record.resolve_left (by simp [HasNeighbour, OrdMap.contains, hn])
    exact congrArg (fun x => LinkState.characteristicValueHandle x.1) hc

theorem ownOnly_relink (P : Platform) (addr : Addr) (is : List Input) (addressType : AddressType)
    (role : Role) (first second : Ambient)
    (hl : LeavesNothing h address (run (step P) { announceAddr := addr } is).1) :
    OwnOnly h [] [] (run (step P) (run (step P) { announceAddr := addr } is).1
      (relink h address addressType role first second)).1 := by
  have hannouncing := announcing_run P addr (is ++ relink h address addressType role first second)
  have hblank := blankNeighbours_run P addr (is ++ relink h address addressType role first second)
  have hold := blankNeighbours_run P addr is
  have hsorted := sorted_run P addr is
  rw [run_append] at hannouncing hblank
  generalize (run (step P) { announceAddr := addr } is).1 = t at *
  obtain ⟨m, -, hg, he⟩ := run_relink P hsorted h address addressType role first second
  refine ⟨hannouncing, hblank, ?_, fun a hm => ?_, fun q data hm => ?_⟩
  · rw [he]
    intro c hc hv
    rw [hg, if_pos rfl] at hc
    cases hc
    exact absurd (characteristic_relinked hold hl) hv
  · rw [he] at hm
    exact absurd rfl (hl.targeted _ hm)
  · rw [he] at hm
    cases q with
    | notify => exact absurd rfl (hl.notify _ hm)
    | write => exact absurd rfl (hl.write _ hm)

/-- A handle used again brings nothing along if nothing was left under it in
either state when the old link was closed, if callbacks for it come with data of
its own, and if its MTU is reported before its characteristic. -/
theorem reusedHandle_inheritsNothing (P : Platform) (addr : Addr) (is is' later : List Input)
    (hd : DifferOnlyAt h (run (step P) { announceAddr := addr } is).1
      (run (step P) { announceAddr := addr } is').1)
    (hl : LeavesNothing h address (run (step P) { announceAddr := addr } is).1)
    (hl' : LeavesNothing h address (run (step P) { announceAddr := addr } is').1)
    (hs : Along (step P) (ServedFor h) (run (step P) (run (step P) { announceAddr := addr } is).1
      (relink h address addressType role first second)).1 later)
    (hmtu : MtuFirst h later) :
    InheritsNothing P h
      (run (step P) (run (step P) { announceAddr := addr } is).1
        (relink h address addressType role first second)).1
      (run (step P) (run (step P) { announceAddr := addr } is').1
        (relink h address addressType role first second)).1 later := by
  have hstart := ownOnly_relink P addr is addressType role first second hl
  have hsame := relink_eq P addressType role first second hd hl hl' (sorted_run P addr is)
    (sorted_run P addr is')
  rw [hsame]
  generalize (run (step P) (run (step P) { announceAddr := addr } is).1
    (relink h address addressType role first second)).1 = t at hs hstart ⊢
  have hown (before : List Input) :
      OwnOnly h before (run (step P) t before).2 (run (step P) t before).1 :=
    run_history (fun heard s log => OwnOnly h heard log s) hstart (fun _ _ _ i ho =>
      ho.step P i) before
  have hover {before i after q w data s} (he : later = before ++ i :: after)
      (hm : .handOver q h w data s ∈ (step P (run (step P) t before).1 i).2) :
      Taught h before ∧ ∃ a, .queueRaw a q h data ∈ (run (step P) t before).2 := by
    subst he
    exact (hown before).queues q data ((step_outcome P _ i).own_of_handOver hs.at_prefix.2 hm)
  refine ⟨rfl, fun before i after he q w data s hm => (hover he hm).2,
    fun before i after he e hm hto => ?_⟩
  have ht : Taught h before := by
    cases e <;> simp only [sentTo, decide_eq_true_eq, Bool.false_eq_true] at hto
    case sendPacketToConnection => exact (hown before).taught_of_call (hto ▸ hm)
    case handOver => exact (hover he (hto ▸ hm)).1
  exact ⟨ht, MtuFirst.reported (he ▸ hmtu) ht⟩

section Example

def newAddress : Bytes := [7, 7, 7, 7, 7, 7]

def subscribe (h : Handle) : Input := ⟨.attWrite h false .clientConfiguration 0 [1, 0], .idle⟩

def oldLink : List Input := linkUp ++ [subscribe 64]

def newLink : List Input :=
  [⟨.gattMtu 64 200, .idle⟩, subscribe 64, ⟨.lifeCheck, .idle⟩, ⟨.sendPackets, .idle⟩,
    ⟨.canSendNotification 64 0, .idle⟩]

theorem inheritsNothing_of_advertised :
    InheritsNothing .bare 64
      (run (step .bare) (run (step .bare) { announceAddr := 0 }
        (oldLink ++ [advertOf newAddress])).1
        (relink 64 newAddress .lePublic .slave .idle .idle)).1
      (run (step .bare) (run (step .bare) { announceAddr := 0 } [advertOf newAddress]).1
        (relink 64 newAddress .lePublic .slave .idle .idle)).1 newLink :=
  reusedHandle_inheritsNothing .bare 0 (oldLink ++ [advertOf newAddress]) [advertOf newAddress]
    newLink
    ⟨rfl, rfl, rfl, rfl, rfl, rfl, rfl⟩
    ⟨.inl (by decide +kernel), by decide +kernel, by decide +kernel, by decide +kernel,
      by decide +kernel⟩
    ⟨.inl (by decide +kernel), by decide +kernel, by decide +kernel, by decide +kernel,
      by decide +kernel⟩
    (by decide +kernel) (by decide)

/-- With the characteristic of the old link still there, a message goes out on
the new one at once; a handle not used before is sent nothing. -/
theorem newLink_sent_to_oldCharacteristic : ¬ ∀ (P : Platform) (addr : Addr)
    (is is' later : List Input)
    (h : Handle) (address : Bytes) (addressType : AddressType) (role : Role)
    (first second : Ambient),
    DifferOnlyAt h (run (step P) { announceAddr := addr } is).1
      (run (step P) { announceAddr := addr } is').1 →
    InheritsNothing P h
      (run (step P) (run (step P) { announceAddr := addr } is).1
        (relink h address addressType role first second)).1
      (run (step P) (run (step P) { announceAddr := addr } is').1
        (relink h address addressType role first second)).1 later := by
  intro h
  have hsame := (h .bare 0 oldLink [] [⟨.lifeCheck, .idle⟩, ⟨.sendPackets, .idle⟩] 64 newAddress
    .lePublic .slave .idle .idle ⟨rfl, rfl, rfl, rfl, rfl, rfl, rfl⟩).same
  revert hsame
  decide +kernel

end Example

end BitchatRepeater
