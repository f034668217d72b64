import BitchatRepeater.ConnectionLaws
import Mathlib.Logic.Relation

/-!
# The handle a connection is stored under

`Edit` lists the changes events make to the connections map, and `edits_step`
says that there are no others. `connectionForConnHandle` enters a connection
with its handle. `connections[handle]` on its own does not: where it finds no
entry it leaves one with handle 0, whatever the handle is that it was asked for.
-/

namespace BitchatRepeater

open Lib Tracker ProtocolProcessor

variable {t u : Tracker} {stale : Stale} {m m' : OrdMap Handle BleConnection}

-- ---------------------------------------------------------------------------
-- Changes to the map
-- ---------------------------------------------------------------------------

def touched (t : Tracker) : Event → List Handle
  | .disconnected h | .canSendNotification h _ | .canWriteWithoutResponse h _ => [h]
  | .getAnyDuplicateHandle =>
    match t.duplicateHandle [] t.handlePeerMap.entries with
    | none => []
    | some (seen, h) => [seen, h]
  | _ => []

def reported (now : UInt64) (h : Handle) (address : Bytes) (addressType : AddressType)
    (c : BleConnection) : BleConnection :=
  { c with
    connectionHandle := h, connected := true, btAddress := address, btAddressType := addressType,
    lastSeenTime := now }

inductive Edit (t : Tracker) (e : Event) :
    OrdMap Handle BleConnection → OrdMap Handle BleConnection → Prop
  | create (m : OrdMap Handle BleConnection) (h : Handle) (hm : m.get? h = none) :
      Edit t e m (m.insert h { connectionHandle := h })
  | touch (m : OrdMap Handle BleConnection) (h : Handle) (c : BleConnection) (ht : h ∈ touched t e)
      (hn : t.connections.get? h = none) (hc : c.connectionHandle = 0)
      (hv : c.bitchatCharacteristicValueHandle = 0) : Edit t e m (m.insert h c)
  | change (m : OrdMap Handle BleConnection) (h : Handle) (f : BleConnection → BleConnection)
      (hh : ∀ c, (f c).connectionHandle = c.connectionHandle)
      (hv : (∀ c, (f c).bitchatCharacteristicValueHandle = c.bitchatCharacteristicValueHandle) ∨
        teaches h e) :
      Edit t e m (m.modify h f)
  | report (m : OrdMap Handle BleConnection) (h : Handle) (address : Bytes)
      (addressType : AddressType) (now : UInt64) :
      Edit t e m (m.insert h (reported now h address addressType
        ((t.availableNeighbours.get? address).getD ((m.get? h).getD {}))))
  | settle (m m' : OrdMap Handle BleConnection) (hk : m'.keys = m.keys)
      (hs : ∀ k, (m'.get? k).map settled = (m.get? k).map settled) : Edit t e m m'
  | erase (m : OrdMap Handle BleConnection) (gone : Handle × BleConnection → Bool) :
      Edit t e m (m.eraseIf gone)

abbrev Edits (t : Tracker) (e : Event) :=
  Relation.ReflTransGen (Edit t e)

theorem edits_connectionForConnHandle (t u : Tracker) (h : Handle) :
    Edits t e u.connections (u.connectionForConnHandle h).connections := by
  unfold connectionForConnHandle
  split
  next => exact .refl
  next hc =>
    have hn : u.connections.get? h = none := by simpa [OrdMap.contains] using hc
    simp only [setConnection, connectionAt, hn]
    exact .single (.create _ h hn)

theorem edits_updateConnection (h : Handle) {f : BleConnection → BleConnection}
    (hh : ∀ c, (f c).connectionHandle = c.connectionHandle)
    (hv : (∀ c, (f c).bitchatCharacteristicValueHandle = c.bitchatCharacteristicValueHandle) ∨
      teaches h e) :
    Edits t e u.connections (u.updateConnection h f).connections :=
  (edits_connectionForConnHandle t u h).tail (.change _ h f hh hv)

theorem edits_setConnection (hc : u.connections.get? h = some c) {f : BleConnection → BleConnection}
    (hh : ∀ c, (f c).connectionHandle = c.connectionHandle)
    (hv : ∀ c, (f c).bitchatCharacteristicValueHandle = c.bitchatCharacteristicValueHandle) :
    Edits t e u.connections (u.setConnection h (f (u.connectionAt h))).connections := by
  simp only [setConnection, connectionAt, hc, Option.getD_some, OrdMap.insert_apply hc]
  exact .single (.change _ h f hh (.inl hv))

theorem edits_touch (ht : h ∈ touched t e) (hsub : u.connections.get? h = none →
      t.connections.get? h = none) {f : BleConnection → BleConnection}
    (hh : ∀ c, (f c).connectionHandle = c.connectionHandle)
    (hv : ∀ c, (f c).bitchatCharacteristicValueHandle = c.bitchatCharacteristicValueHandle) :
    Edits t e u.connections (u.setConnection h (f (u.connectionAt h))).connections := by
  cases hc : u.connections.get? h with
  | none =>
    simp only [setConnection, connectionAt, hc]
    exact .single (.touch _ h _ ht (hsub hc) (hh _) (hv _))
  | some c => exact edits_setConnection hc hh hv

theorem edits_touchConnection (ht : h ∈ touched t e)
    (hsub : u.connections.get? h = none → t.connections.get? h = none) :
    Edits t e u.connections (u.touchConnection h).connections :=
  edits_touch ht hsub (f := id) (fun _ => rfl) fun _ => rfl

theorem connectionAt_touchConnection : (u.touchConnection k).connectionAt h = u.connectionAt h := by
  simp only [touchConnection, setConnection, connectionAt, OrdMap.get?_insert]
  split
  next he => rw [he]; rfl
  next => rfl

theorem get?_touchConnection (h : (u.touchConnection k).connections.get? h' = none) :
    u.connections.get? h' = none := by
  simp only [touchConnection, setConnection, OrdMap.get?_insert] at h
  split at h
  · cases h
  · exact h

theorem connections_setRawQueue : (u.setRawQueue queue q).connections = u.connections := by
  cases queue <;> rfl

theorem connections_handOverFront (queue : RawQueue) (t : Tracker) (h : Handle) (status : UInt8) :
    handOverFront queue t h status = (t, []) ∧ (t.rawQueue queue).lowerBound h = [] ∨
      (handOverFront queue t h status).1.connections = (t.touchConnection h).connections := by
  unfold handOverFront
  split
  next hl => exact .inl ⟨rfl, hl⟩
  next =>
    simp only
    split
    · exact .inr connections_setRawQueue
    · exact .inr rfl

theorem edits_sendRawPacket (ht : h ∈ touched t e) :
    Edits t e t.connections (sendRawPacket queue t h status).1.connections := by
  unfold sendRawPacket
  simp only
  rcases connections_handOverFront queue t h status with ⟨hf, hl⟩ | hf
  · rw [hf]
    simp only [hl, List.isEmpty_nil, if_true]
    exact edits_touchConnection ht id
  · have hedits : Edits t e t.connections (handOverFront queue t h status).1.connections :=
      hf ▸ edits_touchConnection ht id
    split
    · refine hedits.trans (edits_touchConnection ht fun hn => ?_)
      exact get?_touchConnection (hf ▸ hn)
    · exact hedits

theorem edits_getAnyDuplicateHandle (t : Tracker) :
    Edits t .getAnyDuplicateHandle t.connections t.getAnyDuplicateHandle.1.connections := by
  unfold getAnyDuplicateHandle
  split
  · exact .refl
  next seen h hd =>
    have ht : touched t .getAnyDuplicateHandle = [seen, h] := by
      unfold touched
      simp only [hd]
    refine (edits_touchConnection (by simp [ht]) id).trans (edits_touchConnection (by simp [ht]) ?_)
    exact get?_touchConnection

theorem edits_enqueueTargetedPacket (t u : Tracker) (target : BleConnection) :
    Edits t e u.connections (u.enqueueTargetedPacket a ttl target).connections := by
  unfold enqueueTargetedPacket
  split
  · exact edits_connectionForConnHandle t u target.connectionHandle
  · exact .refl

theorem edits_announceTo (t u : Tracker) (now : UInt64) (stale : Stale) (h : Handle) :
    Edits t e u.connections (announceTo now stale u h).connections := by
  unfold announceTo
  split
  · exact .refl
  · split
    · exact edits_enqueueTargetedPacket t { u with
        announce := { u.announce with packetTimestamp := u.getTimeMs now } } _
    · exact .refl

theorem edits_announceToConnections (P : Platform) (now : UInt64) (stale : Stale) (t : Tracker) :
    Edits t e t.connections (t.announceToConnections P now stale).connections := by
  obtain ⟨announce, he, -⟩ := setupAnnounceIfNeeded_eq P t
  unfold announceToConnections
  simp only [he]
  generalize hu : ({ t with announce } : Tracker) = u
  have hc : u.connections = t.connections := by rw [← hu]
  rw [← hc]
  clear hu hc
  generalize u.connections.keys = keys
  induction keys generalizing u with
  | nil => exact .refl
  | cons h keys ih => exact (edits_announceTo t u now stale h).trans (ih _)

theorem processWrite_frame (P : Platform) (ambient : Ambient) (t : Tracker) (origin : ConnPtr)
    (connection : BleConnection) (offset : UInt16) (buffer : Bytes) :
    ∃ peers map time messages packets sent peersSent broadcast,
      (processWrite P ambient t origin connection offset buffer).1 = { t with
        peers := peers
        handlePeerMap := map
        timestampOffsetMs := time
        messages := messages
        packets := packets
        packetsConnectionsSentList := sent
        packetsPeersSentList := peersSent
        broadcastPacketsToSendList := broadcast } := by
  rcases processWrite_cases P ambient t origin connection offset buffer with
    (h | h) | ⟨p, -, ⟨hl, -⟩ | ⟨t', packet, hl, hs, -⟩⟩
  · rw [h]
    exact ⟨_, _, _, _, _, _, _, _, rfl⟩
  · rw [h]
    exact ⟨_, _, _, _, _, _, _, _, rfl⟩
  · obtain ⟨⟨_, _, _, he⟩, -⟩ := hl
    exact ⟨_, _, _, _, _, _, _, _, he⟩
  · obtain ⟨_, _, _, _, _, he⟩ := (hs.receives hl).eq
    exact ⟨_, _, _, _, _, _, _, _, he⟩

theorem edits_adjusts (h : Adjusts P t i r) : Edits t i.event t.connections r.1.connections := by
  cases h with
  | same => exact .refl
  | find h => exact edits_connectionForConnHandle t t h
  | update h hf hv => exact edits_updateConnection h hf.handle hv
  | advertise => exact .refl
  | report h address addressType => exact .single (.report _ h address addressType i.ambient.now)
  | reportRole h address addressType role =>
    have hc := OrdMap.get?_insert_self (m := t.connections) (k := h)
      (v := reported i.ambient.now h address
      addressType ((t.availableNeighbours.get? address).getD ((t.connections.get? h).getD {})))
    refine .head (.report _ h address addressType i.ambient.now) (edits_setConnection
      (u := t.reportConnection i.ambient.now h address addressType) hc (f := fun c =>
        { c with role := role })
      (fun _ => rfl) fun _ => rfl)
  | disconnect h hi =>
    exact edits_touch (u := t) (h := h) (hi ▸ List.mem_singleton.mpr rfl) id
      (f := fun c => { c with notificationEnabled := false, connected := false })
      (fun _ => rfl) fun _ => rfl
  | connect => exact .refl
  | start => exact .refl
  | duplicates hi => exact hi ▸ edits_getAnyDuplicateHandle t

theorem edits_step (P : Platform) (t : Tracker) (i : Input) :
    Edits t i.event t.connections (step P t i).1.connections := by
  cases hi : ordinary i.event with
  | true => exact edits_adjusts (adjusts_step hi)
  | false =>
    obtain ⟨event, ambient⟩ := i
    have hwrite (h : Handle) (origin : ConnPtr) (offset : UInt16) (buffer : Bytes) :
        Edits t event t.connections (processWrite P ambient (t.connectionForConnHandle h) origin
          ((t.connectionForConnHandle h).connectionAt h) offset buffer).1.connections := by
      obtain ⟨_, _, _, _, _, _, _, _, he⟩ :=
        processWrite_frame P ambient (t.connectionForConnHandle h)
        origin ((t.connectionForConnHandle h).connectionAt h) offset buffer
      rw [he]
      exact edits_connectionForConnHandle t t h
    cases event with
    | attWrite h transaction att offset buffer =>
      obtain ⟨rfl, rfl⟩ := attWrite_of_not_ordinary hi
      exact hwrite h _ offset buffer
    | gattNotification h value => exact hwrite h _ 0 value
    | canSendNotification h status => exact edits_sendRawPacket (List.mem_singleton.mpr rfl)
    | canWriteWithoutResponse h status => exact edits_sendRawPacket (List.mem_singleton.mpr rfl)
    | lifeCheck =>
      obtain ⟨_, _, he⟩ := handlePinActivity_frame P ambient t
      simp only [step, he]
      exact .refl
    | announceToConnections => exact edits_announceToConnections P ambient.now ambient.stale t
    | sendPackets =>
      have hs := sendPackets_connections ambient.stale t
      exact .single (.settle _ _ hs.1 hs.2)
    | cleanupStaleItems => exact .single (.erase _ _)
    | _ => cases hi

-- ---------------------------------------------------------------------------
-- Keys and handles
-- ---------------------------------------------------------------------------

/-- Every entry of the map carries the handle it is stored under. -/
def KeyIsHandle (connections : OrdMap Handle BleConnection) : Prop :=
  ∀ e ∈ connections.entries, e.2.connectionHandle = e.1

instance decidableKeyIsHandle : Decidable (KeyIsHandle m) :=
  inferInstanceAs (Decidable (∀ e ∈ m.entries, e.2.connectionHandle = e.1))

/-- Every handle the event looks up by `connections[handle]` has an entry, or is 0. -/
def FindsEntries (t : Tracker) (i : Input) : Prop :=
  ∀ h ∈ touched t i.event, h = 0 ∨ t.connections.contains h

instance decidableFindsEntries : Decidable (FindsEntries t i) :=
  inferInstanceAs (Decidable (∀ h ∈ touched t i.event, h = 0 ∨ t.connections.contains h))

theorem keyIsHandle_iff_get? :
    KeyIsHandle m ↔ ∀ h c, m.get? h = some c → c.connectionHandle = h := by
  simp only [KeyIsHandle, OrdMap.get?_eq_some, Prod.forall]

theorem KeyIsHandle.insert (hm : KeyIsHandle m) (hc : c.connectionHandle = h) :
    KeyIsHandle (m.insert h c) := by
  intro e he
  rcases OrdMap.mem_insert.mp he with rfl | ⟨he, -⟩
  · exact hc
  · exact hm e he

theorem KeyIsHandle.modify (hm : KeyIsHandle m) {f : BleConnection → BleConnection}
    (hf : ∀ c, (f c).connectionHandle = c.connectionHandle) : KeyIsHandle (m.modify h f) := by
  intro e he
  obtain ⟨⟨k, c⟩, hk, rfl⟩ := OrdMap.mem_modify.mp he
  split
  · exact (hf c).trans (hm _ hk)
  · exact hm _ hk

theorem KeyIsHandle.edit (hm : KeyIsHandle m) (h : Edit t e m m')
    (hf : ∀ h ∈ touched t e, h = 0 ∨ t.connections.contains h) : KeyIsHandle m' := by
  cases h with
  | create h hn => exact hm.insert rfl
  | touch h c ht hn hc hv =>
    rcases hf h ht with rfl | hk
    · exact hm.insert hc
    · simp [OrdMap.contains, hn] at hk
  | change h f hh hv => exact hm.modify hh
  | report h address addressType now => exact hm.insert rfl
  | settle _ hk hs =>
    rw [keyIsHandle_iff_get?] at hm ⊢
    intro k c' hc'
    obtain ⟨c, hc, he⟩ := Option.map_eq_some_iff.mp ((hs k).symm.trans (by rw [hc']; rfl))
    exact (connectionHandle_of_settled he).symm.trans (hm k c hc)
  | erase gone => exact fun e he => hm e (OrdMap.mem_eraseIf.mp he).1

theorem KeyIsHandle.edits (hm : KeyIsHandle m) (h : Edits t e m m')
    (hf : ∀ h ∈ touched t e, h = 0 ∨ t.connections.contains h) : KeyIsHandle m' := by
  induction h with
  | refl => exact hm
  | tail _ hlast ih => exact ih.edit hlast hf

theorem connectionHandle_connectionAt (hn : t.connections.contains h = false) :
    (t.connectionAt h).connectionHandle = 0 := by
  have hg : t.connections.get? h = none := by simpa [OrdMap.contains] using hn
  simp [connectionAt, hg]

theorem get?_sendRawPacket (queue : RawQueue) (t : Tracker) (h : Handle) (status : UInt8) :
    (sendRawPacket queue t h status).1.connections.get? h = some (t.connectionAt h) := by
  have htouch : (t.touchConnection h).connections.get? h = some (t.connectionAt h) :=
    OrdMap.get?_insert_self
  unfold sendRawPacket
  simp only
  rcases connections_handOverFront queue t h status with ⟨hf, hl⟩ | hf
  · rw [hf]
    simp only [hl, List.isEmpty_nil, if_true]
    exact htouch
  · rw [← hf] at htouch
    split
    · rw [touchConnection, setConnection, OrdMap.get?_insert_self, connectionAt_of_get? htouch]
    · exact htouch

theorem get?_getAnyDuplicateHandle
    (hd : t.duplicateHandle [] t.handlePeerMap.entries = some (j, k)) (hh : h = j ∨ h = k) :
    t.getAnyDuplicateHandle.1.connections.get? h = some (t.connectionAt h) := by
  have hfirst : (t.touchConnection j).connectionAt h = t.connectionAt h :=
    connectionAt_touchConnection
  simp only [getAnyDuplicateHandle, hd, touchConnection, setConnection,
    OrdMap.get?_insert] at hfirst ⊢
  split
  next he =>
    subst he
    exact congrArg some hfirst
  next hk => rw [if_pos (hh.resolve_right hk), hh.resolve_right hk]

/-- A lookup that finds no entry leaves one with handle 0. -/
theorem touched_step (ht : h ∈ touched t i.event) (hn : t.connections.contains h = false) :
    ∃ c, (step P t i).1.connections.get? h = some c ∧ c.connectionHandle = 0 := by
  have hzero := connectionHandle_connectionAt hn
  obtain ⟨event, ambient⟩ := i
  unfold touched at ht
  cases event <;> simp only [List.mem_singleton, List.not_mem_nil] at ht
  case disconnected k =>
    subst ht
    exact ⟨_, OrdMap.get?_insert_self, hzero⟩
  case canSendNotification k status =>
    subst ht
    exact ⟨_, get?_sendRawPacket .notify t h status, hzero⟩
  case canWriteWithoutResponse k status =>
    subst ht
    exact ⟨_, get?_sendRawPacket .write t h status, hzero⟩
  case getAnyDuplicateHandle =>
    split at ht
    · cases ht
    next seen k hd => exact ⟨_, get?_getAnyDuplicateHandle hd (by simpa using ht), hzero⟩

theorem keyIsHandle_step (P : Platform) (t : Tracker) (i : Input) (hk : KeyIsHandle t.connections) :
    KeyIsHandle (step P t i).1.connections ↔ FindsEntries t i := by
  constructor
  · intro hs h ht
    by_cases hc : t.connections.contains h
    · exact .inr hc
    · obtain ⟨c, hg, hz⟩ := touched_step (P := P) ht (by simpa using hc)
      exact .inl ((keyIsHandle_iff_get?.mp hs h c hg).symm.trans hz)
  · exact fun hf => hk.edits (edits_step P t i) hf

/-- Every connection is stored under its own handle, in every state of a run,
just if no event of the run looks up a handle that has no entry. -/
theorem keyIsHandle_iff_findsEntries (P : Platform) (a : Addr) (is : List Input) :
    (∀ before, before <+: is →
      KeyIsHandle (run (step P) { announceAddr := a } before).1.connections) ↔
      Along (step P) FindsEntries { announceAddr := a } is :=
  forall_prefix_iff_along (fun t : Tracker => KeyIsHandle t.connections) (keyIsHandle_step P)
    fun _ he => nomatch he

def lateCallback : List Input :=
  [⟨.attConnected 64 [1, 2, 3, 4, 5, 6] .lePublic, .idle⟩, ⟨.disconnected 64, .idle⟩,
    ⟨.cleanupStaleItems, { Ambient.idle with now := 601000000 }⟩,
    ⟨.canSendNotification 64 0, .idle⟩]

/-- A callback comes for a connection that was closed and cleaned up. -/
theorem not_keyIsHandle_of_lateCallback : ¬ ∀ (P : Platform) (a : Addr) (is : List Input),
    KeyIsHandle (run (step P) { announceAddr := a } is).1.connections := by
  intro h
  have hk : KeyIsHandle (run (step .bare) { announceAddr := 0 } lateCallback).1.connections :=
    h .bare 0 lateCallback
  revert hk
  decide +kernel

end BitchatRepeater
