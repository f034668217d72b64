import BitchatRepeater.ConnectionKeys

/-!
# Repeated reports of one connection

A link is reported up to three times: by the LE meta event, by the GAP meta
event and by the ATT server. A report looks for the address among the available
neighbours first. If an advertisement of the peer has been heard in the
meantime, the record of the neighbour takes the place of the connection, and
what was learned on the link is gone: neighbours have nothing of that kind.
-/

namespace BitchatRepeater

open Lib Tracker ProtocolProcessor

variable {t u : Tracker}

-- ---------------------------------------------------------------------------
-- Link state
-- ---------------------------------------------------------------------------

/-- What a connection learns on its link. -/
structure LinkState where
  mtu : UInt16
  serviceStartGroupHandle : UInt16
  serviceEndGroupHandle : UInt16
  characteristicValueHandle : UInt16
  hasData : Bool
  deriving DecidableEq, Repr

def LinkState.blank : LinkState := ⟨0, 0, 0, 0, false⟩

def BleConnection.linkState (c : BleConnection) : LinkState :=
  ⟨c.btMtu, c.bitchatServiceStartGroupHandle, c.bitchatServiceEndGroupHandle,
    c.bitchatCharacteristicValueHandle, c.hasDataToSend⟩

/-- The handle has a connection to this address. -/
structure ConnectedTo (t : Tracker) (h : Handle) (address : Bytes) (c : BleConnection) : Prop where
  entry : t.connections.get? h = some c
  connected : c.connected
  address : c.btAddress = address

def Reports (e : Event) (h : Handle) (address : Bytes) : Prop :=
  (∃ addressType, e = .attConnected h address addressType) ∨
    ∃ addressType role, e = .connectionComplete h address addressType role

def advertises : Event → Bool
  | .advertisingReport .. => true
  | _ => false

def offers (address : Bytes) : Event → Bool
  | .advertisingReport a _ services _ => a = address && services ≠ .serviceUUIDNotFound
  | _ => false

def HasNeighbour (address : Bytes) (t : Tracker) : Prop := t.availableNeighbours.contains address

instance decidableHasNeighbour : Decidable (HasNeighbour address t) :=
  inferInstanceAs (Decidable (t.availableNeighbours.contains address))

-- ---------------------------------------------------------------------------
-- Neighbours
-- ---------------------------------------------------------------------------

def BlankNeighbours (t : Tracker) : Prop :=
  ∀ address n, t.availableNeighbours.get? address = some n → n.linkState = .blank

theorem BlankNeighbours.congr (h : BlankNeighbours t)
    (hu : u.availableNeighbours = t.availableNeighbours) : BlankNeighbours u := by
  rw [BlankNeighbours, hu]
  exact h

theorem BlankNeighbours.erase (h : BlankNeighbours t) {gone : Bytes × BleConnection → Bool}
    (hu : u.availableNeighbours = t.availableNeighbours.eraseIf gone) : BlankNeighbours u := by
  intro address n hn
  rw [hu, OrdMap.get?_eq_some, OrdMap.mem_eraseIf] at hn
  exact h address n (OrdMap.get?_eq_some.mpr hn.1)

theorem BlankNeighbours.addAvailablePeer (h : BlankNeighbours t) :
    BlankNeighbours (t.addAvailablePeer now address addressType services rssi) := by
  intro a n hn
  simp only [Tracker.addAvailablePeer, OrdMap.get?_insert] at hn
  split at hn
  · cases hn
    cases hg : t.availableNeighbours.get? address with
    | none => rfl
    | some c => exact h address c hg
  · exact h a n hn

theorem neighbours_connectionForConnHandle (t : Tracker) (h : Handle) :
    (t.connectionForConnHandle h).availableNeighbours = t.availableNeighbours := by
  obtain ⟨_, he⟩ := connectionForConnHandle_eq t h
  rw [he]

theorem BlankNeighbours.adjusts (hb : BlankNeighbours t) (h : Adjusts P t i r) :
    BlankNeighbours r.1 := by
  cases h with
  | same => exact hb
  | find h => exact hb.congr (neighbours_connectionForConnHandle t h)
  | update h => exact hb.congr (neighbours_connectionForConnHandle t h)
  | advertise => exact hb.addAvailablePeer
  | report => exact hb.erase rfl
  | reportRole => exact hb.erase rfl
  | disconnect => exact hb.congr rfl
  | connect => exact hb
  | start => exact hb.erase rfl
  | duplicates =>
    unfold getAnyDuplicateHandle
    split
    · exact hb
    · exact hb.congr rfl

theorem blankNeighbours_step (P : Platform) (t : Tracker) (i : Input) (hb : BlankNeighbours t) :
    BlankNeighbours (step P t i).1 := by
  cases hi : ordinary i.event with
  | true => exact hb.adjusts (adjusts_step hi)
  | false =>
    obtain ⟨event, ambient⟩ := i
    have hwrite (h : Handle) (origin : ConnPtr) (offset : UInt16) (buffer : Bytes) :
        BlankNeighbours (processWrite P ambient (t.connectionForConnHandle h) origin
          ((t.connectionForConnHandle h).connectionAt h) offset buffer).1 := by
      obtain ⟨_, _, _, _, _, _, _, _, he⟩ :=
        processWrite_frame P ambient (t.connectionForConnHandle h)
        origin ((t.connectionForConnHandle h).connectionAt h) offset buffer
      rw [he]
      exact hb.congr (neighbours_connectionForConnHandle t h)
    cases event with
    | attWrite h transaction att offset buffer =>
      obtain ⟨rfl, rfl⟩ := attWrite_of_not_ordinary hi
      exact hwrite h _ offset buffer
    | gattNotification h value => exact hwrite h _ 0 value
    | canSendNotification h status =>
      obtain ⟨_, _, _, he⟩ := (drains_sendRawPacket .notify t h status).eq
      exact hb.congr (congrArg availableNeighbours he :)
    | canWriteWithoutResponse h status =>
      obtain ⟨_, _, _, he⟩ := (drains_sendRawPacket .write t h status).eq
      exact hb.congr (congrArg availableNeighbours he :)
    | lifeCheck =>
      obtain ⟨_, _, he⟩ := handlePinActivity_frame P ambient t
      exact hb.congr (congrArg availableNeighbours he :)
    | announceToConnections =>
      obtain ⟨_, _, _, he⟩ := (announces_announceToConnections P ambient.now ambient.stale t).eq
      exact hb.congr (congrArg availableNeighbours he :)
    | sendPackets =>
      obtain ⟨v, targeted, hs, he, -⟩ := sendPackets_sends ambient.stale t
      obtain ⟨_, _, _, _, hv⟩ := hs.eq
      refine hb.congr ?_
      simp only [step, he, hv]
    | cleanupStaleItems => exact hb.erase rfl
    | _ => cases hi

theorem blankNeighbours_run (P : Platform) (a : Addr) (is : List Input) :
    BlankNeighbours (run (step P) { announceAddr := a } is).1 :=
  run_state_invariant BlankNeighbours (fun t i _ hb => blankNeighbours_step P t i hb)
    (fun _ _ hn => nomatch hn) (along_true _ _)

-- ---------------------------------------------------------------------------
-- Advertisements and reports
-- ---------------------------------------------------------------------------

theorem hasNeighbour_advert (ha : advertises i.event) (address : Bytes) :
    HasNeighbour address (step P t i).1 ↔ HasNeighbour address t ∨ offers address i.event := by
  obtain ⟨event, ambient⟩ := i
  cases event <;> try cases ha
  case advertisingReport a addressType services rssi =>
    simp only [step, offers, HasNeighbour]
    split
    next hs => simp [hs]
    next hs =>
      simp only [Tracker.addAvailablePeer, OrdMap.contains, OrdMap.get?_insert]
      by_cases he : address = a
      · simp [he, hs]
      · simp [he, Ne.symm he]

theorem hasNeighbour_adverts (hads : ∀ i ∈ ads, advertises i.event) (address : Bytes) :
    HasNeighbour address (run (step P) t ads).1 ↔
      HasNeighbour address t ∨ ∃ i ∈ ads, offers address i.event :=
  run_accumulates (fun _ => True) (fun _ _ _ => trivial)
    (fun _ _ i hi => hasNeighbour_advert (hads i hi) address) trivial

theorem connections_advert (ha : advertises i.event) (t : Tracker) :
    (step P t i).1.connections = t.connections := by
  obtain ⟨event, ambient⟩ := i
  cases event <;> try cases ha
  case advertisingReport =>
    simp only [step]
    split <;> rfl

theorem connections_adverts (hads : ∀ i ∈ ads, advertises i.event) (t : Tracker) :
    (run (step P) t ads).1.connections = t.connections :=
  run_state_invariant (fun u => u.connections = t.connections)
    (fun u _ ha hu => (connections_advert ha u).trans hu) rfl (along_of_forall hads t)

/-- A report puts the neighbour's record in the place of the connection's. -/
theorem linkState_report (hi : Reports i.event h address) (P : Platform) (t : Tracker) :
    ((step P t i).1.connections.get? h).map BleConnection.linkState =
      some ((t.availableNeighbours.get? address).getD (t.connectionAt h)).linkState := by
  rcases hi with ⟨addressType, he⟩ | ⟨addressType, role, he⟩
  · simp only [step, he, reportConnection, OrdMap.get?_insert_self]
    rfl
  · simp only [step, he, reportConnectionRole, setConnection, connectionAt, reportConnection,
      OrdMap.get?_insert_self]
    rfl

/-- In a reachable state with a connection under `h`, after any advertisements,
a further report of the connection keeps its link state just if the address is
not an available neighbour, or if there is nothing to keep. -/
theorem linkState_kept_iff (P : Platform) (a : Addr) (is ads : List Input) (i : Input)
    (hc : ConnectedTo (run (step P) { announceAddr := a } is).1 h address c)
    (hads : ∀ ad ∈ ads, advertises ad.event) (hi : Reports i.event h address) :
    ((run (step P) (run (step P) { announceAddr := a } is).1 (ads ++ [i])).1.connections.get? h).map
        BleConnection.linkState = some c.linkState ↔
      (¬ HasNeighbour address (run (step P) { announceAddr := a } is).1 ∧
        ∀ ad ∈ ads, ¬ offers address ad.event) ∨ c.linkState = .blank := by
  have hblank : BlankNeighbours (run (step P) (run (step P) { announceAddr := a } is).1 ads).1 := by
    have hrun := blankNeighbours_run P a (is ++ ads)
    rwa [run_append] at hrun
  generalize (run (step P) { announceAddr := a } is).1 = t at hc hblank ⊢
  have hconn : (run (step P) t ads).1.connectionAt h = c := by
    refine connectionAt_of_get? ?_
    rw [connections_adverts hads]
    exact hc.entry
  have hoffers : (¬ HasNeighbour address t ∧ ∀ ad ∈ ads, ¬ offers address ad.event) ↔
      ¬ HasNeighbour address (run (step P) t ads).1 := by
    rw [hasNeighbour_adverts hads, not_or, not_exists]
    simp only [not_and]
  rw [run_snoc, linkState_report hi, hconn, hoffers]
  cases hn : (run (step P) t ads).1.availableNeighbours.get? address with
  | none => simp [HasNeighbour, OrdMap.contains, hn]
  | some n =>
    simp only [HasNeighbour, OrdMap.contains, hn, Option.isSome_some, not_true_eq_false, false_or,
      Option.getD_some, Option.some_inj, hblank address n hn]
    exact eq_comm

section Example

def peerAddress : Bytes := [1, 2, 3, 4, 5, 6]

def linkUp : List Input :=
  [⟨.connectionComplete 64 peerAddress .lePublic .slave, .idle⟩, ⟨.gattMtu 64 185, .idle⟩]

def linkReport : Input := ⟨.attConnected 64 peerAddress .lePublic, .idle⟩

def advertOf (address : Bytes) : Input :=
  ⟨.advertisingReport address .lePublic .serviceUUIDFound (-60), .idle⟩

def linkedConnection : BleConnection :=
  { connectionHandle := 64, btAddress := peerAddress, btAddressType := .lePublic, btMtu := 185,
    connected := true, role := .slave }

theorem connectedTo_linkUp :
    ConnectedTo (run (step .bare) { announceAddr := 0 } linkUp).1 64 peerAddress linkedConnection :=
  ⟨by decide +kernel, rfl, rfl⟩

theorem linkState_kept_of_other_advert :
    ((run (step .bare) (run (step .bare) { announceAddr := 0 } linkUp).1
      ([advertOf [7, 7, 7, 7, 7, 7]] ++ [linkReport])).1.connections.get? 64).map
        BleConnection.linkState =
      some ⟨185, 0, 0, 0, false⟩ :=
  (linkState_kept_iff .bare 0 linkUp [advertOf [7, 7, 7, 7, 7, 7]] linkReport connectedTo_linkUp
    (by decide) (.inl ⟨.lePublic, rfl⟩)).mpr (.inl (by decide +kernel))

/-- The peer advertises between two reports of its connection, and the MTU is lost. -/
theorem linkState_lost_of_own_advert : ¬ ∀ (P : Platform) (a : Addr)
    (is ads : List Input) (i : Input) (h : Handle) (address : Bytes) (c : BleConnection),
    ConnectedTo (run (step P) { announceAddr := a } is).1 h address c →
    (∀ ad ∈ ads, advertises ad.event) → Reports i.event h address →
    ((run (step P) (run (step P) { announceAddr := a } is).1 (ads ++ [i])).1.connections.get? h).map
      BleConnection.linkState = some c.linkState := by
  intro h
  have hkept := h .bare 0 linkUp [advertOf peerAddress] linkReport 64 peerAddress linkedConnection
    connectedTo_linkUp (by decide) (.inl ⟨.lePublic, rfl⟩)
  revert hkept
  decide +kernel

end Example

end BitchatRepeater
