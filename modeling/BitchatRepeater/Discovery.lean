import BitchatRepeater.ConnectionAttempts
import BitchatRepeater.RepeatedReports
import BitchatRepeater.TrackerRuns

/-!
# The search for the characteristic

Where a query ends and the peer has the service but not its characteristic, the
program asks the stack for the characteristics of the service. The service it
names is the one which that peer reported last (`discovers_reported_service`).
-/

namespace BitchatRepeater

open Lib Tracker ProtocolProcessor

def BleConnection.foundService (c : BleConnection) : Option GattService :=
  if c.bitchatServiceStartGroupHandle > 0 then
    some { uuid16 := 0
           uuid128 := bitchatServiceUuid
           startGroupHandle := c.bitchatServiceStartGroupHandle
           endGroupHandle := c.bitchatServiceEndGroupHandle }
  else none

def GattService.isBitchat (s : GattService) : Prop := s.uuid16 = 0 ∧ s.uuid128 = bitchatServiceUuid

/-- Of the reports of the service on this link the last is `s`. -/
def LastNamed (es : List Event) (h : Handle) (s : GattService) : Prop :=
  ∃ before after, es = before ++ .gattServiceQueryResult h s :: after ∧ s.isBitchat ∧
    ∀ s', s'.isBitchat → .gattServiceQueryResult h s' ∉ after

theorem foundService_congr {c c' : BleConnection}
    (hs : c'.bitchatServiceStartGroupHandle = c.bitchatServiceStartGroupHandle)
    (he : c'.bitchatServiceEndGroupHandle = c.bitchatServiceEndGroupHandle) :
    c'.foundService = c.foundService := by
  unfold BleConnection.foundService
  rw [hs, he]

theorem foundService_of_blank {c : BleConnection} (hc : c.linkState = .blank) :
    c.foundService = none := by
  have hs : c.bitchatServiceStartGroupHandle = 0 := congrArg LinkState.serviceStartGroupHandle hc
  simp [BleConnection.foundService, hs]

theorem needToDiscover_eq_some {c : BleConnection} :
    c.canAndNeedToDiscoverBitchatCharacteristicsQuery = some s ↔
      c.foundService = some s ∧ c.bitchatCharacteristicValueHandle = 0 := by
  unfold BleConnection.canAndNeedToDiscoverBitchatCharacteristicsQuery BleConnection.foundService
  by_cases hs : c.bitchatServiceStartGroupHandle > 0 <;>
    by_cases hv : c.bitchatCharacteristicValueHandle = 0 <;> simp [hs, hv]

theorem foundService_stored {c : BleConnection} {service s : GattService} (hi : service.isBitchat)
    (hs : (c.storeHandlesIfServiceMatches service).foundService = some s) : s = service := by
  unfold BleConnection.storeHandlesIfServiceMatches at hs
  rw [if_pos hi.2] at hs
  unfold BleConnection.foundService at hs
  split at hs
  · cases hs
    rw [← hi.1, ← hi.2]
  · cases hs

-- ---------------------------------------------------------------------------
-- Changes to the map
-- ---------------------------------------------------------------------------

def Remembers (m m' : OrdMap Handle BleConnection) : Prop :=
  ∀ h c' s, m'.get? h = some c' → c'.foundService = some s →
  ∃ c, m.get? h = some c ∧ c.foundService = some s

section Remembers

variable {t u : Tracker} {m m' m'' : OrdMap Handle BleConnection} {c : BleConnection} {h : Handle}

theorem Remembers.refl (m : OrdMap Handle BleConnection) : Remembers m m :=
  fun _ c _ hc hs => ⟨c, hc, hs⟩

theorem Remembers.trans (hm : Remembers m m') (hm' : Remembers m' m'') : Remembers m m'' := by
  intro h c'' s hc'' hs
  obtain ⟨c', hc', hs'⟩ := hm' h c'' s hc'' hs
  exact hm h c' s hc' hs'

theorem remembers_insert (hc : ∀ s, c.foundService = some s → ∃ c', m.get? h = some c' ∧
    c'.foundService = some s) :
    Remembers m (m.insert h c) := by
  intro k c' s hc' hs
  rw [OrdMap.get?_insert] at hc'
  split at hc'
  next hk =>
    cases hc'
    exact hk ▸ hc s hs
  next => exact ⟨c', hc', hs⟩

theorem remembers_modify {f : BleConnection → BleConnection}
    (hf : ∀ c, (f c).foundService = c.foundService) :
    Remembers m (m.modify h f) := by
  intro k c' s hc' hs
  rw [OrdMap.get?_modify] at hc'
  split at hc'
  · obtain ⟨c, hc, rfl⟩ := Option.map_eq_some_iff.mp hc'
    exact ⟨c, hc, hf c ▸ hs⟩
  · exact ⟨c', hc', hs⟩

theorem remembers_connectionForConnHandle (t : Tracker) (h : Handle) :
    Remembers t.connections (t.connectionForConnHandle h).connections := by
  unfold connectionForConnHandle
  split
  · exact .refl _
  next hn =>
    have hnone : t.connections.get? h = none := by simpa [OrdMap.contains] using hn
    refine remembers_insert fun s hs => ?_
    simp [connectionAt, hnone, BleConnection.foundService] at hs

theorem remembers_updateConnection (t : Tracker) (h : Handle) {f : BleConnection → BleConnection}
    (hf : ∀ c, (f c).foundService = c.foundService) :
    Remembers t.connections (t.updateConnection h f).connections :=
  (remembers_connectionForConnHandle t h).trans (remembers_modify hf)

theorem remembers_setConnection (hc : c.foundService = (t.connectionAt h).foundService) :
    Remembers t.connections (t.setConnection h c).connections := by
  refine remembers_insert fun s hs => ?_
  rw [hc] at hs
  cases hg : t.connections.get? h with
  | none => simp [connectionAt, hg, BleConnection.foundService] at hs
  | some c' =>
    rw [connectionAt, hg] at hs
    exact ⟨c', rfl, hs⟩

theorem remembers_touchConnection (t : Tracker) (h : Handle) :
    Remembers t.connections (t.touchConnection h).connections := remembers_setConnection rfl

theorem remembers_reportConnection (hb : BlankNeighbours t) (now : UInt64) (h : Handle)
    (address : Bytes) (addressType : AddressType) :
    Remembers t.connections (t.reportConnection now h address addressType).connections := by
  cases hn : t.availableNeighbours.get? address with
  | none =>
    refine remembers_setConnection (t := t) ?_
    simp only [hn, Option.getD_none]
    exact foundService_congr rfl rfl
  | some n =>
    refine remembers_insert fun s hs => ?_
    have hnone := foundService_of_blank (hb address n hn)
    rw [hn] at hs
    have hsame : n.foundService = some s := Eq.trans (foundService_congr rfl rfl) hs
    rw [hnone] at hsame
    cases hsame

theorem remembers_sendRawPacket (queue : RawQueue) (t : Tracker) (h : Handle) (status : UInt8) :
    Remembers t.connections (sendRawPacket queue t h status).1.connections := by
  have hfront : Remembers t.connections (handOverFront queue t h status).1.connections := by
    rcases connections_handOverFront queue t h status with ⟨hf, -⟩ | hf
    · rw [hf]
      exact .refl _
    · rw [hf]
      exact remembers_touchConnection t h
  unfold sendRawPacket
  simp only
  split
  · exact hfront.trans (remembers_touchConnection _ h)
  · exact hfront

theorem remembers_getAnyDuplicateHandle (t : Tracker) :
    Remembers t.connections t.getAnyDuplicateHandle.1.connections := by
  unfold getAnyDuplicateHandle
  split
  · exact .refl _
  · exact (remembers_touchConnection t _).trans (remembers_touchConnection _ _)

theorem remembers_enqueueTargetedPacket (t : Tracker) (packet : Addr) (ttl : UInt8)
    (target : BleConnection) :
    Remembers t.connections (t.enqueueTargetedPacket packet ttl target).connections := by
  unfold enqueueTargetedPacket
  split
  · exact remembers_connectionForConnHandle t _
  · exact .refl _

theorem remembers_announceTo (now : UInt64) (stale : Stale) (t : Tracker) (h : Handle) :
    Remembers t.connections (announceTo now stale t h).connections := by
  unfold announceTo
  split
  · exact .refl _
  · split
    · exact remembers_enqueueTargetedPacket { t with
        announce := { t.announce with packetTimestamp := t.getTimeMs now } } _ _ _
    · exact .refl _

theorem remembers_announceToConnections (P : Platform) (now : UInt64) (stale : Stale)
    (t : Tracker) :
    Remembers t.connections (t.announceToConnections P now stale).connections := by
  obtain ⟨announce, he, -⟩ := setupAnnounceIfNeeded_eq P t
  have hloop (keys : List Handle) (u : Tracker) :
      Remembers u.connections (keys.foldl (announceTo now stale) u).connections := by
    induction keys generalizing u with
    | nil => exact .refl _
    | cons h keys ih => exact (remembers_announceTo now stale u h).trans (ih _)
  unfold announceToConnections
  rw [he]
  exact hloop _ { t with announce }

theorem remembers_settled (hm : ∀ k, (m'.get? k).map settled = (m.get? k).map settled) :
    Remembers m m' := by
  intro h c' s hc' hs
  obtain ⟨c, hc, he⟩ := Option.map_eq_some_iff.mp ((hm h).symm.trans (by rw [hc']; rfl))
  have hsame : c'.foundService = c.foundService :=
    foundService_congr (congrArg BleConnection.bitchatServiceStartGroupHandle he).symm
      (congrArg BleConnection.bitchatServiceEndGroupHandle he).symm
  exact ⟨c, hc, hsame ▸ hs⟩

theorem remembers_eraseIf (gone : Handle × BleConnection → Bool) :
    Remembers m (m.eraseIf gone) := by
  intro h c s hc hs
  exact ⟨c, OrdMap.get?_eq_some.mpr (OrdMap.mem_eraseIf.mp (OrdMap.get?_eq_some.mp hc)).1, hs⟩

end Remembers

-- ---------------------------------------------------------------------------
-- Steps and runs of the tracker
-- ---------------------------------------------------------------------------

section Runs

variable {t : Tracker} {i : Input} {h : Handle} {s : GattService} {es : List Event}

def names (h : Handle) : Event → Prop
  | .gattServiceQueryResult k service => k = h ∧ service.isBitchat
  | _ => False

theorem remembers_processWrite (P : Platform) (ambient : Ambient) (t : Tracker) (h : Handle)
    (origin : ConnPtr) (offset : UInt16) (buffer : Bytes) :
    Remembers t.connections (processWrite P ambient (t.connectionForConnHandle h) origin
      ((t.connectionForConnHandle h).connectionAt h) offset buffer).1.connections := by
  obtain ⟨_, _, _, _, _, _, _, _, he⟩ :=
    processWrite_frame P ambient (t.connectionForConnHandle h) origin
    ((t.connectionForConnHandle h).connectionAt h) offset buffer
  rw [he]
  exact remembers_connectionForConnHandle t h

theorem remembers_step (P : Platform) (hb : BlankNeighbours t)
    (hi : ∀ h service, i.event ≠ .gattServiceQueryResult h service) :
    Remembers t.connections (step P t i).1.connections := by
  obtain ⟨event, ambient⟩ := i
  cases event with
  | attWrite h transaction att offset buffer =>
    simp only [step, attWriteCallback]
    split
    · exact .refl _
    · cases att with
      | clientConfiguration =>
        refine remembers_updateConnection t h fun c => ?_
        unfold setClientConfiguration
        simp only
        split <;> exact foundService_congr rfl rfl
      | value => exact remembers_processWrite P ambient t h _ offset buffer
      | other => exact remembers_connectionForConnHandle t h
  | gattNotification h value => exact remembers_processWrite P ambient t h _ 0 value
  | gattMtu h mtu => exact remembers_updateConnection t h fun _ => foundService_congr rfl rfl
  | gattServiceQueryResult h service => exact absurd rfl (hi h service)
  | gattCharacteristicQueryResult h characteristic =>
    refine remembers_updateConnection t h fun c => ?_
    unfold BleConnection.storeHandlesIfCharacteristicMatches
    split
    · split <;> exact foundService_congr rfl rfl
    · rfl
  | gattQueryComplete h => exact remembers_connectionForConnHandle t h
  | rssiMeasurement h => exact remembers_connectionForConnHandle t h
  | advertisingReport address addressType services rssi =>
    simp only [step]
    split <;> exact .refl _
  | connectionComplete h address addressType role =>
    exact (remembers_reportConnection hb ambient.now h address addressType).trans
      (remembers_setConnection (foundService_congr rfl rfl))
  | attConnected h address addressType =>
    exact remembers_reportConnection hb ambient.now h address addressType
  | disconnected h => exact remembers_setConnection (t := t) (foundService_congr rfl rfl)
  | canSendNotification h status => exact remembers_sendRawPacket .notify t h status
  | canWriteWithoutResponse h status => exact remembers_sendRawPacket .write t h status
  | lifeCheck =>
    obtain ⟨_, _, he⟩ := handlePinActivity_frame P ambient t
    simp only [step, he]
    exact .refl _
  | announceToConnections => exact remembers_announceToConnections P ambient.now ambient.stale t
  | connectToFirstNeighbour err =>
    simp only [step, BitchatRepeater.connectToFirstNeighbour]
    split
    · exact .refl _
    · split
      · exact .refl _
      · split <;> exact .refl _
  | getAnyDuplicateHandle => exact remembers_getAnyDuplicateHandle t
  | sendPackets => exact remembers_settled (sendPackets_connections ambient.stale t).2
  | cleanupStaleItems => exact remembers_eraseIf _

theorem found_of_report {service : GattService} {c' : BleConnection}
    (hc' : (t.updateConnection k fun c =>
      if service.uuid16 = 0 then c.storeHandlesIfServiceMatches service else c).connections.get? h =
        some c')
    (hs : c'.foundService = some s) : k = h ∧ service.isBitchat ∧ s = service ∨
      ¬ (k = h ∧ service.isBitchat) ∧ ∃ c, t.connections.get? h = some c ∧
      c.foundService = some s := by
  have hold (hn : ¬ (k = h ∧ service.isBitchat))
    (hc' : (t.connectionForConnHandle k).connections.get? h = some c') :=
    And.intro hn (remembers_connectionForConnHandle t k h c' s hc' hs)
  simp only [updateConnection, OrdMap.get?_modify] at hc'
  split at hc'
  next hk =>
    obtain ⟨c, hc, rfl⟩ := Option.map_eq_some_iff.mp hc'
    by_cases hz : service.uuid16 = 0
    · rw [if_pos hz] at hs hold
      by_cases hu : service.uuid128 = bitchatServiceUuid
      · exact .inl ⟨hk.symm, ⟨hz, hu⟩, foundService_stored ⟨hz, hu⟩ hs⟩
      · refine .inr (hold (fun hn => hu hn.2.2) ?_)
        rw [BleConnection.storeHandlesIfServiceMatches, if_neg hu]
        exact hc
    · rw [if_neg hz] at hs hold
      exact .inr (hold (fun hn => hz hn.2.1) hc)
  next hk => exact .inr (hold (fun hn => hk hn.1.symm) hc')

theorem found_step (P : Platform) (hb : BlankNeighbours t) {c' : BleConnection}
    (hc' : (step P t i).1.connections.get? h = some c') (hs : c'.foundService = some s) :
    i.event = .gattServiceQueryResult h s ∧ s.isBitchat ∨
      ¬ names h i.event ∧ ∃ c, t.connections.get? h = some c ∧ c.foundService = some s := by
  by_cases hi : ∃ k service, i.event = .gattServiceQueryResult k service
  · obtain ⟨k, service, hi⟩ := hi
    have hstep : (step P t i).1 = t.updateConnection k fun c =>
        if service.uuid16 = 0 then c.storeHandlesIfServiceMatches service else c := by
      unfold step
      rw [hi]
    rw [hstep] at hc'
    rw [hi]
    rcases found_of_report hc' hs with ⟨rfl, hb, rfl⟩ | h
    · exact .inl ⟨rfl, hb⟩
    · exact .inr h
  · have hno (k : Handle) (service : GattService) : i.event ≠ .gattServiceQueryResult k service :=
      fun he => hi ⟨k, service, he⟩
    refine .inr ⟨fun hn => ?_, remembers_step P hb hno h c' s hc' hs⟩
    cases he : i.event with
    | gattServiceQueryResult k service => exact hno k service he
    | _ => rw [he] at hn; exact hn

theorem LastNamed.snoc (hl : LastNamed es h s) (he : ¬ names h e) : LastNamed (es ++ [e]) h s := by
  obtain ⟨before, after, rfl, hb, hno⟩ := hl
  refine ⟨before, after ++ [e], by simp, hb, fun s' hs' hm => ?_⟩
  rcases List.mem_append.mp hm with hm | hm
  · exact hno s' hs' hm
  · rw [← List.mem_singleton.mp hm] at he
    exact he ⟨rfl, hs'⟩

theorem LastNamed.filter (hl : LastNamed es h s) : LastNamed (es.filter Event.ofStack) h s := by
  obtain ⟨before, after, rfl, hb, hno⟩ := hl
  exact ⟨before.filter Event.ofStack, after.filter Event.ofStack,
    by rw [List.filter_append, List.filter_cons_of_pos rfl], hb,
    fun s' hs' hm => hno s' hs' (List.mem_filter.mp hm).1⟩

theorem LastNamed.of_snoc (hl : LastNamed (es ++ [e]) h s) (he : e ≠ .gattServiceQueryResult h s) :
    LastNamed es h s := by
  obtain ⟨before, after, heq, hb, hno⟩ := hl
  cases after using List.reverseRecOn with
  | nil => exact absurd (List.append_inj_right' heq rfl) (by simpa using he)
  | append_singleton after last =>
    have hcut : es ++ [e] = (before ++ .gattServiceQueryResult h s :: after) ++ [last] :=
      heq.trans (by simp)
    exact ⟨before, after, List.append_inj_left' hcut rfl, hb,
      fun s' hs' hm => hno s' hs' (List.mem_append_left _ hm)⟩

/-- The service that a link is known to have is the one reported last. -/
theorem found_run (P : Platform) (a : Addr) (is : List Input)
    (hs : ((run (step P) { announceAddr := a } is).1.connectionAt h).foundService = some s) :
    LastNamed (is.map Input.event) h s := by
  have hrun : BlankNeighbours (run (step P) { announceAddr := a } is).1 ∧
      ∀ c, (run (step P) { announceAddr := a } is).1.connections.get? h = some c →
      c.foundService = some s →
        LastNamed (is.map Input.event) h s := run_history
    (fun before t _ => BlankNeighbours t ∧ ∀ c, t.connections.get? h = some c →
      c.foundService = some s →
      LastNamed (before.map Input.event) h s)
    ⟨fun _ _ hn => (by cases hn), fun _ hc => (by cases hc)⟩ (fun before t log i ⟨hb, hl⟩ => by
      refine ⟨blankNeighbours_step P t i hb, fun c hc hs => ?_⟩
      rw [List.map_append]
      rcases found_step P hb hc hs with ⟨hi, hbit⟩ | ⟨hi, c', hc', hs'⟩
      · exact ⟨before.map Input.event, [], by simp [hi], hbit, fun _ _ hm => (by cases hm)⟩
      · exact (hl c' hc' hs').snoc hi) is
  cases hc : (run (step P) { announceAddr := a } is).1.connections.get? h with
  | none => simp [connectionAt, hc, BleConnection.foundService] at hs
  | some c =>
    rw [connectionAt, hc] at hs
    exact hrun.2 c hc hs

end Runs

-- ---------------------------------------------------------------------------
-- Runs of the program
-- ---------------------------------------------------------------------------

namespace Program

variable {P : Platform} {p : Program} {i : ProgramInput} {h : Handle} {service : GattService}

theorem not_discovers_loop : .discoverCharacteristics h service ∉ (p.loop P i).2 := by
  intro hm
  rcases madeAt_loop P p i _ hm with ⟨x, hx⟩ | hs
  · cases hx
  · cases hs

theorem discovers_step (hm : .discoverCharacteristics h service ∈ (step P p i).2) :
    i.action = .gattQueryComplete h ∧
      ((step P p i).1.tracker.connectionAt h).canAndNeedToDiscoverBitchatCharacteristicsQuery =
      some service := by
  cases ha : i.action with
  | gattQueryComplete k =>
    rw [step_gattQueryComplete ha] at hm ⊢
    simp only [gattQueryComplete] at hm
    split at hm
    next s hs =>
      rcases List.mem_append.mp hm with hm | hm
      · simp [act] at hm
      · cases List.mem_singleton.mp hm
        refine ⟨rfl, ?_⟩
        simp only [gattQueryComplete, hs]
    next => simp [act] at hm
  | loop =>
    rw [step_loop ha] at hm
    exact absurd hm not_discovers_loop
  | _ => simp [step, dispatch, ha, act, gapConnectionComplete, startScanningForLocalNodes] at hm

/-- A characteristic is searched for where a query on the link ends and none is
known, in the bitchat service that was last reported for that handle. -/
theorem discovers_reported_service (P : Platform) (addr : Addr) (time : Nat)
    (is : List ProgramInput)
    (hm : .discoverCharacteristics h service ∈ (run (step P) (start addr time) is).2) :
    ∃ before i middle j after, is = before ++ i :: (middle ++ j :: after) ∧
      i.action.event = some (.gattServiceQueryResult h service) ∧ service.isBitchat ∧
      (∀ m ∈ middle, ∀ s', s'.isBitchat → m.action.event ≠ some (.gattServiceQueryResult h s')) ∧
      j.action = .gattQueryComplete h ∧ service.startGroupHandle > 0 ∧
      ((run (step P) (start addr time) (before ++ i :: (middle ++ [j]))).1.tracker.connectionAt
        h).bitchatCharacteristicValueHandle = 0 := by
  obtain ⟨pre, j, after, rfl, hj⟩ := mem_run.mp hm
  obtain ⟨hquery, hneed⟩ := discovers_step hj
  obtain ⟨hfound, hvalue⟩ := needToDiscover_eq_some.mp hneed
  have hlast : (run (step P) (start addr time) (pre ++ [j])).1 =
      (step P (run (step P) (start addr time) pre).1 j).1 := by rw [run_snoc]
  rw [← hlast] at hfound hvalue
  obtain ⟨js, hjs⟩ := mirrors_run P (start addr time) (pre ++ [j])
  have hnamed : LastNamed (pre.filterMap fun i => i.action.event) h service := by
    rw [hjs.tracker] at hfound
    have hstack := (found_run P addr js hfound).filter
    rw [hjs.ofStack, List.filterMap_append, List.filterMap_cons_some (by rw [hquery]; rfl),
      List.filterMap_nil] at hstack
    exact hstack.of_snoc (by simp)
  obtain ⟨_, later, he, hbit, hno⟩ := hnamed
  obtain ⟨before, rest, rfl, -, hrest⟩ := List.filterMap_eq_append_iff.mp he
  obtain ⟨skipped, i, middle, rfl, -, hi, hmiddle⟩ := List.filterMap_eq_cons_iff.mp hrest
  refine ⟨before ++ skipped, i, middle, j, after, by simp, hi, hbit, fun m hmem s' hs' hs => ?_,
    hquery, ?_, ?_⟩
  · exact hno s' hs' (hmiddle ▸ List.mem_filterMap.mpr ⟨m, hmem, hs⟩)
  · unfold BleConnection.foundService at hfound
    split at hfound
    next hpos =>
      cases hfound
      exact hpos
    next => cases hfound
  · rw [← hvalue]
    simp

/-- The repeater that advertised is queried: it has the service, and the
characteristic is asked for. -/
theorem discovers_of_report :
    let service : GattService :=
      { uuid16 := 0, uuid128 := bitchatServiceUuid, startGroupHandle := 16, endGroupHandle := 20 }
    let is : List ProgramInput := [onCallback ⟨.gattServiceQueryResult 64 service, rfl⟩,
      ⟨.gattQueryComplete 64, .idle, 0, 0⟩]
    ∃ before i middle j after, is = before ++ i :: (middle ++ j :: after) ∧
      i.action.event = some (.gattServiceQueryResult 64 service) ∧ service.isBitchat ∧
      (∀ m ∈ middle, ∀ s', s'.isBitchat → m.action.event ≠ some (.gattServiceQueryResult 64 s')) ∧
      j.action = .gattQueryComplete 64 ∧ service.startGroupHandle > 0 ∧
      ((run (step .bare) (start 0 0) (before ++ i :: (middle ++ [j]))).1.tracker.connectionAt
        64).bitchatCharacteristicValueHandle = 0 :=
  discovers_reported_service .bare 0 0
    [onCallback ⟨.gattServiceQueryResult 64
        { uuid16 := 0, uuid128 := bitchatServiceUuid,
          startGroupHandle := 16, endGroupHandle := 20 },
        rfl⟩,
      ⟨.gattQueryComplete 64, .idle, 0, 0⟩] (by decide +kernel)

end Program

end BitchatRepeater
