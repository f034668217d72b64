import BitchatRepeater.ConnectionKeys
import Mathlib.Data.List.Chain

/-!
# The main loop

The timers of `main`, as one pass of its loop, and what a pass decides: whether to
try a neighbour, which of two links to one peer to close, and when to clean up.
`time_us_32()` is the time in microseconds modulo `2 ^ 32`. What the calls return
and how long they take is part of the pass.
-/

namespace BitchatRepeater

open Lib Tracker

def twoSecondsInUs : UInt32 := 2000000

def fiveMinutesInUs : UInt32 := 300000000

def tenMinutesInUs : UInt32 := 600000000

def timeUs32 (time : Nat) : UInt32 := UInt32.ofNat time

/-- `(loopStart - last) > limit`. -/
def elapsed (loopStart last limit : UInt32) : Bool := loopStart - last > limit

/-- `disconnection_started_at < loopStart - two_seconds_in_us`. -/
def holdOffOver (disconnectionStartedAt loopStart : UInt32) : Bool :=
  disconnectionStartedAt < loopStart - twoSecondsInUs

/-- The timers of `main`, and the global one of the last disconnection. -/
structure LoopTimers where
  lastAnnounce : UInt32
  lastFlash : UInt32 := 0
  lastScan : UInt32
  lastRssiUpdate : UInt32
  rssiUpdateInProgress : Bool := false
  lastCleanup : UInt32
  disconnectionStartedAt : UInt32 := 0
  deriving DecidableEq, Repr

def LoopTimers.start (time : Nat) : LoopTimers :=
  { lastAnnounce := timeUs32 time, lastScan := timeUs32 time, lastRssiUpdate := timeUs32 time,
    lastCleanup := timeUs32 time + fiveMinutesInUs }

inductive LoopCall
  | announceToConnections
  | connectToFirstNeighbour
  | gapDisconnect (duplicate : Handle)
  | sendPackets
  | requestNextRssi (restart : Bool)
  | startScanning
  | cleanupStaleItems
  deriving DecidableEq, Repr

/-- What one pass meets: the time at its start and behind each call that restarts
a timer, and what the calls return. -/
structure LoopPass where
  loopStart : Nat
  announced : Nat
  disconnected : Nat
  flashed : Nat
  rssiRequested : Nat
  scanStarted : Nat
  cleaned : Nat
  /-- Scanning, connecting or discovering. -/
  busy : Bool
  connecting : Bool
  duplicate : Handle
  disconnectStatus : UInt8
  moreRssi : Bool
  deriving DecidableEq, Repr

def LoopTimers.rssiRestart (v : LoopTimers) (loopStart : UInt32) : Option Bool :=
  if elapsed loopStart v.lastRssiUpdate fiveMinutesInUs then some true
  else if v.rssiUpdateInProgress then some false
  else none

def LoopTimers.pass (v : LoopTimers) (p : LoopPass) : LoopTimers × List LoopCall :=
  let loopStart := timeUs32 p.loopStart
  let announce := elapsed loopStart v.lastAnnounce twoSecondsInUs
  let connect := !p.busy && holdOffOver v.disconnectionStartedAt loopStart
  let disconnect := connect && !p.connecting && p.duplicate ≠ 0
  let flash := elapsed loopStart v.lastFlash twoSecondsInUs
  let rssi := v.rssiRestart loopStart
  let scan := elapsed loopStart v.lastScan tenMinutesInUs
  let cleanup := elapsed loopStart v.lastCleanup tenMinutesInUs
  ({ lastAnnounce := if announce then timeUs32 p.announced else v.lastAnnounce
     disconnectionStartedAt :=
       if disconnect && p.disconnectStatus = 0 then timeUs32 p.disconnected
       else v.disconnectionStartedAt
     lastFlash := if flash then timeUs32 p.flashed else v.lastFlash
     lastRssiUpdate := if rssi = some true then timeUs32 p.rssiRequested else v.lastRssiUpdate
     rssiUpdateInProgress := rssi.isSome && p.moreRssi
     lastScan := if scan then timeUs32 p.scanStarted else v.lastScan
     lastCleanup := if cleanup then timeUs32 p.cleaned else v.lastCleanup },
    (if announce then [.announceToConnections] else []) ++
    (if connect then [.connectToFirstNeighbour] else []) ++
    (if disconnect then [.gapDisconnect p.duplicate] else []) ++
    [.sendPackets] ++ (rssi.map LoopCall.requestNextRssi).toList ++
    (if scan then [.startScanning] else []) ++
    if cleanup then [.cleanupStaleItems] else [])

def LoopTimers.cleanups : LoopTimers → List LoopPass → List LoopPass
  | _, [] => []
  | v, p :: ps =>
    if .cleanupStaleItems ∈ (v.pass p).2 then p :: (v.pass p).1.cleanups ps
    else (v.pass p).1.cleanups ps

def InOrder : Nat → List LoopPass → Prop
  | _, [] => True
  | time, p :: ps => time ≤ p.loopStart ∧ p.loopStart ≤ p.cleaned ∧ InOrder p.cleaned ps

instance decidableInOrder : (time : Nat) → (ps : List LoopPass) → Decidable (InOrder time ps)
  | _, [] => isTrue trivial
  | time, p :: ps =>
    haveI := decidableInOrder p.cleaned ps
    inferInstanceAs (Decidable (time ≤ p.loopStart ∧ p.loopStart ≤ p.cleaned ∧
      InOrder p.cleaned ps))

-- ---------------------------------------------------------------------------
-- Cleaning up
-- ---------------------------------------------------------------------------

theorem elapsed_iff {start last limit : UInt32} : elapsed start last limit ↔
    limit.toNat < (2 ^ 32 - last.toNat + start.toNat) % 2 ^ 32 := by
  rw [elapsed, decide_eq_true_iff, gt_iff_lt, UInt32.lt_iff_toNat_lt, UInt32.toNat_sub]

theorem toNat_timeUs32 (time : Nat) : (timeUs32 time).toNat = time % 2 ^ 32 := UInt32.toNat_ofNat'

theorem lt_of_elapsed (h : elapsed (timeUs32 time) (timeUs32 last) limit) (hle : last ≤ time) :
    last + limit.toNat < time := by
  rw [elapsed_iff, toNat_timeUs32, toNat_timeUs32] at h
  omega

/-- Against a start value in the future the difference wraps, and the timer has
always elapsed. -/
theorem elapsed_of_lt (h : time < last) (hle : last ≤ time + 300000000) :
    elapsed (timeUs32 time) (timeUs32 last) tenMinutesInUs := by
  rw [elapsed_iff, toNat_timeUs32, toNat_timeUs32]
  have hlimit : tenMinutesInUs.toNat = 600000000 := rfl
  omega

theorem mem_cleanup_pass (v : LoopTimers) (p : LoopPass) : .cleanupStaleItems ∈ (v.pass p).2 ↔
    elapsed (timeUs32 p.loopStart) v.lastCleanup tenMinutesInUs := by
  simp [LoopTimers.pass]

theorem lastCleanup_pass (v : LoopTimers) (p : LoopPass) : (v.pass p).1.lastCleanup =
    if elapsed (timeUs32 p.loopStart) v.lastCleanup tenMinutesInUs then timeUs32 p.cleaned
    else v.lastCleanup := rfl

theorem InOrder.le (h : InOrder time ps) : ∀ p ∈ ps, time ≤ p.loopStart := by
  induction ps generalizing time with
  | nil => exact List.forall_mem_nil _
  | cons p ps ih =>
    obtain ⟨htime, hcleaned, hrest⟩ := h
    exact List.forall_mem_cons.mpr ⟨htime, fun q hq => (htime.trans hcleaned).trans (ih hrest q hq)⟩

theorem InOrder.later {ps : List LoopPass} (h : InOrder time ps)
    (hle : ∀ p ∈ ps, time' ≤ p.loopStart) :
    InOrder time' ps := by
  cases ps with
  | nil => trivial
  | cons p ps => exact ⟨hle p List.mem_cons_self, h.2⟩

theorem cleanups_late {v : LoopTimers} (hv : v.lastCleanup = timeUs32 last) (hle : last ≤ time)
    (hord : InOrder time ps) : ∀ p ∈ v.cleanups ps, last + 600000000 < p.loopStart := by
  induction ps generalizing v last time with
  | nil => exact List.forall_mem_nil _
  | cons p ps ih =>
    obtain ⟨htime, hcleaned, hrest⟩ := hord
    have hlast := lastCleanup_pass v p
    rw [hv] at hlast
    rw [LoopTimers.cleanups]
    simp only [mem_cleanup_pass, hv]
    split
    next helapsed =>
      have hfirst := lt_of_elapsed helapsed (hle.trans htime)
      have hlimit : tenMinutesInUs.toNat = 600000000 := rfl
      refine List.forall_mem_cons.mpr ⟨by omega, fun q hq => ?_⟩
      have := ih (hlast.trans (if_pos helapsed)) le_rfl hrest q hq
      omega
    next helapsed => exact ih (hlast.trans (if_neg helapsed)) (by omega) hrest

theorem cleanups_spaced {v : LoopTimers} (hv : v.lastCleanup = timeUs32 last) (hle : last ≤ time)
    (hord : InOrder time ps) :
    (v.cleanups ps).IsChain fun p q => p.cleaned + 600000000 < q.loopStart := by
  induction ps generalizing v last time with
  | nil => exact .nil
  | cons p ps ih =>
    obtain ⟨htime, hcleaned, hrest⟩ := hord
    have hlast := lastCleanup_pass v p
    rw [hv] at hlast
    rw [LoopTimers.cleanups]
    simp only [mem_cleanup_pass, hv]
    split
    next helapsed =>
      have hnext := hlast.trans (if_pos helapsed)
      refine List.isChain_cons.mpr ⟨fun q hq => ?_, ih hnext le_rfl hrest⟩
      exact cleanups_late hnext le_rfl hrest q (List.mem_of_mem_head? hq)
    next helapsed => exact ih (hlast.trans (if_neg helapsed)) (by omega) hrest

/-- From a start of the loop on, the clean-ups come late and far apart exactly if
the loop does not begin for five minutes. -/
theorem cleanup_not_early_iff (time : Nat) (ps : List LoopPass) (hord : InOrder time ps) :
    ((∀ p ∈ ps, p.loopStart ≤ time + 900000000 → p ∉ (LoopTimers.start time).cleanups ps) ∧
      ((LoopTimers.start time).cleanups ps).IsChain
        fun p q => p.cleaned + 600000000 < q.loopStart) ↔
    ∀ p ∈ ps, time + 300000000 ≤ p.loopStart := by
  have hstart : (LoopTimers.start time).lastCleanup = timeUs32 (time + 300000000) := by
    simp [LoopTimers.start, timeUs32, fiveMinutesInUs]
  constructor
  · rintro ⟨hnone, -⟩
    cases ps with
    | nil => exact List.forall_mem_nil _
    | cons p ps =>
      obtain ⟨htime, hcleaned, hrest⟩ := hord
      have hfirst : time + 300000000 ≤ p.loopStart := by
        by_contra hlt
        have hdue : LoopCall.cleanupStaleItems ∈ ((LoopTimers.start time).pass p).2 := by
          rw [mem_cleanup_pass, hstart]
          exact elapsed_of_lt (Nat.lt_of_not_ge hlt) (by omega)
        refine hnone p List.mem_cons_self (by omega) ?_
        rw [LoopTimers.cleanups, if_pos hdue]
        exact List.mem_cons_self
      refine List.forall_mem_cons.mpr ⟨hfirst, fun q hq => ?_⟩
      exact (hfirst.trans hcleaned).trans (hrest.le q hq)
  · intro hle
    have hlater := hord.later hle
    refine ⟨fun p hp hearly hcalled => ?_, cleanups_spaced hstart le_rfl hlater⟩
    have := cleanups_late hstart le_rfl hlater p hcalled
    omega

def quickPass (time : Nat) : LoopPass :=
  { loopStart := time, announced := time, disconnected := time, flashed := time,
    rssiRequested := time,
    scanStarted := time, cleaned := time, busy := false, connecting := false, duplicate := 0,
    disconnectStatus := 0, moreRssi := false }

theorem cleanup_of_slow_start :
    let ps := [quickPass 4200000000, quickPass 4894967297, quickPass 5494967298]
    (∀ p ∈ ps, p.loopStart ≤ 3800000000 + 900000000 →
      p ∉ (LoopTimers.start 3800000000).cleanups ps) ∧
      ((LoopTimers.start 3800000000).cleanups ps).IsChain fun p q =>
        p.cleaned + 600000000 < q.loopStart :=
  (cleanup_not_early_iff 3800000000 [quickPass 4200000000, quickPass 4894967297,
    quickPass 5494967298]
    (by decide +kernel)).mpr (by decide +kernel)

/-- The first pass, one millisecond after the timers were set, cleans up. -/
theorem cleanup_at_once : InOrder 0 [quickPass 1000] ∧
    (LoopTimers.start 0).cleanups [quickPass 1000] = [quickPass 1000] ∧
    ¬ ((∀ p ∈ [quickPass 1000], p.loopStart ≤ 0 + 900000000 →
        p ∉ (LoopTimers.start 0).cleanups [quickPass 1000]) ∧
      ((LoopTimers.start 0).cleanups [quickPass 1000]).IsChain fun p q =>
        p.cleaned + 600000000 < q.loopStart) := by
  decide +kernel

-- ---------------------------------------------------------------------------
-- Holding off after a disconnection
-- ---------------------------------------------------------------------------

/-- The test tells whether two seconds have passed exactly if the loop time is
behind the disconnection just when it is two seconds behind its own wrap. -/
theorem holdOff_exact_iff (disconnectionStartedAt loopStart : UInt32) :
    (holdOffOver disconnectionStartedAt loopStart ↔
        elapsed loopStart disconnectionStartedAt twoSecondsInUs) ↔
      (disconnectionStartedAt ≤ loopStart ↔ twoSecondsInUs ≤ loopStart) := by
  have hd := disconnectionStartedAt.toNat_lt
  have ht := loopStart.toNat_lt
  have hlimit : twoSecondsInUs.toNat = 2000000 := rfl
  have htest : holdOffOver disconnectionStartedAt loopStart ↔
      disconnectionStartedAt.toNat < (2 ^ 32 - 2000000 + loopStart.toNat) % 2 ^ 32 := by
    rw [holdOffOver, decide_eq_true_iff, UInt32.lt_iff_toNat_lt, UInt32.toNat_sub, hlimit]
  rw [htest, elapsed_iff, hlimit, UInt32.le_iff_toNat_le, UInt32.le_iff_toNat_le, hlimit]
  omega

/-- A disconnection at the last reading before the wrap: ten seconds later the
hold-off is still on. -/
theorem holdOff_across_wrap : ¬ (holdOffOver 4294967295 9999999 ↔
    elapsed 9999999 4294967295 twoSecondsInUs) := by
  decide

-- ---------------------------------------------------------------------------
-- Trying a neighbour
-- ---------------------------------------------------------------------------

def Linked (t : Tracker) (address : Bytes) : Prop :=
  ∃ e ∈ t.connections.entries, e.2.connected ∧ e.2.btAddress = address

instance decidableLinked (t : Tracker) (address : Bytes) : Decidable (Linked t address) :=
  inferInstanceAs (Decidable (∃ e ∈ t.connections.entries, e.2.connected ∧ e.2.btAddress = address))

/-- A connectable neighbour that is not connected. -/
def FreeNeighbour (t : Tracker) (neighbour : BleConnection) : Prop :=
  neighbour ∈ t.getConnectableNeighbours ∧ ¬ Linked t neighbour.btAddress

theorem getConnectionForAddress_isSome_iff (t : Tracker) (address : Bytes) :
    (t.getConnectionForAddress address).isSome ↔ Linked t address := by
  simp [getConnectionForAddress, Linked]

theorem mem_connectToFirstNeighbour (t : Tracker) (err : UInt8) :
    .gapConnect address addressType ∈ (connectToFirstNeighbour t err).2 ↔
      ∃ n ∈ t.getConnectableNeighbours.head?, ¬ Linked t n.btAddress ∧ address = n.btAddress ∧
        addressType = n.btAddressType := by
  unfold connectToFirstNeighbour
  cases t.getConnectableNeighbours with
  | nil => simp
  | cons n ns =>
    by_cases hl : Linked t n.btAddress
    · simp [(getConnectionForAddress_isSome_iff t n.btAddress).mpr hl, hl]
    · simp [mt (getConnectionForAddress_isSome_iff t n.btAddress).mp hl, hl]

/-- Only the first neighbour is tried. So a free one is tried, if there is any,
exactly if the first is free or none is. -/
theorem free_neighbour_tried_iff (t : Tracker) (err : UInt8) :
    ((∃ n, FreeNeighbour t n) → ∃ n, FreeNeighbour t n ∧
        .gapConnect n.btAddress n.btAddressType ∈ (connectToFirstNeighbour t err).2) ↔
      ∀ first ∈ t.getConnectableNeighbours.head?, Linked t first.btAddress →
        ∀ n ∈ t.getConnectableNeighbours, Linked t n.btAddress := by
  simp only [mem_connectToFirstNeighbour]
  constructor
  · intro htried first hfirst hlinked n hn
    by_contra hfree
    obtain ⟨-, -, m, hm, hmfree, -⟩ := htried ⟨n, hn, hfree⟩
    cases Option.mem_unique hfirst hm
    exact hmfree hlinked
  · rintro hall ⟨n, hn, hfree⟩
    cases hns : t.getConnectableNeighbours with
    | nil =>
      rw [hns] at hn
      cases hn
    | cons first ns =>
      have hfirst : first ∈ t.getConnectableNeighbours.head? := by
        rw [hns]
        rfl
      have hmem : first ∈ t.getConnectableNeighbours := List.mem_of_mem_head? hfirst
      have hnot : ¬ Linked t first.btAddress :=
        fun hlinked => hfree (hall first hfirst hlinked n hn)
      rw [hns] at hmem
      exact ⟨first, ⟨hns ▸ hmem, hnot⟩, first, rfl, hnot, rfl, rfl⟩

def twoRepeaters : List Input :=
  let advert (address : Bytes) : Input :=
    ⟨.advertisingReport address .lePublic .serviceUUIDAndNameFound (-60), .idle⟩
  [advert [1, 1, 1, 1, 1, 1], ⟨.connectionComplete 64 [1, 1, 1, 1, 1, 1] .lePublic .master, .idle⟩,
    advert [1, 1, 1, 1, 1, 1], advert [2, 2, 2, 2, 2, 2]]

theorem free_neighbour_blocked :
    let t := (run (step .bare) { announceAddr := 0 } twoRepeaters).1
    (∃ n ∈ t.getConnectableNeighbours, n.btAddress = [2, 2, 2, 2, 2, 2] ∧ ¬ Linked t n.btAddress) ∧
    (connectToFirstNeighbour t 0).2 = [] ∧
    ¬ ((∃ n, FreeNeighbour t n) → ∃ n, FreeNeighbour t n ∧
      .gapConnect n.btAddress n.btAddressType ∈ (connectToFirstNeighbour t 0).2) := by
  intro t
  have hfree : ∃ n ∈ t.getConnectableNeighbours,
      n.btAddress = [2, 2, 2, 2, 2, 2] ∧ ¬ Linked t n.btAddress := by
    decide +kernel
  have hnone : (connectToFirstNeighbour t 0).2 = [] := by
    decide +kernel
  refine ⟨hfree, hnone, fun htried => ?_⟩
  obtain ⟨n, hn, -, hnot⟩ := hfree
  obtain ⟨m, -, hm⟩ := htried ⟨n, hn, hnot⟩
  rw [hnone] at hm
  cases hm

-- ---------------------------------------------------------------------------
-- Two links to one peer
-- ---------------------------------------------------------------------------

def SamePeer (t : Tracker) (h k : Handle) : Prop :=
  h ≠ k ∧ ∃ peer, t.handlePeerMap.get? h = some peer ∧ t.handlePeerMap.get? k = some peer

/-- What the loop of `getAnyDuplicateHandle` has found, `done` being the entries
behind it. -/
theorem duplicateHandle_spec (t : Tracker) (done es : List (Handle × UInt64))
    (hk : ((done ++ es).map Prod.fst).Nodup) (hz : ∀ e ∈ done ++ es, e.1 ≠ 0)
    (hp : (done.map Prod.snd).Nodup) :
    match t.duplicateHandle (done.reverse.map Prod.swap) es with
    | none => ((done ++ es).map Prod.snd).Nodup
    | some (seen, h) => seen ≠ h ∧ ∃ peer, (seen, peer) ∈ done ++ es ∧ (h, peer) ∈ done ++ es := by
  induction es generalizing done with
  | nil =>
    rw [List.append_nil]
    exact hp
  | cons e es ih =>
    obtain ⟨h, peer⟩ := e
    have hsplit : done ++ (h, peer) :: es = done ++ [(h, peer)] ++ es := by simp
    have hreversed : (peer, h) :: done.reverse.map Prod.swap =
        (done ++ [(h, peer)]).reverse.map Prod.swap := by simp
    rw [duplicateHandle]
    cases hl : (done.reverse.map Prod.swap).lookup peer with
    | none =>
      have hnew : peer ∉ done.map Prod.snd := by
        intro hmem
        obtain ⟨e, he, rfl⟩ := List.mem_map.mp hmem
        have hfound := List.lookup_eq_none_iff.mp hl e.swap
          (List.mem_map_of_mem (List.mem_reverse.mpr he))
        simp at hfound
      have hnext : ((done ++ [(h, peer)]).map Prod.snd).Nodup := by
        rw [List.map_append]
        exact List.nodup_append'.mpr ⟨hp, List.nodup_singleton peer, by simpa using hnew⟩
      have hrest := ih (done ++ [(h, peer)]) (hsplit ▸ hk) (hsplit ▸ hz) hnext
      rw [← hreversed, ← hsplit] at hrest
      exact hrest
    | some seen =>
      have hmem : (seen, peer) ∈ done := by
        obtain ⟨l, r, hlr, -⟩ := List.lookup_eq_some_iff.mp hl
        have hin : (peer, seen) ∈ done.reverse.map Prod.swap := by
          rw [hlr]
          simp
        obtain ⟨e, he, hswap⟩ := List.mem_map.mp hin
        cases e
        cases hswap
        exact List.mem_reverse.mp he
      have hseen : seen ≠ 0 := hz _ (List.mem_append_left _ hmem)
      have hne : seen ≠ h := by
        intro he
        have hd := (List.nodup_append'.mp (List.map_append ▸ hk)).2.2
        exact hd (List.mem_map_of_mem hmem) (he ▸ List.mem_map_of_mem List.mem_cons_self)
      rw [Option.getD_some, if_pos hseen]
      exact ⟨hne, peer, List.mem_append_left _ hmem,
        List.mem_append_right done List.mem_cons_self⟩

theorem samePeer_of_mem (hne : h ≠ k) (hh : (h, peer) ∈ t.handlePeerMap.entries)
    (hk : (k, peer) ∈ t.handlePeerMap.entries) : SamePeer t h k :=
  ⟨hne, peer, OrdMap.get?_eq_some.mpr hh, OrdMap.get?_eq_some.mpr hk⟩

theorem SamePeer.symm (h : SamePeer t j k) : SamePeer t k j := by
  obtain ⟨hne, peer, hj, hk⟩ := h
  exact ⟨hne.symm, peer, hk, hj⟩

/-- Of two links to one peer the one seen last is kept. -/
theorem getAnyDuplicateHandle_exact (t : Tracker)
    (hz : ∀ h peer, t.handlePeerMap.get? h = some peer → h ≠ 0) :
    (t.getAnyDuplicateHandle.2 ≠ 0 ↔ ∃ h k, SamePeer t h k) ∧
    (t.getAnyDuplicateHandle.2 ≠ 0 → ∃ k, SamePeer t t.getAnyDuplicateHandle.2 k ∧
      (t.connectionAt t.getAnyDuplicateHandle.2).lastSeenTime ≤
      (t.connectionAt k).lastSeenTime) := by
  have hspec := duplicateHandle_spec t [] t.handlePeerMap.entries t.handlePeerMap.nodup
    (fun e he => hz e.1 e.2 (OrdMap.get?_eq_some.mpr he)) List.nodup_nil
  cases hd : t.duplicateHandle [] t.handlePeerMap.entries with
  | none =>
    have hzero : t.getAnyDuplicateHandle.2 = 0 := by rw [getAnyDuplicateHandle, hd]
    rw [List.reverse_nil, List.map_nil, hd] at hspec
    refine ⟨iff_of_false (fun hne => hne hzero) ?_, fun hne => absurd hzero hne⟩
    rintro ⟨h, k, hne, peer, hh, hk⟩
    have hsame := List.inj_on_of_nodup_map hspec (OrdMap.get?_eq_some.mp hh)
      (OrdMap.get?_eq_some.mp hk) rfl
    exact hne (Prod.mk.inj hsame).1
  | some pair =>
    obtain ⟨seen, h⟩ := pair
    rw [List.reverse_nil, List.map_nil, hd] at hspec
    obtain ⟨hne, peer, hseen, hh⟩ := hspec
    have hpair : SamePeer t seen h := samePeer_of_mem hne hseen hh
    have hresult : t.getAnyDuplicateHandle.2 =
        if (t.connectionAt seen).lastSeenTime < (t.connectionAt h).lastSeenTime then seen
        else h := by
      rw [getAnyDuplicateHandle, hd]
      simp only [connectionAt_touchConnection]
    have hlate : ∃ k, SamePeer t t.getAnyDuplicateHandle.2 k ∧
        (t.connectionAt t.getAnyDuplicateHandle.2).lastSeenTime ≤
        (t.connectionAt k).lastSeenTime := by
      rw [hresult]
      split
      next hlt => exact ⟨h, hpair, UInt64.le_of_lt hlt⟩
      next hge => exact ⟨seen, hpair.symm, UInt64.not_lt.mp hge⟩
    have hnonzero : t.getAnyDuplicateHandle.2 ≠ 0 := by
      obtain ⟨k, ⟨-, q, hget, -⟩, -⟩ := hlate
      exact hz _ q hget
    exact ⟨iff_of_true hnonzero ⟨seen, h, hpair⟩, fun _ => hlate⟩

def threeLinks : Tracker :=
  { announceAddr := 0
    handlePeerMap := ((OrdMap.empty.insert 64 7).insert 65 9).insert 66 7
    connections := (OrdMap.empty.insert 64 { connectionHandle := 64, lastSeenTime := 20 }).insert 66
      { connectionHandle := 66, lastSeenTime := 10 } }

theorem duplicate_of_threeLinks : threeLinks.getAnyDuplicateHandle.2 = 66 ∧
    ∃ k, SamePeer threeLinks threeLinks.getAnyDuplicateHandle.2 k ∧
      (threeLinks.connectionAt threeLinks.getAnyDuplicateHandle.2).lastSeenTime ≤
        (threeLinks.connectionAt k).lastSeenTime := by
  have hz : ∀ h peer, threeLinks.handlePeerMap.get? h = some peer → h ≠ 0 := by
    rintro h peer hget rfl
    have hnone : threeLinks.handlePeerMap.get? 0 = none := by decide +kernel
    rw [hnone] at hget
    cases hget
  have hresult : threeLinks.getAnyDuplicateHandle.2 = 66 := by decide +kernel
  refine ⟨hresult, (getAnyDuplicateHandle_exact threeLinks hz).2 ?_⟩
  rw [hresult]
  decide

end BitchatRepeater
