import BitchatRepeater.RssiSweep

/-!
# The program

`main` and the callbacks that share its globals. A callback may come between any
two calls of the loop, so the loop has a stage: the call it stands in front of.
The test for sleep is a stage and `__wfi()` another: what it logs between them takes
its time. Logging and the LED are left out; of the events whose handlers only log it
counts that they came.
-/

namespace BitchatRepeater

open Lib Tracker

inductive LoopStage
  | top | announce | connect | duplicate | disconnect (duplicate : Handle) | send | flash | rssi
  | scan
  | cleanup | sleep | wfi
  deriving DecidableEq, Repr

structure Program where
  tracker : Tracker
  /-- The static iterator of `requestNextRssi`. -/
  rssiIterator : Option (MapIterator Handle) := none
  timers : LoopTimers
  stage : LoopStage := .top
  loopStart : UInt32 := 0
  keepRunning : Bool := true
  lifeCheck : Bool := false
  scanning : Bool := false
  connectionInProgress : Bool := false
  discoverPrimaryServices : Bool := false
  discoverCharacteristicsForService : Bool := false
  globalActivity : UInt16 := 0
  lastActivity : UInt16 := 0
  lastSleepOrActivity : UInt32
  slept : Bool := false

/-- The calls a run makes, with the effects of those that reach the tracker. -/
inductive ProgramEffect
  | tracker (e : Effect)
  | call (c : LoopCall)
  /-- A pass of the loop begins with this reading of the clock. -/
  | passStarts (time : Nat)
  /-- `gap_connect` was called and took the request. -/
  | connectionStarted
  | setupAdvertisements
  | enableAdvertisements
  | startScan
  | stopScan
  | discoverPrimaryServices (h : Handle)
  | discoverCharacteristics (h : Handle) (service : GattService)
  | rssiOf (it : MapIterator Handle)
  /-- `__wfi()`. -/
  | sleep
  deriving DecidableEq, Repr

/-- The events whose handlers touch the tracker only. -/
def Event.plain : Event → Bool
  | .attWrite .. | .gattNotification .. | .gattMtu .. | .gattServiceQueryResult ..
  | .gattCharacteristicQueryResult .. | .rssiMeasurement .. | .advertisingReport ..
  | .connectionComplete .. | .attConnected .. | .disconnected .. | .canSendNotification ..
  | .canWriteWithoutResponse .. => true
  | _ => false

inductive ProgramAction
  | callback (e : { e : Event // e.plain })
  /-- `BTSTACK_EVENT_STATE` with `HCI_STATE_WORKING`. -/
  | stackWorking
  /-- `HCI_EVENT_META_GAP` with `GAP_SUBEVENT_LE_CONNECTION_COMPLETE`. -/
  | gapConnectionComplete (h : Handle) (address : Bytes) (addressType : AddressType) (role : Role)
  /-- `GATT_EVENT_QUERY_COMPLETE` in `handle_gatt_client_event`. -/
  | gattQueryComplete (h : Handle)
  | stopScanTimer
  | exitPin
  | lifeCheckPin
  /-- A callback that only logs. -/
  | otherCallback
  /-- The main loop goes on to its next stage. -/
  | loop

/-- What adds to `global_activity`. The callbacks of the raw queues are the
tracker's own and do not. -/
def ProgramAction.counted : ProgramAction → Bool
  | .loop | .callback ⟨.canSendNotification .., _⟩ | .callback ⟨.canWriteWithoutResponse .., _⟩ =>
    false
  | _ => true

def ProgramAction.ofLoop : ProgramAction → Bool
  | .loop => true
  | _ => false

/-- `time` is what the stage reads of the clock for its timer, `status` what
`gap_connect` or `gap_disconnect` returns. -/
structure ProgramInput where
  action : ProgramAction
  ambient : Ambient
  time : Nat := 0
  status : UInt8 := 0

/-- Whether a query is due, with the service it is for. -/
def BleConnection.canAndNeedToDiscoverBitchatCharacteristicsQuery (c : BleConnection) :
    Option GattService :=
  if c.bitchatServiceStartGroupHandle > 0 && c.bitchatCharacteristicValueHandle = 0 then
    some { uuid16 := 0
           uuid128 := bitchatServiceUuid
           startGroupHandle := c.bitchatServiceStartGroupHandle
           endGroupHandle := c.bitchatServiceEndGroupHandle }
  else none

def connecting (t : Tracker) (err : UInt8) : Bool :=
  err = 0 && (connectToFirstNeighbour t err).2 ≠ []

namespace Program

def start (addr : Addr) (time : Nat) : Program :=
  { tracker := { announceAddr := addr }, timers := .start time,
    lastSleepOrActivity := timeUs32 time }

/-- An event reaches the tracker, and the iterator with it. -/
def act (P : Platform) (p : Program) (event : Event) (ambient : Ambient) :
    Program × List ProgramEffect :=
  let result := BitchatRepeater.step P p.tracker ⟨event, ambient⟩
  ({ p with
      tracker := result.1
      rssiIterator := p.rssiIterator.map (MapIterator.follow result.1.connections) },
    result.2.map .tracker)

def startScanningForLocalNodes (p : Program) : Program × List ProgramEffect :=
  ({ p with scanning := true }, [.startScan])

def busy (p : Program) : Bool :=
  p.scanning || p.connectionInProgress || p.discoverPrimaryServices ||
    p.discoverCharacteristicsForService

def active (p : Program) : Program := { p with globalActivity := p.globalActivity + 1 }

def goTo (stage : LoopStage) (result : Program × List ProgramEffect) :
    Program × List ProgramEffect :=
  ({ result.1 with stage := stage }, result.2)

-- ---------------------------------------------------------------------------
-- Stages of the loop
-- ---------------------------------------------------------------------------

def loopTop (P : Platform) (p : Program) (i : ProgramInput) : Program × List ProgramEffect :=
  let p := { p with loopStart := timeUs32 i.time, stage := .announce }
  if p.lifeCheck then
    let (p, out) := { p with lifeCheck := false }.act P .lifeCheck i.ambient
    -- the handler counts what it stores
    (if out = [] then p else p.active, .passStarts i.time :: out)
  else (p, [.passStarts i.time])

def loopAnnounce (P : Platform) (p : Program) (i : ProgramInput) : Program × List ProgramEffect :=
  goTo .connect <|
    if elapsed p.loopStart p.timers.lastAnnounce twoSecondsInUs then
      let (p, out) := p.act P .announceToConnections i.ambient
      ({ p with timers := { p.timers with lastAnnounce := timeUs32 i.time } },
        .call .announceToConnections :: out)
    else (p, [])

def loopConnect (P : Platform) (p : Program) (i : ProgramInput) : Program × List ProgramEffect :=
  if !p.busy && holdOffOver p.timers.disconnectionStartedAt p.loopStart then
    let (q, out) := p.act P (.connectToFirstNeighbour i.status) i.ambient
    if connecting p.tracker i.status then
      ({ q with connectionInProgress := true, stage := .send },
        .call .connectToFirstNeighbour :: out ++ [.connectionStarted])
    else ({ q with stage := .duplicate }, .call .connectToFirstNeighbour :: out)
  else ({ p with stage := .send }, [])

def loopDuplicate (P : Platform) (p : Program) (i : ProgramInput) : Program × List ProgramEffect :=
  let duplicate := p.tracker.getAnyDuplicateHandle.2
  goTo (if duplicate = 0 then .send else .disconnect duplicate)
    (p.act P .getAnyDuplicateHandle i.ambient)

def loopDisconnect (p : Program) (duplicate : Handle) (i : ProgramInput) :
    Program × List ProgramEffect :=
  ({ p with
      timers := { p.timers with
        disconnectionStartedAt :=
          if i.status = 0 then timeUs32 i.time else p.timers.disconnectionStartedAt }
      stage := .send },
    [.call (.gapDisconnect duplicate)])

def loopSend (P : Platform) (p : Program) (i : ProgramInput) : Program × List ProgramEffect :=
  let (p, out) := p.act P .sendPackets i.ambient
  ({ p with stage := .flash }, .call .sendPackets :: out)

def loopFlash (p : Program) (i : ProgramInput) : Program × List ProgramEffect :=
  ({ p with
      timers := { p.timers with
        lastFlash := if elapsed p.loopStart p.timers.lastFlash twoSecondsInUs then timeUs32 i.time
          else p.timers.lastFlash }
      stage := .rssi },
    [])

def loopRssi (p : Program) (i : ProgramInput) : Program × List ProgramEffect :=
  goTo .scan <|
    match p.timers.rssiRestart p.loopStart with
    | none => (p, [])
    | some restart =>
      let (visited, iterator, more) := requestNextRssi p.tracker p.rssiIterator restart
      ({ p with
          rssiIterator := some iterator
          timers := { p.timers with
            lastRssiUpdate := if restart then timeUs32 i.time else p.timers.lastRssiUpdate
            rssiUpdateInProgress := more } },
        [.call (.requestNextRssi restart), .rssiOf visited])

def loopScan (p : Program) (i : ProgramInput) : Program × List ProgramEffect :=
  goTo .cleanup <|
    if elapsed p.loopStart p.timers.lastScan tenMinutesInUs then
      let (p, out) := p.startScanningForLocalNodes
      ({ p with timers := { p.timers with lastScan := timeUs32 i.time } },
        .call .startScanning :: out)
    else (p, [])

def loopCleanup (P : Platform) (p : Program) (i : ProgramInput) : Program × List ProgramEffect :=
  goTo .sleep <|
    if elapsed p.loopStart p.timers.lastCleanup tenMinutesInUs then
      let (p, out) := p.act P .cleanupStaleItems i.ambient
      ({ p with timers := { p.timers with lastCleanup := timeUs32 i.time } },
        .call .cleanupStaleItems :: out)
    else (p, [])

/-- Every time the processor wakes up, the loop looks again whether it was for nothing. -/
def loopSleep (p : Program) (i : ProgramInput) : Program × List ProgramEffect :=
  if elapsed p.loopStart p.lastSleepOrActivity twoSecondsInUs &&
      p.lastActivity = p.globalActivity then
    ({ p with stage := .wfi }, [])
  else if p.slept || p.lastActivity ≠ p.globalActivity then
    ({ p with
        lastSleepOrActivity := timeUs32 i.time
        lastActivity := p.globalActivity
        slept := false
        stage := .top },
      [])
  else ({ p with stage := .top }, [])

/-- Nothing is looked at here: an interrupt that came behind the test does not keep the
processor from stopping. -/
def loopWfi (p : Program) : Program × List ProgramEffect :=
  ({ p with slept := true, stage := .sleep }, [.sleep])

/-- Where `keep_running` is off at the top, `main` has returned. -/
def loop (P : Platform) (p : Program) (i : ProgramInput) : Program × List ProgramEffect :=
  match p.stage with
  | .top => if p.keepRunning then p.loopTop P i else (p, [])
  | .announce => p.loopAnnounce P i
  | .connect => p.loopConnect P i
  | .duplicate => p.loopDuplicate P i
  | .disconnect duplicate => p.loopDisconnect duplicate i
  | .send => p.loopSend P i
  | .flash => p.loopFlash i
  | .rssi => p.loopRssi i
  | .scan => p.loopScan i
  | .cleanup => p.loopCleanup P i
  | .sleep => p.loopSleep i
  | .wfi => p.loopWfi

-- ---------------------------------------------------------------------------
-- Callbacks
-- ---------------------------------------------------------------------------

def gapConnectionComplete (P : Platform) (p : Program) (ambient : Ambient) (h : Handle)
    (address : Bytes) (addressType : AddressType) (role : Role) : Program × List ProgramEffect :=
  let (p, out) := p.act P (.connectionComplete h address addressType role) ambient
  ({ p with connectionInProgress := false, discoverPrimaryServices := true },
    .enableAdvertisements :: out ++ [.discoverPrimaryServices h])

/-- A characteristic that was not found is looked for again. -/
def gattQueryComplete (P : Platform) (p : Program) (ambient : Ambient) (h : Handle) :
    Program × List ProgramEffect :=
  let (p, out) := p.act P (.gattQueryComplete h) ambient
  match (p.tracker.connectionAt h).canAndNeedToDiscoverBitchatCharacteristicsQuery with
  | some service =>
    ({ p with discoverPrimaryServices := false, discoverCharacteristicsForService := true },
      out ++ [.discoverCharacteristics h service])
  | none =>
    ({ p with discoverPrimaryServices := false, discoverCharacteristicsForService := false }, out)

def dispatch (P : Platform) (p : Program) (i : ProgramInput) : Program × List ProgramEffect :=
  match i.action with
  | .callback e => p.act P e.1 i.ambient
  | .stackWorking =>
    let (p, out) := p.startScanningForLocalNodes
    (p, .setupAdvertisements :: out)
  | .gapConnectionComplete h address addressType role =>
    p.gapConnectionComplete P i.ambient h address addressType role
  | .gattQueryComplete h => p.gattQueryComplete P i.ambient h
  | .stopScanTimer => ({ p with scanning := false }, [.stopScan])
  | .exitPin => ({ p with keepRunning := false }, [])
  | .lifeCheckPin => ({ p with lifeCheck := true }, [])
  | .otherCallback => (p, [])
  | .loop => p.loop P i

def step (P : Platform) (p : Program) (i : ProgramInput) : Program × List ProgramEffect :=
  (if i.action.counted then p.active else p).dispatch P i

def onCallback (e : { e : Event // e.plain }) : ProgramInput := ⟨.callback e, .idle, 0, 0⟩

def onLoop (time : Nat) : ProgramInput := ⟨.loop, .idle, time, 0⟩

end Program

end BitchatRepeater
