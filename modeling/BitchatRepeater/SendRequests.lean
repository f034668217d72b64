import Mathlib.Data.Finset.Card
import BitchatRepeater.RawQueues

/-!
# Requests to send

What is in a raw queue waits for the stack to call back. The stack is asked to
where data is queued, and once more at the end of a callback that leaves some; with
a link it forgets what it was asked for it. But each queue has one registration
only, with one context word: whichever link calls back, the handler is called for
the handle that was asked for last. Data at that handle or above it is called for
(`waiting_is_owed`); data below it is not, and stays when the stack has made all
the callbacks it owes (`drains_when_answered`).
-/

namespace BitchatRepeater

open Lib Tracker

variable {P : Platform} {t u : Tracker} {out out' : List Effect} {queue : RawQueue} {h k : Handle}

def requests (out : List Effect) : List (RawQueue × Handle) :=
  out.filterMap fun
    | .requestToSend q h => some (q, h)
    | _ => none

@[simp] theorem requests_append : requests (out ++ out') = requests out ++ requests out' :=
  List.filterMap_append

theorem mem_requests : (queue, h) ∈ requests out ↔ .requestToSend queue h ∈ out := by
  simp only [requests, List.mem_filterMap]
  constructor
  · rintro ⟨e, he, hr⟩
    cases e <;> cases hr
    exact he
  · exact fun he => ⟨_, he, rfl⟩

-- ---------------------------------------------------------------------------
-- Queueing asks
-- ---------------------------------------------------------------------------

def Asks (out : List Effect) : Prop :=
  ∀ a q h data, .queueRaw a q h data ∈ out → .requestToSend q h ∈ out

theorem asks_nil : Asks [] := fun _ _ _ _ hm => (by cases hm)

theorem Asks.append (h : Asks out) (h' : Asks out') : Asks (out ++ out') := by
  intro a q k data hm
  rcases List.mem_append.mp hm with hm | hm
  · exact List.mem_append_left _ (h a q k data hm)
  · exact List.mem_append_right _ (h' a q k data hm)

theorem asks_of_not_queued (hq : ∀ q k, queued q k out = []) : Asks out := by
  intro a q k data hm
  have hdata := mem_queued.mpr ⟨a, hm⟩
  rw [hq] at hdata
  cases hdata

theorem asks_run {step : Tracker → ι → Tracker × List Effect} (hstep : ∀ t i, Asks (step t i).2)
    (t : Tracker) (is : List ι) : Asks (run step t is).2 :=
  run_relation (fun _ _ out => Asks out) (fun _ => asks_nil) (fun _ _ _ _ _ h h' => h.append h')
    (fun t i _ => hstep t i) t

theorem asks_sendPacketToConnection (t : Tracker) (address : Addr) (packet : Packet)
    (target : ConnPtr) (connection : BleConnection) :
    Asks (t.sendPacketToConnection address packet target connection).2 := by
  unfold sendPacketToConnection
  simp only
  split
  · exact asks_of_not_queued fun q k => rfl
  · intro a q k data hm
    have hq : q = queueFor connection ∧ k = connection.connectionHandle := by
      split at hm <;> simp at hm <;> exact ⟨hm.2.1, hm.2.2.1⟩
    obtain ⟨rfl, rfl⟩ := hq
    simp

theorem asks_sendTargeted (stale : Stale) (t : Tracker) (item : Addr × ConnPtr) :
    Asks (sendTargeted stale t item).2 := by
  unfold sendTargeted
  simp only
  split
  · exact asks_nil
  · exact asks_sendPacketToConnection _ _ _ _ _

theorem asks_sendBroadcastTo (stale : Stale) (a : Addr) (t : Tracker) (k : Handle) :
    Asks (sendBroadcastTo stale a t k).2 := by
  unfold sendBroadcastTo
  split
  · exact asks_nil
  · split
    · exact asks_sendPacketToConnection _ _ _ _ _
    · exact asks_nil

theorem asks_sendPackets (stale : Stale) (t : Tracker) : Asks (t.sendPackets stale).2 := by
  unfold sendPackets
  split
  · exact asks_nil
  · refine (asks_run (asks_sendTargeted stale) _ _).append ?_
    exact asks_run (fun t a => asks_run (asks_sendBroadcastTo stale a) t _) _ _

theorem asks_rawStep (P : Platform) (t : Tracker) (op : RawOp) : Asks (rawStep P t op).2 := by
  cases op with
  | send address packet target connection =>
    exact asks_sendPacketToConnection t address packet target connection
  | event i =>
    show Asks (step P t i).2
    have ho := step_outcome P t i
    generalize step P t i = r at ho ⊢
    cases ho with
    | calm hc => exact asks_of_not_queued fun q k => queued_of_minor hc.kinds
    | drains queue h status =>
      exact asks_of_not_queued fun q k => sendRawPacket_queued queue t h status q k
    | sends => exact asks_sendPackets _ t
    | _ => exact asks_of_not_queued fun q k => rfl

-- ---------------------------------------------------------------------------
-- Callbacks
-- ---------------------------------------------------------------------------

theorem requests_sendRawPacket (queue : RawQueue) (t : Tracker) (h : Handle) (status : UInt8) :
    requests (sendRawPacket queue t h status).2 =
      if (((sendRawPacket queue t h status).1.rawQueue queue).lowerBound h).isEmpty then []
      else [(queue, h)] := by
  have hfront : requests (handOverFront queue t h status).2 = [] := by
    cases hl : (t.rawQueue queue).lowerBound h with
    | nil =>
      rw [handOverFront_idle hl]
      rfl
    | cons e es =>
      rw [handOverFront_out hl, requests_append]
      split <;> rfl
  rw [sendRawPacket_rawQueue]
  unfold sendRawPacket
  simp only
  split
  · exact hfront
  · rw [requests_append, hfront]
    rfl

-- ---------------------------------------------------------------------------
-- The registrations
-- ---------------------------------------------------------------------------

/-- `notify_context_callback_registration` and `write_context_callback_registration`:
the handle in the context word of each, and the links that have it on their list. -/
structure Registrations where
  context : RawQueue → Handle := fun _ => 0
  owed : Finset (RawQueue × Handle) := ∅

namespace Registrations

variable {r : Registrations} {status : RawQueue × Handle → UInt8} {x : RawQueue × Handle}

/-- The registration is filled in, and goes on the list of the link unless the stack
returns an error. -/
def request (status : RawQueue × Handle → UInt8) (r : Registrations) (x : RawQueue × Handle) :
    Registrations where
  context := Function.update r.context x.1 x.2
  owed := if status x = 0 then insert x r.owed else r.owed

theorem mem_owed_request {xs : List (RawQueue × Handle)} :
    x ∈ (xs.foldl (request status) r).owed ↔ x ∈ r.owed ∨ x ∈ xs ∧ status x = 0 := by
  induction xs generalizing r with
  | nil => simp
  | cons y ys ih =>
    rw [List.foldl_cons, ih, request]
    by_cases hy : status y = 0
    · simp only [hy, if_true, Finset.mem_insert, List.mem_cons]
      constructor
      · rintro ((rfl | hr) | ⟨hm, hs⟩)
        · exact .inr ⟨.inl rfl, hy⟩
        · exact .inl hr
        · exact .inr ⟨.inr hm, hs⟩
      · rintro (hr | ⟨rfl | hm, hs⟩)
        · exact .inl (.inr hr)
        · exact .inl (.inl rfl)
        · exact .inr ⟨hm, hs⟩
    · simp only [hy, if_false, List.mem_cons]
      refine or_congr_right ⟨fun ⟨hm, hs⟩ => ⟨.inr hm, hs⟩, ?_⟩
      rintro ⟨rfl | hm, hs⟩
      · exact absurd hs hy
      · exact ⟨hm, hs⟩

theorem context_request (xs : List (RawQueue × Handle)) :
    (queue, (xs.foldl (request status) r).context queue) ∈ xs ∨
      (∀ k, (queue, k) ∉ xs) ∧ (xs.foldl (request status) r).context queue = r.context queue := by
  induction xs generalizing r with
  | nil => exact .inr ⟨by simp, rfl⟩
  | cons y ys ih =>
    obtain ⟨q, k⟩ := y
    rw [List.foldl_cons]
    rcases ih (r := request status r (q, k)) with hm | ⟨hno, he⟩
    · exact .inl (List.mem_cons_of_mem _ hm)
    · rw [he]
      by_cases hq : queue = q
      · subst hq
        simp [request]
      · right
        refine ⟨fun j hj => ?_, Function.update_of_ne hq _ _⟩
        rcases List.mem_cons.mp hj with hj | hj
        · exact hq (Prod.mk.inj hj).1
        · exact hno j hj

end Registrations

inductive StackAction
  /-- A call of `SendPacketToConnection`, or an event that is no callback of a raw queue. -/
  | makes (op : { op : RawOp // op.callback? = none })
  /-- The link can send, takes the registration of the queue off its list and calls the handler. -/
  | canSend (queue : RawQueue) (link : Handle) (status : UInt8) (ambient : Ambient)

namespace StackAction

def calls? : StackAction → Option (RawQueue × Handle × UInt8)
  | makes _ => none
  | canSend queue link status _ => some (queue, link, status)

def endsLink? : StackAction → Option Handle
  | makes ⟨.event ⟨.disconnected h, _⟩, _⟩ => some h
  | _ => none

def rawOp (r : Registrations) : StackAction → RawOp
  | makes op => op.1
  | canSend .notify _ status ambient =>
    .event ⟨.canSendNotification (r.context .notify) status, ambient⟩
  | canSend .write _ status ambient =>
    .event ⟨.canWriteWithoutResponse (r.context .write) status, ambient⟩

/-- This registration leaves the list of this link. -/
def Settles (action : StackAction) (x : RawQueue × Handle) : Prop :=
  (∃ c ∈ action.calls?, (c.1, c.2.1) = x) ∨ action.endsLink? = some x.2

instance (action : StackAction) (x : RawQueue × Handle) : Decidable (action.Settles x) :=
  inferInstanceAs (Decidable (_ ∨ _))

end StackAction

/-- `requested` is what the stack returns where it is asked to call back. -/
structure StackInput where
  action : StackAction
  requested : RawQueue × Handle → UInt8 := fun _ => 0

def stackStep (P : Platform) (s : Tracker × Registrations) (i : StackInput) :
    (Tracker × Registrations) × List Effect :=
  let next := rawStep P s.1 (i.action.rawOp s.2)
  let r := { s.2 with owed := s.2.owed.filter (¬ i.action.Settles ·) }
  ((next.1, (requests next.2).foldl (Registrations.request i.requested) r), next.2)

section Step
variable {s : Tracker × Registrations} {i : StackInput} {x : RawQueue × Handle}

theorem mem_owed_stackStep : x ∈ (stackStep P s i).1.2.owed ↔
    x ∈ s.2.owed ∧ ¬ i.action.Settles x ∨ x ∈ requests (stackStep P s i).2 ∧ i.requested x = 0 := by
  simp [stackStep, Registrations.mem_owed_request]

theorem context_stackStep (P : Platform) (s : Tracker × Registrations) (i : StackInput)
    (queue : RawQueue) :
    (queue, (stackStep P s i).1.2.context queue) ∈ requests (stackStep P s i).2 ∨
      (∀ k, (queue, k) ∉ requests (stackStep P s i).2) ∧
        (stackStep P s i).1.2.context queue = s.2.context queue :=
  Registrations.context_request _

/-- What comes to the tracker is a callback for the context word, or no callback. -/
theorem stackStep_cases (P : Platform) (s : Tracker × Registrations) (i : StackInput) :
    (i.action.calls? = none ∧ Appends s.1 (stackStep P s i).1.1 (stackStep P s i).2 ∧
      Asks (stackStep P s i).2) ∨
    ∃ queue link status, i.action.calls? = some (queue, link, status) ∧
      (stackStep P s i).1.1 = (sendRawPacket queue s.1 (s.2.context queue) status).1 ∧
      (stackStep P s i).2 = (sendRawPacket queue s.1 (s.2.context queue) status).2 := by
  obtain ⟨action, requested⟩ := i
  cases action with
  | makes op =>
    left
    refine ⟨rfl, ?_, asks_rawStep P s.1 op.1⟩
    rcases rawStep_cases P s.1 op.1 with ⟨-, ha⟩ | ⟨queue, h, status, hc, -⟩
    · exact ha
    · rw [op.2] at hc
      cases hc
  | canSend queue link status ambient => cases queue <;> exact .inr ⟨_, link, status, rfl, rfl, rfl⟩

theorem stack_run (P : Platform) (s : Tracker × Registrations) (is : List StackInput) :
    ∃ ops, (run (stackStep P) s is).1.1 = (run (rawStep P) s.1 ops).1 ∧
      (run (stackStep P) s is).2 = (run (rawStep P) s.1 ops).2 := by
  induction is generalizing s with
  | nil => exact ⟨[], rfl, rfl⟩
  | cons i is ih =>
    obtain ⟨ops, htracker, hout⟩ := ih (stackStep P s i).1
    refine ⟨i.action.rawOp s.2 :: ops, htracker, ?_⟩
    rw [run, hout]
    rfl

end Step

-- ---------------------------------------------------------------------------
-- No data is left waiting
-- ---------------------------------------------------------------------------

section Waiting
variable {s u : Tracker × Registrations} {i : StackInput} {is : List StackInput}
    {x : RawQueue × Handle}

/-- The stack was asked for this callback, and has put it on the list. -/
def Accepts (P : Platform) (s : Tracker × Registrations) (i : StackInput)
    (x : RawQueue × Handle) : Prop :=
  x ∈ requests (stackStep P s i).2 ∧ i.requested x = 0

/-- The link ends, or the stack returns an error where it is asked. -/
def Refuses (P : Platform) (s : Tracker × Registrations) (i : StackInput)
    (x : RawQueue × Handle) : Prop :=
  i.action.endsLink? = some x.2 ∨ x ∈ requests (stackStep P s i).2 ∧ i.requested x ≠ 0

/-- The link has ended or the stack has refused, and has accepted no request since. -/
def CutOff (P : Platform) (s : Tracker × Registrations) (is : List StackInput)
    (x : RawQueue × Handle) : Prop :=
  ∃ before i after, is = before ++ i :: after ∧ Refuses P (run (stackStep P) s before).1 i x ∧
    Along (stackStep P) (fun s j => ¬ Accepts P s j x) (run (stackStep P) s (before ++ [i])).1 after

theorem CutOff.snoc (hc : CutOff P s is x) (hx : ¬ Accepts P (run (stackStep P) s is).1 i x) :
    CutOff P s (is ++ [i]) x := by
  obtain ⟨before, j, after, rfl, hj, hno⟩ := hc
  refine ⟨before, j, after ++ [i], by simp, hj, along_append.mpr ⟨hno, ?_, trivial⟩⟩
  rwa [List.append_cons, run_append] at hx

/-- Data at the context word or above it waits for a callback that is owed, or that
link is cut off. -/
def Waits (P : Platform) (s : Tracker × Registrations) (is : List StackInput)
    (u : Tracker × Registrations) : Prop :=
  ∀ q h, (u.1.rawQueue q).valuesAt h ≠ [] → u.2.context q ≤ h →
    (q, u.2.context q) ∈ u.2.owed ∨ CutOff P s is (q, u.2.context q)

theorem owed_or_cutOff (hx : x ∈ requests (stackStep P (run (stackStep P) s is).1 i).2) :
    x ∈ (stackStep P (run (stackStep P) s is).1 i).1.2.owed ∨ CutOff P s (is ++ [i]) x := by
  by_cases hs : i.requested x = 0
  · exact .inl (mem_owed_stackStep.mpr (.inr ⟨hx, hs⟩))
  · exact .inr ⟨is, i, [], rfl, .inr ⟨hx, hs⟩, trivial⟩

theorem waits_step (hu : (run (stackStep P) s is).1 = u) (hw : Waits P s is u) :
    Waits P s (is ++ [i]) (stackStep P u i).1 := by
  subst hu
  intro q k hleft hle
  rcases context_stackStep P (run (stackStep P) s is).1 i q with hasked | ⟨hno, hsame⟩
  · exact owed_or_cutOff hasked
  rw [hsame] at hle ⊢
  generalize hr : (run (stackStep P) s is).1 = r at *
  -- the stack was not asked, so this is no new data, and no callback of this queue left it
  have hold : (r.1.rawQueue q).valuesAt k ≠ [] ∧ ∀ c ∈ i.action.calls?, c.1 ≠ q := by
    rcases stackStep_cases P r i with ⟨hc, ha, hasks⟩ | ⟨queue, link, status, hc, ht, ho⟩
    · refine ⟨fun hnone => ?_, by simp [hc]⟩
      rw [(ha q k).1, hnone, List.nil_append] at hleft
      obtain ⟨data, hdata⟩ := List.exists_mem_of_ne_nil _ hleft
      obtain ⟨a, hm⟩ := mem_queued.mp hdata
      exact hno k (mem_requests.mpr (hasks a q k data hm))
    · rw [ht] at hleft
      obtain ⟨data, hdata⟩ := List.exists_mem_of_ne_nil _ hleft
      have hentry := Multimap.mem_valuesAt.mp hdata
      refine ⟨List.ne_nil_of_mem (Multimap.mem_valuesAt.mpr (sendRawPacket_mem hentry)),
        fun c hc' hq => ?_⟩
      rw [hc] at hc'
      cases hc'
      subst hq
      refine hno (r.2.context queue) ?_
      rw [ho, requests_sendRawPacket, if_neg fun hnone => ?_]
      · exact List.mem_singleton_self _
      · have hbound := Multimap.mem_lowerBound.mpr ⟨hentry, hle⟩
        rw [List.isEmpty_iff.mp hnone] at hbound
        cases hbound
  have hnotAccepted : ¬ Accepts P r i (q, r.2.context q) := fun h => hno _ h.1
  rcases hw q k hold.1 hle with howed | hcut
  · by_cases hends : i.action.endsLink? = some (r.2.context q)
    · exact .inr ⟨is, i, [], rfl, .inl hends, trivial⟩
    · refine .inl (mem_owed_stackStep.mpr (.inl ⟨howed, ?_⟩))
      rintro (⟨c, hc, hx⟩ | he)
      · exact hold.2 c hc (Prod.mk.inj hx).1
      · exact hends he
  · exact .inr (hcut.snoc (hr ▸ hnotAccepted))

end Waiting

def unasked (a : Addr) : Tracker × Registrations := ({ announceAddr := a }, {})

theorem waits_run (P : Platform) (a : Addr) (is : List StackInput) :
    Waits P (unasked a) is (run (stackStep P) (unasked a) is).1 := by
  have hinit : Waits P (unasked a) [] (unasked a) := by
    intro q h hleft
    cases q <;> exact absurd rfl hleft
  have hinv := run_history
    (fun is u _ => (run (stackStep P) (unasked a) is).1 = u ∧ Waits P (unasked a) is u) ⟨rfl, hinit⟩
    (fun before u _ i ⟨hu, hw⟩ => ⟨by rw [run_snoc, hu], waits_step hu hw⟩) is
  exact hinv.2

/-- In every run, misdelivered data included: where data is queued at the context word
of its queue or above it, the link of the context word owes a callback, or it has ended
or refused and has accepted no request since. -/
theorem waiting_is_owed (P : Platform) (a : Addr) (is : List StackInput)
    (queue : RawQueue) (h : Handle)
    (hw : ((run (stackStep P) (unasked a) is).1.1.rawQueue queue).valuesAt h ≠ [])
    (hle : (run (stackStep P) (unasked a) is).1.2.context queue ≤ h) :
    (queue, (run (stackStep P) (unasked a) is).1.2.context queue) ∈
        (run (stackStep P) (unasked a) is).1.2.owed ∨
      CutOff P (unasked a) is (queue, (run (stackStep P) (unasked a) is).1.2.context queue) :=
  waits_run P a is queue h hw hle

def twoAsked : List StackInput :=
  [⟨.makes ⟨.event ⟨.connectionComplete 1 (List.replicate 6 0) .lePublic .master, .idle⟩, rfl⟩,
    fun _ => 0⟩,
    ⟨.makes ⟨.event ⟨.gattMtu 1 512, .idle⟩, rfl⟩, fun _ => 0⟩,
    ⟨.makes ⟨.event ⟨.connectionComplete 2 (List.replicate 6 0) .lePublic .master, .idle⟩, rfl⟩,
      fun _ => 0⟩,
    ⟨.makes ⟨.event ⟨.gattMtu 2 512, .idle⟩, rfl⟩, fun _ => 0⟩,
    ⟨.makes ⟨.send 0 (.announce { Announce.new with packetTtl := 3, name := [0x61] }) (.entry 1)
      (opened 1), rfl⟩, fun _ => 0⟩,
    ⟨.makes ⟨.send 0 (.announce { Announce.new with packetTtl := 3, name := [0x62] }) (.entry 2)
      (opened 2), rfl⟩, fun _ => 0⟩]

theorem second_is_owed :
    let s := (run (stackStep .bare) (unasked 0) twoAsked).1
    s.2.context .write = 2 ∧ (s.1.rawQueue .write).valuesAt 2 ≠ [] ∧
    ((.write, s.2.context .write) ∈ s.2.owed ∨
      CutOff .bare (unasked 0) twoAsked (.write, s.2.context .write)) := by
  intro s
  have hw : (s.1.rawQueue .write).valuesAt 2 ≠ [] := by decide +kernel
  exact ⟨by decide +kernel, hw, waiting_is_owed .bare 0 twoAsked .write 2 hw (by decide +kernel)⟩

-- ---------------------------------------------------------------------------
-- Calling back
-- ---------------------------------------------------------------------------

def queuedCount (t : Tracker) : Nat :=
  (t.rawQueue .notify).entries.length + (t.rawQueue .write).entries.length

/-- A link makes a callback it owes, and the stack takes what it is handed. -/
def Answers (s : Tracker × Registrations) (i : StackInput) : Prop :=
  ∃ c ∈ i.action.calls?, accepted c.2.2 ∧ (c.1, c.2.1) ∈ s.2.owed

instance (s : Tracker × Registrations) (i : StackInput) : Decidable (Answers s i) :=
  inferInstanceAs (Decidable (∃ c ∈ i.action.calls?, _))

theorem queuedCount_sendRawPacket (queue : RawQueue) (t : Tracker) (h : Handle)
    (ha : accepted status) :
    queuedCount (sendRawPacket queue t h status).1 +
        (if ((t.rawQueue queue).lowerBound h).isEmpty then 0 else 1) = queuedCount t := by
  simp only [queuedCount, sendRawPacket_rawQueue]
  cases hl : (t.rawQueue queue).lowerBound h with
  | nil => simp [handOverFront_idle hl]
  | cons e es =>
    have hlength := Multimap.length_eraseLowerBound hl
    have hfront : (handOverFront queue t h status).1 =
        (t.touchConnection h).setRawQueue queue ((t.rawQueue queue).eraseLowerBound h) := by
      simp [handOverFront, hl, ha]
    cases queue
    all_goals
      simp only [hfront, rawQueue_setRawQueue, rawQueue_touchConnection]
      simp
      omega

theorem valuesAt_sendRawPacket_below (queue q : RawQueue) (t : Tracker) (status : UInt8)
    (hk : q = queue → k < h) :
    ((sendRawPacket queue t h status).1.rawQueue q).valuesAt k = (t.rawQueue q).valuesAt k := by
  rw [sendRawPacket_rawQueue]
  cases hl : (t.rawQueue queue).lowerBound h with
  | nil => rw [handOverFront_idle hl]
  | cons e es =>
    simp only [handOverFront, hl]
    split
    · rw [rawQueue_setRawQueue]
      split
      next hq =>
        subst hq
        exact Multimap.valuesAt_eraseLowerBound_of_lt (hk rfl)
      next => rw [rawQueue_touchConnection]
    · rw [rawQueue_touchConnection]

section Answered
variable {s : Tracker × Registrations} {i : StackInput}

/-- Either a string goes, or nothing is left from the context word on and the link owes no
callback any more. -/
theorem answers_nearer (h : Answers s i) :
    queuedCount (stackStep P s i).1.1 + (stackStep P s i).1.2.owed.card <
    queuedCount s.1 + s.2.owed.card := by
  obtain ⟨⟨queue, link, status⟩, hc, ha, howed⟩ := h
  rcases stackStep_cases P s i with ⟨hnone, -⟩ | ⟨queue', link', status', hc', ht, ho⟩
  · rw [hnone] at hc
    cases hc
  rw [hc'] at hc
  cases hc
  have hcount := queuedCount_sendRawPacket queue s.1 (s.2.context queue) ha
  have hasked := requests_sendRawPacket queue s.1 (s.2.context queue) status
  have hsettles : i.action.Settles (queue, link) := .inl ⟨_, hc', rfl⟩
  -- beside what the callback asks for, one less is owed
  have hsub : (stackStep P s i).1.2.owed ⊆ s.2.owed.erase (queue, link) ∪
      (requests (stackStep P s i).2).toFinset := by
    intro x hx
    rcases mem_owed_stackStep.mp hx with ⟨hm, hnot⟩ | ⟨hm, -⟩
    · exact Finset.mem_union_left _ (Finset.mem_erase.mpr ⟨fun he => hnot (he ▸ hsettles), hm⟩)
    · exact Finset.mem_union_right _ (List.mem_toFinset.mpr hm)
  have hcard := (Finset.card_le_card hsub).trans (Finset.card_union_le _ _)
  rw [Finset.card_erase_of_mem howed] at hcard
  have hpos := Finset.card_pos.mpr ⟨_, howed⟩
  rw [ht]
  cases hl : (s.1.rawQueue queue).lowerBound (s.2.context queue) with
  | nil =>
    have hnone : requests (stackStep P s i).2 = [] := by
      rw [ho, hasked, sendRawPacket_rawQueue, handOverFront_idle hl, hl]
      rfl
    rw [hnone] at hcard
    rw [hl] at hcount
    simp only [List.isEmpty_nil, if_true, List.toFinset_nil, Finset.card_empty] at hcount hcard
    omega
  | cons e es =>
    have hone : (requests (stackStep P s i).2).toFinset.card ≤ 1 := by
      refine (List.toFinset_card_le _).trans ?_
      rw [ho, hasked]
      split <;> simp
    rw [hl] at hcount
    simp only [List.isEmpty_cons, Bool.false_eq_true, if_false] at hcount
    omega

theorem answers_context (h : Answers s i) : (stackStep P s i).1.2.context = s.2.context := by
  obtain ⟨c, hc, -⟩ := h
  rcases stackStep_cases P s i with ⟨hnone, -⟩ | ⟨queue, link, status, -, -, ho⟩
  · rw [hnone] at hc
    cases hc
  funext q
  rcases context_stackStep P s i q with hm | ⟨-, hsame⟩
  · -- a callback asks for its own handle again
    have hasked := hm
    rw [ho, requests_sendRawPacket] at hasked
    split at hasked
    · cases hasked
    · obtain ⟨rfl, hcontext⟩ := Prod.mk.inj (List.mem_singleton.mp hasked)
      exact hcontext
  · exact hsame

theorem answers_below (h : Answers s i) (queue : RawQueue) (hk : k < s.2.context queue) :
    ((stackStep P s i).1.1.rawQueue queue).valuesAt k = (s.1.rawQueue queue).valuesAt k := by
  obtain ⟨c, hc, -⟩ := h
  rcases stackStep_cases P s i with ⟨hnone, -⟩ | ⟨q, link, status, -, ht, -⟩
  · rw [hnone] at hc
    cases hc
  · rw [ht]
    exact valuesAt_sendRawPacket_below q queue s.1 status fun he => he ▸ hk

theorem answered_run (hcs : Along (stackStep P) Answers s cs) :
    (run (stackStep P) s cs).1.2.context = s.2.context ∧ ∀ queue h, h < s.2.context queue →
      ((run (stackStep P) s cs).1.1.rawQueue queue).valuesAt h =
      (s.1.rawQueue queue).valuesAt h := by
  induction cs generalizing s with
  | nil => exact ⟨rfl, fun _ _ _ => rfl⟩
  | cons i is ih =>
    obtain ⟨hcontext, hbelow⟩ := ih hcs.2
    have hsame := answers_context (P := P) hcs.1
    refine ⟨hcontext.trans hsame, fun queue h hlt => ?_⟩
    exact (hbelow queue h (hsame ▸ hlt)).trans (answers_below hcs.1 queue hlt)

end Answered

/-- Calling back comes to an end: after at most as many callbacks as there are strings
queued and callbacks owed none is owed any more. It never touches what is queued below
the context words, and when it ends that is what is left, but for links that are cut off. -/
theorem drains_when_answered (P : Platform) (a : Addr) (is cs : List StackInput)
    (hcs : Along (stackStep P) Answers (run (stackStep P) (unasked a) is).1 cs) :
    let s := (run (stackStep P) (unasked a) is).1
    let u := (run (stackStep P) s cs).1
    cs.length + (queuedCount u.1 + u.2.owed.card) ≤ queuedCount s.1 + s.2.owed.card ∧
      u.2.context = s.2.context ∧
      (∀ queue h, h < s.2.context queue →
        (u.1.rawQueue queue).valuesAt h = (s.1.rawQueue queue).valuesAt h) ∧
      (u.2.owed = ∅ → ∀ queue h, (u.1.rawQueue queue).valuesAt h ≠ [] →
        h < u.2.context queue ∨ CutOff P (unasked a) (is ++ cs) (queue, u.2.context queue)) := by
  intro s u
  obtain ⟨hcontext, hbelow⟩ := answered_run hcs
  refine ⟨length_run_le (fun s => queuedCount s.1 + s.2.owed.card) (fun _ _ => answers_nearer) hcs,
    hcontext, hbelow, fun hnone queue h hleft => ?_⟩
  by_cases hlt : h < u.2.context queue
  · exact .inl hlt
  · right
    have hwaits := waits_run P a (is ++ cs)
    rw [run_append] at hwaits
    rcases hwaits queue h hleft (UInt16.not_lt.mp hlt) with howed | hcut
    · rw [show (run (stackStep P) s cs).1.2.owed = ∅ from hnone] at howed
      exact absurd howed (Finset.notMem_empty _)
    · exact hcut

/-- The link of handle 1 calls back for handle 2, whose data goes, and that of handle 2
finds none. The data of handle 1 is still there, and nobody is asked for it. -/
theorem first_left_unasked :
    let s := (run (stackStep .bare) (unasked 0) twoAsked).1
    let cs : List StackInput := [⟨.canSend .write 1 0 .idle, fun _ => 0⟩,
      ⟨.canSend .write 2 0 .idle, fun _ => 0⟩]
    let u := (run (stackStep .bare) s cs).1
    (u.2.owed = ∅ ∧ (u.1.rawQueue .write).valuesAt 1 ≠ [] ∧ (u.1.rawQueue .write).valuesAt 2 = []) ∧
      cs.length + (queuedCount u.1 + u.2.owed.card) ≤ queuedCount s.1 + s.2.owed.card ∧
      u.2.context = s.2.context ∧
      (∀ queue h, h < s.2.context queue →
        (u.1.rawQueue queue).valuesAt h = (s.1.rawQueue queue).valuesAt h) ∧
      (u.2.owed = ∅ → ∀ queue h, (u.1.rawQueue queue).valuesAt h ≠ [] →
        h < u.2.context queue ∨ CutOff .bare (unasked 0) (twoAsked ++ cs) (queue,
          u.2.context queue)) :=
  ⟨by decide +kernel, drains_when_answered .bare 0 twoAsked
    [⟨.canSend .write 1 0 .idle, fun _ => 0⟩,
      ⟨.canSend .write 2 0 .idle, fun _ => 0⟩] (by decide +kernel)⟩

end BitchatRepeater
