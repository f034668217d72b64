import BitchatRepeater.EventLaws

/-!
# Delivery from the raw queues

`notifyRawPacket` and `writeRawPacket` take the entry at
`equal_range(handle).first` and test that iterator against `end()` only. With
nothing queued under the handle it points at the next greater handle, if there
is one, and that handle's data is handed over. `noMisdelivery_iff` says that
this is the only way for data to go astray.
-/

namespace BitchatRepeater

open Lib Tracker ProtocolProcessor

variable {t u : Tracker} {log out : List Effect}

inductive RawOp
  | send (address : Addr) (packet : Packet) (target : ConnPtr) (connection : BleConnection)
  | event (i : Input)

def rawStep (P : Platform) (t : Tracker) : RawOp → Tracker × List Effect
  | .send address packet target connection =>
    t.sendPacketToConnection address packet target connection
  | .event i => step P t i

def RawOp.callback? : RawOp → Option (RawQueue × Handle × UInt8)
  | .event ⟨.canSendNotification h status, _⟩ => some (.notify, h, status)
  | .event ⟨.canWriteWithoutResponse h status, _⟩ => some (.write, h, status)
  | _ => none

def delivered (queue : RawQueue) (h : Handle) (log : List Effect) : List Bytes :=
  log.filterMap fun
    | .handOver q k _ data status =>
      if q = queue ∧ k = h ∧ accepted status then some data else none
    | _ => none

@[simp] theorem delivered_append :
    delivered queue h (log ++ out) = delivered queue h log ++ delivered queue h out :=
  List.filterMap_append

-- ---------------------------------------------------------------------------
-- The property
-- ---------------------------------------------------------------------------

/-- What a callback of `queue` for `h` may do after the effects `log`: it hands
over the oldest data queued under `h` that was not taken yet, and leaves what is
queued under any other handle. -/
structure Faithful (queue : RawQueue) (h : Handle) (log : List Effect) (t u : Tracker)
    (out : List Effect) : Prop where
  inOrder : ∀ valueHandle data status, .handOver queue h valueHandle data status ∈ out →
    ∃ rest, queued queue h log = delivered queue h log ++ data :: rest
  others : ∀ q k, (q, k) ≠ (queue, h) → (u.rawQueue q).valuesAt k = (t.rawQueue q).valuesAt k

def NoMisdelivery (P : Platform) (t : Tracker) (ops : List RawOp) : Prop :=
  ∀ before op after, ops = before ++ op :: after → ∀ queue h status,
    op.callback? = some (queue, h, status) →
    Faithful queue h (run (rawStep P) t before).2 (run (rawStep P) t before).1
      (rawStep P (run (rawStep P) t before).1 op).1 (rawStep P (run (rawStep P) t before).1 op).2

/-- A callback comes for a handle with data, or for one that no greater handle has data behind. -/
def Served (t : Tracker) (op : RawOp) : Prop :=
  match op.callback? with
  | some (queue, h, _) =>
    (t.rawQueue queue).valuesAt h ≠ [] ∨ ∀ e ∈ (t.rawQueue queue).entries, e.1 ≤ h
  | none => True

-- ---------------------------------------------------------------------------
-- Callbacks
-- ---------------------------------------------------------------------------

@[simp] theorem rawQueue_touchConnection (q : RawQueue) :
    (t.touchConnection h).rawQueue q = t.rawQueue q := by
  cases q <;> rfl

theorem sendRawPacket_rawQueue (q : RawQueue) :
    (sendRawPacket queue t h status).1.rawQueue q =
    (handOverFront queue t h status).1.rawQueue q := by
  unfold sendRawPacket
  simp only
  split
  · exact rawQueue_touchConnection q
  · rfl

theorem sendRawPacket_out (queue : RawQueue) (t : Tracker) (h : Handle) (status : UInt8) :
    ∃ rest, (sendRawPacket queue t h status).2 = (handOverFront queue t h status).2 ++ rest ∧
      (rest = [] ∨ rest = [.requestToSend queue h]) := by
  unfold sendRawPacket
  simp only
  split
  · exact ⟨[], by simp, .inl rfl⟩
  · exact ⟨_, rfl, .inr rfl⟩

theorem handOverFront_idle (h : (t.rawQueue queue).lowerBound k = []) :
    handOverFront queue t k status = (t, []) := by
  simp [handOverFront, h]

theorem handOverFront_out (h : (t.rawQueue queue).lowerBound k = (j, data) :: rest) :
    (handOverFront queue t k status).2 =
      (if (t.connectionAt k).hasDataToSend then [] else [.assertFailed]) ++
        [.handOver queue k (t.connectionAt k).bitchatCharacteristicValueHandle data status] := by
  simp [handOverFront, h]

theorem handOverFront_valuesAt (h : (t.rawQueue queue).valuesAt k = data :: rest) (q : RawQueue)
    (j : Handle) :
    ((handOverFront queue t k status).1.rawQueue q).valuesAt j =
      if q = queue ∧ j = k ∧ accepted status then rest else (t.rawQueue q).valuesAt j := by
  obtain ⟨es, hl⟩ := Multimap.lowerBound_of_valuesAt h
  simp only [handOverFront, hl]
  by_cases ha : accepted status
  · simp only [ha, if_true, rawQueue_setRawQueue, and_true]
    by_cases hq : q = queue
    · subst hq
      simp only [true_and, if_true, rawQueue_touchConnection, Multimap.valuesAt_eraseLowerBound h]
    · simp [hq]
  · simp [ha]

theorem sendRawPacket_idle (h : (t.rawQueue queue).lowerBound k = []) :
    .handOver q j w data s ∉ (sendRawPacket queue t k status).2 := by
  obtain ⟨rest, ho, hr⟩ := sendRawPacket_out queue t k status
  rw [ho, handOverFront_idle h]
  rcases hr with rfl | rfl <;> simp

theorem sendRawPacket_delivered (h : (t.rawQueue queue).lowerBound k = (i, data) :: rest)
    (q : RawQueue) (j : Handle) :
    delivered q j (sendRawPacket queue t k status).2 =
      if q = queue ∧ j = k ∧ accepted status then [data] else [] := by
  obtain ⟨more, ho, hm⟩ := sendRawPacket_out queue t k status
  have hmore : delivered q j more = [] := by
    rcases hm with rfl | rfl <;> rfl
  rw [ho, handOverFront_out h, delivered_append, delivered_append, hmore]
  have hassert : delivered q j (if (t.connectionAt k).hasDataToSend then []
    else [.assertFailed]) = [] := by
    split <;> rfl
  rw [hassert, List.append_nil, List.nil_append]
  simp only [delivered, List.filterMap_cons, List.filterMap_nil, eq_comm]
  split <;> split <;> simp_all

theorem sendRawPacket_queued (queue : RawQueue) (t : Tracker) (h : Handle) (status : UInt8)
    (q : RawQueue) (k : Handle) : queued q k (sendRawPacket queue t h status).2 = [] := by
  obtain ⟨rest, ho, hr⟩ := sendRawPacket_out queue t h status
  have hrest : queued q k rest = [] := by
    rcases hr with rfl | rfl <;> rfl
  rw [ho, queued_append, hrest, List.append_nil]
  cases hl : (t.rawQueue queue).lowerBound h with
  | nil => rw [handOverFront_idle hl]; rfl
  | cons e es =>
    rw [handOverFront_out hl, queued_append]
    split <;> rfl

-- ---------------------------------------------------------------------------
-- Other operations
-- ---------------------------------------------------------------------------

theorem delivered_of_sending (h : ∀ e ∈ out, sending e) : delivered q k out = [] := by
  refine List.filterMap_eq_nil_iff.mpr fun e he => ?_
  have hs := h e he
  cases e <;> first | rfl | cases hs

theorem delivered_of_minor (h : ∀ e ∈ out, minor e) : delivered q k out = [] := by
  refine List.filterMap_eq_nil_iff.mpr fun e he => ?_
  have hs := h e he
  cases e <;> first | rfl | cases hs

theorem queued_of_minor (h : ∀ e ∈ out, minor e) : queued q k out = [] := by
  refine List.filterMap_eq_nil_iff.mpr fun e he => ?_
  have hs := h e he
  cases e <;> first | rfl | cases hs

/-- The operation appends what it queues, and hands nothing over. -/
def Appends (t u : Tracker) (out : List Effect) : Prop :=
  ∀ q k, (u.rawQueue q).valuesAt k = (t.rawQueue q).valuesAt k ++ queued q k out ∧
    delivered q k out = []

theorem appends_of_emits (h : Emits t u out) : Appends t u out :=
  fun q k => ⟨h.raw q k, delivered_of_sending h.kinds⟩

theorem appends_same (hn : u.rawPacketToNotify = t.rawPacketToNotify)
    (hw : u.rawPacketToWrite = t.rawPacketToWrite) (hq : ∀ q k, queued q k out = [])
    (hd : ∀ q k, delivered q k out = []) : Appends t u out := by
  intro q k
  rw [hq, List.append_nil]
  refine ⟨?_, hd q k⟩
  cases q with
  | notify => exact congrArg (·.valuesAt k) hn
  | write => exact congrArg (·.valuesAt k) hw

theorem sendPackets_appends (stale : Stale) (t : Tracker) :
    Appends t (t.sendPackets stale).1 (t.sendPackets stale).2 := by
  obtain ⟨v, targeted, hs, he, -⟩ := sendPackets_sends stale t
  rw [he]
  intro q k
  refine ⟨?_, delivered_of_sending hs.kinds⟩
  rw [← hs.raw q k]
  cases q <;> rfl

theorem Outcome.appends (h : Outcome P t i r) : Appends t r.1 r.2 ∨
    ∃ queue k status, (i.event = .canSendNotification k status ∧ queue = .notify ∨
      i.event = .canWriteWithoutResponse k status ∧ queue = .write) ∧
      r = sendRawPacket queue t k status := by
  cases h with
  | calm h =>
    obtain ⟨_, _, _, _, _, _, rfl⟩ := h.eq
    exact .inl (appends_same rfl rfl (fun _ _ => queued_of_minor h.kinds)
      (fun _ _ => delivered_of_minor h.kinds))
  | stores hi hr hc hl hs =>
    obtain ⟨_, _, _, _, _, _, rfl⟩ := hc.eq
    obtain ⟨_, _, _, _, _, rfl⟩ := (hs.receives hl).eq
    exact .inl (appends_same rfl rfl (fun _ _ => rfl) (fun _ _ => rfl))
  | own h =>
    obtain ⟨_, rfl⟩ := h.eq
    exact .inl (appends_same rfl rfl (fun _ _ => rfl) (fun _ _ => rfl))
  | drains queue k status he => exact .inr ⟨queue, k, status, he, rfl⟩
  | announces h =>
    obtain ⟨_, _, _, rfl⟩ := h.eq
    exact .inl (appends_same rfl rfl (fun _ _ => rfl) (fun _ _ => rfl))
  | sends => exact .inl (sendPackets_appends _ t)
  | cleans => exact .inl (appends_same rfl rfl (fun _ _ => rfl) (fun _ _ => rfl))

theorem mem_queued : data ∈ queued q k out ↔ ∃ a, .queueRaw a q k data ∈ out := by
  simp only [queued, List.mem_filterMap]
  constructor
  · rintro ⟨e, he, hd⟩
    cases e with
    | queueRaw a q' k' data' =>
      simp only [Option.ite_none_right_eq_some, Option.some.injEq] at hd
      obtain ⟨⟨rfl, rfl⟩, rfl⟩ := hd
      exact ⟨a, he⟩
    | _ => cases hd
  · rintro ⟨a, he⟩
    exact ⟨_, he, by simp⟩

theorem sendRawPacket_mem (h : e ∈ ((sendRawPacket queue t k status).1.rawQueue q).entries) :
    e ∈ (t.rawQueue q).entries := by
  rw [sendRawPacket_rawQueue] at h
  unfold handOverFront at h
  split at h
  · exact h
  · simp only at h
    split at h
    · rw [rawQueue_setRawQueue] at h
      split at h
      next hq =>
        subst hq
        exact rawQueue_touchConnection (t := t) q ▸ Multimap.mem_of_mem_eraseLowerBound h
      next => exact rawQueue_touchConnection (t := t) q ▸ h
    · exact rawQueue_touchConnection (t := t) q ▸ h

theorem sendRawPacket_handOver_eq (hl : (t.rawQueue queue).lowerBound k = e :: rest)
    (h : .handOver q j w data s ∈ (sendRawPacket queue t k status).2) :
    Effect.handOver q j w data s =
      .handOver queue k (t.connectionAt k).bitchatCharacteristicValueHandle e.2 status := by
  obtain ⟨more, ho, hm⟩ := sendRawPacket_out queue t k status
  rw [ho, handOverFront_out hl] at h
  rcases hm with rfl | rfl <;> split at h <;> simpa using h

theorem sendRawPacket_handOver (h : .handOver q j w data s ∈ (sendRawPacket queue t k status).2) :
    ∃ i, (i, data) ∈ (t.rawQueue q).entries := by
  cases hl : (t.rawQueue queue).lowerBound k with
  | nil => exact absurd h (sendRawPacket_idle hl)
  | cons e rest =>
    cases sendRawPacket_handOver_eq hl h
    exact ⟨e.1, (Multimap.mem_lowerBound.mp (hl ▸ List.mem_cons_self)).1⟩

theorem Outcome.mem_rawQueue (h : Outcome P t i r) (hm : (k, data) ∈ (r.1.rawQueue q).entries) :
    (k, data) ∈ (t.rawQueue q).entries ∨ ∃ a, .queueRaw a q k data ∈ r.2 := by
  rcases h.appends with ha | ⟨queue, j, status, -, rfl⟩
  · rwa [← Multimap.mem_valuesAt, (ha q k).1, List.mem_append, Multimap.mem_valuesAt,
      mem_queued] at hm
  · exact .inl (sendRawPacket_mem hm)

theorem Outcome.handOver (h : Outcome P t i r) (hm : .handOver q k w data s ∈ r.2) :
    ∃ j, (j, data) ∈ (t.rawQueue q).entries := by
  cases h with
  | calm h => exact absurd (h.kinds _ hm) Bool.false_ne_true
  | drains queue k status => exact sendRawPacket_handOver hm
  | sends =>
    obtain ⟨v, targeted, hs, -, -⟩ := sendPackets_sends i.ambient.stale t
    exact absurd (hs.kinds _ hm) Bool.false_ne_true
  | _ => simp at hm

theorem rawStep_cases (P : Platform) (t : Tracker) (op : RawOp) :
    (op.callback? = none ∧ Appends t (rawStep P t op).1 (rawStep P t op).2) ∨
    ∃ queue h status, op.callback? = some (queue, h, status) ∧
      rawStep P t op = sendRawPacket queue t h status := by
  cases op with
  | send address packet target connection =>
    exact .inl ⟨rfl, appends_of_emits (t.sendPacketToConnection_emits address packet
      target connection)⟩
  | event i =>
    obtain ⟨event, ambient⟩ := i
    have ho := (step_outcome P t ⟨event, ambient⟩).appends
    cases event with
    | canSendNotification k status => exact .inr ⟨.notify, k, status, rfl, rfl⟩
    | canWriteWithoutResponse k status => exact .inr ⟨.write, k, status, rfl, rfl⟩
    | _ =>
      rcases ho with ha | ⟨_, _, _, ⟨he, -⟩ | ⟨he, -⟩, -⟩
      · exact .inl ⟨rfl, ha⟩
      · cases he
      · cases he

-- ---------------------------------------------------------------------------
-- Runs
-- ---------------------------------------------------------------------------

/-- What was queued under a handle was delivered or is still there, in order. -/
def Fifo (t : Tracker) (log : List Effect) : Prop :=
  ∀ q k, queued q k log = delivered q k log ++ (t.rawQueue q).valuesAt k

theorem Appends.fifo (h : Appends t u out) (hf : Fifo t log) : Fifo u (log ++ out) := by
  intro q k
  obtain ⟨hv, hd⟩ := h q k
  rw [queued_append, delivered_append, hd, hv, hf q k, List.append_nil, List.append_assoc]

/-- With nothing under the handle and nothing behind it, the iterator is `end()`. -/
theorem lowerBound_of_served (hv : (t.rawQueue queue).valuesAt h = [])
    (hs : ∀ e ∈ (t.rawQueue queue).entries, e.1 ≤ h) : (t.rawQueue queue).lowerBound h = [] := by
  refine Multimap.lowerBound_eq_nil.mpr fun e he => lt_of_le_of_ne (hs e he) fun hk => ?_
  have hm : e.2 ∈ (t.rawQueue queue).valuesAt h := Multimap.mem_valuesAt.mpr (hk ▸ he)
  rw [hv] at hm
  cases hm

theorem fifo_sendRawPacket (hf : Fifo t log)
    (hs : (t.rawQueue queue).valuesAt h ≠ [] ∨ ∀ e ∈ (t.rawQueue queue).entries, e.1 ≤ h) :
    Fifo (sendRawPacket queue t h status).1 (log ++ (sendRawPacket queue t h status).2) := by
  intro q k
  rw [queued_append, delivered_append, sendRawPacket_queued, List.append_nil,
    sendRawPacket_rawQueue, hf q k]
  cases hv : (t.rawQueue queue).valuesAt h with
  | nil =>
    have hl := lowerBound_of_served hv (hs.resolve_left (not_not.mpr hv))
    have hd : delivered q k (sendRawPacket queue t h status).2 = [] := by
      refine List.filterMap_eq_nil_iff.mpr fun e he => ?_
      cases e with
      | handOver => exact absurd he (sendRawPacket_idle hl)
      | _ => rfl
    rw [hd, handOverFront_idle hl, List.append_nil]
  | cons data rest =>
    obtain ⟨es, hl⟩ := Multimap.lowerBound_of_valuesAt hv
    rw [sendRawPacket_delivered hl, handOverFront_valuesAt hv]
    by_cases hc : q = queue ∧ k = h ∧ accepted status
    · obtain ⟨rfl, rfl, ha⟩ := hc
      simp [ha, hv]
    · simp [hc]

theorem rawStep_fifo (hs : Served t op) (hf : Fifo t log) :
    Fifo (rawStep P t op).1 (log ++ (rawStep P t op).2) := by
  rcases rawStep_cases P t op with ⟨-, ha⟩ | ⟨queue, h, status, hc, he⟩
  · exact ha.fifo hf
  · simp only [Served, hc] at hs
    rw [he]
    exact fifo_sendRawPacket hf hs

theorem run_fifo (hf : Fifo t []) (h : Along (rawStep P) Served t ops) :
    Fifo (run (rawStep P) t ops).1 (run (rawStep P) t ops).2 := by
  have hrun := run_invariant (fun _ _ _ hs hf => rawStep_fifo hs hf) hf h
  simpa using hrun

theorem fifo_init (a : Addr) : Fifo { announceAddr := a } [] := by
  intro q k
  cases q <;> rfl

/-- A callback that is not served hands over data of another handle. -/
theorem served_of_faithful (hf : Fifo t log)
    (h : Faithful queue k log t (sendRawPacket queue t k status).1
      (sendRawPacket queue t k status).2) :
    (t.rawQueue queue).valuesAt k ≠ [] ∨ ∀ e ∈ (t.rawQueue queue).entries, e.1 ≤ k := by
  by_cases hv : (t.rawQueue queue).valuesAt k = []
  · right
    intro e he
    by_contra hlt
    cases hl : (t.rawQueue queue).lowerBound k with
    | nil => exact hlt (Multimap.lowerBound_eq_nil.mp hl e he).le
    | cons first rest =>
      obtain ⟨more, ho, -⟩ := sendRawPacket_out queue t k status
      obtain ⟨tail, ht⟩ := h.inOrder (t.connectionAt k).bitchatCharacteristicValueHandle
        first.2 status
        (by rw [ho, handOverFront_out hl]; simp)
      -- everything queued under the handle was delivered already
      rw [hf queue k, hv] at ht
      simpa using List.append_cancel_left ht
  · exact .inl hv

theorem faithful_of_served (hf : Fifo t log)
    (h : (t.rawQueue queue).valuesAt k ≠ [] ∨ ∀ e ∈ (t.rawQueue queue).entries, e.1 ≤ k) :
    Faithful queue k log t (sendRawPacket queue t k status).1
      (sendRawPacket queue t k status).2 := by
  cases hv : (t.rawQueue queue).valuesAt k with
  | nil =>
    have hl := lowerBound_of_served hv (h.resolve_left (not_not.mpr hv))
    refine ⟨fun w data s hm => absurd hm (sendRawPacket_idle hl), fun q j _ => ?_⟩
    rw [sendRawPacket_rawQueue, handOverFront_idle hl]
  | cons data rest =>
    obtain ⟨es, hl⟩ := Multimap.lowerBound_of_valuesAt hv
    obtain ⟨more, ho, hm⟩ := sendRawPacket_out queue t k status
    refine ⟨fun w d s hd => ?_, fun q j hne => ?_⟩
    · have hd : d = data := by
        rw [ho, handOverFront_out hl] at hd
        rcases hm with rfl | rfl <;> split at hd <;> simp_all
      exact ⟨rest, by rw [hf queue k, hv, hd]⟩
    · rw [sendRawPacket_rawQueue, handOverFront_valuesAt hv, if_neg]
      rintro ⟨rfl, rfl, -⟩
      exact hne rfl

theorem faithful_iff_served (hf : Fifo t log) (hc : op.callback? = some (queue, k, status)) :
    Faithful queue k log t (rawStep P t op).1 (rawStep P t op).2 ↔ Served t op := by
  have he : rawStep P t op = sendRawPacket queue t k status := by
    rcases rawStep_cases P t op with ⟨hn, -⟩ | ⟨_, _, _, hc', he⟩
    · rw [hc] at hn
      cases hn
    · rw [hc] at hc'
      cases hc'
      exact he
  simp only [Served, hc, he]
  exact ⟨served_of_faithful hf, faithful_of_served hf⟩

/-- In a run from the start, no callback misdelivers if and only if each comes
for a handle that has data queued, or that is above all handles with data. -/
theorem noMisdelivery_iff (P : Platform) (a : Addr) (ops : List RawOp) :
    NoMisdelivery P { announceAddr := a } ops ↔
      Along (rawStep P) Served { announceAddr := a } ops := by
  constructor
  · intro h
    refine along_of_prefixes fun before op after he hb => ?_
    cases hc : op.callback? with
    | none => simp [Served, hc]
    | some callback =>
      obtain ⟨queue, k, status⟩ := callback
      exact (faithful_iff_served (run_fifo (fifo_init a) hb) hc).mp
        (h before op after he queue k status hc)
  · rintro h before op after rfl queue k status hc
    obtain ⟨hb, hop⟩ := h.at_prefix
    exact (faithful_iff_served (run_fifo (fifo_init a) hb) hc).mpr hop

def opened (h : Handle) : BleConnection :=
  { connectionHandle := h, connected := true, btAddressType := .lePublic, role := .master,
    btMtu := 512 }

/-- Handles 1 and 2 connect and get one packet each, then two callbacks come for handle 1. -/
def crossing : List RawOp :=
  [.event ⟨.connectionComplete 1 (List.replicate 6 0) .lePublic .master, .idle⟩,
    .event ⟨.gattMtu 1 512, .idle⟩,
    .event ⟨.connectionComplete 2 (List.replicate 6 0) .lePublic .master, .idle⟩,
    .event ⟨.gattMtu 2 512, .idle⟩,
    .send 0 (.announce { Announce.new with packetTtl := 3, name := [0x61] }) (.entry 1) (opened 1),
    .send 0 (.announce { Announce.new with packetTtl := 3, name := [0x62] }) (.entry 2) (opened 2),
    .event ⟨.canWriteWithoutResponse 1 0, .idle⟩,
    .event ⟨.canWriteWithoutResponse 1 0, .idle⟩]

theorem crossing_misdelivers : ¬ NoMisdelivery .bare { announceAddr := 0 } crossing := by
  intro h
  have hf := h (crossing.take 7) (.event ⟨.canWriteWithoutResponse 1 0, .idle⟩) [] rfl
    .write 1 0 rfl
  obtain ⟨rest, he⟩ := hf.inOrder 0
    [1, 1, 2, 0, 0, 0, 0, 0, 0, 0, 0, 0, 0, 1, 0, 0, 0, 0, 0, 0, 0, 0, 0x62,
      0] 0 (by decide +kernel)
  have hq : queued .write 1 (run (rawStep .bare) { announceAddr := 0 } (crossing.take 7)).2 =
      delivered .write 1 (run (rawStep .bare) { announceAddr := 0 } (crossing.take 7)).2 := by
    decide +kernel
  rw [hq] at he
  simpa using congrArg List.length he

end BitchatRepeater
