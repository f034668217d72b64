import BitchatRepeater.RawQueues

/-!
# What leaves a raw queue

Data may go to the wrong handle, but none is lost, doubled or overtaken: each
hand-over the stack accepts takes the oldest data that is left under some handle,
the one called for or a greater one.
-/

namespace BitchatRepeater

open Lib Tracker

variable {t u : Tracker} {log out : List Effect} {queue : RawQueue}

/-- A hand-over the stack accepted: the handle it was for, the handle the data was
queued under, and the data. -/
structure Taken where
  handle : Handle
  key : Handle
  data : Bytes
  deriving DecidableEq, Repr

def handedOver (queue : RawQueue) (log : List Effect) : List (Handle × Bytes) :=
  log.filterMap fun
    | .handOver q h _ data status => if q = queue ∧ accepted status then some (h, data) else none
    | _ => none

@[simp] theorem handedOver_append : handedOver queue (log ++ out) =
    handedOver queue log ++ handedOver queue out := List.filterMap_append

def takenFrom (k : Handle) (taken : List Taken) : List Bytes :=
  (taken.filter (·.key = k)).map Taken.data

@[simp] theorem takenFrom_append (k : Handle) (xs ys : List Taken) :
    takenFrom k (xs ++ ys) = takenFrom k xs ++ takenFrom k ys := by
  simp [takenFrom]

/-- The hand-overs of the log are `taken`, and what they took comes first in what
was queued. -/
structure Accounted (queue : RawQueue) (t : Tracker) (log : List Effect)
    (taken : List Taken) : Prop where
  handed : handedOver queue log = taken.map fun x => (x.handle, x.data)
  keys : ∀ x ∈ taken, x.handle ≤ x.key
  queued : ∀ k, queued queue k log = takenFrom k taken ++ (t.rawQueue queue).valuesAt k

-- ---------------------------------------------------------------------------
-- Steps
-- ---------------------------------------------------------------------------

theorem handedOver_of_delivered (h : ∀ q k, delivered q k out = []) :
    handedOver queue out = [] := by
  refine List.filterMap_eq_nil_iff.mpr fun e he => ?_
  cases e with
  | handOver q k w data status =>
    refine if_neg ?_
    rintro ⟨rfl, ha⟩
    have hnone := List.filterMap_eq_nil_iff.mp (h q k) _ he
    simp [ha] at hnone
  | _ => rfl

theorem accounted_appends (ha : Appends t u out) (h : Accounted queue t log taken) :
    Accounted queue u (log ++ out) taken where
  handed := by
    rw [handedOver_append, handedOver_of_delivered fun q k => (ha q k).2, List.append_nil, h.handed]
  keys := h.keys
  queued k := by
    rw [queued_append, h.queued k, (ha queue k).1, List.append_assoc]

theorem sendRawPacket_handedOver (queue q : RawQueue) (t : Tracker) (h : Handle) (status : UInt8) :
    handedOver q (sendRawPacket queue t h status).2 =
      if q = queue ∧ accepted status then
        ((t.rawQueue queue).lowerBound h).head?.toList.map fun e => (h, e.2)
      else [] := by
  obtain ⟨more, ho, hm⟩ := sendRawPacket_out queue t h status
  have hmore : handedOver q more = [] := by
    rcases hm with rfl | rfl <;> rfl
  rw [ho, handedOver_append, hmore, List.append_nil]
  cases hl : (t.rawQueue queue).lowerBound h with
  | nil =>
    rw [handOverFront_idle hl]
    simp [handedOver]
  | cons e es =>
    rw [handOverFront_out hl, handedOver_append]
    have hassert : handedOver q (if (t.connectionAt h).hasDataToSend then []
      else [.assertFailed]) = [] := by
      split <;> rfl
    rw [hassert, List.nil_append]
    by_cases hc : queue = q ∧ accepted status
    · rw [if_pos ⟨hc.1.symm, hc.2⟩]
      simp [handedOver, hc]
    · rw [if_neg fun hc' => hc ⟨hc'.1.symm, hc'.2⟩]
      simp [handedOver, hc]

theorem handOverFront_rawQueue (hl : (t.rawQueue queue).lowerBound h = e :: es) (q : RawQueue) :
    (handOverFront queue t h status).1.rawQueue q =
      if q = queue ∧ accepted status then (t.rawQueue queue).eraseLowerBound h
      else t.rawQueue q := by
  simp only [handOverFront, hl]
  by_cases ha : accepted status
  · simp only [ha, if_true, rawQueue_setRawQueue, and_true, rawQueue_touchConnection]
  · simp [ha]

theorem Accounted.same (h : Accounted queue t log taken) (hq : u.rawQueue queue = t.rawQueue queue)
    (hhanded : handedOver queue out = []) (hnone : ∀ k, Tracker.queued queue k out = []) :
    Accounted queue u (log ++ out) taken where
  handed := by rw [handedOver_append, hhanded, List.append_nil, h.handed]
  keys := h.keys
  queued k := by rw [queued_append, hnone, List.append_nil, hq, h.queued k]

/-- The entry that goes is the oldest under its key, which is not below the handle. -/
theorem accounted_sendRawPacket (hacc : Accounted q t log taken) (queue : RawQueue) (h : Handle)
    (status : UInt8) : ∃ taken, Accounted q (sendRawPacket queue t h status).1
      (log ++ (sendRawPacket queue t h status).2) taken := by
  have hhanded := sendRawPacket_handedOver queue q t h status
  have hnone := sendRawPacket_queued queue t h status q
  cases hl : (t.rawQueue queue).lowerBound h with
  | nil =>
    refine ⟨taken, hacc.same ?_ ?_ hnone⟩
    · rw [sendRawPacket_rawQueue, handOverFront_idle hl]
    · simp [hhanded, hl]
  | cons e es =>
    by_cases hc : q = queue ∧ accepted status
    · obtain ⟨rfl, ha⟩ := hc
      obtain ⟨key, data⟩ := e
      obtain ⟨-, herase⟩ := Multimap.lowerBound_head hl
      obtain ⟨rest, hvalues⟩ := Multimap.valuesAt_of_lowerBound hl
      have hle : h ≤ key := (Multimap.mem_lowerBound.mp (hl ▸ List.mem_cons_self)).2
      refine ⟨taken ++ [⟨h, key, data⟩], ?_, ?_, fun k => ?_⟩
      · rw [handedOver_append, hacc.handed, hhanded, if_pos ⟨rfl, ha⟩, hl, List.map_append]
        rfl
      · intro x hx
        rcases List.mem_append.mp hx with hx | hx
        · exact hacc.keys x hx
        · rw [List.mem_singleton.mp hx]
          exact hle
      · rw [queued_append, hnone, List.append_nil, hacc.queued k, sendRawPacket_rawQueue,
          handOverFront_rawQueue hl, if_pos ⟨rfl, ha⟩, herase,
          Multimap.valuesAt_eraseLowerBound hvalues, takenFrom_append, List.append_assoc]
        by_cases hk : k = key
        · subst hk
          simp [takenFrom, hvalues]
        · simp [takenFrom, hk, Ne.symm hk]
    · refine ⟨taken, hacc.same ?_ ?_ hnone⟩
      · rw [sendRawPacket_rawQueue, handOverFront_rawQueue hl, if_neg hc]
      · rw [hhanded, if_neg hc]

theorem accounted_rawStep (hacc : Accounted q t log taken) (P : Platform) (op : RawOp) :
    ∃ taken, Accounted q (rawStep P t op).1 (log ++ (rawStep P t op).2) taken := by
  rcases rawStep_cases P t op with ⟨-, ha⟩ | ⟨queue, h, status, -, he⟩
  · exact ⟨taken, accounted_appends ha hacc⟩
  · rw [he]
    exact accounted_sendRawPacket hacc queue h status

-- ---------------------------------------------------------------------------
-- Runs
-- ---------------------------------------------------------------------------

/-- In every run, misdelivered data included, the hand-overs the stack accepted
account for all that was queued: each took the oldest data left under one handle,
not below the one it was for, and the rest is still there, in order. -/
theorem raw_queues_accounted (P : Platform) (a : Addr) (ops : List RawOp) (queue : RawQueue) :
    ∃ taken : List Taken,
      handedOver queue (run (rawStep P) { announceAddr := a } ops).2 =
        taken.map (fun x => (x.handle, x.data)) ∧
      (∀ x ∈ taken, x.handle ≤ x.key) ∧
      ∀ k, queued queue k (run (rawStep P) { announceAddr := a } ops).2 =
        takenFrom k taken ++
          ((run (rawStep P) { announceAddr := a } ops).1.rawQueue queue).valuesAt k := by
  have hinit : ∃ taken, Accounted queue ({ announceAddr := a } : Tracker) [] taken := by
    refine ⟨[], rfl, List.forall_mem_nil _, fun k => ?_⟩
    cases queue <;> rfl
  have hstep (t : Tracker) (log : List Effect) (op : RawOp) (_ : True)
      (hacc : ∃ taken, Accounted queue t log taken) :
      ∃ taken, Accounted queue (rawStep P t op).1 (log ++ (rawStep P t op).2) taken :=
    hacc.elim fun _ hacc => accounted_rawStep hacc P op
  obtain ⟨taken, hhanded, hkeys, hqueued⟩ := run_invariant hstep hinit (along_true _ ops)
  exact ⟨taken, hhanded, hkeys, hqueued⟩

end BitchatRepeater
