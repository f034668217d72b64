import BitchatRepeater.Dedup

/-!
# The order in which copies arrive

Copies of a packet reach the repeater over several connections and with different
ttls. A copy of a message is stored before its ttl is looked at, so the first one
decides whether the message goes on; on the pass-along path the ttl comes first.
-/

namespace BitchatRepeater

open Lib Tracker ProtocolProcessor

variable {t u : Tracker} {peers ps : Peers}

-- ---------------------------------------------------------------------------
-- Copies with another ttl
-- ---------------------------------------------------------------------------

def Message.rebase (base : PacketBase) (m : Message) : Message := { m with toPacketBase := base }

theorem readFlagged_rebase {flag : Message → Bool} {store : Message → Bytes → Message}
    (h : readFlagged flag store mr = some mr') (hf : ∀ m : Message, flag (m.rebase b) = flag m)
    (hs : ∀ (m : Message) s, store (m.rebase b) s = (store m s).rebase b) :
    readFlagged flag store (mr.1.rebase b, mr.2) = some (mr'.1.rebase b, mr'.2) := by
  simp only [readFlagged, hf] at h ⊢
  split at h
  next hflag =>
    obtain ⟨field, he, rfl⟩ := Option.map_eq_some_iff.mp h
    rw [if_pos hflag, he, Option.map_some, hs]
  next hflag =>
    cases h
    rw [if_neg hflag]

theorem readMessageStart_rebase (h : readMessageStart m r = some mr') :
    readMessageStart (m.rebase b) r = some (mr'.1.rebase b, mr'.2) := by
  simp only [readMessageStart, Option.bind_eq_bind, Option.bind_eq_some_iff] at h ⊢
  obtain ⟨id, hid, sender, hsender, content, hcontent, h⟩ := h
  refine ⟨id, hid, sender, hsender, content, hcontent, ?_⟩
  split at h
  next henc =>
    cases h
    exact if_pos henc
  next henc =>
    cases h
    exact if_neg henc

theorem readNicknames_rebase (h : readNicknames mr = some mr') :
    readNicknames (mr.1.rebase b, mr.2) = some (mr'.1.rebase b, mr'.2) := by
  simp only [readNicknames, Option.bind_eq_bind, Option.bind_eq_some_iff] at h ⊢
  obtain ⟨mr₁, h₁, h₂⟩ := h
  exact ⟨_, readFlagged_rebase h₁ (fun _ => rfl) fun _ _ => rfl,
    readFlagged_rebase h₂ (fun _ => rfl) fun _ _ => rfl⟩

theorem readSenderPeer_rebase (h : readSenderPeer peers m r = some (ps, mr')) :
    readSenderPeer peers (m.rebase b) r = some (ps, mr'.1.rebase b, mr'.2) := by
  have hflag : (m.rebase b).hasSenderPeerID = m.hasSenderPeerID := rfl
  simp only [readSenderPeer, hflag] at h ⊢
  split at h
  next hp =>
    obtain ⟨⟨text, r'⟩, hr, he⟩ := Option.map_eq_some_iff.mp h
    rw [if_pos hp, hr, Option.map_some]
    simp only at he ⊢
    split at he
    next hl =>
      cases he
      rw [if_pos hl]
      rfl
    next hl =>
      cases he
      rw [if_neg hl]
  next hp =>
    cases h
    rw [if_neg hp]

theorem readMentionList_rebase (h : readMentionList n mr = some mr') :
    readMentionList n (mr.1.rebase b, mr.2) = some (mr'.1.rebase b, mr'.2) := by
  induction n generalizing mr with
  | zero =>
    cases h
    rfl
  | succ n ih =>
    simp only [readMentionList, Option.bind_eq_bind, Option.bind_eq_some_iff] at h ⊢
    obtain ⟨mention, hm, h⟩ := h
    exact ⟨mention, hm, ih h⟩

theorem readMentions_rebase (h : readMentions mr = some mr') :
    readMentions (mr.1.rebase b, mr.2) = some (mr'.1.rebase b, mr'.2) := by
  have hflag : (mr.1.rebase b).hasMentions = mr.1.hasMentions := rfl
  simp only [readMentions, hflag] at h ⊢
  split at h
  next hp =>
    rw [if_pos hp]
    exact readMentionList_rebase h
  next hp =>
    cases h
    rw [if_neg hp]

theorem processMessage_rebase (h : processMessage peers m payload = (ps, some m'))
    (b : PacketBase) :
    processMessage peers (m.rebase b) payload = (ps, some (m'.rebase b)) := by
  unfold processMessage at h ⊢
  split at h
  · cases h
  next hlen =>
    rw [if_neg hlen]
    split at h
    · cases h
    next m₁ r₁ h₁ =>
      simp only [Option.bind_eq_bind, Option.bind_eq_some_iff] at h₁
      obtain ⟨mr, hstart, hnick⟩ := h₁
      have hfront : (readMessageStart (m.rebase b) (BinaryReader.new 0 payload) >>= readNicknames) =
          some (m₁.rebase b, r₁) := by
        rw [readMessageStart_rebase hstart]
        exact readNicknames_rebase hnick
      rw [hfront]
      split at h
      · cases h
      next ps' m₂ h₂ =>
        obtain ⟨rfl, hm⟩ := Prod.mk.inj h
        obtain ⟨mr', hr, rfl⟩ := Option.map_eq_some_iff.mp hm
        simp only [Option.bind_eq_bind, Option.bind_eq_some_iff] at hr
        obtain ⟨mr₃, h₃, h₄⟩ := hr
        simp only [readSenderPeer_rebase h₂]
        rw [readMentions_rebase h₃]
        have hchannel : readChannel (mr₃.1.rebase b, mr₃.2) = some (mr'.1.rebase b, mr'.2) :=
          readFlagged_rebase h₄ (fun _ => rfl) fun _ _ => rfl
        simp only [Option.bind_eq_bind, Option.bind_some, hchannel, Option.map_some]

theorem Copy.withTtl (h : Copy P p key) (ttl : UInt8) : Copy P { p with ttl := ttl } key := by
  cases h with
  | @message m hp hm =>
    rcases hr : processMessage .empty p.message p.payload with ⟨ps, _ | m'⟩
    · rw [hr] at hm
      cases hm
    · rw [hr] at hm
      cases hm
      let base : PacketBase := { p.message.toPacketBase with packetTtl := ttl }
      have hbase := processMessage_rebase hr base
      exact .message (m := m.rebase base) hp (congrArg Prod.snd hbase)
  | passAlong hcode hpass => exact .passAlong hcode hpass

-- ---------------------------------------------------------------------------
-- Arrivals
-- ---------------------------------------------------------------------------

/-- A call of `processWrite`, and the ttl of the packet in the buffer. -/
structure Arrival where
  ambient : Ambient
  origin : ConnPtr
  connection : BleConnection
  offset : UInt16
  buffer : Bytes
  ttl : UInt8

def Arrival.write (P : Platform) (t : Tracker) (x : Arrival) : Tracker × List Effect :=
  processWrite P x.ambient t x.origin x.connection x.offset x.buffer

/-- The buffer holds the packet, with the ttl of this arrival. -/
def Arrival.CopyOf (P : Platform) (p : Incoming) (x : Arrival) : Prop :=
  readPacket P.inflate x.offset x.buffer = .packet { p with ttl := x.ttl }

instance decidableCopyOf {x : Arrival} : Decidable (x.CopyOf P p) :=
  inferInstanceAs (Decidable (readPacket P.inflate x.offset x.buffer =
    .packet { p with ttl := x.ttl }))

def Tracker.addressOf (t : Tracker) : Key → Option Addr
  | .message id => (t.messages.get? id).map (·.addr)
  | .packet hash => (t.packets.get? hash).map (·.addr)

def EnqueuedSince (t u : Tracker) (key : Key) : Prop :=
  ∃ a, u.addressOf key = some a ∧
    u.broadcastPacketsToSendList = t.broadcastPacketsToSendList ++ [a]

theorem retained_eq_none : t.retained key = none ↔ t.addressOf key = none := by
  cases key <;> simp [retained, addressOf]

theorem addressOf_learns (h : Learns t u) : u.addressOf key = t.addressOf key := by
  obtain ⟨⟨_, _, _, rfl⟩, -⟩ := h
  cases key <;> rfl

theorem broadcast_learns (h : Learns t u) :
    u.broadcastPacketsToSendList = t.broadcastPacketsToSendList := by
  obtain ⟨⟨_, _, _, rfl⟩, -⟩ := h
  rfl

theorem Copy.addressOf_stores {t' : Tracker} (hc : Copy P p key)
    (hs : Stores P origin p t t' a packet u) : u.addressOf key = some a := by
  cases hc with
  | @message m hp hm =>
    cases hs with
    | @message m' _ hr hn =>
      rw [processMessage_peers _ (checkSenderInPeers t.peers p.sender), hr] at hm
      cases hm
      simp [enqueueBroadcastPacketFrom_eq, addressOf]
    | passAlong hpass _ _ =>
      obtain ⟨type, hcode, hpass⟩ := hpass
      cases PacketType.code_inj (hcode.trans hp)
      cases hpass
  | @passAlong type hcode hpass =>
    cases hs with
    | message hp _ _ =>
      cases PacketType.code_inj (hcode.trans hp)
      cases hpass
    | passAlong _ _ hn => simp [enqueueBroadcastPacketFrom_eq, addressOf]

variable {x : Arrival} {xs : List Arrival} {p : Incoming}

theorem write_eq_dispatch (hx : x.CopyOf P p) : x.write P t =
    dispatch P x.ambient t x.origin x.connection { p with ttl := x.ttl } := by
  rw [Arrival.write, processWrite, hx]

theorem write_known (hc : Copy P p key) (hx : x.CopyOf P p) (ha : t.addressOf key = some a) :
    (x.write P t).1.addressOf key = some a ∧
      (x.write P t).1.broadcastPacketsToSendList = t.broadcastPacketsToSendList := by
  rw [write_eq_dispatch hx]
  have hh : Handled P x.ambient.place x.origin _ t
      (dispatch P x.ambient t x.origin x.connection { p with ttl := x.ttl }) := dispatch_handled
  rcases hh with ⟨hl, -⟩ | ⟨t', packet, hl, hs, -⟩
  · exact ⟨(addressOf_learns hl).trans ha, broadcast_learns hl⟩
  · have hn := retained_eq_none.mp ((hc.withTtl x.ttl).stores hs)
    rw [addressOf_learns hl, ha] at hn
    cases hn

/-- The first copy to be stored goes into the broadcast list if its ttl allows. -/
theorem write_first (hc : Copy P p key) (hx : x.CopyOf P p) (ha : t.addressOf key = none)
    (hf : p.type = PacketType.typeMessage.code ∨ ¬ x.ttl < 1) :
    ∃ a, (x.write P t).1.addressOf key = some a ∧ (x.write P t).1.broadcastPacketsToSendList =
      t.broadcastPacketsToSendList ++ if x.ttl > 0 then [a] else [] := by
  rw [write_eq_dispatch hx]
  have hh : Handled P x.ambient.place x.origin _ t
      (dispatch P x.ambient t x.origin x.connection { p with ttl := x.ttl }) := dispatch_handled
  rcases hh with ⟨-, ho⟩ | ⟨t', packet, hl, hs, -⟩
  · have hfresh : Fresh P t { p with ttl := x.ttl } :=
      ⟨key, hc.withTtl x.ttl, retained_eq_none.mpr ha, hf⟩
    obtain ⟨a, hm⟩ := hfresh.stored x.ambient x.origin x.connection
    rw [ho] at hm
    cases hm
  · refine ⟨_, (hc.withTtl x.ttl).addressOf_stores hs, ?_⟩
    obtain ⟨_, _, hu⟩ := hs.eq
    rw [hu, hs.ttl, broadcast_learns hl]

theorem write_dropped (hx : x.CopyOf P p) (ha : t.addressOf key = none)
    (hm : p.type ≠ PacketType.typeMessage.code) (hl : x.ttl < 1) :
    (x.write P t).1.addressOf key = none ∧
      (x.write P t).1.broadcastPacketsToSendList = t.broadcastPacketsToSendList := by
  rw [write_eq_dispatch hx]
  have hh : Handled P x.ambient.place x.origin _ t
      (dispatch P x.ambient t x.origin x.connection { p with ttl := x.ttl }) := dispatch_handled
  rcases hh with ⟨hlearns, -⟩ | ⟨t', packet, hlearns, hs, -⟩
  · exact ⟨(addressOf_learns hlearns).trans ha, broadcast_learns hlearns⟩
  · obtain ⟨_, -, -, hf⟩ := fresh_of_stores hlearns hs
    exact absurd hf (by simp [hm, hl])

-- ---------------------------------------------------------------------------
-- Sequences of arrivals
-- ---------------------------------------------------------------------------

theorem run_known (hc : Copy P p key) (hx : ∀ x ∈ xs, x.CopyOf P p)
    (ha : t.addressOf key = some a) :
    (run (Arrival.write P) t xs).1.addressOf key = some a ∧
      (run (Arrival.write P) t xs).1.broadcastPacketsToSendList = t.broadcastPacketsToSendList := by
  induction xs generalizing t with
  | nil => exact ⟨ha, rfl⟩
  | cons x xs ih =>
    obtain ⟨ha₁, hb₁⟩ := write_known hc (hx x List.mem_cons_self) ha
    obtain ⟨ha₂, hb₂⟩ := ih (fun y hy => hx y (List.mem_cons_of_mem x hy)) ha₁
    exact ⟨ha₂, hb₂.trans hb₁⟩

/-- Once a copy is stored its ttl has decided. -/
theorem run_decided (hc : Copy P p key) (hx : ∀ y ∈ x :: xs, y.CopyOf P p)
    (ha : t.addressOf key = none) (hf : p.type = PacketType.typeMessage.code ∨ ¬ x.ttl < 1) :
    EnqueuedSince t (run (Arrival.write P) t (x :: xs)).1 key ↔ 1 ≤ x.ttl := by
  obtain ⟨a, ha₁, hb₁⟩ := write_first hc (hx x List.mem_cons_self) ha hf
  obtain ⟨ha₂, hb₂⟩ := run_known hc (fun y hy => hx y (List.mem_cons_of_mem x hy)) ha₁
  have hpos : x.ttl > 0 ↔ 1 ≤ x.ttl := by
    rw [gt_iff_lt, UInt8.lt_iff_toNat_lt, UInt8.le_iff_toNat_le]
    exact Iff.rfl
  rw [EnqueuedSince, run, ← hpos]
  simp only [ha₂, hb₂, hb₁, Option.some.injEq, exists_eq_left', List.append_cancel_left_eq]
  split <;> simp_all

theorem run_passAlong (hc : Copy P p key) (hx : ∀ x ∈ xs, x.CopyOf P p)
    (ha : t.addressOf key = none) (hm : p.type ≠ PacketType.typeMessage.code) :
    EnqueuedSince t (run (Arrival.write P) t xs).1 key ↔ ∃ x ∈ xs, 1 ≤ x.ttl := by
  induction xs generalizing t with
  | nil => simp [EnqueuedSince, ha]
  | cons x xs ih =>
    have hrest (y : Arrival) (hy : y ∈ xs) : y.CopyOf P p := hx y (List.mem_cons_of_mem x hy)
    by_cases hl : x.ttl < 1
    · obtain ⟨ha₁, hb₁⟩ := write_dropped (hx x List.mem_cons_self) ha hm hl
      have hn : ¬ 1 ≤ x.ttl := UInt8.not_le.mpr hl
      have hih := ih hrest ha₁
      rw [EnqueuedSince, hb₁] at hih
      simpa [EnqueuedSince, run, hn] using hih
    · rw [run_decided hc hx ha (.inr hl)]
      have hle : 1 ≤ x.ttl := UInt8.not_lt.mp hl
      simp [hle]

/-- The copies of a packet that is not held end up in the broadcast list in every
order of arrival exactly when one of them may go on, if and only if the packet is
no message, or all copies may go on, or none may. -/
theorem relay_order_iff (P : Platform) (t : Tracker) (p : Incoming) (key : Key)
    (arrivals : List Arrival)
    (hc : Copy P p key) (hk : t.retained key = none) (ha : ∀ x ∈ arrivals, x.CopyOf P p) :
    (∀ order : List Arrival, order.Perm arrivals →
      (EnqueuedSince t (run (Arrival.write P) t order).1 key ↔ ∃ x ∈ arrivals, 1 ≤ x.ttl)) ↔
    p.type ≠ PacketType.typeMessage.code ∨ (∀ x ∈ arrivals, 1 ≤ x.ttl) ∨
    ∀ x ∈ arrivals, x.ttl < 1 := by
  have hnone := retained_eq_none.mp hk
  have hperm (order : List Arrival) (ho : order.Perm arrivals) : ∀ x ∈ order, x.CopyOf P p :=
    fun x hx => ha x (ho.mem_iff.mp hx)
  constructor
  · intro h
    by_contra hn
    simp only [not_or, not_forall, not_not, ne_eq, UInt8.not_le, UInt8.not_lt] at hn
    obtain ⟨hm, ⟨y, hy, hy1⟩, x, hx, hx1⟩ := hn
    -- the copy that may not go on comes first
    obtain ⟨l, r, rfl⟩ := List.append_of_mem hy
    have hp : (y :: (l ++ r)).Perm (l ++ y :: r) := List.perm_middle.symm
    have hfirst := run_decided hc (hperm _ hp) hnone (.inl hm)
    exact absurd (hfirst.mp ((h _ hp).mpr ⟨x, hx, hx1⟩)) (UInt8.not_le.mpr hy1)
  · intro h order ho
    have hcopies := hperm order ho
    simp only [← ho.mem_iff] at h ⊢
    by_cases hm : p.type = PacketType.typeMessage.code
    · cases order with
      | nil => simp [EnqueuedSince, hnone]
      | cons x xs =>
        rw [run_decided hc hcopies hnone (.inl hm)]
        constructor
        · exact fun hx => ⟨x, List.mem_cons_self, hx⟩
        · rintro ⟨y, hy, hy1⟩
          rcases h with h | h | h
          · exact absurd hm h
          · exact h x List.mem_cons_self
          · exact absurd hy1 (UInt8.not_le.mpr (h y hy))
    · exact run_passAlong hc hcopies hnone hm

def plainPacket (code : UInt8) (payload : Bytes) : Incoming :=
  { type := code, ttl := 0, timestampMs := 0, packetFlags := 0,
    payloadLength := UInt16.ofNat payload.length, sender := 0,
    recipient := 0, payload, signature := [] }

def plainArrival (code : UInt8) (payload : Bytes) (ttl : UInt8) : Arrival :=
  { ambient := .idle, origin := .entry 1, connection := {}, offset := 0, ttl
    buffer := [1, code, ttl] ++ List.replicate 9 0 ++ split16 (UInt16.ofNat payload.length) ++
      List.replicate 8 0 ++ payload }

def fragmentKey : Key := .packet ((plainPacket 5 [0x61]).passAlong.packetHash Platform.bare.hash)

theorem fragment_relayed_after_spent_copy :
    EnqueuedSince { announceAddr := 1 } (run (Arrival.write .bare) { announceAddr := 1 }
      [plainArrival 5 [0x61] 0, plainArrival 5 [0x61] 3]).1 fragmentKey :=
  ((relay_order_iff .bare { announceAddr := 1 } (plainPacket 5 [0x61]) fragmentKey
      [plainArrival 5 [0x61] 0, plainArrival 5 [0x61] 3]
      (.passAlong (rfl : PacketType.typeFragmentStart.code = 5) rfl) rfl
      (by decide +kernel)).mpr (.inl (by decide)) _ (.refl _)).mpr
    ⟨_, List.mem_cons_of_mem _ List.mem_cons_self, by decide⟩

def shortMessage : Bytes := List.replicate 9 0 ++ [1, 0x61, 0, 0, 0]

/-- A copy without hops left keeps the next one, with three, from being relayed. -/
theorem message_lost_after_spent_copy :
    let arrivals := [plainArrival 4 shortMessage 0, plainArrival 4 shortMessage 3]
    Copy .bare (plainPacket 4 shortMessage) (.message [0x61]) ∧
    (∀ x ∈ arrivals, x.CopyOf .bare (plainPacket 4 shortMessage)) ∧ (∃ x ∈ arrivals, 1 ≤ x.ttl) ∧
    ¬ EnqueuedSince { announceAddr := 1 }
      (run (Arrival.write .bare) { announceAddr := 1 } arrivals).1 (.message [0x61]) := by
  intro arrivals
  have hread : (processMessage .empty (plainPacket 4 shortMessage).message shortMessage).2.map
      Message.messageId = some [0x61] := by decide +kernel
  obtain ⟨m, hm, hid⟩ := Option.map_eq_some_iff.mp hread
  refine ⟨hid ▸ .message rfl hm, by decide +kernel,
    ⟨_, List.mem_cons_of_mem _ List.mem_cons_self, by decide⟩, ?_⟩
  rintro ⟨a, -, hb⟩
  have hnone : (run (Arrival.write .bare) { announceAddr := 1 }
      arrivals).1.broadcastPacketsToSendList = [] := by decide +kernel
  rw [hnone] at hb
  cases hb

end BitchatRepeater
