import BitchatRepeater.EventLaws

/-!
# Recognising copies

A packet is recognised by a key: the id of a message, the hash of any other
packet. It is forgotten by `cleanupStaleItems` only, which goes by the timestamp
divided by 1000 although timestamps are in milliseconds. `recognised_iff` says
over whole runs how long copies are recognised.
-/

namespace BitchatRepeater

open Lib Tracker ProtocolProcessor

variable {t u : Tracker}

-- ---------------------------------------------------------------------------
-- Keys and copies
-- ---------------------------------------------------------------------------

inductive Key
  | message (id : Bytes)
  | packet (hash : UInt32)
  deriving DecidableEq, Repr

def Tracker.retained (t : Tracker) : Key → Option PacketBase
  | .message id => (t.messages.get? id).map (·.val.toPacketBase)
  | .packet hash => (t.packets.get? hash).map (·.val.toPacketBase)

inductive Copy (P : Platform) (p : Incoming) : Key → Prop
  | message {m : Message} (hp : p.type = PacketType.typeMessage.code)
      (hm : (processMessage .empty p.message p.payload).2 = some m) :
      Copy P p (.message m.messageId)
  | passAlong {type : PacketType} (hc : type.code = p.type) (hp : type.passAlong) :
      Copy P p (.packet (p.passAlong.packetHash P.hash))

/-- Written to the tracker at any time and from anywhere, the buffer is not
stored as new and nothing is enqueued. -/
def NotNew (P : Platform) (offset : UInt16) (buffer : Bytes) (t : Tracker) : Prop :=
  ∀ ambient origin connection,
    (∀ a c, .storedNew a c ∉ (processWrite P ambient t origin connection offset buffer).2) ∧
    (processWrite P ambient t origin connection offset buffer).1.broadcastPacketsToSendList =
      t.broadcastPacketsToSendList

/-- If the step is a cleanup, the clock has not passed the divided timestamp by
more than ten minutes. -/
def Timely (base : PacketBase) (t : Tracker) (i : Input) : Prop :=
  i.event = .cleanupStaleItems → t.getTimeMs i.ambient.now ≤
  base.packetTimestamp / 1000 + tenMinutesInMs

-- ---------------------------------------------------------------------------
-- Writes of copies
-- ---------------------------------------------------------------------------

theorem readSenderPeer_peers (peers peers' : Peers) (m : Message) (r : BinaryReader) :
    (readSenderPeer peers m r).map Prod.snd = (readSenderPeer peers' m r).map Prod.snd := by
  unfold readSenderPeer
  split
  · simp only [Option.map_map]
    congr 1
    funext field
    simp only [Function.comp]
    split <;> rfl
  · rfl

theorem processMessage_peers (peers peers' : Peers) (m : Message) (payload : Bytes) :
    (processMessage peers m payload).2 = (processMessage peers' m payload).2 := by
  unfold processMessage
  split
  · rfl
  · split
    · rfl
    next m r _ =>
      have hs := readSenderPeer_peers peers peers' m r
      cases h : readSenderPeer peers m r <;> cases h' : readSenderPeer peers' m r <;>
        simp_all

theorem Copy.stores {t' : Tracker} (hc : Copy P p key) (hs : Stores P origin p t t' a packet u) :
    t'.retained key = none := by
  cases hc with
  | @message m hp hm =>
    cases hs with
    | message _ hr hn =>
      rw [processMessage_peers _ (checkSenderInPeers t.peers p.sender), hr] at hm
      cases hm
      simp [retained, contains_eq_false.mp hn]
    | passAlong hpass _ _ =>
      obtain ⟨type, hcode, hpass⟩ := hpass
      cases PacketType.code_inj (hcode.trans hp)
      cases hpass
  | @passAlong type hcode hpass =>
    cases hs with
    | message hp _ _ =>
      cases PacketType.code_inj (hcode.trans hp)
      cases hpass
    | passAlong _ _ hn => simp [retained, contains_eq_false.mp hn]

theorem retained_learns (h : Learns t u) : u.retained key = t.retained key := by
  obtain ⟨⟨_, _, _, rfl⟩, -⟩ := h
  cases key <;> rfl

theorem Copy.notNew (hc : Copy P p key) (hr : readPacket P.inflate offset buffer = .packet p)
    (hk : t.retained key = some base) : NotNew P offset buffer t := by
  intro ambient origin connection
  rcases processWrite_cases P ambient t origin connection offset buffer with
    (h | h) | ⟨q, hq, ⟨hl, ho⟩ | ⟨t', packet, hl, hs, -⟩⟩
  · simp [h]
  · simp [h]
  · rw [ho]
    obtain ⟨⟨_, _, _, he⟩, -⟩ := hl
    rw [he]
    exact ⟨by simp, rfl⟩
  · rw [hr] at hq
    cases hq
    have hn := hc.stores hs
    rw [retained_learns hl, hk] at hn
    cases hn

theorem dispatch_passAlong (P : Platform) (ambient : Ambient) (t : Tracker) (origin : ConnPtr)
    (connection : BleConnection) {type : PacketType} (hc : type.code = p.type)
    (hp : type.passAlong) :
    ∃ t₁, Learns t t₁ ∧
      dispatch P ambient t origin connection p = handlePassAlong P.hash ambient t₁ origin p := by
  unfold dispatch
  rw [← hc, PacketType.ofCode?_code]
  by_cases ha : type = .typeAnnounce
  · subst ha
    exact ⟨_, learns_handleAnnounce, rfl⟩
  · refine ⟨t, .refl t, ?_⟩
    split <;> simp_all [PacketType.passAlong]

/-- The packet would be stored: its key is not held, and it may go on, which
only the pass-along path asks for. -/
def Fresh (P : Platform) (t : Tracker) (p : Incoming) : Prop :=
  ∃ key, Copy P p key ∧ t.retained key = none ∧ (p.type = PacketType.typeMessage.code ∨ ¬ p.ttl < 1)

theorem fresh_of_stores {t' : Tracker} (hl : Learns t t') (hs : Stores P origin p t t' a packet u) :
    Fresh P t p := by
  cases hs with
  | @message m hp hr hn =>
    have hm : (processMessage .empty p.message p.payload).2 = some m := by
      rw [processMessage_peers _ (checkSenderInPeers t.peers p.sender), hr]
    refine ⟨_, .message hp hm, ?_, .inl hp⟩
    rw [← retained_learns hl]
    exact Option.map_eq_none_iff.mpr (contains_eq_false.mp hn)
  | passAlong hp httl hn =>
    obtain ⟨type, hcode, hpass⟩ := hp
    refine ⟨_, .passAlong hcode hpass, ?_, .inr httl⟩
    rw [← retained_learns hl]
    exact Option.map_eq_none_iff.mpr (contains_eq_false.mp hn)

theorem Fresh.stored (hf : Fresh P t p) (ambient : Ambient) (origin : ConnPtr)
    (connection : BleConnection) :
    ∃ a, .storedNew a origin ∈ (dispatch P ambient t origin connection p).2 := by
  obtain ⟨key, hc, hk, httl⟩ := hf
  cases hc with
  | @message m hp hm =>
    have hn : t.messages.contains m.messageId = false :=
      contains_eq_false.mpr (Option.map_eq_none_iff.mp hk)
    rw [processMessage_peers _ (checkSenderInPeers t.peers p.sender)] at hm
    simp only [dispatch, hp, PacketType.ofCode?_code, handleMessage, hm,
      storeMessageAndReturnIfNew, hn, Bool.false_eq_true, if_false]
    exact ⟨_, List.mem_cons_self⟩
  | @passAlong type hcode hpass =>
    obtain ⟨t₁, hlearns, he⟩ := dispatch_passAlong P ambient t origin connection hcode hpass
    have hn : t₁.packets.contains (p.passAlong.packetHash P.hash) = false :=
      contains_eq_false.mpr (Option.map_eq_none_iff.mp ((retained_learns hlearns).trans hk))
    have hl : ¬ p.ttl < 1 := by
      refine httl.resolve_left fun hp => ?_
      cases PacketType.code_inj (hcode.trans hp)
      cases hpass
    simp only [he, handlePassAlong, hl, if_false, storePacketAndReturnIfNew, hn, Bool.false_eq_true]
    exact ⟨_, List.mem_cons_self⟩

theorem Copy.new (hc : Copy P p key) (hr : readPacket P.inflate offset buffer = .packet p)
    (hl : ¬ p.ttl < 1) (hk : t.retained key = none) : ¬ NotNew P offset buffer t := by
  intro h
  obtain ⟨a, ha⟩ := Fresh.stored ⟨key, hc, hk, .inr hl⟩ .idle (.entry 0) {}
  have hn := (h .idle (.entry 0) {}).1 a (.entry 0)
  simp only [processWrite, hr] at hn
  exact hn ha

-- ---------------------------------------------------------------------------
-- Steps and runs
-- ---------------------------------------------------------------------------

theorem retained_congr (hm : u.messages = t.messages) (hp : u.packets = t.packets) :
    u.retained key = t.retained key := by
  cases key <;> simp [retained, hm, hp]

theorem retained_cleanup (h : t.retained key = some base) :
    (t.cleanupStaleItems stale time).retained key =
      if packetStale (t.getTimeMs time) base then none else some base := by
  cases key with
  | message id =>
    obtain ⟨node, hn, rfl⟩ := Option.map_eq_some_iff.mp h
    simp only [retained, cleanupStaleItems, OrdMap.get?_eraseIf, hn]
    split <;> simp_all
  | packet hash =>
    obtain ⟨node, hn, rfl⟩ := Option.map_eq_some_iff.mp h
    simp only [retained, cleanupStaleItems, OrdMap.get?_eraseIf, hn]
    split <;> simp_all

theorem retained_stores {t' : Tracker} (hs : Stores P origin p t t' a packet u)
    (h : t'.retained key = some base) : u.retained key = some base := by
  cases hs with
  | message hp hr hn =>
    rw [enqueueBroadcastPacketFrom_eq]
    cases key with
    | message id =>
      obtain ⟨node, hk, rfl⟩ := Option.map_eq_some_iff.mp h
      simp only [retained, get?_insert_new hn hk, Option.map_some]
    | packet hash => exact h
  | passAlong hp hl hn =>
    rw [enqueueBroadcastPacketFrom_eq]
    cases key with
    | message id => exact h
    | packet hash =>
      obtain ⟨node, hk, rfl⟩ := Option.map_eq_some_iff.mp h
      simp only [retained, get?_insert_new hn hk, Option.map_some]

theorem retained_outcome (ho : Outcome P t i r) (h : t.retained key = some base)
    (hi : i.event ≠ .cleanupStaleItems) : r.1.retained key = some base := by
  cases ho with
  | calm hc => exact (retained_congr hc.quiet.messages hc.quiet.packets).trans h
  | stores _ _ hc hl hs =>
    have h₀ := (retained_congr hc.quiet.messages hc.quiet.packets).trans h
    exact retained_stores hs ((retained_learns hl).trans h₀)
  | own hs =>
    have hkeeps := hs.keeps
    obtain ⟨_, rfl⟩ := hs.eq
    cases key with
    | message id =>
      obtain ⟨node, hk, rfl⟩ := Option.map_eq_some_iff.mp h
      exact congrArg (Option.map _) (hkeeps id node hk)
    | packet hash => exact h
  | drains queue k status _ =>
    have hq := quiet_sendRawPacket queue t k status
    exact (retained_congr hq.messages hq.packets).trans h
  | announces ha => exact (retained_congr ha.quiet.messages ha.quiet.packets).trans h
  | sends _ =>
    obtain ⟨v, targeted, hs, he, -⟩ := sendPackets_sends i.ambient.stale t
    obtain ⟨_, _, _, _, hv⟩ := hs.eq
    rw [he, hv]
    exact (retained_congr rfl rfl).trans h
  | cleans he => exact absurd he hi

theorem not_packetStale_iff : packetStale now base = false ↔
    now ≤ base.packetTimestamp / 1000 + tenMinutesInMs := by
  rw [packetStale, PacketBase.packetTimestampMs, decide_eq_false_iff_not, UInt64.not_lt]

theorem retained_step (h : t.retained key = some base) (ht : Timely base t i) :
    (step P t i).1.retained key = some base := by
  by_cases hi : i.event = .cleanupStaleItems
  · simp only [step, hi]
    rw [retained_cleanup h, not_packetStale_iff.mpr (ht hi)]
    rfl
  · exact retained_outcome (step_outcome P t i) h hi

/-- A copy of a stored packet is recognised throughout every run whose cleanups
are timely, and, if it may go on, in no other run. -/
theorem recognised_iff (P : Platform) (addr : Addr) (earlier is : List Input) (key : Key)
    (base : PacketBase) (p : Incoming) (offset : UInt16) (buffer : Bytes)
    (hk : (run (step P) { announceAddr := addr } earlier).1.retained key = some base)
    (hr : readPacket P.inflate offset buffer = .packet p) (hc : Copy P p key) :
    let t := (run (step P) { announceAddr := addr } earlier).1
    (Along (step P) (Timely base) t is →
      ∀ before after, is = before ++ after → NotNew P offset buffer (run (step P) t before).1) ∧
    (¬ p.ttl < 1 →
      (∀ before after, is = before ++ after → NotNew P offset buffer (run (step P) t before).1) →
      Along (step P) (Timely base) t is) := by
  intro t
  have hkeep (before : List Input) (hb : Along (step P) (Timely base) t before) :
      (run (step P) t before).1.retained key = some base :=
    run_state_invariant (fun t => t.retained key = some base) (fun t i ht h =>
      retained_step h ht) hk hb
  constructor
  · rintro ha before after rfl
    exact hc.notNew hr (hkeep before (along_append.mp ha).1)
  · intro hl hn
    refine along_of_prefixes fun before i after he hb hi => ?_
    have hnext := hn (before ++ [i]) after (by rw [he, List.append_assoc]; rfl)
    simp only [run_snoc, step, hi] at hnext
    rw [← not_packetStale_iff]
    by_contra hs
    refine hc.new hr hl ?_ hnext
    rw [retained_cleanup (hkeep before hb), if_pos (by simpa using hs)]

def earlyFragment : Incoming :=
  { type := 5, ttl := 3, timestampMs := 2000, packetFlags := 0, payloadLength := 1, sender := 0,
    recipient := 0, payload := [0x61], signature := [] }

def earlyBytes : Bytes := [1, 5, 3] ++ split64 2000 ++ [0, 0, 1] ++ List.replicate 8 0 ++ [0x61]

def earlyKey : Key := .packet (earlyFragment.passAlong.packetHash Platform.bare.hash)

def earlyWrite : Input := ⟨.attWrite 1 false .value 0 earlyBytes, .idle⟩

def cleanupAt (now : UInt64) : Input := ⟨.cleanupStaleItems, { Ambient.idle with now := now }⟩

theorem recognised_at_ten_minutes :
    NotNew .bare 0 earlyBytes
      (run (step .bare) (run (step .bare) { announceAddr := 1 } [earlyWrite]).1
        [cleanupAt 600000000]).1 :=
  (recognised_iff .bare 1 [earlyWrite] [cleanupAt 600000000] earlyKey
    earlyFragment.passAlong.toPacketBase
    earlyFragment 0 earlyBytes (by decide +kernel) (by decide +kernel)
    (.passAlong (rfl : PacketType.typeFragmentStart.code = 5) rfl)).1
    ⟨fun _ => by decide +kernel, trivial⟩ [cleanupAt 600000000] [] rfl

theorem forgotten_within_ten_minutes :
    let t := (run (step .bare) { announceAddr := 1 } [earlyWrite]).1
    t.retained earlyKey = some earlyFragment.passAlong.toPacketBase ∧
    t.getTimeMs 601000000 ≤ earlyFragment.timestampMs + tenMinutesInMs ∧
    ¬ NotNew .bare 0 earlyBytes (run (step .bare) t [cleanupAt 601000000]).1 := by
  refine ⟨by decide +kernel, by decide +kernel, fun h => ?_⟩
  exact (h .idle (.entry 1) {}).1 0 (.entry 1) (by decide +kernel)

end BitchatRepeater
