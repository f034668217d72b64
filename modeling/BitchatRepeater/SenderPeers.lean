import BitchatRepeater.MessageGrammar
import BitchatRepeater.PeerTable
import BitchatRepeater.Relay
import BitchatRepeater.StoredPackets

/-!
# Messages without a sender peer

A message may say that it names its sender peer and then give a text of any
length. Only a text of 16 characters sets the pointer; with any other one the
message is accepted and stored all the same, and the writer goes through a null
pointer when the message is relayed. `sendersKnown_iff` says when this happens,
for payloads and for whole runs.
-/

namespace BitchatRepeater

open Lib Tracker ProtocolProcessor

variable {t u : Tracker} {peers ps : Peers} {m m' : Message}

-- ---------------------------------------------------------------------------
-- The sender peer of a payload
-- ---------------------------------------------------------------------------

def senderPeerLength (payload : Bytes) : UInt8 :=
  ((readAll skipItem (leadingItems (payload.getD 0 0)) (payload.drop 9)).getD []).getD 0 0

/-- A sender peer is not announced, or is given with 16 characters. -/
def NamesInFull (payload : Bytes) : Prop :=
  hasFlag (payload.getD 0 0) 0x10 → senderPeerLength payload = 16

instance decidableNamesInFull : Decidable (NamesInFull payload) :=
  inferInstanceAs (Decidable (_ → _))

def Message.HasPeer (m : Message) : Prop := m.hasSenderPeerID → m.senderPeer.isSome

theorem isSome_readSenderPeer {r : BinaryReader} {input : Bytes} {mr : Message × BinaryReader}
    (hm : m.senderPeer = none) (ha : r.At input) (h : readSenderPeer peers m r = some (ps, mr)) :
    mr.1.senderPeer.isSome ↔ m.hasSenderPeerID ∧ input.getD 0 0 = 16 := by
  unfold readSenderPeer at h
  split at h
  next hf =>
    obtain ⟨⟨text, r'⟩, hread, he⟩ := Option.map_eq_some_iff.mp h
    have hfield := readField_follows ha
    rw [hread] at hfield
    obtain ⟨rest, -, hlen, -⟩ := hfield.exists_rest
    have hiff : text.length = 16 ↔ input.getD 0 0 = 16 := by
      rw [hlen]
      exact UInt8.toNat_inj (b := 16)
    simp only [hiff] at he
    split at he
    next h16 =>
      cases he
      exact ⟨fun _ => ⟨hf, h16⟩, fun _ => rfl⟩
    next h16 =>
      cases he
      rw [hm]
      exact ⟨fun hs => (nomatch hs), fun hs => absurd hs.2 h16⟩
  next hf =>
    cases h
    rw [hm]
    exact ⟨fun hs => (nomatch hs), fun hs => absurd hs.1 hf⟩

theorem senderPeer_trailing {mr last : Message × BinaryReader} (hs : mr.1.Sound)
    (hn : mr.1.mentions = [])
    (h : readMentions mr >>= readChannel = some last) : last.1.senderPeer = mr.1.senderPeer := by
  obtain ⟨mr', h₁, h₂⟩ := Option.bind_eq_some_iff.mp h
  have hmentions := (readMentions_sound hs hn h₁).2
  exact readFlagged_keeps (fun m => m.senderPeer = mr.1.senderPeer) h₂ hmentions fun m s h _ => h

theorem isSome_senderPeer (p : Incoming) (hfit : payload.length < 2 ^ 16)
    (h : (processMessage peers p.message payload).2 = some m) :
    m.senderPeer.isSome ↔ hasFlag (payload.getD 0 0) 0x10 ∧ senderPeerLength payload = 16 := by
  have hl := not_short_of_accepted h
  have hlead := readLeading_follows p.message hl hfit
  simp only [processMessage_eq peers p.message hl, Option.map_eq_some_iff,
    Option.bind_eq_some_iff] at h
  obtain ⟨last, ⟨_, ⟨⟨m₁, r₁⟩, h₁, ⟨ps, mr⟩, h₂, rfl⟩, h₃⟩, rfl⟩ := h
  rw [h₁] at hlead
  obtain ⟨input, hinput, hflags, ha⟩ := hlead.exists_rest
  obtain ⟨mr₀, hstart, hnick⟩ := Option.bind_eq_some_iff.mp h₁
  have hbegun := readNicknames_begun (readMessageStart_begun p.fresh_message hstart) hnick
  obtain ⟨hsound, hnone, -⟩ := readSenderPeer_sound hbegun h₂
  rw [senderPeer_trailing hsound hnone h₃, isSome_readSenderPeer hbegun.noSenderPeer ha h₂,
    Message.hasSenderPeerID, hflags, senderPeerLength, hinput, Option.getD_some]

/-- A message that is accepted has the sender peer its flags announce just if
that is given with 16 characters. -/
theorem hasPeer_iff (p : Incoming) (hfit : payload.length < 2 ^ 16)
    (h : (processMessage peers p.message payload).2 = some m) :
    m.HasPeer ↔ NamesInFull payload := by
  rw [Message.HasPeer, isSome_senderPeer p hfit h, Message.hasSenderPeerID,
    flags_processMessage hfit h, NamesInFull]
  exact ⟨fun hp hf => (hp hf).2, fun hp hf => ⟨hf, hp hf⟩⟩

theorem length_decompressed {body : Bytes} (hb : body.length < 2 ^ 16) (hn : n < 2 ^ 16) :
    (decompressed inflate body n).length < 2 ^ 16 := by
  unfold decompressed
  split
  next plain hp =>
    obtain ⟨-, hle⟩ := Option.filter_eq_some_iff.mp hp
    have hplain : plain.length ≤ n := by simpa using hle
    split
    · exact lt_of_le_of_lt hplain hn
    · exact hb
  next => exact hb

theorem length_payload (h : readPacket inflate offset buffer = .packet p) :
    p.payload.length < 2 ^ 16 := by
  obtain ⟨-, -, r, hr⟩ := readPacket_header h
  unfold readPayload at hr
  split at hr
  · obtain ⟨body, hbody, he⟩ := Option.map_eq_some_iff.mp hr
    have hlen := lt_of_le_of_lt (length_readData hbody) (UInt16.toNat_lt _)
    rw [← (Prod.mk.inj he).1]
    exact length_decompressed hlen (UInt16.toNat_lt _)
  · exact lt_of_le_of_lt (length_readData hr) (UInt16.toNat_lt _)

-- ---------------------------------------------------------------------------
-- Stored messages
-- ---------------------------------------------------------------------------

def SendersKnown (t : Tracker) : Prop := ∀ a m, (a, .message m) ∈ t.stored → m.HasPeer

/-- If the step brings a message to be stored, it names its sender peer in full. -/
def BringsNamed (P : Platform) (t : Tracker) (i : Input) : Prop :=
  ∀ p, BringsNew P t i p → p.type = PacketType.typeMessage.code → NamesInFull p.payload

theorem BringsNew.length_payload (h : BringsNew P t i p) : p.payload.length < 2 ^ 16 := by
  obtain ⟨_, _, _, -, hr, -⟩ := h
  exact BitchatRepeater.length_payload hr

theorem hasPeer_stillAliveMessage (P : Platform) (now : UInt64) :
    (stillAliveMessage P now).HasPeer := by
  intro hf
  have hnone : hasFlag 0 0x10 = true := hf
  cases hnone

theorem sendersKnown_run (addr : Addr)
    (h : Along (step P) (BringsNamed P) { announceAddr := addr } is) :
    SendersKnown (run (step P) { announceAddr := addr } is).1 := by
  have hall := stored_run (fun packet => ∀ m, packet = .message m → m.HasPeer)
    (fun now m hm => Packet.message.inj hm ▸ hasPeer_stillAliveMessage P now)
    (fun e he => by cases he)
    (h.mono fun t i hi p packet hb hp m hm => ?_)
  · exact fun a m hm => hall _ hm m rfl
  · subst hm
    cases hp with
    | message hp hm => exact (hasPeer_iff p hb.length_payload hm).mpr (hi p hb hp)

theorem not_sendersKnown (h : BringsNew P t i p) (hp : p.type = PacketType.typeMessage.code)
    (hn : ¬ NamesInFull p.payload) : ¬ SendersKnown (step P t i).1 := by
  intro hk
  obtain ⟨a, packet, hparsed, hat, -⟩ := h.stored
  cases hparsed with
  | message _ hm =>
    have hstored := (packetAt_cases hat).resolve_left fun he => nomatch he.2
    exact hn ((hasPeer_iff p h.length_payload hm).mp (hk a _ hstored))
  | passAlong hc hpass =>
    cases PacketType.code_inj (hc.trans hp)
    cases hpass

-- ---------------------------------------------------------------------------
-- Relaying
-- ---------------------------------------------------------------------------

theorem contains_heldPeers (P : Platform) (addr : Addr) (is : List Input) :
    ∀ id ∈ heldPeers (run (step P) { announceAddr := addr } is).1,
      (run (step P) { announceAddr := addr } is).1.peers.contains id := by
  refine run_state_invariant (fun t => ∀ id ∈ heldPeers t,
    t.peers.contains id) (fun t i _ ht id hid => ?_)
    (fun id hid => by cases hid) (along_true _ is)
  have hchange := PeerChange.step P t i
  exact (hchange.held id hid).elim (fun hm => hchange.stay id (ht id hm)) fun hc => hc

def NullFor (stale : Stale) (t : Tracker) (out : List Effect) : Prop :=
  .nullDereference ∈ out → ∃ a c, Calls out a c ∧
    ProtocolWriter.writePacket t.peers (t.derefPacket stale a) = none

theorem nullFor_sendPacketToConnection (stale : Stale) (t : Tracker) (a : Addr) (c : ConnPtr)
    (connection : BleConnection) :
    NullFor stale t (t.sendPacketToConnection a (t.derefPacket stale a) c connection).2 := by
  intro hm
  refine ⟨a, c, calls_sendPacketToConnection.mpr ⟨rfl, rfl⟩, ?_⟩
  unfold sendPacketToConnection at hm
  simp only at hm
  split at hm
  · assumption
  · split at hm <;> simp at hm

theorem nullFor_nil (stale : Stale) (t : Tracker) : NullFor stale t [] := by
  intro hm
  cases hm

theorem nullFor_sendTargeted (stale : Stale) (t : Tracker) (item : Addr × ConnPtr) :
    NullFor stale t (sendTargeted stale t item).2 := by
  unfold sendTargeted
  simp only
  split
  · exact nullFor_nil stale t
  · exact nullFor_sendPacketToConnection stale t _ _ _

theorem nullFor_sendBroadcastTo (stale : Stale) (a : Addr) (t : Tracker) (k : Handle) :
    NullFor stale t (sendBroadcastTo stale a t k).2 := by
  unfold sendBroadcastTo
  split
  · exact nullFor_nil stale t
  · split
    · exact nullFor_sendPacketToConnection stale t _ _ _
    · exact nullFor_nil stale t

theorem nullFor_run {step : Tracker → ι → Tracker × List Effect}
    (hs : ∀ t i, Sends stale t (step t i).1 (step t i).2) (hn : ∀ t i, NullFor stale t (step t i).2)
    (t : Tracker) (is : List ι) : NullFor stale t (run step t is).2 := by
  induction is generalizing t with
  | nil => exact nullFor_nil stale t
  | cons i is ih =>
    intro hm
    rcases List.mem_append.mp hm with hm | hm
    · obtain ⟨a, c, hc, hw⟩ := hn t i hm
      exact ⟨a, c, calls_append.mpr (.inl hc), hw⟩
    · obtain ⟨a, c, hc, hw⟩ := ih _ hm
      rw [(hs t i).peers, (hs t i).derefPacket] at hw
      exact ⟨a, c, calls_append.mpr (.inr hc), hw⟩

theorem nullFor_sendPackets (stale : Stale) (t : Tracker) :
    NullFor stale t (t.sendPackets stale).2 := by
  rw [sendPackets_out]
  have htargeted := sends_run (sends_sendTargeted stale) t t.targetedPacketsToSendList.entries
  intro hm
  rcases List.mem_append.mp hm with hm | hm
  · obtain ⟨a, c, hc, hw⟩ := nullFor_run (sends_sendTargeted stale)
      (nullFor_sendTargeted stale) t _ hm
    exact ⟨a, c, calls_append.mpr (.inl hc), hw⟩
  · obtain ⟨a, c, hc, hw⟩ := nullFor_run (sends_sendBroadcast stale)
      (fun u a => nullFor_run (fun u k => sends_sendBroadcastTo stale u a k)
        (fun u k => nullFor_sendBroadcastTo stale a u k) u _) _ _ hm
    refine ⟨a, c, calls_append.mpr (.inr hc), ?_⟩
    rw [← htargeted.peers, ← htargeted.derefPacket]
    exact hw

/-- A stored message has the type of messages, and nothing else that is stored has. -/
def TypeTells : Packet → Prop
  | .announce _ => False
  | .message m => m.packetType = PacketType.typeMessage.code
  | .passAlong q => q.packetType ≠ PacketType.typeMessage.code

theorem Parsed.typeTells (h : Parsed p packet) : TypeTells packet := by
  cases h with
  | message hp hm => exact congrArg PacketBase.packetType (processMessage_base (Prod.ext rfl hm))
  | passAlong hc hp =>
    intro he
    cases PacketType.code_inj (hc.trans he)
    cases hp

theorem isSome_writeMessagePayload (hp : m.HasPeer) (hk : KnowsSender peers m) :
    (ProtocolWriter.writeMessagePayload peers m).isSome := by
  unfold ProtocolWriter.writeMessagePayload ProtocolWriter.writeSenderPeer
  rw [Option.isSome_map]
  split
  next hf =>
    obtain ⟨id, hid⟩ := Option.isSome_iff_exists.mp (hp hf)
    obtain ⟨peer, hpeer⟩ := Option.isSome_iff_exists.mp (hk id hid)
    simp [ProtocolWriter.senderPeerId, hid, hpeer]
  next => rfl

theorem typeTells_stored (P : Platform) (addr : Addr) (is : List Input) :
    ∀ e ∈ (run (step P) { announceAddr := addr } is).1.stored, TypeTells e.2 := by
  refine stored_run TypeTells (fun now => rfl) (fun e he => by cases he) ?_
  exact (along_true _ is).mono fun t i _ p packet _ hp => hp.typeTells

theorem knowsSender_stored (P : Platform) (addr : Addr) (is : List Input)
    (hm : (a, .message m) ∈ (run (step P) { announceAddr := addr } is).1.stored) :
    KnowsSender (run (step P) { announceAddr := addr } is).1.peers m := by
  intro id hid
  refine contains_heldPeers P addr is id (List.mem_append_right _ (List.mem_filterMap.mpr ?_))
  rcases mem_stored.mp hm with ⟨key, m', he, hp⟩ | ⟨key, q, -, hp⟩
  · cases hp
    exact ⟨_, he, hid⟩
  · cases hp

theorem isSome_writePacket (P : Platform) (addr : Addr) (is : List Input)
    (hk : SendersKnown (run (step P) { announceAddr := addr } is).1)
    (ha : a ∈ packetsToSend (run (step P) { announceAddr := addr } is).1) (stale : Stale) :
    (ProtocolWriter.writePacket (run (step P) { announceAddr := addr } is).1.peers
      ((run (step P) { announceAddr := addr } is).1.derefPacket stale a)).isSome := by
  have hannounce := packetType_run P addr is
  have htyped := typeTells_stored P addr is
  have hknows (b : Addr) (m : Message) := knowsSender_stored P addr is (a := b) (m := m)
  obtain ⟨packet, hp⟩ := packetAt_packetsToSend P addr is ha
  generalize (run (step P) { announceAddr := addr } is).1 = t at *
  rw [derefPacket, hp, Option.getD_some, ProtocolWriter.writePacket, Option.isSome_map]
  rcases packetAt_cases hp with ⟨-, rfl⟩ | hstored
  · have hcast : castTo (Packet.announce t.announce).base.packetType =
      createdAs (.announce t.announce) :=
      congrArg castTo hannounce
    rw [writePayload_of_match hcast]
    rfl
  · have htype := htyped _ hstored
    cases packet with
    | announce => exact htype.elim
    | message m =>
      have hcast : castTo (Packet.message m).base.packetType = createdAs (.message m) :=
        congrArg castTo htype
      rw [writePayload_of_match hcast]
      exact isSome_writeMessagePayload (hk _ m hstored) (hknows _ m hstored)
    | passAlong q =>
      rw [writePayload_passAlong htype]
      rfl

theorem no_nullDereference (P : Platform) (addr : Addr) (is : List Input)
    (hk : SendersKnown (run (step P) { announceAddr := addr } is).1) (stale : Stale) :
    .nullDereference ∉ ((run (step P) { announceAddr := addr } is).1.sendPackets stale).2 := by
  intro hm
  obtain ⟨a, c, hc, hw⟩ := nullFor_sendPackets stale _ hm
  have ha : a ∈ packetsToSend (run (step P) { announceAddr := addr } is).1 := by
    rcases sendPackets_calls hc with ht | ⟨hb, -⟩
    · exact List.mem_append_right _ (List.mem_map_of_mem ht)
    · exact List.mem_append_left _ hb
  have hsome := isSome_writePacket P addr is hk ha stale
  rw [hw] at hsome
  cases hsome

/-- A payload that is accepted yields a message with the sender peer it announces
just if that is given with 16 characters; every message stored in a run has it
just if all that are new give it so; and then nothing that is relayed goes
through a null pointer. -/
theorem sendersKnown_iff (P : Platform) (addr : Addr) (is : List Input) :
    (∀ (peers : Peers) (p : Incoming) (payload : Bytes) (m : Message), payload.length < 2 ^ 16 →
      (processMessage peers p.message payload).2 = some m → (m.HasPeer ↔ NamesInFull payload)) ∧
    ((∀ before after, is = before ++ after →
        SendersKnown (run (step P) { announceAddr := addr } before).1) ↔
      Along (step P) (BringsNamed P) { announceAddr := addr } is) ∧
    (Along (step P) (BringsNamed P) { announceAddr := addr } is →
      ∀ before after, is = before ++ after → ∀ stale,
        .nullDereference ∉ ((run (step P) { announceAddr := addr } before).1.sendPackets
          stale).2) := by
  have hrun (before after : List Input) (he : is = before ++ after)
      (h : Along (step P) (BringsNamed P) { announceAddr := addr } is) :
      SendersKnown (run (step P) { announceAddr := addr } before).1 := by
    subst he
    exact sendersKnown_run addr (along_append.mp h).1
  refine ⟨fun peers p payload m hfit h => hasPeer_iff p hfit h,
    ⟨fun h => ?_, fun h before after he => ?_⟩,
    fun h before after he stale => ?_⟩
  · refine along_of_prefixes fun before i after he _ p hb hp => ?_
    by_contra hn
    have hnext := h (before ++ [i]) after (by rw [he, List.append_assoc]; rfl)
    rw [run_snoc] at hnext
    exact not_sendersKnown hb hp hn hnext
  · exact hrun before after he h
  · exact no_nullDereference P addr before (hrun before after he h) stale

def emptySenderPeer : Bytes := 0x10 :: List.replicate 8 0 ++ [1, 0x61, 1, 0x62, 0, 0, 0]

def relayedEmptySenderPeer : List Input :=
  [⟨.attConnected 1 (List.replicate 6 1) .lePublic, .idle⟩,
    ⟨.attWrite 1 false .clientConfiguration 0 [1, 0], .idle⟩,
    ⟨.attWrite 2 false .value 0 ([1, 4, 3] ++ List.replicate 9 0 ++ [0, 16] ++ List.replicate 8 0 ++
      emptySenderPeer), .idle⟩,
    ⟨.sendPackets, .idle⟩]

theorem emptySenderPeer_nullDereference :
    (processMessage .empty plainHeader.message emptySenderPeer).2.isSome ∧
      (∀ m, (processMessage .empty plainHeader.message emptySenderPeer).2 = some m → ¬ m.HasPeer) ∧
      .nullDereference ∈ (run (step .bare) { announceAddr := 1 } relayedEmptySenderPeer).2 := by
  refine ⟨by decide, fun m hm => ?_, by decide +kernel⟩
  rw [hasPeer_iff plainHeader (by decide) hm]
  decide

end BitchatRepeater
