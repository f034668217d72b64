import BitchatRepeater.OwnAnnounce
import BitchatRepeater.FloodReach

/-!
# No packet is made up

Payloads and signatures may change on the way, as `payloadKept_iff` and
`signatureKept_iff` say. What identifies a packet does not: its type, its
timestamp, its flags, its sender and its recipient. So whatever a repeater holds
or has queued, in a network of any topology, is told by these to be a packet that
was brought from outside, a life check or an announce of some repeater.
-/

namespace BitchatRepeater

open Lib Tracker ProtocolProcessor

variable {t u : Tracker} {p : Incoming} {packet : Packet}

structure Identity where
  type : UInt8
  timestampMs : UInt64
  packetFlags : UInt8
  sender : UInt64
  recipient : UInt64
  deriving DecidableEq, Repr

def ProtocolProcessor.Header.identity (h : Header) : Identity :=
  ⟨h.type, h.timestampMs, h.packetFlags, h.sender, h.recipient⟩

def PacketBase.identity (b : PacketBase) : Identity :=
  ⟨b.packetType, b.packetTimestamp, b.packetFlags, b.packetSenderId, b.packetRecipientId⟩

def Identity.Proper (d : Identity) : Prop :=
  hasFlag d.packetFlags packetFlagHasRecipient = false → d.recipient = 0

-- ---------------------------------------------------------------------------
-- Reading and writing
-- ---------------------------------------------------------------------------

theorem proper_readHeader (r : BinaryReader) : (readHeader r).1.identity.Proper := by
  intro hf
  simp only [readHeader, Header.identity] at hf ⊢
  rw [hf]
  rfl

theorem proper_readPacket (h : readPacket inflate offset buffer = .packet p) :
    p.toHeader.identity.Proper := by
  obtain ⟨-, hh, -⟩ := readPacket_header h
  rw [hh]
  exact proper_readHeader _

theorem Parsed.identity (h : Parsed p packet) : packet.base.identity = p.toHeader.identity := by
  cases h with
  | @message m peers hp hm =>
    have hb := processMessage_base (Prod.ext rfl hm : processMessage peers p.message p.payload =
      (_, some m))
    rw [Packet.base, hb]
    simp only [Incoming.message, Message.new, PacketBase.identity, Header.identity, hp]
  | passAlong _ _ => rfl

theorem identity_written {peers : Peers} (hp : packet.base.identity.Proper)
    (hw : ProtocolWriter.writePacket peers packet = some data) (hl : data.length < 2 ^ 16)
    (hr : readPacket inflate 0 data = .packet p) : p.toHeader.identity = packet.base.identity := by
  obtain ⟨e, he, -⟩ := Option.map_eq_some_iff.mp hw
  rw [writePacket_eq he] at hw
  have hdata := (Option.some.inj hw).symm
  have hproper : (writtenHeader packet.base (min 65535 e.length)).Proper := hp
  have hseen : seen data = (writtenHeader packet.base (min 65535 e.length)).bytes ++
      (e.take 65535 ++ ProtocolWriter.writeSignature packet.base ++ [0]) := by
    rw [seen_eq hl, hdata]
    simp only [List.append_assoc]
  rw [readPacket_toHeader hproper hseen hr]
  rfl

-- ---------------------------------------------------------------------------
-- The network
-- ---------------------------------------------------------------------------

/-- A step in which what is read of the data from outside is `ok`. Delivered data
comes in a buffer whose size has 16 bits. -/
inductive Network.GoodStep {ι : Type} [DecidableEq ι] (P : ι → Platform) (ok : Incoming → Prop)
    (N : Network ι) : Network ι → Prop
  | outside (n : ι) (i : Input) (hi : ∀ origin offset buffer p, Arrives i origin offset buffer →
      readPacket (P n).inflate offset buffer = .packet p → ok p) :
      GoodStep P ok N (N.act P n i (entering i.event))
  | deliver (n : ι) (i : Input) (f : Flight) (hf : f ∈ N.flights) (hi : Brings i.event f.bytes)
      (hl : f.bytes.length < 2 ^ 16) : GoodStep P ok N (N.act P n i f.lineage)

/-- What is made of `ok` packets is `good`, as are life checks, and what is written
for good packets is read as `sent`, which is ok. -/
structure Upholds {ι : Type} (P : ι → Platform) (ok sent : Incoming → Prop)
    (good : Packet → Prop) : Prop where
  sent_ok : ∀ p, sent p → ok p
  parsed : ∀ inflate offset buffer p packet, readPacket inflate offset buffer = .packet p → ok p →
    Parsed p packet → good packet
  own : ∀ n now, good (.message (stillAliveMessage (P n) now))
  written : ∀ peers packet data inflate p, PeersKeyed peers → good packet →
    ProtocolWriter.writePacket peers packet = some data → data.length < 2 ^ 16 →
    readPacket inflate 0 data = .packet p → sent p

/-- Only what is good is stored, and only what is sent is read of the data under way. -/
structure Network.Good {ι : Type} (good : Packet → Prop) (sent : Incoming → Prop)
    (N : Network ι) : Prop where
  stored : ∀ n a packet, (a, packet) ∈ (N.repeater n).tracker.stored → good packet
  flights : ∀ f ∈ N.flights, f.bytes.length < 2 ^ 16 → ∀ inflate p,
    readPacket inflate 0 f.bytes = .packet p → sent p

section Networks
variable {ι : Type} [DecidableEq ι] {P : ι → Platform} {addr : ι → Addr} {N N' : Network ι}
  {ok sent : Incoming → Prop} {good : Packet → Prop}

theorem Network.GoodStep.step (h : Network.GoodStep P ok N N') : Network.Step P N N' := by
  cases h with
  | outside n i _ => exact .outside n i
  | deliver n i f hf hi _ => exact .deliver n i f hf hi

theorem brought_of_arrives (ha : Arrives i origin offset buffer) (hi : Brings i.event bytes) :
    offset = 0 ∧ buffer = bytes := by
  rcases ha with ⟨k, he, -⟩ | ⟨k, he, rfl, -⟩ <;> rcases hi with ⟨k', hi⟩ | ⟨k', hi⟩ <;>
    rw [hi] at he <;> cases he <;> exact ⟨rfl, rfl⟩

/-- What is queued is written for a packet that is stored, or for the announce. -/
theorem Network.Good.queued (h : N.Good good sent)
    (hN : Network.Reachable P addr N)
    (hannounce : (N.repeater n).tracker.announce.packetTtl ≠ 0 →
      good (.announce (N.repeater n).tracker.announce))
    (hq : .queueRaw a q k data ∈ (step (P n) (N.repeater n).tracker i).2) :
    ∃ packet, good packet ∧
      ProtocolWriter.writePacket (N.repeater n).tracker.peers packet = some data := by
  have ht := (network_sound P addr hN).traced n
  have hn := h.stored n
  generalize (N.repeater n).tracker = t at hq ht hn hannounce ⊢
  obtain ⟨c, hc⟩ := (step_outcome (P n) t i).call_of_queueRaw hq
  rw [(step_outcome (P n) t i).sends_of_call hc] at hq hc
  obtain ⟨v, targeted, hs, -, -⟩ := sendPackets_sends i.ambient.stale t
  obtain ⟨-, hw⟩ := hs.data a q k data hq
  obtain ⟨packet, hp, -, hz⟩ := ht.calls ⟨k, hc⟩
  rw [derefPacket, hp, Option.getD_some] at hw
  rcases packetAt_cases hp with ⟨-, rfl⟩ | hm
  · exact ⟨.announce t.announce, hannounce hz, hw⟩
  · exact ⟨packet, hn a packet hm, hw⟩

theorem Network.Good.act (h : N.Good good sent) (hu : Upholds P ok sent good)
    (hN : Network.Reachable P addr N) (n : ι) (i : Input) (source : Lineage)
    (hannounce : (N.repeater n).tracker.announce.packetTtl ≠ 0 →
      good (.announce (N.repeater n).tracker.announce))
    (hi : ∀ origin offset buffer p, Arrives i origin offset buffer →
      readPacket (P n).inflate offset buffer = .packet p →
      ok p) : (N.act P n i source).Good good sent := by
  have hstored : ∀ a packet, (a, packet) ∈ (step (P n) (N.repeater n).tracker i).1.stored →
      good packet := by
    intro a packet hm
    rcases stored_step hm with hm | ⟨p, ⟨_, _, _, harr, hr, -⟩, hp⟩ | ⟨now, rfl⟩
    · exact h.stored n a packet hm
    · exact hu.parsed _ _ _ p packet hr (hi _ _ _ p harr hr) hp
    · exact hu.own n now
  refine ⟨fun m a packet hm => ?_, fun f hf hl inflate p hr => ?_⟩
  · by_cases hmn : m = n
    · subst hmn
      rw [Network.act_self] at hm
      exact hstored a packet hm
    · rw [Network.act_other hmn] at hm
      exact h.stored m a packet hm
  · rcases List.mem_append.mp hf with hf | hf
    · exact h.flights f hf hl inflate p hr
    · obtain ⟨a, q, k, data, hq, rfl⟩ := mem_flights.mp hf
      obtain ⟨packet, hgood, hw⟩ := h.queued hN hannounce hq
      exact hu.written _ packet data inflate p (network_orderly hN n).peers hgood hw hl hr

theorem announce_of_reachable (hN : Network.Reachable P addr N) (n : ι) :
    OwnAnnounce (P n) (N.repeater n).tracker.announce := by
  obtain ⟨is, he⟩ := network_runs hN n
  rw [he]
  exact ownAnnounce_run (P n) (addr n) is

theorem proper_ownAnnounce {Q : Platform} (h : OwnAnnounce Q a) : a.identity.Proper := by
  rcases h with rfl | ⟨timestampMs, rfl⟩
  · exact fun _ => rfl
  · exact fun _ => rfl

theorem Network.Good.step (h : N.Good good sent) (hu : Upholds P ok sent good)
    (hannounce : ∀ n timestampMs, good (.announce (ownAnnounce (P n) timestampMs)))
    (hN : Network.Reachable P addr N) (hs : Network.GoodStep P ok N N') : N'.Good good sent := by
  have hset (n : ι) (hz : (N.repeater n).tracker.announce.packetTtl ≠ 0) :
      good (.announce (N.repeater n).tracker.announce) := by
    rcases announce_of_reachable hN n with hnew | ⟨timestampMs, hset⟩
    · rw [hnew] at hz
      exact absurd rfl hz
    · rw [hset]
      exact hannounce n timestampMs
  cases hs with
  | outside n i hi => exact h.act hu hN n i _ (hset n) hi
  | deliver n i f hf hi hl =>
    refine h.act hu hN n i _ (hset n) fun origin offset buffer p harr hr => ?_
    obtain ⟨rfl, rfl⟩ := brought_of_arrives harr hi
    exact hu.sent_ok p (h.flights f hf hl _ p hr)

theorem good_run (hu : Upholds P ok sent good)
    (hannounce : ∀ n timestampMs, good (.announce (ownAnnounce (P n) timestampMs)))
    (h : Relation.ReflTransGen (Network.GoodStep P ok) (.initial addr) N) : N.Good good sent := by
  have hgood : Network.Reachable P addr N ∧ N.Good good sent := by
    induction h with
    | refl => exact ⟨.refl, fun n a packet hm => (by cases hm), fun f hf => (by cases hf)⟩
    | tail _ hs ih => exact ⟨ih.1.tail hs.step, ih.2.step hu hannounce ih.1 hs⟩
  exact hgood.2

/-- What is good by its identity alone. -/
abbrev Network.GoodIdentity {ι : Type} (good : Identity → Prop) (N : Network ι) : Prop :=
  N.Good (fun packet => good packet.base.identity ∧ packet.base.identity.Proper) fun p =>
    good p.toHeader.identity

omit [DecidableEq ι] in
theorem upholds_identity {good : Identity → Prop}
    (hown : ∀ n now, good (Packet.message (stillAliveMessage (P n) now)).base.identity) :
    Upholds P (fun p => good p.toHeader.identity) (fun p => good p.toHeader.identity)
      fun packet => good packet.base.identity ∧ packet.base.identity.Proper where
  sent_ok _ h := h
  parsed inflate offset buffer p packet hr hok hp := by
    rw [hp.identity]
    exact ⟨hok, proper_readPacket hr⟩
  own n now := ⟨hown n now, fun _ => rfl⟩
  written peers packet data inflate p _ hgood hw hl hr := by
    rw [identity_written hgood.2 hw hl hr]
    exact hgood.1

/-- In every network, whatever is true of the type, timestamp, flags, sender and
recipient of all that comes from outside and of the repeaters' own life checks and
announces is true of all that is stored anywhere, and of all that anyone can read
of the data the repeaters have queued. -/
theorem no_packet_made_up (P : ι → Platform) (addr : ι → Addr) (good : Identity → Prop)
    (N : Network ι)
    (hown : ∀ n now, good (Packet.message (stillAliveMessage (P n) now)).base.identity)
    (hannounce : ∀ n timestampMs, good (ownAnnounce (P n) timestampMs).identity)
    (h : Relation.ReflTransGen (Network.GoodStep P fun p => good p.toHeader.identity)
      (.initial addr) N) :
    (∀ n a packet, (a, packet) ∈ (N.repeater n).tracker.stored → good packet.base.identity) ∧
      ∀ f ∈ N.flights, f.bytes.length < 2 ^ 16 → ∀ inflate p,
        readPacket inflate 0 f.bytes = .packet p → good p.toHeader.identity := by
  have hgood := good_run (upholds_identity hown) (fun n timestampMs =>
    ⟨hannounce n timestampMs, proper_ownAnnounce (.inr ⟨timestampMs, rfl⟩)⟩) h
  exact ⟨fun n a packet hm => (hgood.stored n a packet hm).1, hgood.flights⟩

end Networks

def fragmentIncoming : Incoming :=
  { type := 5, ttl := 3, timestampMs := 0, packetFlags := 0, payloadLength := 1, sender := 0,
    recipient := 0, payload := [0x61], signature := [] }

theorem fragmentRelay_from_zero (he : e ∈ fragmentRelay)
    (harr : Arrives ⟨e, .idle⟩ origin offset buffer)
    (hr : readPacket Platform.bare.inflate offset buffer = .packet p) : p.sender = 0 := by
  have hread : readPacket Platform.bare.inflate 0
      ([1, 5, 3] ++ List.replicate 9 0 ++ [0, 1] ++ List.replicate 8 0 ++ [0x61]) =
        .packet fragmentIncoming := by decide +kernel
  simp only [fragmentRelay, twoClients, List.cons_append, List.nil_append, List.mem_cons,
    List.not_mem_nil, or_false] at he
  rcases harr with ⟨k, ha, -⟩ | ⟨k, ha, -, -⟩
    <;> rcases he with rfl | rfl | rfl | rfl | rfl | rfl | rfl | rfl <;> cases ha
  cases hread.symm.trans hr
  rfl

theorem goodSteps_relayed {ok : Incoming → Prop} {events : List Event}
    (hok : ∀ e ∈ events, ∀ origin offset buffer p, Arrives ⟨e, .idle⟩ origin offset buffer →
      readPacket Platform.bare.inflate offset buffer = .packet p → ok p)
    (h : Relation.ReflTransGen (Network.GoodStep (fun _ : Bool => .bare) ok)
      (.initial fun _ => 1) N) :
    Relation.ReflTransGen (Network.GoodStep (fun _ => .bare) ok) (.initial fun _ =>
      1) (relayed N events) := by
  induction events generalizing N with
  | nil => exact h
  | cons e events ih =>
    refine ih (fun e he => hok e (List.mem_cons_of_mem _ he)) (h.tail ?_)
    exact .outside false ⟨e, .idle⟩ (hok e List.mem_cons_self)

theorem relayed_from_zero :
    (relayed (.initial fun _ => 1) fragmentRelay).flights.map Flight.bytes =
      [[1, 5, 2] ++ List.replicate 9 0 ++ [0, 1] ++ List.replicate 8 0 ++ [0x61, 0]] ∧
    ∀ f ∈ (relayed (.initial fun _ => 1) fragmentRelay).flights,
      f.bytes.length < 2 ^ 16 → ∀ inflate p, readPacket inflate 0 f.bytes = .packet p →
      p.sender = 0 :=
  ⟨by decide +kernel, (no_packet_made_up (fun _ => .bare) (fun _ => 1) (fun d => d.sender = 0) _
    (fun _ _ => rfl) (fun _ _ => rfl)
    (goodSteps_relayed (fun _ he _ _ _ _ harr hr => fragmentRelay_from_zero he harr hr) .refl)).2⟩

end BitchatRepeater
