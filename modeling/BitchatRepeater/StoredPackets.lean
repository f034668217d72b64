import BitchatRepeater.ConnectionLaws
import BitchatRepeater.Network

/-!
# What is stored

`stored_step` says where a stored packet comes from: it was there, it arrived
and was new, or it is a life check of our own. A property of all packets that
arrive is by `stored_run` one of all packets stored in a run.

The writer goes by the type byte to tell which class an object has. An announce
that arrives is stored as a `PacketPassAlong`, so this fails for every announce
that is passed along, and by `downcastsMatch_iff` for nothing else.
-/

namespace BitchatRepeater

open Lib Tracker ProtocolProcessor

variable {t u : Tracker}

-- ---------------------------------------------------------------------------
-- Origins
-- ---------------------------------------------------------------------------

inductive Parsed (p : Incoming) : Packet → Prop
  | message {m : Message} {peers : Peers} (hp : p.type = PacketType.typeMessage.code)
      (hm : (processMessage peers p.message p.payload).2 = some m) : Parsed p (.message m)
  | passAlong {type : PacketType} (hc : type.code = p.type) (hp : type.passAlong) :
      Parsed p (.passAlong p.passAlong)

def BringsNew (P : Platform) (t : Tracker) (i : Input) (p : Incoming) : Prop :=
  ∃ origin offset buffer, Arrives i origin offset buffer ∧
    readPacket P.inflate offset buffer = .packet p ∧ Fresh P t p

theorem Stores.parsed {t' : Tracker} (h : Stores P origin p t t' a packet u) : Parsed p packet := by
  cases h with
  | message hp hr _ => exact .message hp (by rw [hr])
  | passAlong hp _ _ =>
    obtain ⟨type, hc, hp⟩ := hp
    exact .passAlong hc hp

theorem not_storedOwn_processWrite :
    .storedOwn a ∉ (processWrite P ambient t origin connection offset buffer).2 := by
  rcases processWrite_cases P ambient t origin connection offset buffer with
    (h | h) | ⟨p, hr, ⟨-, ho⟩ | ⟨t', packet, -, -, ho⟩⟩ <;> simp [*]

theorem lifeCheck_of_storedOwn (h : .storedOwn a ∈ (step P t i).2) : i.event = .lifeCheck := by
  cases hi : ordinary i.event with
  | true => exact absurd ((calm_step hi).kinds _ h) Bool.false_ne_true
  | false =>
    obtain ⟨event, ambient⟩ := i
    cases event with
    | attWrite k transaction att offset buffer =>
      obtain ⟨rfl, rfl⟩ := attWrite_of_not_ordinary hi
      exact absurd h not_storedOwn_processWrite
    | gattNotification k value => exact absurd h not_storedOwn_processWrite
    | canSendNotification k status =>
      exact absurd ((quiet_sendRawPacket .notify t k status).kinds _ h) Bool.false_ne_true
    | canWriteWithoutResponse k status =>
      exact absurd ((quiet_sendRawPacket .write t k status).kinds _ h) Bool.false_ne_true
    | lifeCheck => rfl
    | announceToConnections => cases h
    | sendPackets =>
      obtain ⟨v, targeted, hs, he, -⟩ := sendPackets_sends ambient.stale t
      exact absurd (hs.kinds _ h) Bool.false_ne_true
    | cleanupStaleItems => cases h
    | _ => cases hi

theorem mem_stored_lifeCheck (h : (a, packet) ∈ (handlePinActivity P ambient t).1.stored) :
    (a, packet) ∈ t.stored ∨ ∃ now, packet = .message (stillAliveMessage P now) := by
  unfold handlePinActivity at h
  simp only [storeMessageAndReturnIfNew] at h
  by_cases hc : t.messages.contains (stillAliveMessage P (t.getTimeMs ambient.now)).messageId
  · simp only [hc, if_true] at h
    exact .inl h
  · rw [Bool.not_eq_true] at hc
    simp only [hc, Bool.false_eq_true, if_false, enqueueBroadcastPacket_eq] at h
    rcases ((adds_message _ hc ambient.place).mem _).mp h with he | hm
    · exact .inr ⟨_, (Prod.mk.inj he).2⟩
    · exact .inl hm

theorem stored_step (h : (a, packet) ∈ (step P t i).1.stored) :
    (a, packet) ∈ t.stored ∨ (∃ p, BringsNew P t i p ∧ Parsed p packet) ∨
      ∃ now, packet = .message (stillAliveMessage P now) := by
  by_cases hi : i.event = .lifeCheck
  · simp only [step, hi] at h
    exact (mem_stored_lifeCheck h).imp id .inr
  · have hown (a : Addr) (hm : .storedOwn a ∈ (step P t i).2) : False :=
      hi (lifeCheck_of_storedOwn hm)
    have ho := step_outcome P t i
    generalize step P t i = r at ho h hown
    cases ho with
    | calm hc => exact .inl (hc.quiet.stored ▸ h)
    | stores harr hr hc hl hs =>
      rcases ((hs.receives hl).adds.mem _).mp h with he | hm
      · cases he
        have hf := (fresh_of_stores hl hs).congr hc.quiet.messages.symm hc.quiet.packets.symm
        exact .inr (.inl ⟨_, ⟨_, _, _, harr, hr, hf⟩, Stores.parsed hs⟩)
      · exact .inl (hc.quiet.stored ▸ hm)
    | own _ => exact (hown _ List.mem_cons_self).elim
    | drains queue k status _ => exact .inl ((quiet_sendRawPacket queue t k status).stored ▸ h)
    | announces ha => exact .inl (ha.quiet.stored ▸ h)
    | sends _ =>
      obtain ⟨v, targeted, hs, he, -⟩ := sendPackets_sends i.ambient.stale t
      rw [he] at h
      exact .inl (hs.stored ▸ h)
    | cleans _ => exact .inl (mem_stored_cleanup.mp h).1

theorem stored_run (good : Packet → Prop) (hown : ∀ now, good (.message (stillAliveMessage P now)))
    (hs : ∀ e ∈ t.stored, good e.2)
    (h : Along (step P) (fun t i => ∀ p packet, BringsNew P t i p → Parsed p packet →
      good packet) t is) :
    ∀ e ∈ (run (step P) t is).1.stored, good e.2 := by
  refine run_state_invariant (fun t => ∀ e ∈ t.stored, good e.2) (fun t i hi ht e he => ?_) hs h
  rcases stored_step he with hm | ⟨p, hb, hp⟩ | ⟨now, hn⟩
  · exact ht e hm
  · exact hi p e.2 hb hp
  · rw [hn]
    exact hown now

theorem Arrives.step_eq (h : Arrives i origin offset buffer) (P : Platform) (t : Tracker) :
    ∃ k, step P t i = processWrite P i.ambient (t.connectionForConnHandle k) origin
      ((t.connectionForConnHandle k).connectionAt k) offset buffer := by
  rcases h with ⟨k, he, rfl⟩ | ⟨k, he, rfl, rfl⟩
  · exact ⟨k, by simp only [step, he]; rfl⟩
  · exact ⟨k, by simp only [step, he]; rfl⟩

theorem packetAt_of_adds (h : t.Adds u a packet) (ha : u.announceAddr = t.announceAddr) :
    u.packetAt a = some packet := by
  have hne : a ≠ u.announceAddr := by
    rw [ha]
    exact fun he => h.fresh (he ▸ List.mem_cons_self)
  refine packetAt_of_unique hne ((h.mem _).mpr (.inl rfl)) fun q hm => ?_
  rcases (h.mem _).mp hm with he | hq
  · exact (Prod.mk.inj he).2
  · exact absurd (List.mem_cons_of_mem _ (List.mem_map_of_mem hq)) h.fresh

theorem BringsNew.stored (h : BringsNew P t i p) :
    ∃ a packet, Parsed p packet ∧ (step P t i).1.packetAt a = some packet ∧
      (p.ttl > 0 → a ∈ (step P t i).1.broadcastPacketsToSendList) := by
  obtain ⟨origin, offset, buffer, harr, hr, hf⟩ := h
  obtain ⟨k, he⟩ := harr.step_eq P t
  have hq := (calm_connectionForConnHandle t k).quiet
  have hf := hf.congr hq.messages hq.packets
  rw [he, processWrite, hr]
  generalize t.connectionForConnHandle k = t₀ at hf ⊢
  obtain ⟨b, hb⟩ := hf.stored i.ambient origin (t₀.connectionAt k)
  have hh : Handled P i.ambient.place origin p t₀
    (dispatch P i.ambient t₀ origin (t₀.connectionAt k) p) := dispatch_handled
  rcases hh with ⟨-, ho⟩ | ⟨t', packet, hl, hs, -⟩
  · rw [ho] at hb
    cases hb
  · have hrec := hs.receives hl
    obtain ⟨_, _, _, _, _, hu⟩ := hrec.eq
    refine ⟨_, packet, Stores.parsed hs, packetAt_of_adds hrec.adds (by rw [hu]), fun hpos => ?_⟩
    rw [hu, hs.ttl, if_pos hpos]
    exact List.mem_append_right _ List.mem_cons_self

-- ---------------------------------------------------------------------------
-- Downcasts
-- ---------------------------------------------------------------------------

inductive PacketClass
  | announce | message | passAlong
  deriving DecidableEq, Repr

def createdAs : Packet → PacketClass
  | .announce _ => .announce
  | .message _ => .message
  | .passAlong _ => .passAlong

/-- The `static_cast` that `writePacket` selects by the type. -/
def castTo (type : UInt8) : PacketClass :=
  match PacketType.ofCode? type with
  | some .typeAnnounce => .announce
  | some .typeMessage => .message
  | _ => .passAlong

def packetsToSend (t : Tracker) : List Addr :=
  t.broadcastPacketsToSendList ++ t.targetedPacketsToSendList.entries.map Prod.fst

def DowncastsMatch (t : Tracker) : Prop :=
  ∀ a ∈ packetsToSend t, ∃ packet, t.packetAt a = some packet ∧
    castTo packet.base.packetType = createdAs packet

/-- If the step brings an announce, then not one to be passed along. -/
def NoNewAnnounce (P : Platform) (t : Tracker) (i : Input) : Prop :=
  ∀ p, BringsNew P t i p → p.type ≠ PacketType.typeAnnounce.code

def ownPayload (peers : Peers) : Packet → Option Bytes
  | .announce a => some (BinaryWriter.writeData a.name a.name.length)
  | .message m => ProtocolWriter.writeMessagePayload peers m
  | .passAlong p => some (BinaryWriter.writeData p.payload p.payload.length)

/-- Through a downcast to its own class, the writer reads what the object holds. -/
theorem writePayload_of_match (h : castTo packet.base.packetType = createdAs packet)
    (peers : Peers) :
    ProtocolWriter.writePayload peers packet = ownPayload peers packet := by
  unfold castTo at h
  unfold ProtocolWriter.writePayload
  generalize PacketType.ofCode? packet.base.packetType = code at h ⊢
  cases code with
  | none => cases packet <;> first | rfl | cases h
  | some type => cases type <;> cases packet <;> first | rfl | cases h

theorem castTo_code (type : PacketType) (ha : type ≠ .typeAnnounce) (hm : type ≠ .typeMessage) :
    castTo type.code = .passAlong := by
  rw [castTo, PacketType.ofCode?_code]
  split <;> simp_all

theorem castTo_parsed (h : Parsed p packet) (hn : p.type ≠ PacketType.typeAnnounce.code) :
    castTo packet.base.packetType = createdAs packet := by
  cases h with
  | message hp hm =>
    have hb := congrArg PacketBase.packetType (processMessage_base (Prod.ext rfl hm))
    exact congrArg castTo hb
  | @passAlong type hc hp =>
    have ha : type ≠ .typeAnnounce := by
      rintro rfl
      exact hn hc.symm
    have hm : type ≠ .typeMessage := by
      rintro rfl
      cases hp
    exact (congrArg castTo hc.symm).trans (castTo_code type ha hm)

theorem announce_enqueueTargetedPacket :
    (t.enqueueTargetedPacket a ttl connection).announce = t.announce := by
  obtain ⟨connections, he⟩ := connectionForConnHandle_eq t connection.connectionHandle
  unfold enqueueTargetedPacket
  rw [he]
  split <;> rfl

theorem packetType_announceTo (now : UInt64) (stale : Stale) (t : Tracker) (h : Handle) :
    (announceTo now stale t h).announce.packetType = t.announce.packetType := by
  unfold announceTo
  split
  · rfl
  · split
    · simp only [announce_enqueueTargetedPacket]
    · rfl

theorem packetType_announceToConnections (P : Platform) (now : UInt64) (stale : Stale)
    (t : Tracker) :
    (t.announceToConnections P now stale).announce.packetType = t.announce.packetType := by
  have hloop (hs : List Handle) (u : Tracker) :
      (hs.foldl (announceTo now stale) u).announce.packetType = u.announce.packetType := by
    induction hs generalizing u with
    | nil => rfl
    | cons h hs ih => exact (ih _).trans (packetType_announceTo now stale u h)
  have hsetup : (setupAnnounceIfNeeded P t).announce.packetType = t.announce.packetType := by
    unfold setupAnnounceIfNeeded
    split <;> rfl
  exact (hloop _ _).trans hsetup

theorem announce_processWrite :
    (processWrite P ambient t origin connection offset buffer).1.announce = t.announce := by
  rcases processWrite_cases P ambient t origin connection offset buffer with
    (h | h) | ⟨p, hr, ⟨hl, -⟩ | ⟨t', packet, hl, hs, -⟩⟩
  · rw [h]
  · rw [h]
  · obtain ⟨_, _, _, hu⟩ := hl.eq
    rw [hu]
  · obtain ⟨_, _, _, _, _, hu⟩ := (hs.receives hl).eq
    rw [hu]

theorem packetType_step (P : Platform) (t : Tracker) (i : Input) :
    (step P t i).1.announce.packetType = t.announce.packetType := by
  cases hi : ordinary i.event with
  | true =>
    obtain ⟨_, _, _, _, _, _, hu⟩ := (calm_step (P := P) (t := t) hi).eq
    rw [hu]
  | false =>
    have hconn (k : Handle) : (t.connectionForConnHandle k).announce = t.announce := by
      obtain ⟨connections, he⟩ := connectionForConnHandle_eq t k
      rw [he]
    obtain ⟨event, ambient⟩ := i
    cases event with
    | attWrite k transaction att offset buffer =>
      obtain ⟨rfl, rfl⟩ := attWrite_of_not_ordinary hi
      exact congrArg (·.packetType) (announce_processWrite.trans (hconn k))
    | gattNotification k value =>
      exact congrArg (·.packetType) (announce_processWrite.trans (hconn k))
    | canSendNotification k status =>
      obtain ⟨_, _, _, hu⟩ := (drains_sendRawPacket .notify t k status).eq
      exact congrArg (·.announce.packetType) hu
    | canWriteWithoutResponse k status =>
      obtain ⟨_, _, _, hu⟩ := (drains_sendRawPacket .write t k status).eq
      exact congrArg (·.announce.packetType) hu
    | lifeCheck =>
      obtain ⟨_, _, hu⟩ := handlePinActivity_frame P ambient t
      exact congrArg (·.announce.packetType) hu
    | announceToConnections => exact packetType_announceToConnections ..
    | sendPackets =>
      obtain ⟨v, targeted, hs, he, -⟩ := sendPackets_sends ambient.stale t
      obtain ⟨_, _, _, _, hv⟩ := hs.eq
      simp only [step, he, hv]
    | cleanupStaleItems => rfl
    | _ => cases hi

theorem packetType_run (P : Platform) (addr : Addr) (is : List Input) :
    (run (step P) { announceAddr := addr } is).1.announce.packetType =
    PacketType.typeAnnounce.code :=
  run_state_invariant (fun t => t.announce.packetType = PacketType.typeAnnounce.code)
    (fun t i _ ht => (packetType_step P t i).trans ht) rfl (along_true _ is)

/-- Every object the pointers of the tracker can reach has the class its type says. -/
structure WellCast (t : Tracker) : Prop where
  announce : t.announce.packetType = PacketType.typeAnnounce.code
  stored : ∀ e ∈ t.stored, castTo e.2.base.packetType = createdAs e.2

theorem WellCast.packetAt (h : WellCast t) (hp : t.packetAt a = some packet) :
    castTo packet.base.packetType = createdAs packet := by
  rcases packetAt_cases hp with ⟨-, rfl⟩ | hm
  · exact congrArg castTo h.announce
  · exact h.stored _ hm

/-- No pointer to a packet to be sent dangles, in any run. -/
theorem packetAt_packetsToSend (P : Platform) (addr : Addr) (is : List Input)
    (h : a ∈ packetsToSend (run (step P) { announceAddr := addr } is).1) :
    ∃ packet, (run (step P) { announceAddr := addr } is).1.packetAt a = some packet := by
  obtain ⟨_, _, ht⟩ := traced_run P addr is
  rcases List.mem_append.mp h with hb | hm
  · obtain ⟨packet, hp, -⟩ := ht.listed a hb
    exact ⟨packet, packetAt_stored ht.placed hp⟩
  · obtain ⟨e, he, rfl⟩ := List.mem_map.mp hm
    exact ⟨_, (ht.targeted e he).1 ▸ packetAt_announce⟩

theorem wellCast_run (addr : Addr)
    (h : Along (step P) (NoNewAnnounce P) { announceAddr := addr } is) :
    WellCast (run (step P) { announceAddr := addr } is).1 := by
  constructor
  · exact packetType_run P addr is
  · refine stored_run (fun packet => castTo packet.base.packetType = createdAs packet)
      (fun now => rfl) (fun e he => by cases he) (h.mono fun t i hi p packet hb hp => ?_)
    exact castTo_parsed hp (hi p hb)

theorem not_downcastsMatch (h : BringsNew P t i p) (hp : p.type = PacketType.typeAnnounce.code) :
    ¬ DowncastsMatch (step P t i).1 := by
  intro hm
  obtain ⟨a, packet, hparsed, hat, hmem⟩ := h.stored
  cases hparsed with
  | message hp' _ => cases PacketType.code_inj (hp.symm.trans hp')
  | passAlong hc hpass =>
    obtain ⟨_, _, _, -, -, _, -, -, httl⟩ := h
    have hpos : p.ttl > 0 := by
      rcases httl with hp' | hl
      · cases PacketType.code_inj (hp.symm.trans hp')
      · simp only [UInt8.lt_iff_toNat_lt] at hl ⊢
        exact Nat.not_lt.mp hl
    obtain ⟨packet, hpacket, hcast⟩ := hm a (List.mem_append_left _ (hmem hpos))
    rw [hat] at hpacket
    cases hpacket
    have hannounce : castTo p.type = .passAlong := hcast
    rw [hp] at hannounce
    cases hannounce

/-- The writer's downcasts match throughout a run exactly if no announce in it
is passed along. -/
theorem downcastsMatch_iff (P : Platform) (addr : Addr) (is : List Input) :
    (∀ before after, is = before ++ after →
      DowncastsMatch (run (step P) { announceAddr := addr } before).1) ↔
    Along (step P) (NoNewAnnounce P) { announceAddr := addr } is := by
  constructor
  · intro h
    refine along_of_prefixes fun before i after he _ p hb hp => ?_
    have hnext := h (before ++ [i]) after (by rw [he, List.append_assoc]; rfl)
    rw [run_snoc] at hnext
    exact not_downcastsMatch hb hp hnext
  · rintro h before after rfl a ha
    obtain ⟨packet, hp⟩ := packetAt_packetsToSend P addr before ha
    exact ⟨packet, hp, (wellCast_run addr (along_append.mp h).1).packetAt hp⟩

def peerAnnounce : Bytes :=
  [1, 1, 3] ++ split64 2000 ++ [0, 0, 1] ++ List.replicate 8 0 ++ [0x61]

def peerAnnounceStored : PacketPassAlong :=
  { packetType := 1, packetTtl := 3, packetTimestamp := 2000, payload := [0x61] }

theorem peerAnnounce_not_downcastsMatch :
    ¬ DowncastsMatch (run (step .bare) { announceAddr := 1 }
      [⟨.attWrite 1 false .value 0 peerAnnounce, .idle⟩]).1 := by
  intro h
  have hat : (run (step .bare) { announceAddr := 1 }
      [⟨.attWrite 1 false .value 0 peerAnnounce, .idle⟩]).1.packetAt 0 =
        some (.passAlong peerAnnounceStored) := by decide +kernel
  obtain ⟨packet, hpacket, hcast⟩ := h 0 (by decide +kernel)
  rw [hat] at hpacket
  cases hpacket
  cases hcast

end BitchatRepeater
