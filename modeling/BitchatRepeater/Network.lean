import BitchatRepeater.RawQueues
import Mathlib.Logic.Relation
import Mathlib.Logic.Function.Basic

/-!
# A network of repeaters

Any number of trackers, each on its own platform, and the data they have put
into their raw queues. A step is an event at one repeater. Its bytes come from
outside, or they are data that some repeater has queued: delivered to any
repeater, in any order, any number of times or never. So nothing is assumed of
the topology or of the radio.

To every stored packet and to all queued data belongs a lineage: the ttl with
which the packet entered the network, and how many repeaters have sent it on.
Lineages are bookkeeping; no step depends on them. `flood_bounded` says that the
ttl on the wire always is the one minus the other.
-/

namespace BitchatRepeater

open Lib Tracker ProtocolProcessor

-- ---------------------------------------------------------------------------
-- The network
-- ---------------------------------------------------------------------------

/-- The ttl a packet entered with and the transmissions it has been through. -/
structure Lineage where
  entered : Nat
  hops : Nat
  deriving DecidableEq, Repr

structure Flight where
  bytes : Bytes
  lineage : Lineage
  deriving DecidableEq, Repr

structure Repeater where
  tracker : Tracker
  lineage : Addr → Lineage

structure Network (ι : Type) where
  repeater : ι → Repeater
  flights : List Flight

def entering : Event → Lineage
  | .attWrite _ _ _ offset buffer => ⟨(buffer.getD (offset.toNat + 2) 0).toNat, 0⟩
  | .gattNotification _ value => ⟨(value.getD 2 0).toNat, 0⟩
  | _ => ⟨0, 0⟩

/-- A packet that is stored takes on the lineage of the write; messages of our
own start with ttl 7. -/
def follow (source : Lineage) (lineage : Addr → Lineage) : Effect → Addr → Lineage
  | .storedNew a _ => Function.update lineage a source
  | .storedOwn a => Function.update lineage a ⟨7, 0⟩
  | _ => lineage

/-- Queued data has been through one transmission more than its packet. -/
def flight (lineage : Addr → Lineage) : Effect → Option Flight
  | .queueRaw a _ _ data => some ⟨data, (lineage a).entered, (lineage a).hops + 1⟩
  | _ => none

def Brings (e : Event) (bytes : Bytes) : Prop :=
  (∃ h, e = .attWrite h false .value 0 bytes) ∨ ∃ h, e = .gattNotification h bytes

namespace Network

variable {ι : Type}

/-- An event at the repeater `n`, with the lineage of what it may bring. -/
def act [DecidableEq ι] (P : ι → Platform) (N : Network ι) (n : ι) (i : Input) (source : Lineage) :
    Network ι :=
  let result := step (P n) (N.repeater n).tracker i
  let lineage := result.2.foldl (follow source) (N.repeater n).lineage
  { repeater := Function.update N.repeater n ⟨result.1, lineage⟩
    flights := N.flights ++ result.2.filterMap (flight lineage) }

def initial (addr : ι → Addr) : Network ι :=
  { repeater := fun n => ⟨{ announceAddr := addr n }, fun _ => ⟨3, 0⟩⟩, flights := [] }

inductive Step [DecidableEq ι] (P : ι → Platform) (N : Network ι) : Network ι → Prop
  | outside (n : ι) (i : Input) : Step P N (N.act P n i (entering i.event))
  | deliver (n : ι) (i : Input) (f : Flight) (hf : f ∈ N.flights) (hi : Brings i.event f.bytes) :
      Step P N (N.act P n i f.lineage)

def Reachable [DecidableEq ι] (P : ι → Platform) (addr : ι → Addr) (N : Network ι) : Prop :=
  Relation.ReflTransGen (Step P) (initial addr) N

end Network

-- ---------------------------------------------------------------------------
-- Lineages and ttls
-- ---------------------------------------------------------------------------

def Lineage.Leaves (l : Lineage) (ttl : UInt8) : Prop :=
  l.hops ≤ l.entered ∧ ttl.toNat = l.entered - l.hops

theorem Lineage.Leaves.sub_one {l : Lineage} (h : l.Leaves ttl) (ht : ttl ≠ 0) :
    Lineage.Leaves ⟨l.entered, l.hops + 1⟩ (ttl - 1) := by
  have hpos : ttl.toNat ≠ 0 := fun h0 => ht (UInt8.toNat_inj.mp h0)
  have hle : (1 : UInt8) ≤ ttl := by
    rw [UInt8.le_iff_toNat_le]
    show 1 ≤ ttl.toNat
    omega
  obtain ⟨hh, he⟩ := h
  refine ⟨?_, ?_⟩
  · simp only
    omega
  · rw [UInt8.toNat_sub_of_le _ _ hle, he]
    simp only [UInt8.reduceToNat]
    omega

theorem writePacket_ttl {peers : Peers} (h : ProtocolWriter.writePacket peers packet = some data) :
    data[2]? = some (packet.base.packetTtl - 1) := by
  obtain ⟨payload, -, rfl⟩ := Option.map_eq_some_iff.mp h
  rfl

-- ---------------------------------------------------------------------------
-- The invariant
-- ---------------------------------------------------------------------------

def Flight.Sound (f : Flight) : Prop := ∃ ttl, f.bytes[2]? = some ttl ∧ f.lineage.Leaves ttl

/-- What holds at one repeater, given the flights so far. -/
structure Traced (flights : List Flight) (t : Tracker) (lineage : Addr → Lineage) : Prop where
  placed : t.Placed
  stored : ∀ a p, (a, p) ∈ t.stored → (lineage a).Leaves p.base.packetTtl
  listed : ∀ a ∈ t.broadcastPacketsToSendList, ∃ p, (a, p) ∈ t.stored ∧ p.base.packetTtl ≠ 0
  targeted : ∀ e ∈ t.targetedPacketsToSendList.entries, e.1 = t.announceAddr ∧
    t.announce.packetTtl = 3
  announce : lineage t.announceAddr = ⟨3, 0⟩
  raw : ∀ q k data, (k, data) ∈ (t.rawQueue q).entries → ∃ f ∈ flights, f.bytes = data

section Traced
variable {t u : Tracker} {lineage : Addr → Lineage} {flights : List Flight} {out : List Effect}

theorem Traced.mono (h : Traced flights t lineage) (more : List Flight) :
    Traced (flights ++ more) t lineage :=
  { h with raw := fun q k data hm =>
      (h.raw q k data hm).imp fun _ hf => ⟨List.mem_append_left _ hf.1, hf.2⟩ }

theorem Traced.frame (h : Traced flights t lineage) (hs : u.stored = t.stored)
    (ha : u.announceAddr = t.announceAddr)
    (hb : ∀ a ∈ u.broadcastPacketsToSendList, a ∈ t.broadcastPacketsToSendList)
    (ht : ∀ e ∈ u.targetedPacketsToSendList.entries, e.1 = u.announceAddr ∧
      u.announce.packetTtl = 3)
    (hr : ∀ q k data, (k, data) ∈ (u.rawQueue q).entries → ∃ f ∈ flights, f.bytes = data) :
    Traced flights u lineage where
  placed := h.placed.congr hs ha
  stored a p hm := h.stored a p (hs ▸ hm)
  listed a hm := hs ▸ h.listed a (hb a hm)
  targeted := ht
  announce := ha ▸ h.announce
  raw := hr

theorem Traced.add (h : Traced flights t lineage) (hadd : t.Adds u a packet)
    (ha : u.announceAddr = t.announceAddr) (hn : u.announce = t.announce)
    (ht : u.targetedPacketsToSendList = t.targetedPacketsToSendList)
    (hb : ∀ b ∈ u.broadcastPacketsToSendList,
      b ∈ t.broadcastPacketsToSendList ∨ b = a ∧ packet.base.packetTtl ≠ 0)
    (hr : ∀ q, u.rawQueue q = t.rawQueue q) (hl : source.Leaves packet.base.packetTtl) :
    Traced flights u (Function.update lineage a source) := by
  have hother {b : Addr} {q : Packet} (hq : (b, q) ∈ t.stored) : b ≠ a := fun he =>
    hadd.fresh (he ▸ List.mem_cons_of_mem _ (List.mem_map_of_mem hq))
  have hne : t.announceAddr ≠ a := fun he => hadd.fresh (he ▸ List.mem_cons_self)
  refine { placed := hadd.placed h.placed ha, stored := ?_, listed := ?_, targeted := ?_,
           announce := ?_,
           raw := ?_ }
  · intro b q hm
    rcases (hadd.mem _).mp hm with he | hm
    · cases he
      rw [Function.update_self]
      exact hl
    · rw [Function.update_of_ne (hother hm)]
      exact h.stored b q hm
  · intro b hm
    rcases hb b hm with hm | ⟨rfl, hp⟩
    · obtain ⟨q, hq, hp⟩ := h.listed b hm
      exact ⟨q, (hadd.mem _).mpr (.inr hq), hp⟩
    · exact ⟨packet, (hadd.mem _).mpr (.inl rfl), hp⟩
  · rw [ht, ha, hn]
    exact h.targeted
  · rw [ha, Function.update_of_ne hne]
    exact h.announce
  · intro q k data hm
    exact h.raw q k data (hr q ▸ hm)

theorem Traced.calm (h : Traced flights t lineage) (hc : Calm t u out) :
    Traced flights u lineage := by
  obtain ⟨_, _, _, _, _, _, rfl⟩ := hc.eq
  exact h.frame rfl rfl (fun _ hm => hm) h.targeted fun q k data hm =>
    h.raw q k data (by cases q <;> exact hm)

/-- A packet that stays listed stays stored: both are tested alike. -/
theorem Traced.cleanup (h : Traced flights t lineage) :
    Traced flights (t.cleanupStaleItems stale time) lineage where
  placed := h.placed.cleanup
  stored a p hm := h.stored a p (mem_stored_cleanup.mp hm).1
  listed a hm := by
    obtain ⟨hm, hk⟩ := List.mem_filter.mp hm
    obtain ⟨p, hp, hz⟩ := h.listed a hm
    simp only [derefPacket_stored h.placed hp, Bool.not_eq_true'] at hk
    exact ⟨p, mem_stored_cleanup.mpr ⟨hp, hk⟩, hz⟩
  targeted e he := h.targeted e (Multimap.mem_eraseIf.mp he).1
  announce := h.announce
  raw q k data hm := h.raw q k data (by cases q <;> exact hm)

theorem Traced.calls (h : Traced flights t lineage) (hc : Calls (t.sendPackets stale).2 a c) :
    ∃ packet, t.packetAt a = some packet ∧ (lineage a).Leaves packet.base.packetTtl ∧
      packet.base.packetTtl ≠ 0 := by
  rcases sendPackets_calls hc with ht | ⟨hb, -⟩
  · obtain ⟨rfl, h3⟩ := h.targeted _ ht
    refine ⟨_, packetAt_announce, ?_, ?_⟩
    · rw [h.announce, show (Packet.announce t.announce).base.packetTtl = 3 from h3]
      exact ⟨by decide, rfl⟩
    · rw [show (Packet.announce t.announce).base.packetTtl = 3 from h3]
      decide
  · obtain ⟨p, hp, hz⟩ := h.listed a hb
    exact ⟨p, packetAt_stored h.placed hp, h.stored a p hp, hz⟩

theorem Traced.queued (h : Traced flights t lineage)
    (hq : .queueRaw a q k data ∈ (t.sendPackets stale).2) :
    Flight.Sound ⟨data, (lineage a).entered, (lineage a).hops + 1⟩ := by
  obtain ⟨v, targeted, hs, -, -⟩ := sendPackets_sends stale t
  obtain ⟨⟨c, hc⟩, hw⟩ := hs.data a q k data hq
  obtain ⟨packet, hp, hl, hz⟩ := h.calls (⟨k, hc⟩ : Calls _ a c)
  rw [derefPacket, hp, Option.getD_some] at hw
  exact ⟨_, writePacket_ttl hw, hl.sub_one hz⟩

-- ---------------------------------------------------------------------------
-- Steps
-- ---------------------------------------------------------------------------

theorem follow_foldl (h : ∀ e ∈ out, follow source lineage e = lineage) :
    out.foldl (follow source) lineage = lineage := by
  induction out with
  | nil => rfl
  | cons e out ih =>
    rw [List.foldl_cons, h e List.mem_cons_self]
    exact ih fun e he => h e (List.mem_cons_of_mem _ he)

theorem follow_passive (h : ∀ e ∈ out, passive e) :
    out.foldl (follow source) lineage = lineage := by
  refine follow_foldl fun e he => ?_
  have hp := h e he
  cases e <;> first | rfl | cases hp

theorem follow_sending (h : ∀ e ∈ out, sending e) :
    out.foldl (follow source) lineage = lineage := by
  refine follow_foldl fun e he => ?_
  have hs := h e he
  cases e <;> first | rfl | cases hs

theorem flights_passive (h : ∀ e ∈ out, passive e) : out.filterMap (flight lineage) = [] := by
  refine List.filterMap_eq_nil_iff.mpr fun e he => ?_
  have hp := h e he
  cases e <;> first | rfl | cases hp

theorem mem_flights : f ∈ out.filterMap (flight lineage) ↔
    ∃ a q k data, .queueRaw a q k data ∈ out ∧
    f = ⟨data, (lineage a).entered, (lineage a).hops + 1⟩ := by
  rw [List.mem_filterMap]
  constructor
  · rintro ⟨e, he, hf⟩
    cases e with
    | queueRaw a q k data => exact ⟨a, q, k, data, he, (Option.some.inj hf).symm⟩
    | _ => cases hf
  · rintro ⟨a, q, k, data, he, rfl⟩
    exact ⟨_, he, rfl⟩

theorem Traced.quiet (h : Traced flights t lineage) (hq : Quiet t u out)
    (hraw : ∀ q k data, (k, data) ∈ (u.rawQueue q).entries →
      ∃ f ∈ flights ++ out.filterMap (flight (out.foldl (follow source) lineage)), f.bytes = data) :
    Traced (flights ++ out.filterMap (flight (out.foldl (follow source) lineage))) u
        (out.foldl (follow source) lineage) ∧
      ∀ f ∈ out.filterMap (flight (out.foldl (follow source) lineage)), f.Sound := by
  rw [follow_passive hq.kinds, flights_passive hq.kinds, List.append_nil] at hraw ⊢
  refine ⟨h.frame hq.stored hq.announceAddr (fun a hm => hq.broadcast ▸ hm) (fun e he =>
    ?_) hraw, by simp⟩
  rw [hq.announceAddr]
  rcases hq.targeted e he with he | he
  · exact ⟨(h.targeted e he).1, hq.announce (h.targeted e he).2⟩
  · exact he

/-- What one call to `sendPackets` queues has the lineage of the packet it is. -/
theorem Traced.sends (h : Traced flights t lineage)
    (hraw : ∀ q k data, (k, data) ∈ ((t.sendPackets stale).1.rawQueue q).entries →
      ∃ f ∈ flights ++ (t.sendPackets stale).2.filterMap
        (flight ((t.sendPackets stale).2.foldl (follow source) lineage)), f.bytes = data) :
    Traced (flights ++ (t.sendPackets stale).2.filterMap
        (flight ((t.sendPackets stale).2.foldl (follow source) lineage))) (t.sendPackets stale).1
        ((t.sendPackets stale).2.foldl (follow source) lineage) ∧
      ∀ f ∈ (t.sendPackets stale).2.filterMap
        (flight ((t.sendPackets stale).2.foldl (follow source) lineage)), f.Sound := by
  have hsound : ∀ f ∈ (t.sendPackets stale).2.filterMap (flight lineage), f.Sound := by
    intro f hf
    obtain ⟨a, q, k, data, hq, rfl⟩ := mem_flights.mp hf
    exact h.queued hq
  obtain ⟨v, targeted, hs, he, hsub⟩ := sendPackets_sends stale t
  rw [follow_sending hs.kinds] at hraw ⊢
  refine ⟨(h.mono _).frame ?_ ?_ ?_ ?_ hraw, hsound⟩
  · rw [he]
    exact hs.stored
  all_goals
    rw [he]
    obtain ⟨_, _, _, _, rfl⟩ := hs.eq
  · rfl
  · simp
  · exact fun e hm => h.targeted e (hsub e hm)

/-- One event keeps the invariant if what it brings is true to its lineage. -/
theorem Traced.outcome (h : Traced flights t lineage) (ho : Outcome P t i r)
    (hsrc : ∀ origin offset buffer, Arrives i origin offset buffer →
      source.Leaves (buffer.getD (offset.toNat + 2) 0)) :
    Traced (flights ++ r.2.filterMap (flight (r.2.foldl (follow source) lineage))) r.1
        (r.2.foldl (follow source) lineage) ∧
      ∀ f ∈ r.2.filterMap (flight (r.2.foldl (follow source) lineage)), f.Sound := by
  have hraw (q : RawQueue) (k : Handle) (data : Bytes) (hm : (k, data) ∈ (r.1.rawQueue q).entries) :
      ∃ f ∈ flights ++ r.2.filterMap (flight (r.2.foldl (follow source) lineage)),
      f.bytes = data := by
    rcases ho.mem_rawQueue hm with hm | ⟨a, hm⟩
    · obtain ⟨f, hf, he⟩ := h.raw q k data hm
      exact ⟨f, List.mem_append_left _ hf, he⟩
    · exact ⟨_, List.mem_append_right _ (mem_flights.mpr ⟨a, q, k, data, hm, rfl⟩), rfl⟩
  cases ho with
  | calm hc => exact h.quiet hc.quiet hraw
  | stores hi hr hc hl hs =>
    have hrec := hs.receives hl
    have hleaves := hsrc _ _ _ hi
    rw [← hs.ttl_byte hr] at hleaves
    have hadds := hrec.adds
    obtain ⟨_, _, _, _, _, rfl⟩ := hrec.eq
    refine ⟨((h.calm hc).mono []).add hadds rfl rfl rfl ?_ (fun q => by cases q <;> rfl) hleaves,
      by simp [flight]⟩
    intro b hm
    rcases List.mem_append.mp hm with hm | hm
    · exact .inl hm
    · split at hm
      next hpos =>
        refine .inr ⟨List.mem_singleton.mp hm, fun hz => ?_⟩
        rw [hz] at hpos
        exact absurd hpos (by decide)
      next => cases hm
  | own hs =>
    have hadds := hs.adds
    have httl := hs.ttl
    obtain ⟨_, rfl⟩ := hs.eq
    refine ⟨(h.mono []).add hadds rfl rfl rfl ?_ (fun q => by cases q <;> rfl) ?_, by simp [flight]⟩
    · intro b hm
      rcases List.mem_append.mp hm with hm | hm
      · exact .inl hm
      · exact .inr ⟨List.mem_singleton.mp hm, by rw [httl]; decide⟩
    · rw [httl]
      exact ⟨by decide, rfl⟩
  | drains queue k status _ => exact h.quiet (quiet_sendRawPacket queue t k status) hraw
  | announces ha => exact h.quiet ha.quiet hraw
  | sends _ => exact h.sends hraw
  | cleans _ => exact ⟨(h.mono []).cleanup, by simp⟩

end Traced

/-- What holds throughout the network. -/
structure Network.Sound {ι : Type} (N : Network ι) : Prop where
  traced : ∀ n, Traced N.flights (N.repeater n).tracker (N.repeater n).lineage
  flights : ∀ f ∈ N.flights, f.Sound

section Runs
variable {ι : Type} {P : ι → Platform} {N N' : Network ι} [DecidableEq ι]

theorem Network.Sound.act (h : N.Sound) (n : ι) (i : Input)
    (hsrc : ∀ origin offset buffer, Arrives i origin offset buffer →
      source.Leaves (buffer.getD (offset.toNat + 2) 0)) : (N.act P n i source).Sound := by
  have hn := (h.traced n).outcome (step_outcome (P n) _ i) hsrc
  refine ⟨fun m => ?_, fun f hf => ?_⟩
  · by_cases hm : m = n
    · subst hm
      simp only [Network.act, Function.update_self]
      exact hn.1
    · simp only [Network.act, Function.update_of_ne hm]
      exact (h.traced m).mono _
  · rcases List.mem_append.mp hf with hf | hf
    · exact h.flights f hf
    · exact hn.2 f hf

theorem entering_leaves (h : Arrives i origin offset buffer) :
    (entering i.event).Leaves (buffer.getD (offset.toNat + 2) 0) := by
  rcases h with ⟨k, he, -⟩ | ⟨k, he, rfl, -⟩ <;> rw [he] <;> exact ⟨Nat.zero_le _, rfl⟩

theorem Network.Sound.step (h : N.Sound) (hs : Network.Step P N N') : N'.Sound := by
  cases hs with
  | outside n i => exact h.act n i fun _ _ _ ha => entering_leaves ha
  | deliver n i f hf hi =>
    refine h.act n i fun origin offset buffer ha => ?_
    obtain ⟨ttl, hb, hl⟩ := h.flights f hf
    have hbuffer : offset = 0 ∧ buffer = f.bytes := by
      rcases ha with ⟨k, he, -⟩ | ⟨k, he, rfl, -⟩ <;> rcases hi with ⟨k', hi⟩ | ⟨k', hi⟩ <;>
        rw [hi] at he <;> cases he <;> exact ⟨rfl, rfl⟩
    obtain ⟨rfl, rfl⟩ := hbuffer
    have hget : f.bytes.getD 2 0 = ttl := by rw [List.getD_eq_getElem?_getD, hb, Option.getD_some]
    exact hget ▸ hl

theorem network_sound (P : ι → Platform) (addr : ι → Addr)
    (h : Network.Reachable P addr N) : N.Sound := by
  induction h with
  | refl =>
    refine ⟨fun n => ?_, fun f hf => by cases hf⟩
    exact { placed := placed_init _, stored := fun _ _ hm => (by cases hm),
            listed := fun _ hm => (by cases hm),
            targeted := fun _ hm => (by cases hm), announce := rfl,
            raw := fun q _ _ hm => (by cases q <;> cases hm) }
  | tail _ hs ih => exact ih.step hs

theorem traced_run (P : Platform) (addr : Addr) (is : List Input) :
    ∃ flights lineage, Traced flights (run (step P) { announceAddr := addr } is).1 lineage := by
  refine run_state_invariant (fun t => ∃ flights lineage,
    Traced flights t lineage) ?_ ?_ (along_true _ is)
  · rintro t i - ⟨flights, lineage, h⟩
    exact ⟨_, _, (h.outcome (step_outcome P t i) fun _ _ _ ha => entering_leaves ha).1⟩
  · exact ⟨_, _, (network_sound (fun _ : Unit => P) (fun _ => addr) .refl).traced ()⟩

/-- In every network that can come about: all data under way carries the ttl it
entered with less one for each transmission, of which there are no more than that
ttl; whatever is handed to a radio is such data; and no event makes a repeater send
a packet whose ttl is 0. -/
theorem flood_bounded (P : ι → Platform) (addr : ι → Addr) (N : Network ι)
    (h : Network.Reachable P addr N) :
    (∀ f ∈ N.flights, f.lineage.hops ≤ f.lineage.entered ∧
      f.bytes[2]?.map UInt8.toNat = some (f.lineage.entered - f.lineage.hops)) ∧
    ∀ n i,
      (∀ q k w data status, .handOver q k w data status ∈ (step (P n) (N.repeater n).tracker i).2 →
        ∃ f ∈ N.flights, f.bytes = data) ∧
      ∀ a c k, .sendPacketToConnection a c k ∈ (step (P n) (N.repeater n).tracker i).2 →
        ∃ packet, (N.repeater n).tracker.packetAt a = some packet ∧ packet.base.packetTtl ≠ 0 := by
  have hs := network_sound P addr h
  refine ⟨fun f hf => ?_, fun n i => ⟨fun q k w data status hm => ?_, fun a c k hm => ?_⟩⟩
  · obtain ⟨ttl, hb, hl, ht⟩ := hs.flights f hf
    exact ⟨hl, by rw [hb, Option.map_some, ht]⟩
  · obtain ⟨j, hj⟩ := (step_outcome (P n) _ i).handOver hm
    exact (hs.traced n).raw q j data hj
  · rw [(step_outcome (P n) _ i).sends_of_call hm] at hm
    obtain ⟨packet, hp, -, hz⟩ := (hs.traced n).calls ⟨k, hm⟩
    exact ⟨packet, hp, hz⟩

end Runs

def twoClients : List Event :=
  [.attConnected 1 [1] .lePublic, .gattMtu 1 512, .attWrite 1 false .clientConfiguration 0 [1, 0],
    .attConnected 2 [2] .lePublic, .gattMtu 2 512, .attWrite 2 false .clientConfiguration 0 [1, 0]]

def fragmentRelay : List Event :=
  twoClients ++
    [.attWrite 1 false .value 0 ([1, 5, 3] ++ List.replicate 9 0 ++ [0, 1] ++
      List.replicate 8 0 ++ [0x61]), .sendPackets]

def relayed (N : Network Bool) (events : List Event) : Network Bool :=
  events.foldl (fun N e => N.act (fun _ => .bare) false ⟨e, .idle⟩ (entering e)) N

def relayedOn (N : Network Bool) (events : List Event) : Network Bool :=
  events.foldl (fun N e => N.act (fun _ => .bare) true ⟨e, .idle⟩ (entering e)) N

theorem reachable_relayed {N : Network Bool} (h : Network.Reachable (fun _ => .bare) addr N)
    (events : List Event) : Network.Reachable (fun _ => .bare) addr (relayed N events) := by
  induction events generalizing N with
  | nil => exact h
  | cons e events ih => exact ih (h.tail (.outside false ⟨e, .idle⟩))

theorem reachable_relayedOn {N : Network Bool} (h : Network.Reachable (fun _ => .bare) addr N)
    (events : List Event) : Network.Reachable (fun _ => .bare) addr (relayedOn N events) := by
  induction events generalizing N with
  | nil => exact h
  | cons e events ih => exact ih (h.tail (.outside true ⟨e, .idle⟩))

def fragmentRelayedTwice : Network Bool :=
  relayedOn
    ((relayedOn (relayed (.initial fun _ => 1) fragmentRelay) twoClients).act (fun _ => .bare) true
      ⟨.attWrite 1 false .value 0
        ([1, 5, 2] ++ List.replicate 9 0 ++ [0, 1] ++ List.replicate 8 0 ++ [0x61, 0]),
        .idle⟩ ⟨3, 1⟩)
    [.sendPackets]

theorem flood_bounded_relayed :
    fragmentRelayedTwice.flights.map Flight.lineage = [⟨3, 1⟩, ⟨3, 2⟩] ∧
    ∀ f ∈ fragmentRelayedTwice.flights, f.lineage.hops ≤ f.lineage.entered ∧
      f.bytes[2]?.map UInt8.toNat = some (f.lineage.entered - f.lineage.hops) := by
  have hlinked : Network.Reachable (fun _ => .bare) (fun _ => 1) _ :=
    reachable_relayedOn (reachable_relayed .refl fragmentRelay) twoClients
  have hdelivered := hlinked.tail (.deliver true
    ⟨.attWrite 1 false .value 0
      ([1, 5, 2] ++ List.replicate 9 0 ++ [0, 1] ++ List.replicate 8 0 ++ [0x61, 0]), .idle⟩
    ⟨[1, 5, 2] ++ List.replicate 9 0 ++ [0, 1] ++ List.replicate 8 0 ++ [0x61, 0], ⟨3, 1⟩⟩
    (by decide +kernel) (.inl ⟨1, rfl⟩))
  exact ⟨by decide +kernel, (flood_bounded _ _ _ (reachable_relayedOn hdelivered [.sendPackets])).1⟩

end BitchatRepeater
