import BitchatRepeater.Tracker

/-!
# Where packets lie

Laws of the two packet stores in terms of `stored`, the list of stored packets
with their addresses. Under `Placed` no two packets share an address and none
lies on the announce, so the object at an address is the one stored there.
Storing a new packet and cleaning up keep `Placed`.
-/

namespace BitchatRepeater.Tracker

open Lib

variable {t : Tracker}

theorem mem_stored : (a, p) ∈ t.stored ↔
    (∃ id m, (id, ⟨a, m⟩) ∈ t.messages.entries ∧ p = .message m) ∨
    (∃ key q, (key, ⟨a, q⟩) ∈ t.packets.entries ∧ p = .passAlong q) := by
  simp only [stored, List.mem_append, List.mem_map, Prod.mk.injEq]
  constructor
  · rintro (⟨⟨id, b, m⟩, h, rfl, rfl⟩ | ⟨⟨key, b, q⟩, h, rfl, rfl⟩)
    · exact .inl ⟨id, m, h, rfl⟩
    · exact .inr ⟨key, q, h, rfl⟩
  · rintro (⟨id, m, h, rfl⟩ | ⟨key, q, h, rfl⟩)
    · exact .inl ⟨_, h, rfl, rfl⟩
    · exact .inr ⟨_, h, rfl, rfl⟩

-- ---------------------------------------------------------------------------
-- Allocation
-- ---------------------------------------------------------------------------

theorem le_foldr_max {l : List Nat} {a : Nat} (h : a ∈ l) : a ≤ l.foldr max 0 := by
  induction l with
  | nil => cases h
  | cons b l ih =>
    rcases List.mem_cons.mp h with rfl | h
    · exact Nat.le_max_left _ _
    · exact (ih h).trans (Nat.le_max_right _ _)

theorem allocate_fresh (t : Tracker) (place : Addr) : t.allocate place ∉ t.liveAddrs := by
  unfold allocate
  split
  · intro h
    have := le_foldr_max h
    omega
  · assumption

-- ---------------------------------------------------------------------------
-- Placement
-- ---------------------------------------------------------------------------

/-- Addresses are those of distinct objects. -/
structure Placed (t : Tracker) : Prop where
  distinct : (a, p) ∈ t.stored → (a, q) ∈ t.stored → p = q
  off_announce : (a, p) ∈ t.stored → a ≠ t.announceAddr

theorem placed_init (addr : Addr) : Placed { announceAddr := addr } where
  distinct h _ := by cases h
  off_announce h := by cases h

theorem packetAt_of_unique (ha : a ≠ t.announceAddr) (hm : (a, p) ∈ t.stored)
    (hp : ∀ q, (a, q) ∈ t.stored → q = p) : t.packetAt a = some p := by
  rw [packetAt, if_neg ha]
  cases hf : t.stored.find? (·.1 = a) with
  | none => simpa using List.find?_eq_none.mp hf _ hm
  | some e =>
    obtain ⟨b, q⟩ := e
    have hb : b = a := by simpa using List.find?_some hf
    subst hb
    exact congrArg some (hp q (List.mem_of_find?_eq_some hf))

theorem packetAt_cases (h : t.packetAt a = some p) :
    (a = t.announceAddr ∧ p = .announce t.announce) ∨ (a, p) ∈ t.stored := by
  unfold packetAt at h
  split at h
  next ha =>
    cases h
    exact .inl ⟨ha, rfl⟩
  · obtain ⟨⟨b, q⟩, he, rfl⟩ := Option.map_eq_some_iff.mp h
    have hb : b = a := by simpa using List.find?_some he
    subst hb
    exact .inr (List.mem_of_find?_eq_some he)

theorem packetAt_stored (h : t.Placed) (hm : (a, p) ∈ t.stored) : t.packetAt a = some p :=
  packetAt_of_unique (h.off_announce hm) hm fun _ hq => h.distinct hq hm

@[simp] theorem packetAt_announce : t.packetAt t.announceAddr = some (.announce t.announce) := by
  simp [packetAt]

theorem derefPacket_stored (h : t.Placed) (hm : (a, p) ∈ t.stored) : t.derefPacket stale a = p := by
  simp [derefPacket, packetAt_stored h hm]

theorem Placed.congr {u : Tracker} (h : t.Placed) (hs : u.stored = t.stored)
    (ha : u.announceAddr = t.announceAddr) : u.Placed :=
  ⟨fun hp hq => h.distinct (hs ▸ hp) (hs ▸ hq), fun hp => ha ▸ h.off_announce (hs ▸ hp)⟩

-- ---------------------------------------------------------------------------
-- Storing
-- ---------------------------------------------------------------------------

/-- `u` holds what `t` holds and one more packet at a fresh address. -/
structure Adds (t u : Tracker) (a : Addr) (p : Packet) : Prop where
  fresh : a ∉ t.liveAddrs
  mem : ∀ x, x ∈ u.stored ↔ x = (a, p) ∨ x ∈ t.stored

theorem Adds.placed {u : Tracker} (h : t.Adds u a p) (hp : t.Placed)
    (ha : u.announceAddr = t.announceAddr) : u.Placed := by
  have hnew (q : Packet) : (a, q) ∉ t.stored := fun hq =>
    h.fresh (List.mem_cons_of_mem _ (List.mem_map_of_mem hq))
  constructor
  · intro b q r hq hr
    rcases (h.mem _).mp hq with hq | hq <;> rcases (h.mem _).mp hr with hr | hr
    · rw [(Prod.mk.inj hq).2, (Prod.mk.inj hr).2]
    · exact absurd hr ((Prod.mk.inj hq).1 ▸ hnew r)
    · exact absurd hq ((Prod.mk.inj hr).1 ▸ hnew q)
    · exact hp.distinct hq hr
  · intro b q hq
    rw [ha]
    rcases (h.mem _).mp hq with hq | hq
    · rw [(Prod.mk.inj hq).1]
      exact fun hb => h.fresh (hb ▸ List.mem_cons_self)
    · exact hp.off_announce hq

theorem contains_eq_false [DecidableEq κ] {m : OrdMap κ α} :
    m.contains k = false ↔ m.get? k = none := by
  simp [OrdMap.contains]

theorem mem_insert_new [DecidableEq κ] [LT κ] [DecidableLT κ] {m : OrdMap κ α}
    (h : m.contains k = false) : e ∈ (m.insert k v).entries ↔ e = (k, v) ∨ e ∈ m.entries := by
  rw [OrdMap.mem_insert]
  constructor
  · rintro (he | ⟨he, -⟩)
    · exact .inl he
    · exact .inr he
  · rintro (he | he)
    · exact .inl he
    · refine .inr ⟨he, fun hk => ?_⟩
      exact OrdMap.get?_eq_none.mp (contains_eq_false.mp h) e.2 (hk ▸ he)

theorem get?_insert_new [DecidableEq κ] [LT κ] [DecidableLT κ] {m : OrdMap κ α}
    (h : m.contains k = false) (hk : m.get? k' = some v) : (m.insert k w).get? k' = some v := by
  rw [OrdMap.get?_insert, if_neg, hk]
  rintro rfl
  rw [contains_eq_false.mp h] at hk
  cases hk

theorem adds_message {id : Bytes} (m : Message) (h : t.messages.contains id = false)
    (place : Addr) :
    t.Adds { t with messages := t.messages.insert id ⟨t.allocate place, m⟩ }
      (t.allocate place) (.message m) := by
  refine ⟨t.allocate_fresh place, ?_⟩
  rintro ⟨b, q⟩
  rw [mem_stored, mem_stored]
  simp only [mem_insert_new h, Prod.mk.injEq, Node.mk.injEq]
  constructor
  · rintro (⟨id', m', ⟨rfl, rfl, rfl⟩ | hm, rfl⟩ | hp)
    · exact .inl ⟨rfl, rfl⟩
    · exact .inr (.inl ⟨id', m', hm, rfl⟩)
    · exact .inr (.inr hp)
  · rintro (⟨rfl, rfl⟩ | ⟨id', m', hm, rfl⟩ | hp)
    · exact .inl ⟨id, m, .inl ⟨rfl, rfl, rfl⟩, rfl⟩
    · exact .inl ⟨id', m', .inr hm, rfl⟩
    · exact .inr hp

theorem adds_passAlong (q : PacketPassAlong) (h : t.packets.contains key = false) (place : Addr) :
    t.Adds { t with packets := t.packets.insert key ⟨t.allocate place, q⟩ }
      (t.allocate place) (.passAlong q) := by
  refine ⟨t.allocate_fresh place, ?_⟩
  rintro ⟨b, r⟩
  rw [mem_stored, mem_stored]
  simp only [mem_insert_new h, Prod.mk.injEq, Node.mk.injEq]
  constructor
  · rintro (hm | ⟨key', q', ⟨rfl, rfl, rfl⟩ | hp, rfl⟩)
    · exact .inr (.inl hm)
    · exact .inl ⟨rfl, rfl⟩
    · exact .inr (.inr ⟨key', q', hp, rfl⟩)
  · rintro (⟨rfl, rfl⟩ | hm | ⟨key', q', hp, rfl⟩)
    · exact .inr ⟨key, q, .inl ⟨rfl, rfl, rfl⟩, rfl⟩
    · exact .inl hm
    · exact .inr ⟨key', q', .inr hp, rfl⟩

theorem enqueueBroadcastPacket_eq : t.enqueueBroadcastPacket a ttl =
    { t with broadcastPacketsToSendList :=
        t.broadcastPacketsToSendList ++ if ttl > 0 then [a] else [] } := by
  unfold enqueueBroadcastPacket
  split <;> simp

theorem enqueueBroadcastPacketFrom_eq : t.enqueueBroadcastPacketFrom a ttl origin peer =
    { t with
      packetsConnectionsSentList := t.packetsConnectionsSentList.emplace a origin
      packetsPeersSentList := t.packetsPeersSentList.emplace a peer
      broadcastPacketsToSendList :=
        t.broadcastPacketsToSendList ++ if ttl > 0 then [a] else [] } :=
  enqueueBroadcastPacket_eq

@[simp] theorem stored_enqueueBroadcastPacketFrom :
    (t.enqueueBroadcastPacketFrom a ttl origin peer).stored = t.stored := by
  rw [enqueueBroadcastPacketFrom_eq]
  rfl

-- ---------------------------------------------------------------------------
-- Cleanup
-- ---------------------------------------------------------------------------

theorem mem_stored_cleanup : (a, p) ∈ (t.cleanupStaleItems stale time).stored ↔
    (a, p) ∈ t.stored ∧ packetStale (t.getTimeMs time) p.base = false := by
  rw [mem_stored, mem_stored]
  simp only [cleanupStaleItems, OrdMap.mem_eraseIf]
  constructor
  · rintro (⟨id, m, ⟨h, hs⟩, rfl⟩ | ⟨key, q, ⟨h, hs⟩, rfl⟩)
    · exact ⟨.inl ⟨id, m, h, rfl⟩, hs⟩
    · exact ⟨.inr ⟨key, q, h, rfl⟩, hs⟩
  · rintro ⟨⟨id, m, h, rfl⟩ | ⟨key, q, h, rfl⟩, hs⟩
    · exact .inl ⟨id, m, ⟨h, hs⟩, rfl⟩
    · exact .inr ⟨key, q, ⟨h, hs⟩, rfl⟩

theorem Placed.cleanup (h : t.Placed) : (t.cleanupStaleItems stale time).Placed :=
  ⟨fun hp hq => h.distinct (mem_stored_cleanup.mp hp).1 (mem_stored_cleanup.mp hq).1,
    fun hp => h.off_announce (mem_stored_cleanup.mp hp).1⟩

end BitchatRepeater.Tracker
