import BitchatRepeater.ProcessorLaws

/-!
# Which connection a peer is on

Announces of one peer arrive on several connections. `updateOrStorePeerName` maps
the connection to the peer if no announce with a higher ttl came before, and does
not touch the entries of other connections. So the connection of the first
announce stays mapped, whatever its ttl.
-/

namespace BitchatRepeater

open Lib Tracker ProtocolProcessor

variable {t u : Tracker} {peer : UInt64}

-- ---------------------------------------------------------------------------
-- Announces of one peer
-- ---------------------------------------------------------------------------

structure Heard where
  connection : BleConnection
  name : Bytes
  ttl : UInt8

def Heard.handle (x : Heard) : Handle := x.connection.connectionHandle

def hear (peer : UInt64) (t : Tracker) (x : Heard) : Tracker :=
  updateOrStorePeerName t peer x.name x.ttl x.connection

/-- The highest ttl noted for the peer, 0 for an unknown one. -/
def notedTtl (t : Tracker) (peer : UInt64) : UInt8 := ((t.peers.get? peer).map Peer.maxTtl).getD 0

def Unknown (t : Tracker) (peer : UInt64) : Prop :=
  t.peers.get? peer = none ∧ ∀ h, t.handlePeerMap.get? h ≠ some peer

def OnlyHandle (t : Tracker) (peer : UInt64) (h : Handle) : Prop :=
  ∀ k, t.handlePeerMap.get? k = some peer ↔ k = h

def Unambiguous (t : Tracker) : Prop :=
  ∀ h k peer, t.handlePeerMap.get? h = some peer → t.handlePeerMap.get? k = some peer → h = k

theorem notedTtl_updatePeer {f : Peer → Peer} (hf : ∀ p, (f p).maxTtl = p.maxTtl) :
    (((updatePeer t.peers peer f).get? peer).map Peer.maxTtl).getD 0 = notedTtl t peer := by
  rw [updatePeer, OrdMap.get?_modify, if_pos rfl, get?_checkSenderInPeers_self, notedTtl]
  simp only [Option.map_some, hf, Option.getD_some]
  cases t.peers.get? peer <;> rfl

theorem hear_cases (peer : UInt64) (t : Tracker) (x : Heard) :
    (notedTtl t peer ≤ x.ttl ∧ (hear peer t x).handlePeerMap =
      t.handlePeerMap.insert x.handle peer ∧
      notedTtl (hear peer t x) peer = x.ttl) ∨
    (x.ttl < notedTtl t peer ∧ (hear peer t x).handlePeerMap = t.handlePeerMap ∧
      notedTtl (hear peer t x) peer = notedTtl t peer) := by
  have hnoted : (((updatePeer t.peers peer fun p => { p with name := x.name }).get? peer).map
      Peer.maxTtl).getD 0 = notedTtl t peer := notedTtl_updatePeer fun _ => rfl
  unfold hear updateOrStorePeerName
  simp only [hnoted]
  split
  next hle =>
    refine .inl ⟨hle, rfl, ?_⟩
    rw [notedTtl, setConnectionHandleForPeer, OrdMap.get?_modify, if_pos rfl, updatePeer,
      OrdMap.get?_modify, if_pos rfl, get?_checkSenderInPeers_self]
    rfl
  next hlt => exact .inr ⟨UInt8.not_le.mp hlt, rfl, hnoted⟩

theorem hear_keeps (h : t.handlePeerMap.get? k = some peer) (x : Heard) :
    (hear peer t x).handlePeerMap.get? k = some peer := by
  rcases hear_cases peer t x with ⟨-, he, -⟩ | ⟨-, he, -⟩
  · rw [he, OrdMap.get?_insert]
    split
    · rfl
    · exact h
  · rw [he]
    exact h

theorem hear_all_keeps (h : t.handlePeerMap.get? k = some peer) (xs : List Heard) :
    (xs.foldl (hear peer) t).handlePeerMap.get? k = some peer := by
  induction xs generalizing t with
  | nil => exact h
  | cons x xs ih => exact ih (hear_keeps h x)

theorem hear_all_lower {xs : List Heard} (h : ∀ x ∈ xs, x.ttl < notedTtl t peer) :
    (xs.foldl (hear peer) t).handlePeerMap = t.handlePeerMap := by
  induction xs generalizing t with
  | nil => rfl
  | cons x xs ih =>
    obtain ⟨hlt, hrest⟩ := List.forall_mem_cons.mp h
    rcases hear_cases peer t x with ⟨hle, -⟩ | ⟨-, he, hnoted⟩
    · exact absurd hlt (UInt8.not_lt.mpr hle)
    · exact (ih (hnoted ▸ hrest)).trans he

-- ---------------------------------------------------------------------------
-- Duplicates
-- ---------------------------------------------------------------------------

theorem duplicateHandle_none (hd : (es.map Prod.snd).Nodup)
    (hr : ∀ e ∈ es, reversed.lookup e.2 = none) : t.duplicateHandle reversed es = none := by
  induction es generalizing reversed with
  | nil => rfl
  | cons e es ih =>
    obtain ⟨h, peer⟩ := e
    obtain ⟨hhead, hrest⟩ := List.forall_mem_cons.mp hr
    obtain ⟨hnot, hd⟩ := List.nodup_cons.mp hd
    simp only [duplicateHandle, hhead, Option.getD_none, ne_eq, not_true_eq_false, if_false]
    refine ih hd fun e he => ?_
    have hne : e.2 ≠ peer := fun hp => hnot (List.mem_map.mpr ⟨e, he, hp⟩)
    rw [List.lookup_cons, beq_eq_false_iff_ne.mpr hne]
    exact hrest e he

theorem Unambiguous.no_duplicate (h : Unambiguous t) : t.getAnyDuplicateHandle.2 = 0 := by
  have hd : (t.handlePeerMap.entries.map Prod.snd).Nodup := by
    refine List.Nodup.map_on (fun e he e' he' hp =>
      ?_) (List.Nodup.of_map Prod.fst t.handlePeerMap.nodup)
    have hk := h e.1 e'.1 e.2 (OrdMap.get?_eq_some.mpr he) (OrdMap.get?_eq_some.mpr (hp ▸ he'))
    exact Prod.ext hk hp
  rw [getAnyDuplicateHandle, duplicateHandle_none hd fun _ _ => rfl]

-- ---------------------------------------------------------------------------
-- All orders
-- ---------------------------------------------------------------------------

theorem hear_first (hu : Unknown t peer) (x : Heard) :
    (hear peer t x).handlePeerMap = t.handlePeerMap.insert x.handle peer ∧
      notedTtl (hear peer t x) peer = x.ttl := by
  have hzero : notedTtl t peer = 0 := by
    rw [notedTtl, hu.1]
    rfl
  rcases hear_cases peer t x with ⟨-, he, hnoted⟩ | ⟨hlt, -⟩
  · exact ⟨he, hnoted⟩
  · rw [hzero] at hlt
    exact absurd hlt UInt8.not_lt_zero

theorem onlyHandle_insert (hu : Unknown t peer)
    (he : u.handlePeerMap = t.handlePeerMap.insert h peer) : OnlyHandle u peer h := by
  intro k
  rw [he, OrdMap.get?_insert]
  split
  next hk => simp [hk]
  next hk => simp [hk, hu.2 k]

theorem unambiguous_insert (ht : Unambiguous t) (hu : Unknown t peer)
    (he : u.handlePeerMap = t.handlePeerMap.insert h peer) : Unambiguous u := by
  have honly := onlyHandle_insert hu he
  intro j k q hj hk
  by_cases hq : q = peer
  · subst hq
    exact ((honly j).mp hj).trans ((honly k).mp hk).symm
  · -- entries of other peers are old ones
    have hold (i : Handle) (hi : u.handlePeerMap.get? i = some q) :
        t.handlePeerMap.get? i = some q := by
      rw [he, OrdMap.get?_insert] at hi
      split at hi
      · exact absurd (Option.some.inj hi).symm hq
      · exact hi
    exact ht j k q (hold j hj) (hold k hk)

/-- The announces of an unknown peer leave the connection of the one with the
highest ttl as the only one of the peer, and no duplicate to report, exactly if
that announce came first. -/
theorem highest_mapped_iff (t : Tracker) (peer : UInt64) (x : Heard) (xs : List Heard)
    (best : Heard) (hu : Unknown t peer) (hh : ((x :: xs).map Heard.handle).Nodup)
    (ht : ((x :: xs).map Heard.ttl).Nodup) (hb : best ∈ x :: xs)
    (hmax : ∀ y ∈ x :: xs, y.ttl ≤ best.ttl) :
    let after := (x :: xs).foldl (hear peer) t
    (OnlyHandle after peer best.handle ∧ (Unambiguous t → after.getAnyDuplicateHandle.2 = 0)) ↔
      ∀ y ∈ xs, y.ttl < x.ttl := by
  intro after
  obtain ⟨hfirst, hnoted⟩ := hear_first hu x
  constructor
  · rintro ⟨honly, -⟩ y hy
    have hx : after.handlePeerMap.get? x.handle = some peer := by
      refine hear_all_keeps ?_ xs
      rw [hfirst, OrdMap.get?_insert_self]
    have hbest : x.handle = best.handle := (honly x.handle).mp hx
    have hxb : x = best := List.inj_on_of_nodup_map hh List.mem_cons_self hb hbest
    subst hxb
    refine UInt8.lt_of_le_of_ne (hmax y (List.mem_cons_of_mem x hy)) fun he => ?_
    exact (List.nodup_cons.mp ht).1 (he ▸ List.mem_map_of_mem hy)
  · intro hlow
    have hxb : x = best := by
      rcases List.mem_cons.mp hb with he | hm
      · exact he.symm
      · exact absurd (hlow best hm) (UInt8.not_lt.mpr (hmax x List.mem_cons_self))
    subst hxb
    have hmap : after.handlePeerMap = t.handlePeerMap.insert x.handle peer :=
      (hear_all_lower (t := hear peer t x) (hnoted.symm ▸ hlow)).trans hfirst
    exact ⟨onlyHandle_insert hu hmap, fun hn => (unambiguous_insert hn hu hmap).no_duplicate⟩

def heardOn (h : Handle) (ttl : UInt8) : Heard :=
  { connection := { connectionHandle := h }, name := [0x61], ttl }

theorem direct_first_mapped :
    OnlyHandle ([heardOn 1 3, heardOn 2 2].foldl (hear 7) { announceAddr := 1 }) 7 1 :=
  ((highest_mapped_iff { announceAddr := 1 } 7 (heardOn 1 3) [heardOn 2 2] (heardOn 1 3)
    ⟨rfl, fun _ => by rintro ⟨⟩⟩ (by decide) (by decide) List.mem_cons_self (by decide)).mpr
    (by decide)).1

/-- The relayed announce comes first: its connection stays mapped and a duplicate
is reported. -/
theorem relayed_first_stays_mapped :
    let after := [heardOn 2 2, heardOn 1 3].foldl (hear 7) { announceAddr := 1 }
    ¬ OnlyHandle after 7 1 ∧ after.getAnyDuplicateHandle.2 ≠ 0 := by
  refine ⟨fun h => ?_, by decide +kernel⟩
  exact absurd ((h 2).mp (by decide +kernel)) (by decide)

end BitchatRepeater
