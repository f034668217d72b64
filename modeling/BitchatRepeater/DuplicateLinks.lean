import BitchatRepeater.ConnectionKeys
import BitchatRepeater.MainLoop
import BitchatRepeater.Lib.Rounds

/-!
# Several links to one peer

The main loop asks `getAnyDuplicateHandle` for one link too many and disconnects
it. Repeated as long as the peer map does not change otherwise, this leaves one
link to each peer, and it is the one that was seen last.
-/

namespace BitchatRepeater

open Lib Tracker

variable {t u v : Tracker}

/-- One duplicate is found and reported as disconnected. -/
def dropDuplicate (frame : Nat) (t : Tracker) : Tracker :=
  let (t, duplicate) := t.getAnyDuplicateHandle
  if duplicate = 0 then t else (t.reportDisconnection frame duplicate).1

/-- Handle 0 stands for none. -/
def NonzeroHandles (t : Tracker) : Prop := ∀ h peer, t.handlePeerMap.get? h = some peer → h ≠ 0

/-- The peer map loses entries, but never the last that was seen of a peer. -/
structure KeepsLatest (t u : Tracker) : Prop where
  seen : ∀ h, (u.connectionAt h).lastSeenTime = (t.connectionAt h).lastSeenTime
  fewer : ∀ h peer, u.handlePeerMap.get? h = some peer → t.handlePeerMap.get? h = some peer
  latest : ∀ h peer, t.handlePeerMap.get? h = some peer → ∃ k, u.handlePeerMap.get? k = some peer ∧
    (t.connectionAt h).lastSeenTime ≤ (t.connectionAt k).lastSeenTime

theorem KeepsLatest.refl (t : Tracker) : KeepsLatest t t :=
  ⟨fun _ => rfl, fun _ _ h => h, fun h _ hp => ⟨h, hp, UInt64.le_refl _⟩⟩

theorem KeepsLatest.trans (h : KeepsLatest t u) (h' : KeepsLatest u v) : KeepsLatest t v where
  seen k := (h'.seen k).trans (h.seen k)
  fewer k peer hp := h.fewer k peer (h'.fewer k peer hp)
  latest k peer hp := by
    obtain ⟨j, hj, hle⟩ := h.latest k peer hp
    obtain ⟨i, hi, hle'⟩ := h'.latest j peer hj
    rw [h.seen, h.seen] at hle'
    exact ⟨i, hi, UInt64.le_trans hle hle'⟩

theorem NonzeroHandles.keeps (h : NonzeroHandles t) (hk : KeepsLatest t u) : NonzeroHandles u :=
  fun k peer hp => h k peer (hk.fewer k peer hp)

-- ---------------------------------------------------------------------------
-- One round
-- ---------------------------------------------------------------------------

theorem frame_getAnyDuplicateHandle (t : Tracker) :
    (t.getAnyDuplicateHandle.1).handlePeerMap = t.handlePeerMap ∧
      ∀ h, (t.getAnyDuplicateHandle.1).connectionAt h = t.connectionAt h := by
  unfold getAnyDuplicateHandle
  split
  · exact ⟨rfl, fun _ => rfl⟩
  · exact ⟨rfl, fun h => by simp only [connectionAt_touchConnection]⟩

/-- Either no peer has two links, or the search finds the older one of two. -/
theorem getAnyDuplicateHandle_cases (hz : NonzeroHandles t) :
    (t.getAnyDuplicateHandle.2 = 0 ∧ ∀ h k, ¬ SamePeer t h k) ∨
    (t.getAnyDuplicateHandle.2 ≠ 0 ∧ ∃ k, SamePeer t t.getAnyDuplicateHandle.2 k ∧
      (t.connectionAt t.getAnyDuplicateHandle.2).lastSeenTime ≤
      (t.connectionAt k).lastSeenTime) := by
  have hspec := duplicateHandle_spec t [] t.handlePeerMap.entries t.handlePeerMap.nodup
    (fun e he => hz e.1 e.2 (OrdMap.get?_eq_some.mpr he)) List.nodup_nil
  rw [List.reverse_nil, List.map_nil] at hspec
  cases hd : t.duplicateHandle [] t.handlePeerMap.entries with
  | none =>
    rw [hd] at hspec
    refine .inl ⟨by rw [getAnyDuplicateHandle, hd], ?_⟩
    rintro h k ⟨hne, peer, hh, hk⟩
    have hsame := List.inj_on_of_nodup_map hspec (OrdMap.get?_eq_some.mp hh)
      (OrdMap.get?_eq_some.mp hk) rfl
    exact hne (Prod.mk.inj hsame).1
  | some pair =>
    obtain ⟨seen, h⟩ := pair
    rw [hd] at hspec
    obtain ⟨hne, peer, hseen, hh⟩ := hspec
    have hpair : SamePeer t seen h := samePeer_of_mem hne hseen hh
    have hresult : t.getAnyDuplicateHandle.2 =
        if (t.connectionAt seen).lastSeenTime < (t.connectionAt h).lastSeenTime then seen
        else h := by
      rw [getAnyDuplicateHandle, hd]
      simp only [connectionAt_touchConnection]
    rw [hresult]
    right
    split
    next hlt => exact ⟨hz _ _ (OrdMap.get?_eq_some.mpr hseen), h, hpair, UInt64.le_of_lt hlt⟩
    next hge => exact ⟨hz _ _ (OrdMap.get?_eq_some.mpr hh), seen, hpair.symm, UInt64.not_lt.mp hge⟩

theorem lastSeenTime_reportDisconnection (t : Tracker) (frame : Nat) (h k : Handle) :
    ((t.reportDisconnection frame h).1.connectionAt k).lastSeenTime =
    (t.connectionAt k).lastSeenTime := by
  simp only [reportDisconnection, setConnection, connectionAt, OrdMap.get?_insert]
  split
  next he => rw [he]; rfl
  next => rfl

theorem dropDuplicate_spec (hz : NonzeroHandles t) (frame : Nat) :
    ((∀ h k, ¬ SamePeer t h k) ∨
      (dropDuplicate frame t).handlePeerMap.entries.length < t.handlePeerMap.entries.length) ∧
    KeepsLatest t (dropDuplicate frame t) := by
  obtain ⟨hmap, hseen⟩ := frame_getAnyDuplicateHandle t
  unfold dropDuplicate
  simp only
  rcases getAnyDuplicateHandle_cases hz with ⟨hzero, hnone⟩ | ⟨hne, k, ⟨hdiff, peer, hd, hk⟩, hle⟩
  · rw [if_pos hzero]
    refine ⟨.inl hnone, fun h => congrArg _ (hseen h), fun h peer hp => hmap ▸ hp,
      fun h peer hp => ?_⟩
    exact ⟨h, hmap.symm ▸ hp, UInt64.le_refl _⟩
  · rw [if_neg hne]
    generalize hdup : t.getAnyDuplicateHandle.2 = d at hne hdiff hd hle ⊢
    generalize t.getAnyDuplicateHandle.1 = s at hmap hseen ⊢
    have hget (h : Handle) : (s.reportDisconnection frame d).1.handlePeerMap.get? h =
        if h = d then none else t.handlePeerMap.get? h := by
      show (s.handlePeerMap.erase d).get? h = _
      rw [hmap, OrdMap.erase, OrdMap.get?_eraseIf]
      by_cases hh : h = d
      · simp [hh]
      · cases t.handlePeerMap.get? h <;> simp [hh]
    have hseen' (h : Handle) : ((s.reportDisconnection frame d).1.connectionAt h).lastSeenTime =
        (t.connectionAt h).lastSeenTime := by
      rw [lastSeenTime_reportDisconnection, hseen]
    refine ⟨.inr ?_, hseen', fun h peer hp => ?_, fun h peer' hp => ?_⟩
    · show (s.handlePeerMap.erase d).entries.length < _
      rw [hmap]
      exact List.length_filter_lt_length_iff_exists.mpr ⟨(d, peer),
        OrdMap.get?_eq_some.mp hd, by simp⟩
    · rw [hget] at hp
      split at hp
      · cases hp
      · exact hp
    · by_cases hh : h = d
      · subst hh
        rw [hd] at hp
        cases hp
        exact ⟨k, by rw [hget, if_neg hdiff.symm, hk], hle⟩
      · exact ⟨h, by rw [hget, if_neg hh, hp], UInt64.le_refl _⟩

-- ---------------------------------------------------------------------------
-- All rounds
-- ---------------------------------------------------------------------------

/-- With as many rounds as the peer map has entries, one link is left to each peer
that had one, and none to it was seen later. -/
theorem one_link_left (t : Tracker) (frame n : Nat) (hz : NonzeroHandles t)
    (hn : t.handlePeerMap.entries.length ≤ n) :
    let u := (dropDuplicate frame)^[n] t
    (∀ h peer, t.handlePeerMap.get? h = some peer → ∃! k, u.handlePeerMap.get? k = some peer) ∧
      ∀ k peer, u.handlePeerMap.get? k = some peer → t.handlePeerMap.get? k = some peer ∧
        ∀ h, t.handlePeerMap.get? h = some peer →
          (t.connectionAt h).lastSeenTime ≤ (t.connectionAt k).lastSeenTime := by
  intro u
  have hkeeps : KeepsLatest t u :=
    iterate_invariant (fun s => KeepsLatest t s)
      (fun s h => h.trans (dropDuplicate_spec (hz.keeps h) frame).2) (.refl t) n
  have hsettled : ∀ h k, ¬ SamePeer u h k := by
    refine iterate_settles NonzeroHandles (fun s => ∀ h k, ¬ SamePeer s h k)
      (fun s => s.handlePeerMap.entries.length)
      (fun s h => h.keeps (dropDuplicate_spec h frame).2) (fun s h => ?_) (fun s h hs => ?_) hz hn
    · exact (dropDuplicate_spec h frame).1
    · rintro j k ⟨hne, peer, hj, hk⟩
      have hfewer := (dropDuplicate_spec h frame).2.fewer
      exact hs j k ⟨hne, peer, hfewer j peer hj, hfewer k peer hk⟩
  have hunique {j k : Handle} {peer : UInt64} (hj : u.handlePeerMap.get? j = some peer)
      (hk : u.handlePeerMap.get? k = some peer) : j = k := by
    by_contra hne
    exact hsettled j k ⟨hne, peer, hj, hk⟩
  refine ⟨fun h peer hp => ?_, fun k peer hp => ⟨hkeeps.fewer k peer hp, fun h hh => ?_⟩⟩
  · obtain ⟨k, hk, -⟩ := hkeeps.latest h peer hp
    exact ⟨k, hk, fun j hj => hunique hj hk⟩
  · obtain ⟨j, hj, hle⟩ := hkeeps.latest h peer hh
    rw [hunique hp hj]
    exact hle

/-- Of the links 64 and 66 to peer 7, the one not seen for longer is closed. -/
theorem one_of_threeLinks_left :
    let u := (dropDuplicate 300)^[3] threeLinks
    (∃! k, u.handlePeerMap.get? k = some 7) ∧ u.handlePeerMap.get? 64 = some 7 := by
  have hz : NonzeroHandles threeLinks := by
    rintro h peer hget rfl
    have hnone : threeLinks.handlePeerMap.get? 0 = none := by decide +kernel
    rw [hnone] at hget
    cases hget
  have hleft := one_link_left threeLinks 300 3 hz (by decide +kernel)
  exact ⟨hleft.1 64 7 (by decide +kernel), by decide +kernel⟩

end BitchatRepeater
