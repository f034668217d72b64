import BitchatRepeater.EventLaws

/-!
# Dangling packet pointers

Four lists hold pointers to packets that live in the two stores. Only
`cleanupStaleItems` destroys packets. It tests the peer records and the broadcast
list by the divided timestamp, as the stores, but the connection records by the
undivided one, so a record can outlive its packet. `noDangling_iff` says exactly
when none does, over whole runs.
-/

namespace BitchatRepeater

open Lib Tracker

variable {t u : Tracker}

-- ---------------------------------------------------------------------------
-- The property
-- ---------------------------------------------------------------------------

def heldPackets (t : Tracker) : List Addr :=
  t.packetsConnectionsSentList.entries.map Prod.fst ++
  t.packetsPeersSentList.entries.map Prod.fst ++
    t.broadcastPacketsToSendList ++ t.targetedPacketsToSendList.entries.map Prod.fst

/-- Every pointer is to a stored packet or to the announce. -/
def NoDangling (t : Tracker) : Prop := ∀ a ∈ heldPackets t, a ∈ t.liveAddrs

instance : Decidable (NoDangling t) :=
  inferInstanceAs (Decidable (∀ a ∈ heldPackets t, a ∈ t.liveAddrs))

/-- If the step is a cleanup, then a record goes with each packet that goes: its
undivided timestamp is old enough as well, or its connection is gone. -/
def RecordsFollow (t : Tracker) (i : Input) : Prop :=
  i.event = .cleanupStaleItems → ∀ a c packet, (a, c) ∈ t.packetsConnectionsSentList.entries →
    (a, packet) ∈ t.stored → packetStale (t.getTimeMs i.ambient.now) packet.base →
    packet.base.packetTimestamp + tenMinutesInMs < t.getTimeMs i.ambient.now ∨
      connectionStale (t.getTimeMs i.ambient.now) (t.derefConnection i.ambient.stale c)

theorem mem_heldPackets : a ∈ heldPackets t ↔
    (∃ c, (a, c) ∈ t.packetsConnectionsSentList.entries) ∨
    (∃ peer, (a, peer) ∈ t.packetsPeersSentList.entries) ∨ a ∈ t.broadcastPacketsToSendList ∨
    ∃ c, (a, c) ∈ t.targetedPacketsToSendList.entries := by
  simp [heldPackets]

theorem mem_liveAddrs : a ∈ t.liveAddrs ↔ a = t.announceAddr ∨ ∃ p, (a, p) ∈ t.stored := by
  simp [liveAddrs]

-- ---------------------------------------------------------------------------
-- The invariant
-- ---------------------------------------------------------------------------

/-- Nothing dangles, and only the announce is targeted. -/
structure Referring (t : Tracker) : Prop where
  placed : t.Placed
  targeted : ∀ e ∈ t.targetedPacketsToSendList.entries, e.1 = t.announceAddr
  live : NoDangling t

theorem Referring.frame (h : Referring t) (hs : u.stored = t.stored)
    (ha : u.announceAddr = t.announceAddr)
    (ht : ∀ e ∈ u.targetedPacketsToSendList.entries, e.1 = t.announceAddr)
    (hh : ∀ a ∈ heldPackets u, a ∈ heldPackets t ∨ a = t.announceAddr) : Referring u := by
  refine ⟨h.placed.congr hs ha, fun e he => (ht e he).trans ha.symm, fun a hm => ?_⟩
  have hl : u.liveAddrs = t.liveAddrs := by simp only [liveAddrs, hs, ha]
  rw [hl]
  rcases hh a hm with hm | rfl
  · exact h.live a hm
  · exact List.mem_cons_self

theorem Referring.add (h : Referring t) (hadd : t.Adds u a packet)
    (ha : u.announceAddr = t.announceAddr)
    (ht : u.targetedPacketsToSendList = t.targetedPacketsToSendList)
    (hh : ∀ b ∈ heldPackets u, b ∈ heldPackets t ∨ b = a) : Referring u := by
  refine ⟨hadd.placed h.placed ha, ?_, fun b hm => ?_⟩
  · rw [ht, ha]
    exact h.targeted
  · rw [mem_liveAddrs, ha]
    rcases hh b hm with hm | rfl
    · exact (mem_liveAddrs.mp (h.live b hm)).imp id fun ⟨p, hp⟩ => ⟨p, (hadd.mem _).mpr (.inr hp)⟩
    · exact .inr ⟨packet, (hadd.mem _).mpr (.inl rfl)⟩

theorem Referring.quiet (h : Referring t) (hq : Quiet t u out) : Referring u := by
  refine h.frame hq.stored hq.announceAddr ?_ fun a hm => ?_
  · exact fun e he => (hq.targeted e he).elim (h.targeted e) And.left
  · simp only [mem_heldPackets, hq.broadcast, hq.peersSent] at hm ⊢
    rcases hm with ⟨c, hm⟩ | hm | hm | ⟨c, hm⟩
    · exact .inl (.inl ⟨c, hq.sent_sub _ hm⟩)
    · exact .inl (.inr (.inl hm))
    · exact .inl (.inr (.inr (.inl hm)))
    · exact (hq.targeted _ hm).imp (fun hm => .inr (.inr (.inr ⟨c, hm⟩))) And.left

theorem Referring.sends (h : Referring t) (stale : Stale) : Referring (t.sendPackets stale).1 := by
  have hcalls (a : Addr) (c : ConnPtr) (hm : Calls (t.sendPackets stale).2 a c) :
      a ∈ heldPackets t := by
    rw [mem_heldPackets]
    rcases sendPackets_calls hm with ht | ⟨hb, -⟩
    · exact .inr (.inr (.inr ⟨c, ht⟩))
    · exact .inr (.inr (.inl hb))
  obtain ⟨v, targeted, hs, he, hsub⟩ := sendPackets_sends stale t
  have hsent := hs.sent
  have hstored := hs.stored
  rw [he]
  obtain ⟨_, _, _, _, hv⟩ := hs.eq
  subst hv
  refine h.frame hstored rfl (fun e hm => h.targeted e (hsub e hm)) fun a hm => .inl ?_
  rcases mem_heldPackets.mp hm with ⟨c, hm⟩ | hm | hm | ⟨c, hm⟩
  · rcases (hsent a c).mp hm with hm | hm
    · exact mem_heldPackets.mpr (.inl ⟨c, hm⟩)
    · exact hcalls a c hm
  · exact mem_heldPackets.mpr (.inr (.inl hm))
  · cases hm
  · exact mem_heldPackets.mpr (.inr (.inr (.inr ⟨c, hsub _ hm⟩)))

/-- Only cleanup can leave a pointer behind. -/
theorem Referring.outcome (h : Referring t) (ho : Outcome P t i r)
    (hi : i.event ≠ .cleanupStaleItems) :
    Referring r.1 := by
  cases ho with
  | calm hc => exact h.quiet hc.quiet
  | stores _ _ hc hl hs =>
    have hr := hs.receives hl
    have hadds := hr.adds
    obtain ⟨_, _, _, _, _, rfl⟩ := hr.eq
    refine (h.quiet hc.quiet).add hadds rfl rfl fun b hm => ?_
    simp only [mem_heldPackets, Multimap.mem_emplace, List.mem_append] at hm ⊢
    rcases hm with ⟨c, he | hm⟩ | ⟨peer, he | hm⟩ | (hm | hm) | hm
    · exact .inr (Prod.mk.inj he).1
    · exact .inl (.inl ⟨c, hm⟩)
    · exact .inr (Prod.mk.inj he).1
    · exact .inl (.inr (.inl ⟨peer, hm⟩))
    · exact .inl (.inr (.inr (.inl hm)))
    · split at hm
      · exact .inr (List.mem_singleton.mp hm)
      · cases hm
    · exact .inl (.inr (.inr (.inr hm)))
  | own hs =>
    have hadds := hs.adds
    obtain ⟨_, rfl⟩ := hs.eq
    refine h.add hadds rfl rfl fun b hm => ?_
    simp only [mem_heldPackets, List.mem_append, List.mem_singleton] at hm ⊢
    rcases hm with hm | hm | (hm | hm) | hm
    · exact .inl (.inl hm)
    · exact .inl (.inr (.inl hm))
    · exact .inl (.inr (.inr (.inl hm)))
    · exact .inr hm
    · exact .inl (.inr (.inr (.inr hm)))
  | drains queue k status _ => exact h.quiet (quiet_sendRawPacket queue t k status)
  | announces ha => exact h.quiet ha.quiet
  | sends _ => exact h.sends i.ambient.stale
  | cleans he => exact absurd he hi

-- ---------------------------------------------------------------------------
-- Cleanup
-- ---------------------------------------------------------------------------

theorem packetConnectionStale_iff {stale : Stale} (h : t.Placed) (hm : (a, packet) ∈ t.stored) :
    t.packetConnectionStale stale now (a, c) ↔
      packet.base.packetTimestamp + tenMinutesInMs < now ∨
        connectionStale now (t.derefConnection stale c) := by
  simp only [packetConnectionStale, derefPacket_stored h hm, connectionStale, Bool.or_eq_true,
    decide_eq_true_eq]

theorem mem_liveAddrs_cleanup : a ∈ (t.cleanupStaleItems stale time).liveAddrs ↔
    a = t.announceAddr ∨ ∃ p, (a, p) ∈ t.stored ∧
    packetStale (t.getTimeMs time) p.base = false := by
  rw [mem_liveAddrs]
  simp only [mem_stored_cleanup]
  rfl

theorem Referring.survives (h : Referring t) (ha : a ∈ heldPackets t)
    (hs : packetStale (t.getTimeMs time) (t.derefPacket stale a).base = false) :
    a ∈ (t.cleanupStaleItems stale time).liveAddrs := by
  rw [mem_liveAddrs_cleanup]
  refine (mem_liveAddrs.mp (h.live a ha)).imp id fun ⟨p, hp⟩ => ⟨p, hp, ?_⟩
  rwa [derefPacket_stored h.placed hp] at hs

theorem Referring.cleanup_iff (h : Referring t) (hi : i.event = .cleanupStaleItems) :
    NoDangling (t.cleanupStaleItems i.ambient.stale i.ambient.now) ↔ RecordsFollow t i := by
  constructor
  · intro hn _ a c packet hrec hm hs
    by_contra hc
    have hkept : (a, c) ∈
        (t.cleanupStaleItems i.ambient.stale i.ambient.now).packetsConnectionsSentList.entries := by
      refine Multimap.mem_eraseIf.mpr ⟨hrec, ?_⟩
      rw [← Bool.not_eq_true, packetConnectionStale_iff h.placed hm]
      exact hc
    rcases mem_liveAddrs_cleanup.mp (hn a (mem_heldPackets.mpr (.inl ⟨c, hkept⟩))) with ha | ⟨q, hq,
      hq'⟩
    · exact h.placed.off_announce hm ha
    · rw [h.placed.distinct hq hm, hs] at hq'
      cases hq'
  · intro hr a hm
    rcases mem_heldPackets.mp hm with ⟨c, hm⟩ | ⟨peer, hm⟩ | hm | ⟨c, hm⟩
    · obtain ⟨hm, hk⟩ := Multimap.mem_eraseIf.mp hm
      rw [mem_liveAddrs_cleanup]
      refine (mem_liveAddrs.mp (h.live a (mem_heldPackets.mpr (.inl ⟨c, hm⟩)))).imp id ?_
      rintro ⟨p, hp⟩
      refine ⟨p, hp, Bool.eq_false_iff.mpr fun hs => ?_⟩
      have := (packetConnectionStale_iff h.placed hp).mpr (hr hi a c p hm hp hs)
      rw [hk] at this
      cases this
    · obtain ⟨hm, hk⟩ := Multimap.mem_eraseIf.mp hm
      exact h.survives (mem_heldPackets.mpr (.inr (.inl ⟨peer, hm⟩))) hk
    · obtain ⟨hm, hk⟩ := List.mem_filter.mp hm
      exact h.survives (mem_heldPackets.mpr (.inr (.inr (.inl hm)))) (by simpa using hk)
    · exact mem_liveAddrs_cleanup.mpr (.inl (h.targeted _ (Multimap.mem_eraseIf.mp hm).1))

theorem Referring.cleanup (h : Referring t)
    (hn : NoDangling (t.cleanupStaleItems stale time)) :
    Referring (t.cleanupStaleItems stale time) :=
  ⟨h.placed.cleanup, fun e he => h.targeted e (Multimap.mem_eraseIf.mp he).1, hn⟩

-- ---------------------------------------------------------------------------
-- Runs
-- ---------------------------------------------------------------------------

theorem Referring.step (h : Referring t) (hr : RecordsFollow t i) : Referring (step P t i).1 := by
  by_cases hi : i.event = .cleanupStaleItems
  · have hs : (BitchatRepeater.step P t i).1 =
        t.cleanupStaleItems i.ambient.stale i.ambient.now := by
      simp only [BitchatRepeater.step, hi]
    rw [hs]
    exact h.cleanup ((h.cleanup_iff hi).mpr hr)
  · exact h.outcome (step_outcome P t i) hi

theorem referring_init (addr : Addr) : Referring { announceAddr := addr } where
  placed := placed_init addr
  targeted _ h := by cases h
  live _ h := by cases h

/-- No pointer dangles in any state of a run if and only if at every cleanup of it
the records follow their packets. -/
theorem noDangling_iff (P : Platform) (addr : Addr) (is : List Input) :
    (∀ before after, is = before ++ after →
      NoDangling (run (step P) { announceAddr := addr } before).1) ↔
      Along (step P) RecordsFollow { announceAddr := addr } is := by
  have hrefer (before : List Input) (hb : Along (step P) RecordsFollow
    { announceAddr := addr } before) :
      Referring (run (step P) { announceAddr := addr } before).1 :=
    run_state_invariant Referring (fun t i hr h => h.step hr) (referring_init addr) hb
  constructor
  · intro hn
    refine along_of_prefixes fun before i after he hb hi => ?_
    have hnext := hn (before ++ [i]) after (by rw [he, List.append_assoc]; rfl)
    simp only [run_snoc, step, hi] at hnext
    exact ((hrefer before hb).cleanup_iff hi).mp hnext hi
  · rintro ha before after rfl
    exact (hrefer before (along_append.mp ha).1).live

def staleRecord : List Input :=
  let fragment : Bytes := [1, 5, 3] ++ split64 2000 ++ [0, 0, 1] ++ List.replicate 8 0 ++ [0x61]
  [⟨.attConnected 1 [1] .lePublic, .idle⟩, ⟨.attWrite 1 false .value 0 fragment, .idle⟩,
    ⟨.cleanupStaleItems, { Ambient.idle with now := 601000000 }⟩]

theorem staleRecord_dangles : ¬ NoDangling (run (step .bare) { announceAddr := 1 }
    staleRecord).1 := by
  decide +kernel

end BitchatRepeater
