import BitchatRepeater.StoredPackets
import BitchatRepeater.HexPeer

/-!
# The first copy is stored

`Dedup` says how long a copy of a stored packet is recognised. Here the other
direction: nothing is taken for a copy unless something came before it under the
same key. Without cleanup the first of all that come under a key is stored, and
no other.
-/

namespace BitchatRepeater

open Lib Tracker ProtocolProcessor

variable {P : Platform} {t u : Tracker} {i : Input} {key : Key}

/-- The step brings something to be stored under the key, if it is new: a packet
that may go on, any message, or a life check of our own. -/
inductive Offers (P : Platform) (t : Tracker) (i : Input) : Key → Prop
  | arrives {p : Incoming} {origin : ConnPtr} {offset : UInt16} {buffer : Bytes} {key : Key}
      (hi : Arrives i origin offset buffer) (hr : readPacket P.inflate offset buffer = .packet p)
      (hc : Copy P p key) (hl : p.type = PacketType.typeMessage.code ∨ ¬ p.ttl < 1) :
      Offers P t i key
  | lifeCheck (hi : i.event = .lifeCheck) :
      Offers P t i (.message (stillAliveMessage P (t.getTimeMs i.ambient.now)).messageId)

def StoresSome (out : List Effect) : Prop := ∃ a, (∃ c, .storedNew a c ∈ out) ∨ .storedOwn a ∈ out

def Offered (P : Platform) (t : Tracker) (is : List Input) (key : Key) : Prop :=
  ∃ before i after, is = before ++ i :: after ∧ Offers P (run (step P) t before).1 i key

theorem offered_snoc : Offered P t (is ++ [i]) key ↔
    Offered P t is key ∨ Offers P (run (step P) t is).1 i key := by
  constructor
  · rintro ⟨before, j, after, he, ho⟩
    rcases List.eq_nil_or_concat after with rfl | ⟨after, k, rfl⟩
    · obtain ⟨hbefore, hlast⟩ := List.append_inj' he rfl
      cases hlast
      exact .inr (hbefore ▸ ho)
    · refine .inl ⟨before, j, after, ?_, ho⟩
      have he : is ++ [i] = (before ++ j :: after) ++ [k] := by simpa using he
      exact (List.append_inj' he rfl).1
  · rintro (⟨before, j, after, rfl, ho⟩ | ho)
    · exact ⟨before, j, after ++ [i], by simp, ho⟩
    · exact ⟨is, i, [], rfl, ho⟩

-- ---------------------------------------------------------------------------
-- Steps
-- ---------------------------------------------------------------------------

theorem handlePinActivity_eq (P : Platform) (ambient : Ambient) (t : Tracker) :
    handlePinActivity P ambient t =
      let message := stillAliveMessage P (t.getTimeMs ambient.now)
      if t.messages.contains message.messageId then (t, [])
      else
        ({ t with
            messages := t.messages.insert message.messageId ⟨t.allocate ambient.place, message⟩
            broadcastPacketsToSendList := t.broadcastPacketsToSendList ++
            [t.allocate ambient.place] },
          [.storedOwn (t.allocate ambient.place)]) := by
  unfold handlePinActivity
  simp only [storeMessageAndReturnIfNew]
  by_cases hc : t.messages.contains (stillAliveMessage P (t.getTimeMs ambient.now)).messageId
  · simp only [hc, if_true]
  · simp only [hc, Bool.false_eq_true, if_false]
    rfl

theorem storesSome_lifeCheck (hi : i.event = .lifeCheck) : StoresSome (step P t i).2 ↔
    t.retained (.message (stillAliveMessage P (t.getTimeMs i.ambient.now)).messageId) = none := by
  have hstep : step P t i = handlePinActivity P i.ambient t := by simp only [step, hi]
  rw [hstep, handlePinActivity_eq, retained, Option.map_eq_none_iff, ← contains_eq_false]
  simp only
  cases t.messages.contains (stillAliveMessage P (t.getTimeMs i.ambient.now)).messageId <;>
    simp [StoresSome]

theorem not_storedNew_lifeCheck (hi : i.event = .lifeCheck) : .storedNew a c ∉ (step P t i).2 := by
  have hstep : step P t i = handlePinActivity P i.ambient t := by simp only [step, hi]
  rw [hstep, handlePinActivity_eq]
  simp only
  split <;> simp

theorem Arrives.handled (hi : Arrives i origin offset buffer)
    (hr : readPacket P.inflate offset buffer = .packet p) (t : Tracker) :
    ∃ t₀, Calm t t₀ [] ∧ Handled P i.ambient.place origin p t₀ (step P t i) := by
  obtain ⟨k, he⟩ := hi.step_eq P t
  refine ⟨_, calm_connectionForConnHandle t k, ?_⟩
  rw [he, processWrite, hr]
  exact dispatch_handled

theorem retained_calm (h : Calm t u out) : u.retained key = t.retained key :=
  retained_congr h.quiet.messages h.quiet.packets

theorem storesSome_iff (ho : Offers P t i key) : StoresSome (step P t i).2 ↔
    t.retained key = none := by
  cases ho with
  | @arrives p origin offset buffer key hi hr hc hl =>
    obtain ⟨k, he⟩ := hi.step_eq P t
    have hcalm := calm_connectionForConnHandle t k
    rw [he, ← retained_calm hcalm]
    generalize t.connectionForConnHandle k = t₀
    constructor
    · rintro ⟨a, ⟨c, hm⟩ | hm⟩
      · cases hk : t₀.retained key with
        | none => rfl
        | some base =>
          exact absurd hm ((hc.notNew hr hk i.ambient origin (t₀.connectionAt k)).1 a c)
      · exact absurd hm not_storedOwn_processWrite
    · intro hk
      obtain ⟨a, ha⟩ := Fresh.stored ⟨key, hc, hk, hl⟩ i.ambient origin (t₀.connectionAt k)
      refine ⟨a, .inl ⟨origin, ?_⟩⟩
      simp only [processWrite, hr]
      exact ha
  | lifeCheck hi => exact storesSome_lifeCheck hi

theorem retained_stores_iff {t' : Tracker} (hs : Stores P origin p t t' a packet u) (key : Key) :
    (u.retained key).isSome ↔ (t'.retained key).isSome ∨ Copy P p key := by
  cases hs with
  | @message m hp hr hn =>
    have hcopy : Copy P p key ↔ key = .message m.messageId := by
      have hm : (processMessage .empty p.message p.payload).2 = some m := by
        rw [processMessage_peers _ (checkSenderInPeers t.peers p.sender), hr]
      constructor
      · rintro (⟨-, hm'⟩ | ⟨hcode, hpass⟩)
        · rw [hm] at hm'
          cases hm'
          rfl
        · cases PacketType.code_inj (hcode.trans hp)
          cases hpass
      · rintro rfl
        exact .message hp hm
    rw [enqueueBroadcastPacketFrom_eq, hcopy]
    cases key with
    | message id =>
      by_cases hid : id = m.messageId
      · simp [retained, hid]
      · simp [retained, OrdMap.get?_insert, hid]
    | packet hash => simp [retained]
  | passAlong hp hl hn =>
    obtain ⟨type, hcode, hpass⟩ := hp
    have hcopy : Copy P p key ↔ key = .packet (p.passAlong.packetHash P.hash) := by
      constructor
      · rintro (⟨hp, -⟩ | -)
        · cases PacketType.code_inj (hcode.trans hp)
          cases hpass
        · rfl
      · rintro rfl
        exact .passAlong hcode hpass
    rw [enqueueBroadcastPacketFrom_eq, hcopy]
    cases key with
    | message id => simp [retained]
    | packet hash =>
      by_cases hhash : hash = p.passAlong.packetHash P.hash
      · simp [retained, hhash]
      · simp [retained, OrdMap.get?_insert, hhash]

theorem mayGoOn_of_stores {t' : Tracker} (hs : Stores P origin p t t' a packet u) :
    p.type = PacketType.typeMessage.code ∨ ¬ p.ttl < 1 := by
  cases hs with
  | message hp => exact .inl hp
  | passAlong _ hl => exact .inr hl

theorem retained_cleanup_none (h : t.retained key = none) :
    (t.cleanupStaleItems stale time).retained key = none := by
  cases key with
  | message id =>
    simp only [retained, Option.map_eq_none_iff] at h
    simp [retained, cleanupStaleItems, OrdMap.get?_eraseIf, h]
  | packet hash =>
    simp only [retained, Option.map_eq_none_iff] at h
    simp [retained, cleanupStaleItems, OrdMap.get?_eraseIf, h]

theorem offers_of_retained (hn : t.retained key = none)
    (hk : ((step P t i).1.retained key).isSome) :
    Offers P t i key := by
  by_cases hi : i.event = .lifeCheck
  · have hstep : step P t i = handlePinActivity P i.ambient t := by simp only [step, hi]
    rw [hstep, handlePinActivity_eq] at hk
    simp only at hk
    split at hk
    · simp [hn] at hk
    · cases key with
      | packet hash => simp only [retained] at hk hn; simp [hn] at hk
      | message id =>
        by_cases hid : id = (stillAliveMessage P (t.getTimeMs i.ambient.now)).messageId
        · rw [hid]
          exact .lifeCheck hi
        · simp only [retained, OrdMap.get?_insert, hid, if_false] at hk hn
          simp [hn] at hk
  · have hown (a : Addr) (hm : .storedOwn a ∈ (step P t i).2) : False :=
      hi (lifeCheck_of_storedOwn hm)
    have ho := step_outcome P t i
    have hsame {u : Tracker} (h : u.retained key = t.retained key) : ¬ (u.retained key).isSome := by
      rw [h, hn]
      simp
    generalize step P t i = r at ho hk hown
    cases ho with
    | calm hc => exact absurd hk (hsame (retained_calm hc))
    | stores harr hr hc hl hs =>
      rcases (retained_stores_iff hs key).mp hk with hk | hcopy
      · rw [retained_learns hl] at hk
        exact absurd hk (hsame (retained_calm hc))
      · exact .arrives harr hr hcopy (mayGoOn_of_stores hs)
    | own _ => exact (hown _ List.mem_cons_self).elim
    | drains queue k status _ =>
      have hq := quiet_sendRawPacket queue t k status
      exact absurd hk (hsame (retained_congr hq.messages hq.packets))
    | announces ha => exact absurd hk (hsame (retained_congr ha.quiet.messages ha.quiet.packets))
    | sends _ =>
      obtain ⟨v, targeted, hs, he, -⟩ := sendPackets_sends i.ambient.stale t
      obtain ⟨_, _, _, _, hv⟩ := hs.eq
      rw [he, hv] at hk
      exact absurd hk (hsame (retained_congr rfl rfl))
    | cleans _ =>
      rw [retained_cleanup_none hn] at hk
      cases hk

theorem retained_of_offers (ho : Offers P t i key) : ((step P t i).1.retained key).isSome := by
  cases hk : t.retained key with
  | some base =>
    have hi : i.event ≠ .cleanupStaleItems := by
      cases ho with
      | arrives harr => rcases harr with ⟨k, he, -⟩ | ⟨k, he, -⟩ <;> simp [he]
      | lifeCheck hi => simp [hi]
    rw [retained_outcome (step_outcome P t i) hk hi]
    rfl
  | none =>
    obtain ⟨a, hstored⟩ := (storesSome_iff ho).mpr hk
    cases ho with
    | arrives harr hr hc hl =>
      obtain ⟨t₀, hcalm, ⟨-, hnone⟩ | ⟨t', packet, hl, hs, -⟩⟩ := harr.handled hr t
      · simp [hnone] at hstored
      · exact (retained_stores_iff hs key).mpr (.inr hc)
    | lifeCheck hi =>
      have hstep : step P t i = handlePinActivity P i.ambient t := by simp only [step, hi]
      rw [hstep, handlePinActivity_eq]
      have hc :
          t.messages.contains (stillAliveMessage P (t.getTimeMs i.ambient.now)).messageId = false :=
        contains_eq_false.mpr (Option.map_eq_none_iff.mp hk)
      simp [hc, retained]

-- ---------------------------------------------------------------------------
-- Runs
-- ---------------------------------------------------------------------------

/-- What is held was offered, and without cleanup what was offered is held. -/
theorem retained_run_iff (hn : t.retained key = none) (is : List Input) :
    (((run (step P) t is).1.retained key).isSome → Offered P t is key) ∧
    ((∀ i ∈ is, i.event ≠ .cleanupStaleItems) → Offered P t is key →
      ((run (step P) t is).1.retained key).isSome) := by
  induction is using List.reverseRecOn with
  | nil =>
    refine ⟨fun h => ?_, fun _ ⟨before, i, after, he, _⟩ => ?_⟩
    · simp [hn] at h
    · simp at he
  | append_singleton is i ih =>
    rw [run_snoc, offered_snoc]
    constructor
    · intro hk
      cases hb : (run (step P) t is).1.retained key with
      | some base => exact .inl (ih.1 (by rw [hb]; rfl))
      | none => exact .inr (offers_of_retained hb hk)
    · rintro hclean (ho | ho)
      · have hk := ih.2 (fun j hj => hclean j (List.mem_append_left _ hj)) ho
        obtain ⟨base, hb⟩ := Option.isSome_iff_exists.mp hk
        rw [retained_outcome (step_outcome P _ i) hb (hclean i (by simp))]
        rfl
      · exact retained_of_offers ho

/-- Whatever is offered and not stored was offered before under the same key; and
without cleanup it is stored exactly if it was not. -/
theorem stored_iff_first (P : Platform) (addr : Addr) (is : List Input) (i : Input) (key : Key)
    (ho : Offers P (run (step P) { announceAddr := addr } is).1 i key) :
    (¬ StoresSome (step P (run (step P) { announceAddr := addr } is).1 i).2 →
      Offered P { announceAddr := addr } is key) ∧
    ((∀ j ∈ is, j.event ≠ .cleanupStaleItems) →
      (StoresSome (step P (run (step P) { announceAddr := addr } is).1 i).2 ↔
        ¬ Offered P { announceAddr := addr } is key)) := by
  have hn : ({ announceAddr := addr } : Tracker).retained key = none := by
    cases key <;> rfl
  obtain ⟨hsound, hcomplete⟩ := retained_run_iff (P := P) hn is
  rw [storesSome_iff ho]
  refine ⟨fun hk => hsound (Option.isSome_iff_ne_none.mpr hk),
    fun hclean => ⟨fun hk hoff => ?_, fun hoff => ?_⟩⟩
  · have hsome := hcomplete hclean hoff
    rw [hk] at hsome
    cases hsome
  · by_contra hk
    exact hoff (hsound (Option.isSome_iff_ne_none.mpr hk))

/-- The fragment comes twice, once on each of two links. -/
theorem second_copy_not_stored :
    ¬ StoresSome (step .bare (run (step .bare) { announceAddr := 1 } [earlyWrite]).1
      ⟨.attWrite 2 false .value 0 earlyBytes, .idle⟩).2 ∧
    Offered .bare { announceAddr := 1 } [earlyWrite] earlyKey := by
  have hcopy : Copy .bare earlyFragment earlyKey :=
    .passAlong (rfl : PacketType.typeFragmentStart.code = 5) rfl
  have hread : readPacket Platform.bare.inflate 0 earlyBytes = .packet earlyFragment := by
    decide +kernel
  have hsecond : Offers .bare (run (step .bare) { announceAddr := 1 } [earlyWrite]).1
      ⟨.attWrite 2 false .value 0 earlyBytes, .idle⟩ earlyKey :=
    .arrives (.inl ⟨2, rfl, rfl⟩) hread hcopy (.inr (by decide))
  have hoff : Offered .bare { announceAddr := 1 } [earlyWrite] earlyKey :=
    ⟨[], earlyWrite, [], rfl, .arrives (.inl ⟨1, rfl, rfl⟩) hread hcopy (.inr (by decide))⟩
  have hfirst := (stored_iff_first .bare 1 [earlyWrite] ⟨.attWrite 2 false .value 0 earlyBytes,
    .idle⟩
    earlyKey hsecond).2 (by decide)
  exact ⟨fun hs => hfirst.mp hs hoff, hoff⟩

-- ---------------------------------------------------------------------------
-- Life checks
-- ---------------------------------------------------------------------------

def BringsMessage (P : Platform) (i : Input) (id : Bytes) : Prop :=
  ∃ p origin offset buffer m, Arrives i origin offset buffer ∧
    readPacket P.inflate offset buffer = .packet p ∧ p.type = PacketType.typeMessage.code ∧
    (processMessage .empty p.message p.payload).2 = some m ∧ m.messageId = id

theorem writeUint8Hex16_inj {a b : UInt8}
    (h : BinaryWriter.writeUint8Hex16 a = BinaryWriter.writeUint8Hex16 b) :
    a = b := by
  simp only [BinaryWriter.writeUint8Hex16, List.cons.injEq, and_true] at h
  rw [← hexByte_writeUint8Hex16 a, h.1, h.2, hexByte_writeUint8Hex16]

theorem writeUint32Hex16_inj {a b : UInt32}
    (h : BinaryWriter.writeUint32Hex16 a = BinaryWriter.writeUint32Hex16 b) : a = b := by
  simp only [BinaryWriter.writeUint32Hex16] at h
  obtain ⟨h, h₀⟩ := List.append_inj' h rfl
  obtain ⟨h, h₁⟩ := List.append_inj' h rfl
  obtain ⟨h₃, h₂⟩ := List.append_inj' h rfl
  have h₀ := congrArg UInt8.toNat (writeUint8Hex16_inj h₀)
  have h₁ := congrArg UInt8.toNat (writeUint8Hex16_inj h₁)
  have h₂ := congrArg UInt8.toNat (writeUint8Hex16_inj h₂)
  have h₃ := congrArg UInt8.toNat (writeUint8Hex16_inj h₃)
  have ha := a.toNat_lt
  have hb := b.toNat_lt
  simp only [UInt32.toNat_toUInt8, UInt32.toNat_shiftRight, UInt32.reduceToNat,
    Nat.shiftRight_eq_div_pow, Nat.reduceMod, Nat.reducePow] at h₀ h₁ h₂ h₃
  refine UInt32.toNat_inj.mp ?_
  omega

/-- The id of a life check tells the lower half of the time. -/
theorem stillAlive_id_inj (P : Platform) (ms ms' : UInt64) :
    (stillAliveMessage P ms).messageId = (stillAliveMessage P ms').messageId ↔
    ms.toUInt32 = ms'.toUInt32 := by
  constructor
  · intro h
    obtain ⟨h, -⟩ := List.append_inj' h rfl
    obtain ⟨h, -⟩ := List.append_inj' h rfl
    exact writeUint32Hex16_inj h
  · intro h
    simp only [stillAliveMessage, h]

/-- Without cleanup a life check is stored exactly if there was none before it in
the same millisecond modulo `2 ^ 32`, and no message has come with its id. -/
theorem lifeCheck_new_iff (P : Platform) (addr : Addr) (is : List Input) (i : Input)
    (hi : i.event = .lifeCheck) (hclean : ∀ j ∈ is, j.event ≠ .cleanupStaleItems) :
    let t := (run (step P) { announceAddr := addr } is).1
    (∃ a, .storedOwn a ∈ (step P t i).2) ↔ ∀ before j after, is = before ++ j :: after →
      (j.event = .lifeCheck → ((run (step P) { announceAddr := addr } before).1.getTimeMs
        j.ambient.now).toUInt32 ≠
        (t.getTimeMs i.ambient.now).toUInt32) ∧
      ¬ BringsMessage P j (stillAliveMessage P (t.getTimeMs i.ambient.now)).messageId := by
  intro t
  have hn (key : Key) : ({ announceAddr := addr } : Tracker).retained key = none := by
    cases key <;> rfl
  obtain ⟨hsound, hcomplete⟩ := retained_run_iff (P := P)
    (hn (.message (stillAliveMessage P (t.getTimeMs i.ambient.now)).messageId)) is
  have hstored : (∃ a, .storedOwn a ∈ (step P t i).2) ↔
      t.retained (.message (stillAliveMessage P (t.getTimeMs i.ambient.now)).messageId) = none := by
    rw [← storesSome_lifeCheck hi]
    refine ⟨fun ⟨a, ha⟩ => ⟨a, .inr ha⟩, fun ⟨a, ha⟩ => ⟨a, ?_⟩⟩
    rcases ha with ⟨c, hm⟩ | hm
    · exact absurd hm (not_storedNew_lifeCheck hi)
    · exact hm
  rw [hstored]
  constructor
  · intro hnone before j after hj
    have hoffered (ho : Offers P (run (step P) { announceAddr := addr } before).1 j
        (.message (stillAliveMessage P (t.getTimeMs i.ambient.now)).messageId)) : False := by
      have hsome := hcomplete hclean ⟨before, j, after, hj, ho⟩
      rw [hnone] at hsome
      cases hsome
    constructor
    · intro hlife hsame
      refine hoffered ?_
      rw [← (stillAlive_id_inj P _ _).mpr hsame]
      exact .lifeCheck hlife
    · rintro ⟨p, origin, offset, buffer, m, harr, hr, hp, hm, hid⟩
      refine hoffered ?_
      rw [← hid]
      exact .arrives harr hr (.message hp hm) (.inl hp)
  · intro hfirst
    by_contra hk
    obtain ⟨before, j, after, hj, ho⟩ := hsound (Option.isSome_iff_ne_none.mpr hk)
    obtain ⟨hlife, hbrings⟩ := hfirst before j after hj
    generalize hkey : Key.message (stillAliveMessage P (t.getTimeMs i.ambient.now)).messageId =
      key at ho
    cases ho with
    | @arrives p origin offset buffer key harr hr hc hl =>
      cases hc with
      | message hp hm =>
        exact hbrings ⟨p, origin, offset, buffer, _, harr, hr, hp, hm, (Key.message.inj hkey).symm⟩
      | passAlong _ _ => cases hkey
    | lifeCheck hj =>
      exact hlife hj ((stillAlive_id_inj P _ _).mp (Key.message.inj hkey).symm)

/-- Two life checks in one millisecond: the second is not stored. -/
theorem second_lifeCheck_not_stored :
    ¬ ∃ a, .storedOwn a ∈ (step .bare (run (step .bare) { announceAddr := 1 }
      [⟨.lifeCheck, .idle⟩]).1
      ⟨.lifeCheck, .idle⟩).2 := by
  intro hnew
  have hfirst := (lifeCheck_new_iff .bare 1 [⟨.lifeCheck, .idle⟩] ⟨.lifeCheck,
    .idle⟩ rfl (by decide)).mp hnew
    [] ⟨.lifeCheck, .idle⟩ [] rfl
  exact hfirst.1 rfl (by decide +kernel)

end BitchatRepeater
