import BitchatRepeater.Hops
import Mathlib.Data.List.Chain

/-!
# How far the flood reaches

By `flood_bounded` no packet goes further than its ttl. By `flood_reaches` a packet the
writer reproduces gets that far: once it has come in at the first of a path of linked
repeaters that do not hold it yet and have nothing else to send, the calls of
`sendPackets`, the callbacks owed and the links alone can bring it to all of them, up to
as many as its ttl allows. A message gets one repeater further than other packets,
because the one path asks for a ttl before it stores and the other does not.
-/

namespace BitchatRepeater

open Lib Tracker ProtocolProcessor

/-- What holds of the tracker in every run. -/
structure Tracker.Orderly (t : Tracker) : Prop where
  keyed : Keyed t.connections
  sorted : t.connections.Sorted
  peers : PeersKeyed t.peers

theorem orderly_run (P : Platform) (a : Addr) (is : List Input) :
    (run (step P) { announceAddr := a } is).1.Orderly where
  keyed := run_state_invariant (fun t : Tracker => Keyed t.connections)
    (fun t i _ hk => hk.outcome (step_outcome P t i)) keyed_empty (along_true _ is)
  sorted := sorted_run P a is
  peers := peersKeyed_run P a is

section Networks
variable {ι : Type} [DecidableEq ι] {P : ι → Platform} {addr : ι → Addr} {N N' : Network ι}

theorem Network.act_self (n : ι) (i : Input) (source : Lineage) :
    ((N.act P n i source).repeater n).tracker = (step (P n) (N.repeater n).tracker i).1 := by
  simp [Network.act]

theorem Network.act_other (hm : m ≠ n) (i : Input) (source : Lineage) :
    (N.act P n i source).repeater m = N.repeater m :=
  Function.update_of_ne hm _ _

theorem network_runs (h : Network.Reachable P addr N) (n : ι) :
    ∃ is, (N.repeater n).tracker = (run (step (P n)) { announceAddr := addr n } is).1 := by
  have hact {N : Network ι} (m : ι) (i : Input) (source : Lineage)
      (ih : ∃ is, (N.repeater n).tracker = (run (step (P n)) { announceAddr := addr n } is).1) :
      ∃ is, ((N.act P m i source).repeater n).tracker =
        (run (step (P n)) { announceAddr := addr n } is).1 := by
    obtain ⟨is, he⟩ := ih
    by_cases hm : n = m
    · subst hm
      exact ⟨is ++ [i], by rw [Network.act_self, he, run_snoc]⟩
    · exact ⟨is, by rw [Network.act_other hm, he]⟩
  induction h with
  | refl => exact ⟨[], rfl⟩
  | tail _ hs ih =>
    cases hs with
    | outside m i => exact hact m i _ ih
    | deliver m i f hf hi => exact hact m i _ ih

theorem network_orderly (h : Network.Reachable P addr N) (n : ι) :
    (N.repeater n).tracker.Orderly := by
  obtain ⟨is, he⟩ := network_runs h n
  rw [he]
  exact orderly_run ..

end Networks

-- ---------------------------------------------------------------------------
-- The air
-- ---------------------------------------------------------------------------

/-- Data the stack of a repeater was handed, and has taken. -/
structure Handed (ι : Type) where
  node : ι
  queue : RawQueue
  handle : Handle
  data : Bytes

/-- Repeaters with the registrations at their stacks, and what these have taken so far. -/
structure Air (ι : Type) where
  node : ι → Tracker × Registrations
  handed : List (Handed ι)

theorem callback?_arriving (queue : RawQueue) (h : Handle) (data : Bytes) (ambient : Ambient) :
    RawOp.callback? (.event ⟨arriving queue h data, ambient⟩) = none := by
  cases queue <;> rfl

namespace Air

variable {ι : Type}

def took (n : ι) (out : List Effect) : List (Handed ι) :=
  out.filterMap fun
    | .handOver queue handle _ data status =>
      if status = 0 then some ⟨n, queue, handle, data⟩ else none
    | _ => none

theorem mem_took {d : Handed ι} : d ∈ took n out ↔
    d.node = n ∧ ∃ w, .handOver d.queue d.handle w d.data 0 ∈ out := by
  obtain ⟨m, queue, handle, data⟩ := d
  simp only [took, List.mem_filterMap]
  constructor
  · rintro ⟨e, he, hd⟩
    cases e with
    | handOver q k w bytes status =>
      simp only [Option.ite_none_right_eq_some, Option.some.injEq, Handed.mk.injEq] at hd
      obtain ⟨rfl, rfl, rfl, rfl, rfl⟩ := hd
      exact ⟨rfl, w, he⟩
    | _ => cases hd
  · rintro ⟨rfl, w, hm⟩
    exact ⟨_, hm, rfl⟩

variable [DecidableEq ι]

def act (P : ι → Platform) (A : Air ι) (n : ι) (i : StackInput) : Air ι :=
  let result := stackStep (P n) (A.node n) i
  { node := Function.update A.node n result.1
    handed := A.handed ++ took n result.2 }

/-- What makes packets go on, where nothing comes from outside: the main loop calls
`sendPackets`, a link calls back, or data that was handed over for a link arrives at its
other end. -/
inductive Forwarding (wire : ι → Handle → Option (ι × Handle)) (A : Air ι) : ι → StackInput → Prop
  | sendPackets (n : ι) (ambient : Ambient) (requested : RawQueue × Handle → UInt8) :
      Forwarding wire A n ⟨.makes ⟨.event ⟨.sendPackets, ambient⟩, rfl⟩, requested⟩
  | canSend (n : ι) (queue : RawQueue) (link : Handle) (status : UInt8) (ambient : Ambient)
      (requested : RawQueue × Handle → UInt8) (howed : (queue, link) ∈ (A.node n).2.owed) :
      Forwarding wire A n ⟨.canSend queue link status ambient, requested⟩
  | deliver (d : Handed ι) (m : ι) (h : Handle) (ambient : Ambient)
      (requested : RawQueue × Handle → UInt8)
      (hd : d ∈ A.handed) (hw : wire d.node d.handle = some (m, h)) :
      Forwarding wire A m
        ⟨.makes ⟨.event ⟨arriving d.queue h d.data, ambient⟩,
          callback?_arriving d.queue h d.data ambient⟩, requested⟩

def Step (P : ι → Platform) (wire : ι → Handle → Option (ι × Handle)) (A A' : Air ι) : Prop :=
  ∃ n i, Forwarding wire A n i ∧ Unfailing (stackStep (P n) (A.node n) i).2 ∧ A' = A.act P n i

section Act
variable {P : ι → Platform} {A A' : Air ι} {n : ι} {i : StackInput}

@[simp] theorem act_self : (A.act P n i).node n = (stackStep (P n) (A.node n) i).1 :=
  Function.update_self ..

theorem act_other (hm : m ≠ n) : (A.act P n i).node m = A.node m := Function.update_of_ne hm ..

theorem mem_handed_act {d : Handed ι} : d ∈ (A.act P n i).handed ↔
    d ∈ A.handed ∨ d ∈ took n (stackStep (P n) (A.node n) i).2 := List.mem_append

end Act

-- ---------------------------------------------------------------------------
-- The network below
-- ---------------------------------------------------------------------------

/-- The network has these trackers, and what was handed over is under way in it. -/
structure Over (A : Air ι) (N : Network ι) : Prop where
  tracker : ∀ n, (A.node n).1 = (N.repeater n).tracker
  handed : ∀ d ∈ A.handed, ∃ f ∈ N.flights, f.bytes = d.data

variable {P : ι → Platform} {addr : ι → Addr} {wire : ι → Handle → Option (ι × Handle)}
    {A A' : Air ι}
  {N : Network ι}

theorem Over.act (hN : Network.Reachable P addr N) (h : A.Over N) (n : ι)
    (i : StackInput) (j : Input) (hi : i.action.rawOp (A.node n).2 = .event j) (source : Lineage) :
    (A.act P n i).Over (N.act P n j source) where
  tracker m := by
    by_cases hm : m = n
    · subst hm
      rw [act_self, Network.act_self, ← h.tracker m, stackStep, hi]
      rfl
    · rw [act_other hm, Network.act_other hm, h.tracker m]
  handed d hd := by
    have hmore {f : Flight} (hf : f ∈ N.flights) : f ∈ (N.act P n j source).flights :=
      List.mem_append_left _ hf
    rcases mem_handed_act.mp hd with hd | hd
    · obtain ⟨f, hf, hb⟩ := h.handed d hd
      exact ⟨f, hmore hf, hb⟩
    · obtain ⟨-, w, hover⟩ := mem_took.mp hd
      have hout : (stackStep (P n) (A.node n) i).2 = (step (P n) (N.repeater n).tracker j).2 := by
        rw [← h.tracker n, stackStep, hi]
        rfl
      obtain ⟨k, hk⟩ := (step_outcome (P n) _ j).handOver (hout ▸ hover)
      obtain ⟨f, hf, hb⟩ := ((network_sound P addr hN).traced n).raw d.queue k d.data hk
      exact ⟨f, hmore hf, hb⟩

theorem Step.over (hs : Step P wire A A') (hN : Network.Reachable P addr N) (h : A.Over N) :
    ∃ N', Network.Step P N N' ∧ A'.Over N' := by
  obtain ⟨n, i, hi, -, rfl⟩ := hs
  cases hi with
  | sendPackets n ambient requested =>
    exact ⟨_, .outside n ⟨.sendPackets, ambient⟩, h.act hN n _ _ rfl _⟩
  | canSend n queue link status ambient requested howed =>
    cases queue
    all_goals exact ⟨_, .outside n _, h.act hN n _ _ rfl _⟩
  | deliver d _ k ambient requested hd hw =>
    obtain ⟨f, hf, hb⟩ := h.handed d hd
    refine ⟨_, .deliver n ⟨arriving d.queue k d.data, ambient⟩ f hf ?_, h.act hN n _ _ rfl _⟩
    rw [hb]
    cases d.queue
    · exact .inr ⟨k, rfl⟩
    · exact .inl ⟨k, rfl⟩

theorem run_over (hs : Relation.ReflTransGen (Step P wire) A A') (hN : Network.Reachable P addr N)
    (h : A.Over N) :
    ∃ N', Relation.ReflTransGen (Network.Step P) N N' ∧ A'.Over N' := by
  induction hs with
  | refl => exact ⟨N, .refl, h⟩
  | tail _ hs ih =>
    obtain ⟨N', hsteps, h'⟩ := ih
    obtain ⟨N'', hstep, h''⟩ := hs.over (hN.trans hsteps) h'
    exact ⟨N'', hsteps.tail hstep, h''⟩

end Air

-- ---------------------------------------------------------------------------
-- One hop
-- ---------------------------------------------------------------------------

section Hops
variable {ι : Type} {P : Platform} {hop : Hop ι} {t t' u : Tracker} {f : Frame} {packet : Packet}

theorem Tracker.Holds.of_stored {ttl : UInt8} (h : t.Holds p ttl) (hs : u.stored = t.stored) :
    u.Holds p ttl := by
  obtain ⟨a, packet, hm, hp⟩ := h
  exact ⟨a, packet, hs ▸ hm, hp⟩

theorem holds_of_stores (hl : Learns t t')
    (hs : Stores P origin p t t' (t.allocate place) packet u) : u.Holds p p.ttl :=
  ⟨_, packet, ((hs.receives hl).adds.mem _).mpr (.inl rfl), Stores.parsed hs⟩

theorem stored_sendPackets (stale : Stale) (t : Tracker) :
    (t.sendPackets stale).1.stored = t.stored := by
  obtain ⟨v, targeted, hs, he, -⟩ := sendPackets_sends stale t
  rw [he]
  exact hs.stored

theorem stored_sendRawPacket (queue : RawQueue) (t : Tracker) (h : Handle) (status : UInt8) :
    (sendRawPacket queue t h status).1.stored = t.stored := by
  obtain ⟨_, _, _, he⟩ := (drains_sendRawPacket queue t h status).eq
  rw [he]
  rfl

theorem stored_handing (P : Platform) (s : Tracker × Registrations) (hop : Hop ι) :
    (stackStep P s hop.handing).1.1.stored = s.1.stored := by
  rcases stackStep_cases P s hop.handing with ⟨hnone, -⟩ | ⟨queue, link, status, -, ht, -⟩
  · cases hnone
  · rw [ht]
    exact stored_sendRawPacket ..

/-- The packet arrives, as the stack sees it. -/
def Hop.arrival (hop : Hop ι) (bytes : Bytes) : StackInput :=
  ⟨.makes ⟨.event (hop.receiving bytes), callback?_arriving hop.entersBy hop.arrives bytes
    hop.ambient⟩, fun _ => 0⟩

/-- The link on which the packet leaves the one repeater is that on which it comes to the other. -/
def Hop.Linked (wire : ι → Handle → Option (ι × Handle)) (hop next : Hop ι) : Prop :=
  wire hop.node hop.leaves = some (next.node, next.arrives) ∧ next.entersBy = hop.leavesBy

theorem Hop.Linked.forwarding {wire : ι → Handle → Option (ι × Handle)} {A : Air ι}
    (h : hop.Linked wire next) (hd : ⟨hop.node, hop.leavesBy, hop.leaves, data⟩ ∈ A.handed) :
    Air.Forwarding wire A next.node (next.arrival data) := by
  obtain ⟨hw, hq⟩ := h
  obtain ⟨node, entersBy, arrives, leavesBy, leaves, ambient⟩ := next
  subst hq
  exact .deliver _ _ arrives ambient _ hd hw

end Hops

section Flood
variable {ι : Type} [DecidableEq ι] {P : ι → Platform} {wire : ι → Handle → Option (ι × Handle)}
  {A : Air ι} {f : Frame} {hop : Hop ι} {padding : Bytes}

theorem Hop.Receptive.arrives
    (hr : hop.Receptive (P hop.node) (f.incoming f.body) (A.node hop.node).1)
    (hf : f.Plain) (hl : (f.bytes ++ padding).length < 2 ^ 16) (hreach : 0 < f.reach) :
    ((A.act P hop.node (hop.arrival (f.bytes ++ padding))).node hop.node).1.Holds
        (f.incoming f.body) f.header.ttl ∧
      Unfailing (stackStep (P hop.node) (A.node hop.node)
        (hop.arrival (f.bytes ++ padding))).2 := by
  obtain ⟨t', packet, hlearns, hs, hout⟩ := hr.stores hf hl hreach
  rw [Air.act_self]
  refine ⟨holds_of_stores hlearns hs, ?_⟩
  have heffects : (stackStep (P hop.node) (A.node hop.node) (hop.arrival (f.bytes ++ padding))).2 =
      [.storedNew ((A.node hop.node).1.allocate hop.ambient.place) hop.origin] := hout
  rw [heffects]
  simp [Unfailing]

theorem Hop.Receptive.forwarded
    (hr : hop.Receptive (P hop.node) (f.incoming f.body) (A.node hop.node).1)
    (hfor : hop.Forwards (f.bytes.length + 1) (A.node hop.node).1)
    (ho : (A.node hop.node).1.Orderly) (hf : f.Plain) (hl : (f.bytes ++ padding).length < 2 ^ 16)
    (hreach : 1 < f.reach) :
    ∃ A', Relation.ReflTransGen (Air.Step P wire)
        (A.act P hop.node (hop.arrival (f.bytes ++ padding))) A' ∧
      (∀ n, n ≠ hop.node → A'.node n = A.node n) ∧
      (A'.node hop.node).1.Holds (f.incoming f.body) f.header.ttl ∧
      ⟨hop.node, hop.leavesBy, hop.leaves, f.next.bytes ++ [0]⟩ ∈ A'.handed := by
  have hpos : f.header.ttl > 0 := UInt8.lt_iff_toNat_lt.mpr (f.ttl_of_reach hreach)
  obtain ⟨t', packet, hlearns, hs, -⟩ := hr.stores hf hl (Nat.zero_lt_of_lt hreach)
  have hnode : (A.act P hop.node (hop.arrival (f.bytes ++ padding))).node hop.node =
      (stackStep (P hop.node) (A.node hop.node) (hop.arrival (f.bytes ++ padding))).1 :=
        Air.act_self
  generalize hA₁ : A.act P hop.node (hop.arrival (f.bytes ++ padding)) = A₁ at hnode ⊢
  obtain ⟨hsent, howed, hhanded, w, hover⟩ :=
    hfor.passes ho.keyed ho.sorted ho.peers hf hr.arrival hlearns hs hpos (A₁.node hop.node).2
  have hpair : ((step (P hop.node) (A.node hop.node).1 (hop.receiving (f.bytes ++ padding))).1,
      (A₁.node hop.node).2) = A₁.node hop.node := by rw [hnode]; rfl
  rw [hpair] at hsent howed hhanded hover
  have hsending : Air.Step P wire A₁ (A₁.act P hop.node hop.sending) :=
    ⟨hop.node, hop.sending, .sendPackets .., hsent, rfl⟩
  rw [← Air.act_self (P := P)] at howed hhanded hover
  have hhanding : Air.Step P wire (A₁.act P hop.node hop.sending)
      ((A₁.act P hop.node hop.sending).act P hop.node hop.handing) :=
    ⟨hop.node, hop.handing, .canSend _ _ _ _ _ _ howed, hhanded, rfl⟩
  refine ⟨_, .tail (.single hsending) hhanding, fun n hn => ?_, ?_, ?_⟩
  · rw [Air.act_other hn, Air.act_other hn, ← hA₁, Air.act_other hn]
  · have hheld := (hr.arrives hf hl (Nat.zero_lt_of_lt hreach)).1
    rw [hA₁] at hheld
    rw [Air.act_self]
    exact (hheld.of_stored (by rw [Air.act_self]; exact stored_sendPackets ..)).of_stored
      (stored_handing ..)
  · exact Air.mem_handed_act.mpr (.inr (Air.mem_took.mpr ⟨rfl, w, hover⟩))

theorem sub_one_sub (a : UInt8) (j : Nat) : a - 1 - UInt8.ofNat j = a - UInt8.ofNat (j + 1) := by
  rw [UInt8.ofNat_add, UInt8.sub_eq_iff_eq_add, UInt8.sub_eq_iff_eq_add, UInt8.add_assoc]
  exact (UInt8.sub_add_cancel a _).symm

theorem Frame.Plain.holds_next (hf : f.Plain) {t : Tracker} {j : Nat}
    (h : t.Holds (f.next.incoming f.next.body) (f.next.header.ttl - UInt8.ofNat j)) :
    t.Holds (f.incoming f.body) (f.header.ttl - UInt8.ofNat (j + 1)) := by
  rw [hf.incoming_next, f.header_next, sub_one_sub] at h
  exact h

/-- Along the path the packet comes in at every hop. The induction takes a hop at a time:
the packet arrives, is handed to the stack and is under way to the next. -/
theorem flood_along (path : List (Hop ι)) (hf : f.Plain) (hl : (f.bytes ++ padding).length < 2 ^ 16)
    (hnodup : ((hop :: path).map Hop.node).Nodup)
    (hlinked : (hop :: path).IsChain (Hop.Linked wire))
    (horderly : ∀ h ∈ hop :: path, (A.node h.node).1.Orderly)
    (hreceptive : ∀ h ∈ hop :: path, h.Receptive (P h.node) (f.incoming f.body) (A.node h.node).1)
    (hforwards : ∀ h ∈ (hop :: path).dropLast, h.Forwards (f.bytes.length + 1) (A.node h.node).1)
    (hlen : (hop :: path).length ≤ f.reach) :
    ∃ A', Relation.ReflTransGen (Air.Step P wire)
        (A.act P hop.node (hop.arrival (f.bytes ++ padding))) A' ∧
      (∀ n, n ∉ (hop :: path).map Hop.node → A'.node n = A.node n) ∧
      ∀ j h, (hop :: path)[j]? = some h →
        (A'.node h.node).1.Holds (f.incoming f.body) (f.header.ttl - UInt8.ofNat j) := by
  induction path generalizing A hop f padding with
  | nil =>
    have hheld := ((hreceptive hop List.mem_cons_self).arrives hf hl hlen).1
    refine ⟨_, .refl, fun n hn => Air.act_other (by simpa using hn), fun j h hj => ?_⟩
    obtain ⟨rfl, rfl⟩ : j = 0 ∧ hop = h := by
      cases j <;> simp_all
    simpa using hheld
  | cons next path ih =>
    obtain ⟨hlink, hlinks⟩ := List.isChain_cons_cons.mp hlinked
    obtain ⟨hnew, hnodup'⟩ := List.nodup_cons.mp hnodup
    obtain ⟨A₁, hsteps, hsame, hheld, hhanded⟩ := (hreceptive hop List.mem_cons_self).forwarded
      (hforwards hop (by simp [List.dropLast])) (horderly hop List.mem_cons_self) hf hl
      (Nat.lt_of_lt_of_le (by simp) hlen)
    have hstill (h : Hop ι) (hm : h ∈ next :: path) : A₁.node h.node = A.node h.node :=
      hsame h.node fun he => hnew (List.mem_map.mpr ⟨h, hm, he⟩)
    have hreceptive' : ∀ h ∈ next :: path,
        h.Receptive (P h.node) (f.next.incoming f.next.body) (A₁.node h.node).1 := fun h hm => by
      rw [hstill h hm]
      exact (hreceptive h (List.mem_cons_of_mem _ hm)).next hf
    have hsize : (f.next.bytes ++ [0]).length < 2 ^ 16 := by
      rw [List.length_append, List.length_singleton, hf.length_next]
      exact hf.fits
    have hlen' : (next :: path).length ≤ f.next.reach := f.reach_next hlen
    have harrives := ((hreceptive' next List.mem_cons_self).arrives hf.next hsize
      (Nat.lt_of_lt_of_le (by simp) hlen')).2
    obtain ⟨A', hsteps', hsame', hholds⟩ := ih hf.next hsize hnodup' hlinks
      (fun h hm => hstill h hm ▸ horderly h (List.mem_cons_of_mem _ hm)) hreceptive'
      (fun h hm => by
        rw [hf.length_next, hstill h (List.mem_of_mem_dropLast hm)]
        exact hforwards h (by rw [List.dropLast_cons_cons]; exact List.mem_cons_of_mem _ hm)) hlen'
    refine ⟨A', (hsteps.tail ⟨_, _, hlink.forwarding hhanded, harrives, rfl⟩).trans hsteps',
      fun n hn => ?_, fun j h hj => ?_⟩
    · obtain ⟨hne, hn'⟩ := not_or.mp (fun h => hn (List.mem_cons.mpr h))
      rw [hsame' n hn', hsame n hne]
    · cases j with
      | zero =>
        obtain rfl : hop = h := by simpa using hj
        rw [hsame' hop.node hnew]
        simpa using hheld
      | succ j => exact hf.holds_next (hholds j h hj)

/-- The packet comes in at the first repeater of the path, and from there the repeaters and
the links alone bring it to the others; what they do is a run of the network. -/
theorem flood_reaches (P : ι → Platform) (addr : ι → Addr) (wire : ι → Handle → Option (ι × Handle))
    (N : Network ι) (A : Air ι) (f : Frame) (padding : Bytes) (hop : Hop ι) (path : List (Hop ι))
    (hN : Network.Reachable P addr N) (hA : A.Over N) (hf : f.Plain)
    (hl : (f.bytes ++ padding).length < 2 ^ 16) (hnodup : ((hop :: path).map Hop.node).Nodup)
    (hlinked : (hop :: path).IsChain (Hop.Linked wire))
    (hreceptive : ∀ h ∈ hop :: path, h.Receptive (P h.node) (f.incoming f.body) (A.node h.node).1)
    (hforwards : ∀ h ∈ (hop :: path).dropLast, h.Forwards (f.bytes.length + 1) (A.node h.node).1)
    (hlen : (hop :: path).length ≤ f.reach) :
    ∃ A' N', Relation.ReflTransGen (Air.Step P wire)
        (A.act P hop.node (hop.arrival (f.bytes ++ padding))) A' ∧
      Relation.ReflTransGen (Network.Step P) N N' ∧ A'.Over N' ∧
      ∀ j h, (hop :: path)[j]? = some h →
        (A'.node h.node).1.Holds (f.incoming f.body) (f.header.ttl - UInt8.ofNat j) := by
  have horderly : ∀ h ∈ hop :: path, (A.node h.node).1.Orderly := fun h _ => by
    rw [hA.tracker]
    exact network_orderly hN h.node
  obtain ⟨A', hsteps, -, hholds⟩ :=
    flood_along path hf hl hnodup hlinked horderly hreceptive hforwards hlen
  have harrival : Network.Step P N (N.act P hop.node (hop.receiving (f.bytes ++ padding)) _) :=
    .outside ..
  obtain ⟨N', hrun, hover⟩ := Air.run_over hsteps (hN.tail harrival)
    (hA.act hN hop.node (hop.arrival (f.bytes ++ padding))
      (hop.receiving (f.bytes ++ padding)) rfl _)
  exact ⟨A', N', hsteps, .head harrival hrun, hover, hholds⟩

end Flood

def linked : Network Bool :=
  relayedOn
    (relayed (.initial fun _ => 1)
      ([.connectionComplete 1 [1] .lePublic .slave,
        .connectionComplete 2 [2] .lePublic .slave] ++ twoClients))
    [.connectionComplete 1 [1] .lePublic .master]

def oneLink : Bool → Handle → Option (Bool × Handle)
  | false, 2 => some (true, 1)
  | true, 1 => some (false, 2)
  | _, _ => none

def quiet : Air Bool := ⟨fun n => ((linked.repeater n).tracker, {}), []⟩

def firstHop : Hop Bool := ⟨false, .write, 1, .notify, 2, .idle⟩

def secondHop : Hop Bool := ⟨true, .notify, 1, .write, 2, .idle⟩

theorem fragment_reaches_second :
    ∃ A' N', Relation.ReflTransGen (Air.Step (fun _ => .bare) oneLink)
        (quiet.act (fun _ => .bare) false (firstHop.arrival (fragmentFrame.bytes ++ []))) A' ∧
      Relation.ReflTransGen (Network.Step fun _ => .bare) linked N' ∧ A'.Over N' ∧
      ∀ j h, [firstHop, secondHop][j]? = some h →
        (A'.node h.node).1.Holds (fragmentFrame.incoming [0x61]) (3 - UInt8.ofNat j) := by
  have hreachable : Network.Reachable (fun _ => .bare) (fun _ => 1) linked :=
    reachable_relayedOn (reachable_relayed .refl _) _
  have hlinks (k : Handle) (c : BleConnection)
    (hc : (linked.repeater false).tracker.connections.get? k = some c) :
      k ≤ 2 ∧ fragmentFrame.bytes.length + 1 ≤ c.btMtu.toNat := by
    have hall : ∀ e ∈ (linked.repeater false).tracker.connections.entries,
        e.1 ≤ 2 ∧ fragmentFrame.bytes.length + 1 ≤ e.2.btMtu.toNat := by decide +kernel
    exact hall _ (OrdMap.get?_eq_some.mp hc)
  have hempty (n : Bool) (key : Key) : (linked.repeater n).tracker.retained key = none := by
    cases n <;> cases key <;> rfl
  have hreceptive : ∀ h ∈ [firstHop, secondHop], h.Receptive .bare (fragmentFrame.incoming [0x61])
      (quiet.node h.node).1 := by
    intro h hh
    refine ⟨?_, fun key _ => hempty h.node key⟩
    simp only [List.mem_cons, List.not_mem_nil, or_false] at hh
    rcases hh with rfl | rfl
    · exact ⟨_, rfl, rfl⟩
    · exact ⟨_, rfl, rfl⟩
  have hforwards : ∀ h ∈ [firstHop, secondHop].dropLast, h.Forwards (fragmentFrame.bytes.length + 1)
      (quiet.node h.node).1 := by
    intro h hh
    obtain rfl : h = firstHop := by simpa using hh
    exact ⟨rfl, rfl, ⟨_, rfl, rfl, rfl⟩, by decide, fun e he => (by cases he),
      fun k c hc _ => (hlinks k c hc).2,
      fun k c hc _ _ => .inr (hlinks k c hc).1, rfl⟩
  exact flood_reaches (fun _ => .bare) (fun _ => 1) oneLink linked quiet fragmentFrame []
    firstHop [secondHop]
    hreachable ⟨fun _ => rfl, fun d hd => by cases hd⟩ ⟨rfl, rfl,
      .inl ⟨.typeFragmentStart, rfl, rfl⟩, by decide⟩
    (by decide) (by decide) (by simp [Hop.Linked, oneLink, firstHop, secondHop]) hreceptive
    hforwards (by decide)

end BitchatRepeater
