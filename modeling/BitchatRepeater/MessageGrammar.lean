import BitchatRepeater.Lib.Items
import BitchatRepeater.MessageCodec

/-!
# Which payloads are messages

A message payload is flags and a timestamp, followed by items with a length in
front: those every message has, and those its flags announce. `processMessage`
reads a missing length as zero. It accepts the payloads that begin with a
message, and in addition those that end where the length of an item is due, for
then that item and all behind it are read as empty.
-/

namespace BitchatRepeater

open Lib Tracker ProtocolProcessor BinaryWriter

-- ---------------------------------------------------------------------------
-- The items of a message
-- ---------------------------------------------------------------------------

inductive Item
  /-- A length byte and that many bytes. -/
  | field
  /-- Two length bytes and that many bytes. -/
  | content
  /-- A count and that many fields. -/
  | mentions
  deriving DecidableEq, Repr

def skipData (n : Nat) (input : Bytes) : Skip UInt8 :=
  if input.length < n then .overrun else .on (input.drop n)

def skipField : Bytes → Skip UInt8
  | [] => .cut []
  | n :: input => skipData n.toNat input

def skipFields : Nat → Bytes → Skip UInt8
  | 0, input => .on input
  | n + 1, input =>
    match skipField input with
    | .on rest => skipFields n rest
    | stop => stop

def skipItem : Item → Bytes → Skip UInt8
  | .field, input => skipField input
  | .content, n₁ :: n₀ :: input => skipData (join16 n₁ n₀).toNat input
  | .content, left => .cut left
  | .mentions, [] => .cut []
  | .mentions, n :: input => skipFields n.toNat input

def flaggedItem (flags mask : UInt8) (item : Item) : List Item :=
  if hasFlag flags mask then [item] else []

def leadingItems (flags : UInt8) : List Item :=
  [.field, .field, .content] ++ flaggedItem flags 0x04 .field ++ flaggedItem flags 0x08 .field

def items (flags : UInt8) : List Item :=
  leadingItems flags ++ flaggedItem flags 0x10 .field ++ flaggedItem flags 0x20 .mentions ++
    flaggedItem flags 0x40 .field

def BeginsWithMessage (payload : Bytes) : Prop :=
  ∃ (w : WireMessage) (rest : Bytes), payload = w.encode ++ rest

/-- Whether the reader gets to the end behind a length that is cut. It does if
nothing is left; else one byte is, which it takes for the length or the count of
the next item. -/
def readsOn : List Item → Bytes → Bool
  | .field :: _, n :: _ => n = 0
  | .content :: is, left => readsOn is left
  | _, _ => true

/-- The payload ends where a length is due, and the reader does not notice. -/
def endsAtLength (payload : Bytes) : Bool :=
  match walk skipItem (items (payload.getD 0 0)) (payload.drop 9) with
  | .cut behind left => 13 ≤ payload.length && readsOn behind left
  | _ => false

-- ---------------------------------------------------------------------------
-- The grammar
-- ---------------------------------------------------------------------------

def Item.Encodes : Item → Bytes → Prop
  | .field, piece => ∃ s : Short, piece = s.encode
  | .content, piece => ∃ c : Bytes, c.length < 2 ^ 16 ∧ piece = split16 (UInt16.ofNat c.length) ++ c
  | .mentions, piece => ∃ ms : List Short, ms.length < 256 ∧
      piece = UInt8.ofNat ms.length :: ms.flatMap Short.encode

theorem skipData_ne_cut : skipData n input ≠ .cut left := by
  unfold skipData
  split <;> simp

theorem skipData_on {input rest : Bytes} :
    skipData n input = .on rest ↔ ∃ s : Bytes, s.length = n ∧ input = s ++ rest := by
  unfold skipData
  constructor
  · intro h
    split at h
    · cases h
    next hl =>
      cases h
      exact ⟨input.take n, by simpa using hl, (List.take_append_drop n input).symm⟩
  · rintro ⟨s, rfl, rfl⟩
    rw [if_neg (by simp), List.drop_left]

theorem skipField_on {input rest : Bytes} :
    skipField input = .on rest ↔ ∃ s : Short, input = s.encode ++ rest := by
  cases input with
  | nil => simp [skipField, Short.encode]
  | cons n input =>
    rw [skipField, skipData_on]
    constructor
    · rintro ⟨s, hs, rfl⟩
      exact ⟨⟨s, hs ▸ n.toNat_lt⟩, by simp [Short.encode, hs]⟩
    · rintro ⟨s, hs⟩
      obtain ⟨rfl, rfl⟩ := List.cons.inj hs
      exact ⟨s.val, by simp [Nat.mod_eq_of_lt s.2], rfl⟩

theorem skipFields_on {input rest : Bytes} : skipFields n input = .on rest ↔
    ∃ ms : List Short, ms.length = n ∧ input = ms.flatMap Short.encode ++ rest := by
  induction n generalizing input with
  | zero => simp [skipFields]
  | succ n ih =>
    constructor
    · intro h
      cases hs : skipField input with
      | on next =>
        simp only [skipFields, hs] at h
        obtain ⟨s, rfl⟩ := skipField_on.mp hs
        obtain ⟨ms, rfl, rfl⟩ := ih.mp h
        exact ⟨s :: ms, rfl, by simp⟩
      | overrun => simp [skipFields, hs] at h
      | cut left => simp [skipFields, hs] at h
    · rintro ⟨ms, hl, rfl⟩
      obtain ⟨s, ms, rfl⟩ := List.exists_cons_of_length_eq_add_one hl
      have hs : skipField (s.encode ++ (ms.flatMap Short.encode ++ rest)) =
          .on (ms.flatMap Short.encode ++ rest) := skipField_on.mpr ⟨s, rfl⟩
      rw [List.flatMap_cons, List.append_assoc, skipFields, hs]
      exact ih.mpr ⟨ms, Nat.succ.inj hl, rfl⟩

theorem skipItem_on (item : Item) (input rest : Bytes) :
    skipItem item input = .on rest ↔ ∃ piece, item.Encodes piece ∧ input = piece ++ rest := by
  cases item with
  | field =>
    rw [skipItem, skipField_on]
    exact ⟨fun ⟨s, h⟩ => ⟨_, ⟨s, rfl⟩, h⟩, fun ⟨_, ⟨s, rfl⟩, h⟩ => ⟨s, h⟩⟩
  | content =>
    match input with
    | [] => simp [skipItem, Item.Encodes, split16]
    | [n] => simp [skipItem, Item.Encodes, split16]
    | n₁ :: n₀ :: input =>
      rw [skipItem, skipData_on]
      constructor
      · rintro ⟨c, hc, rfl⟩
        refine ⟨_, ⟨c, hc ▸ UInt16.toNat_lt _, rfl⟩, ?_⟩
        simp [hc, split16_join]
      · rintro ⟨_, ⟨c, hc, rfl⟩, h⟩
        simp only [split16, List.cons_append, List.nil_append, List.cons.injEq] at h
        obtain ⟨rfl, rfl, rfl⟩ := h
        rw [join16_split]
        exact ⟨c, by simpa using (Nat.mod_eq_of_lt hc).symm, rfl⟩
  | mentions =>
    cases input with
    | nil => simp [skipItem, Item.Encodes]
    | cons n input =>
      rw [skipItem, skipFields_on]
      constructor
      · rintro ⟨ms, hms, rfl⟩
        exact ⟨_, ⟨ms, hms ▸ n.toNat_lt, rfl⟩, by simp [hms]⟩
      · rintro ⟨_, ⟨ms, hms, rfl⟩, h⟩
        obtain ⟨rfl, rfl⟩ := List.cons.inj h
        exact ⟨ms, by simp [Nat.mod_eq_of_lt hms], rfl⟩

theorem forall₂_flaggedItem {pieces : List Bytes} (hany : ∃ piece, item.Encodes piece)
    (h : List.Forall₂ Item.Encodes (flaggedItem flags mask item ++ is) pieces) :
    ∃ piece rest, item.Encodes piece ∧ List.Forall₂ Item.Encodes is rest ∧
      pieces.flatten = flagged (hasFlag flags mask) piece ++ rest.flatten := by
  unfold flaggedItem at h
  split at h
  next hf =>
    obtain ⟨piece, rest, hp, hr, rfl⟩ := List.forall₂_cons_left_iff.mp h
    exact ⟨piece, rest, hp, hr, by simp [flagged, hf]⟩
  next hf =>
    obtain ⟨piece, hp⟩ := hany
    exact ⟨piece, pieces, hp, h, by simp [flagged, hf]⟩

theorem encodes_empty : Item.field.Encodes (Short.encode ⟨[], Nat.succ_pos 255⟩) := ⟨_, rfl⟩

theorem encodes_none : Item.mentions.Encodes [0] := ⟨[], by simp, rfl⟩

theorem exists_wireMessage {pieces : List Bytes} (flags : UInt8) (timestamp : UInt64)
    (h : List.Forall₂ Item.Encodes (items flags) pieces) :
    ∃ w : WireMessage, w.encode = flags :: split64 timestamp ++ pieces.flatten := by
  simp only [items, leadingItems, List.append_assoc, List.cons_append, List.nil_append] at h
  obtain ⟨_, p₁, ⟨id, rfl⟩, h₁, rfl⟩ := List.forall₂_cons_left_iff.mp h
  obtain ⟨_, p₂, ⟨sender, rfl⟩, h₂, rfl⟩ := List.forall₂_cons_left_iff.mp h₁
  obtain ⟨_, p₃, ⟨content, hc, rfl⟩, h₃, rfl⟩ := List.forall₂_cons_left_iff.mp h₂
  obtain ⟨_, p₄, ⟨original, rfl⟩, h₄, e₄⟩ := forall₂_flaggedItem ⟨_, encodes_empty⟩ h₃
  obtain ⟨_, p₅, ⟨recipient, rfl⟩, h₅, e₅⟩ := forall₂_flaggedItem ⟨_, encodes_empty⟩ h₄
  obtain ⟨_, p₆, ⟨peer, rfl⟩, h₆, e₆⟩ := forall₂_flaggedItem ⟨_, encodes_empty⟩ h₅
  obtain ⟨_, p₇, ⟨mentions, hm, rfl⟩, h₇, e₇⟩ := forall₂_flaggedItem ⟨_, encodes_none⟩ h₆
  rw [← List.append_nil (flaggedItem flags 0x40 .field)] at h₇
  obtain ⟨_, p₈, ⟨channel, rfl⟩, h₈, e₈⟩ := forall₂_flaggedItem ⟨_, encodes_empty⟩ h₇
  cases h₈
  refine ⟨⟨flags, timestamp, id, sender, ⟨content, hc⟩, original, recipient, peer,
    ⟨mentions, hm⟩, channel⟩, ?_⟩
  simp [WireMessage.encode, WireMessage.encodeStart, WireMessage.encodeMentions, e₄, e₅, e₆, e₇, e₈]

theorem forall₂_append_flagged {pieces : List Bytes} {item : Item} {piece : Bytes}
    (h : List.Forall₂ Item.Encodes is pieces) (hp : item.Encodes piece) (flags mask : UInt8) :
    List.Forall₂ Item.Encodes (is ++ flaggedItem flags mask item)
      (pieces ++ if hasFlag flags mask then [piece] else []) := by
  refine List.rel_append h ?_
  unfold flaggedItem
  split
  · exact .cons hp .nil
  · exact .nil

theorem flatten_flagged (flag : Bool) (piece : Bytes) :
    (if flag then [piece] else []).flatten = flagged flag piece := by
  cases flag <;> simp [flagged]

theorem WireMessage.exists_pieces (w : WireMessage) :
    ∃ pieces, List.Forall₂ Item.Encodes (items w.flags) pieces ∧
      w.encode = w.flags :: split64 w.timestamp ++ pieces.flatten := by
  have hfield (s : Short) : Item.field.Encodes s.encode := ⟨s, rfl⟩
  have hcontent : Item.content.Encodes
      (split16 (UInt16.ofNat w.content.val.length) ++ w.content.val) := ⟨_, w.content.2, rfl⟩
  have hmentions : Item.mentions.Encodes w.encodeMentions := ⟨_, w.mentions.2, rfl⟩
  have h₀ : List.Forall₂ Item.Encodes [.field, .field, .content] [w.id.encode,
    w.sender.encode, _] :=
    .cons (hfield w.id) (.cons (hfield w.sender) (.cons hcontent .nil))
  have h₁ := forall₂_append_flagged h₀ (hfield w.originalSender) w.flags 0x04
  have h₂ := forall₂_append_flagged h₁ (hfield w.recipient) w.flags 0x08
  have h₃ := forall₂_append_flagged h₂ (hfield w.senderPeer) w.flags 0x10
  have h₄ := forall₂_append_flagged h₃ hmentions w.flags 0x20
  have h₅ := forall₂_append_flagged h₄ (hfield w.channel) w.flags 0x40
  refine ⟨_, h₅, ?_⟩
  simp only [WireMessage.encode, WireMessage.encodeStart, List.flatten_append, flatten_flagged,
    List.flatten_cons, List.nil_append, List.append_assoc, List.cons_append]

theorem exists_head {payload : Bytes} (h : 9 ≤ payload.length) : ∃ timestamp,
    payload = payload.getD 0 0 :: split64 timestamp ++ payload.drop 9 := by
  match payload with
  | f :: b₀ :: b₁ :: b₂ :: b₃ :: b₄ :: b₅ :: b₆ :: b₇ :: input =>
    exact ⟨join64 b₀ b₁ b₂ b₃ b₄ b₅ b₆ b₇, by rw [split64_join]; rfl⟩
  | [] | [_] | [_, _] | [_, _, _] | [_, _, _, _] | [_, _, _, _, _] | [_, _, _, _, _, _]
  | [_, _, _, _, _, _, _] | [_, _, _, _, _, _, _, _] => simp at h

/-- Written out, the declarative grammar is what a walk over the items checks. -/
theorem beginsWithMessage_iff (payload : Bytes) : BeginsWithMessage payload ↔
    ∃ rest, walk skipItem (items (payload.getD 0 0)) (payload.drop 9) = .complete rest := by
  constructor
  · rintro ⟨w, rest, rfl⟩
    obtain ⟨pieces, hp, he⟩ := w.exists_pieces
    refine ⟨rest, ?_⟩
    have hdrop : (w.encode ++ rest).drop 9 = pieces.flatten ++ rest := by
      rw [he]
      simp [split64]
    have hflags : (w.encode ++ rest).getD 0 0 = w.flags := by
      rw [he]
      rfl
    rw [hdrop, hflags]
    exact (walk_complete skipItem_on).mpr ⟨pieces, hp, rfl⟩
  · rintro ⟨rest, hw⟩
    have hl : 9 ≤ payload.length := by
      by_contra hl
      rw [List.drop_eq_nil_of_le (by omega)] at hw
      cases hw
    obtain ⟨timestamp, hpay⟩ := exists_head hl
    obtain ⟨pieces, hp, he⟩ := (walk_complete skipItem_on).mp hw
    obtain ⟨w, hw⟩ := exists_wireMessage (payload.getD 0 0) timestamp hp
    exact ⟨w, rest, by rw [hw, List.append_assoc, ← he]; exact hpay⟩

-- ---------------------------------------------------------------------------
-- The reader
-- ---------------------------------------------------------------------------

def Follows (ok : α → Prop) : Option (α × BinaryReader) → Option Bytes → Prop
  | none, none => True
  | some (a, r), some rest => ok a ∧ r.At rest
  | _, _ => False

theorem Follows.exists_rest {a : α} (h : Follows ok (some (a, r)) y) :
    ∃ rest, y = some rest ∧ ok a ∧ r.At rest := by
  cases y with
  | none => exact h.elim
  | some rest => exact ⟨rest, rfl, h⟩

theorem Follows.isSome {x : Option (α × BinaryReader)} (h : Follows ok x y) :
    x.isSome = y.isSome := by
  match x, y with
  | none, none => rfl
  | some _, some _ => rfl
  | none, some _ => exact h.elim
  | some _, none => exact h.elim

theorem Follows.bind {x : Option (α × BinaryReader)}
    {f : α × BinaryReader → Option (γ × BinaryReader)} {good : γ → Prop} (h : Follows ok x y)
    (hf : ∀ a r rest, ok a → r.At rest → Follows good (f (a, r)) (g rest)) :
    Follows good (x.bind f) (y.bind g) := by
  match x, y with
  | none, none => trivial
  | some (a, r), some rest => exact hf a r rest h.1 h.2
  | none, some _ => exact h.elim
  | some _, none => exact h.elim

theorem Follows.any {x : Option (α × BinaryReader)} (h : Follows ok x y) :
    Follows (fun _ => True) x y := by
  match x, y with
  | none, none => trivial
  | some _, some _ => exact ⟨trivial, h.2⟩
  | none, some _ => exact h.elim
  | some _, none => exact h.elim

theorem Follows.map {x : Option (α × BinaryReader)} (h : Follows ok x y) (f : α → γ)
    {good : γ → Prop}
    (hf : ∀ a, ok a → good (f a)) : Follows good (x.map fun a => (f a.1, a.2)) y := by
  match x, y with
  | none, none => trivial
  | some (a, r), some rest => exact ⟨hf a h.1, h.2⟩
  | none, some _ => exact h.elim
  | some _, none => exact h.elim

section Reader
variable {r : BinaryReader} {input : Bytes} {m : Message} {flags : UInt8}

theorem readData_follows (h : r.At input) (n : Nat) :
    Follows (fun s => s.length = n) (r.readData n) (skipData n input).lenient := by
  unfold skipData
  split
  next hl =>
    rw [h.readData_short hl]
    trivial
  next hl =>
    have hn : (input.take n).length = n := by simpa using hl
    have hsplit : r.At (input.take n ++ input.drop n) := by rwa [List.take_append_drop]
    obtain ⟨r', hr, ha⟩ := hsplit.readData
    rw [hn] at hr
    rw [hr]
    exact ⟨hn, ha⟩

theorem readField_follows (h : r.At input) :
    Follows (fun s => s.length = (input.getD 0 0).toNat) r.readField (skipField input).lenient := by
  unfold BinaryReader.readField
  cases input with
  | nil =>
    rw [h.readUint8_nil]
    exact readData_follows h 0
  | cons n input =>
    obtain ⟨r', hr, ha⟩ := h.readUint8
    rw [hr]
    exact readData_follows ha n.toNat

theorem readContent_follows (h : r.At input) :
    Follows (fun _ => True) (r.readUint16.2.readData r.readUint16.1.toNat)
      (skipItem .content input).lenient := by
  match input with
  | n₁ :: n₀ :: input =>
    obtain ⟨r', hr, ha⟩ := BinaryReader.At.readUint16_join h
    rw [hr]
    exact (readData_follows ha _).any
  | [] | [n] =>
    -- the length reads as zero, and what is left stays
    rw [h.readUint16_short (by simp)]
    exact (readData_follows h 0).any

theorem readMessageStart_follows (m : Message) (timestamp : UInt64)
    (h : r.At (flags :: split64 timestamp ++ input)) :
    Follows (fun m => m.messageFlags = flags) (readMessageStart m r)
      (readAll skipItem [.field, .field, .content] input) := by
  obtain ⟨r₁, h₁, a₁⟩ := BinaryReader.At.readUint8 h
  obtain ⟨r₂, h₂, a₂⟩ := a₁.readUint64
  simp only [readMessageStart, h₁, h₂, Option.bind_eq_bind]
  refine (readField_follows a₂).bind fun id r₃ in₃ _ a₃ => ?_
  refine (readField_follows a₃).bind fun sender r₄ in₄ _ a₄ => ?_
  refine (readContent_follows a₄).bind fun content r₅ in₅ _ a₅ => ?_
  simp only
  split <;> exact ⟨rfl, a₅⟩

theorem readFlagged_follows (flag : Message → Bool) {store : Message → Bytes → Message}
    (mask : UInt8) (hm : m.messageFlags = flags) (hf : flag m = hasFlag m.messageFlags mask)
    (hs : ∀ m s, (store m s).messageFlags = m.messageFlags) (h : r.At input) :
    Follows (fun m => m.messageFlags = flags) (readFlagged flag store (m, r))
      (readAll skipItem (flaggedItem flags mask .field) input) := by
  rw [hm] at hf
  simp only [readFlagged, flaggedItem, hf]
  split
  · simp only [readAll, skipItem, Option.bind_fun_some]
    exact (readField_follows h).map (store m) fun s _ => (hs m s).trans hm
  · exact ⟨hm, h⟩

theorem readNicknames_follows (hm : m.messageFlags = flags) (h : r.At input) :
    Follows (fun m => m.messageFlags = flags) (readNicknames (m, r))
      (readAll skipItem
        (flaggedItem flags 0x04 .field ++ flaggedItem flags 0x08 .field) input) := by
  rw [readAll_append, readNicknames, Option.bind_eq_bind]
  refine Follows.bind (readFlagged_follows Message.hasOriginalSender 0x04 hm rfl ?_ h)
    fun m' r' in' hm' h' => readFlagged_follows Message.hasRecipientNickname 0x08 hm' rfl ?_ h'
  · exact fun _ _ => rfl
  · exact fun _ _ => rfl

theorem readSenderPeer_follows (peers : Peers) (hm : m.messageFlags = flags) (h : r.At input) :
    Follows (fun m => m.messageFlags = flags) ((readSenderPeer peers m r).map Prod.snd)
      (readAll skipItem (flaggedItem flags 0x10 .field) input) := by
  let store (text : Bytes) : Message :=
    if text.length = 16 then { m with senderPeer := some (hexPeerId 0 56 text) } else m
  have hstore (text : Bytes) : (store text).messageFlags = flags := by
    simp only [store]
    split <;> exact hm
  have hf : m.hasSenderPeerID = hasFlag flags 0x10 := by rw [Message.hasSenderPeerID, hm]
  simp only [readSenderPeer, flaggedItem, hf]
  split
  · have hsnd : (Prod.snd ∘ fun (field : Bytes × BinaryReader) =>
        if field.1.length = 16 then
          (checkSenderInPeers peers (hexPeerId 0 56 field.1),
            { m with senderPeer := some (hexPeerId 0 56 field.1) }, field.2)
        else (peers, m, field.2)) = fun field => (store field.1, field.2) := by
      funext field
      simp only [Function.comp, store]
      split <;> rfl
    rw [Option.map_map]
    simp only [readAll, skipItem, Option.bind_fun_some]
    rw [hsnd]
    exact (readField_follows h).map store fun s _ => hstore s
  · exact ⟨hm, h⟩

theorem skipFields_nil (n : Nat) : (skipFields n []).lenient = some [] := by
  cases n <;> rfl

theorem skipFields_lenient (n : Nat) (input : Bytes) : (skipFields (n + 1) input).lenient =
    (skipField input).lenient.bind fun rest => (skipFields n rest).lenient := by
  rw [skipFields]
  cases input with
  | nil => exact (skipFields_nil n).symm
  | cons k input =>
    cases hs : skipField (k :: input) with
    | on rest => rfl
    | overrun => rfl
    | cut left => exact absurd hs skipData_ne_cut

theorem readMentionList_follows (hm : m.messageFlags = flags) (h : r.At input) (n : Nat) :
    Follows (fun m => m.messageFlags = flags) (readMentionList n (m, r))
      (skipFields n input).lenient := by
  induction n generalizing m r input with
  | zero => exact ⟨hm, h⟩
  | succ n ih =>
    rw [skipFields_lenient]
    refine (readField_follows h).bind fun mention r' in' _ h' => ?_
    exact ih (m := { m with mentions := m.mentions ++ [mention] }) hm h'

theorem readMentions_follows (hm : m.messageFlags = flags) (h : r.At input) :
    Follows (fun m => m.messageFlags = flags) (readMentions (m, r))
      (readAll skipItem (flaggedItem flags 0x20 .mentions) input) := by
  have hf : m.hasMentions = hasFlag flags 0x20 := by rw [Message.hasMentions, hm]
  simp only [readMentions, flaggedItem, hf]
  split
  · cases input with
    | nil =>
      rw [h.readUint8_nil]
      exact ⟨hm, h⟩
    | cons n input =>
      obtain ⟨r', hr, ha⟩ := h.readUint8
      rw [hr]
      simpa only [readAll, skipItem, Option.bind_fun_some] using readMentionList_follows hm ha
        n.toNat
  · exact ⟨hm, h⟩

end Reader

theorem processMessage_eq (peers : Peers) (m : Message) (hl : ¬ payload.length % 2 ^ 16 < 13) :
    (processMessage peers m payload).2 =
      (((readMessageStart m (BinaryReader.new 0 payload) >>= readNicknames).bind fun mr =>
        (readSenderPeer peers mr.1 mr.2).map Prod.snd).bind fun mr =>
          readMentions mr >>= readChannel).map Prod.fst := by
  rw [processMessage, if_neg hl]
  cases readMessageStart m (BinaryReader.new 0 payload) >>= readNicknames with
  | none => rfl
  | some mr =>
    simp only [Option.bind_some]
    cases readSenderPeer peers mr.1 mr.2 <;> rfl

theorem readLeading_follows (m : Message) (hl : ¬ payload.length % 2 ^ 16 < 13)
    (hfit : payload.length < 2 ^ 16) :
    Follows (fun m => m.messageFlags = payload.getD 0 0)
      (readMessageStart m (BinaryReader.new 0 payload) >>= readNicknames)
      (readAll skipItem (leadingItems (payload.getD 0 0)) (payload.drop 9)) := by
  obtain ⟨timestamp, hpay⟩ := exists_head (by omega : 9 ≤ payload.length)
  have ha := BinaryReader.at_new hfit
  generalize BinaryReader.new 0 payload = r at ha ⊢
  rw [hpay] at ha
  rw [leadingItems, List.append_assoc, readAll_append, Option.bind_eq_bind]
  exact (readMessageStart_follows m timestamp ha).bind fun m' r' in' hm' h' =>
    readNicknames_follows hm' h'

theorem readTrailing_follows {r : BinaryReader} {m : Message} (hm : m.messageFlags = flags)
    (h : r.At input) :
    Follows (fun m => m.messageFlags = flags) (readMentions (m, r) >>= readChannel)
      (readAll skipItem
        (flaggedItem flags 0x20 .mentions ++ flaggedItem flags 0x40 .field) input) := by
  rw [readAll_append, Option.bind_eq_bind]
  refine (readMentions_follows hm h).bind fun m' r' in' hm' h' => ?_
  exact readFlagged_follows Message.hasChannel 0x40 hm' rfl (fun _ _ => rfl) h'

theorem processMessage_follows (peers : Peers) (m : Message) (hl : ¬ payload.length % 2 ^ 16 < 13)
    (hfit : payload.length < 2 ^ 16) :
    Follows (fun m => m.messageFlags = payload.getD 0 0)
      (((readMessageStart m (BinaryReader.new 0 payload) >>= readNicknames).bind fun mr =>
        (readSenderPeer peers mr.1 mr.2).map Prod.snd).bind fun mr =>
          readMentions mr >>= readChannel)
      (readAll skipItem (items (payload.getD 0 0)) (payload.drop 9)) := by
  have hlead := readLeading_follows m hl hfit
  rw [items, List.append_assoc, readAll_append, readAll_append]
  generalize payload.getD 0 0 = flags at hlead ⊢
  have hpeer : Follows (fun m => m.messageFlags = flags)
      ((readMessageStart m (BinaryReader.new 0 payload) >>= readNicknames).bind fun mr =>
        (readSenderPeer peers mr.1 mr.2).map Prod.snd)
      ((readAll skipItem (leadingItems flags) (payload.drop 9)).bind
        (readAll skipItem (flaggedItem flags 0x10 .field))) :=
    hlead.bind fun m' r' in' hm' h' => readSenderPeer_follows peers hm' h'
  exact hpeer.bind fun m' r' in' hm' h' => readTrailing_follows hm' h'

theorem isSome_processMessage (peers : Peers) (m : Message) (hl : ¬ payload.length % 2 ^ 16 < 13)
    (hfit : payload.length < 2 ^ 16) : (processMessage peers m payload).2.isSome =
      (readAll skipItem (items (payload.getD 0 0)) (payload.drop 9)).isSome := by
  rw [processMessage_eq peers m hl, Option.isSome_map,
    (processMessage_follows peers m hl hfit).isSome]

section Accepted
variable {peers : Peers} {m m' : Message} {payload : Bytes}

theorem not_short_of_accepted (h : (processMessage peers m payload).2 =
    some m') : ¬ payload.length % 2 ^ 16 < 13 := by
  intro hl
  rw [processMessage_short hl] at h
  cases h

theorem flags_processMessage (hfit : payload.length < 2 ^ 16)
    (h : (processMessage peers m payload).2 = some m') : m'.messageFlags = payload.getD 0 0 := by
  have hl := not_short_of_accepted h
  have hfollows := processMessage_follows peers m hl hfit
  rw [processMessage_eq peers m hl, Option.map_eq_some_iff] at h
  obtain ⟨⟨m'', r⟩, hm, rfl⟩ := h
  rw [hm] at hfollows
  obtain ⟨rest, -, hflags, -⟩ := hfollows.exists_rest
  exact hflags

end Accepted

-- ---------------------------------------------------------------------------
-- Payloads that are not complete
-- ---------------------------------------------------------------------------

theorem skipField_cut (h : skipField input = .cut left) : left = [] := by
  cases input with
  | nil =>
    cases h
    rfl
  | cons n input => exact absurd h skipData_ne_cut

theorem skipFields_cut (h : skipFields n input = .cut left) : left = [] := by
  induction n generalizing input with
  | zero => cases h
  | succ n ih =>
    cases hs : skipField input with
    | on rest =>
      simp only [skipFields, hs] at h
      exact ih h
    | overrun => simp [skipFields, hs] at h
    | cut left' =>
      simp only [skipFields, hs] at h
      cases h
      exact skipField_cut hs

/-- Only the content length can be cut in the middle. -/
theorem skipItem_cut (h : skipItem item input = .cut left) : left.length ≤ 1 := by
  cases item with
  | field => exact skipField_cut h ▸ Nat.zero_le 1
  | content =>
    match input with
    | n₁ :: n₀ :: input => exact absurd h skipData_ne_cut
    | [] | [n] =>
      cases h
      simp
  | mentions =>
    cases input with
    | nil =>
      cases h
      exact Nat.zero_le 1
    | cons n input => exact skipFields_cut h ▸ Nat.zero_le 1

theorem walk_cut {is : List Item} (h : walk skipItem is input = .cut behind left) :
    left.length ≤ 1 := by
  induction is generalizing input with
  | nil => cases h
  | cons i is ih =>
    cases hs : skipItem i input with
    | on rest =>
      simp only [walk, hs] at h
      exact ih h
    | overrun => simp [walk, hs] at h
    | cut left =>
      simp only [walk, hs] at h
      cases h
      exact skipItem_cut hs

theorem readAll_nil (is : List Item) : readAll skipItem is [] = some [] := by
  induction is with
  | nil => rfl
  | cons i is ih => cases i <;> exact ih

theorem readsOn_nil (is : List Item) : readsOn is [] = true := by
  induction is with
  | nil => rfl
  | cons i is ih => cases i <;> first | rfl | exact ih

theorem isSome_readAll (is : List Item) (hl : left.length ≤ 1) :
    (readAll skipItem is left).isSome = readsOn is left := by
  match left with
  | [] => rw [readAll_nil, readsOn_nil, Option.isSome_some]
  | [n] =>
    induction is with
    | nil => rfl
    | cons i is ih =>
      cases i with
      | field =>
        by_cases hn : n = 0
        · subst hn
          simp [readAll, skipItem, skipField, skipData, Skip.lenient, readAll_nil, readsOn]
        · have hpos : ([] : Bytes).length < n.toNat :=
            UInt8.lt_iff_toNat_lt.mp (UInt8.pos_iff_ne_zero.mpr hn)
          rw [readAll, skipItem, skipField, skipData, if_pos hpos]
          simp [Skip.lenient, readsOn, hn]
      | content => exact ih
      | mentions =>
        simp only [readAll, skipItem, skipFields_nil, Option.bind_some, readAll_nil]
        rfl

/-- What is accepted: complete messages, and payloads that end where a length is due. -/
theorem accepts_iff (peers : Peers) (m : Message) (hfit : payload.length < 2 ^ 16) :
    (processMessage peers m payload).2.isSome ↔ BeginsWithMessage payload ∨
    endsAtLength payload := by
  have hmod := Nat.mod_eq_of_lt hfit
  by_cases hl : payload.length % 2 ^ 16 < 13
  · rw [hmod] at hl
    have hbegins : ¬ BeginsWithMessage payload := by
      rintro ⟨w, rest, rfl⟩
      have := w.length_encode
      rw [List.length_append] at hl
      omega
    have hends : endsAtLength payload = false := by
      unfold endsAtLength
      split <;> simp_all
    simp [processMessage_short (hmod.trans_lt hl), hbegins, hends]
  · rw [isSome_processMessage peers m hl hfit, readAll_eq, beginsWithMessage_iff, endsAtLength]
    cases hw : walk skipItem (items (payload.getD 0 0)) (payload.drop 9) with
    | complete rest => simp
    | overrun => simp
    | cut behind left => simp [isSome_readAll behind (walk_cut hw), Nat.not_lt.mp (hmod ▸ hl)]

theorem BeginsWithMessage.endsAtLength (h : BeginsWithMessage payload) :
    endsAtLength payload = false := by
  obtain ⟨rest, hw⟩ := (beginsWithMessage_iff payload).mp h
  rw [BitchatRepeater.endsAtLength, hw]

/-- Exactly the messages are accepted, but for payloads that end where a length is due. -/
theorem acceptsExactly_iff (peers : Peers) (m : Message) (payload : Bytes)
    (hfit : payload.length < 2 ^ 16) :
    ((processMessage peers m payload).2.isSome ↔ BeginsWithMessage payload) ↔
      endsAtLength payload = false := by
  rw [accepts_iff peers m hfit]
  constructor
  · intro h
    by_contra hends
    rw [Bool.not_eq_false] at hends
    rw [(h.mp (.inr hends)).endsAtLength] at hends
    cases hends
  · intro hends
    simp [hends]

def noContentLength : Bytes := List.replicate 9 0 ++ [2, 0x61, 0x62, 0]

theorem acceptsExactly_of_complete :
    (processMessage .empty plainHeader.message (noContentLength ++ [0, 0])).2.isSome ↔
      BeginsWithMessage (noContentLength ++ [0, 0]) :=
  (acceptsExactly_iff .empty plainHeader.message (noContentLength ++ [0, 0]) (by decide)).mpr
  (by decide)

theorem noContentLength_accepted :
    (processMessage .empty plainHeader.message noContentLength).2.isSome ∧
      ¬ BeginsWithMessage noContentLength := by
  refine ⟨by decide, fun h => ?_⟩
  cases h.endsAtLength

end BitchatRepeater
