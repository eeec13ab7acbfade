import ChainNode.Chain.Block
import ChainNode.Chain.Heads
import ChainNode.Execution.Footprint
import ChainNode.Proofs.Codec.Reading

/-!
# Nothing is lost in binary form

The types that are exchanged and hashed are lawful, each structure because its fields are. So a value
is read back from the front of its binary form, and a binary form that was cut short is noticed
(`Binary.Lossless`); what is more, values with the same binary form are equal
(`Binary.eq_of_encode_eq`).
-/

namespace ChainNode

namespace Binary

/-! ## Structures -/

section Fields
variable {α β : Type} [Binary α] [Lawful α] {f : α → Decoder β} {b : β}

/-- A field is read before the fields behind it. -/
theorem reads_field (a : α) {bs : Bytes} (hf : bs.length < 2 ^ 64 → (f a).Reads bs b)
    (h : (encode a ++ bs).length < 2 ^ 64) : (decode >>= f).Reads (encode a ++ bs) b := by
  rw [List.length_append] at h
  exact (Lawful.reads a (by omega)).bind (hf (by omega))

/-- With the last field the structure is complete. -/
theorem reads_last (a : α) (hf : f a = pure b) (h : (encode a).length < 2 ^ 64) :
    (decode >>= f).Reads (encode a) b :=
  (Lawful.reads a h).bind_pure hf

end Fields

instance : Lawful Hash where
  encode_ne_nil h := by
    have : (encode h).length = 32 := by simp [encode, Hash.toBytes]
    exact List.ne_nil_of_length_pos (by omega)
  reads h _ := by
    have hbytes : h.toBytes.length = 32 := by simp [Hash.toBytes]
    have hhash : Hash.ofBytes? h.toBytes = some h := by
      rw [Hash.ofBytes?, dif_pos hbytes]
      rfl
    exact (Decoder.Reads.bytes hbytes).bind_pure (by rw [hhash])

instance : Lawful Path where
  encode_ne_nil p := Lawful.encode_ne_nil p.segments
  reads p := reads_last p.segments rfl

theorem encode_transaction (tx : Transaction) :
    encode tx = encode tx.sender ++ (encode tx.contract ++ (encode tx.refHeight ++
      (encode tx.method ++ encode tx.params))) := by
  show _ ++ _ ++ _ ++ _ ++ _ = _
  simp only [List.append_assoc]

instance : Lawful Transaction where
  encode_ne_nil tx := by
    rw [encode_transaction]
    exact List.append_ne_nil_of_left_ne_nil (Lawful.encode_ne_nil tx.sender) _
  reads tx := by
    rw [encode_transaction]
    exact reads_field tx.sender <| reads_field tx.contract <| reads_field tx.refHeight <|
      reads_field tx.method <| reads_last tx.params rfl

theorem encode_header (h : Header) :
    encode h = encode h.previous ++ (encode h.height ++ (encode h.time ++
      encode h.transactionIds)) := by
  show _ ++ _ ++ _ ++ _ = _
  simp only [List.append_assoc]

instance : Lawful Header where
  encode_ne_nil h := by
    rw [encode_header]
    exact List.append_ne_nil_of_left_ne_nil (Lawful.encode_ne_nil h.previous) _
  reads h := by
    rw [encode_header]
    exact reads_field h.previous <| reads_field h.height <| reads_field h.time <|
      reads_last h.transactionIds rfl

theorem encode_block (b : Block) : encode b = encode b.header ++ encode b.transactions := rfl

instance : Lawful Block where
  encode_ne_nil b := List.append_ne_nil_of_left_ne_nil (Lawful.encode_ne_nil b.header) _
  reads b := by
    rw [encode_block]
    exact reads_field b.header <| reads_last b.transactions rfl

theorem encode_tip (t : Tip) : encode t = encode t.hash ++ encode t.height := rfl

instance : Lawful Tip where
  encode_ne_nil t := List.append_ne_nil_of_left_ne_nil (Lawful.encode_ne_nil t.hash) _
  reads t := by
    rw [encode_tip]
    exact reads_field t.hash <| reads_last t.height rfl

theorem encode_heads (h : Heads) :
    encode h = encode h.best ++ (encode h.longest ++ encode h.irreversible) :=
  List.append_assoc ..

instance : Lawful Heads where
  encode_ne_nil h := by
    rw [encode_heads]
    exact List.append_ne_nil_of_left_ne_nil (Lawful.encode_ne_nil h.best) _
  reads h := by
    rw [encode_heads]
    exact reads_field h.best <| reads_field h.longest <| reads_last h.irreversible rfl

/-- A choice is its number. -/
def choice : Parallelism → UInt32
  | .parallelizable => 0
  | .nonParallelizable => 1
  | .withoutContract => 2

theorem encode_parallelism (p : Parallelism) : encode p = encode (choice p) := by cases p <;> rfl

instance : Lawful Parallelism where
  encode_ne_nil p := by
    rw [encode_parallelism]
    exact Lawful.encode_ne_nil _
  reads p := by
    rw [encode_parallelism]
    exact reads_last (choice p) (by cases p <;> rfl)

theorem encode_footprint (f : Footprint) :
    encode f = encode f.parallelism ++ (encode f.reads ++ encode f.writes) :=
  List.append_assoc ..

instance : Lawful Footprint where
  encode_ne_nil f := by
    rw [encode_footprint]
    exact List.append_ne_nil_of_left_ne_nil (Lawful.encode_ne_nil f.parallelism) _
  reads f := by
    rw [encode_footprint]
    exact reads_field f.parallelism <| reads_field f.reads <| reads_last f.writes rfl

/-! ## What is read back -/

/-- Values are read back from the front of their binary forms, whatever follows, and no strict prefix
of a binary form is accepted. A binary form is a byte string in memory, of fewer than `2 ^ 64` bytes;
the lengths inside it are then below `2 ^ 64` as well, and fit their eight bytes. -/
def Lossless (α : Type) [Binary α] : Prop :=
  ∀ a : α, (encode a).length < 2 ^ 64 →
    (∀ rest, decodeFrom α (encode a ++ rest) = .ok (a, rest)) ∧
    ∀ part, part <+: encode a → part ≠ encode a → decodeFrom α part = .error .endOfInput

theorem lossless (α : Type) [Binary α] [Lawful α] : Lossless α := by
  intro a h
  have hreads := Lawful.reads a h
  exact ⟨hreads.run_append, hreads.run_part⟩

/-- **Nothing is lost in binary form**, and truncation is always noticed. -/
theorem lossless_chainData :
    Lossless Transaction ∧ Lossless Header ∧ Lossless Block ∧ Lossless Heads ∧ Lossless Tip ∧
      Lossless Footprint :=
  ⟨lossless _, lossless _, lossless _, lossless _, lossless _, lossless _⟩

/-- A footprint with texts outside ASCII and an empty path is read back in front of a byte that does
not belong to it, and not without its last byte. -/
theorem lossless_chainData_footprint :
    let f : Footprint :=
      ⟨.withoutContract, ((∅ : PathSet).insert ⟨["é", ""]⟩).insert ⟨[]⟩,
        (∅ : PathSet).insert ⟨["token", "😀"]⟩⟩
    (encode f).length = 87 ∧ decodeFrom Footprint (encode f ++ [7]) = .ok (f, [7]) ∧
      decodeFrom Footprint ((encode f).take 86) = .error .endOfInput := by
  intro f
  have hlength : (encode f).length = 87 := by decide +kernel
  obtain ⟨-, -, -, -, -, hfootprint⟩ := lossless_chainData
  obtain ⟨hwhole, hpart⟩ := hfootprint f (by omega)
  refine ⟨hlength, hwhole [7], hpart _ (List.take_prefix 86 _) fun h => ?_⟩
  have := congrArg List.length h
  rw [List.length_take] at this
  omega

/-- Values with the same binary form are equal. -/
theorem eq_of_encode_eq {α : Type} [Binary α] [Lawful α] {a b : α} (ha : (encode a).length < 2 ^ 64)
    (h : encode a = encode b) : a = b := by
  have hboth : encode a ++ [] = encode b ++ [] := congrArg (· ++ []) h
  exact ((Lawful.reads a ha).append_inj (Lawful.reads b (h ▸ ha)) hboth).1

end Binary

end ChainNode
