import ChainNode.Codec.Basic
import ChainNode.Proofs.Bytes
import Mathlib.Data.List.Infix

/-!
# What a decoder reads

A decoder reads a value from some bytes (`Decoder.Reads`) when it takes exactly them off whatever
begins with them, and runs out of input on every shorter part of them. Decoders that run one after
the other read the bytes that each of them reads, one after the other (`Decoder.Reads.bind`), so a
structure is read field by field and a list element by element.

A type is lawful (`Binary.Lawful`) when its values are read from their own binary forms. A length is
written in eight bytes, so the law is about binary forms of fewer than `2 ^ 64` bytes.
-/

namespace ChainNode

namespace Decoder

variable {α β : Type}

/-- A decoder takes a value off whatever begins with some bytes, which are all needed. -/
structure Reads (d : Decoder α) (bytes : Bytes) (a : α) : Prop where
  run_append : ∀ rest, d.run (bytes ++ rest) = .ok (a, rest)
  run_part : ∀ part, part <+: bytes → part ≠ bytes → d.run part = .error .endOfInput

namespace Reads

theorem pure (a : α) : Reads (Pure.pure a) [] a where
  run_append _ := rfl
  run_part _ hpart hne := absurd (List.prefix_nil.mp hpart) hne

/-- What two decoders read one after the other. -/
theorem bind {d : Decoder α} {f : α → Decoder β} {bs cs : Bytes} {a : α} {b : β}
    (hd : d.Reads bs a) (hf : (f a).Reads cs b) : (d >>= f).Reads (bs ++ cs) b where
  run_append rest := by
    rw [StateT.run_bind, List.append_assoc, hd.run_append]
    exact hf.run_append rest
  run_part part hpart hne := by
    rw [StateT.run_bind]
    -- Either the second decoder begins and does not get enough, or the first one does not.
    by_cases hbs : bs <+: part
    · obtain ⟨part', rfl⟩ := hbs
      rw [hd.run_append]
      apply hf.run_part part'
      · exact (List.prefix_append_right_inj bs).mp hpart
      · rintro rfl
        exact hne rfl
    · have hpart' : part <+: bs :=
        (List.prefix_or_prefix_of_prefix hpart (List.prefix_append bs cs)).resolve_right hbs
      rw [hd.run_part part hpart' fun h => hbs (h ▸ List.prefix_refl bs)]
      rfl

/-- What follows may turn what was read into something else. -/
theorem bind_pure {d : Decoder α} {f : α → Decoder β} {bs : Bytes} {a : α} {b : β}
    (hd : d.Reads bs a) (hf : f a = Pure.pure b) : (d >>= f).Reads bs b := by
  have hpure : (f a).Reads [] b := hf ▸ Reads.pure b
  simpa only [List.append_nil] using hd.bind hpure

theorem bytes {n : Nat} {bs : Bytes} (hn : bs.length = n) : (Decoder.bytes n).Reads bs bs where
  run_append rest := by
    show Decoder.bytes n (bs ++ rest) = _
    rw [Decoder.bytes, if_pos (by simp [hn])]
    simp [← hn]
  run_part part hpart hne := by
    show Decoder.bytes n part = _
    have hlen : part.length < bs.length := hpart.length_le.lt_of_ne fun h => hne (hpart.eq_of_length h)
    rw [Decoder.bytes, if_neg (by omega)]

theorem number {w n : Nat} (h : n < 256 ^ w) : (Decoder.number w).Reads (littleEndian w n) n := by
  refine (Reads.bytes (length_littleEndian w n)).bind_pure ?_
  rw [ofLittleEndian_littleEndian, Nat.mod_eq_of_lt h]

theorem replicate {d : Decoder α} {code : α → Bytes} {as : List α}
    (h : ∀ a ∈ as, d.Reads (code a) a) : (d.replicate as.length).Reads (as.flatMap code) as := by
  induction as with
  | nil => exact Reads.pure []
  | cons a as ih =>
    obtain ⟨ha, has⟩ := List.forall_mem_cons.mp h
    exact ha.bind ((ih has).bind_pure rfl)

/-- What is read from the front of a byte string is known, and so is what is left. -/
theorem append_inj {d : Decoder α} {bs cs xs ys : Bytes} {a b : α} (ha : d.Reads bs a)
    (hb : d.Reads cs b) (h : bs ++ xs = cs ++ ys) : a = b ∧ xs = ys := by
  have hread := ha.run_append xs
  rw [h, hb.run_append] at hread
  cases hread
  exact ⟨rfl, rfl⟩

end Reads

end Decoder

/-! ## Lawful types -/

/-- Values are read from their binary forms, of which none is empty. -/
class Binary.Lawful (α : Type) [Binary α] : Prop where
  encode_ne_nil : ∀ a : α, encode a ≠ []
  reads : ∀ a : α, (encode a).length < 2 ^ 64 → (Binary.decode : Decoder α).Reads (encode a) a

/-- Numbers that fit are read from their digits. -/
theorem Decoder.Reads.length {n : Nat} (h : n < 2 ^ 64) :
    (Decoder.number 8).Reads (Binary.encodeLength n) n := Reads.number (by omega)

namespace Binary

theorem length_encodeLength (n : Nat) : (encodeLength n).length = 8 := length_littleEndian 8 n

theorem encodeLength_append_ne_nil (n : Nat) (bs : Bytes) : encodeLength n ++ bs ≠ [] := by
  intro h
  have := congrArg List.length h
  simp [length_encodeLength] at this

theorem encode_uint8 (b : UInt8) : encode b = littleEndian 1 b.toNat := by
  simp [littleEndian, encode]

instance : Lawful UInt8 where
  encode_ne_nil b := List.cons_ne_nil b []
  reads b _ := by
    rw [encode_uint8]
    exact (Decoder.Reads.number b.toNat_lt).bind_pure (by rw [UInt8.ofNat_toNat])

instance : Lawful UInt32 where
  encode_ne_nil n := by simp [encode, littleEndian]
  reads n _ := (Decoder.Reads.number n.toNat_lt).bind_pure (by rw [UInt32.ofNat_toNat])

instance : Lawful UInt64 where
  encode_ne_nil n := by simp [encode, littleEndian]
  reads n _ := (Decoder.Reads.number n.toNat_lt).bind_pure (by rw [UInt64.ofNat_toNat])

section List
variable {α : Type} [Binary α] [Lawful α]

/-- A list has no more elements than its binary form has bytes. -/
theorem length_le_length_flatMap_encode (as : List α) :
    as.length ≤ (as.flatMap encode).length := by
  induction as with
  | nil => exact Nat.le_refl 0
  | cons a as ih =>
    have := List.length_pos_of_ne_nil (Lawful.encode_ne_nil a)
    rw [List.flatMap_cons, List.length_append, List.length_cons]
    omega

omit [Lawful α] in
theorem length_encode_le_of_mem {as : List α} {a : α} (h : a ∈ as) :
    (encode a).length ≤ (as.flatMap encode).length :=
  (List.sublist_flatten_of_mem (List.mem_map_of_mem h)).length_le

omit [Lawful α] in
/-- A list is read when its elements are. -/
theorem reads_list {as : List α} (hcount : as.length < 2 ^ 64)
    (h : ∀ a ∈ as, (decode : Decoder α).Reads (encode a) a) :
    (decode : Decoder (List α)).Reads (encode as) as :=
  (Decoder.Reads.length hcount).bind (Decoder.Reads.replicate h)

omit [Lawful α] in
theorem length_encode_list (as : List α) :
    (encode as).length = 8 + (as.flatMap encode).length := by
  show (encodeLength _ ++ _).length = _
  rw [List.length_append, length_encodeLength]

instance : Lawful (List α) where
  encode_ne_nil _ := encodeLength_append_ne_nil _ _
  reads as h := by
    rw [length_encode_list] at h
    have hcount := length_le_length_flatMap_encode as
    refine reads_list (by omega) fun a ha => ?_
    have := length_encode_le_of_mem ha
    exact Lawful.reads a (by omega)

end List

section Set
variable {α : Type} [Binary α] [Ord α] [Std.TransOrd α] [Std.LawfulEqOrd α] [DecidableEq α]

/-- A set is read as the list of its elements. -/
theorem reads_set {s : Std.ExtTreeSet α}
    (h : (decode : Decoder (List α)).Reads (encode s.toList) s.toList) :
    (decode : Decoder (Std.ExtTreeSet α)).Reads (encode s) s := by
  have hset : Std.ExtTreeSet.ofList s.toList = s := by
    apply Std.ExtTreeSet.ext_mem
    intro k
    rw [Std.ExtTreeSet.mem_ofList, List.contains_iff_mem, Std.ExtTreeSet.mem_toList]
  exact h.bind_pure (by rw [hset])

instance [Lawful α] : Lawful (Std.ExtTreeSet α) where
  encode_ne_nil s := Lawful.encode_ne_nil s.toList
  reads s h := reads_set (Lawful.reads s.toList h)

end Set

/-! ### Texts -/

theorem toList_loop (b : ByteArray) (i : Nat) (acc : Bytes) :
    ByteArray.toList.loop b i acc = acc.reverse ++ b.data.toList.drop i := by
  fun_induction ByteArray.toList.loop b i acc with
  | case1 i acc hi ih =>
    have hi' : i < b.data.toList.length := by simpa using hi
    rw [ih, List.drop_eq_getElem_cons hi']
    simp [ByteArray.get!, hi]
  | case2 i acc hi =>
    rw [List.drop_of_length_le (by simpa using hi), List.append_nil]

theorem toList_byteArray (b : ByteArray) : b.toList = b.data.toList := by
  rw [ByteArray.toList, toList_loop]
  rfl

theorem length_toUTF8 (s : String) : s.toUTF8.toList.length = s.utf8ByteSize := by
  rw [toList_byteArray]
  rfl

theorem fromUTF8?_toArray_eq_some_iff {bs : Bytes} {s : String} :
    String.fromUTF8? ⟨bs.toArray⟩ = some s ↔ s.toUTF8.toList = bs := by
  rw [toList_byteArray]
  constructor
  · intro h
    rw [String.fromUTF8?] at h
    split at h
    · cases h
      rfl
    · cases h
  · rintro rfl
    simp [String.fromUTF8?, String.fromUTF8, s.isValidUTF8]

theorem reads_string {s : String} (h : s.utf8ByteSize < 2 ^ 64) :
    (decode : Decoder String).Reads (encode s) s := by
  refine (Decoder.Reads.length h).bind ((Decoder.Reads.bytes (length_toUTF8 s)).bind_pure ?_)
  rw [fromUTF8?_toArray_eq_some_iff.mpr rfl]

instance : Lawful String where
  encode_ne_nil _ := encodeLength_append_ne_nil _ _
  reads s h := by
    have hlength : (encode s).length = 8 + s.utf8ByteSize := by
      rw [← length_toUTF8]
      simp [encode, length_encodeLength]
    exact reads_string (by omega)

end Binary

end ChainNode
