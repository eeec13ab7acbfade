import ChainNode.Proofs.Codec.Layout
import ChainNode.Proofs.State.PathOrder
import Mathlib.Data.List.Flatten
import Mathlib.Data.List.Perm.Subperm

/-!
# One binary form for each value

A decoder takes values as they are written (`Decoder.Takes`) when the bytes it takes are those that
encoding the value gives. Numbers, texts and lists of such values are taken so, whatever the bytes,
and with them the structures (`Binary.Exact`), field behind field (`Decoder.Completes`): a byte
string from a stranger that can be decoded is the binary form of what it is decoded to.

Sets are the exception. A set is taken from any list of its elements, in any order and with any of
them twice, and written in order; so a footprint has other spellings than its own, all of them
longer or in another order.
-/

namespace ChainNode

/-! ## Sets made from lists -/

section OfList
variable {α : Type} [Ord α] [Std.LawfulEqOrd α] {as : List α}

theorem nodup_of_ordered (h : as.Pairwise fun a b => compare a b = .lt) : as.Nodup :=
  h.imp fun {a b} hab heq => by simp [heq] at hab

variable [Std.TransOrd α] [DecidableEq α]

theorem mem_toList_ofList {a : α} : a ∈ (Std.ExtTreeSet.ofList as).toList ↔ a ∈ as := by
  rw [Std.ExtTreeSet.mem_toList, Std.ExtTreeSet.mem_ofList, List.contains_iff_mem]

/-- The elements of a set were all in the list, some of them more often than in the set. -/
theorem toList_ofList_subperm (as : List α) : (Std.ExtTreeSet.ofList as).toList.Subperm as :=
  (nodup_of_ordered Std.ExtTreeSet.ordered_toList).subperm fun _ => mem_toList_ofList.mp

/-- A list is that of the elements of a set just when it is in strict order. -/
theorem toList_ofList_eq_iff :
    (Std.ExtTreeSet.ofList as).toList = as ↔ as.Pairwise fun a b => compare a b = .lt := by
  have hordered := Std.ExtTreeSet.ordered_toList (t := Std.ExtTreeSet.ofList as)
  refine ⟨fun h => h ▸ hordered, fun h => ?_⟩
  have hperm : (Std.ExtTreeSet.ofList as).toList.Perm as :=
    (List.perm_ext_iff_of_nodup (nodup_of_ordered hordered) (nodup_of_ordered h)).mpr
      fun _ => mem_toList_ofList
  refine hperm.eq_of_pairwise (fun a b _ _ hab hba => ?_) hordered h
  exact absurd hba (Std.OrientedCmp.not_lt_of_lt hab)

end OfList

/-! ## Values taken as they are written -/

/-- What a decoder takes is spelled as the value is written, and needs all of those bytes. -/
structure Decoder.Takes {α : Type} (d : Decoder α) (code : α → Bytes) : Prop where
  of_run : ∀ {input a rest}, d.run input = .ok (a, rest) →
    input = code a ++ rest ∧ d.Reads (code a) a

namespace Decoder.Takes

variable {α β : Type} {d : Decoder α} {code : α → Bytes} {n : Nat}

/-- What follows may turn what was taken into something else that is written alike. -/
theorem bind_pure {f : α → Decoder β} {code' : β → Bytes} (hd : d.Takes code)
    (hf : ∀ {input a rest}, d.run input = .ok (a, rest) → ∃ b, f a = pure b ∧ code' b = code a) :
    (d >>= f).Takes code' where
  of_run h := by
    obtain ⟨a, mid, ha, hb⟩ := run_bind_ok_iff.mp h
    obtain ⟨b', hpure, hcode⟩ := hf ha
    rw [hpure, run_pure_ok_iff] at hb
    obtain ⟨rfl, rfl⟩ := hb
    obtain ⟨hinput, hreads⟩ := hd.of_run ha
    rw [hcode]
    exact ⟨hinput, hreads.bind_pure hpure⟩

theorem bytes (n : Nat) : (Decoder.bytes n).Takes id where
  of_run h := by
    obtain ⟨hn, rfl⟩ := run_bytes_ok_iff.mp h
    exact ⟨rfl, Reads.bytes hn⟩

theorem number (w : Nat) : (Decoder.number w).Takes (littleEndian w) where
  of_run h := by
    obtain ⟨digits, rfl, rfl, rfl⟩ := run_number_ok_iff.mp h
    exact ⟨by rw [littleEndian_ofLittleEndian], Reads.number (ofLittleEndian_lt digits)⟩

/-- A number is turned into one of as many bytes, which holds it. -/
theorem number_bind_pure {w : Nat} {f : Nat → Decoder β} {toNat : β → Nat}
    (hf : ∀ n < 256 ^ w, ∃ b, f n = pure b ∧ toNat b = n) :
    (Decoder.number w >>= f).Takes fun b => littleEndian w (toNat b) := by
  refine (number w).bind_pure fun h => ?_
  obtain ⟨digits, rfl, rfl, -⟩ := run_number_ok_iff.mp h
  obtain ⟨b, hpure, hb⟩ := hf _ (ofLittleEndian_lt digits)
  exact ⟨b, hpure, by rw [hb]⟩

theorem replicate (hd : d.Takes code) {input rest : Bytes} {as : List α}
    (h : (d.replicate n).run input = .ok (as, rest)) :
    as.length = n ∧ input = as.flatMap code ++ rest ∧ ∀ a ∈ as, d.Reads (code a) a := by
  induction n generalizing input as with
  | zero =>
    rw [Decoder.replicate, run_pure_ok_iff] at h
    obtain ⟨rfl, rfl⟩ := h
    simp
  | succ n ih =>
    simp only [Decoder.replicate, run_bind_ok_iff, run_pure_ok_iff] at h
    obtain ⟨a, mid, ha, as, _, has, rfl, rfl⟩ := h
    obtain ⟨rfl, hreads⟩ := hd.of_run ha
    obtain ⟨hcount, rfl, hall⟩ := ih has
    exact ⟨by rw [List.length_cons, hcount], by simp, List.forall_mem_cons.mpr ⟨hreads, hall⟩⟩

end Decoder.Takes

/-- What a decoder takes, behind what was taken in front of it, is spelled as the value is written. -/
structure Decoder.Completes {β : Type} (d : Decoder β) (front : Bytes) (code : β → Bytes) :
    Prop where
  of_run : ∀ {input b rest}, d.run input = .ok (b, rest) →
    ∃ bs, input = bs ++ rest ∧ d.Reads bs b ∧ code b = front ++ bs

namespace Binary

/-- A type whose values are taken only from their own binary forms. -/
class Exact (α : Type) [Binary α] : Prop where
  takes : (decode : Decoder α).Takes encode

/-! ### Numbers, texts and lists -/

instance : Exact UInt8 where
  takes := by
    rw [funext encode_uint8]
    exact Decoder.Takes.number_bind_pure fun n hn =>
      ⟨UInt8.ofNat n, rfl, UInt8.toNat_ofNat_of_lt' hn⟩

instance : Exact UInt32 where
  takes := Decoder.Takes.number_bind_pure fun n hn =>
    ⟨UInt32.ofNat n, rfl, UInt32.toNat_ofNat_of_lt' hn⟩

instance : Exact UInt64 where
  takes := Decoder.Takes.number_bind_pure fun n hn =>
    ⟨UInt64.ofNat n, rfl, UInt64.toNat_ofNat_of_lt' hn⟩

/-- A length that was read is written in the same eight bytes. -/
theorem encodeLength_eq {n : Nat} {size : Bytes} (hsize : size.length = 8)
    (hn : n = ofLittleEndian size) : n < 2 ^ 64 ∧ encodeLength n = size := by
  have hlt := ofLittleEndian_lt size
  rw [hsize, ← hn] at hlt
  exact ⟨by omega, by rw [encodeLength, hn, ← hsize, littleEndian_ofLittleEndian]⟩

instance : Exact String where
  takes.of_run {input s rest} h := by
    obtain ⟨size, hsize, hcount, rfl⟩ := run_decode_string_ok_iff.mp h
    rw [length_toUTF8] at hcount
    obtain ⟨hlt, hwritten⟩ := encodeLength_eq hsize hcount
    refine ⟨?_, reads_string hlt⟩
    rw [← hwritten]
    exact (List.append_assoc ..).symm

section List
variable {α : Type} [Binary α] [Exact α] {input rest : Bytes}

/-- A list is taken as it is written, element by element. -/
theorem run_decode_list {as : List α} (h : (decode : Decoder (List α)).run input = .ok (as, rest)) :
    as.length < 2 ^ 64 ∧ input = encode as ++ rest ∧
      ∀ a ∈ as, (decode : Decoder α).Reads (encode a) a := by
  obtain ⟨n, mid, hn, has⟩ := Decoder.run_bind_ok_iff.mp h
  obtain ⟨digits, hdigits, rfl, rfl⟩ := Decoder.run_number_ok_iff.mp hn
  obtain ⟨hcount, rfl, hall⟩ := Exact.takes.replicate has
  obtain ⟨hlt, hwritten⟩ := encodeLength_eq hdigits hcount
  refine ⟨hlt, ?_, hall⟩
  rw [← hwritten]
  exact (List.append_assoc ..).symm

instance : Exact (List α) where
  takes.of_run {input as rest} h := by
    obtain ⟨hcount, hinput, hall⟩ := run_decode_list h
    exact ⟨hinput, reads_list hcount hall⟩

end List

/-! ### Structures -/

section Fields
variable {α β : Type} [Binary α] [Exact α] {front : Bytes} {code : β → Bytes}

/-- A field is taken before the fields behind it. -/
theorem completes_field {f : α → Decoder β}
    (hf : ∀ a, (f a).Completes (front ++ encode a) code) :
    (decode >>= f).Completes front code where
  of_run h := by
    obtain ⟨a, mid, ha, hb⟩ := Decoder.run_bind_ok_iff.mp h
    obtain ⟨rfl, hfield⟩ := Exact.takes.of_run ha
    obtain ⟨bs, rfl, hfields, hcode⟩ := (hf a).of_run hb
    refine ⟨encode a ++ bs, (List.append_assoc ..).symm, hfield.bind hfields, ?_⟩
    rw [hcode, List.append_assoc]

omit [Binary α] [Exact α] in
/-- Behind the last field the structure is complete. -/
theorem completes_pure {b : β} (hb : code b = front) :
    (pure b : Decoder β).Completes front code where
  of_run h := by
    obtain ⟨rfl, rfl⟩ := Decoder.run_pure_ok_iff.mp h
    exact ⟨[], rfl, .pure b, by rw [hb, List.append_nil]⟩

omit [Binary α] [Exact α] in
theorem takes_of_completes {d : Decoder β} (hd : d.Completes [] code) : d.Takes code where
  of_run h := by
    obtain ⟨bs, hinput, hreads, hcode⟩ := hd.of_run h
    obtain rfl : code _ = bs := hcode
    exact ⟨hinput, hreads⟩

end Fields

instance : Exact Hash where
  takes := (Decoder.Takes.bytes 32).bind_pure fun {input bs rest} h => by
    have hbytes : bs.length = 32 := (Decoder.run_bytes_ok_iff.mp h).1
    rw [Hash.ofBytes?, dif_pos hbytes]
    exact ⟨_, rfl, rfl⟩

instance : Exact Path where
  takes := takes_of_completes <| completes_field fun _ => completes_pure rfl

instance : Exact Transaction where
  takes := takes_of_completes <| completes_field fun _ => completes_field fun _ =>
    completes_field fun _ => completes_field fun _ => completes_field fun _ => completes_pure rfl

instance : Exact Header where
  takes := takes_of_completes <| completes_field fun _ => completes_field fun _ =>
    completes_field fun _ => completes_field fun _ => completes_pure rfl

instance : Exact Block where
  takes := takes_of_completes <| completes_field fun _ => completes_field fun _ =>
    completes_pure rfl

instance : Exact Tip where
  takes := takes_of_completes <| completes_field fun _ => completes_field fun _ =>
    completes_pure rfl

instance : Exact Heads where
  takes := takes_of_completes <| completes_field fun _ => completes_field fun _ =>
    completes_field fun _ => completes_pure rfl

instance : Exact Parallelism where
  takes.of_run {input p rest} h := by
    obtain ⟨rfl, hreads⟩ := Exact.takes.of_run (run_decode_parallelism_ok_iff.mp h)
    rw [encode_parallelism]
    exact ⟨rfl, hreads.bind_pure (chosen_choice p)⟩

/-! ### Sets -/

section Set
variable {α : Type} [Binary α] [Ord α] [Std.TransOrd α]

theorem encode_set (s : Std.ExtTreeSet α) : encode s = encode s.toList := rfl

/-- A set is taken from some list of its elements, as that is written. -/
theorem run_decode_set [Exact α] {input rest : Bytes} {s : Std.ExtTreeSet α}
    (h : (decode : Decoder (Std.ExtTreeSet α)).run input = .ok (s, rest)) :
    ∃ as : List α, s = .ofList as ∧ input = encode as ++ rest ∧ as.length < 2 ^ 64 ∧
      ∀ a ∈ as, (decode : Decoder α).Reads (encode a) a := by
  obtain ⟨as, mid, has, hs⟩ := Decoder.run_bind_ok_iff.mp h
  obtain ⟨rfl, rfl⟩ := Decoder.run_pure_ok_iff.mp hs
  obtain ⟨hcount, hinput, hall⟩ := run_decode_list has
  exact ⟨as, rfl, hinput, hcount, hall⟩

variable [Std.LawfulEqOrd α] [DecidableEq α] {as : List α}

/-- A set is written in no more bytes than a list that it was made from. -/
theorem length_encode_ofList_le (as : List α) :
    (encode (Std.ExtTreeSet.ofList as)).length ≤ (encode as).length := by
  obtain ⟨bs, hperm, hsub⟩ := toList_ofList_subperm as
  have hlength := (hperm.flatMap_right (encode : α → Bytes)).length_eq
  have hle := (hsub.flatMap (encode : α → Bytes)).length_le
  rw [encode_set, length_encode_list, length_encode_list]
  omega

section Elements
variable (hcount : as.length < 2 ^ 64) (h : ∀ a ∈ as, (decode : Decoder α).Reads (encode a) a)
include hcount h

theorem reads_elements :
    (decode : Decoder (List α)).Reads (encode (Std.ExtTreeSet.ofList as).toList)
      (Std.ExtTreeSet.ofList as).toList := by
  have hle := (toList_ofList_subperm as).length_le
  exact reads_list (by omega) fun a ha => h a (mem_toList_ofList.mp ha)

/-- A set is written as a list that it was made from just when that is in strict order. -/
theorem encode_ofList_append_eq_iff (xs ys : Bytes) :
    encode (Std.ExtTreeSet.ofList as) ++ xs = encode as ++ ys ↔
      (as.Pairwise fun a b => compare a b = .lt) ∧ xs = ys := by
  rw [← toList_ofList_eq_iff, encode_set]
  constructor
  · exact (reads_elements hcount h).append_inj (reads_list hcount h)
  · rintro ⟨hsame, rfl⟩
    rw [hsame]

theorem encode_ofList_eq_iff :
    encode (Std.ExtTreeSet.ofList as) = encode as ↔
      as.Pairwise fun a b => compare a b = .lt := by
  have hfront := encode_ofList_append_eq_iff hcount h [] []
  simpa only [List.append_nil, and_true] using hfront

end Elements

end Set

/-- Paths that come out of order, and one of them twice, are written in order, each once. -/
example :
    let listed : List Path := [⟨["b"]⟩, ⟨["a", "c"]⟩, ⟨["b"]⟩, ⟨["a"]⟩]
    let written : List Path := [⟨["a"]⟩, ⟨["a", "c"]⟩, ⟨["b"]⟩]
    encode (Std.ExtTreeSet.ofList listed) = encode written := by
  decide +kernel

/-! ## What is decoded -/

/-- What can be decoded is the binary form of what it is decoded to, up to where it was taken. -/
def Canonical (α : Type) [Binary α] : Prop :=
  ∀ input a rest, decodeFrom α input = .ok (a, rest) → input = encode a ++ rest

theorem canonical (α : Type) [Binary α] [Exact α] : Canonical α :=
  fun _ _ _ h => (Exact.takes.of_run h).1

/-- The bytes that a footprint was taken from list the paths of each of its sets, in some order and
some of them more than once. Its own binary form is never longer and is decoded to it again, and it
is those bytes just when the paths came in strict order. -/
def CanonicalUpToOrder (f : Footprint) (taken : Bytes) : Prop :=
  ∃ reads writes : List Path,
    f.reads = .ofList reads ∧ f.writes = .ofList writes ∧
    taken = encode f.parallelism ++ (encode reads ++ encode writes) ∧
    (encode f).length ≤ taken.length ∧
    (∀ rest, decodeFrom Footprint (encode f ++ rest) = .ok (f, rest)) ∧
    (encode f = taken ↔ reads.Pairwise Path.Before ∧ writes.Pairwise Path.Before)

theorem canonicalUpToOrder {input rest : Bytes} {f : Footprint}
    (h : decodeFrom Footprint input = .ok (f, rest)) :
    ∃ taken, input = taken ++ rest ∧ CanonicalUpToOrder f taken := by
  obtain ⟨parallelism, _, hp, h⟩ := Decoder.run_bind_ok_iff.mp h
  obtain ⟨reads, _, hr, h⟩ := Decoder.run_bind_ok_iff.mp h
  obtain ⟨writes, _, hw, h⟩ := Decoder.run_bind_ok_iff.mp h
  obtain ⟨rfl, rfl⟩ := Decoder.run_pure_ok_iff.mp h
  obtain ⟨rfl, hparallelism⟩ := Exact.takes.of_run hp
  obtain ⟨rs, rfl, rfl, hrcount, hrs⟩ := run_decode_set hr
  obtain ⟨ws, rfl, rfl, hwcount, hws⟩ := run_decode_set hw
  refine ⟨encode parallelism ++ (encode rs ++ encode ws), by simp only [List.append_assoc],
    rs, ws, rfl, rfl, rfl, ?_, ?_, ?_⟩
  · rw [encode_footprint]
    have hrle := length_encode_ofList_le rs
    have hwle := length_encode_ofList_le ws
    simp only [List.length_append]
    omega
  · intro rest
    have hreads := reads_set (reads_elements hrcount hrs)
    have hwrites := reads_set (reads_elements hwcount hws)
    rw [encode_footprint]
    refine Decoder.Reads.run_append (hparallelism.bind (hreads.bind (hwrites.bind_pure ?_))) rest
    rfl
  · rw [encode_footprint, List.append_cancel_left_eq, encode_ofList_append_eq_iff hrcount hrs,
      encode_ofList_eq_iff hwcount hws, Path.pairwise_before_iff, Path.pairwise_before_iff]

/-- Decoding fails just on the byte strings that are not laid out as the type is, and says why. -/
def FailsByLayout (α : Type) [Binary α] [LaidOut α] : Prop :=
  ∀ input e, decodeFrom α input = .error e ↔ (layout α).Stops input e

theorem failsByLayout (α : Type) [Binary α] [LaidOut α] : FailsByLayout α :=
  LaidOut.follows.error_iff

/-- **Only canonical bytes are decoded**, up to the order of sets, whoever they come from. -/
theorem decoding_is_canonical :
    (Canonical Transaction ∧ Canonical Header ∧ Canonical Block ∧ Canonical Heads ∧
      Canonical Tip) ∧
    (∀ input f rest, decodeFrom Footprint input = .ok (f, rest) →
      ∃ taken, input = taken ++ rest ∧ CanonicalUpToOrder f taken) ∧
    (FailsByLayout Transaction ∧ FailsByLayout Header ∧ FailsByLayout Block ∧
      FailsByLayout Heads ∧ FailsByLayout Tip ∧ FailsByLayout Footprint) :=
  ⟨⟨canonical _, canonical _, canonical _, canonical _, canonical _⟩,
    fun _ _ _ => canonicalUpToOrder,
    failsByLayout _, failsByLayout _, failsByLayout _, failsByLayout _, failsByLayout _,
    failsByLayout _⟩

end Binary

end ChainNode
