import ChainNode.Proofs.Codec.Reading
import ChainNode.State.Path
import Mathlib.Tactic.SplitIfs

/-!
# The order of paths, by bytes

Paths are ordered segment by segment, and segments by their characters. The order can be told from
the bytes alone (`Path.Before`), because UTF-8 keeps the order of characters: the first byte of a
character tells how many follow it, and the more follow, the greater it is; characters of one length
have their numbers written in base 64, highest digit first.
-/

namespace ChainNode

namespace Utf8

/-! ## Characters -/

/-- How many bytes continue the character with the given number. -/
def trailing (v : Nat) : Nat :=
  if v < 0x80 then 0 else if v < 0x800 then 1 else if v < 0x10000 then 2 else 3

/-- The first byte of the character with the given number. -/
def leading (v : Nat) : Nat :=
  if v < 0x80 then v
  else if v < 0x800 then v / 64 + 0xc0
  else if v < 0x10000 then v / 64 ^ 2 + 0xe0
  else v / 64 ^ 3 + 0xf0

/-- The last `k` base-64 digits of a number, highest first, as bytes that continue a character. -/
def continuation : Nat → Nat → Bytes
  | 0, _ => []
  | k + 1, v => UInt8.ofNat (v / 64 ^ k % 64 + 0x80) :: continuation k v

theorem toNat_lt (c : Char) : c.toNat < 0x110000 := by
  show c.val.toNat < _
  obtain h | h := c.valid <;> omega

theorem leading_lt {v : Nat} (h : v < 0x110000) : leading v < 256 := by
  unfold leading
  split_ifs <;> omega

/-- A character is its first byte and the digits that the first byte has no room for. -/
theorem utf8EncodeChar_eq (c : Char) : String.utf8EncodeChar c =
    UInt8.ofNat (leading c.toNat) :: continuation (trailing c.toNat) c.toNat := by
  have hval : c.val.toNat = c.toNat := rfl
  have hmax := toNat_lt c
  simp only [String.utf8EncodeChar, hval, leading, trailing, ← Nat.lt_succ_iff,
    Nat.succ_eq_add_one, Nat.reduceAdd]
  split_ifs
  · rfl
  · simp only [continuation, Nat.pow_zero, Nat.div_one]
    rw [Nat.mod_eq_of_lt (by omega : c.toNat / 64 < 32)]
  · simp only [continuation, Nat.pow_zero, Nat.div_one, Nat.reducePow]
    rw [Nat.mod_eq_of_lt (by omega : c.toNat / 4096 < 16)]
  · simp only [continuation, Nat.pow_zero, Nat.div_one, Nat.reducePow]
    rw [Nat.mod_eq_of_lt (by omega : c.toNat / 262144 < 8)]

/-- The first byte grows with the number, and where it does not, the later bytes tell. -/
theorem leading_lt_or {v w : Nat} (h : v < w) (hw : w < 0x110000) :
    leading v < leading w ∨
      leading v = leading w ∧ trailing v = trailing w ∧
        v / 64 ^ trailing v = w / 64 ^ trailing v := by
  unfold leading trailing
  split_ifs <;> omega

/-- Numbers that differ only in their last digits are ordered as those are. -/
theorem continuation_append_lt {k v w : Nat} (h : v < w) (hhigh : v / 64 ^ k = w / 64 ^ k)
    (xs ys : Bytes) : continuation k v ++ xs < continuation k w ++ ys := by
  induction k with
  | zero => simp at hhigh; omega
  | succ k ih =>
    have hle : v / 64 ^ k ≤ w / 64 ^ k := Nat.div_le_div_right (Nat.le_of_lt h)
    rw [Nat.pow_succ, ← Nat.div_div_eq_div_mul, ← Nat.div_div_eq_div_mul] at hhigh
    simp only [continuation, List.cons_append, List.cons_lt_cons_iff]
    obtain heq | hlt := Nat.eq_or_lt_of_le hle
    · exact .inr ⟨by rw [heq], ih heq⟩
    · refine .inl (UInt8.lt_iff_toNat_lt.mpr ?_)
      simp only [UInt8.toNat_ofNat']
      omega

/-- Of two characters the lesser has the lesser bytes, whatever follows either. -/
theorem utf8EncodeChar_append_lt {c d : Char} (h : c < d) (xs ys : Bytes) :
    String.utf8EncodeChar c ++ xs < String.utf8EncodeChar d ++ ys := by
  have hnumber : c.toNat < d.toNat := h
  rw [utf8EncodeChar_eq, utf8EncodeChar_eq, List.cons_append, List.cons_append,
    List.cons_lt_cons_iff]
  obtain hlead | ⟨hlead, hlength, hhigh⟩ := leading_lt_or hnumber (toNat_lt d)
  · refine .inl (UInt8.lt_iff_toNat_lt.mpr ?_)
    have := leading_lt (toNat_lt c)
    have := leading_lt (toNat_lt d)
    simp only [UInt8.toNat_ofNat']
    omega
  · rw [hlead, ← hlength]
    exact .inr ⟨rfl, continuation_append_lt hnumber hhigh xs ys⟩

/-! ## Texts -/

theorem flatMap_utf8EncodeChar_lt {cs ds : List Char} (h : cs < ds) :
    cs.flatMap String.utf8EncodeChar < ds.flatMap String.utf8EncodeChar := by
  induction h with
  | nil =>
    rw [List.flatMap_cons, utf8EncodeChar_eq]
    exact List.Lex.nil
  | rel hlt =>
    rw [List.flatMap_cons, List.flatMap_cons]
    exact utf8EncodeChar_append_lt hlt _ _
  | cons _ ih =>
    rw [List.flatMap_cons, List.flatMap_cons]
    exact List.append_left_lt ih

theorem toList_toUTF8 (s : String) :
    s.toUTF8.toList = s.toList.flatMap String.utf8EncodeChar := by
  rw [Binary.toList_byteArray, String.toUTF8_eq_toByteArray, ← String.utf8Encode_toList]
  simp [List.utf8Encode]

/-- Texts are ordered as their bytes are. -/
theorem toUTF8_lt_toUTF8_iff {s t : String} :
    s.toUTF8.toList < t.toUTF8.toList ↔ s < t := by
  have hkeep {s t : String} (h : s < t) : s.toUTF8.toList < t.toUTF8.toList := by
    rw [toList_toUTF8, toList_toUTF8]
    exact flatMap_utf8EncodeChar_lt h
  refine ⟨fun h => ?_, hkeep⟩
  by_contra hnot
  obtain heq | hlt := Std.le_iff_lt_or_eq.mp (String.not_lt.mp hnot)
  · exact Std.lt_irrefl (Std.lt_trans h (hkeep heq))
  · exact Std.lt_irrefl (hlt ▸ h)

end Utf8

/-! ## Paths -/

namespace Path

/-- Segment by segment the first path comes before the second one, segments by their bytes. A path
comes before those that continue it. -/
def Before (p q : Path) : Prop :=
  List.Lex (fun s t : String => s.toUTF8.toList < t.toUTF8.toList) p.segments q.segments

/-- Paths are ordered by their bytes. -/
theorem compare_eq_lt_iff {p q : Path} : compare p q = .lt ↔ p.Before q := by
  show compare p.segments q.segments = .lt ↔ List.Lex _ p.segments q.segments
  generalize p.segments = ss
  generalize q.segments = ts
  induction ss generalizing ts with
  | nil =>
    cases ts with
    | nil => simp
    | cons t ts => simp [List.compare_nil_cons]
  | cons s ss ih =>
    cases ts with
    | nil => simp
    | cons t ts =>
      have hfirst : compare s t = .lt ↔ s < t := compareOfLessAndEq_eq_lt
      rw [List.compare_cons_cons, Ordering.then_eq_lt, ih, List.cons_lex_cons_iff,
        Utf8.toUTF8_lt_toUTF8_iff, hfirst, Std.compare_eq_iff_eq]

theorem pairwise_before_iff {ps : List Path} :
    ps.Pairwise Before ↔ ps.Pairwise fun p q => compare p q = .lt :=
  ⟨fun h => h.imp compare_eq_lt_iff.mpr, fun h => h.imp compare_eq_lt_iff.mp⟩

end Path

end ChainNode
