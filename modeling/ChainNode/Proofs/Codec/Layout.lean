import ChainNode.Proofs.Codec.Lossless

/-!
# Which bytes can be decoded

A `Layout` tells how the bytes of a type are laid out: so many bytes, a text, the number of a
choice, a list, one thing behind the other. A byte string begins with something laid out so
(`Layout.Spells`) or it goes wrong at some place, in one of three ways (`Layout.Stops`): it ends too
early, the bytes of a text are no UTF-8, or there is no choice of that number.

Decoding a type follows its layout (`Decoder.Follows`): it takes something exactly from the byte
strings that begin with what the layout spells, and fails as the layout says on all the others. This
is shown for each way to lay things out, and a type of the chain has a layout because its fields do
(`Binary.LaidOut`).
-/

namespace ChainNode

/-! ## Runs of decoders -/

namespace Decoder

variable {α β : Type} {input rest bs : Bytes} {e : DecodeError} {n : Nat}

theorem run_pure_ok_iff {a b : α} :
    (pure a : Decoder α).run input = .ok (b, rest) ↔ a = b ∧ input = rest := by
  show Except.ok (a, input) = .ok (b, rest) ↔ _
  rw [Except.ok.injEq, Prod.mk.injEq]

theorem run_pure_ne_error {a : α} : (pure a : Decoder α).run input ≠ .error e := nofun

theorem run_bind_ok_iff {d : Decoder α} {f : α → Decoder β} {b : β} :
    (d >>= f).run input = .ok (b, rest) ↔
      ∃ a mid, d.run input = .ok (a, mid) ∧ (f a).run mid = .ok (b, rest) := by
  rw [StateT.run_bind]
  cases d.run input with
  | error e => simp [Bind.bind, Except.bind]
  | ok r => simp [Bind.bind, Except.bind, Prod.ext_iff]

theorem run_bind_error_iff {d : Decoder α} {f : α → Decoder β} :
    (d >>= f).run input = .error e ↔
      d.run input = .error e ∨ ∃ a mid, d.run input = .ok (a, mid) ∧ (f a).run mid = .error e := by
  rw [StateT.run_bind]
  cases d.run input with
  | error e => simp [Bind.bind, Except.bind]
  | ok r => simp [Bind.bind, Except.bind, Prod.ext_iff]

/-- What only makes an answer of what was taken does not fail. -/
theorem run_bind_pure_error_iff {d : Decoder α} {f : α → Decoder β}
    (hf : ∀ {a rest}, d.run input = .ok (a, rest) → ∃ b, f a = pure b) :
    (d >>= f).run input = .error e ↔ d.run input = .error e := by
  rw [run_bind_error_iff]
  refine or_iff_left ?_
  rintro ⟨a, mid, ha, hb⟩
  obtain ⟨b, hpure⟩ := hf ha
  exact run_pure_ne_error (hpure ▸ hb)

theorem run_bytes_ok_iff :
    (Decoder.bytes n).run input = .ok (bs, rest) ↔ bs.length = n ∧ input = bs ++ rest := by
  show Decoder.bytes n input = _ ↔ _
  constructor
  · intro h
    rw [Decoder.bytes] at h
    split at h
    · next hn =>
      cases h
      exact ⟨List.length_take_of_le hn, (List.take_append_drop n input).symm⟩
    · cases h
  · rintro ⟨hn, rfl⟩
    exact (Reads.bytes hn).run_append rest

theorem run_bytes_error_iff :
    (Decoder.bytes n).run input = .error e ↔ input.length < n ∧ e = .endOfInput := by
  show Decoder.bytes n input = _ ↔ _
  rw [Decoder.bytes]
  split
  · next hn => simp; omega
  · next hn => simp [Nat.lt_of_not_le hn, eq_comm]

theorem run_number_ok_iff {m : Nat} :
    (Decoder.number n).run input = .ok (m, rest) ↔
      ∃ digits, digits.length = n ∧ ofLittleEndian digits = m ∧ input = digits ++ rest := by
  rw [Decoder.number, run_bind_ok_iff]
  simp only [run_bytes_ok_iff, run_pure_ok_iff]
  constructor
  · rintro ⟨digits, _, ⟨hn, hinput⟩, hm, rfl⟩
    exact ⟨digits, hn, hm, hinput⟩
  · rintro ⟨digits, hn, hm, hinput⟩
    exact ⟨digits, rest, ⟨hn, hinput⟩, hm, rfl⟩

theorem run_number_error_iff :
    (Decoder.number n).run input = .error e ↔ input.length < n ∧ e = .endOfInput := by
  rw [Decoder.number, run_bind_pure_error_iff fun _ => ⟨_, rfl⟩, run_bytes_error_iff]

end Decoder

/-! ## Layouts -/

/-- Some text has these bytes. -/
def IsText (bs : Bytes) : Prop := ∃ s : String, s.toUTF8.toList = bs

/-- How the bytes of a value are laid out. -/
inductive Layout
  /-- So many bytes, whatever they are. -/
  | bytes (n : Nat)
  /-- A length in eight bytes, and the bytes of a text of that length. -/
  | text
  /-- The number of one of so many choices, in four bytes. -/
  | choice (count : Nat)
  /-- A length in eight bytes, and so many elements. -/
  | list (element : Layout)
  /-- One thing and then another. -/
  | both (first second : Layout)
  deriving DecidableEq, Repr

namespace Layout

/-- The bytes are laid out so, to the last of them. -/
inductive Spells : Layout → Bytes → Prop
  | bytes {n : Nat} {bs : Bytes} : bs.length = n → Spells (.bytes n) bs
  | text {size chars : Bytes} : size.length = 8 → chars.length = ofLittleEndian size →
      IsText chars → Spells .text (size ++ chars)
  | choice {count : Nat} {index : Bytes} : index.length = 4 → ofLittleEndian index < count →
      Spells (.choice count) index
  | list {element : Layout} {size : Bytes} {parts : List Bytes} : size.length = 8 →
      parts.length = ofLittleEndian size → (∀ part ∈ parts, Spells element part) →
      Spells (.list element) (size ++ parts.flatten)
  | both {first second : Layout} {xs ys : Bytes} : Spells first xs → Spells second ys →
      Spells (.both first second) (xs ++ ys)

/-- The bytes do not begin with anything laid out so, and this is what is wrong where they first go
wrong. -/
inductive Stops : Layout → Bytes → DecodeError → Prop
  | bytes {n : Nat} {bs : Bytes} : bs.length < n → Stops (.bytes n) bs .endOfInput
  /-- The bytes end inside the length of a text. -/
  | textSize {bs : Bytes} : bs.length < 8 → Stops .text bs .endOfInput
  /-- There are fewer bytes than the length says. -/
  | textShort {size bs : Bytes} : size.length = 8 → bs.length < ofLittleEndian size →
      Stops .text (size ++ bs) .endOfInput
  /-- There are enough bytes, but no text has them. -/
  | textInvalid {size chars rest : Bytes} : size.length = 8 →
      chars.length = ofLittleEndian size → ¬ IsText chars →
      Stops .text (size ++ (chars ++ rest)) .invalidText
  /-- The bytes end inside the number of a choice. -/
  | choiceShort {count : Nat} {bs : Bytes} : bs.length < 4 → Stops (.choice count) bs .endOfInput
  /-- There are not that many choices. -/
  | choiceUnknown {count : Nat} {index rest : Bytes} : index.length = 4 →
      count ≤ ofLittleEndian index →
      Stops (.choice count) (index ++ rest) (.unknownVariant (ofLittleEndian index))
  /-- The bytes end inside the length of a list. -/
  | listSize {element : Layout} {bs : Bytes} : bs.length < 8 →
      Stops (.list element) bs .endOfInput
  /-- Behind some of the elements the next one goes wrong. -/
  | listElement {element : Layout} {size : Bytes} {parts : List Bytes} {bs : Bytes}
      {e : DecodeError} : size.length = 8 → parts.length < ofLittleEndian size →
      (∀ part ∈ parts, Spells element part) → Stops element bs e →
      Stops (.list element) (size ++ (parts.flatten ++ bs)) e
  | first {first second : Layout} {bs : Bytes} {e : DecodeError} : Stops first bs e →
      Stops (.both first second) bs e
  | second {first second : Layout} {xs bs : Bytes} {e : DecodeError} : Spells first xs →
      Stops second bs e → Stops (.both first second) (xs ++ bs) e

end Layout

/-! ## Decoders that follow a layout -/

/-- A decoder takes something just where the layout spells something, and fails as it says. -/
structure Decoder.Follows {α : Type} (d : Decoder α) (l : Layout) : Prop where
  ok_iff : ∀ input rest,
    (∃ a, d.run input = .ok (a, rest)) ↔ ∃ bs, l.Spells bs ∧ input = bs ++ rest
  error_iff : ∀ input e, d.run input = .error e ↔ l.Stops input e

namespace Decoder.Follows

variable {α β : Type} {d : Decoder α} {l : Layout}

/-- What follows may turn what was taken into something else. -/
theorem bind_pure {f : α → Decoder β} (hd : d.Follows l)
    (hf : ∀ {input a rest}, d.run input = .ok (a, rest) → ∃ b, f a = pure b) :
    (d >>= f).Follows l where
  ok_iff input rest := by
    rw [← hd.ok_iff]
    constructor
    · rintro ⟨b, hb⟩
      obtain ⟨a, mid, ha, hb⟩ := run_bind_ok_iff.mp hb
      obtain ⟨b', hpure⟩ := hf ha
      rw [hpure, run_pure_ok_iff] at hb
      exact ⟨a, hb.2 ▸ ha⟩
    · rintro ⟨a, ha⟩
      obtain ⟨b, hpure⟩ := hf ha
      exact ⟨b, run_bind_ok_iff.mpr ⟨a, rest, ha, by rw [hpure]; rfl⟩⟩
  error_iff input e := by rw [run_bind_pure_error_iff hf, hd.error_iff]

theorem both {f : α → Decoder β} {first second : Layout} (hd : d.Follows first)
    (hf : ∀ a, (f a).Follows second) : (d >>= f).Follows (.both first second) where
  ok_iff input rest := by
    simp only [run_bind_ok_iff]
    constructor
    · rintro ⟨b, a, mid, ha, hb⟩
      obtain ⟨xs, hxs, rfl⟩ := (hd.ok_iff _ _).mp ⟨a, ha⟩
      obtain ⟨ys, hys, rfl⟩ := ((hf a).ok_iff _ _).mp ⟨b, hb⟩
      exact ⟨xs ++ ys, .both hxs hys, (List.append_assoc ..).symm⟩
    · rintro ⟨_, hboth, rfl⟩
      cases hboth with
      | both hxs hys =>
        rw [List.append_assoc]
        obtain ⟨a, ha⟩ := (hd.ok_iff _ _).mpr ⟨_, hxs, rfl⟩
        obtain ⟨b, hb⟩ := ((hf a).ok_iff _ _).mpr ⟨_, hys, rfl⟩
        exact ⟨b, a, _, ha, hb⟩
  error_iff input e := by
    rw [run_bind_error_iff]
    constructor
    · rintro (ha | ⟨a, mid, ha, hb⟩)
      · exact .first ((hd.error_iff _ _).mp ha)
      · obtain ⟨xs, hxs, rfl⟩ := (hd.ok_iff _ _).mp ⟨a, ha⟩
        exact .second hxs (((hf a).error_iff _ _).mp hb)
    · intro h
      cases h with
      | first h => exact .inl ((hd.error_iff _ _).mpr h)
      | second hxs h =>
        obtain ⟨a, ha⟩ := (hd.ok_iff _ _).mpr ⟨_, hxs, rfl⟩
        exact .inr ⟨a, _, ha, ((hf a).error_iff _ _).mpr h⟩

theorem bytes (n : Nat) : (Decoder.bytes n).Follows (.bytes n) where
  ok_iff input rest := by
    simp only [run_bytes_ok_iff]
    refine exists_congr fun bs => and_congr_left fun _ => ⟨.bytes, ?_⟩
    rintro ⟨h⟩
    exact h
  error_iff input e := by
    rw [run_bytes_error_iff]
    constructor
    · rintro ⟨h, rfl⟩
      exact .bytes h
    · rintro ⟨h⟩
      exact ⟨h, rfl⟩

theorem number (w : Nat) : (Decoder.number w).Follows (.bytes w) :=
  (bytes w).bind_pure fun _ => ⟨_, rfl⟩

/-! ### Lists -/

section Replicate
variable {input rest : Bytes} {n : Nat}

theorem replicate_ok_iff (hd : d.Follows l) :
    (∃ as, (d.replicate n).run input = .ok (as, rest)) ↔
      ∃ parts : List Bytes, parts.length = n ∧ (∀ part ∈ parts, l.Spells part) ∧
        input = parts.flatten ++ rest := by
  induction n generalizing input with
  | zero =>
    simp only [Decoder.replicate, run_pure_ok_iff]
    simp
  | succ n ih =>
    simp only [Decoder.replicate, run_bind_ok_iff, run_pure_ok_iff]
    constructor
    · rintro ⟨_, a, mid, ha, as, _, has, -, rfl⟩
      obtain ⟨part, hpart, rfl⟩ := (hd.ok_iff _ _).mp ⟨a, ha⟩
      obtain ⟨parts, hcount, hparts, rfl⟩ := ih.mp ⟨as, has⟩
      exact ⟨part :: parts, by simp [hcount], List.forall_mem_cons.mpr ⟨hpart, hparts⟩, by simp⟩
    · rintro ⟨_ | ⟨part, parts⟩, hcount, hparts, rfl⟩
      · cases hcount
      · obtain ⟨hpart, hparts⟩ := List.forall_mem_cons.mp hparts
        rw [List.flatten_cons, List.append_assoc]
        obtain ⟨a, ha⟩ := (hd.ok_iff _ _).mpr ⟨part, hpart, rfl⟩
        obtain ⟨as, has⟩ := ih.mpr ⟨parts, by simpa using hcount, hparts, rfl⟩
        exact ⟨a :: as, a, _, ha, as, rest, has, rfl, rfl⟩

/-- A list goes wrong behind elements that are all right. -/
theorem replicate_error_iff {e : DecodeError} (hd : d.Follows l) :
    (d.replicate n).run input = .error e ↔
      ∃ (parts : List Bytes) (bs : Bytes), parts.length < n ∧ (∀ part ∈ parts, l.Spells part) ∧
        l.Stops bs e ∧ input = parts.flatten ++ bs := by
  induction n generalizing input with
  | zero =>
    simp only [Decoder.replicate, run_pure_ne_error, Nat.not_lt_zero, false_and, exists_false]
  | succ n ih =>
    simp only [Decoder.replicate, run_bind_error_iff]
    -- the first element goes wrong, or it is one more that is all right in front of those behind it
    constructor
    · rintro (ha | ⟨a, mid, ha, has | ⟨as, rest, -, hpure⟩⟩)
      · exact ⟨[], input, Nat.succ_pos n, by simp, (hd.error_iff _ _).mp ha, rfl⟩
      · obtain ⟨part, hpart, rfl⟩ := (hd.ok_iff _ _).mp ⟨a, ha⟩
        obtain ⟨parts, bs, hcount, hparts, hstops, rfl⟩ := ih.mp has
        exact ⟨part :: parts, bs, by simpa using hcount,
          List.forall_mem_cons.mpr ⟨hpart, hparts⟩, hstops, by simp⟩
      · exact absurd hpure run_pure_ne_error
    · rintro ⟨_ | ⟨part, parts⟩, bs, hcount, hparts, hstops, rfl⟩
      · exact .inl ((hd.error_iff _ _).mpr hstops)
      · obtain ⟨hpart, hparts⟩ := List.forall_mem_cons.mp hparts
        rw [List.flatten_cons, List.append_assoc]
        obtain ⟨a, ha⟩ := (hd.ok_iff _ _).mpr ⟨part, hpart, rfl⟩
        have has := ih.mpr ⟨parts, bs, by simpa using hcount, hparts, hstops, rfl⟩
        exact .inr ⟨a, _, ha, .inl has⟩

end Replicate

theorem list (hd : d.Follows l) :
    (Decoder.number 8 >>= fun n => d.replicate n).Follows (.list l) where
  ok_iff input rest := by
    simp only [run_bind_ok_iff, run_number_ok_iff]
    constructor
    · rintro ⟨as, _, mid, ⟨size, hsize, rfl, rfl⟩, has⟩
      obtain ⟨parts, hcount, hparts, rfl⟩ := hd.replicate_ok_iff.mp ⟨as, has⟩
      exact ⟨_, .list hsize hcount hparts, (List.append_assoc ..).symm⟩
    · rintro ⟨_, hlist, rfl⟩
      cases hlist with
      | list hsize hcount hparts =>
        obtain ⟨as, has⟩ := hd.replicate_ok_iff.mpr ⟨_, hcount, hparts, rfl⟩
        exact ⟨as, _, _, ⟨_, hsize, rfl, List.append_assoc ..⟩, has⟩
  error_iff input e := by
    simp only [run_bind_error_iff, run_number_error_iff, run_number_ok_iff]
    constructor
    · rintro (⟨hshort, rfl⟩ | ⟨_, mid, ⟨size, hsize, rfl, rfl⟩, has⟩)
      · exact .listSize hshort
      · obtain ⟨parts, bs, hcount, hparts, hstops, rfl⟩ := hd.replicate_error_iff.mp has
        exact .listElement hsize hcount hparts hstops
    · intro h
      cases h with
      | listSize hshort => exact .inl ⟨hshort, rfl⟩
      | listElement hsize hcount hparts hstops =>
        have has := hd.replicate_error_iff.mpr ⟨_, _, hcount, hparts, hstops, rfl⟩
        exact .inr ⟨_, _, ⟨_, hsize, rfl, rfl⟩, has⟩

end Decoder.Follows

/-! ## Texts -/

namespace Binary

theorem fromUTF8?_toArray_eq_none_iff {bs : Bytes} :
    String.fromUTF8? ⟨bs.toArray⟩ = none ↔ ¬ IsText bs := by
  simp only [IsText, ← fromUTF8?_toArray_eq_some_iff, Option.eq_none_iff_forall_ne_some,
    not_exists, ne_eq]

theorem run_decode_string_ok_iff {input rest : Bytes} {s : String} :
    (decode : Decoder String).run input = .ok (s, rest) ↔
      ∃ size, size.length = 8 ∧ s.toUTF8.toList.length = ofLittleEndian size ∧
        input = size ++ (s.toUTF8.toList ++ rest) := by
  simp only [decode, Decoder.run_bind_ok_iff, Decoder.run_number_ok_iff, Decoder.run_bytes_ok_iff]
  constructor
  · rintro ⟨_, _, ⟨size, hsize, rfl, rfl⟩, bs, mid, ⟨hcount, rfl⟩, h⟩
    split at h
    · next hs =>
      rw [Decoder.run_pure_ok_iff] at h
      obtain ⟨rfl, rfl⟩ := h
      rw [fromUTF8?_toArray_eq_some_iff] at hs
      exact ⟨size, hsize, hs ▸ hcount, hs ▸ rfl⟩
    · cases h
  · rintro ⟨size, hsize, hcount, rfl⟩
    refine ⟨_, _, ⟨size, hsize, rfl, rfl⟩, s.toUTF8.toList, rest, ⟨hcount, rfl⟩, ?_⟩
    rw [fromUTF8?_toArray_eq_some_iff.mpr rfl]
    rfl

theorem follows_string : (decode : Decoder String).Follows .text where
  ok_iff input rest := by
    simp only [run_decode_string_ok_iff]
    constructor
    · rintro ⟨s, size, hsize, hcount, rfl⟩
      exact ⟨_, .text hsize hcount ⟨s, rfl⟩, (List.append_assoc ..).symm⟩
    · rintro ⟨_, htext, rfl⟩
      cases htext with
      | text hsize hcount hs =>
        obtain ⟨s, rfl⟩ := hs
        exact ⟨s, _, hsize, hcount, List.append_assoc ..⟩
  error_iff input e := by
    simp only [decode, Decoder.run_bind_error_iff, Decoder.run_number_error_iff,
      Decoder.run_number_ok_iff, Decoder.run_bytes_error_iff, Decoder.run_bytes_ok_iff]
    constructor
    · rintro (⟨hshort, rfl⟩ | ⟨_, bs, ⟨size, hsize, rfl, rfl⟩, h⟩)
      · exact .textSize hshort
      · obtain ⟨hshort, rfl⟩ | ⟨chars, rest, ⟨hcount, rfl⟩, h⟩ := h
        · exact .textShort hsize hshort
        · split at h
          · cases h
          · next hs =>
            cases h
            exact .textInvalid hsize hcount (fromUTF8?_toArray_eq_none_iff.mp hs)
    · intro h
      cases h with
      | textSize hshort => exact .inl ⟨hshort, rfl⟩
      | textShort hsize hshort => exact .inr ⟨_, _, ⟨_, hsize, rfl, rfl⟩, .inl ⟨hshort, rfl⟩⟩
      | textInvalid hsize hcount hs =>
        refine .inr ⟨_, _, ⟨_, hsize, rfl, rfl⟩, .inr ⟨_, _, ⟨hcount, rfl⟩, ?_⟩⟩
        rw [fromUTF8?_toArray_eq_none_iff.mpr hs]
        rfl

/-! ## Choices -/

theorem toNat_ofNat_ofLittleEndian {digits : Bytes} (h : digits.length = 4) :
    (UInt32.ofNat (ofLittleEndian digits)).toNat = ofLittleEndian digits := by
  apply UInt32.toNat_ofNat_of_lt'
  have := ofLittleEndian_lt digits
  rwa [h] at this

theorem run_decode_uint32_ok_iff {input rest : Bytes} {n : UInt32} :
    (decode : Decoder UInt32).run input = .ok (n, rest) ↔
      ∃ digits, digits.length = 4 ∧ n.toNat = ofLittleEndian digits ∧ input = digits ++ rest := by
  simp only [decode, Decoder.run_bind_ok_iff, Decoder.run_number_ok_iff, Decoder.run_pure_ok_iff]
  constructor
  · rintro ⟨_, _, ⟨digits, hlength, rfl, rfl⟩, rfl, rfl⟩
    exact ⟨digits, hlength, toNat_ofNat_ofLittleEndian hlength, rfl⟩
  · rintro ⟨digits, hlength, hn, rfl⟩
    exact ⟨_, _, ⟨digits, hlength, rfl, rfl⟩, by rw [← hn, UInt32.ofNat_toNat], rfl⟩

theorem run_decode_uint32_error_iff {input : Bytes} {e : DecodeError} :
    (decode : Decoder UInt32).run input = .error e ↔ input.length < 4 ∧ e = .endOfInput :=
  (Decoder.run_bind_pure_error_iff fun _ => ⟨_, rfl⟩).trans Decoder.run_number_error_iff

/-- The choice of the given number. -/
def chosen (index : UInt32) : Decoder Parallelism :=
  match index.toNat with
  | 0 => return .parallelizable
  | 1 => return .nonParallelizable
  | 2 => return .withoutContract
  | n => throw (.unknownVariant n)

theorem decode_parallelism : (decode : Decoder Parallelism) = decode >>= chosen := rfl

theorem chosen_choice (p : Parallelism) : chosen (choice p) = pure p := by cases p <;> rfl

theorem chosen_eq_throw {index : UInt32} (h : 3 ≤ index.toNat) :
    chosen index = throw (.unknownVariant index.toNat) := by
  unfold chosen
  split
  case h_4 => rfl
  all_goals omega

theorem toNat_choice_lt (p : Parallelism) : (choice p).toNat < 3 := by cases p <;> decide

theorem eq_choice_or (index : UInt32) : (∃ p, index = choice p) ∨ 3 ≤ index.toNat := by
  match h : index.toNat with
  | 0 => exact .inl ⟨.parallelizable, UInt32.toNat_inj.mp h⟩
  | 1 => exact .inl ⟨.nonParallelizable, UInt32.toNat_inj.mp h⟩
  | 2 => exact .inl ⟨.withoutContract, UInt32.toNat_inj.mp h⟩
  | n + 3 => exact .inr (Nat.le_add_left 3 n)

theorem run_decode_parallelism_ok_iff {input rest : Bytes} {p : Parallelism} :
    (decode : Decoder Parallelism).run input = .ok (p, rest) ↔
      (decode : Decoder UInt32).run input = .ok (choice p, rest) := by
  rw [decode_parallelism, Decoder.run_bind_ok_iff]
  constructor
  · rintro ⟨index, mid, hindex, hp⟩
    obtain ⟨q, rfl⟩ | hlarge := eq_choice_or index
    · rw [chosen_choice, Decoder.run_pure_ok_iff] at hp
      obtain ⟨rfl, rfl⟩ := hp
      exact hindex
    · rw [chosen_eq_throw hlarge] at hp
      cases hp
  · intro h
    exact ⟨choice p, rest, h, by rw [chosen_choice]; rfl⟩

theorem run_decode_parallelism_error_iff {input : Bytes} {e : DecodeError} :
    (decode : Decoder Parallelism).run input = .error e ↔
      (decode : Decoder UInt32).run input = .error e ∨
        ∃ index rest, (decode : Decoder UInt32).run input = .ok (index, rest) ∧
          3 ≤ index.toNat ∧ .unknownVariant index.toNat = e := by
  rw [decode_parallelism, Decoder.run_bind_error_iff]
  refine or_congr_right (exists_congr fun index => exists_congr fun rest => and_congr_right ?_)
  intro _
  obtain ⟨q, rfl⟩ | hlarge := eq_choice_or index
  · have := toNat_choice_lt q
    rw [chosen_choice]
    exact ⟨nofun, fun h => by omega⟩
  · rw [chosen_eq_throw hlarge]
    exact ⟨fun h => ⟨hlarge, Except.error.inj h⟩, fun h => congrArg _ h.2⟩

theorem follows_parallelism : (decode : Decoder Parallelism).Follows (.choice 3) where
  ok_iff input rest := by
    simp only [run_decode_parallelism_ok_iff, run_decode_uint32_ok_iff]
    constructor
    · rintro ⟨p, index, hlength, hp, rfl⟩
      exact ⟨index, .choice hlength (hp ▸ toNat_choice_lt p), rfl⟩
    · rintro ⟨index, hchoice, rfl⟩
      cases hchoice with
      | choice hlength hsmall =>
        have hn := toNat_ofNat_ofLittleEndian hlength
        obtain ⟨p, hp⟩ | hlarge := eq_choice_or (UInt32.ofNat (ofLittleEndian index))
        · exact ⟨p, index, hlength, hp ▸ hn, rfl⟩
        · omega
  error_iff input e := by
    simp only [run_decode_parallelism_error_iff, run_decode_uint32_ok_iff,
      run_decode_uint32_error_iff]
    constructor
    · rintro (⟨hshort, rfl⟩ | ⟨n, rest, ⟨index, hlength, hn, rfl⟩, hlarge, rfl⟩)
      · exact .choiceShort hshort
      · rw [hn] at hlarge ⊢
        exact .choiceUnknown hlength hlarge
    · intro h
      cases h with
      | choiceShort hshort => exact .inl ⟨hshort, rfl⟩
      | choiceUnknown hlength hlarge =>
        have hn := toNat_ofNat_ofLittleEndian hlength
        exact .inr ⟨_, _, ⟨_, hlength, hn, rfl⟩, by omega, congrArg _ hn⟩

/-! ## Types with a layout -/

/-- A type whose binary form is laid out in a way of its own. -/
class LaidOut (α : Type) [Binary α] where
  /-- How the bytes of a value are laid out. -/
  layout : Layout
  follows : (decode : Decoder α).Follows layout

export LaidOut (layout)

variable {α : Type} [Binary α] [LaidOut α]

instance : LaidOut UInt8 := ⟨.bytes 1, (Decoder.Follows.number 1).bind_pure fun _ => ⟨_, rfl⟩⟩

instance : LaidOut UInt64 := ⟨.bytes 8, (Decoder.Follows.number 8).bind_pure fun _ => ⟨_, rfl⟩⟩

instance : LaidOut String := ⟨.text, follows_string⟩

instance : LaidOut Parallelism := ⟨.choice 3, follows_parallelism⟩

instance : LaidOut (List α) := ⟨.list (layout α), LaidOut.follows.list⟩

instance [Ord α] [Std.TransOrd α] : LaidOut (Std.ExtTreeSet α) :=
  ⟨layout (List α), LaidOut.follows.bind_pure fun _ => ⟨_, rfl⟩⟩

instance : LaidOut Hash where
  layout := .bytes 32
  follows := (Decoder.Follows.bytes 32).bind_pure fun h => by
    rw [Hash.ofBytes?, dif_pos (Decoder.run_bytes_ok_iff.mp h).1]
    exact ⟨_, rfl⟩

instance : LaidOut Path := ⟨layout (List String), LaidOut.follows.bind_pure fun _ => ⟨_, rfl⟩⟩

section Fields
variable {β : Type} {f : α → Decoder β} {l : Layout}

/-- A field stands before the fields behind it. -/
theorem follows_field (hf : ∀ a, (f a).Follows l) :
    (decode >>= f).Follows (.both (layout α) l) := LaidOut.follows.both hf

/-- With the last field the structure is complete. -/
theorem follows_last (hf : ∀ a, ∃ b, f a = pure b) : (decode >>= f).Follows (layout α) :=
  LaidOut.follows.bind_pure fun _ => hf _

end Fields

instance : LaidOut Transaction where
  layout := .both (layout String) <| .both (layout String) <| .both (layout UInt64) <|
    .both (layout String) (layout Bytes)
  follows := follows_field fun _ => follows_field fun _ => follows_field fun _ =>
    follows_field fun _ => follows_last fun _ => ⟨_, rfl⟩

instance : LaidOut Header where
  layout := .both (layout Hash) <| .both (layout UInt64) <| .both (layout UInt64) <|
    layout (List Hash)
  follows := follows_field fun _ => follows_field fun _ => follows_field fun _ =>
    follows_last fun _ => ⟨_, rfl⟩

instance : LaidOut Block where
  layout := .both (layout Header) (layout (List Transaction))
  follows := follows_field fun _ => follows_last fun _ => ⟨_, rfl⟩

instance : LaidOut Tip where
  layout := .both (layout Hash) (layout UInt64)
  follows := follows_field fun _ => follows_last fun _ => ⟨_, rfl⟩

instance : LaidOut Heads where
  layout := .both (layout Tip) <| .both (layout Tip) (layout Tip)
  follows := follows_field fun _ => follows_field fun _ => follows_last fun _ => ⟨_, rfl⟩

instance : LaidOut Footprint where
  layout := .both (layout Parallelism) <| .both (layout PathSet) (layout PathSet)
  follows := follows_field fun _ => follows_field fun _ => follows_last fun _ => ⟨_, rfl⟩

example : layout Footprint =
    .both (.choice 3) (.both (.list (.list .text)) (.list (.list .text))) := rfl

end Binary

end ChainNode
