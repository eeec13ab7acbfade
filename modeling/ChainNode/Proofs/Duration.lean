import ChainNode.Duration
import Mathlib.Data.List.DropRight
import Mathlib.Data.Nat.Digits.Defs

/-!
# What a duration may look like

The texts that are durations, said without reading them (`Duration.Denotes`), and what can be wrong with
a text (`Duration.Flaw`). A text can have several flaws; they have an order, and the first one is
reported. Reading a text gives the duration that it denotes, or its first flaw
(`Duration.parse_iff`).

Blanks around a text are taken off first (`Text.Trims`). What is left is split at the first character
that is no digit (`Text.Leads`).
-/

namespace ChainNode

/-! ## The value of digits -/

namespace Decimal

/-- The value of digits by their places: the last one counts ones, the one before it tens. -/
def byPlaces (digits : List Char) : Nat :=
  Nat.ofDigits 10 (digits.reverse.map fun c => c.toNat - '0'.toNat)

theorem value_eq_byPlaces (digits : List Char) : value digits = byPlaces digits := by
  induction digits using List.reverseRecOn with
  | nil => rfl
  | append_singleton rest c ih =>
    rw [byPlaces, List.reverse_concat, List.map_cons, Nat.ofDigits_cons, ← byPlaces, ← ih, value,
      List.foldl_concat, Nat.add_comm]
    rfl

end Decimal

/-! ## Runs of characters, and blanks around a text -/

namespace Text

variable {p : Char → Bool} {s t run rest : List Char}

/-- A text starts with a run of characters of a kind, and the rest does not. -/
structure Leads (p : Char → Bool) (t run rest : List Char) : Prop where
  eq : t = run ++ rest
  run : ∀ c ∈ run, p c
  rest : ∀ c ∈ rest.head?, ¬ p c

theorem leads_takeWhile (p : Char → Bool) (t : List Char) :
    Leads p t (t.takeWhile p) (t.dropWhile p) where
  eq := List.takeWhile_append_dropWhile.symm
  run _ hc := List.mem_takeWhile_imp hc
  rest c hc := by
    have hnot := List.head?_dropWhile_not p t
    rw [Option.mem_def.mp hc] at hnot
    simpa using hnot

theorem Leads.dropWhile_eq (h : Leads p t run rest) : t.dropWhile p = rest := by
  rw [h.eq, List.dropWhile_append_of_pos h.run]
  cases rest with
  | nil => rfl
  | cons c rest => exact List.dropWhile_cons_of_neg (h.rest c rfl)

theorem Leads.takeWhile_eq (h : Leads p t run rest) : t.takeWhile p = run := by
  have hsplit : t.takeWhile p ++ rest = run ++ rest := by
    rw [← h.eq, ← h.dropWhile_eq, List.takeWhile_append_dropWhile]
  exact List.append_cancel_right hsplit

/-- `t` is `s` without the blanks at its ends. -/
structure Trims (s t : List Char) : Prop where
  around : ∃ lead trail, s = lead ++ t ++ trail ∧ (∀ c ∈ lead, isBlank c) ∧ ∀ c ∈ trail, isBlank c
  head : ∀ c ∈ t.head?, ¬ isBlank c
  last : ∀ c ∈ t.getLast?, ¬ isBlank c

theorem trimEnd_append {trail : List Char} (htrail : ∀ c ∈ trail, isBlank c)
    (hlast : ∀ c ∈ t.getLast?, ¬ isBlank c) : trimEnd (t ++ trail) = t := by
  have hreverse : Leads isBlank (t ++ trail).reverse trail.reverse t.reverse :=
    ⟨List.reverse_append, by simpa using htrail, by simpa using hlast⟩
  rw [trimEnd, hreverse.dropWhile_eq, List.reverse_reverse]

theorem Trims.trim_eq (h : Trims s t) : trim s = t := by
  obtain ⟨lead, trail, rfl, hlead, htrail⟩ := h.around
  rw [trim, List.append_assoc, List.dropWhile_append_of_pos hlead]
  cases t with
  | nil =>
    rw [List.nil_append, List.dropWhile_eq_nil_iff.mpr htrail]
    rfl
  | cons c rest =>
    rw [List.cons_append, List.dropWhile_cons_of_neg (h.head c rfl)]
    exact trimEnd_append htrail h.last

theorem trims_trim (s : List Char) : Trims s (trim s) := by
  have hlead := leads_takeWhile isBlank s
  have htrail := leads_takeWhile isBlank (s.dropWhile isBlank).reverse
  have heq : s.dropWhile isBlank =
      trim s ++ ((s.dropWhile isBlank).reverse.takeWhile isBlank).reverse := by
    rw [trim, trimEnd, ← List.reverse_append, ← htrail.eq, List.reverse_reverse]
  refine ⟨⟨_, ((s.dropWhile isBlank).reverse.takeWhile isBlank).reverse, ?_, hlead.run, ?_⟩, ?_, ?_⟩
  · rw [List.append_assoc, ← heq]
    exact hlead.eq
  · exact fun c hc => htrail.run c (List.mem_reverse.mp hc)
  · intro c hc
    refine hlead.rest c ?_
    rw [heq, List.head?_append, Option.mem_def.mp hc]
    rfl
  · intro c hc
    rw [trim, trimEnd, List.getLast?_reverse] at hc
    exact htrail.rest c hc

end Text

/-! ## Durations and flaws -/

namespace Duration

open Text (isBlank Trims Leads)

/-- Digits that write a number below `2 ^ 64`. -/
structure Numeral (digits : List Char) (v : Nat) : Prop where
  ne_nil : digits ≠ []
  isDigit : ∀ c ∈ digits, c.isDigit
  value_eq : Decimal.byPlaces digits = v
  lt : v < 2 ^ 64

/-- The names of the units that are counted in seconds, with the seconds of one. -/
def secondUnits : List (List Char × Nat) := [(['s'], 1), (['m'], 60), (['h'], 3600)]

/-- The names of a millisecond. -/
def milliNames : List (List Char) := [[], ['m', 's']]

/-- A text without blanks at its ends stands for a duration: a number, perhaps blanks, and a unit. -/
inductive Denotes : List Char → Duration → Prop
  | millis {digits gap name : List Char} {v : Nat} (hv : Numeral digits v)
    (hgap : ∀ c ∈ gap, isBlank c) (hname : name ∈ milliNames) :
    Denotes (digits ++ gap ++ name) ⟨v⟩
  | seconds {digits gap name : List Char} {v k : Nat} (hv : Numeral digits v)
    (hgap : ∀ c ∈ gap, isBlank c) (hname : (name, k) ∈ secondUnits) (hfit : v * k < 2 ^ 64) :
    Denotes (digits ++ gap ++ name) ⟨v * k * 1000⟩

/-- What is wrong with a text without blanks at its ends. -/
inductive Flaw (t : List Char) : ParseError → Prop
  | empty (h : t = []) : Flaw t .empty
  | noValue (h : ∀ c ∈ t.head?, ¬ c.isDigit) : Flaw t (.noValue t)
  | valueTooLarge {digits rest : List Char} (h : Leads Char.isDigit t digits rest)
    (hv : 2 ^ 64 ≤ Decimal.byPlaces digits) : Flaw t (.valueTooLarge t)
  | unknownUnit {digits rest name : List Char} (h : Leads Char.isDigit t digits rest)
    (hname : Trims rest name) (hmillis : name ∉ milliNames)
    (hseconds : name ∉ secondUnits.map Prod.fst) : Flaw t (.unknownUnit name)
  | tooLarge {digits rest name : List Char} {k : Nat} (h : Leads Char.isDigit t digits rest)
    (hname : Trims rest name) (hunit : (name, k) ∈ secondUnits)
    (hv : 2 ^ 64 ≤ Decimal.byPlaces digits * k) : Flaw t (.tooLarge t)

/-- Which flaw comes first: an empty text, then a value that is missing or does not fit, then an
unknown unit, then too many seconds. -/
def ParseError.rank : ParseError → Nat
  | empty => 0
  | noValue _ | valueTooLarge _ => 1
  | unknownUnit _ => 2
  | tooLarge _ => 3

variable {t digits rest name : List Char} {d : Duration} {e e' : ParseError}

/-- What a name stands for: milliseconds, some seconds, or no unit. -/
theorem ofName?_cases (name : List Char) :
    name ∈ milliNames ∧ TimeUnit.ofName? name = some .millisecond ∨
    (∃ k u, (name, k) ∈ secondUnits ∧ TimeUnit.ofName? name = some u ∧
      ∀ v, u.times? v = if v * k < 2 ^ 64 then some ⟨v * k * 1000⟩ else none) ∨
    (name ∉ milliNames ∧ name ∉ secondUnits.map Prod.fst) ∧ TimeUnit.ofName? name = none := by
  by_cases hmillis : name ∈ milliNames
  · exact .inl ⟨hmillis, if_pos (by simpa [milliNames] using hmillis)⟩
  · by_cases hseconds : name ∈ secondUnits.map Prod.fst
    · refine .inr (.inl ?_)
      obtain rfl | rfl | rfl : name = ['s'] ∨ name = ['m'] ∨ name = ['h'] := by
        simpa [secondUnits] using hseconds
      · exact ⟨1, .second, by decide, by decide, fun v => by rw [Nat.mul_one]; rfl⟩
      · exact ⟨60, .minute, by decide, by decide, fun v => rfl⟩
      · exact ⟨3600, .hour, by decide, by decide, fun v => rfl⟩
    · refine .inr (.inr ⟨⟨hmillis, hseconds⟩, ?_⟩)
      simp only [milliNames, secondUnits, List.map_cons, List.map_nil, List.mem_cons,
        List.not_mem_nil, or_false, not_or] at hmillis hseconds
      simp [TimeUnit.ofName?, hmillis, hseconds]

/-- A second, a minute and an hour have names of their own. -/
theorem secondUnits_unique {k k' : Nat} (h : (name, k) ∈ secondUnits)
    (h' : (name, k') ∈ secondUnits) : k = k' := by
  simp only [secondUnits, List.mem_cons, Prod.mk.injEq, List.not_mem_nil, or_false] at h h'
  obtain ⟨rfl, rfl⟩ | ⟨rfl, rfl⟩ | ⟨rfl, rfl⟩ := h <;> simp_all

theorem not_milli_of_second {k : Nat} (h : (name, k) ∈ secondUnits) : name ∉ milliNames := by
  simp only [secondUnits, List.mem_cons, Prod.mk.injEq, List.not_mem_nil, or_false] at h
  obtain ⟨rfl, -⟩ | ⟨rfl, -⟩ | ⟨rfl, -⟩ := h <;> decide

theorem parseTrimmed_eq (h : Leads Char.isDigit t digits rest) (hname : Trims rest name) :
    parseTrimmed t =
      if t = [] then .error .empty
      else if digits = [] then .error (.noValue t)
      else if 2 ^ 64 ≤ Decimal.byPlaces digits then .error (.valueTooLarge t)
      else match TimeUnit.ofName? name with
        | none => .error (.unknownUnit name)
        | some u => match u.times? (Decimal.byPlaces digits) with
          | none => .error (.tooLarge t)
          | some d => .ok d := by
  rw [parseTrimmed, h.takeWhile_eq, h.dropWhile_eq, hname.trim_eq, Decimal.value_eq_byPlaces]
  rfl

/-! ### The parts of a text -/

theorem not_isDigit_of_isBlank {c : Char} (h : isBlank c) : ¬ c.isDigit := by
  intro hdigit
  simp only [Char.isDigit, Bool.and_eq_true, decide_eq_true_eq, ge_iff_le,
    UInt32.le_iff_toNat_le] at hdigit
  have hlow : 48 ≤ c.toNat ∧ c.toNat ≤ 57 := hdigit
  simp only [isBlank, Bool.or_eq_true, Bool.and_eq_true, decide_eq_true_eq, beq_iff_eq] at h
  omega

/-- The names of the units are made of letters. -/
theorem not_isDigit_and_not_isBlank {c : Char}
    (hunit : name ∈ milliNames ++ secondUnits.map Prod.fst) (hc : c ∈ name) :
    ¬ c.isDigit ∧ ¬ isBlank c := by
  obtain rfl | rfl | rfl : c = 'm' ∨ c = 's' ∨ c = 'h' := by
    simp only [milliNames, secondUnits, List.map_cons, List.map_nil, List.cons_append,
      List.nil_append, List.mem_cons, List.not_mem_nil, or_false] at hunit
    obtain rfl | rfl | rfl | rfl | rfl := hunit <;> grind
  all_goals decide

section Parts

variable {gap : List Char} (hunit : name ∈ milliNames ++ secondUnits.map Prod.fst)
  (hgap : ∀ c ∈ gap, isBlank c)

include hunit hgap

theorem trims_unit : Trims (gap ++ name) name where
  around := ⟨gap, [], by rw [List.append_nil], hgap, by simp⟩
  head c hc := (not_isDigit_and_not_isBlank hunit (List.mem_of_mem_head? hc)).2
  last c hc := (not_isDigit_and_not_isBlank hunit (List.mem_of_getLast? hc)).2

theorem leads_digits (hd : ∀ c ∈ digits, c.isDigit) :
    Leads Char.isDigit (digits ++ gap ++ name) digits (gap ++ name) where
  eq := List.append_assoc ..
  run := hd
  rest c hc := by
    cases gap with
    | nil => exact (not_isDigit_and_not_isBlank hunit (List.mem_of_mem_head? hc)).1
    | cons b gap =>
      obtain rfl : b = c := by simpa using hc
      exact not_isDigit_of_isBlank (hgap b List.mem_cons_self)

end Parts

theorem mem_second {k : Nat} (h : (name, k) ∈ secondUnits) :
    name ∈ milliNames ++ secondUnits.map Prod.fst :=
  List.mem_append_right _ (List.mem_map_of_mem h)

/-- The digits and the unit of a text that stands for a duration. -/
theorem Denotes.parts (h : Denotes t d) :
    ∃ digits rest name v, Leads Char.isDigit t digits rest ∧ Trims rest name ∧ Numeral digits v ∧
      (name ∈ milliNames ∧ d = ⟨v⟩ ∨
        ∃ k, (name, k) ∈ secondUnits ∧ v * k < 2 ^ 64 ∧ d = ⟨v * k * 1000⟩) := by
  cases h with
  | @millis digits gap name v hv hgap hname =>
    have hunit := List.mem_append_left (secondUnits.map Prod.fst) hname
    exact ⟨digits, gap ++ name, name, v, leads_digits hunit hgap hv.isDigit,
      trims_unit hunit hgap, hv, .inl ⟨hname, rfl⟩⟩
  | @seconds digits gap name v k hv hgap hname hfit =>
    exact ⟨digits, gap ++ name, name, v, leads_digits (mem_second hname) hgap hv.isDigit,
      trims_unit (mem_second hname) hgap, hv, .inr ⟨k, hname, hfit, rfl⟩⟩

/-- A text that ends with no blank ends with the name of its unit. -/
theorem gap_of_trims (hlast : ∀ c ∈ t.getLast?, ¬ isBlank c) (heq : t = digits ++ rest)
    (hname : Trims rest name) : ∃ gap, rest = gap ++ name ∧ ∀ c ∈ gap, isBlank c := by
  obtain ⟨lead, trail, rfl, hlead, htrail⟩ := hname.around
  cases htrail_last : trail.getLast? with
  | none =>
    obtain rfl := List.getLast?_eq_none_iff.mp htrail_last
    exact ⟨lead, List.append_nil _, hlead⟩
  | some c =>
    have hc : c ∈ t.getLast? := by
      rw [heq, List.getLast?_append, List.getLast?_append, htrail_last]
      rfl
    exact absurd (htrail c (List.mem_of_getLast? htrail_last)) (hlast c hc)

/-! ### Flaws -/

/-- The flaws of a text, from its digits and its unit. -/
theorem Flaw.of_parts (f : Flaw t e) (h : Leads Char.isDigit t digits rest)
    (hname : Trims rest name) :
    e = .empty ∧ t = [] ∨ e = .noValue t ∧ digits = [] ∨
      e = .valueTooLarge t ∧ 2 ^ 64 ≤ Decimal.byPlaces digits ∨
      e = .unknownUnit name ∧ name ∉ milliNames ∧ name ∉ secondUnits.map Prod.fst ∨
      e = .tooLarge t ∧ ∃ k, (name, k) ∈ secondUnits ∧ 2 ^ 64 ≤ Decimal.byPlaces digits * k := by
  cases f with
  | empty ht => exact .inl ⟨rfl, ht⟩
  | noValue hhead =>
    refine .inr (.inl ⟨rfl, ?_⟩)
    cases digits with
    | nil => rfl
    | cons c digits =>
      exact absurd (h.run c List.mem_cons_self) (hhead c (by rw [h.eq]; rfl))
  | valueTooLarge h' hv =>
    rw [← h'.takeWhile_eq, h.takeWhile_eq] at hv
    exact .inr (.inr (.inl ⟨rfl, hv⟩))
  | unknownUnit h' hname' hmillis hseconds =>
    rw [← h'.dropWhile_eq, h.dropWhile_eq] at hname'
    obtain rfl := hname'.trim_eq.symm.trans hname.trim_eq
    exact .inr (.inr (.inr (.inl ⟨rfl, hmillis, hseconds⟩)))
  | tooLarge h' hname' hunit hv =>
    rw [← h'.dropWhile_eq, h.dropWhile_eq] at hname'
    obtain rfl := hname'.trim_eq.symm.trans hname.trim_eq
    rw [← h'.takeWhile_eq, h.takeWhile_eq] at hv
    exact .inr (.inr (.inr (.inr ⟨rfl, _, hunit, hv⟩)))

theorem ne_nil_of_large (hv : 2 ^ 64 ≤ Decimal.byPlaces digits) : digits ≠ [] := by
  rintro rfl
  exact absurd hv (by decide)

/-- A text that stands for a duration has no flaw. -/
theorem Denotes.not_flaw (h : Denotes t d) : ¬ Flaw t e := by
  intro f
  obtain ⟨digits, rest, name, v, hlead, hname, hv, hunit⟩ := h.parts
  obtain ⟨-, rfl⟩ | ⟨-, hd⟩ | ⟨-, hlarge⟩ | ⟨-, hmillis, hseconds⟩ | ⟨-, k, hk, hlarge⟩ :=
    f.of_parts hlead hname
  · exact hv.ne_nil (List.append_eq_nil_iff.mp hlead.eq.symm).1
  · exact hv.ne_nil hd
  · exact absurd hv.lt (by rw [← hv.value_eq]; omega)
  · obtain ⟨hm, -⟩ | ⟨k, hk, -⟩ := hunit
    · exact hmillis hm
    · exact hseconds (List.mem_map_of_mem hk)
  · obtain ⟨hm, -⟩ | ⟨k', hk', hfit, -⟩ := hunit
    · exact not_milli_of_second hk hm
    · obtain rfl := secondUnits_unique hk hk'
      rw [hv.value_eq] at hlarge
      omega

/-- No two flaws of a text come at the same place. -/
theorem Flaw.eq_of_rank (f : Flaw t e) (f' : Flaw t e') (hrank : e.rank = e'.rank) : e = e' := by
  have hlead := Text.leads_takeWhile Char.isDigit t
  have hname := Text.trims_trim (t.dropWhile Char.isDigit)
  obtain ⟨rfl, -⟩ | ⟨rfl, hd⟩ | ⟨rfl, hv⟩ | ⟨rfl, -⟩ | ⟨rfl, -⟩ := f.of_parts hlead hname <;>
    obtain ⟨rfl, -⟩ | ⟨rfl, hd'⟩ | ⟨rfl, hv'⟩ | ⟨rfl, -⟩ | ⟨rfl, -⟩ := f'.of_parts hlead hname <;>
    first
      | rfl
      -- The two flaws of a value have one place, but without digits the value is zero.
      | exact absurd hd (ne_nil_of_large hv')
      | exact absurd hd' (ne_nil_of_large hv)
      | exact absurd hrank (by simp [ParseError.rank])

/-- The flaw of a text that comes before all its others. -/
def FirstFlaw (t : List Char) (e : ParseError) : Prop :=
  Flaw t e ∧ ∀ e', Flaw t e' → e.rank ≤ e'.rank

theorem FirstFlaw.unique (h : FirstFlaw t e) (h' : FirstFlaw t e') : e = e' :=
  h.1.eq_of_rank h'.1 (le_antisymm (h.2 e' h'.1) (h'.2 e h.1))

section Rank

variable (f : Flaw t e) (ht : t ≠ [])

include f ht

theorem Flaw.one_le_rank : 1 ≤ e.rank := by
  cases f with
  | empty h => exact absurd h ht
  | _ => simp [ParseError.rank]

variable (h : Leads Char.isDigit t digits rest) (hname : Trims rest name)
  (hd : digits ≠ []) (hv : Decimal.byPlaces digits < 2 ^ 64)

include h hname hd hv

theorem Flaw.two_le_rank : 2 ≤ e.rank := by
  obtain ⟨-, h⟩ | ⟨-, h⟩ | ⟨-, h⟩ | ⟨rfl, -⟩ | ⟨rfl, -⟩ := f.of_parts h hname
  · exact absurd h ht
  · exact absurd h hd
  · omega
  · exact le_rfl
  · exact Nat.le_succ 2

theorem Flaw.three_le_rank (hunit : name ∈ milliNames ++ secondUnits.map Prod.fst) :
    3 ≤ e.rank := by
  obtain ⟨-, h⟩ | ⟨-, h⟩ | ⟨-, h⟩ | ⟨-, hmillis, hseconds⟩ | ⟨rfl, -⟩ := f.of_parts h hname
  · exact absurd h ht
  · exact absurd h hd
  · omega
  · exact absurd hunit (List.mem_append.not.mpr (not_or.mpr ⟨hmillis, hseconds⟩))
  · exact le_rfl

end Rank

/-! ### Reading -/

/-- Every text without blanks at its ends is read: as a duration that it stands for, or with its
first flaw. -/
theorem parseTrimmed_cases (hlast : ∀ c ∈ t.getLast?, ¬ isBlank c) :
    (∃ d, parseTrimmed t = .ok d ∧ Denotes t d) ∨
      ∃ e, parseTrimmed t = .error e ∧ FirstFlaw t e := by
  obtain ⟨digits, rest, hlead⟩ : ∃ digits rest, Leads Char.isDigit t digits rest :=
    ⟨_, _, Text.leads_takeWhile ..⟩
  obtain ⟨name, hname⟩ : ∃ name, Trims rest name := ⟨_, Text.trims_trim rest⟩
  rw [parseTrimmed_eq hlead hname]
  by_cases ht : t = []
  · exact .inr ⟨_, if_pos ht, .empty ht, fun e' _ => Nat.zero_le _⟩
  rw [if_neg ht]
  by_cases hd : digits = []
  · refine .inr ⟨_, if_pos hd, .noValue ?_, fun e' f => f.one_le_rank ht⟩
    obtain rfl : t = rest := by rw [hlead.eq, hd, List.nil_append]
    exact hlead.rest
  rw [if_neg hd]
  by_cases hv : 2 ^ 64 ≤ Decimal.byPlaces digits
  · exact .inr ⟨_, if_pos hv, .valueTooLarge hlead hv, fun e' f => f.one_le_rank ht⟩
  rw [if_neg hv]
  have hnumeral : Numeral digits (Decimal.byPlaces digits) := ⟨hd, hlead.run, rfl, by omega⟩
  obtain ⟨gap, rfl, hgap⟩ := gap_of_trims hlast hlead.eq hname
  have heq : t = digits ++ gap ++ name := by rw [hlead.eq, List.append_assoc]
  obtain ⟨hunit, hu⟩ | ⟨k, u, hunit, hu, htimes⟩ | ⟨⟨hmillis, hseconds⟩, hu⟩ := ofName?_cases name
  · rw [hu]
    exact .inl ⟨_, rfl, heq ▸ .millis hnumeral hgap hunit⟩
  · simp only [hu, htimes]
    by_cases hfit : Decimal.byPlaces digits * k < 2 ^ 64
    · rw [if_pos hfit]
      exact .inl ⟨_, rfl, heq ▸ .seconds hnumeral hgap hunit hfit⟩
    · rw [if_neg hfit]
      exact .inr ⟨_, rfl, .tooLarge hlead hname hunit (by omega),
        fun e' f => f.three_le_rank ht hlead hname hd (by omega) (mem_second hunit)⟩
  · rw [hu]
    exact .inr ⟨_, rfl, .unknownUnit hlead hname hmillis hseconds,
      fun e' f => f.two_le_rank ht hlead hname hd (by omega)⟩

/-- No text stands for two durations. -/
theorem Denotes.unique {d' : Duration} (h : Denotes t d) (h' : Denotes t d') : d = d' := by
  obtain ⟨digits, rest, name, v, hlead, hname, hv, hunit⟩ := h.parts
  obtain ⟨digits', rest', name', v', hlead', hname', hv', hunit'⟩ := h'.parts
  obtain rfl : digits = digits' := hlead.takeWhile_eq.symm.trans hlead'.takeWhile_eq
  obtain rfl : rest = rest' := hlead.dropWhile_eq.symm.trans hlead'.dropWhile_eq
  obtain rfl : name = name' := hname.trim_eq.symm.trans hname'.trim_eq
  obtain rfl : v = v' := hv.value_eq.symm.trans hv'.value_eq
  obtain ⟨hm, rfl⟩ | ⟨k, hk, -, rfl⟩ := hunit <;>
    obtain ⟨hm', rfl⟩ | ⟨k', hk', -, rfl⟩ := hunit'
  · rfl
  · exact absurd hm (not_milli_of_second hk')
  · exact absurd hm' (not_milli_of_second hk)
  · rw [secondUnits_unique hk hk']

/-- A text is a duration exactly when, without the blanks around it, it stands for one. A text that
is none is reported with its first flaw. -/
theorem parse_iff (s : String) :
    (∀ d, parse s = .ok d ↔ ∃ t, Trims s.toList t ∧ Denotes t d) ∧
      ∀ e, parse s = .error e ↔ ∃ t, Trims s.toList t ∧ FirstFlaw t e := by
  have htrims := Text.trims_trim s.toList
  have hunique : ∀ {t}, Trims s.toList t → t = Text.trim s.toList := fun h => h.trim_eq.symm
  obtain ⟨d, hparse, hd⟩ | ⟨e, hparse, he⟩ := parseTrimmed_cases htrims.last <;> rw [parse, hparse]
  · refine ⟨fun d' => ⟨?_, ?_⟩, fun e => ⟨nofun, ?_⟩⟩
    · rintro ⟨⟩
      exact ⟨_, htrims, hd⟩
    · rintro ⟨t, ht, hd'⟩
      obtain rfl := hunique ht
      rw [hd.unique hd']
    · rintro ⟨t, ht, he⟩
      obtain rfl := hunique ht
      exact absurd he.1 hd.not_flaw
  · refine ⟨fun d => ⟨nofun, ?_⟩, fun e' => ⟨?_, ?_⟩⟩
    · rintro ⟨t, ht, hd⟩
      obtain rfl := hunique ht
      exact absurd he.1 hd.not_flaw
    · rintro ⟨⟩
      exact ⟨_, htrims, he⟩
    · rintro ⟨t, ht, he'⟩
      obtain rfl := hunique ht
      rw [he.unique he']

end Duration

end ChainNode
