import ChainNode.Proofs.Partition.Joins
import Mathlib.Data.Setoid.Basic

/-!
# A forest is a partition

Calls on a forest that starts without nodes are logged with their answers. The log alone tells which
nodes there are (`Forest.Known`) and which belong together: those that the pairs of the successful
unions connect (`Forest.Related`). The roots of the forest say the same after every call
(`Forest.Represents`), so each answer is the one that the log calls for (`Forest.answers_eq_closure`).
-/

namespace ChainNode

/-- A call on a forest. -/
inductive ForestCall
  | make
  | find (x : Nat)
  | union (a b : Nat)
  | same (a b : Nat)
  deriving DecidableEq, Repr

/-- The nodes that a call is given, in order. -/
def ForestCall.arguments : ForestCall → List Nat
  | make => []
  | find x => [x]
  | union a b | same a b => [a, b]

/-- What a call answers if it knows its arguments. -/
inductive ForestReply
  /-- The new node, or a root. -/
  | node (x : Nat)
  /-- Whether two sets were joined, or two nodes are in one set. -/
  | flag (yes : Bool)
  deriving DecidableEq, Repr

/-- The answer to a call. -/
abbrev ForestAnswer := Except UnknownNode ForestReply

/-- Calls with their answers, the first one first. -/
abbrev ForestLog := List (ForestCall × ForestAnswer)

namespace ForestLog

/-- A node was handed out. -/
def Known (log : ForestLog) (x : Nat) : Prop := (.make, .ok (.node x)) ∈ log

instance (log : ForestLog) (x : Nat) : Decidable (log.Known x) :=
  inferInstanceAs (Decidable (_ ∈ _))

/-- The pair of a union that went well. -/
def joinedPair? : ForestCall × ForestAnswer → Option (Nat × Nat)
  | (.union a b, .ok _) => some (a, b)
  | _ => none

/-- The pairs of the unions that went well. -/
def joined (log : ForestLog) : List (Nat × Nat) := log.filterMap joinedPair?

/-- Two nodes are connected by the unions that went well. -/
def Related (log : ForestLog) : Nat → Nat → Prop := Relation.EqvGen fun a b => (a, b) ∈ log.joined

/-- The first argument of a call that is no node. -/
def firstUnknown? (log : ForestLog) (call : ForestCall) : Option Nat :=
  call.arguments.find? fun x => !log.Known x

/-! ### One more call -/

section Concat
variable (log : ForestLog) (entry : ForestCall × ForestAnswer)

theorem known_concat (x : Nat) :
    (log ++ [entry]).Known x ↔ log.Known x ∨ entry = (.make, .ok (.node x)) := by
  rw [Known, List.mem_append, List.mem_singleton, eq_comm (a := entry)]
  rfl

theorem related_concat :
    (log ++ [entry]).Related =
      Relation.EqvGen fun x y => (x, y) ∈ log.joined ∨ joinedPair? entry = some (x, y) := by
  unfold Related joined
  congr 1
  funext x y
  rw [List.filterMap_append, List.mem_append]
  simp

/-- The closure may be taken union by union. -/
theorem related_concat_union (a b : Nat) (reply : ForestReply) :
    Related (log ++ [(.union a b, .ok reply)]) =
      Relation.EqvGen fun x y => log.Related x y ∨ x = a ∧ y = b := by
  rw [related_concat]
  apply le_antisymm
  · apply Relation.EqvGen.mono
    rintro x y (hxy | hxy)
    · exact .inl (.rel x y hxy)
    · cases hxy
      exact .inr ⟨rfl, rfl⟩
  · apply Relation.EqvGen.eqvGen_le
    rintro x y (hxy | ⟨rfl, rfl⟩)
    · exact Relation.EqvGen.mono (fun _ _ => .inl) x y hxy
    · exact .rel x y (.inr rfl)

end Concat

end ForestLog

namespace Forest

/-- The answer to a call, and what it leaves. -/
def perform (f : Forest) : ForestCall → ForestAnswer × Forest
  | .make => (.ok (.node f.make.1), f.make.2)
  | .find x => match f.find x with
    | .ok (r, f) => (.ok (.node r), f)
    | .error e => (.error e, f)
  | .union a b => (f.union a b).map (Except.map .flag) id
  | .same a b => (f.same a b).map (Except.map .flag) id

/-- Calls one after the other: what is logged, and what they leave. -/
def performAll (f : Forest) : List ForestCall → ForestLog × Forest
  | [] => ([], f)
  | call :: rest =>
    let (answer, f) := f.perform call
    let (log, f) := f.performAll rest
    ((call, answer) :: log, f)

/-- The forest answers that two nodes are in one set. -/
def Together (f : Forest) (a b : Nat) : Prop := (f.perform (.same a b)).1 = .ok (.flag true)

/-! ## What a call does -/

section Perform
variable {f : Forest}

/-- The first node of a call that a forest does not have. -/
def foreign? (f : Forest) (call : ForestCall) : Option Nat :=
  call.arguments.find? fun x => f.size ≤ x

theorem find_of_size_le {x : Nat} (hx : f.size ≤ x) : f.find x = .error ⟨x⟩ := by
  rw [find, if_neg (Nat.not_lt.mpr hx)]

/-- A search for a pair stops at the first node that is not there. -/
theorem foreign?_pair {a b x : Nat} (h : [a, b].find? (fun y => f.size ≤ y) = some x) :
    f.size ≤ a ∧ x = a ∨ a < f.size ∧ f.size ≤ b ∧ x = b := by
  simp only [List.find?_cons, List.find?_nil] at h
  grind

/-- Two searches, one after the other. -/
theorem Valid.find_pair (h : f.Valid) {a b : Nat} (ha : a < f.size) (hb : b < f.size) :
    ∃ g k, f.find a = .ok (f.root a, g) ∧ g.find b = .ok (f.root b, k) ∧ f.Compressed k := by
  obtain ⟨g, hfind, hg⟩ := h.find_eq ha
  obtain ⟨k, hfind', hk⟩ := hg.valid.find_eq (hg.size_eq ▸ hb)
  exact ⟨g, k, hfind, hg.root_eq b ▸ hfind', hg.trans hk⟩

/-- Of two searches the first one fails, or the second one after it. -/
theorem Valid.find_pair_of_foreign (h : f.Valid) {a b x : Nat}
    (hx : [a, b].find? (fun y => f.size ≤ y) = some x) :
    f.find a = .error ⟨x⟩ ∨
      ∃ g, f.find a = .ok (f.root a, g) ∧ g.find b = .error ⟨x⟩ ∧ f.Compressed g := by
  obtain ⟨ha, rfl⟩ | ⟨ha, hb, rfl⟩ := foreign?_pair hx
  · exact .inl (find_of_size_le ha)
  · obtain ⟨g, hfind, hg⟩ := h.find_eq ha
    exact .inr ⟨g, hfind, find_of_size_le (hg.size_eq ▸ hb), hg⟩

/-- A call with a node of another forest fails with the first such node, and has at most searched. -/
theorem Valid.perform_of_foreign (h : f.Valid) {call : ForestCall} {x : Nat}
    (hx : f.foreign? call = some x) : ∃ g, f.Compressed g ∧ f.perform call = (.error ⟨x⟩, g) := by
  cases call with
  | make => cases hx
  | find y =>
    obtain ⟨hy, rfl⟩ : f.size ≤ y ∧ x = y := by
      simp only [foreign?, ForestCall.arguments, List.find?_cons, List.find?_nil] at hx
      grind
    refine ⟨f, .refl h, ?_⟩
    rw [perform, find_of_size_le hy]
  | union a b =>
    obtain hfirst | ⟨g, hfirst, hsecond, hg⟩ := h.find_pair_of_foreign hx
    · refine ⟨f, .refl h, ?_⟩
      simp only [perform, union, hfirst]
      rfl
    · refine ⟨g, hg, ?_⟩
      simp only [perform, union, hfirst, hsecond]
      rfl
  | same a b =>
    obtain hfirst | ⟨g, hfirst, hsecond, hg⟩ := h.find_pair_of_foreign hx
    · refine ⟨f, .refl h, ?_⟩
      simp only [perform, same, hfirst]
      rfl
    · refine ⟨g, hg, ?_⟩
      simp only [perform, same, hfirst, hsecond]
      rfl

theorem Valid.perform_find (h : f.Valid) {x : Nat} (hx : x < f.size) :
    ∃ g, f.Compressed g ∧ f.perform (.find x) = (.ok (.node (f.root x)), g) := by
  obtain ⟨g, hfind, hg⟩ := h.find_eq hx
  refine ⟨g, hg, ?_⟩
  simp only [perform, hfind]

theorem Valid.perform_same (h : f.Valid) {a b : Nat} (ha : a < f.size) (hb : b < f.size) :
    ∃ g, f.Compressed g ∧ f.perform (.same a b) = (.ok (.flag (f.root a == f.root b)), g) := by
  obtain ⟨g, k, hfirst, hsecond, hk⟩ := h.find_pair ha hb
  refine ⟨k, hk, ?_⟩
  simp only [perform, same, hfirst, hsecond]
  rfl

theorem Valid.perform_union (h : f.Valid) {a b : Nat} (ha : a < f.size) (hb : b < f.size) :
    f.perform (.union a b) = (.ok (.flag (f.root a != f.root b)), (f.union a b).2) := by
  obtain ⟨g, k, hfirst, hsecond, -⟩ := h.find_pair ha hb
  simp only [perform, union, hfirst, hsecond]
  by_cases hab : f.root a = f.root b
  · simp [hab, Except.map]
  · simp [hab, Except.map]

/-- How a call goes: it fails with the first node that the forest does not have, or answers by the
roots. Only `make` and a union do more than search. -/
inductive Performed (f : Forest) : ForestCall → ForestAnswer × Forest → Prop
  | failed {call : ForestCall} {x : Nat} {g : Forest} (hforeign : f.foreign? call = some x)
    (hg : f.Compressed g) : Performed f call (.error ⟨x⟩, g)
  | make : Performed f .make (.ok (.node f.size), f.make.2)
  | find {x : Nat} {g : Forest} (hx : x < f.size) (hg : f.Compressed g) :
    Performed f (.find x) (.ok (.node (f.root x)), g)
  | union {a b : Nat} (ha : a < f.size) (hb : b < f.size) :
    Performed f (.union a b) (.ok (.flag (f.root a != f.root b)), (f.union a b).2)
  | same {a b : Nat} {g : Forest} (ha : a < f.size) (hb : b < f.size) (hg : f.Compressed g) :
    Performed f (.same a b) (.ok (.flag (f.root a == f.root b)), g)

theorem Valid.performed (h : f.Valid) (call : ForestCall) : f.Performed call (f.perform call) := by
  cases hforeign : f.foreign? call with
  | some x =>
    obtain ⟨g, hg, heq⟩ := h.perform_of_foreign hforeign
    exact heq ▸ .failed hforeign hg
  | none =>
    have hmem : ∀ x ∈ call.arguments, x < f.size := by simpa [foreign?] using hforeign
    cases call with
    | make => exact .make
    | find x =>
      have hx : x < f.size := hmem x List.mem_cons_self
      obtain ⟨g, hg, heq⟩ := h.perform_find hx
      exact heq ▸ .find hx hg
    | union a b =>
      obtain ⟨ha, hb⟩ : a < f.size ∧ b < f.size := by simpa [ForestCall.arguments] using hmem
      exact h.perform_union ha hb ▸ .union ha hb
    | same a b =>
      obtain ⟨ha, hb⟩ : a < f.size ∧ b < f.size := by simpa [ForestCall.arguments] using hmem
      obtain ⟨g, hg, heq⟩ := h.perform_same ha hb
      exact heq ▸ .same ha hb hg

end Perform

/-! ## Forest and log -/

/-- What pairs agree on, their closure agrees on. -/
theorem eq_of_eqvGen {r : Nat → Nat → Prop} {ρ : Nat → Nat} (h : ∀ x y, r x y → ρ x = ρ y)
    {x y : Nat} (hxy : Relation.EqvGen r x y) : ρ x = ρ y :=
  Setoid.eqvGen_le (s := Setoid.ker ρ) h hxy

/-- The roots of a forest say what a log says. -/
structure Represents (f : Forest) (log : ForestLog) : Prop where
  valid : f.Valid
  known_iff : ∀ x, log.Known x ↔ x < f.size
  related_iff : ∀ x y, log.Related x y ↔ f.root x = f.root y

theorem represents_empty : empty.Represents [] where
  valid := valid_empty
  known_iff x := by simp [ForestLog.Known, empty, size]
  related_iff x y := by
    have hroot (x : Nat) : empty.root x = x :=
      root_of_parent_eq (parent_of_size_le (Nat.zero_le x))
    rw [hroot, hroot]
    constructor
    · exact eq_of_eqvGen (ρ := fun x => x) fun x y hxy => absurd hxy List.not_mem_nil
    · rintro rfl
      exact .refl x

namespace Represents
variable {f g : Forest} {log : ForestLog} {call : ForestCall} {answer : ForestAnswer}

theorem foreign?_eq (h : f.Represents log) (call : ForestCall) :
    f.foreign? call = log.firstUnknown? call := by
  simp only [foreign?, ForestLog.firstUnknown?, h.known_iff, ← Nat.not_lt, decide_not]

/-- A search says nothing new. -/
theorem compressed (h : f.Represents log) (hg : f.Compressed g) : g.Represents log where
  valid := hg.valid
  known_iff x := by rw [h.known_iff, hg.size_eq]
  related_iff x y := by rw [h.related_iff, hg.root_eq, hg.root_eq]

/-- An entry that neither hands out a node nor joins two says nothing new. -/
theorem concat (h : f.Represents log) (hmake : call ≠ .make)
    (hjoin : ForestLog.joinedPair? (call, answer) = none) :
    f.Represents (log ++ [(call, answer)]) where
  valid := h.valid
  known_iff x := by
    rw [ForestLog.known_concat, ← h.known_iff]
    simp [hmake]
  related_iff x y := by
    rw [ForestLog.related_concat, ← h.related_iff, hjoin]
    simp [ForestLog.Related]

theorem make (h : f.Represents log) :
    f.make.2.Represents (log ++ [(.make, .ok (.node f.size))]) where
  valid := h.valid.make
  known_iff x := by
    rw [ForestLog.known_concat, h.known_iff, size_make]
    simp only [Prod.mk.injEq, Except.ok.injEq, ForestReply.node.injEq, true_and]
    omega
  related_iff x y := by
    rw [ForestLog.related_concat, h.valid.root_make, h.valid.root_make, ← h.related_iff]
    simp [ForestLog.Related, ForestLog.joinedPair?]

/-- What a union relates is the closure of what was related and the new pair. -/
theorem eqvGen_union_iff (h : f.Represents log) {a b : Nat} (ha : a < f.size) (hb : b < f.size)
    (x y : Nat) :
    Relation.EqvGen (fun u v => log.Related u v ∨ u = a ∧ v = b) x y ↔
      (f.union a b).2.root x = (f.union a b).2.root y := by
  obtain ⟨-, -, hroot⟩ := h.valid.union_spec ha hb
  constructor
  · refine eq_of_eqvGen fun x y hxy => (hroot x y).mpr ?_
    rcases hxy with hxy | ⟨rfl, rfl⟩
    · exact .inl ((h.related_iff x y).mp hxy)
    · exact .inr (.inl ⟨rfl, rfl⟩)
  · intro hxy
    have old {u v : Nat} (huv : f.root u = f.root v) :
        Relation.EqvGen (fun u v => log.Related u v ∨ u = a ∧ v = b) u v :=
      .rel u v (.inl ((h.related_iff u v).mpr huv))
    have new : Relation.EqvGen (fun u v => log.Related u v ∨ u = a ∧ v = b) a b :=
      .rel a b (.inr ⟨rfl, rfl⟩)
    obtain hxy | ⟨hxa, hyb⟩ | ⟨hxb, hya⟩ := (hroot x y).mp hxy
    · exact old hxy
    · exact ((old hxa).trans _ _ _ new).trans _ _ _ (old hyb.symm)
    · exact ((old hxb).trans _ _ _ (new.symm _ _)).trans _ _ _ (old hya.symm)

theorem union (h : f.Represents log) {a b : Nat} (ha : a < f.size) (hb : b < f.size)
    (reply : ForestReply) :
    (f.union a b).2.Represents (log ++ [(.union a b, .ok reply)]) where
  valid := (h.valid.union_spec ha hb).1
  known_iff x := by
    rw [ForestLog.known_concat, h.known_iff, (h.valid.union_spec ha hb).2.1]
    simp
  related_iff x y := by
    rw [← h.eqvGen_union_iff ha hb, ForestLog.related_concat_union]

/-- Forest and log go on together. -/
theorem perform (h : f.Represents log) (call : ForestCall) :
    (f.perform call).2.Represents (log ++ [(call, (f.perform call).1)]) := by
  have hperformed := h.valid.performed call
  generalize f.perform call = result at hperformed ⊢
  cases hperformed with
  | @failed _ x g hforeign hg =>
    have hmake : call ≠ .make := by
      rintro rfl
      cases hforeign
    exact (h.compressed hg).concat hmake (by cases call <;> rfl)
  | make => exact h.make
  | find hx hg => exact (h.compressed hg).concat nofun rfl
  | union ha hb => exact h.union ha hb _
  | same ha hb hg => exact (h.compressed hg).concat nofun rfl

theorem performAll (h : f.Represents log) (calls : List ForestCall) :
    (f.performAll calls).2.Represents (log ++ (f.performAll calls).1) := by
  induction calls generalizing f log with
  | nil => simpa [Forest.performAll] using h
  | cons call rest ih =>
    have hrest := ih (h.perform call)
    rwa [List.append_assoc] at hrest

/-- A call fails exactly when it is given a node that was not handed out. -/
theorem perform_eq_error_iff (h : f.Represents log) (call : ForestCall) (e : UnknownNode) :
    (f.perform call).1 = .error e ↔ log.firstUnknown? call = some e.node := by
  rw [← h.foreign?_eq]
  have hperformed := h.valid.performed call
  generalize f.perform call = result at hperformed ⊢
  cases hperformed with
  | failed hforeign hg =>
    rw [hforeign]
    cases e
    simp
  | make => simp [foreign?, ForestCall.arguments]
  | find hx hg => simp [foreign?, ForestCall.arguments, hx]
  | union ha hb => simp [foreign?, ForestCall.arguments, ha, hb]
  | same ha hb hg => simp [foreign?, ForestCall.arguments, ha, hb]

/-- Two nodes are answered to be together when the log relates them. -/
theorem together_iff (h : f.Represents log) (a b : Nat) :
    f.Together a b ↔ log.Known a ∧ log.Known b ∧ log.Related a b := by
  rw [h.known_iff, h.known_iff, h.related_iff, Together]
  have hperformed := h.valid.performed (.same a b)
  generalize f.perform (.same a b) = result at hperformed ⊢
  cases hperformed with
  | failed hforeign hg =>
    have hab := foreign?_pair hforeign
    simp only [reduceCtorEq, false_iff]
    omega
  | same ha hb hg => simp [ha, hb]

/-- A union answers that it joined something when the log does not relate the two nodes yet. -/
theorem union_iff (h : f.Represents log) (a b : Nat) :
    (f.perform (.union a b)).1 = .ok (.flag true) ↔
      log.Known a ∧ log.Known b ∧ ¬ log.Related a b := by
  rw [h.known_iff, h.known_iff, h.related_iff]
  have hperformed := h.valid.performed (.union a b)
  generalize f.perform (.union a b) = result at hperformed ⊢
  cases hperformed with
  | failed hforeign hg =>
    have hab := foreign?_pair hforeign
    simp only [reduceCtorEq, false_iff]
    omega
  | union ha hb => simp [ha, hb]

/-- A union relates what the new pair connects, and nothing else. -/
theorem together_union_iff (h : f.Represents log) {a b : Nat} (ha : log.Known a)
    (hb : log.Known b) (x y : Nat) :
    (f.perform (.union a b)).2.Together x y ↔ log.Known x ∧ log.Known y ∧
      Relation.EqvGen (fun u v => log.Related u v ∨ u = a ∧ v = b) x y := by
  rw [h.known_iff] at ha hb
  have hafter := h.perform (.union a b)
  rw [h.valid.perform_union ha hb] at hafter ⊢
  rw [hafter.together_iff, ForestLog.known_concat, ForestLog.known_concat,
    ForestLog.related_concat_union]
  simp

/-- Two searches answer the same root when the log relates their nodes. -/
theorem find_find (h : f.Represents log) {a b : Nat} (ha : log.Known a) (hb : log.Known b) :
    ∃ r s, (f.performAll [.find a, .find b]).1 =
        [(.find a, .ok (.node r)), (.find b, .ok (.node s))] ∧
      (r = s ↔ log.Related a b) := by
  rw [h.known_iff] at ha hb
  obtain ⟨g, k, hfirst, hsecond, -⟩ := h.valid.find_pair ha hb
  refine ⟨f.root a, f.root b, ?_, (h.related_iff a b).symm⟩
  simp only [Forest.performAll, Forest.perform, hfirst, hsecond]

/-- A call that fails leaves together what was together, and apart what was apart. -/
theorem together_of_error (h : f.Represents log) {e : UnknownNode}
    (he : (f.perform call).1 = .error e) (x y : Nat) :
    (f.perform call).2.Together x y ↔ f.Together x y := by
  have hperformed := h.valid.performed call
  generalize f.perform call = result at hperformed he ⊢
  cases hperformed with
  | failed hforeign hg => rw [(h.compressed hg).together_iff, h.together_iff]
  | make | find | union | same => cases he

end Represents

/-- **A forest is a partition.** After any calls on a forest that starts without nodes, it answers by
the closure of the pairs joined so far: that two nodes are together when they are related, that a
union joins them when they are not yet, and one root for related nodes only. A union then relates what
its pair connects in addition. A call with a node that was not handed out fails with the first such
node and leaves the partition as it is. -/
theorem answers_eq_closure (calls : List ForestCall) :
    let log := (empty.performAll calls).1
    let f := (empty.performAll calls).2
    (∀ a b, f.Together a b ↔ log.Known a ∧ log.Known b ∧ log.Related a b) ∧
    (∀ a b, (f.perform (.union a b)).1 = .ok (.flag true) ↔
      log.Known a ∧ log.Known b ∧ ¬ log.Related a b) ∧
    (∀ a b, log.Known a → log.Known b → ∀ x y, (f.perform (.union a b)).2.Together x y ↔
      log.Known x ∧ log.Known y ∧
        Relation.EqvGen (fun u v => log.Related u v ∨ u = a ∧ v = b) x y) ∧
    (∀ a b, log.Known a → log.Known b → ∃ r s,
      (f.performAll [.find a, .find b]).1 =
        [(.find a, .ok (.node r)), (.find b, .ok (.node s))] ∧ (r = s ↔ log.Related a b)) ∧
    (∀ call e, (f.perform call).1 = .error e ↔ log.firstUnknown? call = some e.node) ∧
    ∀ call e, (f.perform call).1 = .error e →
      ∀ x y, (f.perform call).2.Together x y ↔ f.Together x y := by
  intro log f
  have h : f.Represents log := represents_empty.performAll calls
  refine ⟨h.together_iff, h.union_iff, ?_, ?_, h.perform_eq_error_iff, ?_⟩
  · exact fun a b ha hb => h.together_union_iff ha hb
  · exact fun a b ha hb => h.find_find ha hb
  · exact fun call e he => h.together_of_error he

/-- Of three nodes the first two are joined, and a union with a node that was not handed out fails.
The first and the third are then unrelated, and joining the second and the third relates them. -/
theorem answers_eq_closure_three :
    let calls : List ForestCall := [.make, .make, .make, .union 0 1, .union 2 7]
    let log := (empty.performAll calls).1
    let f := (empty.performAll calls).2
    log.getLast? = some (.union 2 7, .error ⟨7⟩) ∧ log.firstUnknown? (.union 2 7) = some 7 ∧
      log.Known 1 ∧ log.Known 2 ∧ ¬ log.Related 0 2 ∧
      Relation.EqvGen (fun u v => log.Related u v ∨ u = 1 ∧ v = 2) 0 2 ∧
      ∃ r s, (f.performAll [.find 1, .find 2]).1 =
        [(.find 1, .ok (.node r)), (.find 2, .ok (.node s))] ∧ (r = s ↔ log.Related 1 2) := by
  intro calls log f
  obtain ⟨htogether, -, hunion, hfind, -⟩ := answers_eq_closure calls
  have h0 : log.Known 0 := by decide +kernel
  have h1 : log.Known 1 := by decide +kernel
  have h2 : log.Known 2 := by decide +kernel
  have hapart : ¬ f.Together 0 2 := by
    unfold Together
    decide +kernel
  have hjoined : (f.perform (.union 1 2)).2.Together 0 2 := by
    unfold Together
    decide +kernel
  refine ⟨by decide +kernel, by decide +kernel, h1, h2, ?_, ?_, hfind 1 2 h1 h2⟩
  · exact fun hrelated => hapart ((htogether 0 2).mpr ⟨h0, h2, hrelated⟩)
  · exact ((hunion 1 2 h1 h2 0 2).mp hjoined).2.2

end Forest

end ChainNode
