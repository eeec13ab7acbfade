import ChainNode.Proofs.Sync.JobBoard
import ChainNode.Proofs.Sync.Runs

/-!
# The target of a download

A download has at most one target at a time. `Targets.Beside` says that some targets are others but
for one beside them, and the download's own target is the one beside all the time: it is registered for
a block that was no target, is exchanged for another such one, and can be marked like all others in
between. When it is taken back, the others are left as they would be without it. All that happens to
the targets besides the worker's own doing is that a queue marks one (`Node.targets_meanwhile`).
-/

namespace ChainNode

/-! ## A target beside others -/

/-- Some targets are others, but for one that may be registered beside them. -/
structure Targets.Beside (base : Targets) (registered : Option Hash) (ts : Targets) : Prop where
  other : ∀ h, registered ≠ some h → ts[h]? = base[h]?
  fresh : ∀ h, registered = some h → h ∉ base

namespace Targets

variable {base ts : Targets} {registered : Option Hash} {hash : Hash}

theorem getElem?_mark (ts : Targets) (hash h : Hash) (attached : Bool) :
    (ts.mark hash attached).2[h]? = if hash = h ∧ h ∈ ts then some attached else ts[h]? := by
  rw [mark]
  split
  case isTrue hmem =>
    rw [Std.ExtTreeMap.getElem?_insert]
    by_cases he : hash = h
    · subst he
      simp [hmem]
    · simp [he]
  case isFalse hmem =>
    rw [if_neg]
    rintro ⟨rfl, hmem'⟩
    exact hmem hmem'

theorem beside_none (ts : Targets) : ts.Beside none ts := ⟨fun _ _ => rfl, nofun⟩

namespace Beside

theorem mem_iff_of_ne (h : base.Beside registered ts) (hne : registered ≠ some hash) :
    hash ∈ ts ↔ hash ∈ base := by
  rw [Std.ExtTreeMap.mem_iff_isSome_getElem?, Std.ExtTreeMap.mem_iff_isSome_getElem?,
    h.other hash hne]

theorem mem_iff (h : base.Beside registered ts) (hmem : ∀ k, registered = some k → k ∈ ts) :
    hash ∈ ts ↔ hash ∈ base ∨ registered = some hash := by
  by_cases hr : registered = some hash
  · simp [hr, hmem hash hr]
  · simp [hr, h.mem_iff_of_ne hr]

/-- Marking a target marks the same one, unless it is the one beside. -/
theorem mark (h : base.Beside registered ts) (hash : Hash) (attached : Bool) :
    (base.mark hash attached).2.Beside registered (ts.mark hash attached).2 where
  other k hk := by simp only [getElem?_mark, h.other k hk, h.mem_iff_of_ne hk]
  fresh k hk := by
    rw [mem_mark]
    exact h.fresh k hk

/-- Without the one that is registered, the others are left. -/
theorem eq_base (h : base.Beside none ts) : ts = base :=
  Std.ExtTreeMap.ext_getElem? fun {k} => h.other k nofun

theorem erase (h : base.Beside (some hash) ts) : ts.erase hash = base := by
  apply Std.ExtTreeMap.ext_getElem?
  intro k
  rw [Std.ExtTreeMap.getElem?_erase]
  split
  case isTrue he =>
    obtain rfl := Std.LawfulEqOrd.compare_eq_iff_eq.mp he
    exact (Std.ExtTreeMap.getElem?_eq_none (h.fresh hash rfl)).symm
  case isFalse hne => exact h.other k fun he => hne (by simpa using he)

end Beside

end Targets

namespace Node

variable {χ κ : Type} {n m : Node χ} {base : Targets} {previous : Option Hash} {target : Hash}

/-- A new target that is registered in place of the one beside is the one beside. -/
theorem beside_registerTarget (h : base.Beside previous n.board.targets) (hnew : target ∉ base) :
    base.Beside (some target) (n.registerTarget previous target).board.targets where
  other k hk := by
    have hne : target ≠ k := fun he => hk (by rw [he])
    cases previous with
    | none =>
      rw [registerTarget, targets_setTargets, Std.ExtTreeMap.getElem?_insert,
        if_neg (by simpa using hne), h.other k nofun]
    | some p =>
      rw [registerTarget, targets_setTargets, Std.ExtTreeMap.getElem?_erase]
      split
      case isTrue he =>
        obtain rfl := Std.LawfulEqOrd.compare_eq_iff_eq.mp he
        exact (Std.ExtTreeMap.getElem?_eq_none (h.fresh p rfl)).symm
      case isFalse hp =>
        have hpk : some p ≠ some k := fun he => hp (by simpa using he)
        rw [Std.ExtTreeMap.getElem?_insert, if_neg (by simpa using hne), h.other k hpk]
  fresh k hk := Option.some.inj hk ▸ hnew

/-- A target that is registered in place of another one is a target. -/
theorem mem_registerTarget (hne : previous ≠ some target) :
    target ∈ (n.registerTarget previous target).board.targets := by
  cases previous with
  | none => simp [registerTarget]
  | some p =>
    have hp : p ≠ target := fun he => hne (by rw [he])
    simp [registerTarget, hp]

/-- A target that is taken back leaves the others as they are. -/
theorem targets_withdrawTarget {registered : Option Hash}
    (h : base.Beside registered n.board.targets) :
    (n.withdrawTarget registered).board.targets = base := by
  cases registered with
  | none => exact h.eq_base
  | some p => exact h.erase

@[simp] theorem store_withdrawTarget (n : Node χ) (registered : Option Hash) :
    (n.withdrawTarget registered).board.store = n.board.store := by
  cases registered <;> rfl

@[simp] theorem pipeline_withdrawTarget (n : Node χ) (registered : Option Hash) :
    (n.withdrawTarget registered).pipeline = n.pipeline := by
  cases registered <;> rfl

/-! ## Meanwhile -/

/-- An event is a step of the worker. -/
def Event.ofWorker : Event κ → Bool
  | call | callStep | answerCall _ => true
  | _ => false

section Meanwhile
variable [ChainService χ]

theorem targets_intakes (h : n.Intakes m) : m.board.targets = n.board.targets := by
  refine h.keep (P := fun k => k.board.targets = n.board.targets) ?_ rfl
  intro a b hab ha
  cases hab with
  | job target batch peer => rw [enqueueJob, JobBoard.targets_enqueue, ha]
  | wait | post | announcements | fetch | attach | heads | lookUp => exact ha

/-- All that is done to the targets besides the worker's own doing is that a queue marks one. -/
theorem targets_meanwhile {act : κ → χ → χ} {e : Event κ} (he : e.ofWorker = false)
    (h : step act n e = some m) :
    m.board.targets = n.board.targets ∨
      ∃ q hash, e = .queue q ∧ m.board.targets = (n.board.targets.mark hash true).2 := by
  cases happens_of_step h with
  | intake _ hm => exact .inl (targets_intakes hm)
  | fetched _ hk =>
    left
    rw [targets_intakes hk]
  | @queue q _ hm =>
    obtain ⟨-, -, c, hboard⟩ := queueStep_frame hm
    rw [hboard]
    match c with
    | none | some (.note _) => exact .inl rfl
    | some (.markTarget hash) => exact .inr ⟨q, hash, rfl, rfl⟩
  | call | callStep | answerCall => cases he
  | chain => exact .inl rfl

end Meanwhile

end Node

end ChainNode
