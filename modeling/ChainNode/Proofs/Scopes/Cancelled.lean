import ChainNode.Proofs.Scopes.Lineage

/-!
# Which contexts are cancelled

Contexts are made and cancelled, one operation after the other. An operation that cancels a context
reaches those in its scope, or all that were derived from the same root (`Reaches`), and a context is
cancelled exactly when some operation so far has reached it
(`ScopeWorld.isCancelled_iff_reached`).
-/

namespace ChainNode

/-- A token is cancelled by those above it. -/
theorem Cancellation.stops_iff (c : Cancellation) (t : Token) :
    c.stops t = true ↔ ∃ u ∈ t.chain, u.id ∈ c.cancelled := by
  induction t with
  | root id => simp [stops, Token.chain, Token.id]
  | child id parent ih => simp [stops, Token.chain, Token.id, ih]

/-- The token that a cancellation of a place is about. -/
def Scope.token (s : Scope) : Cancellation.Reach → Token
  | .ownScope => s.own
  | .wholeTree => s.tree

namespace Sim

/-! ## Operations on contexts -/

/-- An operation on numbered contexts. -/
inductive ScopeOperation
  | newRoot
  | child (i : Nat)
  | clone (i : Nat)
  | cancel (i : Nat) (reach : Cancellation.Reach)
  deriving DecidableEq, Repr

namespace ScopeOperation

/-- The command that carries an operation out. -/
def command : ScopeOperation → ScopeCommand Empty
  | newRoot => .newRoot
  | child i => .child i
  | clone i => .clone i
  | cancel i reach => .cancel i reach

/-- The context that an operation is carried out on. -/
def subject? : ScopeOperation → Option Nat
  | newRoot => none
  | child i | clone i | cancel i _ => some i

/-- How the context was made that an operation makes. -/
def origin? : ScopeOperation → Option Origin
  | newRoot => some .root
  | child i => some (.child i)
  | clone i => some (.clone i)
  | cancel _ _ => none

end ScopeOperation

/-- How the contexts were made, by their numbers. -/
def origins (ops : List ScopeOperation) : List Origin := ops.filterMap ScopeOperation.origin?

/-- A cancellation of one context reaches another one. -/
def Reaches (os : List Origin) (i j : Nat) : Cancellation.Reach → Prop
  | .ownScope => Within os j i
  | .wholeTree => SameTree os j i

/-- Some operation has reached a context. -/
def Reached (ops : List ScopeOperation) (i : Nat) : Prop :=
  ∃ j reach, .cancel j reach ∈ ops ∧ Reaches (origins ops) j i reach

namespace ScopeWorld

/-- The contexts after an operation, if it is carried out on one of them. -/
def perform (w : ScopeWorld) (op : ScopeOperation) : Option ScopeWorld :=
  if op.subject?.all (· < w.contexts.length) then some (w.step op.command).2 else none

/-- The contexts after some operations, one after the other. -/
def performAll (w : ScopeWorld) (ops : List ScopeOperation) : Option ScopeWorld :=
  ops.foldlM perform w

end ScopeWorld

/-! ### Later operations -/

section Append
variable {os os' : List Origin} {ops ops' : List ScopeOperation} {i j : Nat}

theorem Reaches.append {reach : Cancellation.Reach} (h : Reaches os i j reach) :
    Reaches (os ++ os') i j reach := by
  cases reach with
  | ownScope => exact Within.append h
  | wholeTree =>
    obtain ⟨r, hi, hj⟩ := h
    exact ⟨r, hi.append, hj.append⟩

theorem origins_append : origins (ops ++ ops') = origins ops ++ origins ops' := List.filterMap_append

theorem origins_concat (op : ScopeOperation) :
    origins (ops ++ [op]) = origins ops ++ op.origin?.toList := by
  rw [origins_append]
  cases op <;> rfl

/-- What was reached stays reached. -/
theorem Reached.append (h : Reached ops i) : Reached (ops ++ ops') i := by
  obtain ⟨j, reach, hmem, hreaches⟩ := h
  exact ⟨j, reach, List.mem_append_left _ hmem, origins_append ▸ hreaches.append⟩

end Append

/-! ## What is cancelled -/

namespace Laid

variable {os : List Origin} {contexts : List Scope} {fresh i j : Nat} {s u : Scope}

theorem token_mem_chain (h : Laid os contexts fresh) (hi : contexts[i]? = some s)
    (reach : Cancellation.Reach) : s.token reach ∈ s.own.chain := by
  cases reach with
  | ownScope => exact s.own.self_mem_chain
  | wholeTree =>
    have htree : s.token .wholeTree = s.own.top := h.tree_eq_top hi
    exact htree ▸ s.own.top_mem_chain

/-- A cancellation reaches a context exactly when the token it is about stands above the context's
own. -/
theorem reaches_iff (h : Laid os contexts fresh) (hi : contexts[i]? = some s)
    (hj : contexts[j]? = some u) (reach : Cancellation.Reach) :
    Reaches os j i reach ↔ u.token reach ∈ s.own.chain := by
  cases reach with
  | ownScope => exact h.within_iff hi hj
  | wholeTree =>
    have hs : s.tree = s.own.top := h.tree_eq_top hi
    have hu : u.tree = u.own.top := h.tree_eq_top hj
    change SameTree os i j ↔ u.tree ∈ s.own.chain
    rw [h.sameTree_iff hi hj]
    constructor
    · intro htree
      rw [← htree, hs]
      exact s.own.top_mem_chain
    · intro hmem
      rw [hs, ← Token.top_of_mem_chain hmem, hu, Token.top_top]

/-- A place is cancelled, and waits for that are over, exactly when its own token is cancelled. -/
theorem isCancelled_eq (h : Laid os contexts fresh) (hi : contexts[i]? = some s) (c : Cancellation) :
    c.isCancelled s = c.stops s.own ∧ c.endsWait s = c.stops s.own := by
  have htop : c.stops s.tree = true → c.stops s.own = true := by
    rw [h.tree_eq_top hi]
    induction s.own with
    | root id => exact fun h => h
    | child id parent ih =>
      intro hstops
      simp [Cancellation.stops, ih hstops]
  have hor : (c.stops s.tree || c.stops s.own) = c.stops s.own := by
    cases hs : c.stops s.tree with
    | false => rfl
    | true => rw [htop hs]; rfl
  refine ⟨?_, hor⟩
  rw [← hor, Cancellation.isCancelled, Scope.own]
  cases s.part <;> simp

end Laid

/-! ## Contexts and operations -/

namespace ScopeWorld

variable {w w' : ScopeWorld} {ops : List ScopeOperation} {op : ScopeOperation} {i : Nat}

/-- Contexts are as some operations have made them, and what is cancelled is what these cancelled. -/
structure Follows (w : ScopeWorld) (ops : List ScopeOperation) : Prop where
  laid : Laid (origins ops) w.contexts w.cancellation.fresh
  inUse : ∀ j reach, .cancel j reach ∈ ops → j < w.contexts.length
  mem_cancelled : ∀ id, id ∈ w.cancellation.cancelled ↔
    ∃ j reach, .cancel j reach ∈ ops ∧ ((w.context j).token reach).id = id

theorem follows_empty : empty.Follows [] where
  laid := .nil
  inUse := by simp
  mem_cancelled := by simp [empty, Cancellation.empty]

theorem getElem?_context (hi : i < w.contexts.length) : w.contexts[i]? = some (w.context i) := by
  simp [context, hi]

/-- A new context leaves the others as they are. -/
theorem Follows.add (h : w.Follows ops) {o : Origin} (hop : op.origin? = some o) {s : Scope}
    {fresh : Nat} (hlaid : Laid (origins ops ++ [o]) (w.contexts ++ [s]) fresh) :
    (w.add (s, { w.cancellation with fresh := fresh })).Follows (ops ++ [op]) where
  laid := by
    rw [origins_concat, hop]
    exact hlaid
  inUse j reach hmem := by
    have hne : .cancel j reach ≠ op := by
      rintro rfl
      cases hop
    have hlt := h.inUse j reach (by simpa [hne] using hmem)
    simp only [ScopeWorld.add, List.length_append, List.length_singleton]
    omega
  mem_cancelled id := by
    have hne (j : Nat) (reach : Cancellation.Reach) : .cancel j reach ≠ op := by
      rintro rfl
      cases hop
    have hcontext (j : Nat) (hj : j < w.contexts.length) :
        (w.add (s, { w.cancellation with fresh := fresh })).context j = w.context j := by
      simp [context, ScopeWorld.add, List.getElem?_append_left hj]
    refine (h.mem_cancelled id).trans ?_
    constructor
    · rintro ⟨j, reach, hmem, hid⟩
      exact ⟨j, reach, List.mem_append_left _ hmem, hcontext j (h.inUse j reach hmem) ▸ hid⟩
    · rintro ⟨j, reach, hmem, hid⟩
      have hmem' : .cancel j reach ∈ ops := by simpa [hne j reach] using hmem
      exact ⟨j, reach, hmem', hcontext j (h.inUse j reach hmem') ▸ hid⟩

/-- A cancellation leaves the contexts as they are. -/
theorem Follows.cancel (h : w.Follows ops) {k : Nat} (hk : k < w.contexts.length)
    (reach : Cancellation.Reach) : (w.cancel k reach).Follows (ops ++ [.cancel k reach]) where
  laid := by
    rw [origins_concat, ScopeOperation.origin?, Option.toList_none, List.append_nil]
    cases reach <;> exact h.laid
  inUse j r hmem := by
    rcases List.mem_append.mp hmem with hmem | hmem
    · exact h.inUse j r hmem
    · cases List.mem_singleton.mp hmem
      exact hk
  mem_cancelled id := by
    have hcancelled : (w.cancel k reach).cancellation.cancelled =
        ((w.context k).token reach).id :: w.cancellation.cancelled := by
      cases reach <;> rfl
    rw [hcancelled, List.mem_cons, h.mem_cancelled]
    constructor
    · rintro (rfl | ⟨j, r, hmem, hid⟩)
      · exact ⟨k, reach, by simp, rfl⟩
      · exact ⟨j, r, List.mem_append_left _ hmem, hid⟩
    · rintro ⟨j, r, hmem, hid⟩
      rcases List.mem_append.mp hmem with hmem | hmem
      · exact .inr ⟨j, r, hmem, hid⟩
      · cases List.mem_singleton.mp hmem
        exact .inl hid.symm

theorem perform_eq_some_iff : w.perform op = some w' ↔
    (∀ k, op.subject? = some k → k < w.contexts.length) ∧ (w.step op.command).2 = w' := by
  rw [perform]
  cases op.subject? <;> simp

theorem Follows.perform (h : w.Follows ops) (hperform : w.perform op = some w') :
    w'.Follows (ops ++ [op]) := by
  obtain ⟨hsubject, rfl⟩ := perform_eq_some_iff.mp hperform
  cases op with
  | newRoot => exact h.add rfl h.laid.root
  | child k => exact h.add rfl (h.laid.child (getElem?_context (hsubject k rfl)))
  | clone k => exact h.add rfl (h.laid.clone (getElem?_context (hsubject k rfl)))
  | cancel k reach => exact h.cancel (hsubject k rfl) reach

theorem Follows.performAll (h : w.Follows ops) {later : List ScopeOperation}
    (hperform : w.performAll later = some w') : w'.Follows (ops ++ later) := by
  induction later generalizing w ops with
  | nil =>
    rw [List.append_nil]
    exact Option.some.inj hperform ▸ h
  | cons op later ih =>
    rw [ScopeWorld.performAll, List.foldlM_cons] at hperform
    obtain ⟨v, hv, hrest⟩ := Option.bind_eq_some_iff.mp hperform
    have hall := ih (h.perform hv) hrest
    rwa [List.append_assoc] at hall

/-- A context is cancelled, and waits for that are over, exactly when some operation has reached it. -/
theorem Follows.reached_iff (h : w.Follows ops) (hi : i < w.contexts.length) :
    (w.isCancelled i = true ↔ Reached ops i) ∧ (w.endsWait i = true ↔ Reached ops i) := by
  have hs := getElem?_context hi
  have hstops : w.cancellation.stops (w.context i).own = true ↔ Reached ops i := by
    rw [Cancellation.stops_iff]
    constructor
    · rintro ⟨t, ht, hcancelled⟩
      obtain ⟨j, reach, hmem, hid⟩ := (h.mem_cancelled _).mp hcancelled
      have hu := getElem?_context (h.inUse j reach hmem)
      obtain rfl := h.laid.eq_of_mem_chain hu hs (h.laid.token_mem_chain hu reach) ht hid
      exact ⟨j, reach, hmem, (h.laid.reaches_iff hs hu reach).mpr ht⟩
    · rintro ⟨j, reach, hmem, hreaches⟩
      have hu := getElem?_context (h.inUse j reach hmem)
      exact ⟨_, (h.laid.reaches_iff hs hu reach).mp hreaches,
        (h.mem_cancelled _).mpr ⟨j, reach, hmem, rfl⟩⟩
  obtain ⟨hcancelled, hwait⟩ := h.laid.isCancelled_eq hs w.cancellation
  rw [isCancelled, endsWait, hcancelled, hwait]
  exact ⟨hstops, hstops⟩

/-- A cancelled context stays cancelled. -/
theorem Follows.isCancelled_later (h : w.Follows ops) {later : List ScopeOperation}
    (hperform : w.performAll later = some w') (hi : i < w.contexts.length)
    (hcancelled : w.isCancelled i = true) : w'.isCancelled i = true := by
  have hreached := (h.reached_iff hi).1.mp hcancelled
  have hlater := h.performAll hperform
  have hi' : i < w'.contexts.length := by
    rw [hlater.laid.length_eq, origins_append, List.length_append, ← h.laid.length_eq]
    omega
  exact (hlater.reached_iff hi').1.mpr hreached.append

/-- A cancellation of a scope leaves alone what does not lie in it. -/
theorem Follows.isCancelled_outside (h : w.Follows ops) {c : Nat}
    (hperform : w.perform (.cancel c .ownScope) = some w') (hi : i < w.contexts.length)
    (houtside : ¬ Within (origins ops) i c) : w'.isCancelled i = w.isCancelled i := by
  obtain ⟨-, rfl⟩ := perform_eq_some_iff.mp hperform
  have horigins : origins (ops ++ [.cancel c .ownScope]) = origins ops := by
    simp [origins_concat, ScopeOperation.origin?]
  rw [Bool.eq_iff_iff, ((h.perform hperform).reached_iff hi).1, (h.reached_iff hi).1, Reached, horigins]
  constructor
  · rintro ⟨j, reach, hmem, hreaches⟩
    rcases List.mem_append.mp hmem with hmem | hmem
    · exact ⟨j, reach, hmem, hreaches⟩
    · cases List.mem_singleton.mp hmem
      exact absurd hreaches houtside
  · rintro ⟨j, reach, hmem, hreaches⟩
    exact ⟨j, reach, List.mem_append_left _ hmem, hreaches⟩

/-- After any operations on contexts, a context is cancelled, and waits for that are over, exactly when
one of the operations cancelled a context with the same root together with its whole tree, or one in
whose scope this context lies. So a cancelled context stays cancelled, and the cancellation of a child
leaves alone what does not lie in its scope: its parent, the parent's other children, and what was
derived from other roots. -/
theorem isCancelled_iff_reached {ops : List ScopeOperation} {w : ScopeWorld}
    (hops : empty.performAll ops = some w) :
    (∀ i < w.contexts.length,
      (w.isCancelled i = true ↔ Reached ops i) ∧ (w.endsWait i = true ↔ Reached ops i)) ∧
    (∀ later w', w.performAll later = some w' → ∀ i < w.contexts.length,
      w.isCancelled i = true → w'.isCancelled i = true) ∧
    ∀ c p w', (origins ops)[c]? = some (.child p) → w.perform (.cancel c .ownScope) = some w' →
      ∀ i < w.contexts.length,
        ¬ Within (origins ops) i c ∨ i = p ∨ i ≠ c ∧ (origins ops)[i]? = some (.child p) ∨
          ¬ SameTree (origins ops) i c →
        w'.isCancelled i = w.isCancelled i := by
  have h : w.Follows ops := follows_empty.performAll hops
  refine ⟨fun i hi => h.reached_iff hi, fun later w' hlater i hi => h.isCancelled_later hlater hi, ?_⟩
  intro c p w' hc hcancel i hi hi'
  refine h.isCancelled_outside hcancel hi ?_
  obtain houtside | rfl | ⟨hne, hsibling⟩ | htree := hi'
  · exact houtside
  · exact h.laid.not_within_child hc
  · exact h.laid.not_within_sibling hsibling hc hne
  · obtain ⟨u, hu⟩ := h.laid.exists_scope hc
    exact fun hwithin => htree (h.laid.sameTree_of_within (getElem?_context hi) hu hwithin)

/-- The clone of a cancelled child is cancelled, and so is a grandchild that is made later; the parent, a
sibling and another root are not. -/
theorem isCancelled_iff_reached_family :
    let ops : List ScopeOperation :=
      [.newRoot, .child 0, .clone 1, .cancel 1 .ownScope, .child 2, .child 0, .newRoot]
    ∃ w, empty.performAll ops = some w ∧
      (List.range 6).map w.isCancelled = [false, true, true, true, false, false] ∧
      (∀ i < w.contexts.length,
        (w.isCancelled i = true ↔ Reached ops i) ∧ (w.endsWait i = true ↔ Reached ops i)) ∧
      ∃ w', w.perform (.cancel 1 .ownScope) = some w' ∧ w'.isCancelled 0 = w.isCancelled 0 := by
  intro ops
  obtain ⟨w, hw, hflags, hlength⟩ : ∃ w, empty.performAll ops = some w ∧
      (List.range 6).map w.isCancelled = [false, true, true, true, false, false] ∧
      w.contexts.length = 6 := ⟨_, rfl, by decide, rfl⟩
  obtain ⟨hreached, -, hapart⟩ := isCancelled_iff_reached hw
  obtain ⟨w', hw'⟩ : ∃ w', w.perform (.cancel 1 .ownScope) = some w' := by
    refine ⟨_, perform_eq_some_iff.mpr ⟨?_, rfl⟩⟩
    rintro k ⟨⟩
    omega
  exact ⟨w, hw, hflags, hreached, w', hw', hapart 1 0 w' rfl hw' 0 (by omega) (.inr (.inl rfl))⟩

end ScopeWorld

end Sim

end ChainNode
