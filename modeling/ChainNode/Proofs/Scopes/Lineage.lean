import ChainNode.Sim.Scopes

/-!
# Whose scope a context lies in

Contexts are made one after the other: as a root, as a child or as a clone of an older one (`Origin`).
That alone tells at which root the tree of a context starts (`RootedAt`), and in whose scopes it lies
(`Within`).

The tokens tell the same. With contexts made in this way (`Laid`), the tokens that stand above a
context's own (`Token.chain`) are those of the scopes it lies in (`Laid.within_iff`), and contexts hold
the same token of a tree exactly when they were derived from the same root (`Laid.sameTree_iff`).
-/

namespace ChainNode

namespace Token

/-- A token and those above it. -/
def chain : Token → List Token
  | root id => [root id]
  | child id parent => child id parent :: parent.chain

/-- The topmost token. -/
def top : Token → Token
  | root id => root id
  | child _ parent => parent.top

@[simp] theorem self_mem_chain (t : Token) : t ∈ t.chain := by
  cases t <;> simp [chain]

theorem top_mem_chain (t : Token) : t.top ∈ t.chain := by
  induction t with
  | root id => simp [top, chain]
  | child id parent ih => exact List.mem_cons_of_mem _ ih

/-- The tokens above a token have the same one at the top. -/
theorem top_of_mem_chain {t u : Token} (h : u ∈ t.chain) : u.top = t.top := by
  induction t with
  | root id => rw [List.mem_singleton.mp h]
  | child id parent ih =>
    rcases List.mem_cons.mp h with rfl | h
    · rfl
    · exact ih h

@[simp] theorem top_top (t : Token) : t.top.top = t.top := top_of_mem_chain t.top_mem_chain

/-- No token stands above its own parent. -/
theorem notMem_chain_parent (id : Nat) (parent : Token) : child id parent ∉ parent.chain := by
  have key (t : Token) : ∀ u ∈ t.chain, sizeOf u ≤ sizeOf t := by
    induction t with
    | root id => simp [chain]
    | child id parent ih =>
      intro u hu
      rcases List.mem_cons.mp hu with rfl | hu
      · exact Nat.le_refl _
      · have := ih u hu
        simp only [child.sizeOf_spec]
        omega
  intro h
  have := key parent _ h
  simp only [child.sizeOf_spec] at this
  omega

end Token

namespace Sim

/-! ## Lineage -/

/-- How a context was made. -/
inductive Origin
  | root
  | child (parent : Nat)
  | clone (original : Nat)
  deriving DecidableEq, Repr

/-- The tree of a context starts at a root. -/
inductive RootedAt (os : List Origin) : Nat → Nat → Prop
  | root {i : Nat} (h : os[i]? = some .root) : RootedAt os i i
  | child {i k r : Nat} (h : os[i]? = some (.child k)) (hk : RootedAt os k r) : RootedAt os i r
  | clone {i k r : Nat} (h : os[i]? = some (.clone k)) (hk : RootedAt os k r) : RootedAt os i r

/-- Two contexts were derived from the same root. -/
def SameTree (os : List Origin) (i j : Nat) : Prop := ∃ r, RootedAt os i r ∧ RootedAt os j r

/-- The scope of one context is that of another one, or lies below it: a child opens a scope below its
parent's, and a clone shares the scope of its original. -/
inductive Within (os : List Origin) : Nat → Nat → Prop
  | refl (i : Nat) : Within os i i
  | child {i k j : Nat} (h : os[i]? = some (.child k)) (hk : Within os k j) : Within os i j
  | clone {i k j : Nat} (h : os[i]? = some (.clone k)) (hk : Within os k j) : Within os i j
  | ofClone {i k j : Nat} (h : os[j]? = some (.clone k)) (hk : Within os i k) : Within os i j

/-! ### Later contexts -/

section Append
variable {os os' : List Origin} {i j : Nat}

theorem getElem?_append_of_some {α : Type} {l l' : List α} {a : α} (h : l[i]? = some a) :
    (l ++ l')[i]? = some a := by
  obtain ⟨hi, rfl⟩ := List.getElem?_eq_some_iff.mp h
  simp [List.getElem?_append_left, hi]

theorem RootedAt.append (h : RootedAt os i j) : RootedAt (os ++ os') i j := by
  induction h with
  | root h => exact .root (getElem?_append_of_some h)
  | child h _ ih => exact .child (getElem?_append_of_some h) ih
  | clone h _ ih => exact .clone (getElem?_append_of_some h) ih

theorem Within.append (h : Within os i j) : Within (os ++ os') i j := by
  induction h with
  | refl i => exact .refl i
  | child h _ ih => exact .child (getElem?_append_of_some h) ih
  | clone h _ ih => exact .clone (getElem?_append_of_some h) ih
  | ofClone h _ ih => exact .ofClone (getElem?_append_of_some h) ih

end Append

/-! ## Contexts and their tokens -/

/-- Contexts as they are made one after the other, each with a number of its own unless it is a clone. -/
inductive Laid : List Origin → List Scope → Nat → Prop
  | nil : Laid [] [] 0
  | root {os : List Origin} {contexts : List Scope} {fresh : Nat} (h : Laid os contexts fresh) :
    Laid (os ++ [.root]) (contexts ++ [⟨.root fresh, none⟩]) (fresh + 1)
  | child {os : List Origin} {contexts : List Scope} {fresh k : Nat} {s : Scope}
    (h : Laid os contexts fresh) (hk : contexts[k]? = some s) :
    Laid (os ++ [.child k]) (contexts ++ [⟨s.tree, some (.child fresh s.own)⟩]) (fresh + 1)
  | clone {os : List Origin} {contexts : List Scope} {fresh k : Nat} {s : Scope}
    (h : Laid os contexts fresh) (hk : contexts[k]? = some s) :
    Laid (os ++ [.clone k]) (contexts ++ [s]) fresh

namespace Laid

variable {os : List Origin} {contexts : List Scope} {fresh i j k : Nat} {s u : Scope}

theorem length_eq (h : Laid os contexts fresh) : contexts.length = os.length := by
  induction h with
  | nil => rfl
  | root _ ih | child _ _ ih | clone _ _ ih => simp [ih]

/-- How a context was made, and what came of it. -/
inductive Made (contexts : List Scope) (fresh : Nat) : Origin → Nat → Scope → Prop
  | root {i id : Nat} (hid : id < fresh) : Made contexts fresh .root i ⟨.root id, none⟩
  | child {i k id : Nat} {s : Scope} (hid : id < fresh) (hlt : k < i) (hk : contexts[k]? = some s) :
    Made contexts fresh (.child k) i ⟨s.tree, some (.child id s.own)⟩
  | clone {i k : Nat} {s : Scope} (hlt : k < i) (hk : contexts[k]? = some s) :
    Made contexts fresh (.clone k) i s

theorem Made.append {o : Origin} (h : Made contexts fresh o i s) {fresh' : Nat} (hle : fresh ≤ fresh')
    (contexts' : List Scope) : Made (contexts ++ contexts') fresh' o i s := by
  cases h with
  | root hid => exact .root (Nat.lt_of_lt_of_le hid hle)
  | child hid hlt hk =>
    exact .child (Nat.lt_of_lt_of_le hid hle) hlt (getElem?_append_of_some hk)
  | clone hlt hk => exact .clone hlt (getElem?_append_of_some hk)

/-- Each context was made in its way. -/
theorem made (h : Laid os contexts fresh) (hi : contexts[i]? = some s) :
    ∃ o, os[i]? = some o ∧ Made contexts fresh o i s := by
  -- the last context is the new one; the others are as before
  have step {os : List Origin} {contexts : List Scope} {fresh fresh' : Nat} {o : Origin} {new : Scope}
      (hlaid : Laid os contexts fresh) (hle : fresh ≤ fresh')
      (ih : ∀ {i s}, contexts[i]? = some s → ∃ o, os[i]? = some o ∧ Made contexts fresh o i s)
      (hnew : Made (contexts ++ [new]) fresh' o contexts.length new)
      {i : Nat} {s : Scope} (hi : (contexts ++ [new])[i]? = some s) :
      ∃ o', (os ++ [o])[i]? = some o' ∧ Made (contexts ++ [new]) fresh' o' i s := by
    rw [List.getElem?_append] at hi
    split at hi
    case isTrue =>
      obtain ⟨o', ho', hmade⟩ := ih hi
      exact ⟨o', getElem?_append_of_some ho', hmade.append hle [new]⟩
    case isFalse hlt =>
      obtain ⟨rfl, rfl⟩ : i = contexts.length ∧ new = s := by
        rw [List.getElem?_singleton] at hi
        split at hi
        · exact ⟨by omega, Option.some.inj hi⟩
        · cases hi
      exact ⟨o, by simp [hlaid.length_eq], hnew⟩
  have hlt {contexts : List Scope} {k : Nat} {s : Scope} (hk : contexts[k]? = some s) :
      k < contexts.length := (List.getElem?_eq_some_iff.mp hk).1
  induction h generalizing i s with
  | nil => simp at hi
  | root h ih => exact step h (Nat.le_succ _) ih (.root (Nat.lt_succ_self _)) hi
  | child h hk ih =>
    exact step h (Nat.le_succ _) ih
      (.child (Nat.lt_succ_self _) (hlt hk) (getElem?_append_of_some hk)) hi
  | clone h hk ih => exact step h (Nat.le_refl _) ih (.clone (hlt hk) (getElem?_append_of_some hk)) hi

theorem made_of (h : Laid os contexts fresh) {o : Origin} (ho : os[i]? = some o)
    (hi : contexts[i]? = some s) : Made contexts fresh o i s := by
  obtain ⟨o', ho', hmade⟩ := h.made hi
  rwa [Option.some.inj (ho.symm.trans ho')]

theorem exists_scope (h : Laid os contexts fresh) {o : Origin} (ho : os[i]? = some o) :
    ∃ s, contexts[i]? = some s := by
  have hlt : i < contexts.length := h.length_eq ▸ (List.getElem?_eq_some_iff.mp ho).1
  exact ⟨_, List.getElem?_eq_getElem hlt⟩

theorem own_id_lt (h : Laid os contexts fresh) : ∀ s ∈ contexts, s.own.id < fresh := by
  induction h with
  | nil => simp
  | root _ ih | child _ _ ih =>
    intro s hs
    rcases List.mem_append.mp hs with hs | hs
    · exact Nat.lt_succ_of_lt (ih s hs)
    · rw [List.mem_singleton.mp hs]
      exact Nat.lt_succ_self _
  | clone _ hk ih =>
    intro s hs
    rcases List.mem_append.mp hs with hs | hs
    · exact ih s hs
    · exact ih s (List.mem_singleton.mp hs ▸ List.mem_of_getElem? hk)

/-- A context that is no clone, and its scope. -/
def Opens (os : List Origin) (contexts : List Scope) (i : Nat) (s : Scope) : Prop :=
  contexts[i]? = some s ∧ ∀ k, os[i]? ≠ some (.clone k)

/-- With one more context, those that are no clones are the old ones, and the new one if its number is
new. -/
theorem opens_concat (h : Laid os contexts fresh) {o : Origin} {new : Scope}
    (hnew : (∃ k, o = .clone k) ∨ new.own.id = fresh)
    (hi : Opens (os ++ [o]) (contexts ++ [new]) i s) :
    (Opens os contexts i s ∧ s.own.id < fresh) ∨ i = contexts.length ∧ s.own.id = fresh := by
  obtain ⟨hi, hi'⟩ := hi
  rw [List.getElem?_append] at hi
  split at hi
  case isTrue hlt =>
    rw [List.getElem?_append_left (h.length_eq ▸ hlt)] at hi'
    exact .inl ⟨⟨hi, hi'⟩, h.own_id_lt s (List.mem_of_getElem? hi)⟩
  case isFalse hlt =>
    rw [List.getElem?_singleton] at hi
    split at hi
    case isTrue hzero =>
      have hlast : i = contexts.length := by omega
      obtain ⟨k, rfl⟩ | hnew := hnew
      · exact absurd (by simp [hlast, h.length_eq]) (hi' k)
      · exact .inr ⟨hlast, Option.some.inj hi ▸ hnew⟩
    case isFalse => cases hi

/-- Two contexts that are no clones have different numbers. -/
theorem eq_of_id (h : Laid os contexts fresh) (hi : Opens os contexts i s)
    (hj : Opens os contexts j u) (hid : s.own.id = u.own.id) : i = j := by
  have step {os : List Origin} {contexts : List Scope} {fresh : Nat} {o : Origin} {new : Scope}
      (h : Laid os contexts fresh) (hnew : (∃ k, o = .clone k) ∨ new.own.id = fresh)
      (ih : ∀ {i j : Nat} {s u : Scope}, Opens os contexts i s → Opens os contexts j u →
        s.own.id = u.own.id → i = j) {i j : Nat} {s u : Scope}
      (hi : Opens (os ++ [o]) (contexts ++ [new]) i s)
      (hj : Opens (os ++ [o]) (contexts ++ [new]) j u) (hid : s.own.id = u.own.id) : i = j := by
    obtain ⟨hi, hlt⟩ | ⟨hi, heq⟩ := h.opens_concat hnew hi <;>
      obtain ⟨hj, hlt'⟩ | ⟨hj, heq'⟩ := h.opens_concat hnew hj
    · exact ih hi hj hid
    · omega
    · omega
    · rw [hi, hj]
  induction h generalizing i j s u with
  | nil => simp [Opens] at hi
  | root h ih | child h _ ih => exact step h (.inr rfl) ih hi hj hid
  | clone h _ ih => exact step h (.inl ⟨_, rfl⟩) ih hi hj hid

/-- Each context shares its scope with one that is no clone. -/
theorem exists_opener (h : Laid os contexts fresh) (hi : contexts[i]? = some s) :
    ∃ o, Opens os contexts o s ∧ (∀ j, Within os o j → Within os i j) ∧
      ∀ j, Within os j o → Within os j i := by
  induction i using Nat.strongRecOn with
  | ind i ih =>
    obtain ⟨o, ho, hmade⟩ := h.made hi
    cases hmade with
    | root | child => exact ⟨i, ⟨hi, by simp [ho]⟩, fun _ h => h, fun _ h => h⟩
    | clone hlt hk =>
      obtain ⟨o, hs, hleft, hright⟩ := ih _ hlt hk
      exact ⟨o, hs, fun j hj => .clone ho (hleft j hj), fun j hj => .ofClone ho (hright j hj)⟩

/-- Contexts with the same token of their own share a scope. -/
theorem within_of_own_eq (h : Laid os contexts fresh) (hi : contexts[i]? = some s)
    (hj : contexts[j]? = some u) (hown : s.own = u.own) : Within os i j := by
  obtain ⟨o, hs, hleft, -⟩ := h.exists_opener hi
  obtain ⟨o', hu, -, hright⟩ := h.exists_opener hj
  obtain rfl : o = o' := h.eq_of_id hs hu (congrArg Token.id hown)
  exact hleft j (hright o (.refl o))

/-- **A context lies in the scope of another one exactly when the other's token stands above its own.** -/
theorem within_iff (h : Laid os contexts fresh) (hi : contexts[i]? = some s)
    (hj : contexts[j]? = some u) : Within os i j ↔ u.own ∈ s.own.chain := by
  constructor
  · intro hwithin
    induction hwithin generalizing s u with
    | refl i =>
      obtain rfl := Option.some.inj (hi.symm.trans hj)
      exact s.own.self_mem_chain
    | child ho _ ih =>
      cases h.made_of ho hi with
      | child _ _ hk => exact List.mem_cons_of_mem _ (ih hk hj)
    | clone ho _ ih =>
      cases h.made_of ho hi with
      | clone _ hk => exact ih hk hj
    | ofClone ho _ ih =>
      cases h.made_of ho hj with
      | clone _ hk => exact ih hi hk
  · intro hmem
    induction i using Nat.strongRecOn generalizing s with
    | ind i ih =>
      obtain ⟨o, ho, hmade⟩ := h.made hi
      cases hmade with
      | root => exact h.within_of_own_eq hi hj (List.mem_singleton.mp hmem).symm
      | child _ hlt hk =>
        rcases List.mem_cons.mp hmem with heq | hmem
        · exact h.within_of_own_eq hi hj heq.symm
        · exact .child ho (ih _ hlt hk hmem)
      | clone hlt hk => exact .clone ho (ih _ hlt hk hmem)

/-- A context's tree has the token at the top of its own. -/
theorem tree_eq_top (h : Laid os contexts fresh) (hi : contexts[i]? = some s) :
    s.tree = s.own.top := by
  induction i using Nat.strongRecOn generalizing s with
  | ind i ih =>
    obtain ⟨o, -, hmade⟩ := h.made hi
    cases hmade with
    | root => rfl
    | child _ hlt hk =>
      have htree := ih _ hlt hk
      exact htree
    | clone hlt hk => exact ih _ hlt hk

/-- Each tree starts at a root, which holds the token of the tree. -/
theorem exists_rootedAt (h : Laid os contexts fresh) (hi : contexts[i]? = some s) :
    ∃ r, RootedAt os i r ∧ os[r]? = some .root ∧ contexts[r]? = some ⟨s.tree, none⟩ := by
  induction i using Nat.strongRecOn generalizing s with
  | ind i ih =>
    obtain ⟨o, ho, hmade⟩ := h.made hi
    cases hmade with
    | root => exact ⟨i, .root ho, ho, hi⟩
    | child _ hlt hk =>
      obtain ⟨r, hr, hroot, hs⟩ := ih _ hlt hk
      exact ⟨r, .child ho hr, hroot, hs⟩
    | clone hlt hk =>
      obtain ⟨r, hr, hroot, hs⟩ := ih _ hlt hk
      exact ⟨r, .clone ho hr, hroot, hs⟩

theorem getElem?_of_rootedAt (h : Laid os contexts fresh) {r : Nat} (hr : RootedAt os i r)
    (hi : contexts[i]? = some s) : contexts[r]? = some ⟨s.tree, none⟩ := by
  induction hr generalizing s with
  | root ho =>
    cases h.made_of ho hi with
    | root => exact hi
  | child ho _ ih =>
    cases h.made_of ho hi with
    | child _ _ hk =>
      have hr := ih hk
      exact hr
  | clone ho _ ih =>
    cases h.made_of ho hi with
    | clone _ hk => exact ih hk

/-- **Two contexts were derived from the same root exactly when they hold the same token of a tree.** -/
theorem sameTree_iff (h : Laid os contexts fresh) (hi : contexts[i]? = some s)
    (hj : contexts[j]? = some u) : SameTree os i j ↔ s.tree = u.tree := by
  constructor
  · rintro ⟨r, hri, hrj⟩
    have hs := h.getElem?_of_rootedAt hri hi
    have hu := h.getElem?_of_rootedAt hrj hj
    simpa using hs.symm.trans hu
  · intro htree
    obtain ⟨r, hr, hroot, hs⟩ := h.exists_rootedAt hi
    obtain ⟨r', hr', hroot', hu⟩ := h.exists_rootedAt hj
    obtain rfl : r = r' := h.eq_of_id ⟨hs, by simp [hroot]⟩ ⟨hu, by simp [hroot']⟩
      (congrArg Token.id htree)
    exact ⟨r, hr, hr'⟩

/-- The tokens above a context's own are those of other contexts. -/
theorem exists_opens_of_mem_chain (h : Laid os contexts fresh) (hi : contexts[i]? = some s) {t : Token}
    (ht : t ∈ s.own.chain) : ∃ o u, Opens os contexts o u ∧ u.own = t := by
  induction i using Nat.strongRecOn generalizing s with
  | ind i ih =>
    obtain ⟨o, ho, hmade⟩ := h.made hi
    cases hmade with
    | root => exact ⟨i, _, ⟨hi, by simp [ho]⟩, (List.mem_singleton.mp ht).symm⟩
    | child _ hlt hk =>
      rcases List.mem_cons.mp ht with rfl | ht
      · exact ⟨i, _, ⟨hi, by simp [ho]⟩, rfl⟩
      · exact ih _ hlt hk ht
    | clone hlt hk => exact ih _ hlt hk ht

/-- The numbers tell the tokens of all contexts apart. -/
theorem eq_of_mem_chain (h : Laid os contexts fresh) (hi : contexts[i]? = some s)
    (hj : contexts[j]? = some u) {t t' : Token} (ht : t ∈ s.own.chain) (ht' : t' ∈ u.own.chain)
    (hid : t.id = t'.id) : t = t' := by
  obtain ⟨o, v, ho, rfl⟩ := h.exists_opens_of_mem_chain hi ht
  obtain ⟨o', v', ho', rfl⟩ := h.exists_opens_of_mem_chain hj ht'
  obtain rfl := h.eq_of_id ho ho' hid
  rw [Option.some.inj (ho.1.symm.trans ho'.1)]

/-! ### Outside of a scope -/

/-- A parent does not lie in the scope of its child. -/
theorem not_within_child (h : Laid os contexts fresh) (hj : os[j]? = some (.child k)) :
    ¬ Within os k j := by
  obtain ⟨s, hs⟩ := h.exists_scope hj
  cases h.made_of hj hs with
  | child _ _ hk =>
    intro hwithin
    exact Token.notMem_chain_parent _ _ ((h.within_iff hk hs).mp hwithin)

/-- Of two children of one context, neither lies in the scope of the other. -/
theorem not_within_sibling (h : Laid os contexts fresh) (hi : os[i]? = some (.child k))
    (hj : os[j]? = some (.child k)) (hne : i ≠ j) : ¬ Within os i j := by
  obtain ⟨s, hs⟩ := h.exists_scope hi
  obtain ⟨u, hu⟩ := h.exists_scope hj
  intro hwithin
  have hmem := (h.within_iff hs hu).mp hwithin
  cases h.made_of hj hu with
  | child _ _ hk =>
    cases h.made_of hi hs with
    | child _ _ hk' =>
      obtain rfl := Option.some.inj (hk.symm.trans hk')
      rcases List.mem_cons.mp hmem with heq | hmem
      · exact hne (h.eq_of_id ⟨hs, by simp [hi]⟩ ⟨hu, by simp [hj]⟩ (congrArg Token.id heq.symm))
      · exact Token.notMem_chain_parent _ _ hmem

/-- What lies in the scope of a context was derived from the same root. -/
theorem sameTree_of_within (h : Laid os contexts fresh) (hi : contexts[i]? = some s)
    (hj : contexts[j]? = some u) (hwithin : Within os i j) : SameTree os i j := by
  rw [h.sameTree_iff hi hj, h.tree_eq_top hi, h.tree_eq_top hj]
  exact (Token.top_of_mem_chain ((h.within_iff hi hj).mp hwithin)).symm

end Laid

end Sim

end ChainNode
