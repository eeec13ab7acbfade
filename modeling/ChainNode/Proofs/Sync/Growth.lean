import ChainNode.Sync.BlockTree

/-!
# How the tree of blocks grows

A tree is well formed when each block is stored under its hash, every executed block is stored, and
every other one has a stored parent. Then executing a stored block cannot fail: the walk towards the
root only meets stored blocks until it meets one that is executed.

A tree made from some blocks is settled: every block is executed, and the best chain is the longest.
-/

namespace ChainNode

/-- The higher one of two tips; the first one if there is none. -/
def Tip.higher (t u : Tip) : Tip := if t.height < u.height then u else t

theorem Tip.higher_of_lt {t u : Tip} (h : t.height < u.height) : t.higher u = u := if_pos h

theorem Tip.higher_of_not_lt {t u : Tip} (h : ¬ t.height < u.height) : t.higher u = t := if_neg h

namespace BlockTree

variable {t t' : BlockTree} {b : Block} {hash : Hash}

/-- Each block is stored under its hash; executed blocks are stored, others have stored parents. -/
structure WellFormed (t : BlockTree) : Prop where
  hash_eq : ∀ (h : Hash) (b : Block), t.blocks[h]? = some b → b.hash = h
  executed_mem : ∀ h ∈ t.executed, h ∈ t.blocks
  previous_mem : ∀ (h : Hash) (b : Block), t.blocks[h]? = some b → h ∉ t.executed →
    b.previous ∈ t.blocks

/-- Every block is executed, and the best chain is the longest. -/
structure Settled (t : BlockTree) : Prop where
  executed : ∀ h ∈ t.blocks, h ∈ t.executed
  best_eq : t.heads.best = t.heads.longest

theorem mem_blocks_iff : hash ∈ t.blocks ↔ ∃ b, t.blocks[hash]? = some b := by
  rw [Std.ExtTreeMap.mem_iff_isSome_getElem?, Option.isSome_iff_exists]

theorem mem_blocks (h : t.blocks[hash]? = some b) : hash ∈ t.blocks := mem_blocks_iff.mpr ⟨b, h⟩

/-! ## Attaching -/

/-- The tree with one more block. -/
def grown (t : BlockTree) (b : Block) : BlockTree :=
  { t with
    blocks := t.blocks.insert b.hash b
    heads := { t.heads with longest := t.heads.longest.higher b.tip } }

theorem attach_eq (t : BlockTree) (b : Block) :
    t.attach b = if b.previous ∈ t.blocks then (.ok (), t.grown b)
      else (.error (.unknownParent b.previous), t) := by
  by_cases h : b.previous ∈ t.blocks
  · rw [if_pos h, attach, if_pos (by simpa [contains] using h)]
    by_cases hlt : t.heads.longest.height < b.height
    · rw [grown, Tip.higher_of_lt (u := b.tip) hlt, if_pos hlt]
    · rw [grown, Tip.higher_of_not_lt (u := b.tip) hlt, if_neg hlt]
  · rw [if_neg h, attach, if_neg (by simpa [contains] using h)]

theorem getElem?_grown (t : BlockTree) (b : Block) (h : Hash) :
    (t.grown b).blocks[h]? = if b.hash = h then some b else t.blocks[h]? := by
  simp [grown, Std.ExtTreeMap.getElem?_insert]

theorem mem_grown : hash ∈ (t.grown b).blocks ↔ b.hash = hash ∨ hash ∈ t.blocks := by
  simp [grown, Std.ExtTreeMap.mem_insert]

theorem WellFormed.grown (h : t.WellFormed) (hb : b.previous ∈ t.blocks) :
    (t.grown b).WellFormed where
  hash_eq hash c hc := by
    rw [getElem?_grown] at hc
    split at hc
    case isTrue he => exact Option.some.inj hc ▸ he
    case isFalse => exact h.hash_eq hash c hc
  executed_mem hash hh := mem_grown.mpr (.inr (h.executed_mem hash hh))
  previous_mem hash c hc hne := by
    rw [getElem?_grown] at hc
    apply mem_grown.mpr ∘ Or.inr
    split at hc
    case isTrue => exact Option.some.inj hc ▸ hb
    case isFalse => exact h.previous_mem hash c hc hne

/-! ## Executing -/

/-- From a stored block the walk does not fail; it marks that block and keeps the tree well formed. -/
theorem WellFormed.executeBranch (h : t.WellFormed) (hash : Hash) (hmem : hash ∈ t.blocks)
    (fuel : Nat) :
    ∃ executed, t.executeBranch fuel hash = (.ok (), { t with executed }) ∧
      ({ t with executed } : BlockTree).WellFormed ∧ (∀ k ∈ t.executed, k ∈ executed) ∧
      (fuel ≠ 0 → hash ∈ executed) := by
  induction fuel generalizing t hash with
  | zero => exact ⟨t.executed, rfl, h, fun _ => id, fun h0 => absurd rfl h0⟩
  | succ fuel ih =>
    by_cases hdone : hash ∈ t.executed
    · exact ⟨t.executed, by rw [BlockTree.executeBranch, if_pos hdone], h, fun _ => id, fun _ => hdone⟩
    obtain ⟨b, hb⟩ := mem_blocks_iff.mp hmem
    have hmark (k : Hash) : k ∈ t.executed.insert hash ↔ hash = k ∨ k ∈ t.executed := by
      simp [Std.ExtTreeSet.mem_insert]
    have hone : ({ t with executed := t.executed.insert hash } : BlockTree).WellFormed := by
      refine ⟨h.hash_eq, ?_, fun k c hc hk => h.previous_mem k c hc ?_⟩
      · intro k hk
        obtain rfl | hk := (hmark k).mp hk
        · exact hmem
        · exact h.executed_mem k hk
      · exact fun hk' => hk ((hmark k).mpr (.inr hk'))
    obtain ⟨executed, heq, hwf, hmono, -⟩ := ih hone b.previous (h.previous_mem hash b hb hdone)
    refine ⟨executed, ?_, hwf, ?_, fun _ => ?_⟩
    · rw [BlockTree.executeBranch, if_neg hdone, hb]
      exact heq
    · exact fun k hk => hmono k ((hmark k).mpr (.inr hk))
    · exact hmono hash ((hmark hash).mpr (.inl rfl))

/-- Executing the branch of a stored block does not fail; the block is executed afterwards and counts
for the best chain. -/
theorem WellFormed.update (h : t.WellFormed) (hb : t.blocks[hash]? = some b) :
    ∃ executed, t.update hash = (.ok (), { t with
        executed := executed
        heads := { t.heads with best := t.heads.best.higher b.tip } }) ∧
      ({ t with executed } : BlockTree).WellFormed ∧ (∀ k ∈ t.executed, k ∈ executed) ∧
      hash ∈ executed := by
  obtain ⟨executed, heq, hwf, hmono, hmem⟩ :=
    h.executeBranch hash (mem_blocks hb) (t.blocks.size + 1)
  refine ⟨executed, ?_, hwf, hmono, hmem (Nat.succ_ne_zero _)⟩
  simp only [BlockTree.update, hb, heq]
  obtain rfl := h.hash_eq hash b hb
  by_cases hlt : t.heads.best.height < b.height
  · rw [Tip.higher_of_lt (u := b.tip) hlt, if_pos hlt]
    rfl
  · rw [Tip.higher_of_not_lt (u := b.tip) hlt, if_neg hlt]

/-- The heads have no part in it whether a tree is well formed. -/
theorem WellFormed.congr (h : t.WellFormed) (hblocks : t'.blocks = t.blocks)
    (hexecuted : t'.executed = t.executed) : t'.WellFormed := by
  obtain ⟨blocks, executed, heads⟩ := t'
  obtain rfl := hblocks
  obtain rfl := hexecuted
  exact ⟨h.hash_eq, h.executed_mem, h.previous_mem⟩

/-! ## Trees made from blocks -/

theorem getElem?_new (genesis : Block) (h : Hash) :
    (new genesis).blocks[h]? = if genesis.hash = h then some genesis else none := by
  simp [new, Std.ExtTreeMap.ofList_singleton, Std.ExtTreeMap.getElem?_insert]

theorem mem_executed_new (genesis : Block) : hash ∈ (new genesis).executed ↔ genesis.hash = hash := by
  simp [new]

theorem mem_new (genesis : Block) : hash ∈ (new genesis).blocks ↔ genesis.hash = hash := by
  rw [mem_blocks_iff, getElem?_new]
  by_cases h : genesis.hash = hash
  · simp [h]
  · simp [h]

theorem settled_new (genesis : Block) : (new genesis).Settled where
  executed _ hh := (mem_executed_new genesis).mpr ((mem_new genesis).mp hh)
  best_eq := rfl

theorem wellFormed_new (genesis : Block) : (new genesis).WellFormed where
  hash_eq h b hb := by
    rw [getElem?_new] at hb
    split at hb
    case isTrue he => exact Option.some.inj hb ▸ he
    case isFalse => cases hb
  executed_mem _ hh := (mem_new genesis).mpr ((mem_executed_new genesis).mp hh)
  previous_mem _ _ hb hne := absurd ((settled_new genesis).executed _ (mem_blocks hb)) hne

/-- A settled tree that a block is attached to and executed on is settled again. -/
theorem WellFormed.grow (h : t.WellFormed) (hs : t.Settled) (hgrow : t.grow b = .ok t') :
    b.previous ∈ t.blocks ∧ t'.blocks = t.blocks.insert b.hash b ∧
      t'.heads = ⟨t.heads.best.higher b.tip, t.heads.longest.higher b.tip, t.heads.irreversible⟩ ∧
      t'.WellFormed ∧ t'.Settled := by
  by_cases hprevious : b.previous ∈ t.blocks
  · have hb : (t.grown b).blocks[b.hash]? = some b := by rw [getElem?_grown, if_pos rfl]
    obtain ⟨executed, heq, hwf, hmono, hmem⟩ := (h.grown hprevious).update hb
    rw [BlockTree.grow, attach_eq, if_pos hprevious] at hgrow
    simp only [heq] at hgrow
    obtain rfl := Except.ok.inj hgrow
    refine ⟨hprevious, rfl, rfl, hwf.congr rfl rfl, ?_, ?_⟩
    · intro k hk
      obtain rfl | hk := mem_grown.mp hk
      · exact hmem
      · exact hmono k (hs.executed k hk)
    · show t.heads.best.higher b.tip = t.heads.longest.higher b.tip
      rw [hs.best_eq]
  · rw [BlockTree.grow, attach_eq, if_neg hprevious] at hgrow
    cases hgrow

/-- A tree made from some blocks is well formed and settled. -/
theorem settled_ofBlocks {genesis : Block} {blocks : List Block}
    (ht : ofBlocks genesis blocks = .ok t) : t.WellFormed ∧ t.Settled := by
  have key (blocks : List Block) (s : BlockTree) (hwf : s.WellFormed) (hs : s.Settled)
      (ht : blocks.foldlM BlockTree.grow s = .ok t) : t.WellFormed ∧ t.Settled := by
    induction blocks generalizing s with
    | nil => exact Except.ok.inj ht ▸ ⟨hwf, hs⟩
    | cons b rest ih =>
      rw [List.foldlM_cons] at ht
      cases hgrow : s.grow b with
      | error e => simp [hgrow, bind, Except.bind] at ht
      | ok s' =>
        obtain ⟨-, -, -, hwf', hs'⟩ := hwf.grow hs hgrow
        rw [hgrow] at ht
        exact ih s' hwf' hs' ht
  exact key blocks (new genesis) (wellFormed_new genesis) (settled_new genesis) ht

end BlockTree

end ChainNode
