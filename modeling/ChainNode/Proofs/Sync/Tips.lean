import ChainNode.Proofs.Sync.Attaching

/-!
# The heads are tips of stored blocks

The end of the longest chain and the last irreversible block are always stored, with the heights that
the heads give, and no stored block is higher than the longest chain.
-/

namespace ChainNode

namespace BlockTree

variable {t t' : BlockTree} {b : Block} {tip : Tip}

/-- A tip is that of a stored block. -/
def HasTip (t : BlockTree) (tip : Tip) : Prop :=
  ∃ b, t.blocks[tip.hash]? = some b ∧ b.height = tip.height

/-- The heads are tips of stored blocks, and the longest chain is the highest. -/
structure Headed (t : BlockTree) : Prop where
  longest : t.HasTip t.heads.longest
  irreversible : t.HasTip t.heads.irreversible
  le_longest : ∀ (h : Hash) (b : Block), t.blocks[h]? = some b → b.height ≤ t.heads.longest.height

theorem Headed.congr (h : t.Headed) (hblocks : t'.blocks = t.blocks)
    (hlongest : t'.heads.longest = t.heads.longest)
    (hirreversible : t'.heads.irreversible = t.heads.irreversible) : t'.Headed := by
  obtain ⟨hl, hi, hle⟩ := h
  constructor
  · rwa [HasTip, hblocks, hlongest]
  · rwa [HasTip, hblocks, hirreversible]
  · rwa [hblocks, hlongest]

theorem headed_new (genesis : Block) : (new genesis).Headed where
  longest := ⟨genesis, (getElem?_new genesis _).trans (if_pos rfl), rfl⟩
  irreversible := ⟨genesis, (getElem?_new genesis _).trans (if_pos rfl), rfl⟩
  le_longest h b hb := by
    rw [getElem?_new] at hb
    split at hb
    case isTrue => rw [← Option.some.inj hb]; exact UInt64.le_refl _
    case isFalse => cases hb

theorem HasTip.grown (h : t.HasTip tip)
    (hsame : ∀ c, t.blocks[b.hash]? = some c → c.height = b.height) : (t.grown b).HasTip tip := by
  obtain ⟨c, hc, hheight⟩ := h
  rw [HasTip, getElem?_grown]
  split
  case isTrue he => exact ⟨b, rfl, by rw [← hsame c (he ▸ hc), hheight]⟩
  case isFalse => exact ⟨c, hc, hheight⟩

/-- A block that comes replaces none of another height. -/
theorem Headed.grown (h : t.Headed) (hsame : ∀ c, t.blocks[b.hash]? = some c → c.height = b.height) :
    (t.grown b).Headed where
  longest := by
    by_cases hlt : t.heads.longest.height < b.height
    · rw [show (t.grown b).heads.longest = b.tip from Tip.higher_of_lt hlt]
      exact ⟨b, by rw [getElem?_grown]; exact if_pos rfl, rfl⟩
    · rw [show (t.grown b).heads.longest = t.heads.longest from Tip.higher_of_not_lt hlt]
      exact h.longest.grown hsame
  irreversible := h.irreversible.grown hsame
  le_longest hash c hc := by
    have hle : t.heads.longest.height ≤ (t.grown b).heads.longest.height ∧
        b.height ≤ (t.grown b).heads.longest.height := by
      by_cases hlt : t.heads.longest.height < b.height
      · rw [show (t.grown b).heads.longest = b.tip from Tip.higher_of_lt hlt]
        exact ⟨UInt64.le_of_lt hlt, UInt64.le_refl _⟩
      · rw [show (t.grown b).heads.longest = t.heads.longest from Tip.higher_of_not_lt hlt]
        exact ⟨UInt64.le_refl _, UInt64.not_lt.mp hlt⟩
    rw [getElem?_grown] at hc
    split at hc
    case isTrue => exact Option.some.inj hc ▸ hle.2
    case isFalse => exact UInt64.le_trans (h.le_longest hash c hc) hle.1

theorem Headed.askIrreversible (h : t.Headed) (hash : Hash) : (askIrreversible hash t).Headed := by
  rw [BlockTree.askIrreversible, setIrreversible]
  split
  case h_1 => exact h
  case h_2 b hb => exact ⟨h.longest, ⟨b, hb, rfl⟩, h.le_longest⟩

/-- In a tree made from some blocks the heads are tips, if blocks of one hash have one height. -/
theorem headed_ofBlocks {genesis : Block} {blocks : List Block}
    (hheight : ∀ b ∈ genesis :: blocks, ∀ c ∈ genesis :: blocks, b.hash = c.hash →
      b.height = c.height)
    (ht : ofBlocks genesis blocks = .ok t) : t.Headed := by
  have key (rest : List Block) (s : BlockTree) (hrest : ∀ b ∈ rest, b ∈ genesis :: blocks)
      (hwf : s.WellFormed) (hs : s.Settled) (hh : s.Headed)
      (hfrom : ∀ (h : Hash) (b : Block), s.blocks[h]? = some b → b ∈ genesis :: blocks)
      (ht : rest.foldlM grow s = .ok t) : t.Headed := by
    induction rest generalizing s with
    | nil => exact Except.ok.inj ht ▸ hh
    | cons b rest ih =>
      rw [List.foldlM_cons] at ht
      cases hgrow : s.grow b with
      | error e => simp [hgrow, bind, Except.bind] at ht
      | ok s' =>
        obtain ⟨-, hblocks, hheads, hwf', hs'⟩ := hwf.grow hs hgrow
        rw [hgrow] at ht
        have hb := hrest b List.mem_cons_self
        have hsame (c : Block) (hc : s.blocks[b.hash]? = some c) : c.height = b.height :=
          hheight c (hfrom _ c hc) b hb (hwf.hash_eq _ c hc)
        refine ih s' (fun c hc => hrest c (List.mem_cons_of_mem _ hc)) hwf' hs' ?_ ?_ ht
        · exact (hh.grown hsame).congr hblocks (by rw [hheads]; rfl) (by rw [hheads]; rfl)
        · intro h c hc
          rw [hblocks, Std.ExtTreeMap.getElem?_insert] at hc
          split at hc
          · exact Option.some.inj hc ▸ hb
          · exact hfrom h c hc
  refine key blocks (new genesis) (fun b hb => List.mem_cons_of_mem _ hb) (wellFormed_new genesis)
    (settled_new genesis) (headed_new genesis) ?_ ht
  intro h b hb
  rw [getElem?_new] at hb
  split at hb
  · exact Option.some.inj hb ▸ List.mem_cons_self
  · cases hb

end BlockTree

namespace Node

variable {n m : Node BlockTree}

theorem headed_step (h : n.Guarded) (hh : n.chain.Headed) {e : Event Hash}
    (hstep : step BlockTree.askIrreversible n e = some m) : m.chain.Headed := by
  have hupdate (hash : Hash) : (n.chain.update hash).2.Headed := by
    obtain ⟨executed, best, heq⟩ := n.chain.update_eq hash
    rw [heq]
    exact hh.congr rfl rfl rfl
  cases h.inPlace.affects hstep with
  | feed _ hm => rwa [hm.chain]
  | chain change => exact hh.askIrreversible change
  | update hm =>
    cases hm with
    | receive | finish => exact hh
    | @update hash | @fail hash => exact hupdate hash
    | report => rwa [chain_advance, chain_complete]
  | attach hm =>
    cases hm with
    | receive | finish | unknown | accept | reject | orphan | handOver => exact hh
    | known => rwa [chain_advance, chain_complete]
    | store hr =>
      have hnew := (h.store _ _ hr).1
      exact hh.grown fun c hc => absurd (BlockTree.mem_blocks hc) hnew

theorem headed_run (h : n.Guarded) (hh : n.chain.Headed) {events : List (Event Hash)}
    (hrun : run BlockTree.askIrreversible n events = some m) : m.chain.Headed := by
  refine (run_invariant (P := fun k => k.Guarded ∧ k.chain.Headed) ?_ ⟨h, hh⟩ hrun).2
  intro e _ k k' hk hstep
  exact ⟨guarded_step hk.1 hstep, headed_step hk.1 hk.2 hstep⟩

end Node

end ChainNode
