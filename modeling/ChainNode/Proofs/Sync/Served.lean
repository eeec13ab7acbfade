import ChainNode.Proofs.Sync.Linked
import Mathlib.Data.List.Induction
import Mathlib.Data.List.Perm.Basic

/-!
# A peer that serves a chain

Blocks climb when each one is higher by one than the block it follows, wherever both are among them.
A peer that is given such blocks, in any order, knows for each of them the one that follows, so it
serves whatever part of the chain it is asked for (`BlockServer.following_ofBlocks`,
`ServedChain.following_getElem`).
-/

namespace ChainNode

/-- A block is higher by one than a block that it follows. -/
def Climbs (blocks : List Block) : Prop :=
  ∀ b ∈ blocks, ∀ c ∈ blocks, c.previous = b.hash → c.height.toNat = b.height.toNat + 1

instance (blocks : List Block) : Decidable (Climbs blocks) :=
  inferInstanceAs (Decidable
    (∀ b ∈ blocks, ∀ c ∈ blocks, c.previous = b.hash → c.height.toNat = b.height.toNat + 1))

section Climbs

variable {blocks rest before : List Block} {parent : Hash} {b c : Block}

theorem Climbs.tail (h : Climbs (b :: rest)) : Climbs rest := fun c hc d hd =>
  h c (List.mem_cons_of_mem _ hc) d (List.mem_cons_of_mem _ hd)

theorem Linked.append_right (h : Linked parent (before ++ b :: rest)) : Linked b.hash rest := by
  induction before generalizing parent with
  | nil => exact h.2
  | cons c before ih => exact ih h.2

/-- The heights of linked blocks that climb are consecutive. -/
theorem Linked.height_getElem (h : Linked b.hash rest) (hclimbs : Climbs (b :: rest)) (i : Nat)
    (hi : i < rest.length) : rest[i].height.toNat = b.height.toNat + i + 1 := by
  induction rest generalizing b i with
  | nil => simp at hi
  | cons c rest ih =>
    obtain ⟨hprevious, hrest⟩ := h
    have hc := hclimbs b List.mem_cons_self c (by simp) hprevious
    cases i with
    | zero => simpa using hc
    | succ i =>
      have := ih hrest hclimbs.tail i (by simpa using hi)
      simp only [List.getElem_cons_succ, this, hc]
      omega

theorem Linked.height_getElem_cons (h : Linked parent (b :: rest)) (hclimbs : Climbs (b :: rest))
    (i : Nat) (hi : i < (b :: rest).length) :
    (b :: rest)[i].height.toNat = b.height.toNat + i := by
  cases i with
  | zero => rfl
  | succ i => exact h.2.height_getElem hclimbs i (by simpa using hi)

/-- Linked blocks that climb have different heights. -/
theorem Linked.eq_of_height (h : Linked parent blocks) (hclimbs : Climbs blocks) (hb : b ∈ blocks)
    (hc : c ∈ blocks) (he : b.height = c.height) : b = c := by
  cases blocks with
  | nil => cases hb
  | cons first rest =>
    obtain ⟨i, hi, rfl⟩ := List.getElem_of_mem hb
    obtain ⟨j, hj, rfl⟩ := List.getElem_of_mem hc
    have hbi := h.height_getElem_cons hclimbs i hi
    have hcj := h.height_getElem_cons hclimbs j hj
    obtain rfl : i = j := by rw [he] at hbi; omega
    rfl

/-- The last of some linked blocks that climb is the highest. -/
theorem Linked.height_le_last (h : Linked parent (before ++ [b])) (hclimbs : Climbs (before ++ [b]))
    (hc : c ∈ before ++ [b]) : c.height.toNat ≤ b.height.toNat := by
  obtain ⟨first, rest, hcons⟩ : ∃ first rest, before ++ [b] = first :: rest :=
    List.exists_cons_of_ne_nil (by simp)
  have key (j : Nat) (hj : j < (before ++ [b]).length) :
      (before ++ [b])[j].height.toNat = first.height.toNat + j := by
    simpa only [hcons] using
      Linked.height_getElem_cons (hcons ▸ h) (hcons ▸ hclimbs) j (hcons ▸ hj)
  have hb : b.height.toNat = first.height.toNat + before.length := by
    simpa using key before.length (by simp)
  obtain ⟨i, hi, rfl⟩ := List.getElem_of_mem hc
  have hle : i ≤ before.length := by simpa [Nat.lt_succ_iff] using hi
  rw [key i hi, hb]
  omega

/-- Each of some linked blocks is the first one or follows another one. -/
theorem Linked.first_or_follows (h : Linked parent blocks) (hb : b ∈ blocks) :
    blocks.head? = some b ∨ ∃ p ∈ blocks, b.previous = p.hash := by
  induction blocks generalizing parent with
  | nil => cases hb
  | cons first rest ih =>
    obtain rfl | hb := List.mem_cons.mp hb
    · exact .inl rfl
    obtain hhead | ⟨p, hp, hbp⟩ := ih h.2 hb
    · obtain ⟨rest, rfl⟩ := List.head?_eq_some_iff.mp hhead
      exact .inr ⟨first, List.mem_cons_self, h.2.1⟩
    · exact .inr ⟨p, List.mem_cons_of_mem _ hp, hbp⟩

/-- Linked blocks that climb follow different blocks. -/
theorem Linked.eq_of_previous (h : Linked parent blocks) (hclimbs : Climbs blocks) (hb : b ∈ blocks)
    (hc : c ∈ blocks) (he : b.previous = c.previous) : b = c := by
  have key (p : Block) (hp : p ∈ blocks) (hbp : b.previous = p.hash) : b = c := by
    apply h.eq_of_height hclimbs hb hc
    apply UInt64.toNat_inj.mp
    rw [hclimbs p hp b hb hbp, hclimbs p hp c hc (he ▸ hbp)]
  obtain hb' | ⟨p, hp, hbp⟩ := h.first_or_follows hb
  · obtain hc' | ⟨p, hp, hcp⟩ := h.first_or_follows hc
    · exact Option.some.inj (hb'.symm.trans hc')
    · exact key p hp (he ▸ hcp)
  · exact key p hp hbp

/-- The last of some linked blocks that climb is followed by none of them. -/
theorem Linked.previous_ne_last (h : Linked parent (before ++ [b])) (hclimbs : Climbs (before ++ [b]))
    (hc : c ∈ before ++ [b]) : c.previous ≠ b.hash := by
  intro hprevious
  have hle := h.height_le_last hclimbs hc
  rw [hclimbs b (by simp) c hc hprevious] at hle
  omega

end Climbs

namespace BlockServer

variable {served blocks rest before : List Block} {parent : Hash} {b : Block}

theorem ofBlocks_concat (blocks : List Block) (b : Block) :
    ofBlocks (blocks ++ [b]) = (ofBlocks blocks).serve b := by
  rw [ofBlocks, List.foldl_append]
  rfl

theorem blocks_ofBlocks (hhash : ∀ b ∈ blocks, ∀ c ∈ blocks, b.hash = c.hash → b = c)
    (hb : b ∈ blocks) : (ofBlocks blocks).blocks[b.hash]? = some b := by
  induction blocks using List.reverseRecOn with
  | nil => cases hb
  | append_singleton blocks c ih =>
    rw [ofBlocks_concat, serve, Std.ExtTreeMap.getElem?_insert]
    split
    case isTrue he =>
      rw [hhash b hb c (by simp) (Std.LawfulEqOrd.compare_eq_iff_eq.mp he).symm]
    case isFalse hne =>
      refine ih (fun d hd d' hd' => hhash d (by simp [hd]) d' (by simp [hd'])) ?_
      obtain hb | hb := List.mem_append.mp hb
      · exact hb
      · exact absurd (by simp [List.mem_singleton.mp hb]) hne

theorem next_ofBlocks (hprevious : ∀ b ∈ blocks, ∀ c ∈ blocks, b.previous = c.previous → b = c)
    (hb : b ∈ blocks) : (ofBlocks blocks).next[b.previous]? = some b.hash := by
  induction blocks using List.reverseRecOn with
  | nil => cases hb
  | append_singleton blocks c ih =>
    rw [ofBlocks_concat, serve, Std.ExtTreeMap.getElem?_insert]
    split
    case isTrue he =>
      rw [hprevious b hb c (by simp) (Std.LawfulEqOrd.compare_eq_iff_eq.mp he).symm]
    case isFalse hne =>
      refine ih (fun d hd d' hd' => hprevious d (by simp [hd]) d' (by simp [hd'])) ?_
      obtain hb | hb := List.mem_append.mp hb
      · exact hb
      · exact absurd (by simp [List.mem_singleton.mp hb]) hne

theorem next_ofBlocks_none {hash : Hash} (h : ∀ b ∈ blocks, b.previous ≠ hash) :
    (ofBlocks blocks).next[hash]? = none := by
  induction blocks using List.reverseRecOn with
  | nil => simp [ofBlocks, empty]
  | append_singleton blocks c ih =>
    rw [ofBlocks_concat, serve, Std.ExtTreeMap.getElem?_insert, if_neg (by simpa using h c (by simp))]
    exact ih fun b hb => h b (by simp [hb])

/-- A peer that serves a chain answers with the part of it that is asked for. -/
theorem following_ofBlocks (hperm : served.Perm (before ++ b :: rest))
    (hlinked : Linked parent (before ++ b :: rest)) (hclimbs : Climbs (before ++ b :: rest))
    (hhash : ∀ c ∈ before ++ b :: rest, ∀ d ∈ before ++ b :: rest, c.hash = d.hash → c = d)
    (count : Nat) : (ofBlocks served).following count b.hash = rest.take count := by
  induction count generalizing before b rest with
  | zero => rfl
  | succ count ih =>
    rw [following]
    cases rest with
    | nil =>
      rw [next_ofBlocks_none]
      · rfl
      · intro c hc
        exact hlinked.previous_ne_last hclimbs (hperm.mem_iff.mp hc)
    | cons c rest =>
      have hc : c ∈ served := hperm.mem_iff.mpr (by simp)
      have hprevious : c.previous = b.hash := (Linked.append_right hlinked).1
      rw [← hprevious, next_ofBlocks ?_ hc, Option.bind_some, blocks_ofBlocks ?_ hc, List.take_succ_cons]
      · have happend : before ++ b :: c :: rest = (before ++ [b]) ++ c :: rest := by simp
        rw [happend] at hperm hlinked hclimbs hhash
        exact congrArg _ (ih hperm hlinked hclimbs hhash)
      · intro d hd d' hd'
        exact hhash d (hperm.mem_iff.mp hd) d' (hperm.mem_iff.mp hd')
      · intro d hd d' hd'
        exact hlinked.eq_of_previous hclimbs (hperm.mem_iff.mp hd) (hperm.mem_iff.mp hd')

/-- A peer knows nothing after a block that none of its blocks follows. -/
theorem following_ofBlocks_nil {hash : Hash} (h : ∀ b ∈ blocks, b.previous ≠ hash) (count : Nat) :
    (ofBlocks blocks).following count hash = [] := by
  cases count with
  | zero => rfl
  | succ count => simp only [following, next_ofBlocks_none h, Option.bind_none]

end BlockServer

/-! ## The chain that is served -/

/-- Blocks as a peer serves them: each follows the one before, the heights grow by one, and the bodies
match the headers. -/
structure ServedChain (served : List Block) : Prop where
  linked : ∃ parent, Linked parent served
  climbs : Climbs served
  matchesHeader : ∀ b ∈ served, b.matchesHeader

/-- Blocks of one hash have one header. -/
def HashesDistinct (blocks : List Block) : Prop :=
  ∀ b ∈ blocks, ∀ c ∈ blocks, b.hash = c.hash → b.header = c.header

instance (blocks : List Block) : Decidable (HashesDistinct blocks) :=
  inferInstanceAs (Decidable (∀ b ∈ blocks, ∀ c ∈ blocks, b.hash = c.hash → b.header = c.header))

theorem HashesDistinct.mono {blocks blocks' : List Block} (h : HashesDistinct blocks)
    (hsubset : blocks' ⊆ blocks) : HashesDistinct blocks' :=
  fun b hb c hc => h b (hsubset hb) c (hsubset hc)

theorem HashesDistinct.height_eq {blocks : List Block} (h : HashesDistinct blocks) {b c : Block}
    (hb : b ∈ blocks) (hc : c ∈ blocks) (he : b.hash = c.hash) : b.height = c.height :=
  congrArg Header.height (h b hb c hc he)

namespace ServedChain

variable {served offered : List Block} {i : Nat}

theorem height_getElem (h : ServedChain served) (hi : i < served.length) :
    served[i].height.toNat = served[0].height.toNat + i := by
  obtain ⟨parent, hlinked⟩ := h.linked
  cases served with
  | nil => cases hi
  | cons first rest => exact hlinked.height_getElem_cons h.climbs i hi

/-- In a served chain the hash tells which block it is. -/
theorem eq_of_hash (h : ServedChain served) (hdistinct : HashesDistinct served) {b c : Block}
    (hb : b ∈ served) (hc : c ∈ served) (he : b.hash = c.hash) : b = c := by
  obtain ⟨parent, hlinked⟩ := h.linked
  exact hlinked.eq_of_height h.climbs hb hc (hdistinct.height_eq hb hc he)

theorem following_getElem (h : ServedChain served) (hdistinct : HashesDistinct served)
    (hperm : offered.Perm served) (hi : i < served.length) (count : Nat) :
    (BlockServer.ofBlocks offered).following count served[i].hash =
      (served.drop (i + 1)).take count := by
  obtain ⟨parent, hlinked⟩ := h.linked
  obtain ⟨before, hsplit⟩ : ∃ before, served = before ++ served[i] :: served.drop (i + 1) :=
    ⟨served.take i, by rw [← List.drop_eq_getElem_cons hi, List.take_append_drop]⟩
  have hlinked' : Linked parent (before ++ served[i] :: served.drop (i + 1)) := by rwa [← hsplit]
  refine BlockServer.following_ofBlocks ?_ hlinked' ?_ ?_ count
  · rwa [← hsplit]
  · rw [← hsplit]
    exact h.climbs
  · rw [← hsplit]
    exact fun b hb c hc => h.eq_of_hash hdistinct hb hc

end ServedChain

end ChainNode
