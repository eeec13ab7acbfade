import ChainNode.Proofs.Sync.Served
import ChainNode.Proofs.Sync.Tips

/-!
# The tree of blocks stays consistent

Whatever is asked of a tree of blocks that began with a first one, in whatever order, its blocks hang
together (`BlockTree.Consistent`): each but the first has its parent in the tree, with an executed
block its ancestors are executed, and the heads are tips of blocks of the tree.

To execute a block is to walk towards the root and to mark each block on the way, up to one that is
marked already (`BlockTree.Walk`). Nothing in the walk bounds it; but each step marks one more block of
the tree, so it ends after no more steps than there are blocks (`BlockTree.walk_executeBranch`). While
it is under way the marked blocks are closed under parents but for the block that comes next.
-/

namespace ChainNode

/-- A call on a tree of blocks. -/
inductive TreeCall
  | attach (b : Block)
  | update (hash : Hash)
  | setIrreversible (hash : Hash)

/-- The higher of two tips is one of them. -/
theorem Tip.higher_cases (t u : Tip) : t.higher u = t ∨ t.higher u = u := by
  rw [higher]
  split
  · exact .inr rfl
  · exact .inl rfl

theorem Tip.height_le_higher (t u : Tip) : t.height ≤ (t.higher u).height := by
  rw [higher]
  split
  case isTrue hlt => exact UInt64.le_of_lt hlt
  case isFalse => exact UInt64.le_refl _

namespace TreeCall

/-- The answer, and the tree after the call. -/
def perform (t : BlockTree) : TreeCall → Except ChainError Unit × BlockTree
  | attach b => t.attach b
  | update hash => t.update hash
  | setIrreversible hash => t.setIrreversible hash

/-- The block that a call brings. -/
def brings? : TreeCall → Option Block
  | attach b => some b
  | update _ | setIrreversible _ => none

end TreeCall

namespace BlockTree

variable {t t' : BlockTree} {genesis b : Block} {hash : Hash}

/-- The tree after calls, those that failed included. -/
def performAll (t : BlockTree) (calls : List TreeCall) : BlockTree :=
  calls.foldl (fun t call => (call.perform t).2) t

/-! ## The walk to an executed block -/

/-- The walk that marks a block and its ancestors executed: it ends at a block that is, fails at one
that is not stored, and otherwise marks the block it has come to and goes on with the parent. -/
inductive Walk : BlockTree → Hash → Except ChainError Unit × BlockTree → Prop
  | done {t : BlockTree} {hash : Hash} (h : hash ∈ t.executed) : Walk t hash (.ok (), t)
  | missing {t : BlockTree} {hash : Hash} (hnew : hash ∉ t.executed) (hb : t.blocks[hash]? = none) :
    Walk t hash (.error (.unknownBlock hash), t)
  | mark {t : BlockTree} {hash : Hash} {b : Block} {r : Except ChainError Unit × BlockTree}
    (hnew : hash ∉ t.executed) (hb : t.blocks[hash]? = some b)
    (hrest : Walk { t with executed := t.executed.insert hash } b.previous r) : Walk t hash r

/-- The number of blocks that are not executed. -/
def unexecuted (t : BlockTree) : Nat := t.blocks.keys.countP fun h => !t.executed.contains h

theorem unexecuted_le_size (t : BlockTree) : t.unexecuted ≤ t.blocks.size := by
  rw [← Std.ExtTreeMap.length_keys]
  exact List.countP_le_length

/-- A block that is marked is one less to mark. -/
theorem unexecuted_mark (hmem : hash ∈ t.blocks) (hnew : hash ∉ t.executed) :
    ({ t with executed := t.executed.insert hash } : BlockTree).unexecuted < t.unexecuted := by
  obtain ⟨before, after, hkeys⟩ := List.append_of_mem (Std.ExtTreeMap.mem_keys.mpr hmem)
  have hless (keys : List Hash) : keys.countP (fun h => !(t.executed.insert hash).contains h) ≤
      keys.countP fun h => !t.executed.contains h := by
    refine List.countP_mono_left fun h _ hh => ?_
    simp only [Std.ExtTreeSet.contains_insert, Bool.not_or, Bool.and_eq_true] at hh
    exact hh.2
  have hbefore := hless before
  have hafter := hless after
  have hthere : t.executed.contains hash = false := by
    rwa [← Bool.not_eq_true, Std.ExtTreeSet.contains_iff_mem]
  simp only [unexecuted, hkeys, List.countP_append, List.countP_cons, hthere,
    Std.ExtTreeSet.contains_insert_self, Bool.not_true, Bool.not_false, if_true,
    Bool.false_eq_true, if_false]
  omega

/-- With more steps than there are blocks to mark the walk comes to its end. -/
theorem walk_executeBranch_of_lt {fuel : Nat} (h : t.unexecuted < fuel) :
    t.Walk hash (t.executeBranch fuel hash) := by
  induction fuel generalizing t hash with
  | zero => omega
  | succ fuel ih =>
    rw [executeBranch]
    split
    case isTrue hdone => exact .done hdone
    case isFalse hnew =>
      split
      case h_1 hb => exact .missing hnew hb
      case h_2 b hb =>
        have hless := unexecuted_mark (mem_blocks hb) hnew
        exact .mark hnew hb (ih (by omega))

/-- The walk that executes a block always comes to its end. -/
theorem walk_executeBranch (t : BlockTree) (hash : Hash) :
    t.Walk hash (t.executeBranch (t.blocks.size + 1) hash) :=
  walk_executeBranch_of_lt (Nat.lt_succ_of_le t.unexecuted_le_size)

/-- With an executed block its parent is executed, unless the block is the root or the parent comes
next. -/
def ClosedUpTo (t : BlockTree) (root : Hash) (next : Option Hash) : Prop :=
  ∀ (h : Hash) (b : Block), h ∈ t.executed → t.blocks[h]? = some b → h ≠ root →
    b.previous ∈ t.executed ∨ some b.previous = next

/-- At its end the walk has marked all ancestors. -/
theorem Walk.closed {root : Hash} {r : Except ChainError Unit × BlockTree} (h : t.Walk hash r)
    (hok : r.1 = .ok ()) (hclosed : t.ClosedUpTo root (some hash)) : r.2.ClosedUpTo root none := by
  induction h with
  | @done t hash hdone =>
    intro k b hk hb hroot
    obtain hprevious | hnext := hclosed k b hk hb hroot
    · exact .inl hprevious
    · exact .inl (Option.some.inj hnext ▸ hdone)
  | missing => cases hok
  | @mark t hash b r hnew hb hrest ih =>
    refine ih hok fun k c hk hc hroot => ?_
    have hmark (k : Hash) : k ∈ t.executed.insert hash ↔ hash = k ∨ k ∈ t.executed := by
      simp [Std.ExtTreeSet.mem_insert]
    obtain rfl | hk := (hmark k).mp hk
    · exact .inr (by rw [Option.some.inj (hc.symm.trans hb)])
    · refine .inl ((hmark _).mpr ?_)
      obtain hprevious | hnext := hclosed k c hk hc hroot
      · exact .inr hprevious
      · exact .inl (Option.some.inj hnext).symm

theorem executed_update (hb : t.blocks[hash]? = some b) :
    (t.update hash).2.executed = (t.executeBranch (t.blocks.size + 1) hash).2.executed := by
  rw [update, hb]
  dsimp only
  split
  · next heq => rw [heq]
  · next heq => rw [heq]

/-! ## Consistent trees -/

/-- The blocks of a tree hang together, and its heads are among them. -/
structure Consistent (genesis : Block) (t : BlockTree) : Prop where
  /-- Each block is stored under its hash. -/
  hash_eq : ∀ (h : Hash) (b : Block), t.blocks[h]? = some b → b.hash = h
  /-- Each block but the first has its parent stored. -/
  previous_mem : ∀ (h : Hash) (b : Block), t.blocks[h]? = some b → h ≠ genesis.hash →
    b.previous ∈ t.blocks
  executed_mem : ∀ h ∈ t.executed, h ∈ t.blocks
  genesis_executed : genesis.hash ∈ t.executed
  /-- Each executed block but the first has its parent executed. -/
  previous_executed : ∀ (h : Hash) (b : Block), h ∈ t.executed → t.blocks[h]? = some b →
    h ≠ genesis.hash → b.previous ∈ t.executed
  /-- The end of the best chain is executed. -/
  best_executed : t.heads.best.hash ∈ t.executed
  /-- The heads give the heights of the blocks they name. -/
  best : t.HasTip t.heads.best
  longest : t.HasTip t.heads.longest
  irreversible : t.HasTip t.heads.irreversible
  /-- No block is higher than the longest chain. -/
  le_longest : ∀ (h : Hash) (b : Block), t.blocks[h]? = some b → b.height ≤ t.heads.longest.height

namespace Consistent

theorem headed (h : t.Consistent genesis) : t.Headed := ⟨h.longest, h.irreversible, h.le_longest⟩

theorem wellFormed (h : t.Consistent genesis) : t.WellFormed where
  hash_eq := h.hash_eq
  executed_mem := h.executed_mem
  previous_mem hash b hb hnew := h.previous_mem hash b hb fun he => hnew (he ▸ h.genesis_executed)

theorem best_le_longest (h : t.Consistent genesis) :
    t.heads.best.height ≤ t.heads.longest.height := by
  obtain ⟨b, hb, hheight⟩ := h.best
  exact hheight ▸ h.le_longest _ b hb

theorem new (genesis : Block) : (new genesis).Consistent genesis where
  hash_eq := (wellFormed_new genesis).hash_eq
  previous_mem _ _ hb hne := absurd ((mem_new genesis).mp (mem_blocks hb)).symm hne
  executed_mem := (wellFormed_new genesis).executed_mem
  genesis_executed := (mem_executed_new genesis).mpr rfl
  previous_executed _ _ hh _ hne := absurd ((mem_executed_new genesis).mp hh).symm hne
  best_executed := (mem_executed_new genesis).mpr rfl
  best := (headed_new genesis).longest
  longest := (headed_new genesis).longest
  irreversible := (headed_new genesis).irreversible
  le_longest := (headed_new genesis).le_longest

/-- A block that comes replaces none with another header. -/
theorem grown (h : t.Consistent genesis) (hprevious : b.previous ∈ t.blocks)
    (hsame : ∀ c, t.blocks[b.hash]? = some c → c.header = b.header) :
    (t.grown b).Consistent genesis := by
  have hheight (c : Block) (hc : t.blocks[b.hash]? = some c) : c.height = b.height :=
    congrArg Header.height (hsame c hc)
  have hheaded := h.headed.grown hheight
  have hwf := h.wellFormed.grown hprevious
  refine ⟨hwf.hash_eq, ?_, hwf.executed_mem, h.genesis_executed, ?_, h.best_executed,
    h.best.grown hheight, hheaded.longest, hheaded.irreversible, hheaded.le_longest⟩
  · intro hash c hc hne
    rw [getElem?_grown] at hc
    apply mem_grown.mpr ∘ Or.inr
    split at hc
    case isTrue => exact Option.some.inj hc ▸ hprevious
    case isFalse => exact h.previous_mem hash c hc hne
  · intro hash c hh hc hne
    rw [getElem?_grown] at hc
    split at hc
    case isTrue he =>
      -- an executed block is stored again, with the parent it had
      subst he
      obtain ⟨old, hold⟩ := mem_blocks_iff.mp (h.executed_mem _ hh)
      have hparent : c.previous = old.previous := by
        rw [← Option.some.inj hc]
        exact congrArg Header.previous (hsame old hold).symm
      exact hparent ▸ h.previous_executed _ old hh hold hne
    case isFalse => exact h.previous_executed hash c hh hc hne

/-- Executing a stored block succeeds and leaves the tree consistent. -/
theorem update (h : t.Consistent genesis) (hb : t.blocks[hash]? = some b) :
    ∃ executed, t.update hash = (.ok (), { t with
        executed := executed
        heads := { t.heads with best := t.heads.best.higher b.tip } }) ∧
      (t.update hash).2.Consistent genesis := by
  obtain ⟨executed, hupdate, hwf, hmono, hdone⟩ := h.wellFormed.update hb
  obtain ⟨marked, hmarked, -⟩ :=
    h.wellFormed.executeBranch hash (mem_blocks hb) (t.blocks.size + 1)
  obtain rfl : marked = executed := by
    have hsame := executed_update hb
    rw [hupdate, hmarked] at hsame
    exact hsame.symm
  have hclosed : ({ t with executed := marked } : BlockTree).ClosedUpTo genesis.hash none := by
    have hwalk := t.walk_executeBranch hash
    rw [hmarked] at hwalk
    exact hwalk.closed rfl fun k c hk hc hne => .inl (h.previous_executed k c hk hc hne)
  have hbest : t.HasTip (t.heads.best.higher b.tip) ∧ (t.heads.best.higher b.tip).hash ∈ marked := by
    obtain hhigher | hhigher := t.heads.best.higher_cases b.tip
    · rw [hhigher]
      exact ⟨h.best, hmono _ h.best_executed⟩
    · rw [hhigher]
      obtain rfl := h.hash_eq hash b hb
      exact ⟨⟨b, hb, rfl⟩, hdone⟩
  refine ⟨marked, hupdate, ?_⟩
  rw [hupdate]
  exact
    { hash_eq := h.hash_eq
      previous_mem := h.previous_mem
      executed_mem := hwf.executed_mem
      genesis_executed := hmono _ h.genesis_executed
      previous_executed := fun k c hk hc hne => (hclosed k c hk hc hne).resolve_right nofun
      best_executed := hbest.2
      best := hbest.1
      longest := h.longest
      irreversible := h.irreversible
      le_longest := h.le_longest }

theorem setIrreversible (h : t.Consistent genesis) (hash : Hash) :
    (t.setIrreversible hash).2.Consistent genesis := by
  rw [BlockTree.setIrreversible]
  split
  case h_1 => exact h
  case h_2 b hb =>
    obtain ⟨hhash, hprevious, hmem, hroot, hclosed, hexecuted, hbest, hlongest, -, hle⟩ := h
    exact ⟨hhash, hprevious, hmem, hroot, hclosed, hexecuted, hbest, hlongest, ⟨b, hb, rfl⟩, hle⟩

end Consistent

/-! ## Calls -/

theorem attach_eq_error_iff {e : ChainError} :
    (t.attach b).1 = .error e ↔ b.previous ∉ t.blocks ∧ e = .unknownParent b.previous := by
  rw [attach_eq]
  split <;> simp [*, eq_comm]

theorem Consistent.update_eq_error_iff (h : t.Consistent genesis) {e : ChainError} :
    (t.update hash).1 = .error e ↔ hash ∉ t.blocks ∧ e = .unknownBlock hash := by
  by_cases hmem : hash ∈ t.blocks
  · obtain ⟨b, hb⟩ := mem_blocks_iff.mp hmem
    obtain ⟨executed, heq, -⟩ := h.update hb
    simp [heq, hmem]
  · simp [BlockTree.update, hmem, eq_comm (a := e)]

theorem setIrreversible_eq_error_iff {e : ChainError} :
    (t.setIrreversible hash).1 = .error e ↔ hash ∉ t.blocks ∧ e = .unknownBlock hash := by
  by_cases hmem : hash ∈ t.blocks
  · simp [setIrreversible, hmem]
  · simp [setIrreversible, hmem, eq_comm (a := e)]

/-- A call that fails leaves the tree as it was. -/
theorem Consistent.perform_of_error (h : t.Consistent genesis) {call : TreeCall} {e : ChainError}
    (he : (call.perform t).1 = .error e) : (call.perform t).2 = t := by
  cases call with
  | attach b =>
    obtain ⟨hnew, -⟩ := attach_eq_error_iff.mp he
    rw [TreeCall.perform, attach_eq, if_neg hnew]
  | update hash =>
    obtain ⟨hnew, -⟩ := h.update_eq_error_iff.mp he
    simp [TreeCall.perform, BlockTree.update, hnew]
  | setIrreversible hash =>
    obtain ⟨hnew, -⟩ := setIrreversible_eq_error_iff.mp he
    simp [TreeCall.perform, BlockTree.setIrreversible, hnew]

/-- The best and the longest chain of one tree are not higher than those of another. -/
structure NoHigher (t t' : BlockTree) : Prop where
  best : t.heads.best.height ≤ t'.heads.best.height
  longest : t.heads.longest.height ≤ t'.heads.longest.height

theorem NoHigher.refl (t : BlockTree) : t.NoHigher t := ⟨UInt64.le_refl _, UInt64.le_refl _⟩

theorem NoHigher.trans {s : BlockTree} (h : t.NoHigher t') (h' : t'.NoHigher s) : t.NoHigher s :=
  ⟨UInt64.le_trans h.best h'.best, UInt64.le_trans h.longest h'.longest⟩

/-- A call on a consistent tree keeps it consistent, and lowers neither chain. -/
theorem Consistent.perform (h : t.Consistent genesis) {call : TreeCall}
    (hsame : ∀ b ∈ call.brings?, ∀ c, t.blocks[b.hash]? = some c → c.header = b.header) :
    (call.perform t).2.Consistent genesis ∧ t.NoHigher (call.perform t).2 := by
  cases call with
  | attach b =>
    rw [TreeCall.perform, attach_eq]
    split
    case isTrue hprevious =>
      exact ⟨h.grown hprevious (hsame b rfl), UInt64.le_refl _, Tip.height_le_higher _ _⟩
    case isFalse => exact ⟨h, .refl t⟩
  | update hash =>
    cases hb : t.blocks[hash]? with
    | none =>
      have hsame : t.update hash = (.error (.unknownBlock hash), t) := by simp [BlockTree.update, hb]
      rw [TreeCall.perform, hsame]
      exact ⟨h, .refl t⟩
    | some b =>
      obtain ⟨executed, heq, hupdated⟩ := h.update hb
      refine ⟨hupdated, ?_⟩
      rw [TreeCall.perform, heq]
      exact ⟨Tip.height_le_higher _ _, UInt64.le_refl _⟩
  | setIrreversible hash =>
    refine ⟨h.setIrreversible hash, ?_⟩
    rw [TreeCall.perform, BlockTree.setIrreversible]
    split <;> exact ⟨UInt64.le_refl _, UInt64.le_refl _⟩

/-- Only blocks that were stored before or that the call brings are stored after a call. -/
theorem mem_of_getElem?_perform {known : List Block} {call : TreeCall}
    (h : ∀ (hash : Hash) (b : Block), t.blocks[hash]? = some b → b ∈ known)
    (hcall : ∀ b ∈ call.brings?, b ∈ known) :
    ∀ (hash : Hash) (b : Block), (call.perform t).2.blocks[hash]? = some b → b ∈ known := by
  intro hash b hb
  cases call with
  | attach c =>
    rw [TreeCall.perform, attach_eq] at hb
    split at hb
    case isTrue =>
      rw [getElem?_grown] at hb
      split at hb
      case isTrue => exact Option.some.inj hb ▸ hcall c rfl
      case isFalse => exact h hash b hb
    case isFalse => exact h hash b hb
  | update k =>
    rw [TreeCall.perform, blocks_update] at hb
    exact h hash b hb
  | setIrreversible k =>
    rw [TreeCall.perform, ← BlockTree.askIrreversible, blocks_askIrreversible] at hb
    exact h hash b hb

/-- Calls that bring no two blocks of one hash keep a tree consistent, and lower neither chain. -/
theorem Consistent.performAll {known : List Block} (hdistinct : HashesDistinct known)
    (h : t.Consistent genesis)
    (hknown : ∀ (hash : Hash) (b : Block), t.blocks[hash]? = some b → b ∈ known)
    {calls : List TreeCall} (hcalls : ∀ b ∈ calls.filterMap TreeCall.brings?, b ∈ known) :
    (t.performAll calls).Consistent genesis ∧
      (∀ (hash : Hash) (b : Block), (t.performAll calls).blocks[hash]? = some b → b ∈ known) ∧
      t.NoHigher (t.performAll calls) := by
  induction calls generalizing t with
  | nil => exact ⟨h, hknown, .refl t⟩
  | cons call rest ih =>
    have hcall (b : Block) (hb : b ∈ call.brings?) : b ∈ known :=
      hcalls b (List.mem_filterMap.mpr ⟨call, List.mem_cons_self, hb⟩)
    have hrest (b : Block) (hb : b ∈ rest.filterMap TreeCall.brings?) : b ∈ known :=
      hcalls b (List.filterMap_subset TreeCall.brings? (List.subset_cons_self call rest) hb)
    obtain ⟨hone, hhigher⟩ := h.perform fun b hb c hc =>
      hdistinct c (hknown _ c hc) b (hcall b hb) (h.hash_eq _ c hc)
    obtain ⟨hall, hknown', hhigher'⟩ := ih hone (mem_of_getElem?_perform hknown hcall) hrest
    exact ⟨hall, hknown', hhigher.trans hhigher'⟩

/-- **A tree of blocks stays consistent**, whatever calls are made on it after it began with one block.
Further calls lower neither the best nor the longest chain, and the best is never the higher one. A
block can be attached just when its parent is stored, and executed just when it is stored itself; a call
that fails changes nothing; and the walk that executes a block always comes to its end. -/
theorem consistent_of_calls (genesis : Block) (calls : List TreeCall)
    (hdistinct : HashesDistinct (genesis :: calls.filterMap TreeCall.brings?)) :
    let t := (new genesis).performAll calls
    t.Consistent genesis ∧
      t.heads.best.height ≤ t.heads.longest.height ∧
      (∀ earlier, earlier <+: calls →
        ((new genesis).performAll earlier).heads.best.height ≤ t.heads.best.height ∧
        ((new genesis).performAll earlier).heads.longest.height ≤ t.heads.longest.height) ∧
      (∀ b e, (t.attach b).1 = .error e ↔ b.previous ∉ t.blocks ∧ e = .unknownParent b.previous) ∧
      (∀ hash e, (t.update hash).1 = .error e ↔ hash ∉ t.blocks ∧ e = .unknownBlock hash) ∧
      (∀ call e, (TreeCall.perform t call).1 = .error e → (TreeCall.perform t call).2 = t) ∧
      ∀ hash, t.Walk hash (t.executeBranch (t.blocks.size + 1) hash) := by
  intro t
  have hfirst (hash : Hash) (b : Block) (hb : (new genesis).blocks[hash]? = some b) :
      b ∈ genesis :: calls.filterMap TreeCall.brings? := by
    rw [getElem?_new] at hb
    split at hb
    · exact Option.some.inj hb ▸ List.mem_cons_self
    · cases hb
  have hbrought (part : List TreeCall) (hpart : part ⊆ calls) (b : Block)
      (hb : b ∈ part.filterMap TreeCall.brings?) : b ∈ genesis :: calls.filterMap TreeCall.brings? :=
    List.mem_cons_of_mem _ (List.filterMap_subset TreeCall.brings? hpart hb)
  have hall (part : List TreeCall) (hpart : part ⊆ calls) :=
    (Consistent.new genesis).performAll hdistinct hfirst (hbrought part hpart)
  have ht : t.Consistent genesis := (hall calls (List.Subset.refl _)).1
  refine ⟨ht, ht.best_le_longest, ?_, fun b e => attach_eq_error_iff,
    fun hash e => ht.update_eq_error_iff, fun call e => ht.perform_of_error, t.walk_executeBranch⟩
  rintro earlier ⟨later, rfl⟩
  obtain ⟨hearlier, hknown, -⟩ := hall earlier (List.subset_append_left _ _)
  obtain ⟨-, -, hbest, hlongest⟩ :=
    hearlier.performAll hdistinct hknown (hbrought later (List.subset_append_right _ _))
  have hthen : t = ((new genesis).performAll earlier).performAll later := List.foldl_append
  rw [hthen]
  exact ⟨hbest, hlongest⟩

/-- A fork that is higher by two, an orphan, an end of a branch that is executed before its parent, a
block that comes a second time, and a final block: nothing is lost. -/
theorem consistent_of_calls_fork :
    let a := Block.make (Block.genesis 0).hash 2 0 []
    let b := Block.make a.hash 3 0 []
    let fork := Block.make (Block.genesis 0).hash 5 0 []
    let orphan := Block.make .zero 9 0 []
    let calls : List TreeCall := [.attach a, .attach orphan, .attach b, .update b.hash, .attach fork,
      .attach a, .setIrreversible a.hash, .update orphan.hash]
    let t := (new (.genesis 0)).performAll calls
    HashesDistinct (.genesis 0 :: calls.filterMap TreeCall.brings?) ∧ t.Consistent (.genesis 0) ∧
      t.heads = ⟨b.tip, fork.tip, a.tip⟩ ∧ a.hash ∈ t.executed ∧ fork.hash ∉ t.executed ∧
      (t.attach orphan).1 = .error (.unknownParent .zero) ∧
      (t.update orphan.hash).1 = .error (.unknownBlock orphan.hash) := by
  intro a b fork orphan calls t
  obtain ⟨hdistinct, hzero, horphan, hheads, hfork, hb, hstored, hne⟩ :
      HashesDistinct (.genesis 0 :: calls.filterMap TreeCall.brings?) ∧ Hash.zero ∉ t.blocks ∧
        orphan.hash ∉ t.blocks ∧ t.heads = ⟨b.tip, fork.tip, a.tip⟩ ∧ fork.hash ∉ t.executed ∧
        b.hash ∈ t.executed ∧ t.blocks[b.hash]? = some b ∧ b.hash ≠ (Block.genesis 0).hash := by
    decide +kernel
  obtain ⟨ht, -, -, hattach, hupdate, -⟩ := consistent_of_calls (.genesis 0) calls hdistinct
  exact ⟨hdistinct, ht, hheads, ht.previous_executed _ b hb hstored hne, hfork,
    (hattach orphan _).mpr ⟨hzero, rfl⟩, (hupdate orphan.hash _).mpr ⟨horphan, rfl⟩⟩

end BlockTree

end ChainNode
