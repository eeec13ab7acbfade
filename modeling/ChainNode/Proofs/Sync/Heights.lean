import ChainNode.Proofs.Sync.Downloads
import ChainNode.Proofs.Sync.Served

/-!
# How many blocks a download brings, and how high

A download asks for no more blocks than it may still bring, but it does not count what comes, and it
takes the heights as the blocks give them. So it exceeds its cap when a peer answers with more than was
asked for, by that one answer at most; and a block that gives a wrong height can finish a job
(`DownloadSession.not_capped_nor_consecutive`). From peers that keep to what was asked for and blocks
that are one higher than the block they follow, it brings consecutive heights up to its cap, and a job
is finished only by the blocks up to its target (`DownloadSession.run_heights`).
-/

namespace ChainNode

/-- Each block is one higher than the block it follows, where that is the first one or among them. -/
structure Steady (after : Tip) (blocks : List Block) : Prop where
  first : ∀ b ∈ blocks, b.previous = after.hash → b.height.toNat = after.height.toNat + 1
  climbs : Climbs blocks

namespace Linked

variable {after : Tip} {blocks : List Block}

theorem height_steady (h : Linked after.hash blocks) (hsteady : Steady after blocks) (i : Nat)
    (hi : i < blocks.length) : blocks[i].height.toNat = after.height.toNat + i + 1 := by
  cases blocks with
  | nil => simp at hi
  | cons b rest =>
    rw [h.height_getElem_cons hsteady.climbs i hi, hsteady.first b List.mem_cons_self h.1]
    omega

theorem height_reached (h : Linked after.hash blocks) (hsteady : Steady after blocks) :
    (reached after blocks).height.toNat = after.height.toNat + blocks.length := by
  cases hlast : blocks[blocks.length - 1]? with
  | none =>
    have hnil : blocks = [] := List.getLast?_eq_none_iff.mp (List.getLast?_eq_getElem?.trans hlast)
    subst hnil
    rfl
  | some b =>
    obtain ⟨hi, rfl⟩ := List.getElem?_eq_some_iff.mp hlast
    have hreached : (reached after blocks).height = blocks[blocks.length - 1].height := by
      rw [reached, List.getLast?_eq_getElem?, hlast]
      rfl
    rw [hreached, h.height_steady hsteady _ hi]
    omega

/-- Every height on the way is that of a block. -/
theorem exists_height (h : Linked after.hash blocks) (hsteady : Steady after blocks)
    {height : UInt64} (hlow : after.height < height) (hhigh : height ≤ (reached after blocks).height) :
    ∃ b ∈ blocks, b.height = height := by
  have hreached := h.height_reached hsteady
  rw [UInt64.lt_iff_toNat_lt] at hlow
  rw [UInt64.le_iff_toNat_le] at hhigh
  have hi : height.toNat - after.height.toNat - 1 < blocks.length := by omega
  refine ⟨blocks[height.toNat - after.height.toNat - 1], List.getElem_mem hi, ?_⟩
  apply UInt64.toNat_inj.mp
  rw [h.height_steady hsteady _ hi]
  omega

end Linked

namespace DownloadSession

variable {χ κ : Type} {n : Node χ} {after : Tip} {batch cap : Nat} {peer : Option Peer}
  {s m : DownloadSession χ} {d : Download}

/-- No answer is longer than what was asked for. -/
def Modest (exchanges : List (Request × BatchAnswer)) : Prop :=
  ∀ previous count peer blocks,
    (.following previous count peer, .ok blocks) ∈ exchanges → blocks.length ≤ count

/-- Only the last answer brings more than there may be. -/
def Exceeds (cap : Nat) (s : DownloadSession χ) : Prop :=
  ∀ past r answer, s.exchanges = past ++ [(r, answer)] → (answered past).length < cap

theorem Standing.exceeds (h : s.Standing after cap d) (hr : d.request?.isSome) (r : Request)
    (answer : BatchAnswer) (hexchanges : m.exchanges = s.exchanges ++ [(r, answer)]) :
    m.Exceeds cap := by
  intro past r' answer' hpast
  obtain ⟨rfl, -⟩ := List.append_inj' (hexchanges.symm.trans hpast) rfl
  rw [← h.blocks, ← h.count]
  exact (h.count_lt hr).2

theorem exchanges_receive (s : DownloadSession χ) (d : Download) (r : Request)
    (answer : BatchAnswer) : (s.receive d r answer).exchanges = s.exchanges ++ [(r, answer)] := rfl

/-- A modest answer keeps a download within its cap. -/
theorem Standing.receive_le (h : s.Standing after cap d) (hle : s.blocks.length ≤ cap) {r : Request}
    (hr : d.request? = some r) {answer : BatchAnswer}
    (hmodest : Modest (s.exchanges ++ [(r, answer)])) :
    (s.receive d r answer).blocks.length ≤ cap := by
  obtain ⟨e, -, hreceive⟩ | ⟨rfl, hreceive⟩ | ⟨blocks, last, rfl, -, -, -, -, hblocks, -⟩ :=
    s.receive_cases d r answer
  · rw [hreceive]
    exact hle
  · rw [hreceive]
    exact hle
  · have hrequest : r = .following d.last.hash d.wanted d.peer := by
      rw [Download.request?] at hr
      split at hr
      · cases hr
      · exact (Option.some.inj hr).symm
    have hlength := hmodest d.last.hash d.wanted d.peer blocks (by simp [hrequest])
    have hwanted : d.wanted ≤ d.cap - d.count := Nat.min_le_right _ _
    rw [hblocks, List.length_append]
    rw [h.cap_eq, h.count] at hwanted
    omega

section Run
variable [ChainService χ] {act : κ → χ → χ} {events : List (Event κ)}

theorem exceeds_run (hrun : run act (start n after batch cap peer) events = some s) :
    s.Exceeds cap := by
  have h : s.Sound after cap ∧ s.Exceeds cap := by
    refine run_keeps (P := fun s => s.Sound after cap ∧ s.Exceeds cap) ?_
      ⟨sound_start n after batch cap peer, ?_⟩ hrun
    · rintro e - k k' ⟨hsound, hexceeds⟩ hstep
      refine ⟨hsound.step hstep, ?_⟩
      obtain ⟨answer, d, r, rfl, hd, hr, rfl⟩ | ⟨node, rfl, -⟩ := step_cases hstep
      · exact (hsound.standing hd).exceeds (by rw [hr]; rfl) r answer (exchanges_receive ..)
      · exact hexceeds
    · intro past r answer hpast
      cases past <;> cases hpast
  exact h.2

theorem length_le_run (hrun : run act (start n after batch cap peer) events = some s)
    (hmodest : Modest s.exchanges) : s.blocks.length ≤ cap := by
  have h : s.Sound after cap ∧ (Modest s.exchanges → s.blocks.length ≤ cap) := by
    refine run_keeps (P := fun s => s.Sound after cap ∧ (Modest s.exchanges → s.blocks.length ≤ cap))
      ?_ ⟨sound_start n after batch cap peer, fun _ => Nat.zero_le _⟩ hrun
    rintro e - k k' ⟨hsound, hle⟩ hstep
    refine ⟨hsound.step hstep, ?_⟩
    intro hmodest
    obtain ⟨answer, d, r, rfl, hd, hr, rfl⟩ | ⟨node, rfl, -⟩ := step_cases hstep
    · refine (hsound.standing hd).receive_le (hle ?_) hr hmodest
      intro previous count peer blocks hmem
      exact hmodest previous count peer blocks (List.mem_append_left _ hmem)
    · exact hle hmodest
  exact h.2 hmodest

/-- **Heights and numbers.** Whatever peers answer, a download that has not failed gives the number of
blocks handed over, and hash and height of the last of them as that block gives them; without its last
answer they were fewer than its cap; and a job it has brought further is finished exactly if that height
reaches the target's.

If no answer was longer than what was asked for, the blocks are no more than the cap. If each block is
one higher than the block it follows, their heights are the next ones in order, and a job is finished
only when all heights up to its target are there. -/
theorem run_heights (act : κ → χ → χ) (n : Node χ) (after : Tip) (batch cap : Nat)
    (peer : Option Peer) {events : List (Event κ)} {s : DownloadSession χ} {d : Download}
    (hrun : run act (start n after batch cap peer) events = some s) (hd : s.progress = .ok d) :
    d.count = s.blocks.length ∧ d.last = reached after s.blocks ∧
    (∀ past r answer, s.exchanges = past ++ [(r, answer)] → (answered past).length < cap) ∧
    (∀ j k n', s.node.recordProgress j d = (.ok (), n') → n'.board.store.jobs[j.id]? = some k →
      (k.finished ↔ j.target.height ≤ (reached after s.blocks).height)) ∧
    (Modest s.exchanges → s.blocks.length ≤ cap) ∧
    (Steady after s.blocks →
      (∀ (i : Nat) (hi : i < s.blocks.length),
        s.blocks[i].height.toNat = after.height.toNat + i + 1) ∧
      d.last.height.toNat = after.height.toNat + d.count ∧
      ∀ j k n', s.node.recordProgress j d = (.ok (), n') → n'.board.store.jobs[j.id]? = some k →
        k.finished → ∀ height, after.height < height → height ≤ j.target.height →
          ∃ b ∈ s.blocks, b.height = height) := by
  have h := (sound_run hrun).standing hd
  have hfinished (j k : Job) (n' : Node χ) (hn' : s.node.recordProgress j d = (.ok (), n'))
      (hk : n'.board.store.jobs[j.id]? = some k) :
      k.finished ↔ j.target.height ≤ (reached after s.blocks).height := by
    obtain ⟨deadline, -, hstore⟩ := Node.recordProgress_ok hn'
    rw [hstore, JobStore.update] at hk
    split at hk
    case isTrue hmem =>
      have hk' : some (Node.advancedJob j d deadline) = some k := by
        simpa [Node.advancedJob] using hk
      rw [← Option.some.inj hk', Node.advancedJob, h.last, decide_eq_true_iff]
    case isFalse hmem =>
      have hk' : s.node.board.store.jobs[(Node.advancedJob j d deadline).id]? = some k := hk
      exact absurd (Std.ExtTreeMap.mem_iff_isSome_getElem?.mpr (by rw [hk']; rfl)) hmem
  refine ⟨h.count, h.last, exceeds_run hrun, hfinished, length_le_run hrun, ?_⟩
  intro hsteady
  refine ⟨h.linked.height_steady hsteady, ?_, ?_⟩
  · rw [h.last, h.count, h.linked.height_reached hsteady]
  · intro j k n' hn' hk hfin height hlow hhigh
    exact h.linked.exists_height hsteady hlow
      (UInt64.le_trans hhigh ((hfinished j k n' hn' hk).mp hfin))

/-- Two blocks come one after the other, as they were asked for. -/
theorem run_heights_two :
    let genesis := Block.genesis 0
    let b := Block.make genesis.hash 2 0 []
    let c := Block.make b.hash 3 0 []
    let n := Node.new {} 0 (BlockTree.new genesis)
    let events : List (Event Empty) := [.answer (.ok [b]), .answer (.ok [c])]
    ∃ s d, run Empty.elim (start n genesis.tip 1 2 none) events = some s ∧ s.progress = .ok d ∧
      s.blocks = [b, c] ∧ d.count = 2 ∧ s.blocks.length ≤ 2 ∧ d.last.height.toNat = 3 := by
  intro genesis b c n events
  obtain ⟨s, hrun, hblocks, hexchanges, hok⟩ : ∃ s,
      run Empty.elim (start n genesis.tip 1 2 none) events = some s ∧ s.blocks = [b, c] ∧
        s.exchanges = [(.following genesis.hash 1 none, .ok [b]), (.following b.hash 1 none, .ok [c])] ∧
        s.progress.isOk := by
    have h : ((run Empty.elim (start n genesis.tip 1 2 none) events).any fun s =>
        s.blocks = [b, c] ∧
          s.exchanges = [(.following genesis.hash 1 none, .ok [b]), (.following b.hash 1 none, .ok [c])] ∧
          s.progress.isOk) = true := by decide +kernel
    simpa [Option.any_eq_true] using h
  obtain ⟨d, hd⟩ : ∃ d, s.progress = .ok d := by
    cases hd : s.progress with
    | ok d => exact ⟨d, rfl⟩
    | error e => simp [hd, Except.isOk, Except.toBool] at hok
  have hsteady : Steady genesis.tip [b, c] := ⟨by decide +kernel, by decide +kernel⟩
  have hmodest : Modest s.exchanges := by
    intro previous count peer blocks hmem
    rw [hexchanges] at hmem
    simp only [List.mem_cons, Prod.mk.injEq, Request.following.injEq, Except.ok.injEq,
      List.not_mem_nil, or_false] at hmem
    rcases hmem with ⟨⟨-, rfl, -⟩, rfl⟩ | ⟨⟨-, rfl, -⟩, rfl⟩ <;> exact Nat.le_refl _
  obtain ⟨hcount, -, -, -, hcap, hheights⟩ := run_heights Empty.elim n genesis.tip 1 2 none hrun hd
  have hcount : d.count = 2 := by
    rw [hcount, hblocks]
    rfl
  refine ⟨s, d, hrun, hd, hblocks, hcount, hcap hmodest, ?_⟩
  rw [(hheights (hblocks ▸ hsteady)).2.1, hcount]
  rfl

/-- Two blocks come where one was asked for, and both are handed over. And one block that says it is much
higher than the block it follows finishes a job with a target in between. -/
theorem not_capped_nor_consecutive :
    let genesis := Block.genesis 0
    let b := Block.make genesis.hash 2 0 []
    let c := Block.make b.hash 3 0 []
    let high := Block.make genesis.hash 9 0 []
    let n := ((Node.new {} 0 (BlockTree.new genesis)).enqueueJob c.tip 2 none).2
    let session := start n genesis.tip 2 1 none
    let act : Empty → BlockTree → BlockTree := Empty.elim
    (∃ s d, run act session [.answer (.ok [b, c])] = some s ∧ s.progress = .ok d ∧
      d.request? = none ∧ d.count = 2 ∧ s.blocks = [b, c]) ∧
    ∃ s d j k, run act session [.answer (.ok [high])] = some s ∧ s.progress = .ok d ∧
      d.request? = none ∧ s.blocks = [high] ∧ d.last.height = 9 ∧
      s.node.board.store.first? = some j ∧
      (s.node.recordProgress j d).2.board.store.first? = some k ∧ k.target = c.tip ∧ k.finished := by
  intro genesis b c high n session act
  constructor
  · let d : Download :=
      { Download.start genesis.tip 2 1 none with count := 2, last := c.tip, registered := some c.hash }
    have h : ((run act session [.answer (.ok [b, c])]).any fun s =>
        s.progress = .ok d ∧ s.blocks = [b, c]) = true := by decide +kernel
    obtain ⟨s, hrun, hd, hblocks⟩ : ∃ s, run act session [.answer (.ok [b, c])] = some s ∧
        s.progress = .ok d ∧ s.blocks = [b, c] := by simpa [Option.any_eq_true] using h
    exact ⟨s, d, hrun, hd, rfl, rfl, hblocks⟩
  · let d : Download :=
      { Download.start genesis.tip 2 1 none with
        count := 1, last := high.tip, registered := some high.hash }
    have h : ((run act session [.answer (.ok [high])]).any fun s =>
        s.progress = .ok d ∧ s.blocks = [high] ∧ (s.node.board.store.first?.any fun j =>
          (s.node.recordProgress j d).2.board.store.first?.any fun k =>
            k.target = c.tip ∧ k.finished) = true) = true := by decide +kernel
    obtain ⟨s, hrun, hd, hblocks, j, hj, k, hk, htarget, hfinished⟩ : ∃ s,
        run act session [.answer (.ok [high])] = some s ∧ s.progress = .ok d ∧ s.blocks = [high] ∧
          ∃ j, s.node.board.store.first? = some j ∧
            ∃ k, (s.node.recordProgress j d).2.board.store.first? = some k ∧
              k.target = c.tip ∧ k.finished := by
      simpa [Option.any_eq_true] using h
    exact ⟨s, d, j, k, hrun, hd, rfl, hblocks, rfl, hj, hk, htarget, hfinished⟩

end Run

end DownloadSession

end ChainNode
