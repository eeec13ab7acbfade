import ChainNode.Proofs.Sync.Attaching

/-!
# Attaching blocks is safe

`Node.attached` lists the blocks that a run attaches to the tree. Whatever peers send, and however the
steps of the queues mix with everything else, no block is attached twice or replaced, and each one was
judged in the step of the attach queue before it was stored: `Node.SafelyAttached` says so of a run
and the node it ends with.
-/

namespace ChainNode.Node

variable {κ : Type} {n m : Node BlockTree}

/-! ## Which blocks a run attaches -/

/-- The block that an event attaches to the tree, if it does. -/
def attachedBy (n : Node BlockTree) : Event κ → Option Block
  | .queue q => match (n.pipeline.lane q).running with
    | some (.store a _) => match n.chain.attach a.block with
      | (.ok (), _) => some a.block
      | (.error _, _) => none
    | _ => none
  | _ => none

/-- The blocks that a run attaches to the tree, in order. -/
def attached (act : κ → BlockTree → BlockTree) : Node BlockTree → List (Event κ) → List Block
  | _, [] => []
  | n, e :: rest => (n.attachedBy e).toList ++ match step act n e with
    | none => []
    | some m => attached act m rest

theorem attached_concat {act : κ → BlockTree → BlockTree} {past : List (Event κ)}
    (h : run act n past = some m) (e : Event κ) :
    attached act n (past ++ [e]) = attached act n past ++ (m.attachedBy e).toList := by
  induction past generalizing n with
  | nil =>
    obtain rfl := Option.some.inj h
    simp only [List.nil_append, attached]
    split <;> simp
  | cons e' rest ih =>
    rw [run_cons] at h
    obtain ⟨k, hk, hrest⟩ := Option.bind_eq_some_iff.mp h
    simp only [List.cons_append, attached, hk, ih hrest, List.append_assoc]

/-- A block is only attached by a step of the attach queue that stores it. -/
theorem InPlace.attachedBy_cases (h : n.InPlace) (e : Event κ) :
    n.attachedBy e = none ∨ ∃ a height, e = .queue .attach ∧
      (n.pipeline.lane .attach).running = some (.store a height) ∧ n.attachedBy e = some a.block := by
  cases e <;> try exact .inl rfl
  case queue q =>
    simp only [attachedBy]
    split
    case h_2 => exact .inl rfl
    case h_1 a height hr =>
      have hbegun := h.holds.running q _ hr
      cases q with
      | fetch | update => exact hbegun.elim
      | attach =>
        split
        · exact .inr ⟨a, height, rfl, hr, rfl⟩
        · exact .inl rfl

theorem attachedBy_store {a : Attachment} {height : UInt64}
    (hr : (n.pipeline.lane .attach).running = some (.store a height)) :
    n.attachedBy (.queue .attach : Event κ) =
      if a.block.previous ∈ n.chain.blocks then some a.block else none := by
  simp only [attachedBy, hr, BlockTree.attach_eq]
  by_cases hprevious : a.block.previous ∈ n.chain.blocks
  · simp only [if_pos hprevious]
  · simp only [if_neg hprevious]

/-- The tree stores one more block when an event attaches one, and the same blocks otherwise. -/
theorem InPlace.blocks_step (h : n.InPlace) {e : Event Hash}
    (hstep : step BlockTree.askIrreversible n e = some m) :
    m.chain.blocks = match n.attachedBy e with
      | some b => n.chain.blocks.insert b.hash b
      | none => n.chain.blocks := by
  have hnone (he : ∀ a height, (n.pipeline.lane .attach).running = some (.store a height) →
      e = .queue .attach → False) : n.attachedBy e = none := by
    obtain hn | ⟨a, height, he', hr, -⟩ := h.attachedBy_cases e
    · exact hn
    · exact (he a height hr he').elim
  cases h.affects hstep with
  | feed he hm => rw [hnone fun _ _ _ => he, hm.chain]
  | chain change =>
    rw [hnone nofun]
    exact BlockTree.blocks_askIrreversible change n.chain
  | update hm =>
    rw [hnone nofun]
    cases hm with
    | receive | finish => rfl
    | update | fail => exact BlockTree.blocks_update ..
    | report => rw [chain_advance, chain_complete]
  | attach hm =>
    have hother {w : Option Work} (hr : (n.pipeline.lane .attach).running = w)
        (hw : ∀ a height, w ≠ some (.store a height)) :
        n.attachedBy (.queue .attach : Event Hash) = none :=
      hnone fun a height hr' _ => hw a height (hr ▸ hr')
    cases hm with
    | receive hp => rw [hother (Pipeline.receive_cases hp).1 nofun]
    | finish hr => rw [hother hr nofun]
    | known hr | unknown hr | accept hr | reject hr | handOver hr =>
      simp only [hother hr nofun, chain_advance, chain_complete, chain_enqueue]
    | store hr hprevious =>
      rw [attachedBy_store hr, if_pos hprevious]
      rfl
    | orphan hr hprevious =>
      rw [attachedBy_store hr, if_neg hprevious]
      rfl

/-- The attach queue takes its steps by itself. -/
theorem InPlace.running_attach_step (h : n.InPlace) {e : Event Hash} (he : e ≠ .queue .attach)
    (hstep : step BlockTree.askIrreversible n e = some m) :
    (m.pipeline.lane .attach).running = (n.pipeline.lane .attach).running := by
  cases h.affects hstep with
  | attach => exact absurd rfl he
  | feed _ hm => exact hm.running .attach nofun
  | chain => rfl
  | update hm =>
    cases hm with
    | receive hp => exact congrArg Lane.running ((Pipeline.receive_cases hp).2.2.2 .attach nofun).1
    | finish | update | fail | report => simp [pipeline_complete]

/-! ## Runs -/

/-- The last step of the attach queue in a run judged a block, and found the last irreversible block
at some height, below that of the block. -/
def JudgedIn (start : Node BlockTree) (past : List (Event Hash)) (b : Block) (height : UInt64) :
    Prop :=
  ∃ earlier later k a, past = earlier ++ .queue .attach :: later ∧ .queue .attach ∉ later ∧
    run BlockTree.askIrreversible start earlier = some k ∧
    (k.pipeline.lane .attach).running = some (.judge a) ∧ a.block = b ∧
    k.chain.heads.irreversible.height = height ∧ height < b.height

/-- What a run has attached, and how the tree came to its blocks. -/
structure SafelyAttached (start : Node BlockTree) (past : List (Event Hash)) (n : Node BlockTree) :
    Prop where
  /-- No hash is attached twice. -/
  nodup : ((attached BlockTree.askIrreversible start past).map Block.hash).Nodup
  /-- No hash is attached that was stored at the start. -/
  fresh : ∀ b ∈ attached BlockTree.askIrreversible start past, b.hash ∉ start.chain.blocks
  /-- The blocks in the tree were there at the start or are attached under their hashes. -/
  blocks : ∀ (hash : Hash) (b : Block), n.chain.blocks[hash]? = some b ↔
    start.chain.blocks[hash]? = some b ∨
      b ∈ attached BlockTree.askIrreversible start past ∧ b.hash = hash
  /-- A stored block is never replaced. -/
  kept : ∀ earlier later k, past = earlier ++ later →
    run BlockTree.askIrreversible start earlier = some k →
    ∀ (hash : Hash) (b : Block), k.chain.blocks[hash]? = some b → n.chain.blocks[hash]? = some b
  /-- A block is attached to a stored parent, with the transactions that its header names, and above
  the last irreversible height that was read when it was judged. -/
  checked : ∀ earlier e later k b, past = earlier ++ e :: later →
    run BlockTree.askIrreversible start earlier = some k → k.attachedBy e = some b →
    b.hash ∉ k.chain.blocks ∧ b.previous ∈ k.chain.blocks ∧ b.matchesHeader ∧
      ∃ height, JudgedIn start earlier b height
  /-- A target that is marked is stored. -/
  targets : ∀ hash : Hash, n.board.targets[hash]? = some true → hash ∈ n.chain.blocks

/-- A stored block stays as it is. -/
theorem Guarded.getElem?_step (h : n.Guarded) {e : Event Hash}
    (hstep : step BlockTree.askIrreversible n e = some m) {hash : Hash} {b : Block}
    (hb : n.chain.blocks[hash]? = some b) : m.chain.blocks[hash]? = some b := by
  rw [h.inPlace.blocks_step hstep]
  obtain hnone | ⟨a, height, -, hr, hsome⟩ := h.inPlace.attachedBy_cases e
  · rwa [hnone]
  · have hne : a.block.hash ≠ hash := by
      rintro rfl
      exact (h.store a height hr).1 (BlockTree.mem_blocks hb)
    rw [hsome, Std.ExtTreeMap.getElem?_insert, if_neg (by simpa using hne)]
    exact hb

theorem Guarded.getElem?_run (h : n.Guarded) {events : List (Event Hash)}
    (hrun : run BlockTree.askIrreversible n events = some m) {hash : Hash} {b : Block}
    (hb : n.chain.blocks[hash]? = some b) : m.chain.blocks[hash]? = some b := by
  refine (run_invariant (P := fun k => k.Guarded ∧ k.chain.blocks[hash]? = some b) ?_ ⟨h, hb⟩ hrun).2
  intro e _ k k' hk hstep
  exact ⟨guarded_step hk.1 hstep, hk.1.getElem?_step hstep hk.2⟩

theorem guarded_run (h : n.Guarded) {events : List (Event Hash)}
    (hrun : run BlockTree.askIrreversible n events = some m) : m.Guarded :=
  run_invariant (fun _ _ _ _ hk hstep => guarded_step hk hstep) h hrun

/-- A block that is about to be stored was judged in the last step of the attach queue. -/
theorem judgedIn_of_run {start : Node BlockTree} (hstart : start.Guarded)
    (hnew : (start.pipeline.lane .attach).running = none) {past : List (Event Hash)}
    (hrun : run BlockTree.askIrreversible start past = some n) {a : Attachment} {height : UInt64}
    (hr : (n.pipeline.lane .attach).running = some (.store a height)) :
    JudgedIn start past a.block height := by
  refine run_history (P := fun past n => ∀ a height,
    (n.pipeline.lane .attach).running = some (.store a height) → JudgedIn start past a.block height)
    ?_ (fun a height hr => by rw [hnew] at hr; cases hr) hrun a height hr
  intro past k e k' hk ih hstep a height hr
  have hguarded := guarded_run hstart hk
  by_cases he : e = .queue .attach
  · subst he
    have hm := hguarded.inPlace.attachStep hstep
    have hguarded' := guarded_step hguarded hstep
    cases hm with
    | accept hj ha =>
      have hlt := (hguarded'.store a height hr).2.2
      simp only [pipeline_advance, Pipeline.running_advance, if_true, Option.some.injEq,
        Work.store.injEq] at hr
      obtain ⟨rfl, rfl⟩ := hr
      exact ⟨past, [], k, _, rfl, List.not_mem_nil, hk, hj, rfl, rfl, hlt⟩
    | receive hp => exact (hguarded.inPlace.holds.running_receive hp hr).elim
    | finish | known | unknown | reject | store | orphan | handOver =>
      simp [Work.done, Work.failed] at hr
  · rw [hguarded.inPlace.running_attach_step he hstep] at hr
    obtain ⟨earlier, later, j, a', rfl, hlater, hj, hrest⟩ := ih a height hr
    refine ⟨earlier, later ++ [e], j, a', by simp, ?_, hj, hrest⟩
    simpa using ⟨hlater, Ne.symm he⟩

/-- The blocks in the tree are those of the start and those that were attached, each once. -/
theorem attached_of_run {start : Node BlockTree} (hstart : start.Guarded) {past : List (Event Hash)}
    (hrun : run BlockTree.askIrreversible start past = some n) :
    ((attached BlockTree.askIrreversible start past).map Block.hash).Nodup ∧
      (∀ b ∈ attached BlockTree.askIrreversible start past, b.hash ∉ start.chain.blocks) ∧
      ∀ (hash : Hash) (b : Block), n.chain.blocks[hash]? = some b ↔
        start.chain.blocks[hash]? = some b ∨
          b ∈ attached BlockTree.askIrreversible start past ∧ b.hash = hash := by
  refine run_history (P := fun past n =>
    ((attached BlockTree.askIrreversible start past).map Block.hash).Nodup ∧
      (∀ b ∈ attached BlockTree.askIrreversible start past, b.hash ∉ start.chain.blocks) ∧
      ∀ (hash : Hash) (b : Block), n.chain.blocks[hash]? = some b ↔
        start.chain.blocks[hash]? = some b ∨
          b ∈ attached BlockTree.askIrreversible start past ∧ b.hash = hash) ?_ ?_ hrun
  · intro past k e k' hk ⟨hnodup, hfresh, hblocks⟩ hstep
    have hguarded := guarded_run hstart hk
    have hk' := hguarded.inPlace.blocks_step hstep
    rw [attached_concat hk]
    obtain hnone | ⟨a, height, -, hr, hsome⟩ := hguarded.inPlace.attachedBy_cases e
    · rw [hnone] at hk' ⊢
      simpa [hk'] using ⟨hnodup, hfresh, hblocks⟩
    · have hnew := (hguarded.store a height hr).1
      rw [hsome] at hk' ⊢
      simp only [Option.toList_some, List.map_append, List.map_cons, List.map_nil,
        List.mem_append, List.mem_singleton]
      refine ⟨?_, ?_, ?_⟩
      · refine hnodup.append (List.nodup_singleton _) ?_
        rw [List.disjoint_singleton]
        intro hmem
        obtain ⟨b, hb, he⟩ := List.mem_map.mp hmem
        exact hnew (he ▸ BlockTree.mem_blocks ((hblocks _ _).mpr (.inr ⟨hb, rfl⟩)))
      · rintro b (hb | rfl)
        · exact hfresh b hb
        · intro hmem
          obtain ⟨b, hb⟩ := BlockTree.mem_blocks_iff.mp hmem
          exact hnew (BlockTree.mem_blocks ((hblocks _ _).mpr (.inl hb)))
      · intro hash b
        simp only [hk', Std.ExtTreeMap.getElem?_insert, Std.LawfulEqOrd.compare_eq_iff_eq]
        split
        case isTrue he =>
          subst he
          constructor
          · intro hb
            exact .inr ⟨.inr (Option.some.inj hb).symm, by rw [← Option.some.inj hb]⟩
          · rintro (hb | ⟨hb | rfl, he⟩)
            · exact absurd (BlockTree.mem_blocks ((hblocks _ _).mpr (.inl hb))) hnew
            · exact absurd (BlockTree.mem_blocks ((hblocks _ _).mpr (.inr ⟨hb, he⟩))) hnew
            · rfl
        case isFalse he =>
          rw [hblocks]
          constructor
          · rintro (hb | ⟨hb, rfl⟩)
            · exact .inl hb
            · exact .inr ⟨.inl hb, rfl⟩
          · rintro (hb | ⟨hb | rfl, rfl⟩)
            · exact .inl hb
            · exact .inr ⟨hb, rfl⟩
            · exact absurd rfl he
  · simp [attached]

/-- Whatever happens, in whatever order, and whatever blocks come: a node that starts with some tree
attaches blocks safely. -/
theorem safelyAttached_of_run (settings : SyncSettings) (now : Instant) (tree : BlockTree)
    (events : List (Event Hash)) {n : Node BlockTree}
    (hrun : run BlockTree.askIrreversible (new settings now tree) events = some n) :
    SafelyAttached (new settings now tree) events n := by
  have hstart := guarded_new settings now tree
  obtain ⟨hnodup, hfresh, hblocks⟩ := attached_of_run hstart hrun
  refine ⟨hnodup, hfresh, hblocks, ?_, ?_, (guarded_run hstart hrun).targets⟩
  · rintro earlier later k rfl hk hash b hb
    rw [run_append, hk] at hrun
    exact (guarded_run hstart hk).getElem?_run hrun hb
  · rintro earlier e later k b rfl hk hb
    have hguarded := guarded_run hstart hk
    obtain hnone | ⟨a, height, rfl, hr, hsome⟩ := hguarded.inPlace.attachedBy_cases e
    · rw [hnone] at hb
      cases hb
    · obtain rfl := Option.some.inj (hsome.symm.trans hb)
      obtain ⟨hnew, hmatches, -⟩ := hguarded.store a height hr
      refine ⟨hnew, ?_, hmatches, height, judgedIn_of_run hstart rfl hk hr⟩
      rw [attachedBy_store hr] at hb
      by_contra hprevious
      rw [if_neg hprevious] at hb
      cases hb

/-- A pushed block goes all the way through the attach queue, and is attached once. -/
theorem safelyAttached_of_run_push :
    let b := Block.make (Block.genesis 0).hash 2 0 []
    let start := new default 0 (BlockTree.new (.genesis 0))
    let events := Event.push b "peer" :: List.replicate 6 (.queue .attach)
    ∃ n, run BlockTree.askIrreversible start events = some n ∧
      attached BlockTree.askIrreversible start events = [b] ∧ SafelyAttached start events n := by
  intro b start events
  obtain ⟨n, hrun⟩ : ∃ n, run BlockTree.askIrreversible start events = some n :=
    Option.isSome_iff_exists.mp (by decide +kernel)
  exact ⟨n, hrun, by decide +kernel, safelyAttached_of_run _ _ _ events hrun⟩

end ChainNode.Node
