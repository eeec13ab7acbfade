import ChainNode.Proofs.Sync.Agreement
import ChainNode.Proofs.Sync.Route
import ChainNode.Proofs.Sync.Settling
import ChainNode.Proofs.Sync.Tips

/-!
# Climbing a route

A node climbs a route: some of its blocks have been handed to the attach queue, in order, and each of
them is stored or waits there for its turn (`Node.Climbing`). None of them can be refused, since its
parent is stored before it. Whoever waits for the last of them is told in the end: as long as its target
is not marked, some work owes it (`Node.Owes`).

Here the queues take their steps; they keep a node climbing, and get lighter.
-/

namespace ChainNode

/-- A piece of work that will mark a target when it has ended well. -/
def Work.Owes (hash : Hash) : Work → Prop
  | .attach a | .judge a | .store a _ | .handOver a => a.completion = some (.markTarget hash)
  | .update _ c | .report c => c = some (.markTarget hash)
  | _ => False

/-- The block that a piece of work may still attach. -/
def Work.attachment? : Work → Option Attachment
  | .attach a | .judge a | .store a _ => some a
  | _ => none

namespace Node

variable {n m : Node BlockTree} {hash : Hash} {q : Queue} {w w' : Work}

/-- Some work owes a target its mark. -/
def Owes (n : Node BlockTree) (hash : Hash) : Prop :=
  ∃ q, ∃ w ∈ (n.pipeline.lane q).works, w.Owes hash

/-- The blocks that may still be attached, in order. -/
def attachments (n : Node BlockTree) : List Attachment :=
  (n.pipeline.lane .attach).works.filterMap Work.attachment?

theorem attachments_eq (n : Node BlockTree) : n.attachments =
    ((n.pipeline.lane .attach).running.bind Work.attachment?).toList ++
      (n.pipeline.lane .attach).waiting.filterMap Work.attachment? := by
  rw [attachments, Lane.works, List.filterMap_append]
  cases (n.pipeline.lane .attach).running with
  | none => rfl
  | some w => cases w <;> rfl

theorem Owes.congr (h : n.Owes hash)
    (hworks : ∀ q, (m.pipeline.lane q).works = (n.pipeline.lane q).works) : m.Owes hash := by
  obtain ⟨q, w, hw, hh⟩ := h
  exact ⟨q, w, hworks q ▸ hw, hh⟩

/-- A debt stays when the work that owes it comes further and still owes it. -/
theorem Owes.advance (h : n.Owes hash) (hr : (n.pipeline.lane q).running = some w)
    (hm : m.pipeline = n.pipeline.advance q w') (hw : w.Owes hash → w'.Owes hash) :
    m.Owes hash := by
  obtain ⟨r, v, hv, hh⟩ := h
  by_cases he : q = r
  · subst he
    rw [Lane.works, hr, Option.toList_some, List.singleton_append, List.mem_cons] at hv
    obtain rfl | hv := hv
    · exact ⟨q, w', by simp [hm, Lane.works], hw hh⟩
    · exact ⟨q, v, by simp [hm, Lane.works, hv], hh⟩
  · exact ⟨r, v, by simpa [hm, Lane.works, he] using hv, hh⟩

/-- Ended work owes nothing. -/
theorem Owes.finish {r : Ending} (h : n.Owes hash)
    (hr : (n.pipeline.lane q).running = some (.ended r)) (hm : m.pipeline = n.pipeline.finish q) :
    m.Owes hash := by
  obtain ⟨s, v, hv, hh⟩ := h
  by_cases he : q = s
  · subst he
    rw [Lane.works, hr, Option.toList_some, List.singleton_append, List.mem_cons] at hv
    obtain rfl | hv := hv
    · exact hh.elim
    · exact ⟨q, v, by simp [hm, Lane.works, hv], hh⟩
  · exact ⟨s, v, by simpa [hm, Lane.works, he] using hv, hh⟩

/-- A debt is handed over with the block. -/
theorem Owes.handOver {a : Attachment} (h : n.Owes hash)
    (hr : (n.pipeline.lane .attach).running = some (.handOver a)) :
    ((n.enqueue .update (.update a.block.hash a.completion)).advance .attach .done).Owes hash := by
  obtain ⟨q, v, hv, hh⟩ := h
  cases q with
  | fetch => exact ⟨.fetch, v, by simpa [Lane.works] using hv, hh⟩
  | update =>
    refine ⟨.update, v, ?_, hh⟩
    obtain hv | hv := List.mem_append.mp hv
    · simp [Lane.works, Option.mem_toList.mp hv]
    · simp [Lane.works, hv]
  | attach =>
    rw [Lane.works, hr, Option.toList_some, List.singleton_append, List.mem_cons] at hv
    obtain rfl | hv := hv
    · exact ⟨.update, .update a.block.hash a.completion, by simp [Lane.works], hh⟩
    · exact ⟨.attach, v, by simp [Lane.works, hv], hh⟩

/-- Once a block has been dealt with, it is not its target that is left unmarked. -/
theorem Owes.complete {c : Option Completion} (hr : (n.pipeline.lane q).running = some w)
    (hw : w.Owes hash ↔ c = some (.markTarget hash))
    (h : n.board.targets[hash]? = some false → n.Owes hash)
    (hm : m.pipeline = n.pipeline.advance q .done) (hboard : m.board = (n.complete c).board)
    (ht : m.board.targets[hash]? = some false) : m.Owes hash := by
  rw [hboard] at ht
  have hc : c ≠ some (.markTarget hash) ∧ n.board.targets[hash]? = some false := by
    match c with
    | none | some (.note _) => exact ⟨nofun, ht⟩
    | some (.markTarget k) =>
      simp only [Node.complete, targets_setTargets, Targets.mark] at ht
      by_cases hk : k = hash
      · subst hk
        split at ht
        case isTrue => simp at ht
        case isFalse hnone => simp [Std.ExtTreeMap.getElem?_eq_none hnone] at ht
      · refine ⟨by simpa using hk, ?_⟩
        split at ht
        case isTrue => rwa [Std.ExtTreeMap.getElem?_insert, if_neg (by simpa using hk)] at ht
        case isFalse => exact ht
  exact (h hc.2).advance hr hm fun hw' => absurd (hw.mp hw') hc.1

end Node

namespace Node

variable {server : BlockServer} {n m : Node BlockTree} {e : Nat}

/-- The first so many blocks of a route have been handed to the attach queue, and each of them is
stored or waits there for its turn. -/
structure Climbing (r : Route server) (e : Nat) (n : Node BlockTree) : Prop where
  agreeing : n.Agreeing
  headed : n.chain.Headed
  le : e ≤ r.blocks.length
  /-- There is nothing to be fetched. -/
  fetch : (n.pipeline.lane .fetch).works = []
  origin : r.origin.hash ∈ n.chain.blocks
  attachments : ∃ d ≤ e, (∀ b ∈ r.blocks.take d, b.hash ∈ n.chain.blocks) ∧
    n.attachments.map Attachment.block = (r.blocks.take e).drop d
  /-- The route is above the last irreversible block. -/
  above : ∀ b ∈ r.blocks, n.chain.heads.irreversible.height < b.height
  /-- A stored block of the route has its height. -/
  height : ∀ b ∈ r.blocks, ∀ c, n.chain.blocks[b.hash]? = some c → c.height = b.height
  /-- No stored block is higher than the target, or than what was handed over. -/
  low : ∀ (hash : Hash) c, n.chain.blocks[hash]? = some c →
    c.height.toNat < r.origin.height.toNat + max r.goal (e + 1)
  /-- Unless its target is marked, the last of the blocks will be told of. -/
  owes : 0 < e → n.board.targets[(r.place e).hash]? = some false → n.Owes (r.place e).hash

variable {r : Route server}

/-- The first block that may still be attached is the next one of the route; all before it are
stored. -/
theorem Climbing.next (h : n.Climbing r e) {a : Attachment} {rest : List Attachment}
    (ha : n.attachments = a :: rest) :
    ∃ d, ∃ hd : d < r.blocks.length, d < e ∧ a.block = r.blocks[d] ∧
      (∀ b ∈ r.blocks.take d, b.hash ∈ n.chain.blocks) ∧
      rest.map Attachment.block = (r.blocks.take e).drop (d + 1) := by
  obtain ⟨d, hd, hstored, hmap⟩ := h.attachments
  rw [ha, List.map_cons] at hmap
  have hlt : d < (r.blocks.take e).length := by
    by_contra hle
    rw [List.drop_eq_nil_of_le (by omega)] at hmap
    cases hmap
  rw [List.drop_eq_getElem_cons hlt, List.getElem_take] at hmap
  rw [List.length_take] at hlt
  exact ⟨d, by omega, by omega, (List.cons.inj hmap).1, hstored, (List.cons.inj hmap).2⟩

/-- The parent of the next block is stored. -/
theorem Climbing.previous_mem (h : n.Climbing r e) {a : Attachment} {rest : List Attachment}
    (ha : n.attachments = a :: rest) : a.block.previous ∈ n.chain.blocks := by
  obtain ⟨d, hd, -, hblock, hstored, -⟩ := h.next ha
  rw [hblock, r.previous_getElem hd]
  cases d with
  | zero => exact h.origin
  | succ i =>
    have hi : i < r.blocks.length := Nat.lt_of_succ_lt hd
    rw [r.place_succ hi]
    apply hstored
    rw [List.take_succ_eq_append_getElem hi]
    exact List.mem_append_right _ (List.mem_singleton_self _)

/-- A block of the route is not refused. -/
theorem Climbing.acceptable (h : n.Climbing r e) {a : Attachment} {rest : List Attachment}
    (ha : n.attachments = a :: rest) : Validation.acceptable a.block n.chain.heads := by
  obtain ⟨d, hd, -, hblock, -, -⟩ := h.next ha
  have hmem : a.block ∈ r.blocks := hblock ▸ List.getElem_mem hd
  rw [Validation.acceptable, Bool.and_eq_true, decide_eq_true_eq]
  exact ⟨h.above _ hmem, r.matchesHeader _ hmem⟩

/-- The next block has been dealt with. -/
theorem Climbing.pass (h : n.Climbing r e) {a : Attachment} {rest : List Attachment}
    (ha : n.attachments = a :: rest) (hm : m.attachments = rest)
    (hblocks : ∀ hash ∈ n.chain.blocks, hash ∈ m.chain.blocks)
    (hmem : a.block.hash ∈ m.chain.blocks) :
    ∃ d ≤ e, (∀ b ∈ r.blocks.take d, b.hash ∈ m.chain.blocks) ∧
      m.attachments.map Attachment.block = (r.blocks.take e).drop d := by
  obtain ⟨d, hd, hde, hblock, hstored, hrest⟩ := h.next ha
  refine ⟨d + 1, hde, ?_, hm ▸ hrest⟩
  intro b hb
  rw [List.take_succ_eq_append_getElem hd, List.mem_append, List.mem_singleton] at hb
  obtain hb | rfl := hb
  · exact hblocks _ (hstored b hb)
  · exact hblock ▸ hmem

/-- The tree has not changed but for what is executed; one block at most has been dealt with. -/
theorem Climbing.of_blocks_eq (h : n.Climbing r e) (hagreeing : m.Agreeing)
    (hheaded : m.chain.Headed) (hblocks : m.chain.blocks = n.chain.blocks)
    (hirreversible : m.chain.heads.irreversible = n.chain.heads.irreversible)
    (hfetch : (m.pipeline.lane .fetch).works = (n.pipeline.lane .fetch).works)
    (hattachments : m.attachments = n.attachments ∨
      ∃ a, n.attachments = a :: m.attachments ∧ a.block.hash ∈ n.chain.blocks)
    (howes : 0 < e → m.board.targets[(r.place e).hash]? = some false → m.Owes (r.place e).hash) :
    m.Climbing r e where
  agreeing := hagreeing
  headed := hheaded
  le := h.le
  fetch := hfetch.trans h.fetch
  origin := hblocks ▸ h.origin
  attachments := by
    obtain hsame | ⟨a, ha, hmem⟩ := hattachments
    · rw [hsame, hblocks]
      exact h.attachments
    · exact h.pass ha rfl (by rw [hblocks]; exact fun _ => id) (hblocks ▸ hmem)
  above := hirreversible ▸ h.above
  height := hblocks ▸ h.height
  low := hblocks ▸ h.low
  owes := howes

/-- The next block is stored. -/
theorem Climbing.of_store (h : n.Climbing r e) (hagreeing : m.Agreeing) (hheaded : m.chain.Headed)
    {a : Attachment} (ha : n.attachments = a :: m.attachments)
    (hchain : m.chain = n.chain.grown a.block)
    (hfetch : (m.pipeline.lane .fetch).works = (n.pipeline.lane .fetch).works)
    (howes : 0 < e → m.board.targets[(r.place e).hash]? = some false → m.Owes (r.place e).hash) :
    m.Climbing r e where
  agreeing := hagreeing
  headed := hheaded
  le := h.le
  fetch := hfetch.trans h.fetch
  origin := by rw [hchain, BlockTree.mem_grown]; exact .inr h.origin
  attachments := by
    apply h.pass ha rfl
    · rw [hchain]
      exact fun hash hh => BlockTree.mem_grown.mpr (.inr hh)
    · rw [hchain]
      exact BlockTree.mem_grown.mpr (.inl rfl)
  above := by rw [hchain]; exact h.above
  height b hb c hc := by
    obtain ⟨d, hd, -, hblock, -⟩ := h.next ha
    rw [hchain, BlockTree.getElem?_grown] at hc
    split at hc
    case isTrue he =>
      obtain rfl := Option.some.inj hc
      exact r.height_eq _ (hblock ▸ List.getElem_mem hd) b hb he
    case isFalse => exact h.height b hb c hc
  low hash c hc := by
    obtain ⟨d, hd, hde, hblock, -⟩ := h.next ha
    rw [hchain, BlockTree.getElem?_grown] at hc
    split at hc
    case isTrue =>
      rw [← Option.some.inj hc, hblock, r.height_getElem d hd]
      omega
    case isFalse => exact h.low hash c hc
  owes := howes

/-- Nothing is being fetched. -/
theorem Climbing.ne_fetch (h : n.Climbing r e) (hr : (n.pipeline.lane q).running = some w) :
    q ≠ .fetch := by
  rintro rfl
  have hworks := h.fetch
  simp [Lane.works, hr] at hworks

/-- A queue takes in a message. -/
theorem Climbing.receive (h : n.Climbing r e) {p : Pipeline Work} (hp : n.pipeline.receive q = some p)
    (hagreeing : ({ n with pipeline := p } : Node BlockTree).Agreeing) :
    ({ n with pipeline := p } : Node BlockTree).Climbing r e := by
  refine h.of_blocks_eq hagreeing h.headed rfl rfl (Pipeline.works_receive hp _) (.inl ?_)
    fun he ht => (h.owes he ht).congr (Pipeline.works_receive hp)
  simp only [Node.attachments, Pipeline.works_receive hp]

/-- A queue is done with its work. -/
theorem Climbing.finish (h : n.Climbing r e) {ending : Ending}
    (hr : (n.pipeline.lane q).running = some (.ended ending))
    (hagreeing : ({ n with pipeline := n.pipeline.finish q } : Node BlockTree).Agreeing) :
    ({ n with pipeline := n.pipeline.finish q } : Node BlockTree).Climbing r e := by
  refine h.of_blocks_eq hagreeing h.headed rfl rfl (by simp [Lane.works, h.ne_fetch hr]) (.inl ?_)
    fun he ht => (h.owes he ht).finish hr rfl
  cases q <;> simp [attachments_eq, hr, Work.attachment?]

theorem Climbing.attachStep (h : n.Climbing r e) (hagreeing : m.Agreeing) (hheaded : m.chain.Headed)
    (hm : n.AttachStep m) : m.Climbing r e := by
  cases hm with
  | receive hp => exact h.receive hp hagreeing
  | finish hr => exact h.finish hr hagreeing
  | @known a hr hmem =>
    refine h.of_blocks_eq hagreeing hheaded (by simp) (by simp) (by simp [Lane.works])
      (.inr ⟨a, ?_, hmem⟩) fun he ht => .complete hr .rfl (h.owes he) (by simp) rfl ht
    simp [attachments_eq, hr, Work.attachment?, Work.done]
  | unknown hr hnew =>
    refine h.of_blocks_eq hagreeing hheaded rfl rfl (by simp [Lane.works]) (.inl ?_)
      fun he ht => (h.owes he ht).advance hr rfl id
    simp [attachments_eq, hr, Work.attachment?]
  | accept hr ha =>
    refine h.of_blocks_eq hagreeing hheaded rfl rfl (by simp [Lane.works]) (.inl ?_)
      fun he ht => (h.owes he ht).advance hr rfl id
    simp [attachments_eq, hr, Work.attachment?]
  | @reject a hr ha =>
    -- the route is above the last irreversible block, and its bodies match
    exact absurd (h.acceptable (a := a) (by simp only [attachments_eq, hr]; rfl)) ha
  | @store a height hr hprevious =>
    refine h.of_store hagreeing hheaded (a := a) ?_ rfl (by simp [Lane.works])
      fun he ht => (h.owes he ht).advance hr rfl id
    simp [attachments_eq, hr, Work.attachment?]
  | @orphan a height hr hprevious =>
    -- the block before it was stored before
    exact absurd (h.previous_mem (a := a) (by simp only [attachments_eq, hr]; rfl)) hprevious
  | handOver hr =>
    refine h.of_blocks_eq hagreeing hheaded rfl rfl (by simp [Lane.works]) (.inl ?_)
      fun he ht => (h.owes he ht).handOver hr
    simp [attachments_eq, hr, Work.attachment?, Work.done]

theorem Climbing.updateStep (h : n.Climbing r e) (hagreeing : m.Agreeing) (hheaded : m.chain.Headed)
    (hm : n.UpdateStep m) : m.Climbing r e := by
  cases hm with
  | receive hp => exact h.receive hp hagreeing
  | finish hr => exact h.finish hr hagreeing
  | @update hash c hr hok =>
    obtain ⟨executed, best, heq⟩ := n.chain.update_eq hash
    refine h.of_blocks_eq hagreeing hheaded (by simp [heq]) (by simp [heq]) (by simp [Lane.works])
      (.inl ?_) fun he ht => (h.owes he ht).advance hr rfl id
    simp [attachments_eq]
  | fail hr he =>
    -- what is to be executed is stored, with all its ancestors
    rw [h.agreeing.update_ok hr] at he
    cases he
  | report hr =>
    refine h.of_blocks_eq hagreeing hheaded (by simp) (by simp) (by simp [Lane.works])
      (.inl ?_) fun he ht => .complete hr .rfl (h.owes he) (by simp) rfl ht
    simp [attachments_eq]

/-- The queues take their steps while a node climbs, and get lighter. -/
theorem Climbing.queueStep (h : n.Climbing r e) {q : Queue} (hm : n.queueStep q = some m) :
    m.Climbing r e ∧ m.pipeline.weight < n.pipeline.weight := by
  have hguarded := h.agreeing.guarded
  have hstep : step BlockTree.askIrreversible n (.queue q) = some m := hm
  have hagreeing := agreeing_step h.agreeing hstep
  have hheaded := headed_step hguarded h.headed hstep
  cases q with
  | attach =>
    have hm := hguarded.inPlace.attachStep hm
    exact ⟨h.attachStep hagreeing hheaded hm, hm.weight_lt⟩
  | update =>
    have hm := hguarded.inPlace.updateStep hm
    exact ⟨h.updateStep hagreeing hheaded hm, hm.weight_lt⟩
  | fetch =>
    obtain ⟨p, hp, rfl⟩ | ⟨_, hr, -⟩ | ⟨_, _, _, hr, -⟩ := queueStep_cases hm
    · exact ⟨h.receive hp hagreeing, Pipeline.weight_receive hp⟩
    · exact absurd rfl (h.ne_fetch hr)
    · exact absurd rfl (h.ne_fetch hr)

/-! ## Batches -/

theorem attachments_enqueueBatch (n : Node BlockTree) (blocks : List Block) (peer : Option Peer)
    (target : Hash) : (n.enqueueBatch blocks peer target).attachments =
      n.attachments ++ blocks.map (batchAttachment peer target) := by
  rw [attachments, works_enqueueBatch, if_pos rfl, List.filterMap_append, List.filterMap_map,
    ← List.filterMap_eq_map]
  rfl

theorem weight_enqueueBatch (n : Node BlockTree) (blocks : List Block) (peer : Option Peer)
    (target : Hash) : (n.enqueueBatch blocks peer target).pipeline.weight =
      n.pipeline.weight + 10 * blocks.length := by
  induction blocks generalizing n with
  | nil => simp [enqueueBatch]
  | cons b rest ih =>
    rw [enqueueBatch, List.foldl_cons, ← enqueueBatch, ih, enqueueAttach, pipeline_enqueue,
      Pipeline.weight_enqueue, Work.weight, List.length_cons]
    omega

/-- The next blocks of the route are handed to the attach queue, and the last one has a target. -/
theorem Climbing.extend (h : n.Climbing r e) {k : Nat} (hk : e + k ≤ r.blocks.length)
    (hagreeing : m.Agreeing) (hchain : m.chain = n.chain)
    (hfetch : (m.pipeline.lane .fetch).works = (n.pipeline.lane .fetch).works)
    (hattachments : m.attachments.map Attachment.block =
      n.attachments.map Attachment.block ++ (r.blocks.drop e).take k)
    (howes : m.Owes (r.place (e + k)).hash) : m.Climbing r (e + k) where
  agreeing := hagreeing
  headed := hchain ▸ h.headed
  le := hk
  fetch := hfetch.trans h.fetch
  origin := hchain ▸ h.origin
  attachments := by
    obtain ⟨d, hd, hstored, hmap⟩ := h.attachments
    refine ⟨d, by omega, hchain ▸ hstored, ?_⟩
    rw [hattachments, hmap, List.take_add, List.drop_append_of_le_length]
    rw [List.length_take]
    have := h.le
    omega
  above := hchain ▸ h.above
  height := hchain ▸ h.height
  low hash c hc := by
    have := h.low hash c (hchain ▸ hc)
    omega
  owes _ _ := howes

/-- A batch of the next blocks of the route is received. -/
theorem Climbing.enqueueBatch (h : n.Climbing r e) {k : Nat} (hpos : 0 < k)
    (hk : e + k ≤ r.blocks.length) (peer : Option Peer) (registered : Option Hash)
    (hm : m.pipeline = ((n.registerTarget registered (r.place (e + k)).hash).enqueueBatch
      ((r.blocks.drop e).take k) peer (r.place (e + k)).hash).pipeline)
    (hchain : m.chain = n.chain) (hagreeing : m.Agreeing) : m.Climbing r (e + k) := by
  have hworks (q : Queue) := works_enqueueBatch
    (n.registerTarget registered (r.place (e + k)).hash) ((r.blocks.drop e).take k) peer
      (r.place (e + k)).hash q
  have hattachments := attachments_enqueueBatch
    (n.registerTarget registered (r.place (e + k)).hash) ((r.blocks.drop e).take k) peer
      (r.place (e + k)).hash
  rw [pipeline_registerTarget, ← hm] at hworks
  simp only [Node.attachments, pipeline_registerTarget, ← hm] at hattachments
  refine h.extend hk hagreeing hchain (by simp [hworks]) ?_ ?_
  · rw [Node.attachments, hattachments, List.map_append, List.map_map]
    congr 1
    exact List.map_id _
  · obtain ⟨i, rfl⟩ : ∃ i, k = i + 1 := ⟨k - 1, by omega⟩
    have hi : e + i < r.blocks.length := by omega
    have hplace : (r.place (e + (i + 1))).hash = r.blocks[e + i].hash := by
      rw [← Nat.add_assoc, r.place_succ hi]
      rfl
    refine ⟨.attach, .attach (batchAttachment peer (r.place (e + (i + 1))).hash r.blocks[e + i]), ?_, ?_⟩
    · rw [hworks, if_pos rfl]
      refine List.mem_append_right _ (List.mem_map_of_mem ?_)
      rw [List.mem_iff_getElem]
      exact ⟨i, by simp; omega, by simp⟩
    · simp [Work.Owes, batchAttachment, hplace]

end Node

end ChainNode
