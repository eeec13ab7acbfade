import ChainNode.Proofs.Sync.Lanes
import ChainNode.Proofs.Sync.Runs

/-!
# Linked blocks

Blocks are linked from a hash when the first one follows it and each one follows the one before.
Blocks that are not linked have a first break (`FirstBreak`). A download takes in a batch exactly when
it is linked from the last block that came (`Download.receive_eq`), fails by its first break otherwise
(`Download.receive_cases`), and what a node does with an answer is one of three things
(`Node.receiveBatch_cases`): a batch that it takes in waits to be attached
(`Node.waiting_enqueueBatch`).
-/

namespace ChainNode

/-- Each block follows the one before, the first one a given hash. -/
def Linked : Hash → List Block → Prop
  | _, [] => True
  | parent, b :: rest => b.previous = parent ∧ Linked b.hash rest

instance decidableLinked : (parent : Hash) → (blocks : List Block) → Decidable (Linked parent blocks)
  | _, [] => .isTrue trivial
  | parent, b :: rest =>
    have := decidableLinked b.hash rest
    inferInstanceAs (Decidable (b.previous = parent ∧ Linked b.hash rest))

@[simp] theorem linked_nil (parent : Hash) : Linked parent [] := trivial

@[simp] theorem linked_cons {parent : Hash} {b : Block} {rest : List Block} :
    Linked parent (b :: rest) ↔ b.previous = parent ∧ Linked b.hash rest := Iff.rfl

theorem Linked.take {parent : Hash} {blocks : List Block} (h : Linked parent blocks) (count : Nat) :
    Linked parent (blocks.take count) := by
  induction blocks generalizing parent count with
  | nil => rw [List.take_nil]; trivial
  | cons b rest ih =>
    cases count with
    | zero => trivial
    | succ count => exact ⟨h.1, ih h.2 count⟩

/-- A block with one hash has another for its parent, among some blocks. -/
def Follows (offered : Block → Prop) (child parent : Hash) : Prop :=
  ∃ b, offered b ∧ b.hash = child ∧ b.previous = parent

/-- The last of some linked blocks descends from what they are linked from. -/
theorem Linked.descends {offered : Block → Prop} {blocks : List Block} {parent : Hash} {last : Block}
    (h : Linked parent blocks) (hoffered : ∀ b ∈ blocks, offered b)
    (hlast : blocks.getLast? = some last) :
    Relation.TransGen (Follows offered) last.hash parent := by
  induction blocks generalizing parent with
  | nil => cases hlast
  | cons b rest ih =>
    obtain ⟨hprevious, hrest⟩ := h
    have hb : Follows offered b.hash parent := ⟨b, hoffered b List.mem_cons_self, rfl, hprevious⟩
    cases hr : rest with
    | nil =>
      rw [hr, List.getLast?_singleton] at hlast
      obtain rfl := Option.some.inj hlast
      exact .single hb
    | cons c rest' =>
      rw [hr, List.getLast?_cons_cons, ← hr] at hlast
      exact (ih hrest (fun b' hb' => hoffered b' (List.mem_cons_of_mem _ hb')) hlast).tail hb

/-! ## The first break -/

/-- The hash that is followed by what comes after some blocks. -/
def endHash (parent : Hash) (blocks : List Block) : Hash :=
  (blocks.getLast?.map Block.hash).getD parent

/-- Where a download stands when it has brought some blocks. -/
def reached (after : Tip) (blocks : List Block) : Tip :=
  (blocks.getLast?.map Block.tip).getD after

@[simp] theorem endHash_nil (parent : Hash) : endHash parent [] = parent := rfl

@[simp] theorem endHash_cons (parent : Hash) (b : Block) (blocks : List Block) :
    endHash parent (b :: blocks) = endHash b.hash blocks := by
  cases h : blocks.getLast? <;> simp [endHash, List.getLast?_cons, h]

theorem hash_reached (after : Tip) (blocks : List Block) :
    (reached after blocks).hash = endHash after.hash blocks := by
  rw [reached, endHash]
  cases blocks.getLast? <;> rfl

theorem linked_append {parent : Hash} {first second : List Block} :
    Linked parent (first ++ second) ↔ Linked parent first ∧ Linked (endHash parent first) second := by
  induction first generalizing parent with
  | nil => simp
  | cons b first ih => simp [ih, and_assoc]

/-- Blocks are linked up to a first one that follows another block than the one before it. -/
def FirstBreak (parent : Hash) (blocks : List Block) (expected actual : Hash) : Prop :=
  ∃ good bad rest, blocks = good ++ bad :: rest ∧ Linked parent good ∧
    expected = endHash parent good ∧ actual = bad.previous ∧ actual ≠ expected

namespace Download

theorem firstBreak_eq_none_iff {parent : Hash} {blocks : List Block} :
    firstBreak parent blocks = none ↔ Linked parent blocks := by
  induction blocks generalizing parent with
  | nil => simp [firstBreak]
  | cons b rest ih =>
    rw [firstBreak, linked_cons]
    by_cases h : b.previous = parent
    · rw [if_pos h, ih]
      exact ⟨fun hr => ⟨h, hr⟩, fun hr => hr.2⟩
    · rw [if_neg h]
      exact ⟨nofun, fun hr => absurd hr.1 h⟩

theorem firstBreak_eq_some_iff {parent : Hash} {blocks : List Block} {expected actual : Hash} :
    firstBreak parent blocks = some (expected, actual) ↔ FirstBreak parent blocks expected actual := by
  constructor
  · intro h
    induction blocks generalizing parent with
    | nil => cases h
    | cons b blocks ih =>
      rw [firstBreak] at h
      split at h
      case isTrue hb =>
        obtain ⟨good, bad, rest, rfl, hgood, hexpected, hactual⟩ := ih h
        exact ⟨b :: good, bad, rest, rfl, ⟨hb, hgood⟩, by rw [endHash_cons, hexpected], hactual⟩
      case isFalse hb =>
        obtain ⟨rfl, rfl⟩ := Prod.mk.inj (Option.some.inj h)
        exact ⟨[], b, blocks, rfl, trivial, rfl, rfl, hb⟩
  · rintro ⟨good, bad, rest, rfl, hgood, rfl, rfl, hne⟩
    induction good generalizing parent with
    | nil =>
      rw [endHash_nil] at hne ⊢
      rw [List.nil_append, firstBreak, if_neg hne]
    | cons b good ih =>
      rw [endHash_cons] at hne ⊢
      rw [List.cons_append, firstBreak, if_pos hgood.1, ih hgood.2 hne]

/-- A download after a batch of blocks, the last of them given. -/
def extend (d : Download) (blocks : List Block) (last : Block) : Download :=
  { d with
    count := d.count + blocks.length
    last := last.tip
    registered := some last.hash
    ended := blocks.length < d.wanted }

/-- A batch that is linked to what came before is taken in. -/
theorem receive_eq {d : Download} {blocks : List Block} {last : Block}
    (hlast : blocks.getLast? = some last) (h : Linked d.last.hash blocks) :
    d.receive (.ok blocks) = .ok (d.extend blocks last, blocks) := by
  simp only [receive, hlast, firstBreak_eq_none_iff.mpr h]
  rfl

/-- Why an answer fails a download that stands at a block: the peer fails, or the blocks do not follow
each other. -/
inductive Fails (parent : Hash) : BatchAnswer → SyncError → Prop
  | network (e : NetworkError) : Fails parent (.error e) (.network e)
  | broken {blocks : List Block} {expected actual : Hash}
    (h : FirstBreak parent blocks expected actual) :
    Fails parent (.ok blocks) (.brokenSequence expected actual)

/-- An answer fails the download, or ends it without a block, or brings blocks that are linked to what
came before. -/
theorem receive_cases (d : Download) (answer : BatchAnswer) :
    (∃ e, d.receive answer = .error e ∧ Fails d.last.hash answer e) ∨
    (answer = .ok [] ∧ d.receive answer = .ok ({ d with ended := true }, [])) ∨
    ∃ blocks last, answer = .ok blocks ∧ blocks.getLast? = some last ∧ Linked d.last.hash blocks ∧
      d.receive answer = .ok (d.extend blocks last, blocks) := by
  cases answer with
  | error e => exact .inl ⟨.network e, rfl, .network e⟩
  | ok blocks =>
    cases hlast : blocks.getLast? with
    | none =>
      obtain rfl := List.getLast?_eq_none_iff.mp hlast
      exact .inr (.inl ⟨rfl, rfl⟩)
    | some last =>
      cases hbreak : firstBreak d.last.hash blocks with
      | none =>
        have hlinked := firstBreak_eq_none_iff.mp hbreak
        exact .inr (.inr ⟨blocks, last, rfl, hlast, hlinked, receive_eq hlast hlinked⟩)
      | some pair =>
        refine .inl ⟨.brokenSequence pair.1 pair.2, ?_, .broken (firstBreak_eq_some_iff.mp hbreak)⟩
        simp only [receive, hlast, hbreak]

end Download

namespace Node

variable {χ : Type}

/-- An answer fails the download, or ends it without a block, or brings blocks that are linked to what
came before. -/
theorem receiveBatch_cases (n : Node χ) (d : Download) (answer : BatchAnswer) :
    (∃ e, n.receiveBatch d answer = (.error e, n.withdrawTarget d.registered)) ∨
    (answer = .ok [] ∧ n.receiveBatch d answer = (.ok { d with ended := true }, n)) ∨
    ∃ blocks last, answer = .ok blocks ∧ blocks.getLast? = some last ∧ Linked d.last.hash blocks ∧
      n.receiveBatch d answer = (.ok (d.extend blocks last),
        (n.registerTarget d.registered last.hash).enqueueBatch blocks d.peer last.hash) := by
  obtain ⟨e, hreceive, -⟩ | ⟨rfl, hreceive⟩ | ⟨blocks, last, rfl, hlast, hlinked, hreceive⟩ :=
    d.receive_cases answer
  · exact .inl ⟨e, by simp only [receiveBatch, hreceive]⟩
  · exact .inr (.inl ⟨rfl, by simp only [receiveBatch, hreceive, List.getLast?_nil]⟩)
  · exact .inr (.inr ⟨blocks, last, rfl, hlast, hlinked, by simp only [receiveBatch, hreceive, hlast]⟩)

/-- What a batch adds to the attach queue. -/
def batchAttachment (peer : Option Peer) (target : Hash) (b : Block) : Attachment :=
  ⟨b, peer, if b.hash = target then some (.markTarget target) else none⟩

@[simp] theorem running_enqueueBatch (n : Node χ) (blocks : List Block) (peer : Option Peer)
    (target : Hash) (q : Queue) :
    ((n.enqueueBatch blocks peer target).pipeline.lane q).running = (n.pipeline.lane q).running := by
  induction blocks generalizing n with
  | nil => rfl
  | cons b rest ih =>
    rw [enqueueBatch, List.foldl_cons, ← enqueueBatch, ih, enqueueAttach]
    exact Pipeline.running_enqueue

theorem waiting_enqueueBatch (n : Node χ) (blocks : List Block) (peer : Option Peer) (target : Hash)
    (q : Queue) : ((n.enqueueBatch blocks peer target).pipeline.lane q).waiting =
      (n.pipeline.lane q).waiting ++
        if q = .attach then blocks.map fun b => .attach (batchAttachment peer target b) else [] := by
  induction blocks generalizing n with
  | nil => simp [enqueueBatch]
  | cons b rest ih =>
    rw [enqueueBatch, List.foldl_cons, ← enqueueBatch, ih]
    cases q <;> simp [enqueueAttach, batchAttachment]

theorem works_enqueueBatch (n : Node χ) (blocks : List Block) (peer : Option Peer) (target : Hash)
    (q : Queue) : ((n.enqueueBatch blocks peer target).pipeline.lane q).works =
      (n.pipeline.lane q).works ++
        if q = .attach then blocks.map fun b => .attach (batchAttachment peer target b) else [] := by
  rw [Lane.works, running_enqueueBatch, waiting_enqueueBatch, ← List.append_assoc, Lane.works]

end Node

end ChainNode
