import ChainNode.Proofs.Codec.Lossless
import Mathlib.Data.Set.Function

/-!
# Identity binds content

Transactions and blocks are known by digests of binary forms. Where no two of the forms in question
have one digest, a digest fixes its form and the form its value (`Hash.ofValue_eq_iff`). A block's
hash covers its header only; but the header names the transactions by their identities, so among
blocks that match their headers the hash fixes the bodies too.
-/

namespace ChainNode

/-- Where digests do not collide, values are known by them. -/
theorem Hash.ofValue_eq_iff {α : Type} [Binary α] [Binary.Lawful α] {forms : Set Bytes}
    (hlength : ∀ bs ∈ forms, bs.length < 2 ^ 64) (hdigest : Set.InjOn Hash.digest forms) {a b : α}
    (ha : encode a ∈ forms) (hb : encode b ∈ forms) :
    Hash.ofValue a = Hash.ofValue b ↔ a = b := by
  constructor
  · intro h
    exact Binary.eq_of_encode_eq (hlength _ ha) (hdigest ha hb h)
  · rintro rfl
    rfl

/-- Where digests do not collide, lists of transactions are known by their identities. -/
theorem Transaction.eq_of_map_id_eq {forms : Set Bytes}
    (hlength : ∀ bs ∈ forms, bs.length < 2 ^ 64) (hdigest : Set.InjOn Hash.digest forms)
    {txs txs' : List Transaction} (h : ∀ tx ∈ txs, encode tx ∈ forms)
    (h' : ∀ tx ∈ txs', encode tx ∈ forms) (hids : txs.map Transaction.id = txs'.map Transaction.id) :
    txs = txs' := by
  induction txs generalizing txs' with
  | nil => exact (List.map_eq_nil_iff.mp hids.symm).symm
  | cons tx rest ih =>
    obtain ⟨tx', rest', rfl, hid, hrest⟩ := List.map_eq_cons_iff.mp hids.symm
    obtain ⟨htx, hforms⟩ := List.forall_mem_cons.mp h
    obtain ⟨htx', hforms'⟩ := List.forall_mem_cons.mp h'
    rw [(Hash.ofValue_eq_iff hlength hdigest htx' htx).mp hid, ih hforms hforms' hrest.symm]

/-- **Identity binds content.** Among binary forms no two of which have one digest, transactions are
equal when their identities are, headers are equal when their hashes are, and blocks that match their
headers are equal, with all their transactions in order, when their hashes are. -/
theorem identity_binds_content (forms : Set Bytes) (hlength : ∀ bs ∈ forms, bs.length < 2 ^ 64)
    (hdigest : Set.InjOn Hash.digest forms) :
    (∀ tx tx' : Transaction, encode tx ∈ forms → encode tx' ∈ forms →
      (tx.id = tx'.id ↔ tx = tx')) ∧
    (∀ h h' : Header, encode h ∈ forms → encode h' ∈ forms → (h.hash = h'.hash ↔ h = h')) ∧
    ∀ b b' : Block, encode b.header ∈ forms → encode b'.header ∈ forms →
      (∀ tx ∈ b.transactions, encode tx ∈ forms) → (∀ tx ∈ b'.transactions, encode tx ∈ forms) →
      b.matchesHeader → b'.matchesHeader → b.hash = b'.hash → b = b' := by
  refine ⟨fun tx tx' => Hash.ofValue_eq_iff hlength hdigest,
    fun h h' => Hash.ofValue_eq_iff hlength hdigest, ?_⟩
  intro b b' hheader hheader' htxs htxs' hmatch hmatch' hhash
  have heq : b.header = b'.header :=
    (Hash.ofValue_eq_iff hlength hdigest hheader hheader').mp hhash
  rw [Block.matchesHeader, beq_iff_eq] at hmatch hmatch'
  have hids : b.transactions.map Transaction.id = b'.transactions.map Transaction.id := by
    rw [← hmatch, ← hmatch', heq]
  have hbody := Transaction.eq_of_map_id_eq hlength hdigest htxs htxs' hids
  calc b = ⟨b.header, b.transactions⟩ := rfl
    _ = ⟨b'.header, b'.transactions⟩ := by rw [heq, hbody]

/-- Two transactions that differ in one byte of their arguments, and a header for each: no two of the
four digests are equal, so the hypotheses hold of their forms. A body exchanged under a header keeps
the hash, but does not match. -/
theorem identity_binds_content_four :
    let tx : Transaction := ⟨"é", "token", 7, "Transfer", [1, 2]⟩
    let tx' : Transaction := ⟨"é", "token", 7, "Transfer", [1, 3]⟩
    let b := Block.make .zero 2 0 [tx]
    let b' := Block.make .zero 2 0 [tx']
    let exchanged : Block := ⟨b.header, b'.transactions⟩
    let forms : Set Bytes :=
      {bs | bs ∈ [encode tx, encode tx', encode b.header, encode b'.header]}
    (∀ bs ∈ forms, bs.length < 2 ^ 64) ∧ Set.InjOn Hash.digest forms ∧
      tx.id ≠ tx'.id ∧ b.header.hash ≠ b'.header.hash ∧
      (b.matchesHeader ∧ b'.matchesHeader ∧ b.hash ≠ b'.hash) ∧
      exchanged.hash = b.hash ∧ exchanged.matchesHeader = false := by
  intro tx tx' b b' exchanged forms
  have hlength : ∀ bs ∈ forms, bs.length < 2 ^ 64 := by
    show ∀ bs ∈ [encode tx, encode tx', encode b.header, encode b'.header], _
    decide +kernel
  have hdigest : Set.InjOn Hash.digest forms := by
    show ∀ bs ∈ [encode tx, encode tx', encode b.header, encode b'.header],
      ∀ cs ∈ [encode tx, encode tx', encode b.header, encode b'.header], _
    decide +kernel
  obtain ⟨htransactions, hheaders, hblocks⟩ := identity_binds_content forms hlength hdigest
  have htx : encode tx ∈ forms := by simp [forms]
  have htx' : encode tx' ∈ forms := by simp [forms]
  have hb : encode b.header ∈ forms := by simp [forms]
  have hb' : encode b'.header ∈ forms := by simp [forms]
  have hne : tx ≠ tx' := by decide
  have hheader : b.header ≠ b'.header := by decide +kernel
  have hmatch : b.matchesHeader := Block.matchesHeader_make ..
  have hmatch' : b'.matchesHeader := Block.matchesHeader_make ..
  refine ⟨hlength, hdigest, fun h => hne ((htransactions tx tx' htx htx').mp h),
    fun h => hheader ((hheaders b.header b'.header hb hb').mp h), ⟨hmatch, hmatch', fun h => ?_⟩,
    rfl, by decide +kernel⟩
  have hblock := hblocks b b' hb hb' (by simpa [b, Block.make] using htx)
    (by simpa [b', Block.make] using htx') hmatch hmatch' h
  exact hheader (congrArg Block.header hblock)

end ChainNode
