import ChainNode.Proofs.Execution.Components
import ChainNode.Proofs.Execution.Paths
import ChainNode.Proofs.Execution.Serializability

/-!
# Groups that keep apart

A transaction keeps to some paths when what is stored there settles its outcome and it reports no
read and no write elsewhere. When the items with one key keep to paths that no other item writes, a
replay of all items is, on these paths, the replay of the items with that key (`replay_bucket`): so
the items of different keys may be taken in any order. And groups that touched no common path are
all taken in by the merge (`Merge.foldl_add_of_apart`).
-/

namespace ChainNode

/-- What is stored at some paths settles the outcome of a transaction, and its outcomes report reads
and writes of these paths only. -/
structure KeepsTo (execute : Executor Id) (context : BlockContext) (tx : Transaction)
    (within : Path → Prop) : Prop where
  settled : ∀ v w, (∀ p, within p → v p = w p) →
    (execute context v tx).run = (execute context w tx).run
  reads : ∀ v, ∀ p ∈ (execute context v tx).run.reads, within p
  writes : ∀ v, ∀ p ∈ (execute context v tx).run.writes, within p

theorem Outcome.mem_writes_of_mem_effect {o : Outcome} {p : Path} (h : p ∈ o.effect) :
    p ∈ o.writes := by
  rw [effect] at h
  split at h
  · exact h
  · exact absurd h Std.ExtTreeMap.not_mem_empty

section Apart
variable {execute : Executor Id} {context : BlockContext}

namespace KeepsTo

theorem mono {tx : Transaction} {within within' : Path → Prop}
    (h : KeepsTo execute context tx within) (hle : ∀ p, within p → within' p) :
    KeepsTo execute context tx within' where
  settled v w hvw := h.settled v w fun p hp => hvw p (hle p hp)
  reads v p hp := hle p (h.reads v p hp)
  writes v p hp := hle p (h.writes v p hp)

theorem effect {tx : Transaction} {within : Path → Prop} (h : KeepsTo execute context tx within)
    (v : View) : ∀ p ∈ (execute context v tx).run.effect, within p :=
  fun p hp => h.writes v p (Outcome.mem_writes_of_mem_effect hp)

end KeepsTo

/-! ## Replays apart -/

/-- What no transaction writes stays. -/
theorem replay_getElem?_of_silent {txs : List Transaction} {p : Path}
    (htxs : ∀ tx ∈ txs, ∀ v, p ∉ (execute context v tx).run.effect) (state : Overlay) :
    (replay execute context state txs).2.changes[p]? = state.changes[p]? := by
  induction txs generalizing state with
  | nil => rfl
  | cons tx rest ih =>
    rw [replay]
    simp only
    rw [ih (fun tx' htx' => htxs tx' (List.mem_cons_of_mem tx htx')),
      Overlay.getElem?_apply_of_notMem (htxs tx List.mem_cons_self state.view)]

open Grouping in
/-- **A replay, seen from one key.** Let items with a key keep to paths that no other item writes.
Two replays from states that agree there, one of all items and one of those with the key, agree
there at the end, and each item ends the same in both. -/
theorem replay_bucket {κ : Type} {within : Path → Prop} {k : Nat}
    {items : List (Nat × Transaction × κ)} {status : Transaction × κ → Status}
    (hin : ∀ x ∈ items, x.1 = k → KeepsTo execute context x.2.1 within)
    (hout : ∀ x ∈ items, x.1 ≠ k → ∀ v, ∀ p ∈ (execute context v x.2.1).run.effect, ¬ within p)
    (all own : Overlay) (hbase : all.base = own.base)
    (hagree : ∀ p, within p → all.changes[p]? = own.changes[p]?)
    (hall : (replay execute context all (items.map fun x => x.2.1)).1 =
      items.map fun x => (x.2.1, status x.2)) :
    (replay execute context own ((bucket items k).map Prod.fst)).1 =
        (bucket items k).map (fun x => (x.1, status x)) ∧
      ∀ p, within p → (replay execute context all (items.map fun x => x.2.1)).2.changes[p]? =
        (replay execute context own ((bucket items k).map Prod.fst)).2.changes[p]? := by
  induction items generalizing all own with
  | nil => exact ⟨rfl, hagree⟩
  | cons x items ih =>
    obtain ⟨key, tx, tag⟩ := x
    have hin' : ∀ x ∈ items, x.1 = k → KeepsTo execute context x.2.1 within :=
      fun x hx => hin x (List.mem_cons_of_mem _ hx)
    have hout' : ∀ x ∈ items, x.1 ≠ k → ∀ v, ∀ p ∈ (execute context v x.2.1).run.effect,
        ¬ within p :=
      fun x hx => hout x (List.mem_cons_of_mem _ hx)
    simp only [List.map_cons, replay, List.cons.injEq, Prod.mk.injEq, true_and] at hall
    obtain ⟨hstatus, hrest⟩ := hall
    simp only [List.map_cons, replay]
    by_cases hkey : key = k
    · have hbucket : bucket ((key, tx, tag) :: items) k = (tx, tag) :: bucket items k := by
        simp [bucket, hkey]
      have hviews : ∀ p, within p → all.view p = own.view p := by
        intro p hp
        rw [Overlay.view, Overlay.view, hbase]
        exact Changes.onto_eq_of_getElem?_eq (hagree p hp) own.base
      have hsame : (execute context all.view tx).run = (execute context own.view tx).run :=
        (hin _ List.mem_cons_self hkey).settled all.view own.view hviews
      rw [hbucket]
      simp only [List.map_cons, replay]
      rw [← hsame, hstatus]
      have hnext := ih hin' hout' (all.apply (execute context all.view tx).run.effect)
        (own.apply (execute context all.view tx).run.effect) hbase
        (by
          intro p hp
          rw [Overlay.getElem?_apply, Overlay.getElem?_apply, hagree p hp])
        hrest
      exact ⟨by rw [hnext.1], hnext.2⟩
    · have hbucket : bucket ((key, tx, tag) :: items) k = bucket items k := by
        simp [bucket, hkey]
      rw [hbucket]
      apply ih hin' hout' (all.apply (execute context all.view tx).run.effect) own hbase ?_ hrest
      intro p hp
      have hsilent : p ∉ (execute context all.view tx).run.effect :=
        fun hmem => hout _ List.mem_cons_self hkey all.view p hmem hp
      rw [Overlay.getElem?_apply_of_notMem hsilent, hagree p hp]

/-! ## Groups that run to their end -/

/-- A group that nothing stops is replayed on its view. -/
theorem executeGroup_never (base : View) (group : List Transaction) :
    (executeGroup execute .never context base group).run.run =
        ⟨(replay execute context (.new base) group).1, []⟩ ∧
      (executeGroup execute .never context base group).run.delta.writes =
        (replay execute context (.new base) group).2.changes := by
  obtain ⟨hrun, hwrites⟩ := @executeGroupFrom_eq_executeFrom execute context .never 0
    (.new base) group
  rw [executeFrom_never] at hrun hwrites
  exact ⟨hrun, hwrites⟩

/-- Groups that nothing stops, all over one view. -/
theorem executeGroups_never (base : View) (groups : List (List Transaction)) :
    (executeGroups execute (fun _ => pure false) context base 0 groups).run =
      groups.map fun group => (executeGroup execute .never context base group).run := by
  rw [executeGroups_eq_map]
  conv_rhs => rw [← List.zipIdx_map_fst 0 groups, List.map_map]
  rfl

/-- What a group touches stays within the paths that its transactions keep to. -/
theorem executeGroup_within {stop : Signal Id} {within : Path → Prop} {group : List Transaction}
    (hgroup : ∀ tx ∈ group, KeepsTo execute context tx within) (base : View) :
    ∀ p ∈ (executeGroup execute stop context base group).run.delta.touched, within p := by
  apply executeGroupFrom_within (fun tx htx v => ⟨(hgroup tx htx).reads v, (hgroup tx htx).effect v⟩)
  intro p hp
  rcases Delta.mem_touched.mp hp with hp | hp
  · exact absurd hp Std.ExtTreeMap.not_mem_empty
  · exact absurd hp Std.ExtTreeSet.not_mem_empty

/-! ## Merging groups that are apart -/

/-- Groups that touched neither what a merge knows nor what another of them touched are taken in one
after the other, whatever their order. -/
theorem Merge.foldl_add_of_apart {runs : List GroupRun} {g : Merge}
    (hruns : runs.Pairwise fun r r' => ∀ p ∈ r.delta.touched, p ∉ r'.delta.touched)
    (hg : ∀ r ∈ runs, ∀ p ∈ r.delta.touched, p ∉ g.touched ∧ p ∉ g.written) :
    (runs.foldl Merge.add g).state = runs.foldl (fun state r => state.apply r.delta.writes) g.state ∧
      (runs.foldl Merge.add g).entries = g.entries ++ runs.flatMap (·.run.accepted) ∧
      (runs.foldl Merge.add g).notExecuted = g.notExecuted ++ runs.flatMap (·.run.notStarted) := by
  induction runs generalizing g with
  | nil => exact ⟨rfl, (List.append_nil _).symm, (List.append_nil _).symm⟩
  | cons r runs ih =>
    obtain ⟨hr, hruns⟩ := List.pairwise_cons.mp hruns
    have hfree : g.conflicts r.delta = false := by
      rw [conflicts_eq_false_iff]
      refine ⟨fun p hp => ?_, fun p hp => ?_⟩
      · exact (hg r List.mem_cons_self p (Delta.mem_touched.mpr (.inl hp))).1
      · exact (hg r List.mem_cons_self p (Delta.mem_touched.mpr (.inr hp))).2
    have hnext : ∀ r' ∈ runs, ∀ p ∈ r'.delta.touched,
        p ∉ (g.add r).touched ∧ p ∉ (g.add r).written := by
      intro r' hr' p hp
      obtain ⟨htouched, hwritten⟩ := hg r' (List.mem_cons_of_mem r hr') p hp
      have hapart : p ∉ r.delta.touched := fun hp' => hr r' hr' p hp' hp
      have hsilent : p ∉ r.delta.writes := fun hw => hapart (Delta.mem_touched.mpr (.inl hw))
      rw [add_of_not_conflicts hfree]
      simp only [Std.ExtTreeSet.mem_insertMany_list, List.contains_iff_mem,
        Std.ExtTreeMap.mem_keys, not_or]
      exact ⟨⟨htouched, hapart⟩, hwritten, hsilent⟩
    obtain ⟨hstate, hentries, hnot⟩ := ih hruns hnext
    rw [add_of_not_conflicts hfree] at hstate hentries hnot
    rw [List.foldl_cons, List.foldl_cons, List.flatMap_cons, List.flatMap_cons,
      add_of_not_conflicts hfree]
    refine ⟨hstate, ?_, ?_⟩
    · rw [hentries, List.append_assoc]
    · rw [hnot, List.append_assoc]

theorem flatMap_accepted (runs : List GroupRun) :
    runs.flatMap (·.run.accepted) =
      (runs.flatMap (·.run.finished)).map fun (tx, status) => ⟨tx, status, .accepted⟩ := by
  rw [List.map_flatMap]
  rfl

/-- Where none of many changes speaks, nothing changes. -/
theorem foldl_apply_getElem?_of_silent {κ : Type} {ks : List κ} {W : κ → Changes} {p : Path}
    (hp : ∀ k ∈ ks, p ∉ W k) (state : Overlay) :
    (ks.foldl (fun state k => state.apply (W k)) state).changes[p]? = state.changes[p]? := by
  induction ks generalizing state with
  | nil => rfl
  | cons k ks ih =>
    rw [List.foldl_cons, ih (fun k' hk' => hp k' (List.mem_cons_of_mem k hk')),
      Overlay.getElem?_apply_of_notMem (hp k List.mem_cons_self)]

/-- Where one of many changes speaks and no other does, the others do not matter. -/
theorem foldl_apply_getElem? {κ : Type} {ks : List κ} (hks : ks.Nodup) {k : κ} (hk : k ∈ ks)
    {W : κ → Changes} {p : Path} (hp : ∀ k' ∈ ks, k' ≠ k → p ∉ W k') (state : Overlay) :
    (ks.foldl (fun state k => state.apply (W k)) state).changes[p]? =
      (state.apply (W k)).changes[p]? := by
  obtain ⟨before, after, rfl⟩ := List.append_of_mem hk
  have hnot : k ∉ before ++ after := (List.nodup_cons.mp (List.nodup_middle.mp hks)).1
  have hothers : ∀ k' ∈ before ++ after, p ∉ W k' := by
    intro k' hk'
    have hne : k' ≠ k := ne_of_mem_of_not_mem hk' hnot
    apply hp k' _ hne
    rw [List.mem_append] at hk' ⊢
    exact hk'.imp_right (List.mem_cons_of_mem k)
  have hbefore : ∀ k' ∈ before, p ∉ W k' := fun k' hk' =>
    hothers k' (List.mem_append_left after hk')
  have hafter : ∀ k' ∈ after, p ∉ W k' := fun k' hk' =>
    hothers k' (List.mem_append_right before hk')
  rw [List.foldl_append, List.foldl_cons, foldl_apply_getElem?_of_silent hafter,
    Overlay.getElem?_apply, Overlay.getElem?_apply, foldl_apply_getElem?_of_silent hbefore]

end Apart

end ChainNode
