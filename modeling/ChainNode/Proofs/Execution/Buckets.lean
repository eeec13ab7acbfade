import ChainNode.Execution.Grouping
import Mathlib.Data.List.Induction
import Mathlib.Data.List.Nodup

/-!
# Buckets

Items with keys are put into buckets one by one. At the end there is one bucket for each key, in the
order in which the keys first occur, and it holds the items with that key in their order
(`Grouping.bucketize_eq`); together the buckets hold every item once.
-/

namespace ChainNode.Grouping
variable {α β : Type}

/-- The items with a key, in order. -/
def bucket (items : List (Nat × α)) (k : Nat) : List α :=
  (items.filter fun x => x.1 = k).map Prod.snd

theorem nodup_eraseDups (l : List Nat) : l.eraseDups.Nodup := by
  induction hn : l.length using Nat.strongRecOn generalizing l with
  | ind n ih =>
    cases l with
    | nil => exact List.nodup_nil
    | cons k l =>
      have hlt : (l.filter fun b => !b == k).length < n := by
        rw [← hn, List.length_cons]
        exact Nat.lt_succ_of_le (List.length_filter_le _ _)
      rw [List.eraseDups_cons, List.nodup_cons]
      exact ⟨by simp [List.mem_eraseDups], ih _ hlt _ rfl⟩

theorem eraseDups_concat (l : List Nat) (k : Nat) :
    (l ++ [k]).eraseDups = if k ∈ l then l.eraseDups else l.eraseDups ++ [k] := by
  rw [List.eraseDups_append]
  by_cases hk : k ∈ l
  · rw [if_pos hk, List.removeAll, List.filter_cons_of_neg (by simp [hk]), List.filter_nil,
      List.eraseDups_nil, List.append_nil]
  · rw [if_neg hk, List.removeAll, List.filter_cons_of_pos (by simp [hk]), List.filter_nil,
      List.eraseDups_cons, List.filter_nil, List.eraseDups_nil]

/-- Placing an item into buckets with different keys. -/
theorem place_map (ks : List Nat) (hks : ks.Nodup) (b : Nat → List α) (key : Nat) (a : α) :
    bucketize.place (ks.map fun k => (k, b k)) (key, a) =
      if key ∈ ks then ks.map fun k => (k, if key = k then b k ++ [a] else b k)
      else (ks.map fun k => (k, b k)) ++ [(key, [a])] := by
  induction ks with
  | nil => rfl
  | cons k ks ih =>
    rw [List.nodup_cons] at hks
    rw [List.map_cons, bucketize.place]
    by_cases hk : k = key
    · subst key
      have hrest : (ks.map fun l => (l, if k = l then b l ++ [a] else b l)) =
          ks.map fun l => (l, b l) := by
        apply List.map_congr_left
        intro l hl
        rw [if_neg (ne_of_mem_of_not_mem hl hks.1).symm]
      rw [if_pos rfl, if_pos List.mem_cons_self, List.map_cons, if_pos rfl, hrest]
    · rw [if_neg hk, ih hks.2]
      by_cases hmem : key ∈ ks
      · rw [if_pos hmem, if_pos (List.mem_cons_of_mem k hmem), List.map_cons, if_neg (Ne.symm hk)]
      · rw [if_neg hmem, if_neg (by simp [Ne.symm hk, hmem]), List.cons_append]

theorem bucket_concat (items : List (Nat × α)) (x : Nat × α) (k : Nat) :
    bucket (items ++ [x]) k = if x.1 = k then bucket items k ++ [x.2] else bucket items k := by
  by_cases hk : x.1 = k <;> simp [bucket, hk]

theorem bucket_eq_nil {items : List (Nat × α)} {k : Nat} (hk : k ∉ items.map Prod.fst) :
    bucket items k = [] := by
  rw [bucket, List.map_eq_nil_iff, List.filter_eq_nil_iff]
  intro x hx
  rw [decide_eq_true_iff]
  rintro rfl
  exact hk (List.mem_map_of_mem hx)

/-- There is one bucket for each key, in the order in which keys first occur, and it holds the items
with that key. -/
theorem bucketize_eq (items : List (Nat × α)) :
    bucketize items = (items.map Prod.fst).eraseDups.map fun k => (k, bucket items k) := by
  induction items using List.reverseRecOn with
  | nil => rfl
  | append_singleton items x ih =>
    rw [bucketize] at ih ⊢
    rw [List.foldl_concat, ih, place_map _ (nodup_eraseDups _), List.map_append, List.map_singleton,
      eraseDups_concat]
    simp only [bucket_concat, List.mem_eraseDups]
    by_cases hmem : x.1 ∈ items.map Prod.fst
    · rw [if_pos hmem, if_pos hmem]
    · have hold : ∀ k ∈ (items.map Prod.fst).eraseDups,
          (k, bucket items k) = (k, if x.1 = k then bucket items k ++ [x.2] else bucket items k) := by
        intro k hk
        rw [if_neg (ne_of_mem_of_not_mem (List.mem_eraseDups.mp hk) hmem).symm]
      rw [if_neg hmem, if_neg hmem, List.map_append, List.map_singleton, if_pos rfl,
        bucket_eq_nil hmem, List.nil_append, List.map_congr_left hold]

theorem mem_bucket {items : List (Nat × α)} {k : Nat} {a : α} :
    a ∈ bucket items k ↔ (k, a) ∈ items := by
  rw [bucket, List.mem_map]
  constructor
  · rintro ⟨⟨l, b⟩, hx, rfl⟩
    rw [List.mem_filter, decide_eq_true_iff] at hx
    exact hx.2 ▸ hx.1
  · intro h
    exact ⟨(k, a), List.mem_filter.mpr ⟨h, decide_eq_true rfl⟩, rfl⟩

theorem bucket_map (f : α → β) (items : List (Nat × α)) (k : Nat) :
    bucket (items.map (Prod.map id f)) k = (bucket items k).map f := by
  simp only [bucket, List.filter_map, List.map_map]
  rfl

/-- Buckets with different keys, for all keys there are, hold every item once. -/
theorem flatMap_bucket_perm {ks : List Nat} (hks : ks.Nodup) {items : List (Nat × α)}
    (hall : ∀ x ∈ items, x.1 ∈ ks) : (ks.flatMap (bucket items)).Perm (items.map Prod.snd) := by
  induction ks generalizing items with
  | nil =>
    cases items with
    | nil => exact List.Perm.refl _
    | cons x items => exact absurd (hall x List.mem_cons_self) List.not_mem_nil
  | cons k ks ih =>
    rw [List.nodup_cons] at hks
    let rest := items.filter fun x => !decide (x.1 = k)
    have hrest : ∀ x ∈ rest, x.1 ∈ ks := by
      intro x hx
      rw [List.mem_filter] at hx
      have hne : x.1 ≠ k := by simpa using hx.2
      exact (List.mem_cons.mp (hall x hx.1)).resolve_left hne
    have hbucket : ∀ l ∈ ks, bucket items l = bucket rest l := by
      intro l hl
      have hlk : l ≠ k := ne_of_mem_of_not_mem hl hks.1
      simp only [bucket, rest, List.filter_filter]
      congr 1
      apply List.filter_congr
      intro x _
      by_cases hx : x.1 = l <;> simp [hx, hlk]
    have split : (bucket items k ++ rest.map Prod.snd).Perm (items.map Prod.snd) := by
      rw [bucket, ← List.map_append]
      exact (List.filter_append_perm _ _).map _
    rw [List.flatMap_cons, List.flatMap_congr hbucket]
    exact ((ih hks.2 hrest).append_left _).trans split

end ChainNode.Grouping
