import ChainNode.Proofs.Sync.Served

/-!
# A route

A route is the part of a served chain that begins after one of its blocks and contains a target. Its
places are the blocks by their number, beginning with the block before it. What a peer answers at a place
is the next part of the route (`Route.following_place_cases`).
-/

namespace ChainNode

/-- The blocks of a served chain after an origin; some number of them lead to a target. -/
structure Route (server : BlockServer) where
  origin : Tip
  blocks : List Block
  /-- The number of blocks up to the target. -/
  goal : Nat
  goal_le : goal ≤ blocks.length
  linked : Linked origin.hash blocks
  height_getElem : ∀ i (hi : i < blocks.length),
    blocks[i].height.toNat = origin.height.toNat + i + 1
  following_origin : ∀ count, server.following count origin.hash = blocks.take count
  following_getElem : ∀ i (hi : i < blocks.length) count,
    server.following count blocks[i].hash = (blocks.drop (i + 1)).take count
  matchesHeader : ∀ b ∈ blocks, b.matchesHeader
  height_eq : ∀ b ∈ blocks, ∀ c ∈ blocks, b.hash = c.hash → b.height = c.height

namespace Route

variable {server : BlockServer} (r : Route server)

/-- The last of the first so many blocks, or the origin. -/
def place (e : Nat) : Tip := ((r.blocks.take e).getLast?.map Block.tip).getD r.origin

@[simp] theorem place_zero : r.place 0 = r.origin := rfl

theorem place_succ {i : Nat} (hi : i < r.blocks.length) : r.place (i + 1) = r.blocks[i].tip := by
  rw [place, List.take_succ_eq_append_getElem hi, List.getLast?_concat]
  rfl

theorem following_place {e : Nat} (he : e ≤ r.blocks.length) (count : Nat) :
    server.following count (r.place e).hash = (r.blocks.drop e).take count := by
  cases e with
  | zero => exact r.following_origin count
  | succ i => rw [r.place_succ he]; exact r.following_getElem i he count

theorem height_place {e : Nat} (he : e ≤ r.blocks.length) :
    (r.place e).height.toNat = r.origin.height.toNat + e := by
  cases e with
  | zero => rfl
  | succ i => rw [r.place_succ he]; exact r.height_getElem i he

/-- What follows a place is linked to it. -/
theorem linked_drop {e : Nat} (he : e ≤ r.blocks.length) :
    Linked (r.place e).hash (r.blocks.drop e) := by
  cases e with
  | zero => exact r.linked
  | succ i =>
    have hsplit : r.blocks = r.blocks.take i ++ r.blocks[i] :: r.blocks.drop (i + 1) := by
      rw [← List.drop_eq_getElem_cons he, List.take_append_drop]
    have h := r.linked
    rw [hsplit] at h
    rw [r.place_succ he]
    exact h.append_right

/-- The block after a place follows it. -/
theorem previous_getElem {i : Nat} (hi : i < r.blocks.length) :
    r.blocks[i].previous = (r.place i).hash := by
  have h := r.linked_drop (Nat.le_of_lt hi)
  rw [List.drop_eq_getElem_cons hi] at h
  exact h.1

/-- What a peer answers at a place: some of the next blocks, all that it can of them, or nothing if
the route has come to its end. -/
theorem following_place_cases {e : Nat} (he : e ≤ r.blocks.length) {count : Nat} (hcount : 0 < count) :
    e = r.blocks.length ∧ server.following count (r.place e).hash = [] ∨
    ∃ k last, 0 < k ∧ k ≤ count ∧ e + k ≤ r.blocks.length ∧ (k < count → e + k = r.blocks.length) ∧
      server.following count (r.place e).hash = (r.blocks.drop e).take k ∧
      ((r.blocks.drop e).take k).getLast? = some last ∧ last.tip = r.place (e + k) := by
  rw [r.following_place he]
  obtain rfl | hlt := Nat.eq_or_lt_of_le he
  · exact .inl ⟨rfl, by rw [List.drop_length, List.take_nil]⟩
  · obtain ⟨i, hi⟩ : ∃ i, min count (r.blocks.length - e) = i + 1 :=
      ⟨min count (r.blocks.length - e) - 1, by omega⟩
    refine .inr ⟨i + 1, r.blocks[e + i], by omega, by omega, by omega, by omega, ?_, ?_, ?_⟩
    · rw [← hi, ← List.length_drop, List.take_eq_take_min]
    · rw [List.take_succ_eq_append_getElem (by rw [List.length_drop]; omega), List.getLast?_concat,
        List.getElem_drop]
    · exact (r.place_succ (by omega)).symm

end Route

/-- The route from one block of a served chain to another. -/
def ServedChain.route {served offered : List Block} {i t : Nat} (h : ServedChain served)
    (hdistinct : HashesDistinct served)
    (hperm : offered.Perm served) (hit : i < t) (ht : t < served.length) :
    Route (BlockServer.ofBlocks offered) where
  origin := served[i].tip
  blocks := served.drop (i + 1)
  goal := t - i
  goal_le := by
    rw [List.length_drop]
    omega
  linked := by
    obtain ⟨parent, hlinked⟩ := h.linked
    have hi : i < served.length := by omega
    have hsplit : served = served.take i ++ served[i] :: served.drop (i + 1) := by
      rw [← List.drop_eq_getElem_cons hi, List.take_append_drop]
    rw [hsplit] at hlinked
    exact hlinked.append_right
  height_getElem k hk := by
    rw [List.length_drop] at hk
    have hi := h.height_getElem (i := i) (by omega)
    have hk' := h.height_getElem (i := i + 1 + k) (by omega)
    rw [List.getElem_drop, hk']
    change _ = served[i].height.toNat + k + 1
    omega
  following_origin := h.following_getElem hdistinct hperm _
  following_getElem k hk count := by
    rw [List.length_drop] at hk
    rw [List.getElem_drop, h.following_getElem hdistinct hperm (by omega), List.drop_drop]
    congr 2
  matchesHeader b hb := h.matchesHeader b (List.mem_of_mem_drop hb)
  height_eq b hb c hc he := congrArg Block.height
    (h.eq_of_hash hdistinct (List.mem_of_mem_drop hb) (List.mem_of_mem_drop hc) he)

section RouteOfChain

variable {served offered : List Block} {i t : Nat} (h : ServedChain served)
  (hdistinct : HashesDistinct served) (hperm : offered.Perm served) (hit : i < t)
  (ht : t < served.length)

/-- The route leads to the other block. -/
theorem ServedChain.place_goal_route :
    (h.route hdistinct hperm hit ht).place (h.route hdistinct hperm hit ht).goal =
      served[t].tip := by
  obtain ⟨k, rfl⟩ : ∃ k, t = i + 1 + k := ⟨t - (i + 1), by omega⟩
  have hgoal : (h.route hdistinct hperm hit ht).goal = k + 1 := by
    change i + 1 + k - i = k + 1
    omega
  have hk : k < (h.route hdistinct hperm hit ht).blocks.length := by
    change k < (served.drop (i + 1)).length
    rw [List.length_drop]
    omega
  rw [hgoal, Route.place_succ _ hk]
  simp only [route, List.getElem_drop]

end RouteOfChain

end ChainNode
