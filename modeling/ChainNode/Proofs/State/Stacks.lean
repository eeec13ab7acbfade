import ChainNode.Proofs.State.Layering
import ChainNode.State.Memory

/-!
# Layerings agree

A deletion is a marker in changes but a removal from memory; both come to the same, since applying
changes to a memory lays them over its view (`Memory.view_apply`), as an overlay and a layer do. So
several changes are seen in the same way whatever holds them (`Changes.ontoAll`): a memory that they
were applied to, one overlay, or a stack of overlays with a layer on top among which they are split.
-/

namespace ChainNode

/-! ## Applying changes to a memory -/

namespace Memory

variable {m : Memory} {p : Path}

/-- Memories with the same view are the same. -/
theorem eq_of_view_eq {m n : Memory} (h : m.view = n.view) : m = n := by
  have hvalues : m.values = n.values := Std.ExtTreeMap.ext_getElem? fun {p} => congrFun h p
  calc m = ⟨m.values⟩ := rfl
    _ = ⟨n.values⟩ := by rw [hvalues]

/-- Entries that speak of other paths change nothing at a path. -/
theorem view_foldl_put_of_ne {entries : List (Path × Option Value)} (h : ∀ e ∈ entries, e.1 ≠ p) :
    (entries.foldl (fun m e => m.put e.1 e.2) m).view p = m.view p := by
  induction entries generalizing m with
  | nil => rfl
  | cons e rest ih =>
    obtain ⟨he, hrest⟩ := List.forall_mem_cons.mp h
    rw [List.foldl_cons, ih hrest, view_put, if_neg he]

/-- Where no two entries speak of one path, each has its say. -/
theorem view_foldl_put_of_mem {entries : List (Path × Option Value)} {content : Option Value}
    (hdistinct : entries.Pairwise fun e e' => e.1 ≠ e'.1) (h : (p, content) ∈ entries) :
    (entries.foldl (fun m e => m.put e.1 e.2) m).view p = content := by
  induction entries generalizing m with
  | nil => cases h
  | cons e rest ih =>
    obtain ⟨he, hrest⟩ := List.pairwise_cons.mp hdistinct
    rw [List.foldl_cons]
    obtain rfl | h := List.mem_cons.mp h
    · rw [view_foldl_put_of_ne fun e' he' => (he e' he').symm, view_put, if_pos rfl]
    · exact ih hrest h

/-- Applied changes lie over what was there before. -/
theorem view_apply (m : Memory) (changes : Changes) :
    (m.apply changes).view = changes.onto m.view := by
  funext p
  have hfold : m.apply changes = changes.toList.foldl (fun m e => m.put e.1 e.2) m :=
    Std.ExtTreeMap.foldl_eq_foldl_toList
  rw [hfold, Changes.onto]
  split
  case h_1 content hp =>
    refine view_foldl_put_of_mem ?_ (Std.ExtTreeMap.mem_toList_iff_getElem?_eq_some.mpr hp)
    refine Std.ExtTreeMap.distinct_keys_toList.imp fun hne heq => hne ?_
    rw [heq]
    exact Std.ReflCmp.compare_self
  case h_2 hp =>
    refine view_foldl_put_of_ne ?_
    rintro e he rfl
    have hmem := Std.ExtTreeMap.mem_toList_iff_getElem?_eq_some.mp he
    rw [hp] at hmem
    cases hmem

end Memory

/-! ## Many changes -/

/-- A view after changes that come one after the other. -/
def Changes.ontoAll (changes : List Changes) (view : View) : View :=
  changes.foldl (fun v c => c.onto v) view

theorem Changes.ontoAll_append (first second : List Changes) (view : View) :
    ontoAll (first ++ second) view = ontoAll second (ontoAll first view) :=
  List.foldl_append

/-- What lays each change over what was seen before comes to show them all. -/
theorem Changes.view_foldl {σ τ : Type} (view : σ → View) (step : σ → τ → σ) (writes : τ → Changes)
    (hstep : ∀ s c, view (step s c) = (writes c).onto (view s)) (s : σ) (cs : List τ) :
    view (cs.foldl step s) = ontoAll (cs.map writes) (view s) := by
  induction cs generalizing s with
  | nil => rfl
  | cons c rest ih =>
    rw [List.foldl_cons, ih, hstep]
    rfl

theorem Memory.view_foldl_apply (m : Memory) (changes : List Changes) :
    (changes.foldl Memory.apply m).view = Changes.ontoAll changes m.view := by
  rw [Changes.view_foldl view apply id view_apply, List.map_id]

theorem Overlay.view_foldl_apply (o : Overlay) (changes : List Changes) :
    (changes.foldl Overlay.apply o).view = Changes.ontoAll changes o.view := by
  rw [Changes.view_foldl view apply id view_apply, List.map_id]

@[simp] theorem Overlay.base_foldl_apply (o : Overlay) (changes : List Changes) :
    (changes.foldl Overlay.apply o).base = o.base := by
  induction changes generalizing o with
  | nil => rfl
  | cons c rest ih => exact ih (o.apply c)

theorem Layered.view_foldl_commit (l : Layered) (deltas : List Delta) :
    (deltas.foldl Layered.commit l).view = Changes.ontoAll (deltas.map Delta.writes) l.view :=
  Changes.view_foldl view commit Delta.writes view_commit l deltas

/-- What is stored as seen through a stack of overlays, the lowest first, each with its changes. -/
def Overlay.stack (base : View) (layers : List (List Changes)) : View :=
  layers.foldl (fun view changes => (changes.foldl Overlay.apply (.new view)).view) base

theorem Overlay.stack_eq (base : View) (layers : List (List Changes)) :
    stack base layers = Changes.ontoAll layers.flatten base := by
  rw [stack]
  induction layers generalizing base with
  | nil => rfl
  | cons changes rest ih =>
    rw [List.foldl_cons, ih, view_foldl_apply, view_new, List.flatten_cons, Changes.ontoAll_append]

/-- **All layerings agree.** A path reads the same in a memory that several changes were applied to in
order, through one overlay that holds them, through a stack of overlays with a layer on top among
which they are split in order, and in the memory that the overlay's accumulated changes were applied
to at once; that memory is the first one. -/
theorem layerings_agree (base : Memory) (changes : List Changes) (layers : List (List Changes))
    (deltas : List Delta) (hsplit : layers.flatten ++ deltas.map Delta.writes = changes) (p : Path) :
    let plain := changes.foldl Memory.apply base
    let overlay := changes.foldl Overlay.apply (.new base.view)
    overlay.view p = plain.view p ∧
      (deltas.foldl Layered.commit (.new (Overlay.stack base.view layers))).view p = plain.view p ∧
      (base.apply overlay.changes).view p = plain.view p ∧
      base.apply overlay.changes = plain := by
  intro plain overlay
  have hplain : plain.view = Changes.ontoAll changes base.view := base.view_foldl_apply changes
  have hoverlay : overlay.view = plain.view := by
    rw [hplain, Overlay.view_foldl_apply, Overlay.view_new]
  have hstack : (deltas.foldl Layered.commit (.new (Overlay.stack base.view layers))).view =
      plain.view := by
    rw [hplain, Layered.view_foldl_commit, Layered.view_new, Overlay.stack_eq,
      ← Changes.ontoAll_append, hsplit]
  have hatOnce : (base.apply overlay.changes).view = plain.view := by
    calc (base.apply overlay.changes).view = overlay.changes.onto base.view := base.view_apply _
      _ = overlay.view := by rw [Overlay.view, Overlay.base_foldl_apply]; rfl
      _ = plain.view := hoverlay
  exact ⟨congrFun hoverlay p, congrFun hstack p, congrFun hatOnce p, Memory.eq_of_view_eq hatOnce⟩

/-- A path that is deleted, deleted again in the next overlay, stored by a first commit and deleted by
a second one, and another that is stored over its deletion. -/
theorem layerings_agree_deletions :
    let a : Path := ⟨["a"]⟩
    let b : Path := ⟨["b"]⟩
    let base := Memory.ofList [(a, [1]), (b, [2])]
    let deletion := Changes.ofList [(a, none), (b, none)]
    let first := Changes.ofList [(a, some [3]), (b, some [4])]
    let second := Changes.ofList [(a, none)]
    let overlay := [deletion, second, first, second].foldl Overlay.apply (.new base.view)
    let layered := [⟨first, ∅⟩, ⟨second, Std.ExtTreeSet.ofList [a]⟩].foldl Layered.commit
      (.new (Overlay.stack base.view [[deletion], [], [second]]))
    (overlay.view a = none ∧ overlay.view b = some [4]) ∧
      (layered.view a = none ∧ layered.view b = some [4]) ∧
      base.apply overlay.changes = Memory.ofList [(b, [4])] := by
  intro a b base deletion first second overlay layered
  have hplain : [deletion, second, first, second].foldl Memory.apply base =
      Memory.ofList [(b, [4])] := by decide +kernel
  have hagree (p : Path) := layerings_agree base [deletion, second, first, second]
    [[deletion], [], [second]] [⟨first, ∅⟩, ⟨second, Std.ExtTreeSet.ofList [a]⟩] rfl p
  obtain ⟨hoverlay, hlayered, -, hmemory⟩ := hagree a
  obtain ⟨hoverlay', hlayered', -, -⟩ := hagree b
  rw [hplain] at hoverlay hlayered hmemory hoverlay' hlayered'
  exact ⟨⟨hoverlay, hoverlay'⟩, ⟨hlayered, hlayered'⟩, hmemory⟩

end ChainNode
