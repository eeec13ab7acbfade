import ChainNode.State.Delta
import ChainNode.State.Overlay

/-!
# Laws of changes and deltas

Changes are compared by what they say of each path: `Changes.getElem?_extend` says it of two sets of
changes together, and every other law follows from it. Changes are associative with no changes as
their unit, and a view after changes differs from the view before only where the changes speak.
Pending changes take up applied ones in the same way. A delta never forgets a path that it has read
or written.
-/

namespace ChainNode

namespace Changes

/-- Later changes win, and earlier ones speak where the later ones are silent. -/
theorem getElem?_extend (first second : Changes) (p : Path) :
    (first.extend second)[p]? = second[p]?.or first[p]? :=
  Std.ExtTreeMap.getElem?_union

theorem mem_extend {first second : Changes} {p : Path} :
    p ∈ first.extend second ↔ p ∈ first ∨ p ∈ second :=
  Std.ExtTreeMap.mem_union_iff

/-- Changes that say the same of each path are the same. -/
theorem ext {first second : Changes} (h : ∀ p : Path, first[p]? = second[p]?) : first = second :=
  Std.ExtTreeMap.ext_getElem? fun {p} => h p

@[simp] theorem extend_empty (changes : Changes) : changes.extend ∅ = changes := by
  apply ext
  intro p
  rw [getElem?_extend, Std.ExtTreeMap.getElem?_empty, Option.none_or]

@[simp] theorem empty_extend (changes : Changes) : (∅ : Changes).extend changes = changes := by
  apply ext
  intro p
  rw [getElem?_extend, Std.ExtTreeMap.getElem?_empty, Option.or_none]

theorem extend_assoc (first second third : Changes) :
    (first.extend second).extend third = first.extend (second.extend third) := by
  apply ext
  intro p
  simp only [getElem?_extend, Option.or_assoc]

/-- A view after changes is what it was wherever the changes are silent. -/
theorem onto_of_notMem {changes : Changes} {p : Path} (h : p ∉ changes) (view : View) :
    changes.onto view p = view p := by
  rw [onto, Std.ExtTreeMap.getElem?_eq_none h]

/-- Views that agree at a path, or whose difference there is covered up, agree after changes. -/
theorem onto_congr (changes : Changes) {v w : View} {p : Path} (h : p ∉ changes → v p = w p) :
    changes.onto v p = changes.onto w p := by
  by_cases hc : p ∈ changes
  · rw [onto, onto, Std.ExtTreeMap.getElem?_eq_some_getElem hc]
  · rw [onto_of_notMem hc, onto_of_notMem hc, h hc]

/-- The same word on a path makes views of one kind agree there. -/
theorem onto_eq_of_getElem?_eq {first second : Changes} {p : Path} (h : first[p]? = second[p]?)
    (view : View) : first.onto view p = second.onto view p := by
  simp only [onto, h]

end Changes

namespace Overlay

/-- Applied changes win, and those before speak where the applied ones are silent. -/
theorem getElem?_apply (o : Overlay) (changes : Changes) (p : Path) :
    (o.apply changes).changes[p]? = changes[p]?.or o.changes[p]? :=
  Changes.getElem?_extend o.changes changes p

theorem getElem?_apply_of_notMem {o : Overlay} {changes : Changes} {p : Path} (h : p ∉ changes) :
    (o.apply changes).changes[p]? = o.changes[p]? := by
  rw [getElem?_apply, Std.ExtTreeMap.getElem?_eq_none h, Option.none_or]

end Overlay

namespace Delta

theorem mem_extend_reads {first second : Delta} {p : Path} :
    p ∈ (first.extend second).reads ↔ p ∈ first.reads ∨ p ∈ second.reads ∧ p ∉ first.writes := by
  simp only [extend, Std.ExtTreeSet.mem_union_iff, Std.ExtTreeSet.mem_filter, Bool.not_eq_true',
    exists_prop, Std.ExtTreeSet.get_eq, Std.ExtTreeMap.mem_iff_contains, Bool.not_eq_true]

theorem mem_extend_writes {first second : Delta} {p : Path} :
    p ∈ (first.extend second).writes ↔ p ∈ first.writes ∨ p ∈ second.writes :=
  Changes.mem_extend

/-- What is touched was written or read. -/
theorem mem_touched {d : Delta} {p : Path} : p ∈ d.touched ↔ p ∈ d.writes ∨ p ∈ d.reads := by
  simp only [touched, List.mem_append, Std.ExtTreeMap.mem_keys, Std.ExtTreeSet.mem_toList,
    Std.ExtTreeSet.mem_filter, exists_prop, Std.ExtTreeSet.get_eq, Bool.not_eq_true',
    ← Bool.not_eq_true, Std.ExtTreeMap.contains_iff_mem]
  by_cases h : p ∈ d.writes <;> simp [h]

end Delta

end ChainNode
