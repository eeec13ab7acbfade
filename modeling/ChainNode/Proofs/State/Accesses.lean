import ChainNode.Proofs.State.Layering
import Mathlib.Tactic.Tauto

/-!
# What the delta of several units of work records

Deltas compose: one after the other is associative, with nothing done as its unit, and what is touched
is what either of them touches. So the delta of a list of units of work can be taken apart at its first
one (`Delta.compose_cons`), and it records the first accesses: of the reads those that see nothing the
list itself wrote before (`Delta.SeenFromOutside`), and of the writes the last one for each path
(`Delta.LastWritten`).
-/

namespace ChainNode

namespace Delta

variable {a b c : Delta} {p : Path}

/-! ## Composing deltas -/

/-- Deltas that record the same of each path are the same. -/
theorem ext_of (hwrites : a.writes = b.writes) (hreads : ∀ p, p ∈ a.reads ↔ p ∈ b.reads) : a = b := by
  have hset : a.reads = b.reads := Std.ExtTreeSet.ext_mem hreads
  calc a = ⟨a.writes, a.reads⟩ := rfl
    _ = ⟨b.writes, b.reads⟩ := by rw [hwrites, hset]

@[simp] theorem notMem_writes_empty : p ∉ empty.writes := Std.ExtTreeMap.not_mem_empty

@[simp] theorem notMem_reads_empty : p ∉ empty.reads := Std.ExtTreeSet.not_mem_empty

@[simp] theorem empty_extend (a : Delta) : empty.extend a = a := by
  refine ext_of (Changes.empty_extend a.writes) fun p => ?_
  simp [mem_extend_reads]

@[simp] theorem extend_empty (a : Delta) : a.extend empty = a := by
  refine ext_of (Changes.extend_empty a.writes) fun p => ?_
  simp [mem_extend_reads]

/-- A read of the third delta is kept if neither of the two before it wrote the path. -/
theorem extend_assoc (a b c : Delta) : (a.extend b).extend c = a.extend (b.extend c) := by
  refine ext_of (Changes.extend_assoc a.writes b.writes c.writes) fun p => ?_
  simp only [mem_extend_reads, mem_extend_writes, not_or]
  tauto

/-- Each touched path is listed once: the reads in the list are not among the writes. -/
theorem nodup_touched (a : Delta) : a.touched.Nodup := by
  refine List.nodup_append.mpr ⟨Std.ExtTreeMap.nodup_keys, ?_, ?_⟩
  · refine Std.ExtTreeSet.distinct_toList.imp ?_
    rintro p _ hne rfl
    exact hne Std.ReflCmp.compare_self
  · rintro p hwritten _ hread rfl
    rw [Std.ExtTreeMap.mem_keys, Std.ExtTreeMap.mem_iff_contains] at hwritten
    simp [hwritten] at hread

theorem mem_touched_extend : p ∈ (a.extend b).touched ↔ p ∈ a.touched ∨ p ∈ b.touched := by
  simp only [mem_touched, mem_extend_writes, mem_extend_reads]
  tauto

/-! ## Many deltas, one after the other -/

/-- The delta of several units of work, one after the other. -/
def compose (deltas : List Delta) : Delta := deltas.foldl extend empty

theorem foldl_extend (a : Delta) (deltas : List Delta) :
    deltas.foldl extend a = a.extend (compose deltas) := by
  rw [compose]
  induction deltas generalizing a with
  | nil => exact (extend_empty a).symm
  | cons d rest ih =>
    rw [List.foldl_cons, List.foldl_cons, ih, empty_extend, ih d, extend_assoc]

@[simp] theorem compose_nil : compose [] = empty := rfl

@[simp] theorem compose_cons (d : Delta) (deltas : List Delta) :
    compose (d :: deltas) = d.extend (compose deltas) := by
  rw [compose, List.foldl_cons, empty_extend, foldl_extend]

/-- What is committed to a layer, one delta after the other, is what they come to. -/
theorem delta_foldl_commit (base : View) (deltas : List Delta) :
    (deltas.foldl Layered.commit (.new base)).delta = compose deltas := by
  have key (l : Layered) : (deltas.foldl Layered.commit l).delta = deltas.foldl extend l.delta := by
    induction deltas generalizing l with
    | nil => rfl
    | cons d rest ih => exact ih (l.commit d)
  exact key (.new base)

/-- Some delta of the list reads the path, and none strictly before it writes the path. -/
def SeenFromOutside (deltas : List Delta) (p : Path) : Prop :=
  ∃ before d after, deltas = before ++ d :: after ∧ p ∈ d.reads ∧ ∀ e ∈ before, p ∉ e.writes

/-- Some delta of the list gives the path this content, and none after it writes the path. -/
def LastWritten (deltas : List Delta) (p : Path) (content : Option Value) : Prop :=
  ∃ before d after, deltas = before ++ d :: after ∧ d.writes[p]? = some content ∧
    ∀ e ∈ after, p ∉ e.writes

theorem not_seenFromOutside_nil : ¬ SeenFromOutside [] p := by
  rintro ⟨before, d, after, h, -⟩
  cases before <;> cases h

theorem seenFromOutside_cons {d : Delta} {deltas : List Delta} :
    SeenFromOutside (d :: deltas) p ↔ p ∈ d.reads ∨ SeenFromOutside deltas p ∧ p ∉ d.writes := by
  constructor
  · rintro ⟨before, e, after, h, hread, hbefore⟩
    obtain ⟨rfl, h⟩ | ⟨before, rfl, rfl⟩ := List.cons_eq_append_iff.mp h
    · cases h
      exact .inl hread
    · obtain ⟨hd, hbefore⟩ := List.forall_mem_cons.mp hbefore
      exact .inr ⟨⟨before, e, after, rfl, hread, hbefore⟩, hd⟩
  · rintro (hread | ⟨⟨before, e, after, rfl, hread, hbefore⟩, hd⟩)
    · exact ⟨[], d, deltas, rfl, hread, nofun⟩
    · exact ⟨d :: before, e, after, rfl, hread, List.forall_mem_cons.mpr ⟨hd, hbefore⟩⟩

theorem not_lastWritten_nil {content : Option Value} : ¬ LastWritten [] p content := by
  rintro ⟨before, d, after, h, -⟩
  cases before <;> cases h

theorem lastWritten_cons {d : Delta} {deltas : List Delta} {content : Option Value} :
    LastWritten (d :: deltas) p content ↔
      LastWritten deltas p content ∨ d.writes[p]? = some content ∧ ∀ e ∈ deltas, p ∉ e.writes := by
  constructor
  · rintro ⟨before, e, after, h, hwrite, hafter⟩
    obtain ⟨rfl, h⟩ | ⟨before, rfl, rfl⟩ := List.cons_eq_append_iff.mp h
    · cases h
      exact .inr ⟨hwrite, hafter⟩
    · exact .inl ⟨before, e, after, rfl, hwrite, hafter⟩
  · rintro (⟨before, e, after, rfl, hwrite, hafter⟩ | ⟨hwrite, hafter⟩)
    · exact ⟨d :: before, e, after, rfl, hwrite, hafter⟩
    · exact ⟨[], d, deltas, rfl, hwrite, hafter⟩

theorem mem_writes_compose {deltas : List Delta} :
    p ∈ (compose deltas).writes ↔ ∃ e ∈ deltas, p ∈ e.writes := by
  induction deltas with
  | nil => simp
  | cons d rest ih => simp only [compose_cons, mem_extend_writes, ih, List.mem_cons, exists_eq_or_imp]

theorem mem_reads_compose {deltas : List Delta} :
    p ∈ (compose deltas).reads ↔ SeenFromOutside deltas p := by
  induction deltas with
  | nil => simp [not_seenFromOutside_nil]
  | cons d rest ih => rw [compose_cons, mem_extend_reads, ih, seenFromOutside_cons]

theorem getElem?_writes_compose {deltas : List Delta} {content : Option Value} :
    (compose deltas).writes[p]? = some content ↔ LastWritten deltas p content := by
  induction deltas with
  | nil => simp [not_lastWritten_nil, empty]
  | cons d rest ih =>
    have hrest : (compose rest).writes[p]? = none ↔ ∀ e ∈ rest, p ∉ e.writes := by
      rw [← Option.not_isSome_iff_eq_none, ← Std.ExtTreeMap.mem_iff_isSome_getElem?,
        mem_writes_compose, not_exists]
      exact forall_congr' fun e => not_and
    have hlast : (compose (d :: rest)).writes[p]? = (compose rest).writes[p]?.or d.writes[p]? := by
      rw [compose_cons]
      exact Changes.getElem?_extend d.writes (compose rest).writes p
    rw [hlast, lastWritten_cons, Option.or_eq_some_iff, ih, hrest, and_comm (a := d.writes[p]? = _)]

/-- **Deltas record first accesses.** Composing deltas is associative with the empty delta as its
unit, and what is touched by one after another is what either touches, each path once. What is
committed to a layer then has read exactly the paths that some commit read and no earlier one wrote,
and holds for each written path what the last commit that wrote it gave it. -/
theorem commits_record_first_accesses :
    (∀ a b c : Delta, (a.extend b).extend c = a.extend (b.extend c)) ∧
    (∀ a : Delta, empty.extend a = a ∧ a.extend empty = a) ∧
    (∀ a b : Delta, (a.extend b).touched.Nodup ∧
      ∀ p, p ∈ (a.extend b).touched ↔ p ∈ a.touched ∨ p ∈ b.touched) ∧
    ∀ (base : View) (deltas : List Delta),
      let d := (deltas.foldl Layered.commit (.new base)).delta
      (∀ p, p ∈ d.reads ↔ SeenFromOutside deltas p) ∧
      ∀ p content, d.writes[p]? = some content ↔ LastWritten deltas p content := by
  refine ⟨extend_assoc, fun a => ⟨empty_extend a, extend_empty a⟩,
    fun a b => ⟨nodup_touched _, fun p => mem_touched_extend⟩, fun base deltas => ?_⟩
  rw [delta_foldl_commit]
  exact ⟨fun p => mem_reads_compose, fun p content => getElem?_writes_compose⟩

end Delta

end ChainNode
