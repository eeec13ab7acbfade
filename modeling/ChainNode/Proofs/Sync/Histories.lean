import ChainNode.Proofs.Sync.Lanes

/-!
# Histories of the queues

Whoever uses the queues makes one small move after the other, at any time and in any order
(`Pipeline.Move`): work and barriers are put at the end of a queue, and a queue takes up its first
message, comes further with it and puts it away, however it ended.

A history notes what was put into each queue, what the queue took up and what ended. What it says about
one queue is read off it entry by entry; no ticket stands in it twice (`History.ticket_unique`).
-/

namespace ChainNode

variable {τ : Type}

namespace Pipeline

/-! ## Moves and their history -/

/-- How a piece of work ends. -/
inductive Ending
  | well
  | failed
  | panicked
  deriving DecidableEq, Repr

/-- What can be done with the queues. -/
inductive Move (τ : Type)
  /-- Work is put at the end of a queue, from outside or by work that is running. -/
  | enqueue (now : Instant) (q : Queue) (w : τ)
  /-- Somebody begins to wait for a queue. -/
  | post (q : Queue)
  | receive (q : Queue)
  /-- The running work of a queue comes further. -/
  | advance (q : Queue) (w : τ)
  | finish (q : Queue) (e : Ending)
  deriving DecidableEq, Repr

/-- The queues after a move, if it can be made: a queue that runs nothing has nothing to come further
with and nothing to put away. -/
def move? (p : Pipeline τ) : Move τ → Option (Pipeline τ)
  | .enqueue now q w => some (p.enqueue now q w)
  | .post q => some (p.post q).2
  | .receive q => p.receive q
  | .advance q w => if (p.lane q).running.isSome then some (p.advance q w) else none
  | .finish q _ => if (p.lane q).running.isSome then some (p.finish q) else none

/-- Something of note about a queue. -/
inductive Entry (τ : Type)
  /-- A message was put at its end. -/
  | sent (q : Queue) (m : Message τ)
  /-- It took up a message: the work started, or the barrier was answered. -/
  | taken (q : Queue) (m : Message τ)
  | ended (q : Queue) (e : Ending)
  deriving DecidableEq, Repr

/-- What a queue has just taken up: what runs, with the time that is shown for it, or else the barrier
that was answered last. -/
def latest (p : Pipeline τ) (q : Queue) : Option (Message τ) :=
  match (p.lane q).running with
  | some w => (p.time q).map fun t => .work t w
  | none => p.answered.head?.map .barrier

/-- What is of note about a move between two states. -/
def Move.entry? (before after : Pipeline τ) : Move τ → Option (Entry τ)
  | enqueue now q w => some (.sent q (.work now w))
  | post q => some (.sent q (.barrier (before.post q).1))
  | receive q => (after.latest q).map (.taken q)
  | advance _ _ => none
  | finish q e => some (.ended q e)

/-- The message put into a queue. -/
def Entry.sent? (q : Queue) : Entry τ → Option (Message τ)
  | sent r m => if r = q then some m else none
  | _ => none

/-- The message that a queue took up. -/
def Entry.taken? (q : Queue) : Entry τ → Option (Message τ)
  | taken r m => if r = q then some m else none
  | _ => none

/-- How work of a queue ended. -/
def Entry.ended? (q : Queue) : Entry τ → Option Ending
  | ended r e => if r = q then some e else none
  | _ => none

/-- The ticket of a new barrier. -/
def Entry.ticket? : Entry τ → Option Nat
  | sent _ (.barrier k) => some k
  | _ => none

/-- What is of note so far, the first entry first. -/
abbrev History (τ : Type) := List (Entry τ)

namespace History

variable (h : History τ) (q : Queue)

/-- The messages put into a queue. -/
def sent : List (Message τ) := h.filterMap (Entry.sent? q)

/-- The messages that a queue took up. -/
def taken : List (Message τ) := h.filterMap (Entry.taken? q)

/-- How the work of a queue ended. -/
def endings : List Ending := h.filterMap (Entry.ended? q)

/-- The work enqueued on a queue, and when. -/
def enqueued : List (Instant × τ) := (h.sent q).filterMap Message.dated?

/-- The work that a queue started, with the time shown for it. -/
def started : List (Instant × τ) := (h.taken q).filterMap Message.dated?

/-- The tickets handed out. -/
def tickets : List Nat := h.filterMap Entry.ticket?

/-! ### Entries one after the other -/

section Append
variable (m : Message τ) (e : Ending) (h' : History τ) (r : Queue)

@[simp] theorem sent_append : sent (h ++ h') r = sent h r ++ sent h' r := List.filterMap_append

@[simp] theorem taken_append : taken (h ++ h') r = taken h r ++ taken h' r := List.filterMap_append

@[simp] theorem endings_append : endings (h ++ h') r = endings h r ++ endings h' r :=
  List.filterMap_append

@[simp] theorem enqueued_append : enqueued (h ++ h') r = enqueued h r ++ enqueued h' r := by
  simp [enqueued]

@[simp] theorem started_append : started (h ++ h') r = started h r ++ started h' r := by
  simp [started]

@[simp] theorem sent_sent : sent [.sent q m] r = if q = r then [m] else [] := by
  by_cases hq : q = r <;> simp [sent, Entry.sent?, hq]

@[simp] theorem taken_taken : taken [.taken q m] r = if q = r then [m] else [] := by
  by_cases hq : q = r <;> simp [taken, Entry.taken?, hq]

@[simp] theorem endings_ended :
    endings [(.ended q e : Entry τ)] r = if q = r then [e] else [] := by
  by_cases hq : q = r <;> simp [endings, Entry.ended?, hq]

@[simp] theorem started_taken :
    started [.taken q m] r = if q = r then m.dated?.toList else [] := by
  rw [started, taken_taken]
  split
  · cases m <;> rfl
  · rfl

@[simp] theorem tickets_append : tickets (h ++ h') = tickets h ++ tickets h' :=
  List.filterMap_append

@[simp] theorem sent_taken : sent [.taken q m] r = [] := rfl
@[simp] theorem sent_ended : sent [(.ended q e : Entry τ)] r = [] := rfl
@[simp] theorem taken_sent : taken [.sent q m] r = [] := rfl
@[simp] theorem taken_ended : taken [(.ended q e : Entry τ)] r = [] := rfl
@[simp] theorem endings_sent : endings [.sent q m] r = [] := rfl
@[simp] theorem endings_taken : endings [.taken q m] r = [] := rfl
@[simp] theorem started_sent : started [.sent q m] r = [] := rfl
@[simp] theorem started_ended : started [(.ended q e : Entry τ)] r = [] := rfl
@[simp] theorem tickets_work (t : Instant) (w : τ) : tickets [.sent q (.work t w)] = [] := rfl
@[simp] theorem tickets_barrier (k : Nat) : tickets [(.sent q (.barrier k) : Entry τ)] = [k] := rfl
@[simp] theorem tickets_taken : tickets [.taken q m] = [] := rfl
@[simp] theorem tickets_ended : tickets [(.ended q e : Entry τ)] = [] := rfl

end Append

/-! ### Serial histories and barriers -/

/-- Whenever work started, all that started before it had ended. -/
def Serial (h : History τ) (q : Queue) : Prop :=
  ∀ (past : History τ) t w, past ++ [.taken q (.work t w)] <+: h →
    (past.endings q).length = (past.started q).length

/-- The work enqueued on a queue before a barrier there has ended. -/
def Flushed (h : History τ) (q : Queue) (k : Nat) : Prop :=
  ∃ past : History τ, past ++ [.sent q (.barrier k)] <+: h ∧
    (past.enqueued q).length ≤ (h.endings q).length

variable {h : History τ} {q r : Queue} {k : Nat}

theorem Serial.concat {e : Entry τ} (hs : h.Serial r)
    (he : ∀ t w, e = .taken r (.work t w) → (h.endings r).length = (h.started r).length) :
    Serial (h ++ [e]) r := by
  intro past t w hpast
  rcases List.prefix_concat_iff.mp hpast with heq | hpast
  · obtain ⟨rfl, rfl⟩ := List.append_singleton_inj.mp heq
    exact he t w rfl
  · exact hs past t w hpast

theorem Flushed.append (hf : h.Flushed q k) (h' : History τ) : Flushed (h ++ h') q k := by
  obtain ⟨past, hpast, hle⟩ := hf
  refine ⟨past, hpast.trans (List.prefix_append ..), Nat.le_trans hle ?_⟩
  simp

theorem eq_sent_of_sent? {e : Entry τ} {m : Message τ} (he : e.sent? q = some m) :
    e = .sent q m := by
  cases e with
  | sent r m' =>
    obtain ⟨rfl, rfl⟩ : r = q ∧ m' = m := by simpa [Entry.sent?] using he
    rfl
  | taken | ended => cases he

/-- Where a message was put into a queue. -/
theorem exists_sent {before after : List (Message τ)} {m : Message τ}
    (heq : h.sent q = before ++ m :: after) :
    ∃ past : History τ, past ++ [.sent q m] <+: h ∧ past.sent q = before := by
  obtain ⟨past, rest, rfl, hpast, hrest⟩ := List.filterMap_eq_append_iff.mp heq
  obtain ⟨skipped, e, later, rfl, hskipped, he, -⟩ := List.filterMap_eq_cons_iff.mp hrest
  refine ⟨past ++ skipped, ⟨later, ?_⟩, ?_⟩
  · simp [eq_sent_of_sent? he]
  · rw [sent_append, sent, hpast, sent, List.filterMap_eq_nil_iff.mpr hskipped, List.append_nil]

/-- A ticket is not handed out again later. -/
theorem eq_of_prefix {past past' : History τ} {e e' : Entry τ}
    (hnodup : (tickets (past' ++ [e'])).Nodup) (he : e.ticket? = some k) (he' : e'.ticket? = some k)
    (hle : past ++ [e] <+: past' ++ [e']) : past = past' ∧ e = e' := by
  rcases List.prefix_concat_iff.mp hle with heq | hlt
  · exact List.append_singleton_inj.mp heq
  · have hmem : k ∈ past'.tickets := (hlt.filterMap Entry.ticket?).subset (by simp [he])
    have htwice : (past'.tickets ++ [k]).Nodup := by simpa [tickets, he'] using hnodup
    exact absurd rfl ((List.nodup_append.mp htwice).2.2 k hmem k List.mem_cons_self)

/-- A ticket stands in one place. -/
theorem ticket_unique {past past' : History τ} {e e' : Entry τ} (hnodup : h.tickets.Nodup)
    (he : e.ticket? = some k) (he' : e'.ticket? = some k) (hpast : past ++ [e] <+: h)
    (hpast' : past' ++ [e'] <+: h) : past = past' ∧ e = e' := by
  have hsub {l : History τ} (hl : l <+: h) : l.tickets.Nodup :=
    hnodup.sublist (hl.filterMap Entry.ticket?).sublist
  rcases List.prefix_or_prefix_of_prefix hpast hpast' with hle | hle
  · exact eq_of_prefix (hsub hpast') he he' hle
  · obtain ⟨hp, heq⟩ := eq_of_prefix (hsub hpast) he' he hle
    exact ⟨hp.symm, heq.symm⟩

end History

end Pipeline

end ChainNode
