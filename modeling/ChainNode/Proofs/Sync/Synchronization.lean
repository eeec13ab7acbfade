import ChainNode.Proofs.Sync.Stages
import Mathlib.Algebra.Order.Floor.Div

/-!
# A job synchronises a node

A node at rest has one job, to download up to a block of a chain that a peer serves, and from then on it
is left alone with that peer. The download begins at the end of the longest chain if that is served, and
at the last irreversible block otherwise. Each call of the worker brings the node as many blocks further
as one call may download, or up to the end of the served chain (`Node.Resting.settles`), so the target is
reached after as many calls as it takes (`Node.Resting.rounds`); one more call takes the job off the
board. For this the deadlines that the calls set must be instants, and the heights must leave room to
look ahead; otherwise a call panics (`Node.not_rounds_of_job_forever`).
-/

namespace ChainNode

/-! ## The chain and where a download meets it -/

/-- The stored blocks. -/
def BlockTree.stored (t : BlockTree) : List Block := t.blocks.toList.map Prod.snd

/-- Where a download meets a served chain: at the end of the longest chain if that is served, else at
the last irreversible block. -/
def Heads.meeting (heads : Heads) (served : List Block) : Tip :=
  if heads.longest.hash ∈ served.map Block.hash then heads.longest else heads.irreversible

namespace Node

variable {server : BlockServer} {r : Route server} {n m : Node BlockTree} {cap s : Nat}
  {latest : Instant}

/-! ## One call after the other -/

/-- The node is at rest, and so many blocks of the route have been downloaded for the job, which goes on
from there. -/
structure Resting (r : Route server) (latest : Instant) (cap s : Nat) (n : Node BlockTree) : Prop where
  atRest : n.AtRest
  climbing : n.Climbing r s
  job : ∃ j, JobAt r cap s n j ∧ (s < r.goal → LeadsOn r s n j)
  bounds : n.InBounds r latest

/-- At the end of a call the node has come as many blocks further as a call may download, or to the end
of the route; a call that finds the target reached takes the job off the board. -/
theorem Stage.of_atRest (hcap : 0 < cap) (h : n.Stage r cap s) (hbounds : n.InBounds r latest)
    (hrest : n.AtRest) :
    (s < r.goal → n.Resting r latest cap (min (s + cap) r.blocks.length)) ∧
      (r.goal ≤ s → n.board.store.size = 0) := by
  have hnone := hrest.1
  cases h with
  | beginning call | looking call | trying call | downloading call =>
    rw [hnone] at call
    cases call
  | @finished j e call climbing job below eq =>
    have hgoal := r.goal_le
    refine ⟨fun _ => eq ▸ ⟨hrest, climbing, ⟨j, job, fun hs => ?_⟩, hbounds⟩, by omega⟩
    exact hbounds.leadsOn climbing hrest.2 job (by omega) hs
  | covered call idle climbing le store => exact ⟨by omega, fun _ => store⟩

/-- A call that begins at rest comes to its end. -/
theorem Resting.settles (hcap : 0 < cap) (hpos : 0 < r.goal) (h : n.Resting r latest cap s) :
    ∃ m, n.beginCall = some m ∧ m.Settles server latest fun k =>
      (s < r.goal → k.Resting r latest cap (min (s + cap) r.blocks.length)) ∧
        (r.goal ≤ s → k.board.store.size = 0) := by
  obtain ⟨j, hjob, hleads⟩ := h.job
  have hbegin : n.beginCall = some { n with call := some .round } := by
    rw [beginCall, h.atRest.1]
    rfl
  refine ⟨_, hbegin,
    settles_of_weight (P := fun k => k.Stage r cap s ∧ k.InBounds r latest) ?_ ?_ ?_ ?_⟩
  · exact fun k hk hrest => hk.1.of_atRest hcap hk.2 hrest
  · exact fun k hk hrest => hk.1.exists_alone hcap hk.2.now_le hrest
  · exact fun k ending m hk hm => hk.1.alone hcap hpos hk.2 hm
  · have hagreeing := agreeing_step h.climbing.agreeing (e := .call) hbegin
    refine ⟨?_, h.bounds.congr rfl h.bounds.now_le⟩
    exact .beginning rfl h.atRest.2 { h.climbing with agreeing := hagreeing } (hjob.congr rfl rfl)
      fun hs => (hleads hs).congr rfl rfl

/-- Calls bring a node to the target of the route, if they may download enough together, and none of
them begins at the target. -/
theorem Resting.rounds (hcap : 0 < cap) {k : Nat} (h : n.Resting r latest cap s)
    (hreach : r.goal ≤ s + k * cap) (hbefore : ∀ i < k, s + i * cap < r.goal)
    {goal : Node BlockTree → Prop}
    (hgoal : ∀ m e, r.goal ≤ e → m.Resting r latest cap e → goal m) :
    n.Rounds server latest goal k := by
  induction k generalizing n s with
  | zero => exact hgoal n s (by simpa using hreach) h
  | succ k ih =>
    have hs : s < r.goal := by simpa using hbefore 0 (Nat.succ_pos k)
    obtain ⟨m, hm, hsettles⟩ := h.settles hcap (Nat.zero_lt_of_lt hs)
    -- a call that got fewer blocks than it may has come to the end, which is not before the target
    have hlength := r.goal_le
    refine ⟨m, hm, hsettles.mono fun m' hm' => ih (hm'.1 hs) ?_ fun i hi => ?_⟩
    · rw [Nat.succ_mul] at hreach
      omega
    · have := hbefore (i + 1) (Nat.succ_lt_succ hi)
      rw [Nat.succ_mul] at this
      omega

/-! ## The first call -/

/-- A node at rest meets a served chain: the last irreversible block is served, and the end of the
longest chain either is, too, or nothing served follows it. -/
structure Meets (served : List Block) (n : Node BlockTree) : Prop where
  agreeing : n.Agreeing
  headed : n.chain.Headed
  atRest : n.AtRest
  height : ∀ b ∈ served, ∀ c, n.chain.blocks[b.hash]? = some c → c.height = b.height
  irreversible : n.chain.heads.irreversible.hash ∈ served.map Block.hash
  longest : n.chain.heads.longest.hash ∈ served.map Block.hash ∨
    ∀ b ∈ served, b.previous ≠ n.chain.heads.longest.hash

section Meets

variable {served offered : List Block} {i t : Nat}

/-- A tip whose block is served is the tip of that block. -/
theorem Meets.exists_getElem (h : n.Meets served) {tip : Tip} (htip : n.chain.HasTip tip)
    (hserved : tip.hash ∈ served.map Block.hash) :
    ∃ i, ∃ hi : i < served.length, served[i].tip = tip := by
  obtain ⟨b, hb, hhash⟩ := List.mem_map.mp hserved
  obtain ⟨c, hc, hheight⟩ := htip
  obtain ⟨i, hi, rfl⟩ := List.getElem_of_mem hb
  refine ⟨i, hi, ?_⟩
  rw [Block.tip, ← h.height _ hb c (hhash ▸ hc), hheight, hhash]

/-- The place where a download meets the chain is that of a stored block. -/
theorem Meets.hasTip_meeting (h : n.Meets served) :
    n.chain.HasTip (n.chain.heads.meeting served) ∧
      (n.chain.heads.meeting served).hash ∈ served.map Block.hash := by
  rw [Heads.meeting]
  split
  case isTrue hserved => exact ⟨h.headed.longest, hserved⟩
  case isFalse => exact ⟨h.headed.irreversible, h.irreversible⟩

theorem Meets.irreversible_le_meeting (h : n.Meets served) :
    n.chain.heads.irreversible.height ≤ (n.chain.heads.meeting served).height := by
  rw [Heads.meeting]
  split
  case isTrue =>
    obtain ⟨b, hb, hheight⟩ := h.headed.irreversible
    exact hheight ▸ h.headed.le_longest _ b hb
  case isFalse => exact UInt64.le_refl _

theorem Meets.meeting_le_best (h : n.Meets served) :
    (n.chain.heads.meeting served).height ≤ n.chain.heads.best.height := by
  obtain ⟨b, hb, hheight⟩ := h.hasTip_meeting.1
  rw [(h.agreeing.of_idle h.atRest.2).best_eq]
  exact hheight ▸ h.headed.le_longest _ b hb

/-- A fresh job tries the end of the longest chain first; if nothing comes, the last irreversible block
is next. -/
theorem Meets.leads (h : n.Meets served) {r : Route (BlockServer.ofBlocks offered)}
    (hperm : offered.Perm served) (horigin : r.origin = n.chain.heads.meeting served) {j : Job}
    (hj : j.started = false) : LeadsOn r 0 n j := by
  have hbest : n.chain.heads.best = n.chain.heads.longest := (h.agreeing.of_idle h.atRest.2).best_eq
  have horigins : n.origins n.chain.heads j = .ok (n.chain.heads.longest ::
      if n.chain.heads.irreversible.hash = n.chain.heads.longest.hash then []
      else [n.chain.heads.irreversible]) := by
    simp [origins, freshOrigins, hj, hbest]
  refine ⟨_, horigins, ?_⟩
  rw [Route.Leads, Route.place_zero, horigin]
  by_cases hserved : n.chain.heads.longest.hash ∈ served.map Block.hash
  · rw [Heads.meeting, if_pos hserved]
    exact ⟨[], _, rfl, List.forall_mem_nil _⟩
  · have hne : n.chain.heads.irreversible.hash ≠ n.chain.heads.longest.hash :=
      fun he => hserved (he ▸ h.irreversible)
    rw [Heads.meeting, if_neg hserved, if_neg hne]
    refine ⟨[n.chain.heads.longest], [], rfl, fun tip htip count => ?_⟩
    rw [List.mem_singleton.mp htip]
    exact BlockServer.following_ofBlocks_nil
      (fun b hb => h.longest.resolve_left hserved b (hperm.mem_iff.mp hb)) count

/-- A route leads from where the download meets the chain to a block above the best chain. -/
theorem Meets.exists_route (h : n.Meets served) (hserved : ServedChain served)
    (hdistinct : HashesDistinct served) (hperm : offered.Perm served) {target : Block}
    (htarget : target ∈ served) (hbest : n.chain.heads.best.height < target.height) :
    ∃ r : Route (BlockServer.ofBlocks offered), r.origin = n.chain.heads.meeting served ∧
      r.place r.goal = target.tip ∧ r.blocks <:+ served := by
  obtain ⟨t, ht, rfl⟩ := List.getElem_of_mem htarget
  obtain ⟨i, hi, hmeeting⟩ := h.exists_getElem h.hasTip_meeting.1 h.hasTip_meeting.2
  have hit : i < t := by
    have hle : served[i].height ≤ n.chain.heads.best.height :=
      (congrArg Tip.height hmeeting).trans_le h.meeting_le_best
    have hlt := UInt64.lt_iff_toNat_lt.mp (UInt64.lt_of_le_of_lt hle hbest)
    rw [hserved.height_getElem hi, hserved.height_getElem ht] at hlt
    omega
  refine ⟨hserved.route hdistinct hperm hit ht, hmeeting, ?_, ?_⟩
  · rw [ServedChain.place_goal_route]
  · exact List.drop_suffix _ _

/-- A target above the best chain is not where the route begins. -/
theorem Meets.goal_pos (h : n.Meets served) {r : Route (BlockServer.ofBlocks offered)}
    (horigin : r.origin = n.chain.heads.meeting served)
    (hbest : n.chain.heads.best.height < (r.place r.goal).height) : 0 < r.goal := by
  have hle := UInt64.le_iff_toNat_le.mp h.meeting_le_best
  rw [UInt64.lt_iff_toNat_lt, r.height_place r.goal_le, horigin] at hbest
  omega

/-- A job that was put on an empty board has the whole route before it. -/
theorem Meets.resting (h : n.Meets served) {r : Route (BlockServer.ofBlocks offered)}
    (hperm : offered.Perm served) (hblocks : ∀ b ∈ r.blocks, b ∈ served)
    (horigin : r.origin = n.chain.heads.meeting served)
    (hbest : n.chain.heads.best.height < (r.place r.goal).height) (hbounds : n.InBounds r latest)
    {j : Job} (hvalid : n.board.store.Valid) (hjobs : n.board.store.toList = [j])
    (htarget : j.target = r.place r.goal) (hpeer : BlockServer.refusal? j.peer = none)
    (hstarted : j.started = false) (hfinished : j.finished = false) :
    n.Resting r latest n.settings.downloadCap 0 where
  atRest := h.atRest
  climbing := {
    agreeing := h.agreeing
    headed := h.headed
    le := Nat.zero_le _
    fetch := h.atRest.2 .fetch
    origin := by
      obtain ⟨b, hb, -⟩ := h.hasTip_meeting.1
      exact horigin ▸ BlockTree.mem_blocks hb
    attachments := ⟨0, Nat.le_refl 0, by simp, by rw [Node.attachments, h.atRest.2]; rfl⟩
    above b hb := by
      have hle := UInt64.le_iff_toNat_le.mp h.irreversible_le_meeting
      obtain ⟨k, hk, rfl⟩ := List.getElem_of_mem hb
      rw [UInt64.lt_iff_toNat_lt, r.height_getElem k hk, horigin]
      omega
    height b hb := h.height b (hblocks b hb)
    low hash c hc := by
      have hle := UInt64.le_iff_toNat_le.mp (h.headed.le_longest hash c hc)
      rw [(h.agreeing.of_idle h.atRest.2).best_eq, UInt64.lt_iff_toNat_lt,
        r.height_place r.goal_le] at hbest
      omega
    owes hpos := absurd hpos (Nat.lt_irrefl 0) }
  job := by
    refine ⟨j, ?_, fun _ => h.leads hperm horigin hstarted⟩
    exact {
      cap_eq := rfl
      valid := hvalid
      jobs := hjobs
      target := by rw [htarget, r.height_place r.goal_le]
      finished := by simpa [hfinished] using (h.goal_pos horigin hbest).ne'
      peer := hpeer
      fresh := fun _ => hstarted
      current := fun hpos => absurd hpos (Nat.lt_irrefl 0) }
  bounds := hbounds

/-- A run leads to a node that meets a served chain, if it ends at rest. -/
theorem meets_of_run {genesis : Block} {blocks : List Block} {tree : BlockTree}
    (htree : BlockTree.ofBlocks genesis blocks = .ok tree) {settings : SyncSettings} {now : Instant}
    {events : List (Event Hash)}
    (hrun : run BlockTree.askIrreversible (new settings now tree) events = some n)
    (hrest : n.AtRest) (hdistinct : HashesDistinct (genesis :: blocks ++ n.chain.stored ++ served))
    (hirreversible : n.chain.heads.irreversible.hash ∈ served.map Block.hash)
    (hlongest : n.chain.heads.longest.hash ∈ served.map Block.hash ∨
      ∀ b ∈ served, b.previous ≠ n.chain.heads.longest.hash) : n.Meets served := by
  obtain ⟨hwf, hs⟩ := BlockTree.settled_ofBlocks htree
  have hagreeing := agreeing_run (agreeing_new settings now hwf hs) hrun
  have hheaded : tree.Headed := by
    have hstart : HashesDistinct (genesis :: blocks) :=
      hdistinct.mono fun b hb => List.mem_append_left _ (List.mem_append_left _ hb)
    exact BlockTree.headed_ofBlocks (fun b hb c hc => hstart.height_eq hb hc) htree
  refine ⟨hagreeing, headed_run (guarded_new settings now tree) hheaded hrun, hrest, ?_, hirreversible,
    hlongest⟩
  intro b hb c hc
  have hstored : c ∈ n.chain.stored :=
    List.mem_map.mpr ⟨(b.hash, c), Std.ExtTreeMap.mem_toList_iff_getElem?_eq_some.mpr hc, rfl⟩
  exact hdistinct.height_eq (List.mem_append_left _ (List.mem_append_right _ hstored))
    (List.mem_append_right _ hb) (hagreeing.tree.hash_eq _ c hc)

/-- A job that comes changes nothing of that. -/
theorem Meets.enqueueJob (h : n.Meets served) (target : Tip) (batch : Nat) (peer : Option Peer) :
    (n.enqueueJob target batch peer).2.Meets served :=
  { h with agreeing := agreeing_step h.agreeing (e := .enqueueJob target batch peer) rfl }

end Meets

/-- A node starts with a tree made from some blocks. Whatever happens then, let it come to rest without
a job, beside a peer that serves a chain with the last irreversible block; the end of the longest chain
is served, too, or is followed by nothing that is served. A job is enqueued whose target is a served
block above the best chain. When the worker is called again each time the node has settled, no call
fails, and after as many calls as it takes to download the blocks from where the chains meet, the target
is stored and the best chain is as high; one more call leaves no job. All this takes place before the
clock passes some instant, and up to then the deadlines for what one call may download are instants; the
target is not so high that one cannot look ahead from below it. -/
theorem rounds_of_job (genesis : Block) (blocks : List Block) {tree : BlockTree}
    (htree : BlockTree.ofBlocks genesis blocks = .ok tree) (settings : SyncSettings) (now : Instant)
    (events : List (Event Hash)) {n₀ n : Node BlockTree}
    (hrun : run BlockTree.askIrreversible (new settings now tree) events = some n₀)
    (hrest : n₀.AtRest) (hempty : n₀.board.store.size = 0) {served offered : List Block}
    (hserved : ServedChain served) (hperm : offered.Perm served)
    (hdistinct : HashesDistinct (genesis :: blocks ++ n₀.chain.stored ++ served))
    (hirreversible : n₀.chain.heads.irreversible.hash ∈ served.map Block.hash)
    (hlongest : n₀.chain.heads.longest.hash ∈ served.map Block.hash ∨
      ∀ b ∈ served, b.previous ≠ n₀.chain.heads.longest.hash)
    (hcap : 1 ≤ settings.downloadCap) {target : Block} (htarget : target ∈ served)
    (hbest : n₀.chain.heads.best.height < target.height) (batch : Nat) {peer : Option Peer}
    (hpeer : BlockServer.refusal? peer = none) {id : Hash}
    (hjob : n₀.enqueueJob target.tip batch peer = (.ok (some id), n)) {latest : Instant}
    (hnow : n₀.now ≤ latest)
    (hdeadline : ∀ count ≤ settings.downloadCap, count ≤ served.length →
      ∃ span, settings.perBlock.times count = .ok span ∧ latest.after span ≤ Instant.last)
    (hheight : target.height.toNat + 7 < UInt64.size) :
    n.Rounds (BlockServer.ofBlocks offered) latest
      (fun m => target.hash ∈ m.chain.blocks ∧ target.height ≤ m.chain.heads.best.height ∧
        m.Rounds (BlockServer.ofBlocks offered) latest (fun k => k.board.store.size = 0) 1)
      ((target.height.toNat - (n₀.chain.heads.meeting served).height.toNat) ⌈/⌉
        settings.downloadCap) := by
  obtain ⟨rfl, hid⟩ : n = (n₀.enqueueJob target.tip batch peer).2 ∧
      (n₀.board.enqueue n₀.now target.tip batch peer).1 = .ok (some id) :=
    ⟨(congrArg Prod.snd hjob).symm, congrArg Prod.fst hjob⟩
  have hmeets : n₀.Meets served := meets_of_run htree hrun hrest hdistinct hirreversible hlongest
  have hsettings : n₀.settings = settings := settings_run hrun
  have hvalid : n₀.board.store.Valid := valid_run (JobStore.valid_empty _) hrun
  -- the route begins where the chains meet, and ends at the target
  obtain ⟨r, horigin, hplace, hsuffix⟩ := hmeets.exists_route hserved
    (hdistinct.mono (List.subset_append_right _ _)) hperm htarget hbest
  have habove : n₀.chain.heads.best.height < (r.place r.goal).height := hplace ▸ hbest
  have hstep : step BlockTree.askIrreversible n₀ (.enqueueJob target.tip batch peer) =
    some (n₀.enqueueJob target.tip batch peer).2 := rfl
  obtain ⟨j, hjobs, hj, hjpeer, hstarted, hfinished⟩ := JobBoard.toList_enqueue hvalid hempty hid
  have htop : target.height.toNat = r.origin.height.toNat + r.goal := by
    rw [← r.height_place r.goal_le, hplace]
    rfl
  have hbounds : (n₀.enqueueJob target.tip batch peer).2.InBounds r latest := {
    now_le := hnow
    deadline := fun count hcap hcount => by
      rw [← hsettings] at hdeadline
      exact hdeadline count hcap (Nat.le_trans hcount hsuffix.length_le)
    height_lt := htop ▸ hheight }
  have hresting : (n₀.enqueueJob target.tip batch peer).2.Resting r latest settings.downloadCap 0 := by
    rw [← hsettings]
    exact (hmeets.enqueueJob target.tip batch peer).resting hperm
      (fun b hb => hsuffix.subset hb) horigin habove hbounds
      (valid_step hvalid hstep) hjobs (hj.trans hplace.symm) (hjpeer ▸ hpeer) hstarted hfinished
  have hpos : 0 < r.goal := hmeets.goal_pos horigin habove
  have hcalls : target.height.toNat - (n₀.chain.heads.meeting served).height.toNat = r.goal := by
    rw [htop, horigin]
    omega
  rw [hcalls]
  refine hresting.rounds hcap ?_ ?_ ?_
  · rw [Nat.zero_add, Nat.mul_comm]
    exact (ceilDiv_le_iff_le_mul hcap).mp le_rfl
  · intro k hk
    rw [Nat.zero_add, Nat.mul_comm]
    by_contra hle
    exact absurd ((ceilDiv_le_iff_le_mul hcap).mpr (not_lt.mp hle)) (not_le.mpr hk)
  · intro m e he hm
    obtain ⟨hmem, hle⟩ := hm.climbing.place_mem hm.atRest.2 hpos he
    rw [hplace] at hmem hle
    obtain ⟨k, hbegin, hsettles⟩ := hm.settles hcap hpos
    exact ⟨hmem, hle, k, hbegin, hsettles.mono fun k' hk' => hk'.2 he⟩

/-- The end of the longest chain is on a fork, so two blocks are downloaded from the last irreversible
one, in two calls. -/
theorem rounds_of_job_fork :
    let first := Block.genesis 0
    let fork := Block.make first.hash 2 5 []
    let second := Block.make first.hash 2 0 []
    let third := Block.make second.hash 3 0 []
    let server := BlockServer.ofBlocks [third, first, second]
    ∃ tree n, BlockTree.ofBlocks first [fork] = .ok tree ∧
      (new { downloadCap := 1 } 0 tree).enqueueJob third.tip 7 none = (.ok (some third.hash), n) ∧
      n.Rounds server 60000 (fun m => third.hash ∈ m.chain.blocks ∧
        third.height ≤ m.chain.heads.best.height ∧
          m.Rounds server 60000 (fun k => k.board.store.size = 0) 1) 2 := by
  intro first fork second third server
  have key : (match BlockTree.ofBlocks first [fork] with
      | .error _ => false
      | .ok tree => decide (
        HashesDistinct (first :: [fork] ++ tree.stored ++ [first, second, third]) ∧
        tree.heads.irreversible.hash ∈ [first, second, third].map Block.hash ∧
        (∀ b ∈ [first, second, third], b.previous ≠ tree.heads.longest.hash) ∧
        tree.heads.best.height < third.height ∧
        (third.height.toNat - (tree.heads.meeting [first, second, third]).height.toNat) ⌈/⌉ 1 = 2 ∧
        ((new { downloadCap := 1 } 0 tree).enqueueJob third.tip 7 none).1 =
          .ok (some third.hash))) = true := by decide +kernel
  cases htree : BlockTree.ofBlocks first [fork] with
  | error e =>
    rw [htree] at key
    cases key
  | ok tree =>
    rw [htree] at key
    obtain ⟨hdistinct, hirreversible, hlongest, hbest, hcalls, hjob⟩ := of_decide_eq_true key
    have hserved : ServedChain [first, second, third] :=
      ⟨⟨.zero, rfl, rfl, rfl, trivial⟩, by decide +kernel,
        by simp [first, second, third, Block.genesis]⟩
    have hdeadline : ∀ count ≤ 1, count ≤ [first, second, third].length →
        ∃ span, ({ downloadCap := 1 } : SyncSettings).perBlock.times count = .ok span ∧
          (60000 : Instant).after span ≤ Instant.last := by
      intro count hcount _
      obtain rfl | rfl := Nat.le_one_iff_eq_zero_or_eq_one.mp hcount
      · exact ⟨_, rfl, by decide⟩
      · exact ⟨_, rfl, by decide⟩
    have h := rounds_of_job first [fork] htree { downloadCap := 1 } 0 [] rfl
      ⟨rfl, fun q => by cases q <;> rfl⟩ rfl hserved
      (List.perm_append_singleton third [first, second]).symm hdistinct hirreversible (.inr hlongest)
      (Nat.le_refl 1) (by simp) hbest 7 rfl (Prod.ext hjob rfl)
      (show (0 : Instant) ≤ 60000 by decide) hdeadline (by decide)
    exact ⟨tree, _, rfl, Prod.ext hjob rfl, hcalls ▸ h⟩

/-- One block is to be downloaded, and each block is given the longest time there is. The deadline is no
instant, and the call panics, however little time passes. -/
theorem not_rounds_of_job_forever :
    let first := Block.genesis 0
    let second := Block.make first.hash 2 0 []
    let server := BlockServer.ofBlocks [first, second]
    let settings : SyncSettings := { downloadCap := 1, perBlock := ⟨18446744073709551615000⟩ }
    let n₀ := new settings 0 (BlockTree.new first)
    n₀.AtRest ∧ n₀.board.store.size = 0 ∧ ServedChain [first, second] ∧
      HashesDistinct (first :: n₀.chain.stored ++ [first, second]) ∧
      n₀.chain.heads.irreversible.hash ∈ [first, second].map Block.hash ∧
      n₀.chain.heads.longest.hash ∈ [first, second].map Block.hash ∧
      n₀.chain.heads.best.height < second.height ∧
      ∃ n, n₀.enqueueJob second.tip 1 none = (.ok (some second.hash), n) ∧
        ∀ goal, ¬ n.Rounds server 0 goal 1 := by
  intro first second server settings n₀
  have hserved : ServedChain [first, second] :=
    ⟨⟨.zero, rfl, rfl, trivial⟩, by decide +kernel, by simp [first, second, Block.genesis]⟩
  obtain ⟨hdistinct, hirreversible, hlongest, hbest, hjob⟩ :
      HashesDistinct (first :: n₀.chain.stored ++ [first, second]) ∧
      n₀.chain.heads.irreversible.hash ∈ [first, second].map Block.hash ∧
      n₀.chain.heads.longest.hash ∈ [first, second].map Block.hash ∧
      n₀.chain.heads.best.height < second.height ∧
      (n₀.enqueueJob second.tip 1 none).1 = .ok (some second.hash) := by decide +kernel
  -- the heads are read, the job is looked for, and its block is asked for and comes
  have h : ((n₀.enqueueJob second.tip 1 none).2.beginCall.any fun m =>
      (m.later 0).callStep.any fun t => (t.node.later 0).callStep.any fun t' =>
        ((m.later 0).now ≤ 0 ∧ (t.node.later 0).now ≤ 0 ∧ (t'.node.later 0).now ≤ 0) ∧
        t'.node.callRequest? = some (.following first.hash 1 none) ∧
        ((t'.node.later 0).answerCall (server.answerBatch first.hash 1 none)).ending?.any fun e =>
          e.result? = none) = true := by decide +kernel
  obtain ⟨n, hn⟩ : ∃ n, (n₀.enqueueJob second.tip 1 none).2 = n := ⟨_, rfl⟩
  refine ⟨⟨rfl, fun q => by cases q <;> rfl⟩, rfl, hserved, hdistinct, hirreversible, hlongest, hbest,
    n, Prod.ext hjob hn, ?_⟩
  rintro goal ⟨m, hm, hsettles⟩
  rw [hn, hm, Option.any_some] at h
  obtain ⟨t, ht, h⟩ := (Option.any_eq_true _ _).mp h
  obtain ⟨t', ht', h⟩ := (Option.any_eq_true _ _).mp h
  obtain ⟨⟨hlate, hlate', hlate''⟩, hrequest, hpanics⟩ := of_decide_eq_true h
  obtain ⟨e, he, hnone⟩ := (Option.any_eq_true _ _).mp hpanics
  have hasking : t'.node.Settles server 0 _ :=
    (hsettles.next (.callStep 0 hlate ht)).next (.callStep 0 hlate' ht')
  have hanswer : t'.node.Alone server 0 _ _ := .answerCall 0 hlate'' hrequest
  rw [he] at hanswer
  obtain rfl := hasking.eq_done hanswer
  cases of_decide_eq_true hnone

end Node

end ChainNode
