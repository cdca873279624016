/-
# Served runs: every stage runs the requests in order

`stage_forwards_popped_id` shows a stage after the first passing one group's
activations on under another group's ID, once a request has entered that
stage's `InputQueue`. The serving layer is not in the repository; the runs
below are those in which it only feeds the first stage: each tensor rank of
the first stage receives the requests of one list `reqs`, in order, each
rank at its own pace, and every rank of the grid begins and finishes calls in
any interleaving (`ServedRun`). In every such run:

* a stage after the first has nothing queued between calls, so each call
  runs the group it has just received and passes it on under its own ID
  (`ServedRank.running`, `ServedRank.forwards`);
* the first stage has run, holds ready and holds waiting exactly the
  requests it received, in order (`ServedRank.first`);
* hence every rank of every stage after the first has received a prefix of
  the requests, in order (`served_stages_in_order`). The tensor ranks of one
  stage run the same request in each call, and the `reduceAdd` of that call
  sums partial results of one request;
* and the hand-off keeps each sequence's ID: on every link the pairs
  received are, in order, the pairs sent, with their counts, and each stage
  after the first sends every buffer under the ID it received with it
  (`served_handoff_keeps_ids`).

`servedWorld` is such a run on three stages: the scenario of `handOffRun`
without its request at stage 1.

Key definitions: `Rank.ranIds`, `Rank.seenIds`, `ServedRun`, `ServedRank`.
Key theorems: `served_invariant`, `served_stages_in_order`,
`served_handoff_keeps_ids`.
-/
import XftDecoder.Pipeline
import Mathlib

namespace XftDecoder

/-! ### What a rank has run -/

/-- The IDs of the groups a rank has run: those it has passed on, then the
one it is running. -/
def Rank.ranIds (r : Rank) : List ℤ :=
  r.sent.map (·.1.sequenceID) ++
    match r.phase with
    | .running _ id _ => [id]
    | _ => []

/-- The IDs of the groups a rank has run, then of those ready, then of those
waiting in `InputQueue`. -/
def Rank.seenIds (r : Rank) : List ℤ :=
  r.ranIds ++ (r.sched.taskWaitingQueue ++ r.sched.inputQueue).map (·.sequenceID)

section Begin

variable {cfg : PipelineConfig} {r : Rank} {dims : Dims} {step : ℕ} {la : Bool}

theorem Rank.ranIds_of_idle (h : r.phase = .idle) : r.ranIds = r.sent.map (·.1.sequenceID) := by
  simp [Rank.ranIds, h]

/-- A call that received nothing takes the group it runs from the front of
the queues: what the rank has seen is unchanged. -/
theorem Rank.seenIds_begin_none (hidle : r.phase = .idle) :
    (r.begin cfg dims step la none).seenIds = r.seenIds := by
  simp only [Rank.begin, Rank.admitAndPop, Option.map_none']
  split
  · rename_i g s h
    simp [Rank.seenIds, Rank.ranIds, hidle, admitAndPop_none_queues h]
  · simp [Rank.seenIds, Rank.ranIds, hidle]

/-- On a rank with nothing queued, a call that received `msg` runs the group
of `msg` and leaves nothing queued. -/
theorem Rank.begin_some_of_empty (hcap : 1 ≤ cfg.cap) (hk : PoolKeyed r.sched)
    (hq : r.sched.taskWaitingQueue = []) (hi : r.sched.inputQueue = []) (dims : Dims) (step : ℕ)
    (la : Bool) (msg : Msg) :
    (r.begin cfg dims step la (some msg)).phase =
        .running (some msg.sequenceID) msg.sequenceID (activationCount r.dec dims step la) ∧
      (r.begin cfg dims step la (some msg)).sched.taskWaitingQueue = [] ∧
      (r.begin cfg dims step la (some msg)).sched.inputQueue = [] := by
  obtain ⟨s', h, hq', hi'⟩ := admitAndPop_received_of_empty msg.sequenceID hcap hk hq hi
  simp only [Rank.begin, Rank.admitAndPop, Option.map_some']
  rw [h]
  exact ⟨rfl, hq', hi'⟩

end Begin

/-! ### Served runs -/

/-- The runs in which requests enter only the first stage: tensor rank `t` of
it has received the first `n t` requests of `reqs`, in order, and the ranks
of the grid begin and finish calls in any interleaving. -/
inductive ServedRun (cfg : PipelineConfig) (reqs : List SequenceGroupMeta) : (ℕ → ℕ) → World → Prop
  | init : ServedRun cfg reqs (fun _ => 0) (World.init cfg)
  | deliver {n : ℕ → ℕ} {w : World} (t : ℕ) {g : SequenceGroupMeta} :
      ServedRun cfg reqs n w → reqs[n t]? = some g →
        ServedRun cfg reqs (Function.update n t (n t + 1)) (w.setRank 0 t ((w.rank 0 t).pushInput g))
  | begin {n : ℕ → ℕ} {w w' : World} (p t : ℕ) :
      ServedRun cfg reqs n w → (Event.begin p t).apply cfg w = some w' → ServedRun cfg reqs n w'
  | finish {n : ℕ → ℕ} {w w' : World} (p t : ℕ) :
      ServedRun cfg reqs n w → (Event.finish p t).apply cfg w = some w' → ServedRun cfg reqs n w'

/-- A served run is a run of the pipeline: a delivery is a request event. -/
theorem ServedRun.reachable {cfg : PipelineConfig} {reqs : List SequenceGroupMeta} {n : ℕ → ℕ}
    {w : World} (h : ServedRun cfg reqs n w) : PipelineReachable cfg w := by
  induction h with
  | init => exact .init
  | deliver t _ _ ih => exact .step (.request 0 t _) ih rfl
  | begin _ _ _ he ih => exact .step _ ih he
  | finish _ _ _ he ih => exact .step _ ih he

/-- What a served run keeps on the rank of stage `p` whose tensor rank has
received `k` requests at the first stage. -/
structure ServedRank (cfg : PipelineConfig) (reqs : List SequenceGroupMeta) (k p : ℕ) (r : Rank) :
    Prop where
  queues : 0 < p → r.sched.taskWaitingQueue = [] ∧ r.sched.inputQueue = []
  running : 0 < p → ∀ rc id c, r.phase = .running rc id c → rc = some id
  forwards : 0 < p → ∀ e ∈ r.sent, e.2 = some e.1.sequenceID
  first : p = 0 → 1 < cfg.ppSize → r.seenIds = (reqs.take k).map (·.sequenceID)
  later : 0 < p → p < cfg.ppSize - 1 → r.recvd.map (·.1.sequenceID) = r.ranIds

section Preserve

variable {cfg : PipelineConfig} {reqs : List SequenceGroupMeta} {k p : ℕ} {r : Rank}

theorem ServedRank.init : ServedRank cfg reqs 0 p ⟨cfg.dec0, Scheduler.init, .idle, 0, [], []⟩ where
  queues _ := ⟨rfl, rfl⟩
  running _ _ _ _ h := by cases h
  forwards _ _ h := by cases h
  first _ _ := rfl
  later _ _ := rfl

/-- Only the first stage reads the number of requests received. -/
theorem ServedRank.of_pos (h : ServedRank cfg reqs k p r) (hp : 0 < p) (k' : ℕ) :
    ServedRank cfg reqs k' p r :=
  ⟨h.queues, h.running, h.forwards, fun h0 => absurd h0 (by omega), h.later⟩

/-- On the first stage only `first` constrains a rank. -/
theorem ServedRank.zero (hf : 1 < cfg.ppSize → r.seenIds = (reqs.take k).map (·.sequenceID)) :
    ServedRank cfg reqs k 0 r :=
  ⟨(absurd · (lt_irrefl 0)), (absurd · (lt_irrefl 0)), (absurd · (lt_irrefl 0)), fun _ => hf,
    (absurd · (lt_irrefl 0))⟩

theorem ServedRank.pushInput {g : SequenceGroupMeta} (h : ServedRank cfg reqs k 0 r)
    (hg : reqs[k]? = some g) : ServedRank cfg reqs (k + 1) 0 (r.pushInput g) :=
  .zero fun hpp => by
    rw [List.take_succ, hg, List.map_append, ← h.first rfl hpp]
    simp [Rank.seenIds, Rank.ranIds, Rank.pushInput]

theorem ServedRank.begin (h : ServedRank cfg reqs k p r) (hcap : 1 ≤ cfg.cap) (hk : PoolKeyed r.sched)
    (hidle : r.phase = .idle) {dims : Dims} {step : ℕ} {la : Bool} {received : Option Msg}
    (hrecv : received.isSome ↔ 1 < cfg.ppSize ∧ 0 < p) (hp : p < cfg.ppSize) :
    ServedRank cfg reqs k p (r.begin cfg dims step la received) := by
  cases received with
  | none =>
    obtain rfl : p = 0 := by simp only [Option.isSome_none, Bool.false_eq_true, false_iff] at hrecv; omega
    exact .zero fun hpp => (Rank.seenIds_begin_none hidle).trans (h.first rfl hpp)
  | some msg =>
    have hp0 : 0 < p := (hrecv.1 rfl).2
    obtain ⟨hph, hq, hi⟩ := Rank.begin_some_of_empty hcap hk (h.queues hp0).1 (h.queues hp0).2 dims step la msg
    refine ⟨fun _ => ⟨hq, hi⟩, fun _ rc id c hrun => ?_, fun _ => ?_, by omega, fun _ hlast => ?_⟩
    · rw [hph] at hrun; cases hrun; rfl
    · simpa [Rank.begin] using h.forwards hp0
    · have hl := h.later hp0 hlast
      rw [Rank.ranIds_of_idle hidle] at hl
      rw [Rank.ranIds, hph]
      simp [Rank.begin, hl]

theorem ServedRank.finish (h : ServedRank cfg reqs k p r) {rc : Option ℤ} {id : ℤ} {c : ℕ}
    (hrun : r.phase = .running rc id c) (sends : Bool)
    (hsends : sends = true ↔ 1 < cfg.ppSize ∧ p < cfg.ppSize - 1) :
    ServedRank cfg reqs k p
      { r with phase := .idle, sent := if sends then r.sent ++ [(⟨id, c⟩, rc)] else r.sent } := by
  have hran : ∀ hs : sends = true,
      Rank.ranIds { r with phase := .idle, sent := if sends then r.sent ++ [(⟨id, c⟩, rc)] else r.sent } =
        r.ranIds := fun hs => by simp [Rank.ranIds, hs, hrun]
  refine ⟨h.queues, fun _ _ _ _ hp => (by cases hp), fun hp e he => ?_, fun hp0 hpp => ?_,
    fun hp0 hlast => ?_⟩
  · split at he
    · rcases List.mem_append.1 he with he | he
      · exact h.forwards hp e he
      · rw [List.mem_singleton.1 he]; exact h.running hp rc id c hrun
    · exact h.forwards hp e he
  · rw [← h.first hp0 hpp, Rank.seenIds, Rank.seenIds, hran (hsends.2 ⟨hpp, by omega⟩)]
  · rw [hran (hsends.2 ⟨by omega, hlast⟩)]
    exact h.later hp0 hlast

end Preserve

/-- **The invariant of served runs.** With a ready queue of capacity at least
one, every rank of every served run keeps `ServedRank`. -/
theorem served_invariant {cfg : PipelineConfig} {reqs : List SequenceGroupMeta} {n : ℕ → ℕ}
    {w : World} (h : ServedRun cfg reqs n w) (hcap : 1 ≤ cfg.cap) :
    ∀ p t, ServedRank cfg reqs (n t) p (w.rank p t) := by
  induction h with
  | init => exact fun _ _ => .init
  | @deliver n w t g _ hg ih =>
    intro p t'
    by_cases hpt : p = 0 ∧ t' = t
    · obtain ⟨rfl, rfl⟩ := hpt
      rw [World.setRank_same, Function.update_same]
      exact (ih 0 t').pushInput hg
    · rw [World.setRank_other hpt]
      by_cases ht : t' = t
      · subst ht
        exact (ih p t').of_pos (by omega) _
      · rw [Function.update_noteq ht]
        exact ih p t'
  | @begin n w w' q u hrun he ih =>
    simp only [Event.apply] at he
    split_ifs at he with hqu
    have hk := (SchedReachable.inv hcap (rank_schedReachable hrun.reachable q u)).2
    obtain ⟨dims, step, la, hidle, -, ⟨hrecv, msg, rest, -, rfl⟩ | ⟨hrecv, rfl⟩⟩ := beginCall_cases he <;>
      exact World.forall_setRank (P := fun p t r => ServedRank cfg reqs (n t) p r) ih
        ((ih q u).begin hcap hk hidle (by simpa using hrecv) hqu.1)
  | @finish n w w' q u _ he ih =>
    simp only [Event.apply] at he
    split_ifs at he
    obtain ⟨rc, id, c, hrun, ⟨hsend, rfl⟩ | ⟨hsend, rfl⟩⟩ := finishCall_cases he
    · exact World.forall_setRank (P := fun p t r => ServedRank cfg reqs (n t) p r) ih
        (by simpa using (ih q u).finish hrun true (by simpa using hsend))
    · exact World.forall_setRank (P := fun p t r => ServedRank cfg reqs (n t) p r) ih
        (by simpa using (ih q u).finish hrun false (by simpa using hsend))

/-- On a link of the grid, the receiver has received a prefix of what the
sender has run. -/
theorem Invariant.recvd_prefix_ranIds {cfg : PipelineConfig} {w : World} (h : Invariant cfg w)
    {p t : ℕ} (hp : p + 1 < cfg.ppSize) (ht : t < cfg.tpSize) :
    (w.rank (p + 1) t).recvd.map (·.1.sequenceID) <+: (w.rank p t).ranIds := by
  obtain ⟨pending, -, hfifo⟩ := h.link p t hp ht
  have hids := congrArg (List.map Msg.sequenceID) hfifo
  simp only [List.map_append, List.map_map] at hids
  have hsent : (w.rank (p + 1) t).recvd.map (·.1.sequenceID) <+: (w.rank p t).sent.map (·.1.sequenceID) :=
    ⟨pending.map Msg.sequenceID, by simpa [Function.comp_def] using hids⟩
  exact hsent.trans (List.prefix_append _ _)

/-- **Every stage runs the requests in order.** With a ready queue of
capacity at least one, in every served run every stage after the first sends
on what it ran under the ID it received it with, and the IDs every rank of
every stage after the first has received are, in order, the first of the
requests. So the tensor ranks of a stage, whatever their pace, run the same
request in each call. -/
theorem served_stages_in_order {cfg : PipelineConfig} {reqs : List SequenceGroupMeta}
    {n : ℕ → ℕ} {w : World} (h : ServedRun cfg reqs n w) (hcap : 1 ≤ cfg.cap) :
    ForwardsReceivedIds cfg w ∧
      ∀ p t, 0 < p → p < cfg.ppSize → t < cfg.tpSize →
        (w.rank p t).recvd.map (·.1.sequenceID) <+: reqs.map (·.sequenceID) := by
  have hs := served_invariant h hcap
  have hinv := reachable_invariant h.reachable
  refine ⟨fun p t hp _ _ => (hs p t).forwards hp, fun p => ?_⟩
  induction p with
  | zero => intros; omega
  | succ p ih =>
    intro t _ hp ht
    refine (hinv.recvd_prefix_ranIds hp ht).trans ?_
    rcases Nat.eq_zero_or_pos p with rfl | hp0
    · have hfirst : (w.rank 0 t).seenIds = (reqs.map (·.sequenceID)).take (n t) := by
        rw [(hs 0 t).first rfl hp, List.map_take]
      exact (List.prefix_append _ _).trans (hfirst ▸ List.take_prefix _ _)
    · rw [← (hs p t).later hp0 (by omega)]
      exact ih t hp0 (by omega) ht

/-- The scenario of `handOffRun` without request 7 at stage 1: requests 1 and
2 enter the first of the three stages, and each call of stage 0 is passed on
through stages 1 and 2 before the next begins. -/
def servedEvents : List Event :=
  [.request 0 0 ⟨1⟩, .request 0 0 ⟨2⟩,
   .begin 0 0, .finish 0 0, .begin 1 0, .finish 1 0, .begin 2 0, .finish 2 0,
   .begin 0 0, .finish 0 0, .begin 1 0, .finish 1 0, .begin 2 0, .finish 2 0]

/-- The world after `servedEvents`. -/
def servedWorld : World := runEvents handOffConfig (World.init handOffConfig) servedEvents

/-- `servedEvents` as a served run of the requests `1, 2`. -/
theorem servedWorld_run :
    ServedRun handOffConfig [⟨1⟩, ⟨2⟩] (Function.update (Function.update (fun _ => 0) 0 1) 0 2)
      servedWorld :=
  .finish 2 0 (.begin 2 0 (.finish 1 0 (.begin 1 0 (.finish 0 0 (.begin 0 0
    (.finish 2 0 (.begin 2 0 (.finish 1 0 (.begin 1 0 (.finish 0 0 (.begin 0 0
      (.deliver 0 (.deliver 0 .init rfl) rfl) rfl) rfl) rfl) rfl) rfl) rfl) rfl) rfl) rfl) rfl) rfl) rfl

/-- Three stages fed at the first: stage 1 passes both groups on, each under
its own ID, and stages 1 and 2 receive the requests in order. -/
theorem served_stages_in_order_three :
    ForwardsReceivedIds handOffConfig servedWorld ∧
      ∀ p t, 0 < p → p < handOffConfig.ppSize → t < handOffConfig.tpSize →
        (servedWorld.rank p t).recvd.map (·.1.sequenceID) <+:
          ([⟨1⟩, ⟨2⟩] : List SequenceGroupMeta).map (·.sequenceID) :=
  served_stages_in_order servedWorld_run (by decide)

/-- **The hand-off keeps each sequence's ID when requests enter only the
first stage.** In every run in which requests enter only the first stage,
with a ready queue of capacity at least one: on the link from stage `p` to
stage `p + 1` on every tensor rank `t`, the pairs received are, in order, the
first pairs sent, the channel holds the others, and every pair received
carries the count its call asks for; and every stage after the first sends
each activation buffer under the ID it received with it. -/
theorem served_handoff_keeps_ids {cfg : PipelineConfig} {reqs : List SequenceGroupMeta}
    {n : ℕ → ℕ} {w : World} (h : ServedRun cfg reqs n w) (hcap : 1 ≤ cfg.cap) :
    (∀ p t, p + 1 < cfg.ppSize → t < cfg.tpSize →
      (∃ pending : List Msg, w.chan (linkKey cfg.tpSize p t) = pending.flatMap Msg.payloads ∧
        (w.rank (p + 1) t).recvd.map Prod.fst ++ pending = (w.rank p t).sent.map Prod.fst) ∧
      ∀ e ∈ (w.rank (p + 1) t).recvd, e.1.count = e.2) ∧
    ForwardsReceivedIds cfg w :=
  ⟨fun _ _ hp ht => (reachable_invariant h.reachable).link_fifo hp ht,
    fun p t hp _ _ => (served_invariant h hcap p t).forwards hp⟩

/-- The links of the three stages fed at the first. -/
theorem served_handoff_keeps_ids_three :
    (∀ p t, p + 1 < handOffConfig.ppSize → t < handOffConfig.tpSize →
      (∃ pending : List Msg, servedWorld.chan (linkKey handOffConfig.tpSize p t) =
          pending.flatMap Msg.payloads ∧
        (servedWorld.rank (p + 1) t).recvd.map Prod.fst ++ pending =
          (servedWorld.rank p t).sent.map Prod.fst) ∧
      ∀ e ∈ (servedWorld.rank (p + 1) t).recvd, e.1.count = e.2) ∧
    ForwardsReceivedIds handOffConfig servedWorld :=
  served_handoff_keeps_ids servedWorld_run (by decide)

end XftDecoder
