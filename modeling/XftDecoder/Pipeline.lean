/-
# The pipeline-parallel hand-off between stages

Under `PIPELINE_PARALLEL` the ranks of the world form a grid: stage `ppRank`
of `ppSize`, tensor rank `tpRank` of `tpSize`, world rank
`ppRank * tpSize + tpRank`. Every rank makes the same `forward` calls. A call
on a stage after the first receives from the same tensor rank of the stage
before a sequence ID, then the activations (lines 384-392); it admits groups
and pops the one to run (`Scheduler`); it runs its layers; and a stage before
the last sends the popped group's ID, then the activations, to the same
tensor rank of the next stage (lines 491-498). Sends and receives of a link
use the receiving rank as tag.

A run is any interleaving of the ranks' steps, with requests entering any
rank's `InputQueue` at any time. MPI keeps the messages of one source,
destination and tag in order, so a channel is a FIFO of messages. A rank is
idle between calls, running inside one, or halted when admission fails; it
keeps a ghost log of the pairs it has sent and received.

The hand-off itself is exact: on every link the pairs received are, in
order, a prefix of the pairs sent, the channel holds the rest as whole pairs,
and each pair carries the element count its receiving call asks for
(`pipeline_fifo`), and a receiving stage waits only while its channel is
empty (`receiver_progress`). The IDs are not, once a request has entered a
stage after the first: a stage forwards the activations it received under
the ID of the group it popped, an older group whenever its ready queue was
not empty (`stage_forwards_popped_id`). When requests enter only the first
stage, as the spec has them (§4.4), the IDs are kept (`Serving`).

Key definitions: `PipelineConfig`, `Rank`, `World`, `beginCall`,
`finishCall`, `Event.apply`, `PipelineReachable`, `Invariant`.
Key theorems: `reachable_invariant`, `pipeline_fifo`, `receiver_progress`,
`stage_forwards_popped_id`.
-/
import XftDecoder.Memory
import XftDecoder.Decoder
import XftDecoder.Scheduler
import Mathlib.Data.List.Range

namespace XftDecoder

/-! ### Ranks and messages -/

/-- The world rank of tensor rank `tpRank` of stage `ppRank` (lines 385-386, 495). -/
def worldRank (tpSize ppRank tpRank : ℕ) : ℕ := ppRank * tpSize + tpRank

theorem worldRank_inj {tp p p' t t' : ℕ} (ht : t < tp) (ht' : t' < tp)
    (h : worldRank tp p t = worldRank tp p' t') : p = p' ∧ t = t' := by
  unfold worldRank at h
  obtain rfl : p = p' := (row_mem_iff ht).1 (by omega)
  exact ⟨rfl, by omega⟩

/-- The channel from stage `p` to stage `p + 1` on tensor rank `t`: source,
destination and tag of lines 497-498. -/
def linkKey (tp p t : ℕ) : ℕ × ℕ × ℕ :=
  (worldRank tp p t, worldRank tp (p + 1) t, worldRank tp (p + 1) t)

/-- A message: `MPI_Send(&sequenceID, 1, MPI_INT32_T, ...)`, or
`MPI_Send(embBuf, count, MPI_FLOAT, ...)` seen through its element count. -/
inductive Payload
  | sequenceID (id : ℤ)
  | activations (count : ℕ)
  deriving DecidableEq, Repr

/-- The pair a stage sends at the end of a call. -/
structure Msg where
  sequenceID : ℤ
  count : ℕ
  deriving DecidableEq, Repr

/-- The two messages of a pair, in the order they are sent. -/
def Msg.payloads (m : Msg) : List Payload := [.sequenceID m.sequenceID, .activations m.count]

/-- The two `MPI_Recv` of lines 389 and 391: the ID, then the activations.
They complete only when both messages are on the channel, in that order. -/
def recvPair : List Payload → Option (Msg × List Payload)
  | .sequenceID id :: .activations count :: rest => some (⟨id, count⟩, rest)
  | _ => none

theorem recvPair_flatMap {pending : List Msg} {msg : Msg} {rest : List Payload}
    (h : recvPair (pending.flatMap Msg.payloads) = some (msg, rest)) :
    ∃ pending', pending = msg :: pending' ∧ rest = pending'.flatMap Msg.payloads := by
  cases pending with
  | nil => cases h
  | cons m pending' =>
    simp only [List.flatMap_cons, Msg.payloads, List.cons_append, List.nil_append, recvPair,
      Option.some.injEq, Prod.mk.injEq] at h
    obtain ⟨rfl, rfl⟩ := h
    exact ⟨pending', rfl, rfl⟩

/-! ### The system -/

/-- What all ranks share: the grid, the capacity of the ready queue, the
model's `prepareAttnMask`, the decoder every rank starts from, and the calls
`forward(ids, dims, step, logitsAll)` every rank makes, in order. -/
structure PipelineConfig where
  ppSize : ℕ
  tpSize : ℕ
  cap : ℕ
  prepareAttnMask : CommonDecoder → ℕ → ℕ
  dec0 : CommonDecoder
  calls : List (Dims × ℕ × Bool)

/-- Where a rank is: between calls, in the layers of a call (with the ID it
received, the ID of the group it runs and the element count of the call), or
halted for good by admission. -/
inductive Phase
  | idle
  | running (received : Option ℤ) (sequenceID : ℤ) (count : ℕ)
  | halted (e : AdmitError)
  deriving DecidableEq, Repr

/-- The calls a rank has begun and not finished: one, unless it is idle. -/
def Phase.busy : Phase → ℕ
  | .idle => 0
  | _ => 1

/-- One rank: its decoder, its admission state, where it is, the calls it has
begun, and ghost logs of the pairs it has sent (with the ID it received in
the same call) and received (with the element count its call asked for). -/
structure Rank where
  dec : CommonDecoder
  sched : Scheduler
  phase : Phase
  begun : ℕ
  sent : List (Msg × Option ℤ)
  recvd : List (Msg × ℕ)

/-- The world: every rank, by stage and tensor rank, and every channel, by
source, destination and tag. -/
structure World where
  rank : ℕ → ℕ → Rank
  chan : ℕ × ℕ × ℕ → List Payload

/-- No call made and nothing in flight. -/
def World.init (cfg : PipelineConfig) : World :=
  ⟨fun _ _ => ⟨cfg.dec0, Scheduler.init, .idle, 0, [], []⟩, fun _ => []⟩

/-- Rank `(p, t)` takes state `r`. -/
def World.setRank (w : World) (p t : ℕ) (r : Rank) : World :=
  { w with rank := fun p' t' => if p' = p ∧ t' = t then r else w.rank p' t' }

/-- Channel `key` takes contents `l`. -/
def World.setChan (w : World) (key : ℕ × ℕ × ℕ) (l : List Payload) : World :=
  { w with chan := fun k => if k = key then l else w.chan k }

@[simp] theorem World.setRank_rank (w : World) (p t : ℕ) (r : Rank) (p' t' : ℕ) :
    (w.setRank p t r).rank p' t' = if p' = p ∧ t' = t then r else w.rank p' t' := rfl

@[simp] theorem World.setRank_chan (w : World) (p t : ℕ) (r : Rank) :
    (w.setRank p t r).chan = w.chan := rfl

@[simp] theorem World.setChan_rank (w : World) (key : ℕ × ℕ × ℕ) (l : List Payload) :
    (w.setChan key l).rank = w.rank := rfl

@[simp] theorem World.setChan_chan (w : World) (key : ℕ × ℕ × ℕ) (l : List Payload) (k : ℕ × ℕ × ℕ) :
    (w.setChan key l).chan k = if k = key then l else w.chan k := rfl

/-! ### One call -/

/-- `count = batchSize * inputSeqLen * hiddenSize` (lines 387 and 496) of a
call made on decoder `d`. -/
def activationCount (d : CommonDecoder) (dims : Dims) (step : ℕ) (logitsAll : Bool) : ℕ :=
  let sh := (forwardBegin d dims step logitsAll).1
  sh.batchSize * sh.inputSeqLen * d.ctx.hiddenSize

/-- `InputQueue::push(g)`, by the serving layer. -/
def Rank.pushInput (g : SequenceGroupMeta) (r : Rank) : Rank :=
  { r with sched := { r.sched with inputQueue := r.sched.inputQueue ++ [g] } }

/-- Admission (lines 393-421) after the rank received `received`: it runs the
group it pops, or halts. -/
def Rank.admitAndPop (cap : ℕ) (received : Option ℤ) (count : ℕ) (r : Rank) : Rank :=
  match XftDecoder.admitAndPop cap received r.sched with
  | .ok (g, s) => { r with sched := s, phase := .running received g.sequenceID count }
  | .error e => { r with phase := .halted e }

/-- The start of a call on a rank: the decoder's own work (`forward`), the
pair it received, if any, and admission. -/
def Rank.begin (cfg : PipelineConfig) (dims : Dims) (step : ℕ) (logitsAll : Bool)
    (received : Option Msg) (r : Rank) : Rank :=
  let count := activationCount r.dec dims step logitsAll
  let r := { r with dec := forward cfg.prepareAttnMask r.dec dims step logitsAll,
                    begun := r.begun + 1,
                    recvd := r.recvd ++ (received.map fun msg => (msg, count)).toList }
  r.admitAndPop cfg.cap (received.map (·.sequenceID)) count

/-- Lines 315-421 on stage `p`, tensor rank `t`, up to the layers: `none`
while the rank cannot start a call, as it is not idle, has made all its
calls, or waits in `MPI_Recv` for a pair. -/
def beginCall (cfg : PipelineConfig) (w : World) (p t : ℕ) : Option World :=
  let r := w.rank p t
  match r.phase, cfg.calls[r.begun]? with
  | .idle, some (dims, step, logitsAll) =>
    if 1 < cfg.ppSize ∧ 0 < p then
      let key := (worldRank cfg.tpSize (p - 1) t, worldRank cfg.tpSize p t, worldRank cfg.tpSize p t)
      (recvPair (w.chan key)).map fun (msg, rest) =>
        (w.setChan key rest).setRank p t (r.begin cfg dims step logitsAll (some msg))
    else some (w.setRank p t (r.begin cfg dims step logitsAll none))
  | _, _ => none

/-- Lines 489-500 on stage `p`, tensor rank `t`: after the layers, a stage
before the last sends the running group's ID, then the activations, to the
same tensor rank of the next stage. -/
def finishCall (cfg : PipelineConfig) (w : World) (p t : ℕ) : Option World :=
  let r := w.rank p t
  match r.phase with
  | .running received sequenceID count =>
    if 1 < cfg.ppSize ∧ p < cfg.ppSize - 1 then
      let next := worldRank cfg.tpSize (p + 1) t
      let key := (worldRank cfg.tpSize p t, next, next)
      let msg : Msg := ⟨sequenceID, count⟩
      some ((w.setChan key (w.chan key ++ msg.payloads)).setRank p t
        { r with phase := .idle, sent := r.sent ++ [(msg, received)] })
    else some (w.setRank p t { r with phase := .idle })
  | _ => none

/-- What can happen next: a request enters a rank's `InputQueue`, or a rank
of the grid begins or finishes a call. -/
inductive Event
  | request (p t : ℕ) (g : SequenceGroupMeta)
  | begin (p t : ℕ)
  | finish (p t : ℕ)
  deriving DecidableEq, Repr

/-- An event on the world: `none` when it cannot happen. Only the ranks of the
grid make calls. -/
def Event.apply (cfg : PipelineConfig) (w : World) : Event → Option World
  | .request p t g => some (w.setRank p t ((w.rank p t).pushInput g))
  | .begin p t => if p < cfg.ppSize ∧ t < cfg.tpSize then beginCall cfg w p t else none
  | .finish p t => if p < cfg.ppSize ∧ t < cfg.tpSize then finishCall cfg w p t else none

/-- The worlds of the runs: every interleaving of the events. -/
inductive PipelineReachable (cfg : PipelineConfig) : World → Prop
  | init : PipelineReachable cfg (World.init cfg)
  | step {w w' : World} (e : Event) :
      PipelineReachable cfg w → e.apply cfg w = some w' → PipelineReachable cfg w'

/-- A run of events from `w`, skipping those that cannot happen. -/
def runEvents (cfg : PipelineConfig) (w : World) (es : List Event) : World :=
  es.foldl (fun w e => (e.apply cfg w).getD w) w

theorem runEvents_reachable (cfg : PipelineConfig) :
    ∀ (es : List Event) {w : World}, PipelineReachable cfg w → PipelineReachable cfg (runEvents cfg w es)
  | [], _, h => h
  | e :: es, w, h => by
    cases he : e.apply cfg w with
    | none => simpa [runEvents, he] using runEvents_reachable cfg es h
    | some w' => simpa [runEvents, he] using runEvents_reachable cfg es (h.step e he)

/-! ### What each step does -/

section Steps

variable {cfg : PipelineConfig} {w w' : World} {p t : ℕ}

@[simp] theorem Rank.pushInput_phase (g : SequenceGroupMeta) (r : Rank) : (r.pushInput g).phase = r.phase := rfl
@[simp] theorem Rank.pushInput_dec (g : SequenceGroupMeta) (r : Rank) : (r.pushInput g).dec = r.dec := rfl
@[simp] theorem Rank.pushInput_begun (g : SequenceGroupMeta) (r : Rank) : (r.pushInput g).begun = r.begun := rfl
@[simp] theorem Rank.pushInput_sent (g : SequenceGroupMeta) (r : Rank) : (r.pushInput g).sent = r.sent := rfl
@[simp] theorem Rank.pushInput_recvd (g : SequenceGroupMeta) (r : Rank) : (r.pushInput g).recvd = r.recvd := rfl

section Admit

variable (cap : ℕ) (received : Option ℤ) (count : ℕ) (r : Rank)

@[simp] theorem Rank.admitAndPop_dec : (r.admitAndPop cap received count).dec = r.dec := by
  unfold Rank.admitAndPop; split <;> rfl
@[simp] theorem Rank.admitAndPop_begun : (r.admitAndPop cap received count).begun = r.begun := by
  unfold Rank.admitAndPop; split <;> rfl
@[simp] theorem Rank.admitAndPop_sent : (r.admitAndPop cap received count).sent = r.sent := by
  unfold Rank.admitAndPop; split <;> rfl
@[simp] theorem Rank.admitAndPop_recvd : (r.admitAndPop cap received count).recvd = r.recvd := by
  unfold Rank.admitAndPop; split <;> rfl
@[simp] theorem Rank.admitAndPop_busy : (r.admitAndPop cap received count).phase.busy = 1 := by
  unfold Rank.admitAndPop; split <;> rfl

theorem Rank.admitAndPop_running {rc : Option ℤ} {id : ℤ} {c : ℕ}
    (h : (r.admitAndPop cap received count).phase = .running rc id c) : rc = received ∧ c = count := by
  unfold Rank.admitAndPop at h
  split at h <;> simp_all

end Admit

/-- A call begins only on an idle rank with a call left to make; on a stage
after the first it takes the pair at the head of the channel from the stage
before. -/
theorem beginCall_cases (h : beginCall cfg w p t = some w') :
    ∃ dims step la, (w.rank p t).phase = .idle ∧ cfg.calls[(w.rank p t).begun]? = some (dims, step, la) ∧
      ((1 < cfg.ppSize ∧ 0 < p) ∧ (∃ msg rest,
          recvPair (w.chan (linkKey cfg.tpSize (p - 1) t)) = some (msg, rest) ∧
          w' = (w.setChan (linkKey cfg.tpSize (p - 1) t) rest).setRank p t
            ((w.rank p t).begin cfg dims step la (some msg))) ∨
        ¬ (1 < cfg.ppSize ∧ 0 < p) ∧ w' = w.setRank p t ((w.rank p t).begin cfg dims step la none)) := by
  unfold beginCall at h
  dsimp only at h
  split at h
  · rename_i dims step la hph hcall
    refine ⟨dims, step, la, hph, hcall, ?_⟩
    split_ifs at h with hrecv
    · have hkey : linkKey cfg.tpSize (p - 1) t =
          (worldRank cfg.tpSize (p - 1) t, worldRank cfg.tpSize p t, worldRank cfg.tpSize p t) := by
        simp only [linkKey, Nat.sub_add_cancel hrecv.2]
      rw [hkey]
      obtain ⟨⟨msg, rest⟩, hr, rfl⟩ := Option.map_eq_some'.1 h
      exact .inl ⟨hrecv, msg, rest, hr, rfl⟩
    · exact .inr ⟨hrecv, (Option.some.inj h).symm⟩
  · cases h

/-- A call finishes only on a running rank; a stage before the last appends
the pair to the channel to the next stage. -/
theorem finishCall_cases (h : finishCall cfg w p t = some w') :
    ∃ rc id c, (w.rank p t).phase = .running rc id c ∧
      ((1 < cfg.ppSize ∧ p < cfg.ppSize - 1) ∧
          w' = (w.setChan (linkKey cfg.tpSize p t)
              (w.chan (linkKey cfg.tpSize p t) ++ Msg.payloads ⟨id, c⟩)).setRank p t
            { w.rank p t with phase := .idle, sent := (w.rank p t).sent ++ [(⟨id, c⟩, rc)] } ∨
        ¬ (1 < cfg.ppSize ∧ p < cfg.ppSize - 1) ∧ w' = w.setRank p t { w.rank p t with phase := .idle }) := by
  unfold finishCall at h
  dsimp only at h
  split at h
  · rename_i rc id c hph
    refine ⟨rc, id, c, hph, ?_⟩
    split_ifs at h with hsend
    · exact .inl ⟨hsend, (Option.some.inj h).symm⟩
    · exact .inr ⟨hsend, (Option.some.inj h).symm⟩
  · cases h

end Steps

/-! ### The invariant -/

/-- The decoder of every rank after its first `k` calls. -/
def decAfter (cfg : PipelineConfig) (k : ℕ) : CommonDecoder :=
  run cfg.prepareAttnMask cfg.dec0 ((cfg.calls.take k).map fun c => .forward c.1 c.2.1 c.2.2)

/-- The element count of call `k`, the same on every rank. -/
def countAt (cfg : PipelineConfig) (k : ℕ) : ℕ :=
  match cfg.calls[k]? with
  | some (dims, step, logitsAll) => activationCount (decAfter cfg k) dims step logitsAll
  | none => 0

theorem decAfter_succ {cfg : PipelineConfig} {k : ℕ} {dims : Dims} {step : ℕ} {la : Bool}
    (h : cfg.calls[k]? = some (dims, step, la)) :
    decAfter cfg (k + 1) = forward cfg.prepareAttnMask (decAfter cfg k) dims step la := by
  simp [decAfter, List.take_succ, h, run_append]
  rfl

/-- What a rank keeps: its decoder has made its calls, a running call counts
the elements of its call, and its logs hold one pair per call, with the
counts of those calls. -/
structure RankInv (cfg : PipelineConfig) (p : ℕ) (r : Rank) : Prop where
  dec : r.dec = decAfter cfg r.begun
  running : ∀ rc id c, r.phase = .running rc id c → c = countAt cfg (r.begun - 1)
  sent_len : 1 < cfg.ppSize ∧ p < cfg.ppSize - 1 → r.sent.length + r.phase.busy = r.begun
  sent_count : r.sent.map (·.1.count) = (List.range r.sent.length).map (countAt cfg)
  recvd_len : 1 < cfg.ppSize ∧ 0 < p → r.recvd.length = r.begun
  recvd_count : r.recvd.map (·.2) = (List.range r.recvd.length).map (countAt cfg)

/-- The link from stage `p` to stage `p + 1` on tensor rank `t`: the channel
holds, as whole pairs, what the sender has sent and the receiver has not yet
received. -/
def LinkInv (cfg : PipelineConfig) (w : World) (p t : ℕ) : Prop :=
  ∃ pending : List Msg, w.chan (linkKey cfg.tpSize p t) = pending.flatMap Msg.payloads ∧
    (w.rank (p + 1) t).recvd.map Prod.fst ++ pending = (w.rank p t).sent.map Prod.fst

/-- The invariant of every reachable world: every rank keeps `RankInv`, every
link of the grid `LinkInv`. -/
structure Invariant (cfg : PipelineConfig) (w : World) : Prop where
  rank : ∀ p t, RankInv cfg p (w.rank p t)
  link : ∀ p t, p + 1 < cfg.ppSize → t < cfg.tpSize → LinkInv cfg w p t

section Preserve

variable {cfg : PipelineConfig} {p : ℕ} {r : Rank}

theorem RankInv.begin (h : RankInv cfg p r) {dims : Dims} {step : ℕ} {la : Bool} {received : Option Msg}
    (hidle : r.phase = .idle) (hcall : cfg.calls[r.begun]? = some (dims, step, la))
    (hrecv : received.isSome ↔ 1 < cfg.ppSize ∧ 0 < p) :
    RankInv cfg p (r.begin cfg dims step la received) := by
  have hcount : activationCount r.dec dims step la = countAt cfg r.begun := by
    simp [countAt, hcall, h.dec]
  have hlen : received.isSome → r.recvd.length = r.begun := fun hs => h.recvd_len (hrecv.1 hs)
  constructor
  · simp [Rank.begin, h.dec, decAfter_succ hcall]
  · intro rc id c hrun
    obtain ⟨-, rfl⟩ := Rank.admitAndPop_running _ _ _ _ hrun
    simpa [Rank.begin] using hcount
  · intro hs
    have := h.sent_len hs
    simp only [hidle, Phase.busy] at this
    simp [Rank.begin]
    omega
  · simpa [Rank.begin] using h.sent_count
  · intro hr
    cases received with
    | none => exact absurd (hrecv.2 hr) (by simp)
    | some msg => simp [Rank.begin, h.recvd_len hr]
  · cases received with
    | none => simpa [Rank.begin] using h.recvd_count
    | some msg =>
      simp [Rank.begin, List.range_succ, h.recvd_count, hlen rfl, hcount]

theorem RankInv.finish (h : RankInv cfg p r) {rc : Option ℤ} {id : ℤ} {c : ℕ}
    (hrun : r.phase = .running rc id c) (sends : Bool)
    (hsends : sends = true ↔ 1 < cfg.ppSize ∧ p < cfg.ppSize - 1) :
    RankInv cfg p
      { r with phase := .idle, sent := if sends then r.sent ++ [(⟨id, c⟩, rc)] else r.sent } := by
  have hc := h.running rc id c hrun
  constructor
  · exact h.dec
  · intro _ _ _ hp; cases hp
  · intro hs
    have := h.sent_len hs
    simp only [hrun, Phase.busy] at this
    simp [hsends.2 hs, Phase.busy]
    omega
  · split
    · rename_i hs
      have := h.sent_len (hsends.1 hs)
      simp only [hrun, Phase.busy] at this
      simp [List.range_succ, h.sent_count, hc]
      congr 1; omega
    · exact h.sent_count
  · exact h.recvd_len
  · exact h.recvd_count

theorem RankInv.pushInput (h : RankInv cfg p r) (g : SequenceGroupMeta) : RankInv cfg p (r.pushInput g) :=
  ⟨h.dec, h.running, h.sent_len, h.sent_count, h.recvd_len, h.recvd_count⟩

end Preserve

section Links

variable {cfg : PipelineConfig} {w w' : World}

/-- A link's invariant reads only its channel, the receiver's received
pairs and the sender's sent pairs. -/
theorem LinkInv.congr {p t : ℕ} (h : LinkInv cfg w p t)
    (hchan : w'.chan (linkKey cfg.tpSize p t) = w.chan (linkKey cfg.tpSize p t))
    (hrecvd : (w'.rank (p + 1) t).recvd = (w.rank (p + 1) t).recvd)
    (hsent : (w'.rank p t).sent = (w.rank p t).sent) : LinkInv cfg w' p t := by
  obtain ⟨pending, h1, h2⟩ := h
  exact ⟨pending, hchan.trans h1, by rw [hrecvd, hsent]; exact h2⟩

theorem linkKey_inj {tp p p' t t' : ℕ} (ht : t < tp) (ht' : t' < tp)
    (h : linkKey tp p t = linkKey tp p' t') : p = p' ∧ t = t' :=
  worldRank_inj ht ht' (congrArg Prod.fst h)

/-- A field the new rank keeps is kept by every rank. -/
theorem World.setRank_keeps {α : Type} (f : Rank → α) {q u : ℕ} {r : Rank}
    (h : f r = f (w.rank q u)) (p t : ℕ) : f ((w.setRank q u r).rank p t) = f (w.rank p t) := by
  simp only [World.setRank_rank]
  split
  · obtain ⟨rfl, rfl⟩ := ‹p = q ∧ t = u›; exact h
  · rfl

theorem World.setRank_other {q u p t : ℕ} {r : Rank} (h : ¬ (p = q ∧ t = u)) :
    (w.setRank q u r).rank p t = w.rank p t := if_neg h

theorem World.setRank_same (q u : ℕ) (r : Rank) : (w.setRank q u r).rank q u = r := if_pos ⟨rfl, rfl⟩

/-- What holds of every rank, and of the new one, holds of every rank after
the update. -/
theorem World.forall_setRank {P : ℕ → ℕ → Rank → Prop} (h : ∀ p t, P p t (w.rank p t)) {q u : ℕ}
    {r : Rank} (hr : P q u r) (p t : ℕ) : P p t ((w.setRank q u r).rank p t) := by
  by_cases hpt : p = q ∧ t = u
  · obtain ⟨rfl, rfl⟩ := hpt; rwa [World.setRank_same]
  · rw [World.setRank_other hpt]; exact h p t

end Links

theorem initial_invariant (cfg : PipelineConfig) : Invariant cfg (World.init cfg) where
  rank _ _ := ⟨by simp [World.init, decAfter, run], by simp [World.init], by simp [World.init, Phase.busy],
    rfl, by simp [World.init], rfl⟩
  link _ _ _ _ := ⟨[], rfl, rfl⟩

section Step

variable {cfg : PipelineConfig} {w w' : World}

theorem Invariant.request (h : Invariant cfg w) (q u : ℕ) (g : SequenceGroupMeta) :
    Invariant cfg (w.setRank q u ((w.rank q u).pushInput g)) where
  rank := World.forall_setRank (P := fun p _ => RankInv cfg p) h.rank ((h.rank q u).pushInput g)
  link p t hp ht := (h.link p t hp ht).congr rfl (World.setRank_keeps Rank.recvd (by rfl) _ _)
    (World.setRank_keeps Rank.sent (by rfl) _ _)

theorem Invariant.begin (h : Invariant cfg w) {q u : ℕ} (hu : u < cfg.tpSize)
    (hb : beginCall cfg w q u = some w') : Invariant cfg w' := by
  obtain ⟨dims, step, la, hidle, hcall, ⟨hrecv, msg, rest, hr, rfl⟩ | ⟨hrecv, rfl⟩⟩ := beginCall_cases hb
  · refine ⟨World.forall_setRank (P := fun p _ => RankInv cfg p) h.rank ((h.rank q u).begin hidle hcall (by simpa using hrecv)), ?_⟩
    intro p t hp ht
    have hsent := World.setRank_keeps (w := w.setChan (linkKey cfg.tpSize (q - 1) u) rest) Rank.sent
      (q := q) (u := u) (r := (w.rank q u).begin cfg dims step la (some msg)) (by simp [Rank.begin]) p t
    by_cases hpt : q = p + 1 ∧ t = u
    · obtain ⟨rfl, rfl⟩ := hpt
      obtain ⟨pending, hchan, hfifo⟩ := h.link p t hp ht
      rw [Nat.add_sub_cancel, hchan] at hr
      obtain ⟨pending', rfl, rfl⟩ := recvPair_flatMap hr
      refine ⟨pending', by simp [Nat.add_sub_cancel], ?_⟩
      rw [hsent, World.setRank_same, World.setChan_rank, ← hfifo]
      simp [Rank.begin]
    · have hkey : linkKey cfg.tpSize p t ≠ linkKey cfg.tpSize (q - 1) u := fun he => by
        have := linkKey_inj ht hu he; omega
      exact (h.link p t hp ht).congr (by simp [hkey])
        (by rw [World.setRank_other (by omega)]; rfl) hsent
  · refine ⟨World.forall_setRank (P := fun p _ => RankInv cfg p) h.rank ((h.rank q u).begin hidle hcall (by simpa using hrecv)), ?_⟩
    intro p t hp ht
    refine (h.link p t hp ht).congr rfl ?_ (World.setRank_keeps Rank.sent (by simp [Rank.begin]) p t)
    rw [World.setRank_other (by omega)]

theorem Invariant.finish (h : Invariant cfg w) {q u : ℕ} (hu : u < cfg.tpSize)
    (hf : finishCall cfg w q u = some w') : Invariant cfg w' := by
  obtain ⟨rc, id, c, hrun, ⟨hsend, rfl⟩ | ⟨hsend, rfl⟩⟩ := finishCall_cases hf
  · refine ⟨World.forall_setRank (P := fun p _ => RankInv cfg p) h.rank (by simpa using (h.rank q u).finish hrun true (by simpa using hsend)), ?_⟩
    intro p t hp ht
    have hrecvd := World.setRank_keeps (w := w.setChan (linkKey cfg.tpSize q u)
      (w.chan (linkKey cfg.tpSize q u) ++ Msg.payloads ⟨id, c⟩)) Rank.recvd (q := q) (u := u)
      (r := { w.rank q u with phase := .idle, sent := (w.rank q u).sent ++ [(⟨id, c⟩, rc)] }) rfl (p + 1) t
    by_cases hpt : q = p ∧ t = u
    · obtain ⟨rfl, rfl⟩ := hpt
      obtain ⟨pending, hchan, hfifo⟩ := h.link _ _ hp ht
      refine ⟨pending ++ [⟨id, c⟩], by simp [hchan], ?_⟩
      rw [hrecvd, World.setRank_same]
      simp [← hfifo]
    · have hkey : linkKey cfg.tpSize p t ≠ linkKey cfg.tpSize q u := fun he => by
        have := linkKey_inj ht hu he; omega
      exact (h.link p t hp ht).congr (by simp [hkey]) hrecvd
        (by rw [World.setRank_other (by omega)]; rfl)
  · refine ⟨World.forall_setRank (P := fun p _ => RankInv cfg p) h.rank (by simpa using (h.rank q u).finish hrun false (by simpa using hsend)), ?_⟩
    intro p t hp ht
    exact (h.link p t hp ht).congr rfl (World.setRank_keeps Rank.recvd (by rfl) _ _)
      (World.setRank_keeps Rank.sent (by rfl) _ _)

theorem Invariant.step (h : Invariant cfg w) {e : Event} (he : e.apply cfg w = some w') :
    Invariant cfg w' := by
  cases e with
  | request q u g => cases he; exact h.request q u g
  | begin q u =>
    simp only [Event.apply] at he
    split_ifs at he with hqu
    exact h.begin hqu.2 he
  | finish q u =>
    simp only [Event.apply] at he
    split_ifs at he with hqu
    exact h.finish hqu.2 he

end Step

theorem reachable_invariant {cfg : PipelineConfig} {w : World} (hw : PipelineReachable cfg w) :
    Invariant cfg w := by
  induction hw with
  | init => exact initial_invariant cfg
  | step _ _ he ih => exact ih.step he

/-! ### The hand-off -/

/-- A list that starts a run of `f` over `0, 1, ...` is itself such a run. -/
theorem eq_map_range_of_append {α : Type} {l l' : List α} {n : ℕ} {f : ℕ → α}
    (h : l ++ l' = (List.range n).map f) : l = (List.range l.length).map f := by
  have hlen : l.length ≤ n := by
    have := congrArg List.length h
    simp only [List.length_append, List.length_map, List.length_range] at this
    omega
  calc l = (l ++ l').take l.length := (List.take_left _ _).symm
    _ = ((List.range n).map f).take l.length := by rw [h]
    _ = (List.range l.length).map f := by rw [← List.map_take, List.take_range, min_eq_left hlen]

/-- Under the invariant, the link from `(p, t)` delivers what was sent on it,
in order, with what is in flight in the channel, and every pair received has
the count sent with it. -/
theorem Invariant.link_fifo {cfg : PipelineConfig} {w : World} (hinv : Invariant cfg w)
    {p t : ℕ} (hp : p + 1 < cfg.ppSize) (ht : t < cfg.tpSize) :
    (∃ pending : List Msg, w.chan (linkKey cfg.tpSize p t) = pending.flatMap Msg.payloads ∧
      (w.rank (p + 1) t).recvd.map Prod.fst ++ pending = (w.rank p t).sent.map Prod.fst) ∧
    ∀ e ∈ (w.rank (p + 1) t).recvd, e.1.count = e.2 := by
  obtain ⟨pending, hchan, hfifo⟩ := hinv.link p t hp ht
  refine ⟨⟨pending, hchan, hfifo⟩, fun e he => ?_⟩
  have hcounts : ((w.rank (p + 1) t).recvd.map Prod.fst).map Msg.count ++ pending.map Msg.count =
      (List.range (w.rank p t).sent.length).map (countAt cfg) := by
    rw [← List.map_append, hfifo, List.map_map]
    exact (hinv.rank p t).sent_count
  have hrecvd := eq_map_range_of_append hcounts
  rw [List.length_map, List.length_map, ← (hinv.rank (p + 1) t).recvd_count, List.map_map] at hrecvd
  exact List.map_inj_left.1 hrecvd e he

/-- **The hand-off keeps order and counts.** In every run, on the link from
stage `p` to stage `p + 1` on tensor rank `t`, the pairs the receiver has
taken are, in order, the first pairs the sender has sent; the channel holds
the others as whole pairs, each ID before its activations; and every pair
received carries the element count that the call receiving it asks for. -/
theorem pipeline_fifo {cfg : PipelineConfig} {w : World} (hw : PipelineReachable cfg w)
    {p t : ℕ} (hp : p + 1 < cfg.ppSize) (ht : t < cfg.tpSize) :
    (∃ pending : List Msg, w.chan (linkKey cfg.tpSize p t) = pending.flatMap Msg.payloads ∧
      (w.rank (p + 1) t).recvd.map Prod.fst ++ pending = (w.rank p t).sent.map Prod.fst) ∧
    ∀ e ∈ (w.rank (p + 1) t).recvd, e.1.count = e.2 :=
  (reachable_invariant hw).link_fifo hp ht

/-- Under the invariant, a stage with a pair pending on its link can take it. -/
theorem Invariant.beginCall_of_pending {cfg : PipelineConfig} {w : World} (h : Invariant cfg w)
    {p t : ℕ} (hp : p + 1 < cfg.ppSize) (ht : t < cfg.tpSize)
    (hidle : (w.rank (p + 1) t).phase = .idle) (hcall : (w.rank (p + 1) t).begun < cfg.calls.length)
    (hpend : (w.rank (p + 1) t).recvd.length < (w.rank p t).sent.length) :
    ∃ w', beginCall cfg w (p + 1) t = some w' := by
  obtain ⟨pending, hchan, hfifo⟩ := h.link p t hp ht
  obtain ⟨m, rest, rfl⟩ : ∃ m rest, pending = m :: rest := by
    have := congrArg List.length hfifo
    simp only [List.length_append, List.length_map] at this
    exact List.exists_cons_of_length_pos (by omega)
  obtain ⟨⟨dims, step, la⟩, hc⟩ : ∃ c, cfg.calls[(w.rank (p + 1) t).begun]? = some c :=
    ⟨_, List.getElem?_eq_getElem hcall⟩
  simp only [linkKey] at hchan
  simp only [beginCall, hidle, hc, Nat.add_sub_cancel, if_pos (show 1 < cfg.ppSize ∧ 0 < p + 1 by omega),
    hchan, List.flatMap_cons, Msg.payloads, List.cons_append, List.nil_append, recvPair,
    Option.map_some']
  exact ⟨_, rfl⟩

/-- **A receiving stage waits only for an empty channel.** In every run, an
idle stage `p + 1` with a call left to make, to which stage `p` has sent more
pairs than it has received, can begin its call: the `MPI_Recv` of the ID and
of the activations both complete. -/
theorem receiver_progress {cfg : PipelineConfig} {w : World} (hw : PipelineReachable cfg w)
    {p t : ℕ} (hp : p + 1 < cfg.ppSize) (ht : t < cfg.tpSize)
    (hidle : (w.rank (p + 1) t).phase = .idle) (hcall : (w.rank (p + 1) t).begun < cfg.calls.length)
    (hpend : (w.rank (p + 1) t).recvd.length < (w.rank p t).sent.length) :
    ∃ w', beginCall cfg w (p + 1) t = some w' :=
  (reachable_invariant hw).beginCall_of_pending hp ht hidle hcall hpend

/-- Three stages of one tensor rank, a ready queue of four, and two calls of
one token on a hidden size of 2. -/
def handOffConfig : PipelineConfig :=
  ⟨3, 1, 4, fun d _ => d.maskSize, CommonDecoder.init ⟨0, 0, 0, 2, 8, 16⟩,
    [(⟨1, 1, 1⟩, 0, false), (⟨1, 1, 1⟩, 1, false)]⟩

/-- Requests 1 and 2 enter stage 0 and request 7 stage 1; then each call of
stage 0 is passed on through stages 1 and 2 before the next begins. Every pair
is received before its sender's next step, so this is also a run in which
`MPI_Send` blocks until its receive. -/
def handOffEvents : List Event :=
  [.request 0 0 ⟨1⟩, .request 0 0 ⟨2⟩, .request 1 0 ⟨7⟩,
   .begin 0 0, .finish 0 0, .begin 1 0, .finish 1 0, .begin 2 0, .finish 2 0,
   .begin 0 0, .finish 0 0, .begin 1 0, .finish 1 0, .begin 2 0, .finish 2 0]

/-- The world at the end of `handOffEvents`. -/
def handOffRun : World := runEvents handOffConfig (World.init handOffConfig) handOffEvents

/-- On the run above, stage 1 has received both pairs of stage 0, in order. -/
theorem pipeline_fifo_handOff :
    (∃ pending : List Msg, handOffRun.chan (linkKey 1 0 0) = pending.flatMap Msg.payloads ∧
      (handOffRun.rank 1 0).recvd.map Prod.fst ++ pending = (handOffRun.rank 0 0).sent.map Prod.fst) ∧
    ∀ e ∈ (handOffRun.rank 1 0).recvd, e.1.count = e.2 :=
  pipeline_fifo (runEvents_reachable _ _ .init) (p := 0) (t := 0) (by decide) (by decide)

/-- Halfway through the first call's hand-off, stage 1 can take stage 0's pair. -/
theorem receiver_progress_handOff :
    ∃ w', beginCall handOffConfig
      (runEvents handOffConfig (World.init handOffConfig) (handOffEvents.take 5)) 1 0 = some w' :=
  receiver_progress (runEvents_reachable _ _ .init) (p := 0) (t := 0) (by decide) (by decide)
    (by decide) (by decide) (by decide)

/-- Each stage after the first sends every buffer under the ID it received
with that buffer. -/
def ForwardsReceivedIds (cfg : PipelineConfig) (w : World) : Prop :=
  ∀ p t, 0 < p → p + 1 < cfg.ppSize → t < cfg.tpSize →
    ∀ e ∈ (w.rank p t).sent, e.2 = some e.1.sequenceID

/-- **A stage forwards the activations it received under another ID.** In
`handOffRun`, the first call of stage 1 pushes the received group 1, admits
request 7 behind it, and runs group 1. Its second call receives group 2's
activations, pushes group 2 behind 7 and pops 7: it computes on group 2's
activations and sends them to stage 2 under ID 7. -/
theorem stage_forwards_popped_id :
    PipelineReachable handOffConfig handOffRun ∧ ¬ ForwardsReceivedIds handOffConfig handOffRun := by
  refine ⟨runEvents_reachable _ _ .init, fun h => ?_⟩
  have hmem : ((⟨7, 2⟩ : Msg), some (2 : ℤ)) ∈ (handOffRun.rank 1 0).sent := by decide
  exact absurd (h 1 0 (by decide) (by decide) (by decide) _ hmem) (by decide)

/-! ### Admission on every rank -/

theorem Rank.admitAndPop_schedReachable {cap : ℕ} {received : Option ℤ} {count : ℕ} {r : Rank}
    (h : SchedReachable cap r.sched) : SchedReachable cap (r.admitAndPop cap received count).sched := by
  unfold Rank.admitAndPop
  split
  · exact .forward _ _ h ‹_›
  · exact h

/-- **Every rank runs the scheduler.** The admission state of every rank in
every run is one that `SchedReachable` reaches: the pipeline changes it only
by requests and by `admitAndPop`. -/
theorem rank_schedReachable {cfg : PipelineConfig} {w : World} (hw : PipelineReachable cfg w) :
    ∀ p t, SchedReachable cfg.cap (w.rank p t).sched := by
  induction hw with
  | init => exact fun _ _ => .init
  | step e _ he ih =>
    have keep := fun {q u : ℕ} {r : Rank} (hr : SchedReachable cfg.cap r.sched) =>
      World.forall_setRank (P := fun _ _ r => SchedReachable cfg.cap r.sched) ih (q := q) (u := u) hr
    cases e with
    | request q u g => cases he; exact keep (.request g (ih q u))
    | begin q u =>
      simp only [Event.apply] at he
      split_ifs at he
      obtain ⟨dims, step, la, -, -, ⟨-, msg, rest, -, rfl⟩ | ⟨-, rfl⟩⟩ := beginCall_cases he <;>
        exact keep (Rank.admitAndPop_schedReachable (ih q u))
    | finish q u =>
      simp only [Event.apply] at he
      split_ifs at he
      obtain ⟨rc, id, c, -, ⟨-, rfl⟩ | ⟨-, rfl⟩⟩ := finishCall_cases he <;> exact keep (ih q u)

end XftDecoder
