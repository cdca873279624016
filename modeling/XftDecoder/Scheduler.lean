/-
# Sequence admission on one pipeline stage

Under `PIPELINE_PARALLEL` a stage runs one sequence group per `forward` call,
taken from a bounded ready queue, `TaskWaitingQueue` (lines 384-421). A stage
after the first registers the group whose sequence ID it just received in
`SequencePool` and pushes it; then, if a request waits in `InputQueue` and
the ready queue is not full, it admits that request and pushes it too; it
spins until the ready queue is not empty, and pops the group to run.

The queues and the pool are not under src/. `TaskWaitingQueue` is modelled
from the spec as a FIFO of capacity `cap` whose `isFull` holds at `cap`
entries and which refuses a push when full (§4.4; §8: "a push against a full
queue must be rejected"); `SequencePool` as a map keyed by sequence ID, its
`add` registering a group under its own ID. A group is seen through its ID:
the past length and buffer that admission sets are read by no modelled code.

The push of the received group is not guarded by `isFull`, yet no call pushes
onto a full queue: a call pushes at most one group more than it pops, and
only onto a queue that is not full, so between calls the queue holds at most
`cap - 1` groups (`admission_never_overflows`). The received group goes to
the back of the queue and the call runs its head: a stage runs the group it
received only when its ready queue was empty (`received_call_runs_head`).
The first stage, which receives nothing, runs its requests in the order they
entered, each once, and never drops one: a request waits in `InputQueue`
while the ready queue is full (`first_stage_fifo`).

Key definitions: `Scheduler`, `pushTask`, `admitReceived`, `admitInbound`,
`popTask`, `admitAndPop`, `PoolKeyed`, `SchedReachable`, `Scheduler.supply`,
`FirstStageRun`.
Key theorems: `admitAndPop_spec`, `admitAndPop_none_spec`, `admission_never_overflows`,
`received_call_runs_head`, `first_stage_fifo`.
-/
import Mathlib.Logic.Function.Basic
import Mathlib.Data.List.Basic

namespace XftDecoder

/-- A sequence group, seen through its sequence ID. -/
structure SequenceGroupMeta where
  sequenceID : ℤ
  deriving DecidableEq, Repr

/-- The admission state of one stage: the ready queue, the pool of live
groups and the requests waiting to enter. -/
structure Scheduler where
  taskWaitingQueue : List SequenceGroupMeta
  sequencePool : ℤ → Option SequenceGroupMeta
  inputQueue : List SequenceGroupMeta

/-- An empty stage. -/
def Scheduler.init : Scheduler := ⟨[], fun _ => none, []⟩

/-- How admission fails to hand a group to the layers: a push onto a full
ready queue, or the busy wait of line 414 on an empty one, which no one ends. -/
inductive AdmitError
  | overflow
  | spin
  deriving DecidableEq, Repr

/-- Modelled from the spec: `TaskWaitingQueue::isFull()` is not under src/;
the ready queue is bounded, "at capacity" at `cap` entries (§4.4). -/
def Scheduler.isFull (cap : ℕ) (s : Scheduler) : Bool := cap ≤ s.taskWaitingQueue.length

/-- Modelled from the spec: `TaskWaitingQueue::push(g)` is not under src/;
it appends to the back of the FIFO, and "a push against a full queue must be
rejected" (§8). -/
def pushTask (cap : ℕ) (g : SequenceGroupMeta) (s : Scheduler) : Except AdmitError Scheduler :=
  if s.isFull cap then .error .overflow
  else .ok { s with taskWaitingQueue := s.taskWaitingQueue ++ [g] }

/-- Modelled from the spec: `SequencePool::add(g)` is not under src/; it
registers `g` in the live registry (§4.4), keyed by its own ID. -/
def addToPool (g : SequenceGroupMeta) (s : Scheduler) : Scheduler :=
  { s with sequencePool := Function.update s.sequencePool g.sequenceID (some g) }

@[simp] theorem addToPool_taskWaitingQueue (g : SequenceGroupMeta) (s : Scheduler) :
    (addToPool g s).taskWaitingQueue = s.taskWaitingQueue := rfl

@[simp] theorem addToPool_inputQueue (g : SequenceGroupMeta) (s : Scheduler) :
    (addToPool g s).inputQueue = s.inputQueue := rfl

/-- Modelled from the spec: `SequencePool::get(id)` is not under src/; it
reads the registry entry of `id` (§4.4), here of an ID the stage has just
registered. -/
def getFromPool (s : Scheduler) (id : ℤ) : SequenceGroupMeta := (s.sequencePool id).getD ⟨id⟩

/-- Lines 384-401: a stage after the first registers the group of the ID it
received unless that group is live, then pushes the pool's group of that ID. -/
def admitReceived (cap : ℕ) (received : Option ℤ) (s : Scheduler) : Except AdmitError Scheduler :=
  match received with
  | none => .ok s
  | some sequenceID =>
    let s := if (s.sequencePool sequenceID).isSome then s else addToPool ⟨sequenceID⟩ s
    pushTask cap (getFromPool s sequenceID) s

/-- Lines 403-412: when a request waits and the ready queue is not full,
admit the request: register it and push it. -/
def admitInbound (cap : ℕ) (s : Scheduler) : Except AdmitError Scheduler :=
  match s.inputQueue with
  | [] => .ok s
  | g :: rest =>
    if s.isFull cap then .ok s
    else
      let s := addToPool g { s with inputQueue := rest }
      pushTask cap (getFromPool s g.sequenceID) s

/-- Lines 414-420: wait for a group, and pop it. -/
def popTask (s : Scheduler) : Except AdmitError (SequenceGroupMeta × Scheduler) :=
  match s.taskWaitingQueue with
  | [] => .error .spin
  | g :: rest => .ok (g, { s with taskWaitingQueue := rest })

/-- The admission part of one `forward` call (lines 384-421): `received` is
the sequence ID a stage after the first has received, `none` on the first
stage. The result is the group to run and the stage after admission. -/
def admitAndPop (cap : ℕ) (received : Option ℤ) (s : Scheduler) :
    Except AdmitError (SequenceGroupMeta × Scheduler) := do
  let s ← admitReceived cap received s
  let s ← admitInbound cap s
  popTask s

/-! ### The pool -/

/-- Every group of the pool is registered under its own ID. -/
def PoolKeyed (s : Scheduler) : Prop := ∀ id g, s.sequencePool id = some g → g.sequenceID = id

theorem PoolKeyed.addToPool {s : Scheduler} (h : PoolKeyed s) (g : SequenceGroupMeta) :
    PoolKeyed (addToPool g s) := by
  intro id g' hg
  simp only [XftDecoder.addToPool, Function.update_apply] at hg
  split at hg
  · cases hg; exact (‹id = g.sequenceID›).symm
  · exact h id g' hg

/-- In a keyed pool, `SequencePool::get(id)` is the group of `id`. -/
theorem PoolKeyed.getFromPool {s : Scheduler} (h : PoolKeyed s) (id : ℤ) : getFromPool s id = ⟨id⟩ := by
  unfold XftDecoder.getFromPool
  cases hp : s.sequencePool id with
  | none => rfl
  | some g => cases g; simpa using h id _ hp

/-! ### One call -/

section Call

variable {cap : ℕ} {g : SequenceGroupMeta} {s : Scheduler}

theorem pushTask_of_lt (h : s.taskWaitingQueue.length < cap) :
    pushTask cap g s = .ok { s with taskWaitingQueue := s.taskWaitingQueue ++ [g] } := by
  simp [pushTask, Scheduler.isFull, Nat.not_le.2 h]

/-- The received group goes to the back of a queue below capacity. -/
theorem admitReceived_spec (received : Option ℤ) (h : s.taskWaitingQueue.length < cap)
    (hk : PoolKeyed s) :
    ∃ s', admitReceived cap received s = .ok s' ∧
      s'.taskWaitingQueue = s.taskWaitingQueue ++ (received.map fun id => ⟨id⟩).toList ∧ PoolKeyed s' := by
  cases received with
  | none => exact ⟨s, rfl, by simp, hk⟩
  | some id =>
    simp only [admitReceived]
    split_ifs
    · exact ⟨_, pushTask_of_lt h, by simp [hk.getFromPool], hk⟩
    · exact ⟨_, pushTask_of_lt h, by simp [(hk.addToPool _).getFromPool], hk.addToPool _⟩

/-- Admitting a request pushes only onto a queue that is not full, at its back. -/
theorem admitInbound_spec (h : s.taskWaitingQueue.length ≤ cap) (hk : PoolKeyed s) :
    ∃ s', admitInbound cap s = .ok s' ∧ s'.taskWaitingQueue.length ≤ cap ∧
      s.taskWaitingQueue <+: s'.taskWaitingQueue ∧ PoolKeyed s' := by
  unfold admitInbound
  split
  · exact ⟨s, rfl, h, List.prefix_refl _, hk⟩
  · split_ifs with hf
    · exact ⟨s, rfl, h, List.prefix_refl _, hk⟩
    · have hlt : s.taskWaitingQueue.length < cap := by simpa [Scheduler.isFull] using hf
      exact ⟨_, pushTask_of_lt hlt, by simpa using hlt, List.prefix_append _ _, hk.addToPool _⟩

/-- **One call.** From a keyed stage below capacity, admission never
overflows; a call that runs a group leaves a keyed stage below capacity; and
a call that received `id` runs a group: the head of the ready queue as the
call began, or the received group when that queue was empty. -/
theorem admitAndPop_spec (received : Option ℤ) (h : s.taskWaitingQueue.length < cap)
    (hk : PoolKeyed s) :
    admitAndPop cap received s ≠ .error .overflow ∧
      (∀ r, admitAndPop cap received s = .ok r → r.2.taskWaitingQueue.length < cap ∧ PoolKeyed r.2) ∧
      ∀ id, received = some id →
        (admitAndPop cap received s).map Prod.fst = .ok (s.taskWaitingQueue.headD ⟨id⟩) := by
  obtain ⟨s₁, h₁, hq₁, hk₁⟩ := admitReceived_spec received h hk
  have hl₁ : s₁.taskWaitingQueue.length ≤ cap := by
    cases received <;> simp [hq₁] <;> omega
  obtain ⟨s₂, h₂, hl₂, ⟨extra, hq₂⟩, hk₂⟩ := admitInbound_spec hl₁ hk₁
  simp only [admitAndPop, h₁, h₂, bind, Except.bind]
  refine ⟨by unfold popTask; split <;> simp, fun r hr => ?_, fun id hid => ?_⟩
  · unfold popTask at hr
    split at hr
    · cases hr
    · rename_i g rest hq
      cases hr
      simp only [hq, List.length_cons] at hl₂
      exact ⟨show rest.length < cap by omega, hk₂⟩
  · subst hid
    unfold popTask
    rw [← hq₂, hq₁]
    cases s.taskWaitingQueue <;> rfl

/-- A stage with nothing queued that received `id` runs the group of `id`,
and is left with nothing queued. -/
theorem admitAndPop_received_of_empty (id : ℤ) (hcap : 1 ≤ cap) (hk : PoolKeyed s)
    (hq : s.taskWaitingQueue = []) (hi : s.inputQueue = []) :
    ∃ s', admitAndPop cap (some id) s = .ok (⟨id⟩, s') ∧ s'.taskWaitingQueue = [] ∧ s'.inputQueue = [] := by
  have hlt : s.taskWaitingQueue.length < cap := by simp only [hq, List.length_nil]; omega
  obtain ⟨s₁, h₁, hq₁, -⟩ := admitReceived_spec (some id) hlt hk
  have hi₁ : s₁.inputQueue = [] := by
    simp only [admitReceived] at h₁
    split_ifs at h₁
    · rw [pushTask_of_lt hlt] at h₁; cases h₁; exact hi
    · rw [pushTask_of_lt (show (addToPool ⟨id⟩ s).taskWaitingQueue.length < cap from hlt)] at h₁
      cases h₁; exact hi
  simp only [hq, Option.map_some', Option.toList_some, List.nil_append] at hq₁
  simp only [admitAndPop, h₁, bind, Except.bind, admitInbound, hi₁, popTask, hq₁]
  exact ⟨_, rfl, rfl, rfl⟩

/-- The groups a stage has to run: those waiting to enter and those ready. -/
def Scheduler.supply (s : Scheduler) : ℕ := s.inputQueue.length + s.taskWaitingQueue.length

/-- A call that received nothing runs a group whenever one waits or is
ready, and takes exactly one of them. -/
theorem admitAndPop_none_spec (h : s.taskWaitingQueue.length < cap) (hs : 0 < s.supply) :
    ∃ r, admitAndPop cap none s = .ok r ∧ r.2.supply + 1 = s.supply := by
  cases hin : s.inputQueue with
  | nil =>
    simp only [admitAndPop, admitReceived, admitInbound, hin, bind, Except.bind]
    unfold popTask
    split
    · rename_i hq; simp [Scheduler.supply, hin, hq] at hs
    · rename_i g rest hq; exact ⟨_, rfl, by simp [Scheduler.supply, hin, hq]⟩
  | cons g rest =>
    have hfull : s.isFull cap = false := by simpa [Scheduler.isFull] using h
    simp only [admitAndPop, admitReceived, admitInbound, hin, hfull, Bool.false_eq_true, if_false,
      bind, Except.bind, pushTask_of_lt (show (addToPool g { s with inputQueue := rest }).taskWaitingQueue.length < cap from h)]
    unfold popTask
    split
    · rename_i hq; simp at hq
    · rename_i g' rest' hq
      refine ⟨_, rfl, ?_⟩
      have := congrArg List.length hq
      simp only [addToPool_taskWaitingQueue, List.length_append, List.length_singleton,
        List.length_cons, List.length_nil] at this
      simp only [Scheduler.supply, hin, addToPool_inputQueue, List.length_cons]
      omega

end Call

/-! ### Runs -/

/-- The stages a run of calls reaches: a request may enter `InputQueue` at
any time, and a call may have received any sequence ID. -/
inductive SchedReachable (cap : ℕ) : Scheduler → Prop
  | init : SchedReachable cap Scheduler.init
  | request {s : Scheduler} (g : SequenceGroupMeta) :
      SchedReachable cap s → SchedReachable cap { s with inputQueue := s.inputQueue ++ [g] }
  | forward {s : Scheduler} (received : Option ℤ) (r : SequenceGroupMeta × Scheduler) :
      SchedReachable cap s → admitAndPop cap received s = .ok r → SchedReachable cap r.2

/-- Every stage a run reaches is keyed and below capacity. -/
theorem SchedReachable.inv {cap : ℕ} (hcap : 1 ≤ cap) {s : Scheduler} (hs : SchedReachable cap s) :
    s.taskWaitingQueue.length < cap ∧ PoolKeyed s := by
  induction hs with
  | init => exact ⟨by simpa [Scheduler.init] using hcap, fun _ _ h => by cases h⟩
  | request _ _ ih => exact ih
  | forward received r _ hr ih => exact (admitAndPop_spec received ih.1 ih.2).2.1 r hr

/-- **No call pushes onto a full ready queue.** With a capacity of at least
one, at the start and end of every call of every run the queue holds at most
`cap - 1` groups, and no call of any run, whatever it received, overflows it. -/
theorem admission_never_overflows {cap : ℕ} (hcap : 1 ≤ cap) {s : Scheduler}
    (hs : SchedReachable cap s) :
    s.taskWaitingQueue.length ≤ cap - 1 ∧ ∀ received, admitAndPop cap received s ≠ .error .overflow := by
  obtain ⟨hlt, hk⟩ := hs.inv hcap
  exact ⟨by omega, fun received => (admitAndPop_spec received hlt hk).1⟩

/-- A stage of capacity two with one request waiting. -/
theorem admission_never_overflows_request :
    ({ Scheduler.init with inputQueue := [⟨1⟩] } : Scheduler).taskWaitingQueue.length ≤ 2 - 1 ∧
      ∀ received, admitAndPop 2 received { Scheduler.init with inputQueue := [⟨1⟩] } ≠ .error .overflow :=
  admission_never_overflows (by decide) (.request ⟨1⟩ .init)

/-- **A stage runs the head of its ready queue.** In every run, a call of a
stage after the first that received the ID `id` runs the group at the head of
the ready queue as the call began, and the group it received only when that
queue was empty. -/
theorem received_call_runs_head {cap : ℕ} (hcap : 1 ≤ cap) {s : Scheduler}
    (hs : SchedReachable cap s) (id : ℤ) :
    (admitAndPop cap (some id) s).map Prod.fst = .ok (s.taskWaitingQueue.headD ⟨id⟩) := by
  obtain ⟨hlt, hk⟩ := hs.inv hcap
  exact (admitAndPop_spec (some id) hlt hk).2.2 id rfl

/-- A stage with request 7 waiting and an empty ready queue runs the group it
received, 5. -/
theorem received_call_runs_head_empty :
    (admitAndPop 4 (some 5) { Scheduler.init with inputQueue := [⟨7⟩] }).map Prod.fst =
      .ok (({ Scheduler.init with inputQueue := [⟨7⟩] } : Scheduler).taskWaitingQueue.headD ⟨5⟩) :=
  received_call_runs_head (by decide) (.request ⟨7⟩ .init) 5

/-! ### The first stage is FIFO -/

/-- Admitting a request moves the head of `InputQueue` to the back of the
ready queue, or nothing: the two queues, one after the other, are kept. -/
theorem admitInbound_queues {cap : ℕ} {s s' : Scheduler} (h : admitInbound cap s = .ok s') :
    s'.taskWaitingQueue ++ s'.inputQueue = s.taskWaitingQueue ++ s.inputQueue := by
  unfold admitInbound at h
  split at h
  · cases h; rfl
  · rename_i g rest hin
    split_ifs at h with hf
    · cases h; rfl
    · have hlt : s.taskWaitingQueue.length < cap := by simpa [Scheduler.isFull] using hf
      rw [pushTask_of_lt (show (addToPool g { s with inputQueue := rest }).taskWaitingQueue.length < cap
        from hlt)] at h
      cases h
      simp [hin, getFromPool, addToPool]

/-- A call that received nothing and ran `g` took it from the front of the
ready queue followed by `InputQueue`. -/
theorem admitAndPop_none_queues {cap : ℕ} {s s' : Scheduler} {g : SequenceGroupMeta}
    (h : admitAndPop cap none s = .ok (g, s')) :
    s.taskWaitingQueue ++ s.inputQueue = g :: (s'.taskWaitingQueue ++ s'.inputQueue) := by
  simp only [admitAndPop, admitReceived, bind, Except.bind] at h
  split at h
  · cases h
  · rename_i s₁ h₁
    unfold popTask at h
    split at h
    · cases h
    · rename_i g' rest hq
      cases h
      rw [← admitInbound_queues h₁, hq]
      rfl

/-- A run of the first stage with ghost logs: the requests that entered
`InputQueue`, and the groups its calls ran, in order. A call of the first
stage receives nothing. -/
inductive FirstStageRun (cap : ℕ) : List SequenceGroupMeta → List SequenceGroupMeta → Scheduler → Prop
  | init : FirstStageRun cap [] [] Scheduler.init
  | request {reqs ran : List SequenceGroupMeta} {s : Scheduler} (g : SequenceGroupMeta) :
      FirstStageRun cap reqs ran s →
        FirstStageRun cap (reqs ++ [g]) ran { s with inputQueue := s.inputQueue ++ [g] }
  | call {reqs ran : List SequenceGroupMeta} {s : Scheduler} (r : SequenceGroupMeta × Scheduler) :
      FirstStageRun cap reqs ran s → admitAndPop cap none s = .ok r → FirstStageRun cap reqs (ran ++ [r.1]) r.2

/-- **The first stage runs its requests in order, each once.** In every run
of the first stage, the groups run so far, then the ready queue, then the
requests waiting in `InputQueue` are exactly the requests that entered, in
order: admission loses none, duplicates none and never overtakes. -/
theorem first_stage_fifo {cap : ℕ} {reqs ran : List SequenceGroupMeta} {s : Scheduler}
    (h : FirstStageRun cap reqs ran s) : ran ++ s.taskWaitingQueue ++ s.inputQueue = reqs := by
  induction h with
  | init => rfl
  | request g _ ih => simp [← ih]
  | call r _ hr ih =>
    obtain ⟨g, s'⟩ := r
    rw [← ih]
    simp only [List.append_assoc, admitAndPop_none_queues hr, List.cons_append, List.nil_append]

/-- The first stage after requests 1 and 2 entered and one call ran. -/
def firstStageAfterOne : Scheduler :=
  { taskWaitingQueue := [], sequencePool := Function.update (fun _ => none) 1 (some ⟨1⟩),
    inputQueue := [⟨2⟩] }

/-- Request 1 has run and request 2 waits. -/
theorem first_stage_fifo_two :
    [⟨1⟩] ++ firstStageAfterOne.taskWaitingQueue ++ firstStageAfterOne.inputQueue = [⟨1⟩, ⟨2⟩] :=
  first_stage_fifo (.call (⟨1⟩, firstStageAfterOne)
    (.request ⟨2⟩ (.request ⟨1⟩ (.init : FirstStageRun 4 [] [] Scheduler.init))) rfl)

end XftDecoder
