/-
# Every tensor rank of the pipeline gets through its calls

`Pipeline` says what the ranks exchange; this module says that they get
through their calls. Fix a tensor rank `t` and look at its column of stages
`(0, t), ..., (ppSize - 1, t)`. A rank waits in two places only: a stage
after the first in `MPI_Recv` on an empty channel (lines 389, 391), and any
stage in the busy wait of line 414 on an empty ready queue, which the model
records as halting for good.

A call halts exactly when it is on the first stage and finds no group waiting
in `InputQueue` or ready in `TaskWaitingQueue`: a stage after the first
always has the group it has just received, and no push overflows
(`beginCall_halts_iff`). A column with no halted rank never deadlocks: unless
every stage has made all its calls, some stage can begin or finish one,
since the lowest stage with calls left is the first stage, or has a pair
waiting from the stage before, which has made all of its calls
(`column_no_deadlock`). Each begin and finish of the column does one step of
its remaining work, `columnWork`, and no other event changes it
(`columnWork_step`). With a ready queue of capacity at least one and as many
requests at the first stage as it has calls left, the column can run to the
end, by induction on that work (`column_drains`); the columns share no rank
and no channel, so the whole grid can (`grid_drains`).

Within a call the ranks of one stage also meet in `reduceAdd`. The pipeline
model leaves that rendezvous out (`TensorParallel` is about it): progress
here is that of each column, with its tensor peers keeping pace.

Key definitions: `Phase.isHalted`, `Rank.Done`, `ColumnStep`, `GridStep`,
`Rank.work`, `columnWork`.
Key theorems: `beginCall_halts_iff`, `column_no_deadlock`, `columnWork_step`,
`column_drains`, `grid_drains`.
-/
import XftDecoder.Pipeline
import Mathlib

namespace XftDecoder

/-! ### Ranks that are done, halted, or can step -/

/-- Halted by admission, for good. -/
def Phase.isHalted : Phase → Bool
  | .halted _ => true
  | _ => false

/-- A rank that has made all its calls and is between calls. -/
def Rank.Done (cfg : PipelineConfig) (r : Rank) : Prop := r.phase = .idle ∧ cfg.calls.length ≤ r.begun

instance (cfg : PipelineConfig) (r : Rank) : Decidable (r.Done cfg) :=
  inferInstanceAs (Decidable (_ ∧ _))

/-- A begin or a finish of a stage of tensor rank `t` takes `w` to `w'`. -/
def ColumnStep (cfg : PipelineConfig) (t : ℕ) (w w' : World) : Prop :=
  ∃ p, (Event.begin p t).apply cfg w = some w' ∨ (Event.finish p t).apply cfg w = some w'

/-- A begin or a finish of any rank of the grid takes `w` to `w'`. -/
def GridStep (cfg : PipelineConfig) (w w' : World) : Prop := ∃ t, ColumnStep cfg t w w'

/-- Whether an event is a begin or a finish of tensor rank `t`. -/
def Event.onColumn (t : ℕ) : Event → Bool
  | .begin _ u | .finish _ u => u == t
  | .request _ _ _ => false

/-- The steps left to a rank: a begin and a finish for each call it has not
begun, and a finish for a call it has begun and not finished. -/
def Rank.work (cfg : PipelineConfig) (r : Rank) : ℕ := 2 * (cfg.calls.length - r.begun) + r.phase.busy

/-- The steps left to the stages of tensor rank `t`. -/
def columnWork (cfg : PipelineConfig) (w : World) (t : ℕ) : ℕ :=
  ((List.range cfg.ppSize).map fun p => (w.rank p t).work cfg).sum

theorem ColumnStep.reachable {cfg : PipelineConfig} {t : ℕ} {w w' : World} (hw : PipelineReachable cfg w)
    (h : ColumnStep cfg t w w') : PipelineReachable cfg w' := by
  obtain ⟨p, hb | hf⟩ := h
  · exact hw.step _ hb
  · exact hw.step _ hf

theorem ColumnStep.reachable_of_rtg {cfg : PipelineConfig} {t : ℕ} {w w' : World}
    (hw : PipelineReachable cfg w) (h : Relation.ReflTransGen (ColumnStep cfg t) w w') :
    PipelineReachable cfg w' := by
  induction h with
  | refl => exact hw
  | tail _ hs ih => exact hs.reachable ih

/-- A step of tensor rank `u` leaves the ranks of every other tensor rank. -/
theorem ColumnStep.rank_other {cfg : PipelineConfig} {t u : ℕ} {w w' : World} (h : ColumnStep cfg u w w')
    (htu : t ≠ u) (p : ℕ) : w'.rank p t = w.rank p t := by
  obtain ⟨q, he | he⟩ := h <;> simp only [Event.apply] at he <;> split_ifs at he
  · obtain ⟨_, _, _, -, -, ⟨-, msg, rest, -, rfl⟩ | ⟨-, rfl⟩⟩ := beginCall_cases he <;>
      exact World.setRank_other (by omega)
  · obtain ⟨_, _, _, -, ⟨-, rfl⟩ | ⟨-, rfl⟩⟩ := finishCall_cases he <;> exact World.setRank_other (by omega)

theorem ColumnStep.rank_other_of_rtg {cfg : PipelineConfig} {t u : ℕ} {w w' : World}
    (h : Relation.ReflTransGen (ColumnStep cfg u) w w') (htu : t ≠ u) (p : ℕ) : w'.rank p t = w.rank p t := by
  induction h with
  | refl => rfl
  | tail _ hs ih => rw [hs.rank_other htu, ih]

section Steps

variable {cfg : PipelineConfig} {w : World} {p t : ℕ}

theorem lt_length_of_call {cfg : PipelineConfig} {k : ℕ} {c : Dims × ℕ × Bool}
    (h : cfg.calls[k]? = some c) : k < cfg.calls.length :=
  (List.getElem?_eq_some_iff.1 h).1

/-- An idle rank with a call left begins it at once when it receives nothing. -/
theorem beginCall_of_no_recv (hidle : (w.rank p t).phase = .idle)
    (hcall : (w.rank p t).begun < cfg.calls.length) (hno : ¬ (1 < cfg.ppSize ∧ 0 < p)) :
    ∃ w', beginCall cfg w p t = some w' := by
  obtain ⟨⟨dims, step, la⟩, hc⟩ : ∃ c, cfg.calls[(w.rank p t).begun]? = some c :=
    ⟨_, List.getElem?_eq_getElem hcall⟩
  simp only [beginCall, hidle, hc, if_neg hno]
  exact ⟨_, rfl⟩

/-- A running rank can always finish its call. -/
theorem finishCall_of_running {rc : Option ℤ} {id : ℤ} {c : ℕ}
    (hrun : (w.rank p t).phase = .running rc id c) : ∃ w', finishCall cfg w p t = some w' := by
  simp only [finishCall, hrun]
  split_ifs <;> exact ⟨_, rfl⟩

theorem Event.apply_begin {w' : World} (hp : p < cfg.ppSize) (ht : t < cfg.tpSize)
    (h : beginCall cfg w p t = some w') : (Event.begin p t).apply cfg w = some w' := by
  simp [Event.apply, hp, ht, h]

theorem Event.apply_finish {w' : World} (hp : p < cfg.ppSize) (ht : t < cfg.tpSize)
    (h : finishCall cfg w p t = some w') : (Event.finish p t).apply cfg w = some w' := by
  simp [Event.apply, hp, ht, h]

end Steps

/-! ### Halting -/

section Halt

variable {cap : ℕ} {received : Option ℤ} {count : ℕ} {r : Rank}

/-- In a run, admission halts a rank only by spinning, and only on a call
that received nothing. -/
theorem Rank.admitAndPop_halted (hcap : 1 ≤ cap) (hs : SchedReachable cap r.sched) {e : AdmitError}
    (h : (r.admitAndPop cap received count).phase = .halted e) : e = .spin ∧ received = none := by
  obtain ⟨hlt, hk⟩ := hs.inv hcap
  obtain ⟨hover, -, hrecv⟩ := admitAndPop_spec received hlt hk
  unfold Rank.admitAndPop at h
  split at h
  · cases h
  · rename_i e' he'
    cases h
    refine ⟨?_, ?_⟩
    · cases e
      · exact absurd he' hover
      · rfl
    · cases received with
      | none => rfl
      | some id => have := hrecv id rfl; rw [he'] at this; cases this

/-- A call that received nothing, on a stage with nothing waiting or ready,
spins. -/
theorem admitAndPop_none_of_supply {s : Scheduler} (h : s.supply = 0) :
    admitAndPop cap none s = .error .spin := by
  have hin : s.inputQueue = [] := List.eq_nil_of_length_eq_zero (by simp only [Scheduler.supply] at h; omega)
  have hq : s.taskWaitingQueue = [] := List.eq_nil_of_length_eq_zero (by simp only [Scheduler.supply] at h; omega)
  simp [admitAndPop, admitReceived, admitInbound, popTask, hin, hq, bind, Except.bind]

end Halt

section Begin

variable {cfg : PipelineConfig} {r : Rank} {dims : Dims} {step : ℕ} {la : Bool}

/-- A begun call halts only by spinning, and only when it received nothing. -/
theorem Rank.begin_halted (hcap : 1 ≤ cfg.cap) (hs : SchedReachable cfg.cap r.sched) {received : Option Msg}
    {e : AdmitError} (h : (r.begin cfg dims step la received).phase = .halted e) :
    e = .spin ∧ received = none := by
  unfold Rank.begin at h
  obtain ⟨he, hnone⟩ := Rank.admitAndPop_halted hcap (by exact hs) h
  exact ⟨he, Option.map_eq_none'.1 hnone⟩

/-- A begun call that received nothing runs a group when one waits or is
ready, and takes it. -/
theorem Rank.begin_of_supply (hcap : 1 ≤ cfg.cap) (hs : SchedReachable cfg.cap r.sched)
    (hsup : 0 < r.sched.supply) :
    (r.begin cfg dims step la none).phase.isHalted = false ∧
      (r.begin cfg dims step la none).sched.supply + 1 = r.sched.supply := by
  obtain ⟨⟨g, s⟩, hr, hsupply⟩ := admitAndPop_none_spec (hs.inv hcap).1 hsup
  simp [Rank.begin, Rank.admitAndPop, hr, Phase.isHalted, hsupply]

/-- A begun call halts exactly when it received nothing and its stage has
nothing waiting or ready. -/
theorem Rank.begin_isHalted (hcap : 1 ≤ cfg.cap) (hs : SchedReachable cfg.cap r.sched)
    (received : Option Msg) :
    (r.begin cfg dims step la received).phase.isHalted = true ↔
      received = none ∧ r.sched.supply = 0 := by
  constructor
  · intro h
    obtain ⟨e, he⟩ : ∃ e, (r.begin cfg dims step la received).phase = .halted e := by
      cases hph : (r.begin cfg dims step la received).phase <;> simp_all [Phase.isHalted]
    obtain ⟨-, rfl⟩ := Rank.begin_halted hcap hs he
    refine ⟨rfl, Nat.eq_zero_of_not_pos fun hsup => ?_⟩
    rw [(Rank.begin_of_supply hcap hs hsup).1] at h
    cases h
  · rintro ⟨rfl, hsup⟩
    simp [Rank.begin, Rank.admitAndPop, admitAndPop_none_of_supply hsup, Phase.isHalted]

end Begin

/-- In every run with a ready queue of capacity at least one, a halted rank
is on the first stage and spins. -/
theorem PipelineReachable.halted_spin {cfg : PipelineConfig} {w : World} (hw : PipelineReachable cfg w)
    (hcap : 1 ≤ cfg.cap) : ∀ p t e, (w.rank p t).phase = .halted e → e = .spin ∧ ¬ (1 < cfg.ppSize ∧ 0 < p) := by
  induction hw with
  | init => intro p t e h; simp [World.init] at h
  | step ev hw' he ih =>
    have hs := rank_schedReachable hw'
    have keep := fun {q u : ℕ} {r : Rank}
        (hr : ∀ e, r.phase = .halted e → e = .spin ∧ ¬ (1 < cfg.ppSize ∧ 0 < q)) =>
      World.forall_setRank (P := fun p _ r => ∀ e, r.phase = .halted e → e = .spin ∧ ¬ (1 < cfg.ppSize ∧ 0 < p))
        ih (q := q) (u := u) hr
    cases ev with
    | request q u g => cases he; exact keep (ih q u)
    | begin q u =>
      simp only [Event.apply] at he
      split_ifs at he
      obtain ⟨dims, step, la, -, -, ⟨hrecv, msg, rest, -, rfl⟩ | ⟨hrecv, rfl⟩⟩ := beginCall_cases he
      · exact keep fun e he' => by
          have := (Rank.begin_halted hcap (hs q u) he').2
          simp at this
      · exact keep fun e he' => ⟨(Rank.begin_halted hcap (hs q u) he').1, hrecv⟩
    | finish q u =>
      simp only [Event.apply] at he
      split_ifs at he
      obtain ⟨rc, id, c, -, ⟨-, rfl⟩ | ⟨-, rfl⟩⟩ := finishCall_cases he <;>
        exact keep fun e he' => by cases he'

/-! ### No deadlock -/

/-- Under the invariant, the column of tensor rank `t` with no halted rank
is done or can step: the lowest stage that is not done is running, or the
first stage, or has a pair waiting from the stage before, which is done. -/
theorem Invariant.done_or_step {cfg : PipelineConfig} {w : World} (h : Invariant cfg w) {t : ℕ}
    (ht : t < cfg.tpSize) (hlive : ∀ p < cfg.ppSize, (w.rank p t).phase.isHalted = false) :
    (∀ p < cfg.ppSize, (w.rank p t).Done cfg) ∨ ∃ w', ColumnStep cfg t w w' := by
  suffices ∀ n ≤ cfg.ppSize, (∀ p < n, (w.rank p t).Done cfg) ∨ ∃ w', ColumnStep cfg t w w' from
    this _ le_rfl
  intro n hn
  induction n with
  | zero => exact .inl fun p hp => absurd hp (Nat.not_lt_zero p)
  | succ n ih =>
    obtain hdone | hstep := ih (by omega)
    · have hn' : n < cfg.ppSize := by omega
      cases hph : (w.rank n t).phase with
      | idle =>
        by_cases hlen : cfg.calls.length ≤ (w.rank n t).begun
        · refine .inl fun p hp => ?_
          rcases Nat.lt_succ_iff_lt_or_eq.1 hp with hp | rfl
          · exact hdone p hp
          · exact ⟨hph, hlen⟩
        · right
          by_cases hrecv : 1 < cfg.ppSize ∧ 0 < n
          · obtain ⟨m, rfl⟩ : ∃ m, n = m + 1 := ⟨n - 1, by omega⟩
            have hprev := hdone m (by omega)
            have hsent := (h.rank m t).sent_len ⟨hrecv.1, by omega⟩
            have hrecvd := (h.rank (m + 1) t).recvd_len hrecv
            rw [hprev.1, Phase.busy, Nat.add_zero] at hsent
            have := hprev.2
            obtain ⟨w', hb⟩ := h.beginCall_of_pending hn' ht hph (by omega) (by omega)
            exact ⟨w', m + 1, .inl (Event.apply_begin hn' ht hb)⟩
          · obtain ⟨w', hb⟩ := beginCall_of_no_recv hph (by omega) hrecv
            exact ⟨w', n, .inl (Event.apply_begin hn' ht hb)⟩
      | running rc id c =>
        obtain ⟨w', hf⟩ := finishCall_of_running hph
        exact .inr ⟨w', n, .inr (Event.apply_finish hn' ht hf)⟩
      | halted e => exact absurd (hlive n hn') (by simp [hph, Phase.isHalted])
    · exact .inr hstep

/-! ### The work left -/

section Work

variable {cfg : PipelineConfig} {w : World}

/-- Changing one term of a sum over `0, ..., n - 1`. -/
theorem sum_range_map_add_of_eq_off {f g : ℕ → ℕ} {q : ℕ} (h : ∀ p, p ≠ q → g p = f p) :
    ∀ {n : ℕ}, q < n → ((List.range n).map g).sum + f q = ((List.range n).map f).sum + g q
  | 0, hq => absurd hq (Nat.not_lt_zero _)
  | n + 1, hq => by
    simp only [List.range_succ, List.map_append, List.sum_append, List.map_cons, List.map_nil,
      List.sum_cons, List.sum_nil, Nat.add_zero]
    rcases Nat.lt_succ_iff_lt_or_eq.1 hq with hq | rfl
    · have := sum_range_map_add_of_eq_off h hq
      rw [h n (by omega)]
      omega
    · rw [List.map_congr_left fun p hp => h p (by rw [List.mem_range] at hp; omega)]
      omega

/-- A begun call does one step of the rank's work. -/
theorem Rank.work_begin {r : Rank} {dims : Dims} {step : ℕ} {la : Bool} (hidle : r.phase = .idle)
    (hcall : cfg.calls[r.begun]? = some (dims, step, la)) (received : Option Msg) :
    (r.begin cfg dims step la received).work cfg + 1 = r.work cfg := by
  have := lt_length_of_call hcall
  have hbusy : r.phase.busy = 0 := by rw [hidle]; rfl
  simp only [Rank.work, Rank.begin, Rank.admitAndPop_begun, Rank.admitAndPop_busy, hbusy]
  omega

/-- A finished call does one step of the rank's work. -/
theorem Rank.work_finish {r : Rank} {rc : Option ℤ} {id : ℤ} {c : ℕ} (hrun : r.phase = .running rc id c)
    (sent : List (Msg × Option ℤ)) : ({ r with phase := .idle, sent := sent } : Rank).work cfg + 1 = r.work cfg := by
  simp [Rank.work, hrun, Phase.busy]

/-- Rank `(q, u)` does one step of its work, in `ws`, a world with the ranks of `w`. -/
theorem columnWork_setRank {ws : World} (hws : ws.rank = w.rank) {q u : ℕ} (hq : q < cfg.ppSize) {r : Rank}
    (hr : r.work cfg + 1 = (w.rank q u).work cfg) (t : ℕ) :
    columnWork cfg (ws.setRank q u r) t + (if u = t then 1 else 0) = columnWork cfg w t := by
  have hw : columnWork cfg ws t = columnWork cfg w t := by simp only [columnWork, hws]
  split_ifs with hu
  · subst hu
    have := sum_range_map_add_of_eq_off (f := fun p => (ws.rank p u).work cfg)
      (g := fun p => ((ws.setRank q u r).rank p u).work cfg) (fun p hp => by simp [hp]) hq
    simp only [World.setRank_same, hws] at this
    rw [columnWork, ← hw, columnWork, hws]
    omega
  · rw [← hw]
    simp only [columnWork, World.setRank_rank, Ne.symm hu, and_false, if_false, Nat.add_zero]

/-- **One event, one step of work.** A begin or a finish of a stage of
tensor rank `t` lowers its remaining work by one; every other event leaves
it. -/
theorem columnWork_step {e : Event} {w' : World} (he : e.apply cfg w = some w') (t : ℕ) :
    columnWork cfg w' t + (if e.onColumn t then 1 else 0) = columnWork cfg w t := by
  cases e with
  | request q u g =>
    cases he
    simp only [Event.onColumn, Bool.false_eq_true, if_false, Nat.add_zero, columnWork]
    congr 1
    exact List.map_congr_left fun p _ => World.setRank_keeps (Rank.work cfg) (by rfl) p t
  | begin q u =>
    simp only [Event.apply] at he
    split_ifs at he with hqu
    simp only [Event.onColumn, beq_iff_eq]
    obtain ⟨dims, step, la, hidle, hcall, ⟨-, msg, rest, -, rfl⟩ | ⟨-, rfl⟩⟩ := beginCall_cases he
    · exact columnWork_setRank rfl hqu.1 (Rank.work_begin hidle hcall _) t
    · exact columnWork_setRank rfl hqu.1 (Rank.work_begin hidle hcall _) t
  | finish q u =>
    simp only [Event.apply] at he
    split_ifs at he with hqu
    simp only [Event.onColumn, beq_iff_eq]
    obtain ⟨rc, id, c, hrun, ⟨-, rfl⟩ | ⟨-, rfl⟩⟩ := finishCall_cases he
    · exact columnWork_setRank rfl hqu.1 (Rank.work_finish hrun _) t
    · exact columnWork_setRank rfl hqu.1 (Rank.work_finish hrun _) t

theorem ColumnStep.columnWork_lt {t : ℕ} {w' : World} (h : ColumnStep cfg t w w') :
    columnWork cfg w' t < columnWork cfg w t := by
  obtain ⟨p, he | he⟩ := h <;>
  · have := columnWork_step he t
    simp only [Event.onColumn, beq_self_eq_true, if_true] at this
    omega

end Work

/-! ### Draining a column -/

/-- A step of the column from a reachable world keeps it reachable, keeps
the first stage live when it has a group for each call left, and keeps that
supply. -/
theorem ColumnStep.keeps_supply {cfg : PipelineConfig} {t : ℕ} {w w' : World} (hw : PipelineReachable cfg w)
    (hcap : 1 ≤ cfg.cap) (hlive : (w.rank 0 t).phase.isHalted = false)
    (hsupply : cfg.calls.length - (w.rank 0 t).begun ≤ (w.rank 0 t).sched.supply)
    (h : ColumnStep cfg t w w') :
    (w'.rank 0 t).phase.isHalted = false ∧
      cfg.calls.length - (w'.rank 0 t).begun ≤ (w'.rank 0 t).sched.supply := by
  obtain ⟨p, he | he⟩ := h
  · simp only [Event.apply] at he
    split_ifs at he with hpt
    obtain ⟨dims, step, la, hidle, hcall, ⟨hrecv, msg, rest, -, rfl⟩ | ⟨hrecv, rfl⟩⟩ := beginCall_cases he
    · rw [World.setRank_other (by omega)]
      exact ⟨hlive, hsupply⟩
    · obtain rfl : p = 0 := by omega
      have hlt := lt_length_of_call hcall
      obtain ⟨hlive', hsup'⟩ : ((w.rank 0 t).begin cfg dims step la none).phase.isHalted = false ∧
          ((w.rank 0 t).begin cfg dims step la none).sched.supply + 1 = (w.rank 0 t).sched.supply :=
        Rank.begin_of_supply hcap (rank_schedReachable hw 0 t) (by omega)
      rw [World.setRank_same]
      refine ⟨hlive', ?_⟩
      simp only [Rank.begin, Rank.admitAndPop_begun] at hsup' ⊢
      omega
  · simp only [Event.apply] at he
    split_ifs at he with hpt
    obtain ⟨rc, id, c, hrun, ⟨-, rfl⟩ | ⟨-, rfl⟩⟩ := finishCall_cases he <;>
    · by_cases hp : 0 = p
      · subst hp
        rw [World.setRank_same]
        exact ⟨rfl, hsupply⟩
      · rw [World.setRank_other (by omega)]
        exact ⟨hlive, hsupply⟩

/-! ### The column -/

/-- **No deadlock.** In every run, the stages of tensor rank `t` with no
halted rank among them have all made their calls, or one of them can begin
or finish a call. -/
theorem column_no_deadlock {cfg : PipelineConfig} {w : World} (hw : PipelineReachable cfg w) {t : ℕ}
    (ht : t < cfg.tpSize) (hlive : ∀ p < cfg.ppSize, (w.rank p t).phase.isHalted = false) :
    (∀ p < cfg.ppSize, (w.rank p t).Done cfg) ∨ ∃ w', ColumnStep cfg t w w' :=
  (reachable_invariant hw).done_or_step ht hlive

/-- Stage 0 of `handOffConfig` with two requests waiting. -/
def drainStart : World :=
  runEvents handOffConfig (World.init handOffConfig) [.request 0 0 ⟨1⟩, .request 0 0 ⟨2⟩]

theorem column_no_deadlock_drainStart :
    (∀ p < handOffConfig.ppSize, (drainStart.rank p 0).Done handOffConfig) ∨
      ∃ w', ColumnStep handOffConfig 0 drainStart w' :=
  column_no_deadlock (runEvents_reachable _ _ .init) (by decide) (by decide)

/-- **A call halts exactly on an empty first stage.** In every run with a
ready queue of capacity at least one, a begun call halts in the busy wait if
and only if it is on the first stage and finds no group waiting in
`InputQueue` or ready in `TaskWaitingQueue`: a stage after the first always
runs a group. -/
theorem beginCall_halts_iff {cfg : PipelineConfig} {w w' : World} (hw : PipelineReachable cfg w)
    (hcap : 1 ≤ cfg.cap) {p t : ℕ} (hb : beginCall cfg w p t = some w') :
    (w'.rank p t).phase.isHalted = true ↔ ¬ (1 < cfg.ppSize ∧ 0 < p) ∧ (w.rank p t).sched.supply = 0 := by
  obtain ⟨dims, step, la, -, -, ⟨hrecv, msg, rest, -, rfl⟩ | ⟨hrecv, rfl⟩⟩ := beginCall_cases hb
  · rw [World.setRank_same, Rank.begin_isHalted hcap (rank_schedReachable hw p t)]
    simp [hrecv]
  · rw [World.setRank_same, Rank.begin_isHalted hcap (rank_schedReachable hw p t)]
    simp [hrecv]

/-- The first call of stage 0 of `drainStart` has two requests: it runs one. -/
theorem beginCall_halts_iff_drainStart :
    ((((beginCall handOffConfig drainStart 0 0).get (by decide)).rank 0 0).phase.isHalted = true ↔
      ¬ (1 < handOffConfig.ppSize ∧ 0 < 0) ∧ (drainStart.rank 0 0).sched.supply = 0) :=
  beginCall_halts_iff (runEvents_reachable _ _ .init) (by decide) (Option.some_get _).symm

/-- The column drains: from a reachable world whose first stage of tensor
rank `t` is not halted and has a group waiting or ready for each call it has
left, some sequence of begins and finishes of the column leaves every stage
with all its calls made. By induction on the work left: the column is done,
or it can step (`Invariant.done_or_step`), and a step keeps the hypotheses. -/
theorem column_drains {cfg : PipelineConfig} {w : World} (hw : PipelineReachable cfg w) (hcap : 1 ≤ cfg.cap)
    {t : ℕ} (ht : t < cfg.tpSize) (hlive : (w.rank 0 t).phase.isHalted = false)
    (hsupply : cfg.calls.length - (w.rank 0 t).begun ≤ (w.rank 0 t).sched.supply) :
    ∃ w', Relation.ReflTransGen (ColumnStep cfg t) w w' ∧ ∀ p < cfg.ppSize, (w'.rank p t).Done cfg := by
  obtain ⟨n, hn⟩ : ∃ n, columnWork cfg w t = n := ⟨_, rfl⟩
  induction n using Nat.strong_induction_on generalizing w with
  | _ n ih =>
    have hall : ∀ p < cfg.ppSize, (w.rank p t).phase.isHalted = false := fun p _ => by
      cases hph : (w.rank p t).phase with
      | halted e =>
        have hfirst := (hw.halted_spin hcap p t e hph).2
        obtain rfl : p = 0 := by omega
        rw [hph] at hlive
        cases hlive
      | _ => rfl
    obtain hdone | ⟨w₁, hstep⟩ := (reachable_invariant hw).done_or_step ht hall
    · exact ⟨w, .refl, hdone⟩
    · obtain ⟨hlive₁, hsupply₁⟩ := hstep.keeps_supply hw hcap hlive hsupply
      obtain ⟨w', hrun, hdone⟩ :=
        ih _ (hn ▸ hstep.columnWork_lt) (hstep.reachable hw) hlive₁ hsupply₁ rfl
      exact ⟨w', .head hstep hrun, hdone⟩

/-- **The grid drains.** In every run with a ready queue of capacity at least
one, if no first-stage rank is halted and each has a group waiting or ready
for each call it has left, the ranks can run to the end: some sequence of
begins and finishes leaves every rank of the grid with all its calls made. -/
theorem grid_drains {cfg : PipelineConfig} {w : World} (hw : PipelineReachable cfg w) (hcap : 1 ≤ cfg.cap)
    (hlive : ∀ t < cfg.tpSize, (w.rank 0 t).phase.isHalted = false)
    (hsupply : ∀ t < cfg.tpSize, cfg.calls.length - (w.rank 0 t).begun ≤ (w.rank 0 t).sched.supply) :
    ∃ w', Relation.ReflTransGen (GridStep cfg) w w' ∧
      ∀ p < cfg.ppSize, ∀ t < cfg.tpSize, (w'.rank p t).Done cfg := by
  -- Drain the columns `0, 1, ...` in turn; a column's steps leave the others.
  suffices ∀ n ≤ cfg.tpSize, ∃ w', Relation.ReflTransGen (GridStep cfg) w w' ∧ PipelineReachable cfg w' ∧
      (∀ p < cfg.ppSize, ∀ t < n, (w'.rank p t).Done cfg) ∧ ∀ p t, n ≤ t → w'.rank p t = w.rank p t by
    obtain ⟨w', hrun, -, hdone, -⟩ := this _ le_rfl
    exact ⟨w', hrun, hdone⟩
  intro n hn
  induction n with
  | zero => exact ⟨w, .refl, hw, fun _ _ _ h => absurd h (Nat.not_lt_zero _), fun _ _ _ => rfl⟩
  | succ n ih =>
    obtain ⟨w₁, hrun₁, hw₁, hdone₁, hsame₁⟩ := ih (by omega)
    obtain ⟨w₂, hrun₂, hdone₂⟩ := column_drains hw₁ hcap (t := n) (by omega)
      (by rw [hsame₁ 0 n le_rfl]; exact hlive n (by omega))
      (by rw [hsame₁ 0 n le_rfl]; exact hsupply n (by omega))
    refine ⟨w₂, hrun₁.trans (hrun₂.mono fun _ _ h => ⟨n, h⟩), ColumnStep.reachable_of_rtg hw₁ hrun₂,
      fun p hp t ht => ?_, fun p t ht => ?_⟩
    · rcases Nat.lt_succ_iff_lt_or_eq.1 ht with ht | rfl
      · rw [ColumnStep.rank_other_of_rtg hrun₂ (by omega) p]
        exact hdone₁ p hp t ht
      · exact hdone₂ p hp
    · rw [ColumnStep.rank_other_of_rtg hrun₂ (by omega) p, hsame₁ p t (by omega)]

theorem grid_drains_drainStart :
    ∃ w', Relation.ReflTransGen (GridStep handOffConfig) drainStart w' ∧
      ∀ p < handOffConfig.ppSize, ∀ t < handOffConfig.tpSize, (w'.rank p t).Done handOffConfig :=
  grid_drains (runEvents_reachable _ _ .init) (by decide) (by decide) (by decide)

end XftDecoder
