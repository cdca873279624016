/-
# The decoder's state across calls

`CommonDecoder` keeps a little state from one call to the next: the
accumulated sequence length `accSeqLen` (the positions of the current
generation the KV cache holds), the prompt length `initSeqLen`, the prefix
that `setPrefix` shares, the capacity of the activation buffer `actBuffers`
and the size of the attention mask. The serving loop drives it through
`forward(ids, dims, step, logitsAll)`, `setPrefix`, `unsetPrefix` and
`skipFirstStep`; `run` is a whole sequence of such calls.

`forward` is cut where the state is observed. `forwardBegin` is lines
321-357: the shapes of the call and the decoder when the embedding hook runs.
`forward` adds the update of `accSeqLen` (line 364) and the model's
`prepareAttnMask` hook (line 375), seen through the mask size it leaves; the
rest of `forward` (layers, final norm, predictor, beam replication) changes no
member. The buffers these shapes address are in `Buffers`, the rows the
predictor reads in `Logits`, the mask of `OptDecoder` in `Opt`.

All `int`s of the source are non-negative on the calls the serving loop
makes, and are `ℕ` here; `Int32` has the same computations wrapped to 32 bits.

Key definitions: `CommonDecoder`, `prepareBuffers`, `forwardBegin`, `forward`,
`Call.apply`, `run`.
Key theorems: `forward_accSeqLen`, `embedding_accSeqLen`, `run_forward_pastSeqLen`.
-/
import Mathlib.Order.MinMax
import Mathlib.Data.List.Basic

namespace XftDecoder

/-- The fields of `DecoderContext` the decoder reads: the shapes of the call,
which `resize` sets, and the model sizes read from `config.ini`. -/
structure DecoderContext where
  batchSize : ℕ
  inputSeqLen : ℕ
  pastSeqLen : ℕ
  hiddenSize : ℕ
  vocabSize : ℕ
  maxPositions : ℕ
  deriving DecidableEq, Repr

/-- Modelled from the spec: `DecoderContext::resize` is not under src/; it
"recomputes all shape-derived fields" from its arguments (§4.1). -/
def DecoderContext.resize (ctx : DecoderContext) (batchSize inputSeqLen pastSeqLen : ℕ) :
    DecoderContext :=
  { ctx with batchSize, inputSeqLen, pastSeqLen }

section Resize

variable (ctx : DecoderContext) (b l p : ℕ)

@[simp] theorem resize_batchSize : (ctx.resize b l p).batchSize = b := rfl
@[simp] theorem resize_inputSeqLen : (ctx.resize b l p).inputSeqLen = l := rfl
@[simp] theorem resize_hiddenSize : (ctx.resize b l p).hiddenSize = ctx.hiddenSize := rfl
@[simp] theorem resize_vocabSize : (ctx.resize b l p).vocabSize = ctx.vocabSize := rfl
@[simp] theorem resize_maxPositions : (ctx.resize b l p).maxPositions = ctx.maxPositions := rfl

end Resize

/-- The members of `CommonDecoder` that its calls read and write.
`actBuffers` is the capacity of the activation matrix in floats, `maskSize`
that of the attention mask. -/
structure CommonDecoder where
  ctx : DecoderContext
  initSeqLen : ℕ
  accSeqLen : ℕ
  prefixSeqLen : ℕ
  prefixSharing : Bool
  actBuffers : ℕ
  maskSize : ℕ
  deriving DecidableEq, Repr

/-- A freshly constructed decoder (lines 208-240): no prefix, empty buffers. -/
def CommonDecoder.init (ctx : DecoderContext) : CommonDecoder := ⟨ctx, 0, 0, 0, false, 0, 0⟩

/-! ### Buffers -/

/-- Modelled from the spec: `xft::Matrix::Resize` is not under src/; the
activation buffer is "resized (never shrunk) as needed" (§3), so its capacity
is the largest `rows * cols` asked for so far. -/
def resizeCapacity (cap rows cols : ℕ) : ℕ := max cap (rows * cols)

/-- `getAttnMask(sizeRequired)` (lines 922-929), through the size of the mask
it returns: a larger request reallocates. -/
def getAttnMask (maskSize sizeRequired : ℕ) : ℕ :=
  if maskSize < sizeRequired then sizeRequired else maskSize

theorem le_getAttnMask (maskSize sizeRequired : ℕ) : sizeRequired ≤ getAttnMask maskSize sizeRequired := by
  unfold getAttnMask; split <;> omega

/-- The rows of width `hiddenSize` that `prepareBuffers` adds after the
activation rows for the logits (lines 892-893). -/
def outRows (logitsLen vocabSize actRows hiddenSize : ℕ) : ℕ :=
  if logitsLen * vocabSize > actRows * hiddenSize then logitsLen * vocabSize / hiddenSize + 1
  else actRows

/-- `prepareBuffers(ctx, userSideBS, beamSize, logitsAll, prefix)` (lines
876-910). The last argument and the KV cache resize are left out: the KV
cache manager is not under src/. -/
def prepareBuffers (d : CommonDecoder) (userSideBS beamSize : ℕ) (logitsAll : Bool) :
    CommonDecoder :=
  let batchSize := d.ctx.batchSize
  let hiddenSize := d.ctx.hiddenSize
  let seqLen := d.ctx.inputSeqLen
  let logitsLen := if logitsAll then batchSize * seqLen else userSideBS * beamSize
  let actRows := batchSize * seqLen
  { d with
    actBuffers := resizeCapacity d.actBuffers
      (actRows + outRows logitsLen d.ctx.vocabSize actRows hiddenSize) hiddenSize
    maskSize := getAttnMask d.maskSize (batchSize * seqLen * seqLen) }

@[simp] theorem prepareBuffers_ctx (d : CommonDecoder) (u k : ℕ) (la : Bool) :
    (prepareBuffers d u k la).ctx = d.ctx := rfl
@[simp] theorem prepareBuffers_accSeqLen (d : CommonDecoder) (u k : ℕ) (la : Bool) :
    (prepareBuffers d u k la).accSeqLen = d.accSeqLen := rfl
@[simp] theorem prepareBuffers_initSeqLen (d : CommonDecoder) (u k : ℕ) (la : Bool) :
    (prepareBuffers d u k la).initSeqLen = d.initSeqLen := rfl
@[simp] theorem prepareBuffers_prefixSeqLen (d : CommonDecoder) (u k : ℕ) (la : Bool) :
    (prepareBuffers d u k la).prefixSeqLen = d.prefixSeqLen := rfl
@[simp] theorem prepareBuffers_prefixSharing (d : CommonDecoder) (u k : ℕ) (la : Bool) :
    (prepareBuffers d u k la).prefixSharing = d.prefixSharing := rfl

/-! ### `forward` -/

/-- The `dims` argument of `forward`: `[userSideBS][beamSize][seqLen]`. -/
structure Dims where
  userSideBS : ℕ
  beamSize : ℕ
  seqLen : ℕ
  deriving DecidableEq, Repr

/-- The local shapes of one `forward` call. -/
structure Shape where
  batchSize : ℕ
  seqLen : ℕ
  pastSeqLen : ℕ
  inputSeqLen : ℕ
  deriving DecidableEq, Repr

/-- Lines 321-357 of `forward`: the shapes of the call and the decoder when
the embedding hook is called. Step 0 restarts the generation, splits off the
shared prefix and enlarges the buffers. -/
def forwardBegin (d : CommonDecoder) (dims : Dims) (step : ℕ) (logitsAll : Bool) :
    Shape × CommonDecoder :=
  let batchSize := if step = 0 then dims.userSideBS else dims.userSideBS * dims.beamSize
  let seqLen := dims.seqLen
  let pastSeqLen := if step = 0 then 0 else d.accSeqLen
  let d := { d with ctx := d.ctx.resize batchSize seqLen pastSeqLen }
  if step = 0 then
    let d := { d with initSeqLen := seqLen, accSeqLen := 0 }
    if d.prefixSharing then
      let pastSeqLen := d.prefixSeqLen
      let inputSeqLen := seqLen - pastSeqLen
      let d := { d with ctx := d.ctx.resize batchSize inputSeqLen pastSeqLen }
      (⟨batchSize, seqLen, pastSeqLen, inputSeqLen⟩,
        prepareBuffers d dims.userSideBS dims.beamSize logitsAll)
    else
      (⟨batchSize, seqLen, pastSeqLen, seqLen⟩,
        prepareBuffers d dims.userSideBS dims.beamSize logitsAll)
  else (⟨batchSize, seqLen, pastSeqLen, seqLen⟩, d)

/-- The decoder when `forward` calls `prepareAttnMask`: `forwardBegin`, then
`accSeqLen += seqLen` (line 364). -/
def forwardAtMask (d : CommonDecoder) (dims : Dims) (step : ℕ) (logitsAll : Bool) : CommonDecoder :=
  let r := forwardBegin d dims step logitsAll
  { r.2 with accSeqLen := r.2.accSeqLen + r.1.seqLen }

/-- `forward` through the members it changes: `forwardAtMask`, then the
model's hook `prepareAttnMask(ids, step + prefixSharing)` (line 375), which
leaves the mask size `prepareAttnMask d s`. -/
def forward (prepareAttnMask : CommonDecoder → ℕ → ℕ) (d : CommonDecoder) (dims : Dims)
    (step : ℕ) (logitsAll : Bool) : CommonDecoder :=
  let d := forwardAtMask d dims step logitsAll
  { d with maskSize := prepareAttnMask d (step + d.prefixSharing.toNat) }

section Begin

variable (d : CommonDecoder) (dims : Dims) (step : ℕ) (la : Bool)

theorem forwardBegin_batchSize : (forwardBegin d dims step la).1.batchSize =
    if step = 0 then dims.userSideBS else dims.userSideBS * dims.beamSize := by
  simp only [forwardBegin]; split_ifs <;> rfl

theorem forwardBegin_seqLen : (forwardBegin d dims step la).1.seqLen = dims.seqLen := by
  simp only [forwardBegin]; split_ifs <;> rfl

theorem forwardBegin_pastSeqLen : (forwardBegin d dims step la).1.pastSeqLen =
    if step = 0 then (if d.prefixSharing then d.prefixSeqLen else 0) else d.accSeqLen := by
  simp only [forwardBegin]; split_ifs <;> rfl

theorem forwardBegin_inputSeqLen : (forwardBegin d dims step la).1.inputSeqLen =
    if step = 0 ∧ d.prefixSharing then dims.seqLen - d.prefixSeqLen else dims.seqLen := by
  simp only [forwardBegin]; split_ifs <;> simp_all

theorem forwardBegin_accSeqLen :
    (forwardBegin d dims step la).2.accSeqLen = if step = 0 then 0 else d.accSeqLen := by
  simp only [forwardBegin]; split_ifs <;> rfl

@[simp] theorem forwardBegin_prefixSharing :
    (forwardBegin d dims step la).2.prefixSharing = d.prefixSharing := by
  simp only [forwardBegin]; split_ifs <;> rfl

@[simp] theorem forwardBegin_prefixSeqLen :
    (forwardBegin d dims step la).2.prefixSeqLen = d.prefixSeqLen := by
  simp only [forwardBegin]; split_ifs <;> rfl

/-- The context the hooks read holds the call's batch size and new tokens. -/
theorem forwardBegin_ctx : (forwardBegin d dims step la).2.ctx =
    d.ctx.resize (forwardBegin d dims step la).1.batchSize
      (forwardBegin d dims step la).1.inputSeqLen (forwardBegin d dims step la).1.pastSeqLen := by
  simp only [forwardBegin]; split_ifs <;> rfl

theorem forwardBegin_actBuffers_of_pos (h : step ≠ 0) :
    (forwardBegin d dims step la).2.actBuffers = d.actBuffers := by
  simp [forwardBegin, h]

end Begin

section Forward

variable (p : CommonDecoder → ℕ → ℕ) (d : CommonDecoder) (dims : Dims) (step : ℕ) (la : Bool)

@[simp] theorem forward_prefixSharing : (forward p d dims step la).prefixSharing = d.prefixSharing :=
  forwardBegin_prefixSharing d dims step la

@[simp] theorem forward_prefixSeqLen : (forward p d dims step la).prefixSeqLen = d.prefixSeqLen :=
  forwardBegin_prefixSeqLen d dims step la

@[simp] theorem forward_ctx : (forward p d dims step la).ctx = (forwardBegin d dims step la).2.ctx := rfl

@[simp] theorem forward_actBuffers :
    (forward p d dims step la).actBuffers = (forwardBegin d dims step la).2.actBuffers := rfl

/-- At the embedding hook `accSeqLen` is the call's `pastSeqLen`, except at
step 0 under prefix sharing, where it has just been reset to 0 while the new
tokens start after the prefix. -/
theorem embedding_accSeqLen : (forwardBegin d dims step la).2.accSeqLen +
    (if step = 0 ∧ d.prefixSharing then d.prefixSeqLen else 0) =
      (forwardBegin d dims step la).1.pastSeqLen := by
  rw [forwardBegin_accSeqLen, forwardBegin_pastSeqLen]
  split_ifs <;> simp_all

@[simp] theorem forwardAtMask_ctx :
    (forwardAtMask d dims step la).ctx = (forwardBegin d dims step la).2.ctx := rfl

@[simp] theorem forwardAtMask_prefixSharing :
    (forwardAtMask d dims step la).prefixSharing = d.prefixSharing :=
  forwardBegin_prefixSharing d dims step la

/-- From the line after the embedding on, `accSeqLen` is the call's
`pastSeqLen + inputSeqLen`, provided a prompt under prefix sharing is at least
the prefix. -/
theorem forwardAtMask_accSeqLen (hpre : step = 0 → d.prefixSharing → d.prefixSeqLen ≤ dims.seqLen) :
    (forwardAtMask d dims step la).accSeqLen =
      (forwardBegin d dims step la).1.pastSeqLen + (forwardBegin d dims step la).1.inputSeqLen := by
  show (forwardBegin d dims step la).2.accSeqLen + (forwardBegin d dims step la).1.seqLen = _
  rw [forwardBegin_accSeqLen, forwardBegin_seqLen, forwardBegin_pastSeqLen, forwardBegin_inputSeqLen]
  split_ifs <;> simp_all

/-- **The accumulated length after a call.** When `forward` returns,
`accSeqLen` is the call's `pastSeqLen + inputSeqLen`, the positions of the
generation the KV cache holds, provided a prompt under prefix sharing is at
least the prefix. -/
theorem forward_accSeqLen (hpre : step = 0 → d.prefixSharing → d.prefixSeqLen ≤ dims.seqLen) :
    (forward p d dims step la).accSeqLen =
      (forwardBegin d dims step la).1.pastSeqLen + (forwardBegin d dims step la).1.inputSeqLen :=
  forwardAtMask_accSeqLen d dims step la hpre

end Forward

/-! ### The other calls -/

/-- `prefixForward(ids, seqLen)` (lines 703-771) through the members it
changes: the context, the buffers and the mask of a one-row prompt. -/
def prefixForward (prepareAttnMask : CommonDecoder → ℕ → ℕ) (d : CommonDecoder) (seqLen : ℕ) :
    CommonDecoder :=
  let d := prepareBuffers { d with ctx := d.ctx.resize 1 seqLen 0 } 1 1 false
  { d with maskSize := prepareAttnMask d 0 }

/-- `setPrefix(ids, seqLen)` (lines 695-699). -/
def setPrefix (prepareAttnMask : CommonDecoder → ℕ → ℕ) (d : CommonDecoder) (seqLen : ℕ) :
    CommonDecoder :=
  prefixForward prepareAttnMask { d with prefixSharing := true, prefixSeqLen := seqLen } seqLen

/-- `unsetPrefix()` (line 701). -/
def unsetPrefix (d : CommonDecoder) : CommonDecoder := { d with prefixSharing := false }

/-- `skipFirstStep(initSeqLen)` (lines 806-810). -/
def skipFirstStep (d : CommonDecoder) (initSeqLen : ℕ) : CommonDecoder :=
  { d with initSeqLen, accSeqLen := initSeqLen }

/-- A call of the serving loop on the decoder. -/
inductive Call
  | forward (dims : Dims) (step : ℕ) (logitsAll : Bool)
  | setPrefix (seqLen : ℕ)
  | unsetPrefix
  | skipFirstStep (initSeqLen : ℕ)
  deriving DecidableEq, Repr

/-- One call, with the model's `prepareAttnMask` hook. -/
def Call.apply (prepareAttnMask : CommonDecoder → ℕ → ℕ) (d : CommonDecoder) : Call → CommonDecoder
  | .forward dims step logitsAll => XftDecoder.forward prepareAttnMask d dims step logitsAll
  | .setPrefix seqLen => XftDecoder.setPrefix prepareAttnMask d seqLen
  | .unsetPrefix => XftDecoder.unsetPrefix d
  | .skipFirstStep n => XftDecoder.skipFirstStep d n

/-- A sequence of calls, in order. -/
def run (prepareAttnMask : CommonDecoder → ℕ → ℕ) (d : CommonDecoder) (cs : List Call) :
    CommonDecoder :=
  cs.foldl (Call.apply prepareAttnMask) d

theorem run_append (p : CommonDecoder → ℕ → ℕ) (d : CommonDecoder) (cs cs' : List Call) :
    run p d (cs ++ cs') = run p (run p d cs) cs' := List.foldl_append _ _ _ _

@[simp] theorem run_cons (p : CommonDecoder → ℕ → ℕ) (d : CommonDecoder) (c : Call) (cs : List Call) :
    run p d (c :: cs) = run p (c.apply p d) cs := rfl

/-! ### The generation across calls -/

/-- The calls that leave the current generation alone. -/
def Call.keepsGeneration : Call → Bool
  | .setPrefix _ | .unsetPrefix => true
  | _ => false

theorem accSeqLen_run_of_keeps (p : CommonDecoder → ℕ → ℕ) :
    ∀ (d : CommonDecoder) (cs : List Call), (∀ c ∈ cs, c.keepsGeneration) →
      (run p d cs).accSeqLen = d.accSeqLen
  | _, [], _ => rfl
  | d, c :: cs, h => by
    rw [run_cons, accSeqLen_run_of_keeps p _ cs fun c hc => h c (List.mem_cons_of_mem _ hc)]
    have := h c (List.mem_cons_self _ _)
    cases c <;> first | rfl | simp [Call.keepsGeneration] at this

/-- **The next step starts where the last one ended.** In a run, a `forward`
at a step after 0 that follows a `forward` with only `setPrefix` and
`unsetPrefix` calls between them starts from the `pastSeqLen + inputSeqLen`
of that earlier call. -/
theorem run_forward_pastSeqLen (p : CommonDecoder → ℕ → ℕ) (d : CommonDecoder) (dims dims' : Dims)
    (step step' : ℕ) (la la' : Bool) (mid : List Call) (hmid : ∀ c ∈ mid, c.keepsGeneration)
    (hpre : step = 0 → d.prefixSharing → d.prefixSeqLen ≤ dims.seqLen) (hstep : step' ≠ 0) :
    (forwardBegin (run p d (.forward dims step la :: mid)) dims' step' la').1.pastSeqLen =
      (forwardBegin d dims step la).1.pastSeqLen + (forwardBegin d dims step la).1.inputSeqLen := by
  rw [forwardBegin_pastSeqLen, if_neg hstep, run_cons, accSeqLen_run_of_keeps p _ _ hmid]
  exact forward_accSeqLen p d dims step la hpre

/-- A prompt of five tokens, then `unsetPrefix`: the first decode step starts
from position 5. -/
theorem run_forward_pastSeqLen_decode :
    (forwardBegin (run (fun d _ => d.maskSize) (CommonDecoder.init ⟨0, 0, 0, 8, 8, 16⟩)
      [.forward ⟨1, 1, 5⟩ 0 false, .unsetPrefix]) ⟨1, 1, 1⟩ 1 false).1.pastSeqLen = 0 + 5 :=
  run_forward_pastSeqLen _ _ _ _ 0 1 false false [.unsetPrefix] (by decide) (by decide) (by decide)

end XftDecoder
