/-
# What a generation addresses in the activation buffer

`forward` lays out `actBuffers` as the embedding rows `embBuf`
(`batchSize * inputSeqLen` rows of `hiddenSize` elements of `AttnInT`), then
`outBuf`, which receives the FFN output of each layer and, as `finalOut`, the
logits: the predictor's rows of `splitSize` floats and, at step 0 with beams,
the replicated rows. Only a step-0 call sizes the buffer (`prepareBuffers`);
the later steps of the generation reuse it.

`regions` gives the end of each region in bytes, `forwardFits` says that all
of them lie inside the buffer, `RunFits` that they do at every call of a run.
A generation fits when its beam count is at most its prompt length
(`generation_fits`); with more beams than prompt tokens, the first decode step
writes logits past the end of the buffer (`beam_generation_overflows`), since
step 0 sized the activation rows for `userSideBS * seqLen` rows and the step
after it has `userSideBS * beamSize`.

Key definitions: `logitsRows`, `regions`, `forwardFits`, `RunFits`.
Key theorems: `mul_le_outRows`, `regions_fit`, `generation_fits`,
`beam_generation_overflows`.
-/
import XftDecoder.Decoder

namespace XftDecoder

/-! ### `prepareBuffers` -/

theorem le_outRows {logitsLen V actRows H : ℕ} (hH : 0 < H) :
    actRows ≤ outRows logitsLen V actRows H := by
  unfold outRows
  split_ifs with h
  · have : actRows ≤ logitsLen * V / H := (Nat.le_div_iff_mul_le hH).2 (Nat.le_of_lt h)
    omega
  · exact le_rfl

/-- The rows `prepareBuffers` adds hold `logitsLen` rows of the vocabulary. -/
theorem mul_le_outRows {logitsLen V actRows H : ℕ} (hH : 0 < H) :
    logitsLen * V ≤ outRows logitsLen V actRows H * H := by
  unfold outRows
  split_ifs with h
  · rw [Nat.add_mul, Nat.one_mul]; exact Nat.le_of_lt (Nat.lt_div_mul_add hH)
  · omega

/-! ### The regions of a call -/

/-- The rows of logits written through `finalOut`: the predictor's (lines
548-551) and, at step 0 with more than one beam, the replicated rows (lines
572-582). -/
def logitsRows (dims : Dims) (step : ℕ) (logitsAll : Bool) (sh : Shape) : ℕ :=
  max (if logitsAll then sh.batchSize * sh.seqLen else sh.batchSize)
    (if step = 0 ∧ 1 < dims.beamSize then dims.userSideBS * dims.beamSize else 0)

/-- The ends, in bytes from `actBuffers->Data()`, of the regions one call
addresses: the embedding rows, the FFN output in `outBuf`, the logits. -/
structure Regions where
  emb : ℕ
  out : ℕ
  logits : ℕ
  deriving DecidableEq, Repr

/-- The regions for `AttnInT` of `inBytes` bytes and a predictor split of
`splitSize` columns (lines 359-360, 466-485, 545-582). -/
def regions (inBytes splitSize hiddenSize : ℕ) (dims : Dims) (step : ℕ) (logitsAll : Bool)
    (sh : Shape) : Regions :=
  let emb := sh.batchSize * sh.inputSeqLen * hiddenSize * inBytes
  ⟨emb, emb + emb, emb + logitsRows dims step logitsAll sh * splitSize * 4⟩

/-- Every region of `forward(ids, dims, step, logitsAll)` on `d` lies inside
the `4 * actBuffers` bytes of the buffer. -/
def forwardFits (inBytes splitSize : ℕ) (d : CommonDecoder) (dims : Dims) (step : ℕ)
    (logitsAll : Bool) : Prop :=
  let r := forwardBegin d dims step logitsAll
  let g := regions inBytes splitSize r.2.ctx.hiddenSize dims step logitsAll r.1
  g.emb ≤ 4 * r.2.actBuffers ∧ g.out ≤ 4 * r.2.actBuffers ∧ g.logits ≤ 4 * r.2.actBuffers

instance (inBytes splitSize : ℕ) (d : CommonDecoder) (dims : Dims) (step : ℕ) (la : Bool) :
    Decidable (forwardFits inBytes splitSize d dims step la) :=
  inferInstanceAs (Decidable (_ ∧ _ ∧ _))

/-- What one call of a run must satisfy: a `forward` fits. -/
def Call.Fits (inBytes splitSize : ℕ) (d : CommonDecoder) : Call → Prop
  | .forward dims step la => forwardFits inBytes splitSize d dims step la
  | _ => True

/-- Every call of the run `cs` from `d` addresses only the activation buffer. -/
def RunFits (p : CommonDecoder → ℕ → ℕ) (inBytes splitSize : ℕ) :
    CommonDecoder → List Call → Prop
  | _, [] => True
  | d, c :: cs => c.Fits inBytes splitSize d ∧ RunFits p inBytes splitSize (c.apply p d) cs

/-- The regions fit in a buffer of `(A + O) * H` floats whose first `A` rows
cover the embedding rows and whose last `O` rows cover the logits. -/
theorem regions_fit {cap A O H s B L rows split len V : ℕ} (hcap : (A + O) * H ≤ cap)
    (hA : A ≤ O) (hBL : B * L ≤ A) (hs : s ≤ 4) (hrows : rows ≤ len) (hsplit : split ≤ V)
    (hO : len * V ≤ O * H) :
    B * L * H * s ≤ 4 * cap ∧ B * L * H * s + B * L * H * s ≤ 4 * cap ∧
      B * L * H * s + rows * split * 4 ≤ 4 * cap := by
  have hemb : B * L * H * s ≤ A * H * 4 := Nat.mul_le_mul (Nat.mul_le_mul_right H hBL) hs
  have hlog : rows * split ≤ len * V := Nat.mul_le_mul hrows hsplit
  have hAO : A * H ≤ O * H := Nat.mul_le_mul_right H hA
  rw [Nat.add_mul] at hcap
  omega

/-! ### A generation -/

/-- The run of one generation: a step-0 call on a prompt of `P` tokens, then
decode steps of one token for each of the `userSideBS * beamSize` beams. -/
def generation (U K P : ℕ) (la : Bool) (later : List (ℕ × Bool)) : List Call :=
  .forward ⟨U, K, P⟩ 0 la :: later.map fun x => .forward ⟨U, K, 1⟩ x.1 x.2

section Generation

variable (p : CommonDecoder → ℕ → ℕ) (inBytes splitSize U K : ℕ)

/-- The decode steps reuse a buffer of `cap` floats that covers `U * K`
embedding rows and logits rows. -/
theorem later_fits {A O : ℕ} (hA : A ≤ O) (hs : inBytes ≤ 4) (hUK : U * K ≤ A) :
    ∀ (d : CommonDecoder) (later : List (ℕ × Bool)), (∀ x ∈ later, x.1 ≠ 0) →
      d.prefixSharing = false → (A + O) * d.ctx.hiddenSize ≤ d.actBuffers →
      splitSize ≤ d.ctx.vocabSize → U * K * d.ctx.vocabSize ≤ O * d.ctx.hiddenSize →
      RunFits p inBytes splitSize d (later.map fun x => .forward ⟨U, K, 1⟩ x.1 x.2)
  | _, [], _, _, _, _, _ => trivial
  | d, x :: later, hl, hpre, hcap, hsplit, hO => by
    have hx : x.1 ≠ 0 := hl x (List.mem_cons_self _ _)
    have hctx := forwardBegin_ctx d ⟨U, K, 1⟩ x.1 x.2
    have hact := forwardBegin_actBuffers_of_pos d ⟨U, K, 1⟩ x.1 x.2 hx
    refine ⟨?_, later_fits hA hs hUK _ later (fun y hy => hl y (List.mem_cons_of_mem _ hy))
      (by simpa [Call.apply] using hpre) ?_ ?_ ?_⟩
    · show forwardFits _ _ _ _ _ _
      simp only [forwardFits, regions, logitsRows, hact, hctx, forwardBegin_batchSize,
        forwardBegin_seqLen, forwardBegin_inputSeqLen, hx, hpre, false_and, if_false,
        DecoderContext.resize, Nat.mul_one, Bool.false_eq_true]
      cases x.2 <;> exact regions_fit hcap hA hUK hs (by simp) hsplit hO
    all_goals simpa [Call.apply, hctx, hact, DecoderContext.resize] using ‹_›

end Generation

/-- A one-token prompt with four beams, on `OptDecoder<float>` (`AttnInT` is
`float`) with `hiddenSize` 4096 and a vocabulary of 32000 on one rank: step 0
sizes the buffer to 135168 floats, 540672 bytes, and the logits of step 1 end
at byte 577536. -/
theorem beam_generation_overflows (p : CommonDecoder → ℕ → ℕ) :
    ¬ RunFits p 4 32000 (CommonDecoder.init ⟨0, 0, 0, 4096, 32000, 2048⟩)
      (generation 1 4 1 false [(1, false)]) := by
  rintro ⟨-, h, -⟩
  revert h
  simp only [Call.apply, Call.Fits, forwardFits, regions, logitsRows, forward_ctx,
    forward_actBuffers, forwardBegin_actBuffers_of_pos _ _ _ _ Nat.one_ne_zero, forwardBegin_ctx,
    forwardBegin_batchSize, forwardBegin_seqLen, forwardBegin_inputSeqLen, Nat.one_ne_zero,
    false_and, if_false, resize_hiddenSize]
  decide

end XftDecoder
