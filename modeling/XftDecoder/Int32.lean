/-
# The `int` arithmetic of the buffer sizes

`prepareBuffers` (lines 876-899) computes the sizes of the activation buffer
and of the attention mask in 32-bit `int`. The rest of the model computes
them in ℕ. Here they are computed as the compiled code computes them: every
product, sum and quotient wrapped to 32 bits, two's complement (`int32`).

When no intermediate value reaches 2^31 the `int` computation is the exact
one, so on such shapes the ℕ model is the code (`prepareBuffersInt_eq`). A
prompt of 16384 tokens with `logitsAll` and a vocabulary of 152064 entries
is beyond them: `logitsLen * vocabSize` wraps to a negative `int`, the test
of line 893 fails, and the buffer gets 32768 rows where the logits need
711534 (`logitsAll_rows_wrap`).

`Matrix::Resize` is not under src/: the row count it is given is read as a
size, a negative one as 0.

Key definitions: `int32`, `imul`, `prepareBuffersInt`.
Key theorems: `int32_of_lt`, `prepareBuffersInt_eq`, `logitsAll_rows_wrap`.
-/
import XftDecoder.Decoder
import Mathlib

namespace XftDecoder

/-- The value a 32-bit two's-complement `int` holds for the exact result `x`. -/
def int32 (x : ℤ) : ℤ := x.bmod (2 ^ 32)

/-- `a * b` on `int`. -/
def imul (a b : ℤ) : ℤ := int32 (a * b)

/-- `a + b` on `int`. -/
def iadd (a b : ℤ) : ℤ := int32 (a + b)

/-- `a / b` on `int`, rounding toward zero. -/
def idiv (a b : ℤ) : ℤ := int32 (a.tdiv b)

theorem int32_of_lt {x : ℤ} (h0 : 0 ≤ x) (h : x < 2 ^ 31) : int32 x = x := by
  rw [int32, Int.bmod_def, Int.emod_eq_of_lt h0 (by omega), if_pos (by omega)]

section Nat

variable {a b : ℕ}

theorem imul_natCast (h : a * b < 2 ^ 31) : imul a b = ↑(a * b) := by
  rw [imul, ← Int.natCast_mul, int32_of_lt (Int.natCast_nonneg _) (Int.ofNat_lt.2 h)]

theorem iadd_natCast (h : a + b < 2 ^ 31) : iadd a b = ↑(a + b) := by
  rw [iadd, ← Int.natCast_add, int32_of_lt (Int.natCast_nonneg _) (Int.ofNat_lt.2 h)]

theorem idiv_natCast (h : a / b < 2 ^ 31) : idiv a b = ↑(a / b) := by
  rw [idiv, ← Int.ofNat_tdiv, int32_of_lt (Int.natCast_nonneg _) (Int.ofNat_lt.2 h)]

end Nat

/-! ### `prepareBuffers` -/

/-- `prepareBuffers(ctx, userSideBS, beamSize, logitsAll)` with the sizes of
lines 888-897 computed in `int`. -/
def prepareBuffersInt (d : CommonDecoder) (userSideBS beamSize : ℕ) (logitsAll : Bool) :
    CommonDecoder :=
  let batchSize : ℤ := d.ctx.batchSize
  let hiddenSize : ℤ := d.ctx.hiddenSize
  let seqLen : ℤ := d.ctx.inputSeqLen
  let vocabSize : ℤ := d.ctx.vocabSize
  let logitsLen := if logitsAll then imul batchSize seqLen else imul userSideBS beamSize
  let actRows := imul batchSize seqLen
  let outRows := if imul logitsLen vocabSize > imul actRows hiddenSize then
      iadd (idiv (imul logitsLen vocabSize) hiddenSize) 1
    else actRows
  { d with
    actBuffers := resizeCapacity d.actBuffers (iadd actRows outRows).toNat d.ctx.hiddenSize
    maskSize := getAttnMask d.maskSize (imul (imul batchSize seqLen) seqLen).toNat }

/-- The exact values of the `int` expressions of lines 888-897. -/
def prepareBuffersTerms (d : CommonDecoder) (userSideBS beamSize : ℕ) (logitsAll : Bool) : List ℕ :=
  let B := d.ctx.batchSize
  let H := d.ctx.hiddenSize
  let L := d.ctx.inputSeqLen
  let V := d.ctx.vocabSize
  let logitsLen := if logitsAll then B * L else userSideBS * beamSize
  [B * L, userSideBS * beamSize, logitsLen * V, B * L * H, logitsLen * V / H + 1,
    B * L + outRows logitsLen V (B * L) H, B * L * L]

/-- The test and the quotient of line 893, in `int`, are those of `outRows`
when nothing wraps. -/
theorem outRowsInt_eq {n V A H : ℕ} (hnV : n * V < 2 ^ 31) (hAH : A * H < 2 ^ 31)
    (hdiv : n * V / H + 1 < 2 ^ 31) :
    (if imul n V > imul A H then iadd (idiv (imul n V) H) 1 else (A : ℤ)) = outRows n V A H := by
  rw [imul_natCast hnV, imul_natCast hAH, outRows]
  by_cases h : n * V > A * H
  · rw [if_pos (Int.ofNat_lt.2 h), if_pos h, idiv_natCast (by omega),
      show (1 : ℤ) = ((1 : ℕ) : ℤ) from rfl, iadd_natCast hdiv]
  · rw [if_neg (mt Int.ofNat_lt.1 h), if_neg h]

/-- **Without a wrap the `int` sizes are the exact ones.** When every
intermediate value of `prepareBuffers` is below 2^31, the compiled
computation sizes the buffer and the mask as the ℕ model does. -/
theorem prepareBuffersInt_eq (d : CommonDecoder) (userSideBS beamSize : ℕ) (logitsAll : Bool)
    (h : ∀ x ∈ prepareBuffersTerms d userSideBS beamSize logitsAll, x < 2 ^ 31) :
    prepareBuffersInt d userSideBS beamSize logitsAll = prepareBuffers d userSideBS beamSize logitsAll := by
  simp only [prepareBuffersTerms, List.mem_cons, List.mem_singleton, forall_eq_or_imp, forall_eq,
    List.not_mem_nil, or_false] at h
  obtain ⟨hBL, huk, hLV, hBLH, hdiv, hrows, hBLL⟩ := h
  have hlen : (if logitsAll then imul d.ctx.batchSize d.ctx.inputSeqLen else imul userSideBS beamSize) =
      ↑(if logitsAll then d.ctx.batchSize * d.ctx.inputSeqLen else userSideBS * beamSize) := by
    split <;> simp only [imul_natCast hBL, imul_natCast huk]
  simp only [prepareBuffersInt, prepareBuffers]
  rw [hlen, imul_natCast hBL, outRowsInt_eq hLV hBLH hdiv, iadd_natCast hrows, imul_natCast hBLL, Int.toNat_natCast,
    Int.toNat_natCast]

/-- A prompt of four tokens, hidden size 8 and a vocabulary of 16 entries. -/
theorem prepareBuffersInt_eq_small :
    prepareBuffersInt (CommonDecoder.init ⟨1, 4, 0, 8, 16, 32⟩) 1 1 true =
      prepareBuffers (CommonDecoder.init ⟨1, 4, 0, 8, 16, 32⟩) 1 1 true :=
  prepareBuffersInt_eq _ 1 1 true (by decide)

/-- A decoder whose context `forward(ids, (1, 1, 16384), 0, true)` has just
resized, for a model of hidden size 3584, a vocabulary of 152064 entries and
32768 positions. -/
def longPromptDecoder : CommonDecoder := CommonDecoder.init ⟨1, 16384, 0, 3584, 152064, 32768⟩

/-- **`logitsLen * vocabSize` wraps.** For a prompt of 16384 tokens with
`logitsAll`, the `int` product of line 893 is negative, so `prepareBuffers`
sizes the buffer for the 16384 activation rows twice over, 32768 rows, where
the exact computation gives the 711534 rows that hold the logits. -/
theorem logitsAll_rows_wrap :
    imul 16384 152064 < 0 ∧
      (prepareBuffersInt longPromptDecoder 1 1 true).actBuffers = 32768 * 3584 ∧
      (prepareBuffers longPromptDecoder 1 1 true).actBuffers = 711534 * 3584 := by
  decide

end XftDecoder
