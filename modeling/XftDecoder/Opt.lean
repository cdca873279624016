/-
# `OptDecoder`: the attention mask and the positions of the embedding

`OptDecoder` fills two hooks of `CommonDecoder::forward`. Its
`prepareAttnMask(ids, step)` (lines 72-92 of the model's source) writes, at
step 0, one causal `seqLen × seqLen` block per batch item: row `i` is `0` up
to column `i` and the lowest float after it. At any other step it writes
`batchSize * accSeqLen` zeros, a mask of one query row per item. `forward`
calls it with `step + prefixSharing` once `accSeqLen` counts the new tokens.
Its `embeddingForward` gives new token `i` the position `i + accSeqLen`
(lines 94-106).

A mask entry is a float, kept as its 32-bit pattern: `memset` to 0 leaves
`+0.0`, and `std::numeric_limits<float>::lowest()` is `0xFF7FFFFF`.

The mask is causal over absolute positions at step 0 without a prefix, and at
every later step of one new token; at any other step it is
`batchSize * (pastSeqLen + inputSeqLen)` zeros (`forward_attnMask`). That is
the case of the first step under prefix sharing: after `setPrefix` of 2
tokens a prompt of 5 gets the one-row zero mask of a decode step, in which
new token 0 sees the tokens after it, in a buffer of 9 entries where the
causal mask of its 3 rows needs 15 (`prefix_prompt_mask_one_row`). Under
prefix sharing at step 0 the embedding also runs while `accSeqLen` is still
0, so the new tokens get the positions of the prefix
(`prefix_embedding_positions`).

Key definitions: `prepareAttnMask`, `optPrepareAttnMask`, `embeddingPositions`.
Key theorems: `causalRow_row`, `prepareAttnMask_causal`, `forward_attnMask`,
`prefix_prompt_mask_one_row`.
-/
import XftDecoder.Memory
import XftDecoder.Decoder

namespace XftDecoder

/-- `0.0f` as a bit pattern: what `memset(mask, 0, …)` leaves. -/
def floatZero : BitVec 32 := 0

/-- `std::numeric_limits<float>::lowest()` as a bit pattern. -/
def floatLowest : BitVec 32 := 0xFF7FFFFF

theorem floatZero_ne_floatLowest : floatZero ≠ floatLowest := by decide

/-- The size `prepareAttnMask` asks `getAttnMask` for (lines 78, 88). -/
def maskSizeRequired (d : CommonDecoder) (step : ℕ) : ℕ :=
  if step = 0 then d.ctx.batchSize * d.ctx.inputSeqLen * d.ctx.inputSeqLen
  else d.ctx.batchSize * d.accSeqLen

/-- Lines 82-85, one row `i` of item `b`: offsets `[0, i]` of the row take
`0`, the `seqLen - i - 1` after them the lowest float. -/
def causalRow (L b : ℕ) (m : Mem (BitVec 32)) (i : ℕ) : Mem (BitVec 32) :=
  fill (fill m (b * L * L + i * L) (i + 1) floatZero) (b * L * L + i * L + i + 1) (L - i - 1)
    floatLowest

/-- `OptDecoder::prepareAttnMask(ids, step)`: the size of the mask after
`getAttnMask`, and the mask. -/
def prepareAttnMask (d : CommonDecoder) (step : ℕ) (m : Mem (BitVec 32)) : ℕ × Mem (BitVec 32) :=
  let seqLen := d.ctx.inputSeqLen
  let maskSize := getAttnMask d.maskSize (maskSizeRequired d step)
  if step = 0 then
    (maskSize, (List.range d.ctx.batchSize).foldl
      (fun m b => (List.range seqLen).foldl (causalRow seqLen b) m) m)
  else (maskSize, fill m 0 (d.ctx.batchSize * d.accSeqLen) floatZero)

/-- The hook `CommonDecoder::forward` calls, through the mask size it leaves. -/
def optPrepareAttnMask (d : CommonDecoder) (step : ℕ) : ℕ :=
  getAttnMask d.maskSize (maskSizeRequired d step)

theorem prepareAttnMask_fst (d : CommonDecoder) (step : ℕ) (m : Mem (BitVec 32)) :
    (prepareAttnMask d step m).1 = optPrepareAttnMask d step := by
  unfold prepareAttnMask; split_ifs <;> rfl

/-! ### Step 0: the causal blocks -/

/-- The entry a causal row holds at column `j`. -/
def causalEntry (i j : ℕ) : BitVec 32 := if j ≤ i then floatZero else floatLowest

/-- One iteration writes row `b * L + i` of width `L`, and nothing else. -/
theorem causalRow_row {L b i r j : ℕ} (m : Mem (BitVec 32)) (hi : i < L) (hj : j < L) :
    causalRow L b m i (r * L + j) =
      if r = b * L + i then causalEntry i j else m (r * L + j) := by
  have hrow : b * L * L + i * L = (b * L + i) * L := by rw [Nat.add_mul]
  unfold causalRow causalEntry
  rw [hrow]
  by_cases hr : r = b * L + i
  · subst hr
    rw [if_pos rfl]
    by_cases hji : j ≤ i
    · rw [fill_of_not_mem (by omega), fill_of_mem (by omega), if_pos hji]
    · rw [fill_of_mem (by omega), if_neg hji]
  · have := mt (row_mem_iff (d := b * L + i) hj).1 hr
    rw [if_neg hr, fill_of_not_mem (by omega), fill_of_not_mem (by omega)]

theorem causalRows_row {L b r j : ℕ} (hj : j < L) :
    ∀ (is : List ℕ) (m : Mem (BitVec 32)), (∀ i ∈ is, i < L) →
      is.foldl (causalRow L b) m (r * L + j) =
        if b * L ≤ r ∧ r - b * L ∈ is then causalEntry (r - b * L) j else m (r * L + j)
  | [], m, _ => by simp
  | i :: is, m, his => by
    rw [List.foldl_cons, causalRows_row hj is _ (fun x hx => his x (List.mem_cons_of_mem _ hx)),
      causalRow_row m (his i (List.mem_cons_self _ _)) hj]
    by_cases hr : r = b * L + i
    · subst hr; simp
    · by_cases h : b * L ≤ r ∧ r - b * L ∈ is
      · rw [if_pos h, if_pos ⟨h.1, List.mem_cons_of_mem _ h.2⟩]
      · rw [if_neg h, if_neg hr, if_neg]
        rintro ⟨h1, h2⟩
        rcases List.mem_cons.1 h2 with h3 | h3
        · omega
        · exact h ⟨h1, h3⟩

/-- The blocks of the items `bs`: row `r` of an item of `bs` is its causal row. -/
theorem causalBlocks_row {L r j : ℕ} (hj : j < L) :
    ∀ (bs : List ℕ) (m : Mem (BitVec 32)),
      bs.foldl (fun m b => (List.range L).foldl (causalRow L b) m) m (r * L + j) =
        if r / L ∈ bs then causalEntry (r % L) j else m (r * L + j)
  | [], m => by simp
  | b :: bs, m => by
    have hL : 0 < L := by omega
    have hq : r / L * L + r % L = r := by rw [Nat.mul_comm]; exact Nat.div_add_mod r L
    rw [List.foldl_cons, causalBlocks_row hj bs, causalRows_row hj _ _ (fun i hi => List.mem_range.1 hi)]
    by_cases h1 : r / L ∈ bs
    · rw [if_pos h1, if_pos (List.mem_cons_of_mem _ h1)]
    · rw [if_neg h1]
      by_cases hb : r / L = b
      · subst hb
        have := Nat.mod_lt r hL
        rw [if_pos (List.mem_cons_self _ _), if_pos ⟨by omega, List.mem_range.2 (by omega)⟩,
          show r - r / L * L = r % L by omega]
      · rw [if_neg (show r / L ∉ b :: bs by simp [hb, h1]), if_neg]
        rintro ⟨h2, h3⟩
        exact hb (Nat.div_eq_of_lt_le h2 (by rw [Nat.succ_mul]; rw [List.mem_range] at h3; omega))

/-- **The step-0 mask is causal.** With no step, every entry `j` of row `i` of
item `b` is `0` up to `i` and the lowest float after it, and nothing past the
`batchSize * seqLen * seqLen` entries is written. -/
theorem prepareAttnMask_causal (d : CommonDecoder) (m : Mem (BitVec 32)) :
    (∀ b < d.ctx.batchSize, ∀ i < d.ctx.inputSeqLen, ∀ j < d.ctx.inputSeqLen,
      (prepareAttnMask d 0 m).2 ((b * d.ctx.inputSeqLen + i) * d.ctx.inputSeqLen + j) =
        causalEntry i j) ∧
    ∀ k, d.ctx.batchSize * d.ctx.inputSeqLen * d.ctx.inputSeqLen ≤ k →
      (prepareAttnMask d 0 m).2 k = m k := by
  simp only [prepareAttnMask, if_true]
  set L := d.ctx.inputSeqLen
  refine ⟨fun b hb i hi j hj => ?_, fun k hk => ?_⟩
  · have hdiv : (b * L + i) / L = b := Nat.div_eq_of_lt_le (by omega) (by rw [Nat.succ_mul]; omega)
    have hmod : (b * L + i) % L = i := by
      rw [Nat.add_comm, Nat.mul_comm, Nat.add_mul_mod_self_left, Nat.mod_eq_of_lt hi]
    rw [causalBlocks_row hj, hdiv, hmod, if_pos (List.mem_range.2 hb)]
  · rcases Nat.eq_zero_or_pos L with hL | hL
    · have : ∀ b (m' : Mem (BitVec 32)), (List.range L).foldl (causalRow L b) m' = m' := by
        intro b m'; rw [hL]; rfl
      simp only [this, List.foldl_fixed]
    · obtain ⟨r, j, hj, rfl⟩ := exists_row_col hL k
      have h1 : d.ctx.batchSize * L * L < (r + 1) * L := by rw [Nat.succ_mul]; omega
      have h2 : d.ctx.batchSize ≤ r / L :=
        (Nat.le_div_iff_mul_le hL).2 (Nat.le_of_lt_succ (Nat.lt_of_mul_lt_mul_right h1))
      rw [causalBlocks_row hj, if_neg (by rw [List.mem_range]; omega)]

/-! ### The mask of a `forward` call -/

/-- `prepareAttnMask` writes nothing past the size it leaves. -/
theorem maskSizeRequired_le (d : CommonDecoder) (step : ℕ) (m : Mem (BitVec 32)) :
    maskSizeRequired d step ≤ (prepareAttnMask d step m).1 := by
  rw [prepareAttnMask_fst]; exact le_getAttnMask _ _

/-- After step 0 the mask is `batchSize * accSeqLen` zeros. -/
theorem prepareAttnMask_snd_of_ne {step : ℕ} (h : step ≠ 0) (d : CommonDecoder) (m : Mem (BitVec 32)) :
    (prepareAttnMask d step m).2 = fill m 0 (d.ctx.batchSize * d.accSeqLen) floatZero := by
  simp only [prepareAttnMask, if_neg h]

/-- In a one-token decode the zeros are the causal row of the new token: row
`b` of width `past + 1` lies in the first `B * (past + 1)` entries, and every
column up to `past` is visible. -/
theorem fill_decode_causal {B past b j : ℕ} (m : Mem (BitVec 32)) (hb : b < B) (hj : j < past + 1) :
    fill m 0 (B * (past + 1)) floatZero (b * (past + 1) + j) = causalEntry past j := by
  have hrow : (b + 1) * (past + 1) ≤ B * (past + 1) := Nat.mul_le_mul_right _ hb
  rw [Nat.succ_mul] at hrow
  rw [fill_of_mem ⟨Nat.zero_le _, by omega⟩, causalEntry, if_pos (by omega)]

/-- **At the first step under prefix sharing the mask is the decode mask.**
After `setPrefix` of 2 tokens on a fresh decoder, a prompt of 5 tokens at
step 0 has a past of 2 and 3 new tokens. `forward` then calls
`prepareAttnMask(ids, 0 + 1)`, which writes the decode mask: the
`batchSize * (pastSeqLen + inputSeqLen)` zeros of one row, so new token 0
sees position 3, after it. `getAttnMask` returns the 9 entries
`prepareBuffers` asked for, fewer than the 3 rows of 5 of a causal mask. -/
theorem prefix_prompt_mask_one_row (ctx : DecoderContext) (m : Mem (BitVec 32)) :
    let d := setPrefix optPrepareAttnMask (CommonDecoder.init ctx) 2
    let sh := (forwardBegin d ⟨1, 1, 5⟩ 0 false).1
    let r := prepareAttnMask (forwardAtMask d ⟨1, 1, 5⟩ 0 false) (0 + d.prefixSharing.toNat) m
    sh.pastSeqLen = 2 ∧ sh.inputSeqLen = 3 ∧
      r.2 = fill m 0 (sh.batchSize * (sh.pastSeqLen + sh.inputSeqLen)) floatZero ∧
      r.1 < sh.batchSize * sh.inputSeqLen * (sh.pastSeqLen + sh.inputSeqLen) ∧
      r.2 ((0 * sh.inputSeqLen + 0) * (sh.pastSeqLen + sh.inputSeqLen) + 3) ≠
        causalEntry (sh.pastSeqLen + 0) 3 := by
  intro d sh r
  obtain ⟨hB, hP, hL⟩ : sh.batchSize = 1 ∧ sh.pastSeqLen = 2 ∧ sh.inputSeqLen = 3 := ⟨rfl, rfl, rfl⟩
  have hmask : r.2 = fill m 0 (sh.batchSize * (sh.pastSeqLen + sh.inputSeqLen)) floatZero :=
    prepareAttnMask_snd_of_ne (show 0 + 1 ≠ 0 by decide) _ m
  refine ⟨hP, hL, hmask, show 9 < 15 by decide, ?_⟩
  rw [hmask, fill_of_mem (by rw [hB, hP, hL]; decide)]
  exact floatZero_ne_floatLowest

/-! ### The positions of the embedding -/

/-- `OptDecoder::embeddingForward(ids, buf, batchSize, seqLen)` (lines
94-106): the position of new token `i` of each of the `batchSize` items is
`i + accSeqLen`. `forward` calls the three-argument hook
`embeddingForward(ids, embBuf, batchSize * inputSeqLen)` (line 363), which
this member does not override; the override is declared in `opt_decoder.h`,
which is not in the repository. The model takes it to hand the call's
`batchSize` and `inputSeqLen` on to this member. -/
def embeddingPositions (d : CommonDecoder) (batchSize seqLen : ℕ) : List ℕ :=
  (List.range batchSize).flatMap fun _ => (List.range seqLen).map (· + d.accSeqLen)

/-- A prefix of 2 tokens and a prompt of 4: the two new tokens are at positions
2 and 3 of the cache, and `embeddingForward` gives them positions 0 and 1. -/
theorem prefix_embedding_positions (p : CommonDecoder → ℕ → ℕ) (ctx : DecoderContext) :
    let r := forwardBegin (setPrefix p (CommonDecoder.init ctx) 2) ⟨1, 1, 4⟩ 0 false
    r.1.pastSeqLen = 2 ∧ embeddingPositions r.2 r.1.batchSize r.1.inputSeqLen = [0, 1] := by
  intro r
  -- The prefix is in `pastSeqLen`, not in `accSeqLen`.
  have hacc : r.2.accSeqLen + 2 = 2 :=
    embedding_accSeqLen (setPrefix p (CommonDecoder.init ctx) 2) ⟨1, 1, 4⟩ 0 false
  refine ⟨rfl, ?_⟩
  simp only [embeddingPositions, show r.2.accSeqLen = 0 by omega]
  rfl

end XftDecoder
