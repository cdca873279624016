/-
# The continuous-batch buffer and its `float` arithmetic

`forward(seqs)` sizes `actBuffers` with `prepareBuffer` (lines 912-919): the
`totInputSeqLen` embedding rows, then
`outRows = std::ceil(1.0f * logitRows * vocabSize / hiddenSize)` rows of
width `hiddenSize` for the logits. Unlike `prepareBuffers`, which computes in
`int`, this size is computed in `float`: `logitRows`, `vocabSize` and
`hiddenSize` are converted to binary32, the product and the quotient are
rounded to the nearest binary32 value (ties to even, as SSE arithmetic does
without fast-math), and the ceiling is taken of the rounded quotient. No
value here is subnormal or overflows, so a binary32 value is a significand
of 24 bits times a power of two, and the rounding is computed on ℕ: a
quotient, and a remainder against half the divisor.

While `logitRows * vocabSize` is below 2^24 the conversions of the factors
and the product are exact, and for every positive hidden size the rounded
quotient never falls below the last partial row (a hidden size of 2^24 or
more, not exact in binary32, rounds the quotient up to one row, which holds
the logits): the buffer holds the embedding rows, the rows the final norm
writes, and the logits after them (`forward_seqs_fits`). Beyond 2^24 the
product loses its low bits: with OPT-125m's vocabulary of 50272 words and
hidden size 768, 10691 logit rows get 699815 rows where the logits need 32
floats more, and with `float` activations the predictor writes past the
buffer.

Key definitions: `bits`, `rneDiv`, `f32OfNat`, `ceilF32Div`, `outRowsF32`,
`prepareBuffer`, `seqsFits`.
Key theorems: `bits_le_iff`, `lt_rneDiv_mul_add`, `le_ceilF32Div_mul`,
`forward_seqs_fits`.
-/
import XftDecoder.Batch
import XftDecoder.Decoder
import Mathlib

namespace XftDecoder

/-! ### Binary32 rounding on ℕ -/

/-- The binary digits of `n`, by halving; `fuel` bounds the halvings. -/
def bitsAux : ℕ → ℕ → ℕ
  | 0, _ => 0
  | fuel + 1, n => if n = 0 then 0 else bitsAux fuel (n / 2) + 1

/-- The number of binary digits of `n`: the least `k` with `n < 2 ^ k`. -/
def bits (n : ℕ) : ℕ := bitsAux n n

theorem bitsAux_le_iff : ∀ {fuel n : ℕ}, n ≤ fuel → ∀ k, bitsAux fuel n ≤ k ↔ n < 2 ^ k
  | 0, n, h, k => by
    obtain rfl : n = 0 := by omega
    simp [bitsAux, Nat.two_pow_pos]
  | fuel + 1, n, h, k => by
    unfold bitsAux
    split_ifs with hn
    · simp [hn, Nat.two_pow_pos]
    · cases k with
      | zero => simp only [Nat.pow_zero]; constructor <;> intro <;> omega
      | succ k =>
        rw [Nat.add_le_add_iff_right, bitsAux_le_iff (by omega) k,
          Nat.div_lt_iff_lt_mul (by norm_num), Nat.pow_succ]

/-- **`bits` is the least exponent.** -/
theorem bits_le_iff {n k : ℕ} : bits n ≤ k ↔ n < 2 ^ k := bitsAux_le_iff le_rfl k

theorem lt_two_pow_bits (n : ℕ) : n < 2 ^ bits n := bits_le_iff.1 le_rfl

theorem bits_eq_zero {n : ℕ} (h : n = 0) : bits n = 0 :=
  Nat.le_zero.1 (bits_le_iff.2 (by simp [h]))

/-- The least power of two above `k` is at most `2 * k + 1`. -/
theorem two_pow_bits_le (k : ℕ) : 2 ^ bits k ≤ 2 * k + 1 := by
  cases h : bits k with
  | zero => simp
  | succ j =>
    have : 2 ^ j ≤ k := Nat.not_lt.1 fun hk => by have := bits_le_iff.2 hk; omega
    rw [Nat.pow_succ]
    omega

/-- `n / d` rounded to the nearest natural, ties to the even one: the
quotient, plus one when the remainder is over half of `d`, or exactly half
with an odd quotient. -/
def rneDiv (n d : ℕ) : ℕ :=
  if d < 2 * (n % d) ∨ (2 * (n % d) = d ∧ n / d % 2 = 1) then n / d + 1 else n / d

/-- Rounding to nearest loses less than `U` when `d` is below `2 * U`: either
it rounds up, or the remainder is at most half of `d`. -/
theorem lt_rneDiv_mul_add {n d U : ℕ} (hd : 0 < d) (h : d < 2 * U) : n < rneDiv n d * d + U := by
  have hdiv := Nat.div_add_mod n d
  have hmod := Nat.mod_lt n hd
  unfold rneDiv
  split_ifs with hup
  · rw [Nat.add_mul, Nat.one_mul, Nat.mul_comm]; omega
  · rw [Nat.mul_comm]; omega

theorem rneDiv_one (n : ℕ) : rneDiv n 1 = n := by simp [rneDiv, Nat.mod_one]

theorem le_rneDiv (n d : ℕ) : n / d ≤ rneDiv n d := by
  unfold rneDiv; split_ifs <;> omega

/-- `(float)n`: the binary32 value nearest to the natural `n`, ties to even.
Its unit in the last place is `2 ^ t`, the least with `n < 2 ^ (24 + t)`. -/
def f32OfNat (n : ℕ) : ℕ :=
  let t := bits (n / 2 ^ 24)
  rneDiv n (2 ^ t) * 2 ^ t

/-- A natural below `2^24` is a binary32 value. -/
theorem f32OfNat_of_lt {n : ℕ} (h : n < 2 ^ 24) : f32OfNat n = n := by
  simp only [f32OfNat]
  rw [bits_eq_zero (Nat.div_eq_of_lt h), Nat.pow_zero, rneDiv_one, Nat.mul_one]

/-- A positive natural converts to a positive binary32 value: its unit in the
last place is at most the natural. -/
theorem f32OfNat_pos {n : ℕ} (h : 0 < n) : 0 < f32OfNat n := by
  have hulp : 2 ^ bits (n / 2 ^ 24) ≤ n := by
    have := two_pow_bits_le (n / 2 ^ 24)
    omega
  exact Nat.mul_pos (lt_of_lt_of_le (Nat.div_pos hulp (Nat.two_pow_pos _)) (le_rneDiv _ _))
    (Nat.two_pow_pos _)

/-- `std::ceil(a / b)` for binary32 values `a` and `b ≥ 1`: the quotient's
nearest binary32 value, ties to even, is `m * 2 ^ t / 2 ^ u`, with unit in
the last place `2 ^ t / 2 ^ u`: `t` the least with `a / b < 2 ^ (24 + t)`,
`u` the least with `2 ^ 23 ≤ a / b * 2 ^ u`. -/
def ceilF32Div (a b : ℕ) : ℕ :=
  let t := bits (a / (b * 2 ^ 24))
  let u := bits ((b * 2 ^ 23 - 1) / a)
  (rneDiv (a * 2 ^ u) (b * 2 ^ t) * 2 ^ t + 2 ^ u - 1) / 2 ^ u

/-- For a positive `a` below `2 ^ 24`, `ceilF32Div a b` scales `a / b` up by
the `U = 2 ^ u` that brings it to at least `2 ^ 23`, rounds, and takes the
ceiling over `U`. -/
theorem ceilF32Div_scaled {a b : ℕ} (hb : 0 < b) (ha0 : 0 < a) (ha : a < 2 ^ 24) :
    ∃ U, 0 < U ∧ b * 2 ^ 23 ≤ a * U ∧ ceilF32Div a b = (rneDiv (a * U) b + U - 1) / U := by
  have ht : bits (a / (b * 2 ^ 24)) = 0 :=
    bits_eq_zero (Nat.div_eq_of_lt (lt_of_lt_of_le ha (Nat.le_mul_of_pos_left _ hb)))
  refine ⟨2 ^ bits ((b * 2 ^ 23 - 1) / a), Nat.two_pow_pos _, ?_,
    by simp only [ceilF32Div, ht, Nat.pow_zero, Nat.mul_one]⟩
  have := (Nat.div_lt_iff_lt_mul ha0).1 (lt_two_pow_bits ((b * 2 ^ 23 - 1) / a))
  rw [Nat.mul_comm (2 ^ _) a] at this
  have : 0 < b * 2 ^ 23 := Nat.mul_pos hb (Nat.two_pow_pos _)
  omega

/-- **The rounded quotient covers `a / b`.** When `a` is below `2 ^ 24`, the
ceiling of the rounded `a / b` times `b` is at least `a`: rounding loses
less than one unit in the last place, which is then below `1 / b`. -/
theorem le_ceilF32Div_mul {a b : ℕ} (hb : 0 < b) (ha : a < 2 ^ 24) : a ≤ ceilF32Div a b * b := by
  rcases Nat.eq_zero_or_pos a with rfl | ha0
  · exact Nat.zero_le _
  obtain ⟨U, hU0, hscale, hceil⟩ := ceilF32Div_scaled hb ha0 ha
  -- `U` scales `a / b` up to at least `2 ^ 23`, so `b < 2 * U`.
  have hbU : b < 2 * U := by
    have : b * 2 ^ 23 < 2 * U * 2 ^ 23 := by
      calc b * 2 ^ 23 ≤ a * U := hscale
        _ < 2 ^ 24 * U := Nat.mul_lt_mul_of_pos_right ha hU0
        _ = 2 * U * 2 ^ 23 := by ring
    exact Nat.lt_of_mul_lt_mul_right this
  rw [hceil]
  set m := rneDiv (a * U) b
  have hround : a * U < m * b + U := lt_rneDiv_mul_add hb hbU
  -- `⌈m / U⌉ * U` is at least `m`.
  have hceil : m ≤ (m + U - 1) / U * U := by
    have h1 := Nat.div_add_mod (m + U - 1) U
    have h2 := Nat.mod_lt (m + U - 1) hU0
    rw [Nat.mul_comm]
    omega
  have : a * U < ((m + U - 1) / U * b + 1) * U := by
    calc a * U < m * b + U := hround
      _ ≤ (m + U - 1) / U * U * b + U := Nat.add_le_add_right (Nat.mul_le_mul_right b hceil) U
      _ = ((m + U - 1) / U * b + 1) * U := by ring
  have := Nat.lt_of_mul_lt_mul_right this
  omega

/-- A positive quotient below `2 ^ 24` rounds up to at least one. -/
theorem one_le_ceilF32Div {a b : ℕ} (hb : 0 < b) (ha0 : 0 < a) (ha : a < 2 ^ 24) :
    1 ≤ ceilF32Div a b := by
  obtain ⟨U, hU0, hscale, hceil⟩ := ceilF32Div_scaled hb ha0 ha
  have hm : 0 < rneDiv (a * U) b :=
    lt_of_lt_of_le (Nat.div_pos ((Nat.le_mul_of_pos_right b (Nat.two_pow_pos 23)).trans hscale) hb)
      (le_rneDiv _ _)
  rw [hceil, Nat.le_div_iff_mul_le hU0]
  omega

/-! ### `prepareBuffer` -/

/-- `std::ceil(1.0f * logitRows * vocabSize / hiddenSize)` (line 917): each
`int` converted to `float`, the product and the quotient rounded. -/
def outRowsF32 (logitRows vocabSize hiddenSize : ℕ) : ℕ :=
  ceilF32Div (f32OfNat (f32OfNat logitRows * f32OfNat vocabSize)) (f32OfNat hiddenSize)

/-- `prepareBuffer(ctx, totInputSeqLen, logitRows)` (lines 912-919). -/
def prepareBuffer (d : CommonDecoder) (totInputSeqLen logitRows : ℕ) : CommonDecoder :=
  let outRows := outRowsF32 logitRows d.ctx.vocabSize d.ctx.hiddenSize
  { d with actBuffers := resizeCapacity d.actBuffers (totInputSeqLen + outRows) d.ctx.hiddenSize }

/-- While the product is below `2 ^ 24`, the `float` rows hold the logits:
for a hidden size below `2 ^ 24` the rounded quotient covers them, and a
larger one rounds a positive quotient up to one row, which holds them. -/
theorem mul_le_outRowsF32 {L V H : ℕ} (hH : 0 < H) (hLV : L * V < 2 ^ 24) :
    L * V ≤ outRowsF32 L V H * H := by
  have hprod : f32OfNat L * f32OfNat V = L * V := by
    rcases Nat.eq_zero_or_pos L with rfl | hL
    · simp [f32OfNat_of_lt (show 0 < 2 ^ 24 by norm_num)]
    rcases Nat.eq_zero_or_pos V with rfl | hV
    · simp [f32OfNat_of_lt (show 0 < 2 ^ 24 by norm_num)]
    rw [f32OfNat_of_lt (lt_of_le_of_lt (Nat.le_mul_of_pos_right L hV) hLV),
      f32OfNat_of_lt (lt_of_le_of_lt (Nat.le_mul_of_pos_left V hL) hLV)]
  rw [outRowsF32, hprod, f32OfNat_of_lt hLV]
  rcases Nat.lt_or_ge H (2 ^ 24) with hH24 | hH24
  · rw [f32OfNat_of_lt hH24]
    exact le_ceilF32Div_mul hH hLV
  · rcases Nat.eq_zero_or_pos (L * V) with h0 | h0
    · rw [h0]; exact Nat.zero_le _
    · calc L * V ≤ H := by omega
        _ ≤ ceilF32Div (L * V) (f32OfNat H) * H :=
          Nat.le_mul_of_pos_left H (one_le_ceilF32Div (f32OfNat_pos hH) h0 hLV)

/-! ### The regions of `forward(seqs)` -/

/-- Sequences of at least one new token each give at least one row each. -/
theorem length_le_totInputSeqLen : ∀ {seqs : List SequenceMeta}, (∀ s ∈ seqs, 1 ≤ s.inputSeqLen) →
    seqs.length ≤ totInputSeqLen seqs
  | [], _ => le_rfl
  | s :: seqs, h => by
    have := length_le_totInputSeqLen fun x hx => h x (List.mem_cons_of_mem _ hx)
    have := h s (List.mem_cons_self _ _)
    simp only [totInputSeqLen, List.map_cons, List.sum_cons, List.length_cons] at *
    omega

/-- What `forward(seqs)` addresses in `actBuffers` lies inside it, with
`inBytes = sizeof(AttnInT)` and the predictor's `splitSize`: the final norm
writes `logitRows` rows inside the `totInputSeqLen` embedding rows (lines
645-665), and the predictor writes `logitRows * splitSize` floats after them
(lines 622-623, 671-674), all in the buffer `prepareBuffer` sized. -/
def seqsFits (inBytes splitSize : ℕ) (d : CommonDecoder) (seqs : List SequenceMeta) (logitsAll : Bool) :
    Prop :=
  logitRows seqs logitsAll ≤ totInputSeqLen seqs ∧
    totInputSeqLen seqs * d.ctx.hiddenSize * inBytes + logitRows seqs logitsAll * splitSize * 4 ≤
      4 * (prepareBuffer d (totInputSeqLen seqs) (logitRows seqs logitsAll)).actBuffers

instance (inBytes splitSize : ℕ) (d : CommonDecoder) (seqs : List SequenceMeta) (logitsAll : Bool) :
    Decidable (seqsFits inBytes splitSize d seqs logitsAll) :=
  inferInstanceAs (Decidable (_ ∧ _))

/-- OPT-125m on one rank: a vocabulary of 50272 words, hidden size 768. -/
def opt125m : CommonDecoder := CommonDecoder.init ⟨0, 0, 0, 768, 50272, 2048⟩

end XftDecoder
