/-
# `xft::addto`: 16-lane blocks and a masked tail

Both overloads of `xft::addto` walk `size` elements in blocks of 16 lanes:
`size / 16` full blocks with mask `0xffff`, then, when `size % 16 ≠ 0`, one
block at `size - size % 16` under the mask `0xFFFF >> (16 - size % 16)`. A
block loads both arrays under its mask, combines them lane by lane
(`_mm512_add_ps(u, v)`, or `_mm512_fmadd_ps(v, scale_v, u)`) and stores the
lanes of the mask back into `dst`. The two overloads differ only in the lane
operation: they are `addtoWith` at their own operation.

`load_avx512` and `store_avx512` are in `intrinsics_util.h`, which is not
under src/; they are modelled as the masked AVX-512 load and store they wrap:
a masked-off lane reads nothing and loads a fixed value, a masked-off lane is
not written. Element conversions to and from the lanes are parameters, and so
is the lane arithmetic.

Each overload is the scalar loop `dst[i] = f(dst[i], src[i])` for `i < size`
(`addto_matches_scalar_loop`): the tail mask holds exactly the lanes below
`size % 16` (`tailMask_getLsbD`), the blocks tile `[0, size)`, and every block
reads `dst` only where no earlier block wrote.

Key definitions: `loadAvx512`, `storeAvx512`, `addBlock`, `addtoWith`,
`addto`, `addtoScale`, `addtoScalar`.
Key theorems: `addBlock_apply`, `addtoWith_eq_scalar`, `addto_matches_scalar_loop`.
-/
import XftDecoder.Memory

namespace XftDecoder

variable {T1 T2 F : Type}

/-- What `load_avx512` and `store_avx512` do with single elements for
`T1 *dst` and `T2 *src`: convert to a lane and back, and the value a
masked-off lane loads. -/
structure Conversions (T1 T2 F : Type) where
  load1 : T1 → F
  load2 : T2 → F
  store : F → T1
  zero : F

/-- `load_avx512(mask, p)`: lane `j` holds `p[j]` if bit `j` of the mask is
set; a masked-off lane reads nothing. -/
def loadAvx512 {α : Type} (conv : α → F) (zero : F) (mask : BitVec 16) (m : Mem α) (p : ℕ) : ℕ → F :=
  fun j => if mask.getLsbD j then conv (m (p + j)) else zero

/-- `store_avx512(p, mask, v)`: `p[j]` takes lane `j` for each set bit `j`. -/
def storeAvx512 {α : Type} (conv : F → α) (m : Mem α) (p : ℕ) (mask : BitVec 16) (v : ℕ → F) :
    Mem α :=
  fun k => if p ≤ k ∧ mask.getLsbD (k - p) then conv (v (k - p)) else m k

/-- One block at offset `p` under `mask` (lines 31-33, 38-40 and 52-54,
59-61): load, combine lane by lane with `op`, store. -/
def addBlock (cv : Conversions T1 T2 F) (op : F → F → F) (mask : BitVec 16) (p : ℕ)
    (dst : Mem T1) (src : Mem T2) : Mem T1 :=
  let u := loadAvx512 cv.load1 cv.zero mask dst p
  let v := loadAvx512 cv.load2 cv.zero mask src p
  storeAvx512 cv.store dst p mask fun j => op (u j) (v j)

/-- The mask of the tail, `0xFFFF >> (kStep - remainder)`. -/
def tailMask (remainder : ℕ) : BitVec 16 := (0xFFFF : BitVec 16) >>> (16 - remainder)

/-- The body both overloads share, with lane operation `op`: the full
blocks, then the tail. -/
def addtoWith (cv : Conversions T1 T2 F) (op : F → F → F) (dst : Mem T1) (src : Mem T2)
    (size : ℕ) : Mem T1 :=
  let blockSize := size / 16
  let remainder := size % 16
  let dst := (List.range blockSize).foldl (fun dst i => addBlock cv op 0xFFFF (i * 16) dst src) dst
  if remainder ≠ 0 then addBlock cv op (tailMask remainder) (size - remainder) dst src else dst

/-- `xft::addto(dst, src, size)` (lines 24-42): lane addition. -/
def addto [Add F] (cv : Conversions T1 T2 F) (dst : Mem T1) (src : Mem T2) (size : ℕ) : Mem T1 :=
  addtoWith cv (fun u v => u + v) dst src size

/-- `xft::addto(dst, src, scale, size)` (lines 44-63): the fused
multiply-add `fmadd(v, scale_v, u)` of each lane. -/
def addtoScale (cv : Conversions T1 T2 F) (fmadd : F → F → F → F) (dst : Mem T1) (src : Mem T2)
    (scale : F) (size : ℕ) : Mem T1 :=
  addtoWith cv (fun u v => fmadd v scale u) dst src size

/-- The scalar loop the overloads are meant to be: `dst[i] = f(dst[i],
src[i])` for every `i < size`, nothing else read or written. -/
def addtoScalar (cv : Conversions T1 T2 F) (op : F → F → F) (dst : Mem T1) (src : Mem T2)
    (size : ℕ) : Mem T1 :=
  fun k => if k < size then cv.store (op (cv.load1 (dst k)) (cv.load2 (src k))) else dst k

/-! ### Masks -/

theorem fullMask_getLsbD (j : ℕ) : (0xFFFF : BitVec 16).getLsbD j = decide (j < 16) := by
  rw [show (0xFFFF : BitVec 16) = BitVec.allOnes 16 by decide, BitVec.getLsbD_allOnes]

/-- **The tail mask holds exactly the lanes below the remainder.** -/
theorem tailMask_getLsbD {r : ℕ} (hr : r ≤ 16) (j : ℕ) : (tailMask r).getLsbD j = decide (j < r) := by
  rw [tailMask, BitVec.getLsbD_ushiftRight, fullMask_getLsbD]
  exact decide_eq_decide.2 (by omega)

/-! ### Blocks -/

section Blocks

variable (cv : Conversions T1 T2 F) (op : F → F → F)

/-- What one block leaves: the lanes of its mask combine `dst` and `src` at
the same offset, every other element is untouched. -/
theorem addBlock_apply (mask : BitVec 16) (p : ℕ) (dst : Mem T1) (src : Mem T2) (k : ℕ) :
    addBlock cv op mask p dst src k =
      if p ≤ k ∧ mask.getLsbD (k - p) then cv.store (op (cv.load1 (dst k)) (cv.load2 (src k)))
      else dst k := by
  simp only [addBlock, storeAvx512, loadAvx512]
  by_cases h : p ≤ k ∧ mask.getLsbD (k - p)
  · simp [h, Nat.add_sub_cancel' h.1]
  · simp [h]

/-- A block at `b` whose mask holds the lanes below `r` extends a scalar
result on `[0, b)` to `[0, b + r)`: it reads `dst` only where nothing was
written yet. -/
theorem addBlock_extend {mask : BitVec 16} {r : ℕ} (hmask : ∀ j, mask.getLsbD j = decide (j < r))
    (b : ℕ) (dst : Mem T1) (src : Mem T2) :
    addBlock cv op mask b (addtoScalar cv op dst src b) src = addtoScalar cv op dst src (b + r) := by
  funext k
  simp only [addBlock_apply, hmask, addtoScalar, decide_eq_true_eq]
  by_cases hk : k < b
  · rw [if_neg (show ¬ (b ≤ k ∧ k - b < r) by omega), if_pos hk, if_pos (show k < b + r by omega)]
  · by_cases hk' : k < b + r
    · rw [if_pos (show b ≤ k ∧ k - b < r by omega), if_neg hk, if_pos hk']
    · rw [if_neg (show ¬ (b ≤ k ∧ k - b < r) by omega), if_neg hk, if_neg hk']

/-- After the first `n` full blocks, `[0, 16 n)` holds the scalar result and
the rest is untouched. -/
theorem fullBlocks_eq (dst : Mem T1) (src : Mem T2) :
    ∀ n, (List.range n).foldl (fun dst i => addBlock cv op 0xFFFF (i * 16) dst src) dst =
      addtoScalar cv op dst src (n * 16)
  | 0 => funext fun k => by simp [addtoScalar]
  | n + 1 => by
    rw [List.range_succ, List.foldl_append, fullBlocks_eq dst src n, List.foldl_cons, List.foldl_nil,
      addBlock_extend cv op fullMask_getLsbD, Nat.succ_mul]

/-- **The blocks and the tail make the scalar loop.** -/
theorem addtoWith_eq_scalar (dst : Mem T1) (src : Mem T2) (size : ℕ) :
    addtoWith cv op dst src size = addtoScalar cv op dst src size := by
  have hsize : size / 16 * 16 + size % 16 = size := Nat.div_add_mod' size 16
  simp only [addtoWith, fullBlocks_eq]
  split_ifs with hr
  · rw [show size - size % 16 = size / 16 * 16 by omega,
      addBlock_extend cv op (tailMask_getLsbD (Nat.le_of_lt (Nat.mod_lt size (by omega)))), hsize]
  · rw [show size / 16 * 16 = size by omega]

end Blocks

/-- **Both overloads are the scalar loop.** For every size and all arrays,
`addto` leaves `dst[i] + src[i]` and `addto` with a scale leaves
`fmadd(src[i], scale, dst[i])` at each `i < size`, in the element types'
conversions; every element at `size` or after is untouched, and the result
below `size` reads `dst` and `src` only below `size`. -/
theorem addto_matches_scalar_loop [Add F] (cv : Conversions T1 T2 F) (fmadd : F → F → F → F)
    (scale : F) (dst : Mem T1) (src : Mem T2) (size : ℕ) :
    addto cv dst src size = addtoScalar cv (fun u v => u + v) dst src size ∧
    addtoScale cv fmadd dst src scale size = addtoScalar cv (fun u v => fmadd v scale u) dst src size ∧
    ∀ dst' : Mem T1, ∀ src' : Mem T2, (∀ i < size, dst' i = dst i ∧ src' i = src i) →
      ∀ i < size, addto cv dst' src' size i = addto cv dst src size i ∧
        addtoScale cv fmadd dst' src' scale size i = addtoScale cv fmadd dst src scale size i := by
  refine ⟨addtoWith_eq_scalar .., addtoWith_eq_scalar .., fun dst' src' h i hi => ?_⟩
  simp only [addto, addtoScale, addtoWith_eq_scalar, addtoScalar, if_pos hi, (h i hi).1, (h i hi).2,
    and_self]

end XftDecoder
