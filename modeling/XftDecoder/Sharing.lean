/-
# Decoders that share their resources

`getSharedResources` hands out a decoder's context, KV cache manager and
activation buffer, and `setSharedResources` makes another decoder use them
(lines 793-803). From then on both decoders resize the one context at the
start of each call and enlarge the one buffer at each call that sizes it,
while `initSeqLen`, `accSeqLen`, the prefix and the attention mask stay each
decoder's own.

Sharing is transparent to the sizing of the buffer. Take two decoders of one
model, where the decoder that takes the resources had no larger a buffer of
its own, and two runs that fit alone. Then every interleaving of the runs
fits on the shared buffer, and each decoder ends where it would alone, up to
the shapes left in the context and a buffer at least as large
(`shared_resources_fit`). The model's `prepareAttnMask` hook must not read the
activation buffer. The KV cache manager is not modelled: this says nothing
of two interleaved generations on one cache.

Key definitions: `getSharedResources`, `setSharedResources`, `Covers`,
`SharedPair`, `PairFits`.
Key theorems: `forwardBegin_covers`, `Covers.apply`, `Covers.fits`,
`shared_runs_fit`, `shared_resources_fit`.
-/
import XftDecoder.Buffers

namespace XftDecoder

/-- `getSharedResources()` (lines 793-796): the context and the activation
buffer; the KV cache manager is not modelled. -/
def getSharedResources (d : CommonDecoder) : DecoderContext × ℕ := (d.ctx, d.actBuffers)

/-- `setSharedResources(r)` (lines 798-803). -/
def setSharedResources (d : CommonDecoder) (r : DecoderContext × ℕ) : CommonDecoder :=
  { d with ctx := r.1, actBuffers := r.2 }

/-! ### One decoder on shared resources -/

/-- Two contexts of one model: they differ at most in the shapes of a call. -/
def DecoderContext.SameModel (c c' : DecoderContext) : Prop :=
  c.hiddenSize = c'.hiddenSize ∧ c.vocabSize = c'.vocabSize ∧ c.maxPositions = c'.maxPositions

theorem DecoderContext.SameModel.refl (c : DecoderContext) : c.SameModel c := ⟨rfl, rfl, rfl⟩

theorem DecoderContext.SameModel.trans {c c' c'' : DecoderContext} (h : c.SameModel c')
    (h' : c'.SameModel c'') : c.SameModel c'' :=
  ⟨h.1.trans h'.1, h.2.1.trans h'.2.1, h.2.2.trans h'.2.2⟩

/-- `resize` sets every shape, so it forgets all a context of the model held. -/
theorem DecoderContext.SameModel.resize_eq {c c' : DecoderContext} (h : c.SameModel c') (b l p : ℕ) :
    c.resize b l p = c'.resize b l p := by
  obtain ⟨h1, h2, h3⟩ := h
  simp only [DecoderContext.resize, h1, h2, h3]

/-- `d` is `e` running on resources it shares: a context of the same model,
and an activation buffer at least as large. -/
def Covers (d e : CommonDecoder) : Prop :=
  ∃ c A, d = { e with ctx := c, actBuffers := A } ∧ c.SameModel e.ctx ∧ e.actBuffers ≤ A

section Calls

variable {d e : CommonDecoder}

/-- The start of a call on shared resources has the shapes it has alone, and
reaches the state it reaches alone with a buffer at least as large. -/
theorem forwardBegin_covers (h : Covers d e) (dims : Dims) (step : ℕ) (la : Bool) :
    (forwardBegin d dims step la).1 = (forwardBegin e dims step la).1 ∧
      ∃ A, (forwardBegin d dims step la).2 = { (forwardBegin e dims step la).2 with actBuffers := A } ∧
        (forwardBegin e dims step la).2.actBuffers ≤ A := by
  obtain ⟨c, A, rfl, hc, hA⟩ := h
  simp only [forwardBegin, hc.resize_eq]
  split_ifs
  · exact ⟨rfl, _, rfl, max_le_max hA le_rfl⟩
  · exact ⟨rfl, _, rfl, max_le_max hA le_rfl⟩
  · exact ⟨rfl, A, rfl, hA⟩

theorem prefixForward_covers (h : Covers d e) (p : CommonDecoder → ℕ → ℕ)
    (hp : ∀ d d' s, { d with actBuffers := 0 } = { d' with actBuffers := 0 } → p d s = p d' s) (n : ℕ) :
    Covers (prefixForward p d n) (prefixForward p e n) := by
  obtain ⟨c, A, rfl, hc, hA⟩ := h
  refine ⟨(prefixForward p e n).ctx, _, ?_, .refl _, max_le_max hA le_rfl⟩
  simp only [prefixForward, hc.resize_eq]
  rw [hp _ (prepareBuffers { e with ctx := e.ctx.resize 1 n 0 } 1 1 false) 0 (by simp [prepareBuffers])]
  rfl

variable {p : CommonDecoder → ℕ → ℕ} (hp : ∀ d d' s, { d with actBuffers := 0 } = { d' with actBuffers := 0 } → p d s = p d' s)
include hp

theorem Covers.forward (h : Covers d e) (dims : Dims) (step : ℕ) (la : Bool) :
    Covers (forward p d dims step la) (forward p e dims step la) := by
  obtain ⟨h1, A, h2, hA⟩ := forwardBegin_covers h dims step la
  have hat : forwardAtMask d dims step la = { forwardAtMask e dims step la with actBuffers := A } := by
    simp only [forwardAtMask, h1, h2]
  refine ⟨(XftDecoder.forward p e dims step la).ctx, A, ?_, .refl _, hA⟩
  simp only [XftDecoder.forward, hat]
  rw [hp { forwardAtMask e dims step la with actBuffers := A } (forwardAtMask e dims step la) _ rfl]

/-- **A call keeps a decoder on shared resources where it would be alone.** -/
theorem Covers.apply (h : Covers d e) : ∀ c : Call, Covers (c.apply p d) (c.apply p e)
  | .forward dims step la => h.forward hp dims step la
  | .setPrefix n => by
    obtain ⟨c, A, rfl, hc, hA⟩ := h
    exact prefixForward_covers (e := { e with prefixSharing := true, prefixSeqLen := n })
      ⟨c, A, rfl, hc, hA⟩ p hp n
  | .unsetPrefix => by obtain ⟨c, A, rfl, hc, hA⟩ := h; exact ⟨c, A, rfl, hc, hA⟩
  | .skipFirstStep _ => by obtain ⟨c, A, rfl, hc, hA⟩ := h; exact ⟨c, A, rfl, hc, hA⟩

end Calls

/-- A call that fits alone fits on shared resources. -/
theorem Covers.fits {d e : CommonDecoder} {inBytes splitSize : ℕ} (h : Covers d e) :
    ∀ c : Call, c.Fits inBytes splitSize e → c.Fits inBytes splitSize d
  | .forward dims step la, hf => by
    obtain ⟨h1, A, h2, hA⟩ := forwardBegin_covers h dims step la
    simp only [Call.Fits, forwardFits, h1, h2] at hf ⊢
    omega
  | .setPrefix _, _ => trivial
  | .unsetPrefix, _ => trivial
  | .skipFirstStep _, _ => trivial

/-- The other decoder, handed the resources a call left, still covers its
state alone. -/
theorem Covers.setShared {d e : CommonDecoder} (h : Covers d e) {r : DecoderContext × ℕ}
    (hm : r.1.SameModel d.ctx) (hb : d.actBuffers ≤ r.2) : Covers (setSharedResources d r) e := by
  obtain ⟨c, A, rfl, hc, hA⟩ := h
  exact ⟨r.1, r.2, rfl, hm.trans hc, hA.trans hb⟩

section Model

variable (p : CommonDecoder → ℕ → ℕ) (d : CommonDecoder)

/-- No call changes the model the context describes. -/
theorem Call.apply_sameModel : ∀ c : Call, (c.apply p d).ctx.SameModel d.ctx
  | .forward dims step la => by
    rw [Call.apply, forward_ctx, forwardBegin_ctx]; exact ⟨rfl, rfl, rfl⟩
  | .setPrefix _ => ⟨rfl, rfl, rfl⟩
  | .unsetPrefix => .refl _
  | .skipFirstStep _ => .refl _

/-- No call shrinks the activation buffer. -/
theorem Call.le_apply_actBuffers : ∀ c : Call, d.actBuffers ≤ (c.apply p d).actBuffers
  | .forward dims step la => by
    rw [Call.apply, forward_actBuffers]
    by_cases h0 : step = 0
    · simp only [forwardBegin, h0, if_true]
      split <;> exact le_max_left _ _
    · rw [forwardBegin_actBuffers_of_pos d dims step la h0]
  | .setPrefix _ => le_max_left _ _
  | .unsetPrefix => le_rfl
  | .skipFirstStep _ => le_rfl

end Model

/-! ### Two decoders -/

/-- Two decoders after `b.setSharedResources(a.getSharedResources())`: one
context and one activation buffer. -/
structure SharedPair where
  a : CommonDecoder
  b : CommonDecoder
  shared : getSharedResources a = getSharedResources b

/-- The pair that sharing makes. -/
def SharedPair.init (a b : CommonDecoder) : SharedPair :=
  ⟨a, setSharedResources b (getSharedResources a), rfl⟩

/-- A call on the first (`true`) or the second decoder of the pair; the other
then sees the resources the call left. -/
def SharedPair.call (p : CommonDecoder → ℕ → ℕ) (s : SharedPair) : Bool × Call → SharedPair
  | (true, c) => ⟨c.apply p s.a, setSharedResources s.b (getSharedResources (c.apply p s.a)), rfl⟩
  | (false, c) => ⟨setSharedResources s.a (getSharedResources (c.apply p s.b)), c.apply p s.b, rfl⟩

/-- The pair after the interleaving `es`. -/
def SharedPair.run (p : CommonDecoder → ℕ → ℕ) (s : SharedPair) (es : List (Bool × Call)) :
    SharedPair :=
  es.foldl (SharedPair.call p) s

/-- Every call of the interleaving `es` addresses only the shared buffer. -/
def PairFits (p : CommonDecoder → ℕ → ℕ) (inBytes splitSize : ℕ) :
    SharedPair → List (Bool × Call) → Prop
  | _, [] => True
  | s, e :: es => e.2.Fits inBytes splitSize (if e.1 then s.a else s.b) ∧
      PairFits p inBytes splitSize (s.call p e) es

/-- The calls of the interleaving `es` on one decoder, in order. -/
def callsOf (first : Bool) : List (Bool × Call) → List Call
  | [] => []
  | e :: es => if e.1 = first then e.2 :: callsOf first es else callsOf first es

theorem SharedPair.ctx_eq (s : SharedPair) : s.a.ctx = s.b.ctx := congrArg Prod.fst s.shared

theorem SharedPair.actBuffers_eq (s : SharedPair) : s.a.actBuffers = s.b.actBuffers :=
  congrArg Prod.snd s.shared

section Pair

variable {p : CommonDecoder → ℕ → ℕ} {inBytes splitSize : ℕ}
  (hp : ∀ d d' s, { d with actBuffers := 0 } = { d' with actBuffers := 0 } → p d s = p d' s)
include hp

/-- Every interleaving of runs that fit alone fits on the shared buffer, and
leaves each decoder covering its state alone. -/
theorem shared_runs_fit :
    ∀ (es : List (Bool × Call)) (s : SharedPair) (ea eb : CommonDecoder), Covers s.a ea → Covers s.b eb →
      RunFits p inBytes splitSize ea (callsOf true es) → RunFits p inBytes splitSize eb (callsOf false es) →
      PairFits p inBytes splitSize s es ∧ Covers (s.run p es).a (run p ea (callsOf true es)) ∧
        Covers (s.run p es).b (run p eb (callsOf false es))
  | [], _, _, _, ha, hb, _, _ => ⟨trivial, ha, hb⟩
  | (true, c) :: es, s, ea, eb, ha, hb, hra, hrb => by
    simp only [callsOf, if_true, Bool.true_eq_false, if_false] at hra hrb ⊢
    have hb' : Covers (s.call p (true, c)).b eb :=
      hb.setShared ((Call.apply_sameModel p s.a c).trans (s.ctx_eq ▸ .refl _))
        (s.actBuffers_eq ▸ Call.le_apply_actBuffers p s.a c)
    obtain ⟨hf, ha', hb''⟩ := shared_runs_fit es (s.call p (true, c)) _ eb (ha.apply hp c) hb' hra.2 hrb
    exact ⟨⟨ha.fits c hra.1, hf⟩, ha', hb''⟩
  | (false, c) :: es, s, ea, eb, ha, hb, hra, hrb => by
    simp only [callsOf, if_true, Bool.false_eq_true, if_false] at hra hrb ⊢
    have ha' : Covers (s.call p (false, c)).a ea :=
      ha.setShared ((Call.apply_sameModel p s.b c).trans (s.ctx_eq ▸ .refl _))
        (s.actBuffers_eq ▸ Call.le_apply_actBuffers p s.b c)
    obtain ⟨hf, ha'', hb'⟩ := shared_runs_fit es (s.call p (false, c)) ea _ ha' (hb.apply hp c) hra hrb.2
    exact ⟨⟨hb.fits c hrb.1, hf⟩, ha'', hb'⟩

/-- **Sharing resources never undersizes a call.** Let `b` take the
resources of `a`, a decoder of the same model with a buffer at least as
large, through `setSharedResources`. Then every interleaving of a run on `a`
and a run on `b` that each fit alone fits on the shared buffer, and each
decoder ends in the state it ends in alone, up to the shapes left in the
context and a buffer at least as large. -/
theorem shared_resources_fit (a b : CommonDecoder) (hm : a.ctx.SameModel b.ctx)
    (hbuf : b.actBuffers ≤ a.actBuffers) (es : List (Bool × Call))
    (hra : RunFits p inBytes splitSize a (callsOf true es))
    (hrb : RunFits p inBytes splitSize b (callsOf false es)) :
    PairFits p inBytes splitSize (SharedPair.init a b) es ∧
      Covers ((SharedPair.init a b).run p es).a (run p a (callsOf true es)) ∧
      Covers ((SharedPair.init a b).run p es).b (run p b (callsOf false es)) :=
  shared_runs_fit hp es _ a b ⟨a.ctx, a.actBuffers, rfl, .refl _, le_rfl⟩
    ⟨a.ctx, a.actBuffers, rfl, hm, hbuf⟩ hra hrb

end Pair

/-- A decoder with `hiddenSize` 4096 and a vocabulary of 32000 on one rank. -/
def sharedBase : CommonDecoder := CommonDecoder.init ⟨0, 0, 0, 4096, 32000, 2048⟩

/-- Prompts of 4 and 2 tokens on the two decoders, then a decode step of
each, interleaved. -/
def sharedSteps : List (Bool × Call) :=
  [(true, .forward ⟨1, 1, 4⟩ 0 false), (false, .forward ⟨1, 1, 2⟩ 0 false),
    (true, .forward ⟨1, 1, 1⟩ 1 false), (false, .forward ⟨1, 1, 1⟩ 1 false)]

theorem shared_resources_fit_two :
    PairFits (fun d _ => d.maskSize) 4 32000 (SharedPair.init sharedBase sharedBase) sharedSteps ∧
      Covers ((SharedPair.init sharedBase sharedBase).run (fun d _ => d.maskSize) sharedSteps).a
        (run (fun d _ => d.maskSize) sharedBase (callsOf true sharedSteps)) ∧
      Covers ((SharedPair.init sharedBase sharedBase).run (fun d _ => d.maskSize) sharedSteps).b
        (run (fun d _ => d.maskSize) sharedBase (callsOf false sharedSteps)) :=
  shared_resources_fit (fun _ _ _ h => congrArg CommonDecoder.maskSize h) _ _ (.refl _) le_rfl _
    (by refine ⟨?_, ?_, trivial⟩ <;> (show forwardFits _ _ _ _ _ _; decide))
    (by refine ⟨?_, ?_, trivial⟩ <;> (show forwardFits _ _ _ _ _ _; decide))

end XftDecoder
