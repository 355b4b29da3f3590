import Mathlib.Logic.Equiv.Basic
import Mathlib.Order.Nat

/-!
# Heap order

Binary heaps as functions on positions: the children of `p` are at `2p + 1` and
`2p + 2`.  The relation `r a b` says that `a` may stand above `b`; it is total
and transitive.  Around a hole, the pairs that do not touch it are in order, and
so are its children and its parent.  A swap moves the hole up or down.
-/

namespace EthosCpc.Library.HeapOrder

/-- The parent of a position; the root has none. -/
def parent (p : Nat) : Nat := (p - 1) / 2

/-- `c` is one of the first `n` positions and a child of `p`. -/
def Child (n p c : Nat) : Prop := 0 < c ∧ c < n ∧ parent c = p

variable {α : Type*} {r : α → α → Prop} {n m p c : Nat} {f g : Nat → α}

lemma parent_lt (h : 0 < p) : parent p < p := by
  unfold parent
  omega

lemma Child.lt (h : Child n p c) : p < c := h.2.2 ▸ parent_lt h.1

lemma child_iff : Child n p c ↔ c < n ∧ (c = 2 * p + 1 ∨ c = 2 * p + 2) := by
  unfold Child parent
  omega

/-- Every parent may stand above its children. -/
def Ordered (r : α → α → Prop) (n : Nat) (f : Nat → α) : Prop :=
  ∀ ⦃p c⦄, Child n p c → r (f p) (f c)

/-- The order around a hole. -/
structure HoleOrder (r : α → α → Prop) (n : Nat) (f : Nat → α) (p : Nat) : Prop where
  except : ∀ ⦃q c⦄, Child n q c → q ≠ p → c ≠ p → r (f q) (f c)
  grand : ∀ ⦃c⦄, 0 < p → Child n p c → r (f (parent p)) (f c)

/-- The hole may stand above its children. -/
structure UpOrder (r : α → α → Prop) (n : Nat) (f : Nat → α) (p : Nat) : Prop
    extends HoleOrder r n f p where
  children : ∀ ⦃c⦄, Child n p c → r (f p) (f c)

/-- The parent of the hole may stand above it. -/
structure DownOrder (r : α → α → Prop) (n : Nat) (f : Nat → α) (p : Nat) : Prop
    extends HoleOrder r n f p where
  above : 0 < p → r (f (parent p)) (f p)

/-- The values of two positions are exchanged. -/
def exchange (f : Nat → α) (i j : Nat) : Nat → α := f ∘ Equiv.swap i j

@[simp] lemma exchange_left (f : Nat → α) (i j : Nat) : exchange f i j i = f j := by
  simp [exchange]

@[simp] lemma exchange_right (f : Nat → α) (i j : Nat) : exchange f i j j = f i := by
  simp [exchange]

lemma exchange_of_ne (f : Nat → α) {i j k : Nat} (hi : k ≠ i) (hj : k ≠ j) :
    exchange f i j k = f k := congrArg f (Equiv.swap_apply_of_ne_of_ne hi hj)

lemma Ordered.mono (h : Ordered r n f) (hm : m ≤ n) : Ordered r m f :=
  fun _ _ hc => h ⟨hc.1, hc.2.1.trans_le hm, hc.2.2⟩

lemma Ordered.hole [IsTrans α r] (h : Ordered r n f) (hm : m ≤ n) (hp : p < m)
    (hg : ∀ i < m, i ≠ p → g i = f i) : HoleOrder r m g p := by
  have hm' := h.mono hm
  constructor
  · intro q c hc hq hcp
    rw [hg q (hc.lt.trans hc.2.1) hq, hg c hc.2.1 hcp]
    exact hm' hc
  intro c hpos hc
  have hlt := parent_lt hpos
  rw [hg _ (hlt.trans hp) hlt.ne, hg c hc.2.1 hc.lt.ne']
  exact Trans.trans (hm' ⟨hpos, hp, rfl⟩) (hm' hc)

/-! ## Moving up -/

lemma UpOrder.move [IsTrans α r] (h : UpOrder r n f p) (hpos : 0 < p) (hlt : p < n)
    (hr : r (f p) (f (parent p))) : UpOrder r n (exchange f p (parent p)) (parent p) := by
  have hq := parent_lt hpos
  -- the value that comes down may stand above what is left below the new hole
  have hbelow : ∀ c, Child n (parent p) c → r (f (parent p)) (exchange f p (parent p) c) ∨
      c = p := by
    intro c hc
    by_cases hcp : c = p
    · exact .inr hcp
    · rw [exchange_of_ne f hcp hc.lt.ne']
      exact .inl (h.except hc hq.ne hcp)
  refine ⟨⟨?_, ?_⟩, ?_⟩
  · intro q c hc hqq hcq
    have hcp : c ≠ p := fun hcp => hqq (hcp ▸ hc.2.2).symm
    rw [exchange_of_ne f hcp hcq]
    by_cases hqp : q = p
    · subst hqp
      rw [exchange_left]
      exact h.grand hpos hc
    · rw [exchange_of_ne f hqp hqq]
      exact h.except hc hqp hcp
  · intro c hqpos hc
    have hqq := parent_lt hqpos
    have htop : r (f (parent (parent p))) (f (parent p)) :=
      h.except ⟨hqpos, hq.trans hlt, rfl⟩ (hqq.trans hq).ne hq.ne
    rw [exchange_of_ne f (hqq.trans hq).ne hqq.ne]
    rcases hbelow c hc with hbelow | rfl
    · exact Trans.trans htop hbelow
    · rwa [exchange_left]
  intro c hc
  rw [exchange_right]
  rcases hbelow c hc with hbelow | rfl
  · exact Trans.trans hr hbelow
  · rwa [exchange_left]

/-- At the root, or below a value that may stand above it, the hole is filled. -/
lemma UpOrder.finish (h : UpOrder r n f p) (hr : 0 < p → r (f (parent p)) (f p)) :
    Ordered r n f := by
  intro q c hc
  by_cases hqp : q = p
  · subst hqp
    exact h.children hc
  by_cases hcp : c = p
  · subst hcp
    exact hc.2.2 ▸ hr hc.1
  · exact h.except hc hqp hcp

/-! ## Moving down -/

lemma DownOrder.move (h : DownOrder r n f p) (hc : Child n p c) (hr : r (f c) (f p))
    (hmax : ∀ d, Child n p d → r (f c) (f d)) : DownOrder r n (exchange f p c) c := by
  have hpc := hc.lt
  refine ⟨⟨?_, ?_⟩, ?_⟩
  · intro q d hd hqc hdc
    by_cases hdp : d = p
    · subst hdp
      have hqd := hd.lt
      rw [exchange_left, exchange_of_ne f hqd.ne hqc]
      exact hd.2.2 ▸ h.grand hd.1 hc
    rw [exchange_of_ne f hdp hdc]
    by_cases hqp : q = p
    · subst hqp
      rw [exchange_left]
      exact hmax d hd
    · rw [exchange_of_ne f hqp hqc]
      exact h.except hd hqp hdp
  · intro d _ hd
    rw [hc.2.2, exchange_left, exchange_of_ne f (hpc.trans hd.lt).ne' hd.lt.ne']
    exact h.except hd hpc.ne' (hpc.trans hd.lt).ne'
  · intro _
    rwa [hc.2.2, exchange_left, exchange_right]

lemma DownOrder.finish (h : DownOrder r n f p) (hr : ∀ c, Child n p c → r (f p) (f c)) :
    Ordered r n f :=
  UpOrder.finish ⟨h.toHoleOrder, hr⟩ h.above

/-! ## The root -/

lemma Ordered.root [IsTrans α r] (hrefl : ∀ a, r a a) (h : Ordered r n f) {i : Nat}
    (hi : i < n) : r (f 0) (f i) := by
  induction i using Nat.strong_induction_on with
  | _ i ih =>
    rcases Nat.eq_zero_or_pos i with rfl | hpos
    · exact hrefl _
    · have hlt := parent_lt hpos
      exact Trans.trans (ih _ hlt (hlt.trans hi)) (h ⟨hpos, hi, rfl⟩)

end EthosCpc.Library.HeapOrder
