import EthosCpc.Library.HeapOrder
import EthosCpc.Library.Loop
import Mathlib.Data.Multiset.Range

/-!
# Binary heaps in cvc5

`BinaryHeap` of `util/bin_heap.h`.  The array holds pointers to nodes, and a
node stores its element and its own position; a handle is the pointer to a node.
What a deleted node holds stays in the model and is never read, and a new node
may reuse its address.  Sizes stay below `MAX_SIZE`, so positions do not
overflow.
-/

namespace EthosCpc.Cvc5.BinHeap

open Nat (sub_le)
open Library Library.HeapOrder Function
open Multiset (map_congr map_cons map_map mem_map mem_range nodup_range range_succ)
open Function (update_of_ne update_self)
open Bool (eq_false_iff)

/-- `d_heap` with its size, and `d_pos` and `d_elem` of the nodes. -/
structure Heap (H T : Type) where
  size : Nat
  node : Nat → H
  pos : H → Nat
  elem : H → T

variable {H T : Type}

def left (p : Nat) : Nat := 2 * p + 1

def right (p : Nat) : Nat := 2 * p + 2

section Operations

variable [DecidableEq H]

namespace Heap

def swap (s : Heap H T) (i j : Nat) (ati atj : H) : Heap H T :=
  { s with
    node := update (update s.node i atj) j ati
    pos := update (update s.pos ati j) atj i }

def swapIndices (s : Heap H T) (i j : Nat) : Heap H T := s.swap i j (s.node i) (s.node j)

/-- A round of the loop of `up_heap`. -/
def upStep (cmp : T → T → Bool) (he : H) (s : Heap H T) : Option (Heap H T) :=
  let curr := s.pos he
  if curr = 0 then none
  else
    let par := parent curr
    let atParent := s.node par
    if cmp (s.elem atParent) (s.elem he) then some (s.swap curr par he atParent) else none

def upHeap (cmp : T → T → Bool) (he : H) (s : Heap H T) : Option (Heap H T) :=
  Loop.run (upStep cmp he) (s.size + 1) s

/-- A round of the loop of `down_heap`. -/
def downStep (cmp : T → T → Bool) (he : H) (s : Heap H T) : Option (Heap H T) :=
  let curr := s.pos he
  let r := right curr
  if r < s.size then
    let l := left curr
    let atLeft := s.node l
    let atRight := s.node r
    if cmp (s.elem he) (s.elem atLeft) then
      if cmp (s.elem atLeft) (s.elem atRight) then some (s.swap curr r he atRight)
      else some (s.swap curr l he atLeft)
    else if cmp (s.elem he) (s.elem atRight) then some (s.swap curr r he atRight)
    else none
  else none

/-- What `down_heap` does after its loop. -/
def downLast (cmp : T → T → Bool) (he : H) (s : Heap H T) : Heap H T :=
  let curr := s.pos he
  let l := left curr
  if right curr ≥ s.size ∧ l < s.size then
    let atLeft := s.node l
    if cmp (s.elem he) (s.elem atLeft) then s.swap curr l he atLeft else s
  else s

def downHeap (cmp : T → T → Bool) (he : H) (s : Heap H T) : Option (Heap H T) :=
  (Loop.run (downStep cmp he) (s.size + 1) s).map (downLast cmp he)

def update (cmp : T → T → Bool) (he : H) (s : Heap H T) : Option (Heap H T) :=
  let pos := s.pos he
  if pos = 0 then s.downHeap cmp he
  else if cmp (s.elem (s.node (parent pos))) (s.elem he) then s.upHeap cmp he
  else s.downHeap cmp he

/-- `update` with a value. -/
def updateValue (cmp : T → T → Bool) (he : H) (val : T) (s : Heap H T) : Option (Heap H T) :=
  Heap.update cmp he { s with elem := Function.update s.elem he val }

/-- `push`, for the address `he` of the new node. -/
def push (cmp : T → T → Bool) (he : H) (toAdded : T) (s : Heap H T) : Option (Heap H T) :=
  upHeap cmp he
    { size := s.size + 1
      node := Function.update s.node s.size he
      pos := Function.update s.pos he s.size
      elem := Function.update s.elem he toAdded }

def popBack (s : Heap H T) : Heap H T := { s with size := s.size - 1 }

def pop (cmp : T → T → Bool) (s : Heap H T) : Option (Heap H T) :=
  let s := (s.swapIndices 0 (s.size - 1)).popBack
  if s.size ≠ 0 then s.downHeap cmp (s.node 0) else some s

def erase (cmp : T → T → Bool) (he : H) (s : Heap H T) : Option (Heap H T) :=
  let pos := s.pos he
  if pos = 0 then s.pop cmp
  else if pos = s.size - 1 then some s.popBack
  else
    let s := (s.swapIndices pos (s.size - 1)).popBack
    s.update cmp (s.node pos)

end Heap

end Operations

def Heap.top (s : Heap H T) : T := s.elem (s.node 0)

/-- `debugHandle`: the handle belongs to an element. -/
def Heap.debugHandle (s : Heap H T) (he : H) : Prop :=
  s.pos he < s.size ∧ s.node (s.pos he) = he

/-! ## Runs -/

/-- The operations. -/
inductive Op (H T : Type)
  | push (he : H) (val : T) | pop | erase (he : H) | update (he : H) (val : T)

/-- An operation on the heap. -/
def Op.apply [DecidableEq H] (cmp : T → T → Bool) : Op H T → Heap H T → Option (Heap H T)
  | .push he val, s => s.push cmp he val
  | .pop, s => s.pop cmp
  | .erase he, s => s.erase cmp he
  | .update he val, s => s.updateValue cmp he val

/-- What is asserted: a new node is none of the heap, the handles are valid, and `pop` finds an
element. -/
def Op.Allowed : Op H T → Heap H T → Prop
  | .push he _, s => ¬ s.debugHandle he
  | .pop, s => s.size ≠ 0
  | .erase he, s => s.debugHandle he
  | .update he _, s => s.debugHandle he

/-- The heaps that allowed operations reach from an empty one. -/
inductive Reachable [DecidableEq H] (cmp : T → T → Bool) : Heap H T → Prop
  | empty {s : Heap H T} (h : s.size = 0) : Reachable cmp s
  | step {s s' : Heap H T} (op : Op H T) (h : Reachable cmp s) (hop : op.Allowed s)
      (hs' : op.apply cmp s = some s') : Reachable cmp s'

/-! ## The abstract queue -/

/-- A priority queue: values under handles.  An element that is removed by `pop` is maximal. -/
inductive QueueStep (cmp : T → T → Bool) :
    Op H T → Multiset (H × T) → Multiset (H × T) → Prop
  | push {q : Multiset (H × T)} (he : H) (val : T) (h : ∀ v, (he, v) ∉ q) :
      QueueStep cmp (.push he val) q ((he, val) ::ₘ q)
  | pop {q : Multiset (H × T)} (he : H) (val : T) (h : ∀ e ∈ q, cmp val e.2 = false) :
      QueueStep cmp .pop ((he, val) ::ₘ q) q
  | erase {q : Multiset (H × T)} (he : H) (val : T) :
      QueueStep cmp (.erase he) ((he, val) ::ₘ q) q
  | update {q : Multiset (H × T)} (he : H) (old val : T) :
      QueueStep cmp (.update he val) ((he, old) ::ₘ q) ((he, val) ::ₘ q)

/-- The elements of the heap under their handles. -/
def Heap.entries (s : Heap H T) : Multiset (H × T) :=
  (Multiset.range s.size).map fun i => (s.node i, s.elem (s.node i))

/-- `a` may stand above `b`. -/
def NotBelow (cmp : T → T → Bool) (a b : T) : Prop := cmp a b = false

def Heap.value (s : Heap H T) (i : Nat) : T := s.elem (s.node i)

def Heap.Placed (s : Heap H T) : Prop := ∀ i < s.size, s.pos (s.node i) = i

/-- The invariant: the positions that are stored, and the order. -/
structure Heap.Valid (cmp : T → T → Bool) (s : Heap H T) : Prop where
  placed : s.Placed
  ordered : HeapOrder.Ordered (NotBelow cmp) s.size s.value

namespace Heap

variable {s s₀ s' : Heap H T} {i j : Nat} {he : H} {cmp : T → T → Bool}

/-! ## Positions -/

lemma Placed.node_inj (h : s.Placed) (hi : i < s.size) (hj : j < s.size)
    (heq : s.node i = s.node j) : i = j := by
  rw [← h i hi, heq, h j hj]

lemma Placed.debugHandle_node (h : s.Placed) (hi : i < s.size) : s.debugHandle (s.node i) := by
  unfold debugHandle
  rw [h i hi]
  exact ⟨hi, rfl⟩

lemma mem_entries (h : s.Placed) {v : T} :
    (he, v) ∈ s.entries ↔ s.debugHandle he ∧ s.elem he = v := by
  unfold entries
  rw [mem_map]
  constructor
  · rintro ⟨i, hi, heq⟩
    cases heq
    exact ⟨h.debugHandle_node (mem_range.1 hi), rfl⟩
  · rintro ⟨⟨hlt, hnode⟩, rfl⟩
    exact ⟨s.pos he, mem_range.2 hlt, by rw [hnode]⟩

lemma entries_popBack (hsize : s.size ≠ 0) :
    s.entries = (s.node (s.size - 1), s.value (s.size - 1)) ::ₘ s.popBack.entries := by
  have hrange : Multiset.range s.size = (s.size - 1) ::ₘ Multiset.range (s.size - 1) := by
    rw [← range_succ]
    congr
    omega
  unfold entries
  rw [hrange, map_cons]
  rfl

/-- Two positions are exchanged: the nodes move with their values. -/
structure Exchanged (s s' : Heap H T) (i j : Nat) : Prop where
  size : s'.size = s.size
  elem : s'.elem = s.elem
  node : ∀ k, s'.node k = s.node (Equiv.swap i j k)
  placed : s'.Placed

namespace Exchanged

variable (h : Exchanged s s' i j)

include h

lemma value : s'.value = exchange s.value i j := by
  funext k
  unfold Heap.value
  rw [h.elem, h.node]
  rfl

lemma entries (hi : i < s.size) (hj : j < s.size) : s'.entries = s.entries := by
  have hlt : ∀ k < s.size, Equiv.swap i j k < s.size := by
    intro k hk
    rw [Equiv.swap_apply_def]
    split_ifs <;> assumption
  have hperm : (Multiset.range s.size).map (Equiv.swap i j) = Multiset.range s.size := by
    refine Multiset.Nodup.ext ((nodup_range _).map (Equiv.swap i j).injective)
      (nodup_range _) |>.mpr fun k => ?_
    rw [mem_map, mem_range]
    constructor
    · rintro ⟨k, hk, rfl⟩
      exact hlt k (mem_range.1 hk)
    · exact fun hk =>
        ⟨Equiv.swap i j k, mem_range.2 (hlt k hk), Equiv.swap_apply_self i j k⟩
  unfold Heap.entries
  rw [h.size, h.elem]
  conv_rhs => rw [← hperm, map_map]
  exact map_congr rfl fun k _ => by rw [h.node]; rfl

lemma pos_left (hj : j < s.size) : s'.pos (s.node i) = j := by
  have hnode : s'.node j = s.node i := by rw [h.node, Equiv.swap_apply_right]
  rw [← hnode]
  exact h.placed j (h.size ▸ hj)

end Exchanged

/-- What holds while the node `he` moves in a heap that began as `s₀`. -/
structure Moving (s₀ : Heap H T) (he : H) (s : Heap H T) : Prop where
  placed : s.Placed
  size : s.size = s₀.size
  entries : s.entries = s₀.entries
  handle : s.debugHandle he

lemma Moving.refl (h : s.Placed) (hhe : s.debugHandle he) : Moving s he s :=
  ⟨h, rfl, rfl, hhe⟩

lemma Moving.value_pos (h : Moving s₀ he s) : s.value (s.pos he) = s.elem he :=
  congrArg s.elem h.handle.2

/-! ## The order of the values -/

section Order

variable (hcmp : IsStrictWeakOrder T fun a b => cmp a b = true)

include hcmp

lemma notBelow_of_lt {a b : T} (h : cmp a b = true) : NotBelow cmp b a :=
  eq_false_iff.2 fun h' => hcmp.irrefl a (hcmp.trans a b a h h')

lemma notBelow_refl (a : T) : NotBelow cmp a a := eq_false_iff.2 (hcmp.irrefl a)

lemma isTrans_notBelow : IsTrans T (NotBelow cmp) := by
  refine ⟨fun a b c hab hbc => eq_false_iff.2 fun hac => ?_⟩
  have hab : ¬ cmp a b = true := eq_false_iff.1 hab
  have hbc : ¬ cmp b c = true := eq_false_iff.1 hbc
  have hba : ¬ cmp b a = true := fun hba => hbc (hcmp.trans b a c hba hac)
  have hcb : ¬ cmp c b = true := fun hcb => hab (hcmp.trans a c b hac hcb)
  exact (hcmp.incomp_trans a b c ⟨hab, hba⟩ ⟨hbc, hcb⟩).1 hac

lemma top_maximal (h : s.Valid cmp) : ∀ e ∈ s.entries, cmp s.top e.2 = false := by
  intro e he
  obtain ⟨i, hi, rfl⟩ := mem_map.1 he
  have := isTrans_notBelow hcmp
  exact h.ordered.root (notBelow_refl hcmp) (mem_range.1 hi)

end Order

variable [DecidableEq H]

lemma exchanged_swapIndices (h : s.Placed) (hi : i < s.size) (hj : j < s.size) :
    Exchanged s (s.swapIndices i j) i j := by
  have hnode : ∀ k, (s.swapIndices i j).node k = s.node (Equiv.swap i j k) := by
    intro k
    show Function.update (Function.update s.node i (s.node j)) j (s.node i) k = _
    by_cases hkj : k = j
    · rw [hkj, update_self, Equiv.swap_apply_right]
    rw [update_of_ne hkj]
    by_cases hki : k = i
    · rw [hki, update_self, Equiv.swap_apply_left]
    · rw [update_of_ne hki, Equiv.swap_apply_of_ne_of_ne hki hkj]
  refine ⟨rfl, rfl, hnode, fun k hk => ?_⟩
  have hk : k < s.size := hk
  rw [hnode]
  show Function.update (Function.update s.pos (s.node i) j) (s.node j) i _ = k
  by_cases hkj : k = j
  · rw [hkj, Equiv.swap_apply_right]
    by_cases hij : s.node i = s.node j
    · rw [hij, update_self]
      exact h.node_inj hi hj hij
    · rw [update_of_ne hij, update_self]
  by_cases hki : k = i
  · rw [hki, Equiv.swap_apply_left, update_self]
  rw [Equiv.swap_apply_of_ne_of_ne hki hkj, update_of_ne fun heq => hkj (h.node_inj hk hj heq),
    update_of_ne fun heq => hki (h.node_inj hk hi heq), h k hk]

lemma Moving.swap (h : Moving s₀ he s) (hj : j < s.size) :
    let s' := s.swap (s.pos he) j he (s.node j)
    Moving s₀ he s' ∧ s'.value = exchange s.value (s.pos he) j ∧ s'.pos he = j := by
  have hi := h.handle.1
  have hx : Exchanged s (s.swap (s.pos he) j he (s.node j)) (s.pos he) j := by
    have := exchanged_swapIndices h.placed hi hj
    rwa [swapIndices, h.handle.2] at this
  have hpos := hx.pos_left hj
  rw [h.handle.2] at hpos
  refine ⟨⟨hx.placed, hx.size.trans h.size, (hx.entries hi hj).trans h.entries, ?_⟩, hx.value, hpos⟩
  unfold debugHandle
  rw [hpos, hx.node, Equiv.swap_apply_right]
  exact ⟨hj, h.handle.2⟩

/-! ## Moving up -/

section Sift

variable (hcmp : IsStrictWeakOrder T fun a b => cmp a b = true)

include hcmp

lemma upStep_spec (hm : Moving s₀ he s) (ho : UpOrder (NotBelow cmp) s.size s.value (s.pos he)) :
    upStep cmp he s = none ∧ HeapOrder.Ordered (NotBelow cmp) s.size s.value ∨
    ∃ s', upStep cmp he s = some s' ∧ Moving s₀ he s' ∧
      UpOrder (NotBelow cmp) s'.size s'.value (s'.pos he) ∧ s'.pos he < s.pos he := by
  have htrans := isTrans_notBelow hcmp
  unfold upStep
  dsimp only
  split
  · rename_i hroot
    exact .inl ⟨rfl, ho.finish fun hpos => absurd hroot hpos.ne'⟩
  rename_i hroot
  have hpos := Nat.pos_of_ne_zero hroot
  have hlt := parent_lt hpos
  split
  · rename_i hgt
    obtain ⟨hm', hvalue, hpos'⟩ := hm.swap (hlt.trans hm.handle.1)
    refine .inr ⟨_, rfl, hm', ?_, hpos'.trans_lt hlt⟩
    rw [hpos', hvalue]
    refine ho.move hpos hm.handle.1 ?_
    rw [hm.value_pos]
    exact notBelow_of_lt hcmp hgt
  rename_i hle
  refine .inl ⟨rfl, ho.finish fun _ => ?_⟩
  rw [hm.value_pos]
  exact eq_false_iff.2 hle

lemma upLoop_spec {k : Nat} (hm : Moving s₀ he s)
    (ho : UpOrder (NotBelow cmp) s.size s.value (s.pos he)) (hk : s.pos he < k) :
    ∃ s', Loop.run (upStep cmp he) k s = some s' ∧ s'.Valid cmp ∧ s'.entries = s₀.entries := by
  induction k generalizing s with
  | zero => omega
  | succ k ih =>
    rw [Loop.run]
    rcases upStep_spec hcmp hm ho with ⟨hstep, hend⟩ | ⟨s', hstep, hm', ho', hlt⟩
    · rw [hstep]
      exact ⟨s, rfl, ⟨hm.placed, hend⟩, hm.entries⟩
    · rw [hstep]
      exact ih hm' ho' (by omega)

lemma upHeap_spec (h : s.Placed) (hhe : s.debugHandle he)
    (ho : UpOrder (NotBelow cmp) s.size s.value (s.pos he)) :
    ∃ s', s.upHeap cmp he = some s' ∧ s'.Valid cmp ∧ s'.entries = s.entries :=
  upLoop_spec hcmp (.refl h hhe) ho (hhe.1.trans (Nat.lt_succ_self _))

/-! ## Moving down -/

omit hcmp in
lemma child_right_iff {n p c : Nat} (h : right p < n) :
    HeapOrder.Child n p c ↔ c = left p ∨ c = right p := by
  rw [child_iff]
  unfold right at *
  unfold left
  omega

omit hcmp in
/-- A swap with a child that may stand above the other one. -/
lemma Moving.down (hm : Moving s₀ he s)
    (ho : DownOrder (NotBelow cmp) s.size s.value (s.pos he)) {c : Nat}
    (hc : HeapOrder.Child s.size (s.pos he) c) (hlt : NotBelow cmp (s.value c) (s.elem he))
    (hmax : ∀ d, HeapOrder.Child s.size (s.pos he) d → NotBelow cmp (s.value c) (s.value d)) :
    let s' := s.swap (s.pos he) c he (s.node c)
    Moving s₀ he s' ∧ DownOrder (NotBelow cmp) s'.size s'.value (s'.pos he) ∧
      s.pos he < s'.pos he := by
  obtain ⟨hm', hvalue, hpos⟩ := hm.swap hc.2.1
  refine ⟨hm', ?_, hc.lt.trans_eq hpos.symm⟩
  rw [hvalue, hpos]
  exact ho.move hc (hm.value_pos ▸ hlt) hmax

lemma downLast_spec (hm : Moving s₀ he s)
    (ho : DownOrder (NotBelow cmp) s.size s.value (s.pos he)) (hr : s.size ≤ right (s.pos he)) :
    Moving s₀ he (downLast cmp he s) ∧
      HeapOrder.Ordered (NotBelow cmp) (downLast cmp he s).size (downLast cmp he s).value := by
  have hrefl := notBelow_refl hcmp
  have honly : ∀ d, HeapOrder.Child s.size (s.pos he) d → d = left (s.pos he) := by
    intro d hd
    have := child_iff.1 hd
    unfold right at hr
    unfold left
    omega
  unfold downLast
  dsimp only
  split
  swap
  · rename_i hl
    refine ⟨hm, ho.finish fun d hd => absurd ⟨hr, ?_⟩ hl⟩
    exact honly d hd ▸ hd.2.1
  -- there is a left child, and it has none
  rename_i hl
  split
  · rename_i hlt
    have hc : HeapOrder.Child s.size (s.pos he) (left (s.pos he)) :=
      child_iff.2 ⟨hl.2, .inl rfl⟩
    obtain ⟨hm', ho', _⟩ := hm.down ho hc (notBelow_of_lt hcmp hlt)
      fun d hd => honly d hd ▸ hrefl _
    refine ⟨hm', ho'.finish fun d hd => ?_⟩
    rw [(hm.swap hl.2).2.2] at hd
    have := child_iff.1 hd
    have hsize : d < s.size := hd.2.1
    unfold right at hr
    unfold left at this
    omega
  · rename_i hge
    refine ⟨hm, ho.finish fun d hd => ?_⟩
    rw [hm.value_pos, honly d hd]
    exact eq_false_iff.2 hge

lemma downStep_spec (hm : Moving s₀ he s)
    (ho : DownOrder (NotBelow cmp) s.size s.value (s.pos he)) :
    downStep cmp he s = none ∧ Moving s₀ he (downLast cmp he s) ∧
      HeapOrder.Ordered (NotBelow cmp) (downLast cmp he s).size (downLast cmp he s).value ∨
    ∃ s', downStep cmp he s = some s' ∧ Moving s₀ he s' ∧
      DownOrder (NotBelow cmp) s'.size s'.value (s'.pos he) ∧ s.pos he < s'.pos he := by
  have htrans := isTrans_notBelow hcmp
  have hrefl := notBelow_refl hcmp
  by_cases hr : right (s.pos he) < s.size
  swap
  · exact .inl ⟨if_neg hr, downLast_spec hcmp hm ho (not_lt.1 hr)⟩
  have hchild := fun c => child_right_iff (c := c) hr
  have hlast : downLast cmp he s = s := if_neg fun h => absurd hr (not_lt.2 h.1)
  unfold downStep
  rw [hlast, if_pos hr]
  dsimp only
  split
  · rename_i hleft
    split
    · -- `he < at_left < at_right`
      rename_i hright
      refine .inr ⟨_, rfl, hm.down ho ((hchild _).2 (.inr rfl))
        (notBelow_of_lt hcmp (hcmp.trans _ _ _ hleft hright)) ?_⟩
      intro d hd
      rcases (hchild d).1 hd with rfl | rfl
      · exact notBelow_of_lt hcmp hright
      · exact hrefl _
    rename_i hright
    refine .inr ⟨_, rfl, hm.down ho ((hchild _).2 (.inl rfl)) (notBelow_of_lt hcmp hleft) ?_⟩
    intro d hd
    rcases (hchild d).1 hd with rfl | rfl
    · exact hrefl _
    · exact eq_false_iff.2 hright
  rename_i hleft
  have hleft : NotBelow cmp (s.elem he) (s.value (left (s.pos he))) :=
    eq_false_iff.2 hleft
  split
  · -- `at_left <= he < at_right`
    rename_i hright
    have hright := notBelow_of_lt hcmp hright
    refine .inr ⟨_, rfl, hm.down ho ((hchild _).2 (.inr rfl)) hright ?_⟩
    intro d hd
    rcases (hchild d).1 hd with rfl | rfl
    · exact htrans.trans _ _ _ hright hleft
    · exact hrefl _
  rename_i hright
  refine .inl ⟨rfl, hm, ho.finish fun d hd => ?_⟩
  rw [hm.value_pos]
  rcases (hchild d).1 hd with rfl | rfl
  · exact hleft
  · exact eq_false_iff.2 hright

lemma downLoop_spec {k : Nat} (hm : Moving s₀ he s)
    (ho : DownOrder (NotBelow cmp) s.size s.value (s.pos he)) (hk : s.size < k + s.pos he) :
    ∃ s', (Loop.run (downStep cmp he) k s).map (downLast cmp he) = some s' ∧ s'.Valid cmp ∧
      s'.entries = s₀.entries := by
  induction k generalizing s with
  | zero =>
    have := hm.handle.1
    omega
  | succ k ih =>
    rw [Loop.run]
    rcases downStep_spec hcmp hm ho with ⟨hstep, hm', hend⟩ | ⟨s', hstep, hm', ho', hlt⟩
    · rw [hstep]
      exact ⟨_, rfl, ⟨hm'.placed, hend⟩, hm'.entries⟩
    rw [hstep]
    refine ih hm' ho' ?_
    have := hm.size.trans hm'.size.symm
    omega

lemma downHeap_spec (h : s.Placed) (hhe : s.debugHandle he)
    (ho : DownOrder (NotBelow cmp) s.size s.value (s.pos he)) :
    ∃ s', s.downHeap cmp he = some s' ∧ s'.Valid cmp ∧ s'.entries = s.entries :=
  downLoop_spec hcmp (.refl h hhe) ho (by omega)

lemma update_spec (h : s.Placed) (hhe : s.debugHandle he)
    (ho : HoleOrder (NotBelow cmp) s.size s.value (s.pos he)) :
    ∃ s', s.update cmp he = some s' ∧ s'.Valid cmp ∧ s'.entries = s.entries := by
  have hvalue : s.value (s.pos he) = s.elem he := congrArg s.elem hhe.2
  unfold Heap.update
  dsimp only
  split
  · rename_i hroot
    exact downHeap_spec hcmp h hhe ⟨ho, fun hpos => absurd hroot hpos.ne'⟩
  rename_i hroot
  have hpos := Nat.pos_of_ne_zero hroot
  split
  · rename_i hgt
    refine upHeap_spec hcmp h hhe ⟨ho, fun c hc => ?_⟩
    have hup : NotBelow cmp (s.value (s.pos he)) (s.value (parent (s.pos he))) := by
      rw [hvalue]
      exact notBelow_of_lt hcmp hgt
    exact (isTrans_notBelow hcmp).trans _ _ _ hup (ho.grand hpos hc)
  rename_i hle
  refine downHeap_spec hcmp h hhe ⟨ho, fun _ => ?_⟩
  rw [hvalue]
  exact eq_false_iff.2 hle

end Sift

/-! ## Operations -/

section Operations

variable (hcmp : IsStrictWeakOrder T fun a b => cmp a b = true) (h : s.Valid cmp)

include h in
lemma push_spec (hcmp : IsStrictWeakOrder T fun a b => cmp a b = true)
    (hhe : ¬ s.debugHandle he) (v : T) :
    ∃ s', s.push cmp he v = some s' ∧ s'.Valid cmp ∧ s'.entries = (he, v) ::ₘ s.entries := by
  have hne : ∀ i < s.size, s.node i ≠ he := fun i hi heq =>
    hhe (heq ▸ h.placed.debugHandle_node hi)
  generalize hs1 : ({ size := s.size + 1
                      node := Function.update s.node s.size he
                      pos := Function.update s.pos he s.size
                      elem := Function.update s.elem he v } : Heap H T) = s1
  have hsize : s1.size = s.size + 1 := by rw [← hs1]
  have hlast : s1.node s.size = he := by rw [← hs1]; exact update_self ..
  have hpos : s1.pos he = s.size := by rw [← hs1]; exact update_self ..
  have helem : s1.elem he = v := by rw [← hs1]; exact update_self ..
  have hnode : ∀ i < s.size, s1.node i = s.node i := fun i hi => by
    rw [← hs1]
    exact update_of_ne hi.ne _ _
  have hold : ∀ i < s.size, s1.pos (s.node i) = i ∧ s1.elem (s.node i) = s.elem (s.node i) := by
    intro i hi
    rw [← hs1]
    exact ⟨(update_of_ne (hne i hi) _ _).trans (h.placed i hi), update_of_ne (hne i hi) _ _⟩
  have hplaced : s1.Placed := by
    intro i hi
    rw [hsize] at hi
    rcases Nat.lt_succ_iff_lt_or_eq.1 hi with hlt | rfl
    · rw [hnode i hlt, (hold i hlt).1]
    · rw [hlast, hpos]
  have hvalue : ∀ i < s.size, s1.value i = s.value i := fun i hi => by
    rw [Heap.value, hnode i hi, (hold i hi).2, Heap.value]
  have hentries : s1.entries = (he, v) ::ₘ s.entries := by
    unfold entries
    rw [hsize, range_succ, map_cons, hlast, helem]
    congr 1
    refine map_congr rfl fun i hi => ?_
    have hi := mem_range.1 hi
    rw [hnode i hi, (hold i hi).2]
  have hlow : ∀ c, ¬ HeapOrder.Child s1.size s.size c := fun c hc => by
    have := hc.lt
    have := hc.2.1
    omega
  rw [← hentries, push, hs1]
  refine upHeap_spec hcmp hplaced ⟨by omega, by rw [hpos, hlast]⟩ ?_
  rw [hpos]
  refine ⟨⟨fun q c hc hq hcs => ?_, fun c _ hc => absurd hc (hlow c)⟩,
    fun c hc => absurd hc (hlow c)⟩
  have hlt : c < s.size := by
    have := hc.2.1
    omega
  rw [hvalue q (hc.lt.trans hlt), hvalue c hlt]
  exact h.ordered ⟨hc.1, hlt, hc.2.2⟩

lemma removed_spec (h : s.Placed) (hi : i < s.size) :
    let s' := (s.swapIndices i (s.size - 1)).popBack
    s'.Placed ∧ s.entries = (s.node i, s.value i) ::ₘ s'.entries ∧
      ∀ k < s'.size, k ≠ i → s'.value k = s.value k := by
  have hj : s.size - 1 < s.size := by omega
  have hx := exchanged_swapIndices h hi hj
  refine ⟨fun k hk => hx.placed k (hk.trans_le (sub_le _ _)), ?_, fun k hk hki => ?_⟩
  · have hlast := entries_popBack (s := s.swapIndices i (s.size - 1)) (by rw [hx.size]; omega)
    have hvalue := congrFun hx.value (s.size - 1)
    rw [exchange_right] at hvalue
    rw [hx.size, hx.node, Equiv.swap_apply_right, hvalue] at hlast
    rw [← hx.entries hi hj, hlast]
  · have hk : k < s.size - 1 := hk
    exact (congrFun hx.value k).trans (exchange_of_ne _ hki hk.ne)

include hcmp h

lemma pop_spec (hsize : s.size ≠ 0) :
    ∃ s', s.pop cmp = some s' ∧ s'.Valid cmp ∧ s.entries = (s.node 0, s.top) ::ₘ s'.entries := by
  obtain ⟨hplaced, hentries, hvalue⟩ := removed_spec h.placed (Nat.pos_of_ne_zero hsize)
  have htop : s.value 0 = s.top := rfl
  unfold pop
  dsimp only
  rw [← htop, hentries]
  generalize hs1 : (s.swapIndices 0 (s.size - 1)).popBack = s1 at hplaced hvalue ⊢
  have hle : s1.size ≤ s.size := by
    rw [← hs1]
    exact sub_le _ _
  split
  · rename_i hne
    have hpos := hplaced 0 (Nat.pos_of_ne_zero hne)
    have := isTrans_notBelow hcmp
    have hhole := h.ordered.hole hle (Nat.pos_of_ne_zero hne) hvalue
    obtain ⟨s', hs', hvalid, heq⟩ := downHeap_spec hcmp hplaced
      (hplaced.debugHandle_node (Nat.pos_of_ne_zero hne))
      (by rw [hpos]; exact ⟨hhole, fun hlt => absurd hlt (lt_irrefl 0)⟩)
    exact ⟨s', hs', hvalid, by rw [heq]⟩
  rename_i hzero
  rw [not_not] at hzero
  refine ⟨s1, rfl, ⟨hplaced, fun p c hc => absurd hc.2.1 ?_⟩, rfl⟩
  omega

lemma erase_spec (hhe : s.debugHandle he) : ∃ s', s.erase cmp he = some s' ∧ s'.Valid cmp ∧
      s.entries = (he, s.elem he) ::ₘ s'.entries := by
  obtain ⟨hlt, hnode⟩ := hhe
  have hvalue : s.value (s.pos he) = s.elem he := congrArg s.elem hnode
  unfold erase
  dsimp only
  split
  · rename_i hroot
    rw [hroot] at hnode hvalue
    rw [← hnode, ← hvalue] at *
    exact pop_spec hcmp h (by omega)
  rename_i hroot
  split
  · rename_i hlast
    have hentries := entries_popBack (s := s) (by omega)
    rw [← hlast, hnode, hvalue] at hentries
    refine ⟨_, rfl, ⟨fun k hk => ?_, h.ordered.mono (sub_le _ _)⟩, hentries⟩
    exact h.placed k (hk.trans_le (sub_le _ _))
  rename_i hlast
  obtain ⟨hplaced, hentries, hother⟩ := removed_spec h.placed hlt
  rw [hnode, hvalue] at hentries
  rw [hentries]
  have hsize : (s.swapIndices (s.pos he) (s.size - 1)).popBack.size = s.size - 1 := rfl
  generalize (s.swapIndices (s.pos he) (s.size - 1)).popBack = s1 at hplaced hother hsize ⊢
  have hin : s.pos he < s1.size := by omega
  have := isTrans_notBelow hcmp
  obtain ⟨s', hs', hvalid, heq⟩ := update_spec hcmp hplaced (hplaced.debugHandle_node hin)
    (by rw [hplaced _ hin]; exact h.ordered.hole (by omega) hin hother)
  exact ⟨s', hs', hvalid, by rw [heq]⟩

lemma updateValue_spec (hhe : s.debugHandle he) (v : T) :
    ∃ s' q, s.updateValue cmp he v = some s' ∧ s'.Valid cmp ∧
      s.entries = (he, s.elem he) ::ₘ q ∧ s'.entries = (he, v) ::ₘ q := by
  obtain ⟨hlt, hnode⟩ := id hhe
  have hne : ∀ i < s.size, i ≠ s.pos he → s.node i ≠ he := by
    intro i hi hip heq
    exact hip (by rw [← h.placed i hi, heq])
  have hrange := Multiset.cons_erase (mem_range.2 hlt)
  have := isTrans_notBelow hcmp
  obtain ⟨s', hs', hvalid, heq⟩ := update_spec hcmp
    (s := { s with elem := Function.update s.elem he v }) h.placed hhe
    (h.ordered.hole le_rfl hlt fun i hi hip => update_of_ne (hne i hi hip) _ _)
  refine ⟨s', ((Multiset.range s.size).erase (s.pos he)).map
    fun i => (s.node i, s.elem (s.node i)), hs', hvalid, ?_, ?_⟩
  · unfold entries
    conv_lhs => rw [← hrange, map_cons, hnode]
  rw [heq]
  unfold entries
  dsimp only
  conv_lhs => rw [← hrange, map_cons, hnode, update_self]
  congr 1
  refine map_congr rfl fun i hi => ?_
  obtain ⟨hip, hi⟩ := (nodup_range _).mem_erase_iff.1 hi
  rw [update_of_ne (hne i (mem_range.1 hi) hip)]

end Operations

end Heap

/-! ## Runs -/

section Runs

variable {s s' : Heap H T} {cmp : T → T → Bool} [DecidableEq H]

lemma exists_apply (hcmp : IsStrictWeakOrder T fun a b => cmp a b = true) (h : s.Valid cmp)
    (op : Op H T) (hop : op.Allowed s) :
    ∃ s', op.apply cmp s = some s' ∧ s'.Valid cmp ∧ QueueStep cmp op s.entries s'.entries := by
  cases op with
  | push he v =>
    obtain ⟨s', hs', hvalid, heq⟩ := Heap.push_spec h hcmp hop v
    refine ⟨s', hs', hvalid, heq ▸ .push he v fun w hw => hop ?_⟩
    exact ((Heap.mem_entries h.placed).1 hw).1
  | pop =>
    obtain ⟨s', hs', hvalid, heq⟩ := Heap.pop_spec hcmp h hop
    refine ⟨s', hs', hvalid, heq ▸ .pop _ _ fun e he => ?_⟩
    exact Heap.top_maximal hcmp h e (heq ▸ Multiset.mem_cons_of_mem he)
  | erase he =>
    obtain ⟨s', hs', hvalid, heq⟩ := Heap.erase_spec hcmp h hop
    exact ⟨s', hs', hvalid, heq ▸ .erase he _⟩
  | update he v =>
    obtain ⟨s', q, hs', hvalid, heq, heq'⟩ := Heap.updateValue_spec hcmp h hop v
    refine ⟨s', hs', hvalid, ?_⟩
    rw [heq, heq']
    exact .update he _ v

lemma Reachable.valid (hcmp : IsStrictWeakOrder T fun a b => cmp a b = true)
    (h : Reachable cmp s) : s.Valid cmp := by
  induction h with
  | empty hsize => exact ⟨fun i hi => absurd hi (by omega), fun p c hc => absurd hc.2.1 (by omega)⟩
  | step op _ hop hs' ih =>
    obtain ⟨s1, hs1, hvalid, _⟩ := exists_apply hcmp ih op hop
    cases hs1.symm.trans hs'
    exact hvalid

def emptyHeap : Heap Nat Nat := { size := 0, node := id, pos := id, elem := id }

end Runs

end EthosCpc.Cvc5.BinHeap
