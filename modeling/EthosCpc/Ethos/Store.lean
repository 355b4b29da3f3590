import EthosCpc.Ethos.ExprTrie
import EthosCpc.Ethos.Kind

/-!
# The term store

`State::mkExprInternal`, `State::mkSymbolInternal`, the reference counts of
`ExprValue` and `State::markDeleted`, over a heap of values and one trie for
each kind.

A run is any sequence of these operations.  The allocator may reuse the
address of a deleted value, so the address of a new value is chosen freely
among the free ones.  `free` does not run the destructor of `ExprValue`, so a
deleted value does not give up its references to its children.
-/

namespace EthosCpc

open Library
open Function (update update_of_ne update_self)

/-- `ExprValue`, with its reference count `d_rc`. -/
structure ExprValue where
  kind : Kind
  children : List Ptr
  rc : UInt32

/-- The heap and the tries `d_trie`. -/
structure Store where
  heap : Ptr → Option ExprValue
  trie : Kind → ExprTrie

namespace Store

def empty : Store := ⟨fun _ => none, fun _ => Trie.empty⟩

def key (s : Store) (p : Ptr) : Option (Kind × List Ptr) :=
  (s.heap p).map fun v => (v.kind, v.children)

def isLive (s : Store) (p : Ptr) : Bool := (s.heap p).isSome

/-! ## Operations -/

def setRc (s : Store) (p : Ptr) (f : UInt32 → UInt32) : Store :=
  { s with heap := Function.update s.heap p ((s.heap p).map fun v => { v with rc := f v.rc }) }

def inc (s : Store) (p : Ptr) : Store := s.setRc p (· + 1)

/-- `new ExprValue(k, children)`, which counts a reference to each child. -/
def newExprValue (s : Store) (k : Kind) (cs : List Ptr) (new : Ptr) : Store :=
  cs.foldl inc { s with heap := Function.update s.heap new (some ⟨k, cs, 0⟩) }

def setTrie (s : Store) (k : Kind) (t : ExprTrie) : Store :=
  { s with trie := Function.update s.trie k t }

/-- `State::mkExprInternal`.  A new value is put at the address `new`. -/
def mkExprInternal (s : Store) (k : Kind) (cs : List Ptr) (new : Ptr) : Option (Ptr × Store) :=
  match (s.trie k).lookup cs with
  | some p => some (p, s)
  | none =>
    if s.isLive new then none
    else some (new, (s.newExprValue k cs new).setTrie k ((s.trie k).update (some new) cs))

/-- `State::markDeleted`: remove the value from the trie of its kind, free it. -/
def markDeleted (s : Store) (p : Ptr) : Option Store :=
  (s.heap p).bind fun v =>
    (ExprTrie.remove (s.trie v.kind) v.children).map fun t =>
      { (s.setTrie v.kind t) with heap := Function.update s.heap p none }

def dec (s : Store) (p : Ptr) : Option Store :=
  (s.heap p).bind fun v =>
    if v.rc - 1 = 0 then (s.setRc p (· - 1)).markDeleted p else some (s.setRc p (· - 1))

/-! ## Runs -/

/-- One call.  Terms are built from live children, and only the kinds that are
not atoms are built by `mkExprInternal`. -/
inductive Op
  | mkExprInternal (k : Kind) (children : List Ptr) (new : Ptr)
  | mkSymbolInternal (k : Kind) (new : Ptr)
  | inc (p : Ptr)
  | dec (p : Ptr)

def exec (s : Store) : Op → Option Store
  | .mkExprInternal k cs new =>
    if cs.all s.isLive && !k.isAtom then (s.mkExprInternal k cs new).map Prod.snd else none
  | .mkSymbolInternal k new =>
    if !s.isLive new && k.isAtom then some (s.newExprValue k [] new) else none
  | .inc p => if s.isLive p then some (s.inc p) else none
  | .dec p => s.dec p

def run (s : Store) : List Op → Option Store
  | [] => some s
  | op :: ops => (s.exec op).bind fun s' => s'.run ops

/-! ## Hash-consing -/

/-- No two live values have the same kind and the same children. -/
def HashConsed (s : Store) : Prop :=
  ∀ p q k ks, k.isAtom = false → s.key p = some (k, ks) → s.key q = some (k, ks) → p = q

/-- The tries index the live values. -/
structure Indexed (s : Store) : Prop where
  lookup_of_key : ∀ {p k ks}, s.key p = some (k, ks) → k.isAtom = false →
    (s.trie k).lookup ks = some p
  key_of_lookup : ∀ {p k ks}, (s.trie k).lookup ks = some p →
    k.isAtom = false ∧ s.key p = some (k, ks)

/-- A deletion does not prune the data of other keys. -/
def DeleteSafe (s : Store) : Op → Prop
  | .dec p => ∀ v, s.heap p = some v → v.rc - 1 = 0 →
      ExprTrie.RemoveSafe (s.trie v.kind) v.children
  | _ => True

def DeletesSafe (s : Store) : List Op → Prop
  | [] => True
  | op :: ops => s.DeleteSafe op ∧ ∀ s', s.exec op = some s' → s'.DeletesSafe ops

/-! ### Frame lemmas -/

section Frame

variable (s : Store) (p q : Ptr)

@[simp] lemma key_setRc (f : UInt32 → UInt32) : (s.setRc p f).key q = s.key q := by
  simp only [key, setRc]
  by_cases h : q = p
  · rw [h, update_self]
    cases s.heap p <;> rfl
  · rw [update_of_ne h]

@[simp] lemma trie_setRc (f : UInt32 → UInt32) : (s.setRc p f).trie = s.trie := rfl

@[simp] lemma key_setTrie (k : Kind) (t : ExprTrie) : (s.setTrie k t).key q = s.key q := rfl

lemma trie_setTrie (k : Kind) (t : ExprTrie) : (s.setTrie k t).trie = update s.trie k t := rfl

lemma key_foldl_inc (cs : List Ptr) : (cs.foldl inc s).key q = s.key q := by
  induction cs generalizing s with
  | nil => rfl
  | cons c cs ih => rw [List.foldl_cons, ih, inc, key_setRc]

lemma trie_foldl_inc (cs : List Ptr) : (cs.foldl inc s).trie = s.trie := by
  induction cs generalizing s with
  | nil => rfl
  | cons c cs ih => rw [List.foldl_cons, ih, inc, trie_setRc]

lemma key_newExprValue (k : Kind) (cs : List Ptr) :
    (s.newExprValue k cs p).key q = if q = p then some (k, cs) else s.key q := by
  rw [newExprValue, key_foldl_inc]
  simp only [key]
  by_cases h : q = p
  · rw [if_pos h, h, update_self]
    rfl
  · rw [if_neg h, update_of_ne h]

@[simp] lemma trie_newExprValue (k : Kind) (cs : List Ptr) :
    (s.newExprValue k cs p).trie = s.trie := trie_foldl_inc _ cs

variable {s p q}

lemma key_eq_none (h : s.isLive p = false) : s.key p = none := by
  have hnone : s.heap p = none := by simpa [isLive] using h
  rw [key, hnone]
  rfl

end Frame

/-! ### Steps -/

variable {s s' : Store}

lemma Indexed.empty : Store.empty.Indexed where
  lookup_of_key := fun h => by cases h
  key_of_lookup := fun h => by
    rw [Store.empty, Trie.lookup_empty] at h
    contradiction

lemma Indexed.hashConsed (h : s.Indexed) : s.HashConsed := by
  intro p q k ks hk hp hq
  have hlp := h.lookup_of_key hp hk
  rw [h.lookup_of_key hq hk] at hlp
  exact (Option.some.inj hlp).symm

lemma Indexed.congr (h : s.Indexed) (hkey : ∀ p, s'.key p = s.key p) (htrie : s'.trie = s.trie) :
    s'.Indexed where
  lookup_of_key := by
    intro p k ks hp hk
    rw [hkey] at hp
    rw [htrie]
    exact h.lookup_of_key hp hk
  key_of_lookup := by
    intro p k ks hp
    rw [htrie] at hp
    rw [hkey]
    exact h.key_of_lookup hp

variable {k : Kind} {new : Ptr}

lemma Indexed.insert (h : s.Indexed) {cs : List Ptr}
    (hk : k.isAtom = false) (hlookup : (s.trie k).lookup cs = none) (hnew : s.key new = none) :
    ((s.newExprValue k cs new).setTrie k ((s.trie k).update (some new) cs)).Indexed where
  lookup_of_key := by
    intro p k' ks hp hk'
    rw [key_setTrie, key_newExprValue] at hp
    rw [trie_setTrie, trie_newExprValue]
    split at hp
    · rename_i hpnew
      cases hp
      rw [update_self, Trie.lookup_update, if_pos rfl, hpnew]
    have hold := h.lookup_of_key hp hk'
    by_cases hkk : k' = k
    swap
    · rw [update_of_ne hkk, hold]
    subst hkk
    have hks : ks ≠ cs := by
      rintro rfl
      rw [hlookup] at hold
      contradiction
    rw [update_self, Trie.lookup_update, if_neg hks, hold]
  key_of_lookup := by
    intro p k' ks hp
    rw [trie_setTrie, trie_newExprValue] at hp
    rw [key_setTrie, key_newExprValue]
    -- what was indexed before is another value
    have hold : (s.trie k').lookup ks = some p →
        k'.isAtom = false ∧ (if p = new then some (k, cs) else s.key p) = some (k', ks) := by
      intro hp
      obtain ⟨hk', hkey⟩ := h.key_of_lookup hp
      refine ⟨hk', ?_⟩
      rw [if_neg, hkey]
      rintro rfl
      rw [hnew] at hkey
      contradiction
    by_cases hkk : k' = k
    swap
    · rw [update_of_ne hkk] at hp
      exact hold hp
    subst hkk
    rw [update_self, Trie.lookup_update] at hp
    split at hp
    · rename_i hks
      cases hp
      exact ⟨hk, by rw [if_pos rfl, hks]⟩
    · exact hold hp

lemma Indexed.mkExprInternal (h : s.Indexed) {cs : List Ptr} {r : Ptr}
    (hk : k.isAtom = false) (hs : s.mkExprInternal k cs new = some (r, s')) : s'.Indexed := by
  unfold Store.mkExprInternal at hs
  split at hs
  · cases hs
    exact h
  rename_i hlookup
  split at hs
  · cases hs
  rename_i hlive
  cases hs
  exact h.insert hk hlookup (key_eq_none (by simpa using hlive))

lemma Indexed.mkSymbolInternal (h : s.Indexed) (hk : k.isAtom = true)
    (hnew : s.key new = none) : (s.newExprValue k [] new).Indexed where
  lookup_of_key := by
    intro p k' ks hp hk'
    rw [key_newExprValue] at hp
    rw [trie_newExprValue]
    split at hp
    · cases hp
      rw [hk] at hk'
      contradiction
    · exact h.lookup_of_key hp hk'
  key_of_lookup := by
    intro p k' ks hp
    rw [trie_newExprValue] at hp
    obtain ⟨hk', hkey⟩ := h.key_of_lookup hp
    refine ⟨hk', ?_⟩
    rw [key_newExprValue, if_neg, hkey]
    rintro rfl
    rw [hnew] at hkey
    contradiction

lemma Indexed.markDeleted (h : s.Indexed) {p : Ptr} {v : ExprValue} (hv : s.heap p = some v)
    (hsafe : ExprTrie.RemoveSafe (s.trie v.kind) v.children) (hs : s.markDeleted p = some s') :
    s'.Indexed := by
  rw [Store.markDeleted, hv, Option.bind_some] at hs
  obtain ⟨t, ht, rfl⟩ := map_inv hs
  have hkeyp : s.key p = some (v.kind, v.children) := by rw [key, hv]; rfl
  have hkey : ∀ q, ({ s.setTrie v.kind t with heap := update s.heap p none } : Store).key q =
      if q = p then none else s.key q := by
    intro q
    simp only [key]
    by_cases hq : q = p
    · rw [if_pos hq, hq, update_self]
      rfl
    · rw [if_neg hq, update_of_ne hq]
  have htrie : ({ s.setTrie v.kind t with heap := update s.heap p none } : Store).trie =
      update s.trie v.kind t := rfl
  constructor
  · intro q k ks hq hk
    rw [hkey] at hq
    rw [htrie]
    split at hq
    · cases hq
    rename_i hqp
    have hold := h.lookup_of_key hq hk
    by_cases hkk : k = v.kind
    swap
    · rw [update_of_ne hkk, hold]
    subst hkk
    have hlp := h.lookup_of_key hkeyp hk
    obtain ⟨n, hn⟩ := Trie.isSome_find_of_lookup hlp
    obtain ⟨t', ht', _, hothers⟩ := ExprTrie.remove_spec hn
    cases ht.symm.trans ht'
    have hks : ks ≠ v.children := by
      rintro rfl
      rw [hlp, Option.some.injEq] at hold
      exact hqp hold.symm
    rw [update_self, hothers.2 hsafe ks hks, hold]
  intro q k ks hq
  rw [htrie] at hq
  rw [hkey]
  by_cases hkk : k = v.kind
  · subst hkk
    rw [update_self] at hq
    obtain ⟨hk, hold⟩ := h.key_of_lookup (ExprTrie.lookup_of_remove ht hq)
    refine ⟨hk, ?_⟩
    rw [if_neg, hold]
    -- the deleted value has no data any more
    rintro rfl
    rw [hkeyp] at hold
    cases hold
    obtain ⟨n, hn⟩ := Trie.isSome_find_of_lookup (h.lookup_of_key hkeyp hk)
    obtain ⟨t', ht', hgone, _⟩ := ExprTrie.remove_spec hn
    cases ht.symm.trans ht'
    rw [hgone] at hq
    contradiction
  rw [update_of_ne hkk] at hq
  obtain ⟨hk, hold⟩ := h.key_of_lookup hq
  refine ⟨hk, ?_⟩
  rw [if_neg, hold]
  rintro rfl
  rw [hkeyp] at hold
  cases hold
  contradiction

lemma Indexed.dec (h : s.Indexed) {p : Ptr} (hsafe : s.DeleteSafe (.dec p))
    (hs : s.dec p = some s') : s'.Indexed := by
  have hset : (s.setRc p (· - 1)).Indexed := h.congr (fun q => key_setRc s p q _) rfl
  obtain ⟨v, hv, hs⟩ := bind_inv hs
  split at hs
  swap
  · cases hs
    exact hset
  rename_i hrc
  have hheap : (s.setRc p (· - 1)).heap p = some { v with rc := v.rc - 1 } := by
    simp only [setRc, update_self, hv, Option.map_some]
  exact hset.markDeleted hheap (hsafe v hv hrc) hs

lemma Indexed.exec (h : s.Indexed) {op : Op} (hsafe : s.DeleteSafe op)
    (hs : s.exec op = some s') : s'.Indexed := by
  cases op with
  | mkExprInternal k cs new =>
    rw [Store.exec] at hs
    split at hs
    · rename_i hcond
      rw [Bool.and_eq_true, Bool.not_eq_true'] at hcond
      obtain ⟨⟨r, s''⟩, hmk, rfl⟩ := map_inv hs
      exact h.mkExprInternal hcond.2 hmk
    · cases hs
  | mkSymbolInternal k new =>
    rw [Store.exec] at hs
    split at hs
    · rename_i hcond
      rw [Bool.and_eq_true, Bool.not_eq_true'] at hcond
      cases hs
      exact h.mkSymbolInternal hcond.2 (key_eq_none hcond.1)
    · cases hs
  | inc p =>
    rw [Store.exec] at hs
    split at hs
    · cases hs
      exact h.congr (fun q => key_setRc s p q _) rfl
    · cases hs
  | dec p => exact h.dec hsafe hs

lemma Indexed.run (h : s.Indexed) {ops : List Op} (hsafe : s.DeletesSafe ops)
    (hs : s.run ops = some s') : s'.Indexed := by
  induction ops generalizing s with
  | nil =>
    cases hs
    exact h
  | cons op ops ih =>
    obtain ⟨s1, hexec, hrun⟩ := bind_inv hs
    exact ih (h.exec hsafe.1 hexec) (hsafe.2 s1 hexec) hrun

/-- In every run from the empty store whose deletions are all safe, the live
terms are hash-consed.  Removing the key of a term from its trie always takes
the term away, and leaves all other keys alone exactly if the deletion is
safe. -/
theorem hashConsed_of_run (ops : List Op) (s : Store) (hrun : Store.empty.run ops = some s)
    (hsafe : Store.empty.DeletesSafe ops) :
    s.HashConsed ∧
    ∀ p k ks, k.isAtom = false → s.key p = some (k, ks) →
      ∃ t, ExprTrie.remove (s.trie k) ks = some t ∧ t.lookup ks = none ∧
        ((∀ ks', ks' ≠ ks → t.lookup ks' = (s.trie k).lookup ks') ↔
          ExprTrie.RemoveSafe (s.trie k) ks) := by
  have hindexed : s.Indexed := Indexed.empty.run hsafe hrun
  refine ⟨hindexed.hashConsed, ?_⟩
  intro p k ks hk hkey
  obtain ⟨n, hn⟩ := Trie.isSome_find_of_lookup (hindexed.lookup_of_key hkey hk)
  exact ExprTrie.remove_spec hn

/-- A term is built, given up and built again. -/
def rebuildOps : List Op :=
  [.mkSymbolInternal .const 0, .mkExprInternal .tuple [0] 1, .inc 1, .dec 1,
    .mkExprInternal .tuple [0] 2]

theorem hashConsed_of_run_rebuild : ∃ s, Store.empty.run rebuildOps = some s ∧ s.HashConsed := by
  obtain ⟨s, hs⟩ : ∃ s, Store.empty.run rebuildOps = some s := ⟨_, rfl⟩
  refine ⟨s, hs, (hashConsed_of_run rebuildOps s hs ?_).1⟩
  refine ⟨trivial, fun s₁ h₁ => ⟨trivial, fun s₂ h₂ => ⟨trivial, fun s₃ h₃ => ⟨?_, fun s₄ h₄ =>
    ⟨trivial, fun _ _ => trivial⟩⟩⟩⟩⟩
  cases h₁
  cases h₂
  cases h₃
  intro v hv _ ks' hne hdata
  cases hv
  have hlookup : (Trie.update (some 1) [0] (Trie.empty : ExprTrie)).lookup ks' = none := by
    rw [Trie.lookup_update, if_neg hne, Trie.lookup_empty]
  exact absurd hlookup hdata

/-- Deleting the program type `(T0) T1` loses the live program type
`(T0 T1) T2`, which is then built a second time. -/
theorem hashConsed_fails :
    ∃ s, Store.empty.run [.mkSymbolInternal .const 0, .mkSymbolInternal .const 1,
      .mkSymbolInternal .const 2, .mkExprInternal .programType [0, 1] 3, .inc 3,
      .mkExprInternal .programType [0, 1, 2] 4, .inc 4, .dec 3,
      .mkExprInternal .programType [0, 1, 2] 5] = some s ∧ ¬ s.HashConsed := by
  refine ⟨_, rfl, ?_⟩
  intro h
  have heq : (4 : Ptr) = 5 := h 4 5 .programType [0, 1, 2] rfl rfl rfl
  contradiction

end Store

end EthosCpc
