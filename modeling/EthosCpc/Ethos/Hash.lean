import EthosCpc.Ethos.Store

/-!
# Hashes and comparisons of terms

`State::getHash`, and `eo::hash` and `eo::cmp` in
`TypeChecker::evaluateLiteralOpInternal`, over the term store.  A hash is handed
out at the first use of a value and given up when the value is deleted.  It has
the 64 bits of a `size_t`, of which `eo::hash` returns the lower 32.

A state also keeps the answers so far about the values that are still live.
-/

namespace EthosCpc

open Function (update update_of_ne update_self)

/-- The term store with `d_hashMap` and `d_hashCounter`, and the answers of `eo::hash` and
`eo::cmp`. -/
structure HashState where
  store : Store
  hashMap : Ptr → Option UInt64
  hashCounter : UInt64
  hashed : List (Ptr × Nat)
  compared : List (Ptr × Ptr × Bool)

namespace HashState

def empty : HashState := ⟨.empty, fun _ => none, 0, [], []⟩

def getHash (s : HashState) (e : Ptr) : UInt64 × HashState :=
  match s.hashMap e with
  | some h => (h, s)
  | none =>
    let ret := s.hashCounter + 1
    (ret, { s with hashCounter := ret, hashMap := Function.update s.hashMap e (some ret) })

/-- An evaluation, or an operation of the term store. -/
inductive Op
  | store (op : Store.Op)
  | hash (t : Ptr)
  | compare (t₁ t₂ : Ptr)

section Runs

variable (isEvaluatable : Store → Ptr → Bool)

/-- `EVAL_HASH` and `EVAL_COMPARE`, which do nothing for an evaluatable term.  In `markDeleted`
a value gives up its hash. -/
def exec (s : HashState) : Op → Option HashState
  | .store op => (s.store.exec op).map fun st =>
    { s with
      store := st
      hashMap := fun e => if st.isLive e then s.hashMap e else none
      hashed := s.hashed.filter fun a => st.isLive a.1
      compared := s.compared.filter fun a => st.isLive a.1 && st.isLive a.2.1 }
  | .hash t =>
    if !s.store.isLive t then none
    else if isEvaluatable s.store t then some s
    else
      let r := s.getHash t
      some { r.2 with hashed := (t, r.1.toUInt32.toNat) :: r.2.hashed }
  | .compare t₁ t₂ =>
    if !(s.store.isLive t₁ && s.store.isLive t₂) then none
    else if isEvaluatable s.store t₁ || isEvaluatable s.store t₂ then some s
    else
      let r₁ := s.getHash t₁
      let r₂ := r₁.2.getHash t₂
      some { r₂.2 with compared := (t₁, t₂, decide (r₁.1 > r₂.1)) :: r₂.2.compared }

def run (s : HashState) : List Op → Option HashState
  | [] => some s
  | op :: ops => (s.exec isEvaluatable op).bind fun s' => s'.run ops

/-- The hash that a value may get differs from those of the live values in the bits that
`eo::hash` returns. -/
def FreshHash (s : HashState) (t : Ptr) : Prop :=
  s.hashMap t = none → ∀ u h, s.hashMap u = some h → h.toUInt32 ≠ (s.hashCounter + 1).toUInt32

def HashSafe (s : HashState) : Op → Prop
  | .store _ => True
  | .hash t => isEvaluatable s.store t = false → s.FreshHash t
  | .compare t₁ t₂ => isEvaluatable s.store t₁ = false → isEvaluatable s.store t₂ = false →
      s.FreshHash t₁ ∧ (s.getHash t₁).2.FreshHash t₂

/-- All hashes of a run are fresh. -/
def HashesSafe (s : HashState) : List Op → Prop
  | [] => True
  | op :: ops =>
    s.HashSafe isEvaluatable op ∧ ∀ s', s.exec isEvaluatable op = some s' → s'.HashesSafe ops

end Runs

/-- The answers are those of an order on the terms. -/
structure Consistent (s : HashState) : Prop where
  hash : ∀ {t u n m}, (t, n) ∈ s.hashed → (u, m) ∈ s.hashed → (n = m ↔ t = u)
  fixed : ∀ {t u b c}, (t, u, b) ∈ s.compared → (t, u, c) ∈ s.compared → b = c
  total : ∀ {t u b c}, (t, u, b) ∈ s.compared → (u, t, c) ∈ s.compared →
    t = u ∧ b = false ∧ c = false ∨ t ≠ u ∧ c = !b
  trans : ∀ {t u v b}, (t, u, true) ∈ s.compared → (u, v, true) ∈ s.compared →
    (t, v, b) ∈ s.compared → b = true

/-- The answers are read off the hash map, where live values differ in the bits returned. -/
structure Recorded (s : HashState) : Prop where
  distinct : ∀ {t u h k}, s.hashMap t = some h → s.hashMap u = some k →
    h.toUInt32 = k.toUInt32 → t = u
  hashed : ∀ {t n}, (t, n) ∈ s.hashed → ∃ h, s.hashMap t = some h ∧ n = h.toUInt32.toNat
  compared : ∀ {t u b}, (t, u, b) ∈ s.compared →
    ∃ h k, s.hashMap t = some h ∧ s.hashMap u = some k ∧ b = decide (h > k)

variable {s s' : HashState} {isEvaluatable : Store → Ptr → Bool} {t u : Ptr}

lemma Recorded.consistent (h : s.Recorded) : s.Consistent where
  hash ht hu := by
    obtain ⟨a, ha, rfl⟩ := h.hashed ht
    obtain ⟨b, hb, rfl⟩ := h.hashed hu
    refine ⟨fun heq => h.distinct ha hb (UInt32.toNat_inj.1 heq), ?_⟩
    rintro rfl
    rw [Option.some.inj (ha.symm.trans hb)]
  fixed ht hu := by
    obtain ⟨a, b, ha, hb, rfl⟩ := h.compared ht
    obtain ⟨a', b', ha', hb', rfl⟩ := h.compared hu
    cases ha.symm.trans ha'
    cases hb.symm.trans hb'
    rfl
  total {t u _ _} ht hu := by
    obtain ⟨a, b, ha, hb, rfl⟩ := h.compared ht
    obtain ⟨b', a', hb', ha', rfl⟩ := h.compared hu
    cases ha.symm.trans ha'
    cases hb.symm.trans hb'
    by_cases htu : t = u
    · subst htu
      cases ha.symm.trans hb
      exact .inl ⟨rfl, by simp, by simp⟩
    have hne : a ≠ b := fun hab => htu (h.distinct ha hb (by rw [hab]))
    refine .inr ⟨htu, ?_⟩
    rw [← decide_not]
    refine decide_eq_decide.2 ?_
    rcases UInt64.lt_or_lt_of_ne hne with hlt | hgt
    · exact iff_of_true hlt (UInt64.lt_asymm hlt)
    · exact iff_of_false (UInt64.lt_asymm hgt) (not_not_intro hgt)
  trans ht hu hv := by
    obtain ⟨a, b, ha, hb, hab⟩ := h.compared ht
    obtain ⟨b', c, hb', hc, hbc⟩ := h.compared hu
    obtain ⟨a', c', ha', hc', rfl⟩ := h.compared hv
    cases hb.symm.trans hb'
    cases ha.symm.trans ha'
    cases hc.symm.trans hc'
    exact decide_eq_true (UInt64.lt_trans (of_decide_eq_true hbc.symm) (of_decide_eq_true hab.symm))

lemma Recorded.getHash (h : s.Recorded) (hfresh : s.FreshHash t) :
    (s.getHash t).2.Recorded ∧ (s.getHash t).2.hashMap t = some (s.getHash t).1 ∧
      ∀ {u k}, s.hashMap u = some k → (s.getHash t).2.hashMap u = some k := by
  unfold HashState.getHash
  cases ht : s.hashMap t with
  | some k => exact ⟨h, ht, id⟩
  | none =>
    have hkeep : ∀ {u k}, s.hashMap u = some k →
        update s.hashMap t (some (s.hashCounter + 1)) u = some k := by
      intro u k hu
      rw [update_of_ne]
      · exact hu
      · rintro rfl
        cases ht.symm.trans hu
    have hcases : ∀ {u k}, update s.hashMap t (some (s.hashCounter + 1)) u = some k →
        u = t ∧ k = s.hashCounter + 1 ∨ s.hashMap u = some k := by
      intro u k hu
      by_cases hut : u = t
      · rw [hut, update_self] at hu
        exact .inl ⟨hut, (Option.some.inj hu).symm⟩
      · exact .inr (by rwa [update_of_ne hut] at hu)
    refine ⟨⟨?_, ?_, ?_⟩, update_self .., hkeep⟩
    · intro u v a b hu hv hab
      rcases hcases hu with ⟨hut, rfl⟩ | hu <;> rcases hcases hv with ⟨hvt, rfl⟩ | hv
      · exact hut.trans hvt.symm
      · exact absurd hab.symm (hfresh ht v b hv)
      · exact absurd hab (hfresh ht u a hu)
      · exact h.distinct hu hv hab
    · intro u n hu
      obtain ⟨k, hk, hn⟩ := h.hashed hu
      exact ⟨k, hkeep hk, hn⟩
    intro u v b hu
    obtain ⟨k, l, hk, hl, hb⟩ := h.compared hu
    exact ⟨k, l, hkeep hk, hkeep hl, hb⟩

lemma Recorded.exec {op : Op} (h : s.Recorded) (hsafe : s.HashSafe isEvaluatable op)
    (hexec : s.exec isEvaluatable op = some s') : s'.Recorded := by
  cases op with
  | store op =>
    obtain ⟨st, -, rfl⟩ := map_inv hexec
    refine ⟨?_, ?_, ?_⟩
    · intro t u a b ht hu
      exact h.distinct (Option.ite_none_right_eq_some.1 ht).2 (Option.ite_none_right_eq_some.1 hu).2
    · intro t n ht
      obtain ⟨ht, hlive⟩ := List.mem_filter.1 ht
      obtain ⟨a, ha, hn⟩ := h.hashed ht
      exact ⟨a, (if_pos hlive).trans ha, hn⟩
    intro t u b ht
    obtain ⟨ht, hlive⟩ := List.mem_filter.1 ht
    obtain ⟨ht', hu'⟩ := (Bool.and_eq_true ..).mp hlive
    obtain ⟨a, c, ha, hc, hb⟩ := h.compared ht
    exact ⟨a, c, (if_pos ht').trans ha, (if_pos hu').trans hc, hb⟩
  | hash t =>
    rw [HashState.exec] at hexec
    split at hexec
    · cases hexec
    split at hexec
    · cases hexec
      exact h
    rename_i hev
    obtain ⟨hrec, ht, _⟩ := h.getHash (hsafe (Bool.not_eq_true _ ▸ hev))
    cases hexec
    refine ⟨hrec.distinct, fun {u n} hu => ?_, hrec.compared⟩
    rcases List.mem_cons.1 hu with heq | hu
    · cases heq
      exact ⟨_, ht, rfl⟩
    · exact hrec.hashed hu
  | compare t1 t2 =>
    rw [HashState.exec] at hexec
    split at hexec
    · cases hexec
    split at hexec
    · cases hexec
      exact h
    rename_i hev
    obtain ⟨hev1, hev2⟩ := Bool.or_eq_false_iff.1 (Bool.not_eq_true _ ▸ hev)
    obtain ⟨hfresh1, hfresh2⟩ := hsafe hev1 hev2
    obtain ⟨hrec1, ht1, _⟩ := h.getHash hfresh1
    obtain ⟨hrec, ht2, hkeep⟩ := hrec1.getHash hfresh2
    cases hexec
    refine ⟨hrec.distinct, hrec.hashed, fun {u v b} hu => ?_⟩
    rcases List.mem_cons.1 hu with heq | hu
    · cases heq
      exact ⟨_, _, hkeep ht1, ht2, rfl⟩
    · exact hrec.compared hu

lemma Recorded.run {ops : List Op} (h : s.Recorded) (hsafe : s.HashesSafe isEvaluatable ops)
    (hrun : s.run isEvaluatable ops = some s') : s'.Recorded := by
  induction ops generalizing s with
  | nil =>
    cases hrun
    exact h
  | cons op ops ih =>
    obtain ⟨s1, hexec, hrun⟩ := bind_inv hrun
    exact ih (h.exec hsafe.1 hexec) (hsafe.2 s1 hexec) hrun

lemma recorded_empty : empty.Recorded := ⟨nofun, nofun, nofun⟩

/-- While hashes are fresh in the bits returned, the answers about live terms are those of an
order. -/
theorem consistent_of_run {ops : List Op} (hsafe : empty.HashesSafe isEvaluatable ops)
    (hrun : empty.run isEvaluatable ops = some s) : s.Consistent :=
  (recorded_empty.run hsafe hrun).consistent

def twoConsts : List Op :=
  [.store (.mkSymbolInternal .const 0), .store (.mkSymbolInternal .const 1), .compare 0 1]

theorem consistent_of_run_two : ((empty.run (fun _ _ => false) twoConsts).get rfl).Consistent := by
  refine consistent_of_run (?_ : empty.HashesSafe (fun _ _ => false) twoConsts)
    (Option.some_get _).symm
  refine ⟨trivial, ?_⟩
  rintro _ ⟨⟩
  refine ⟨trivial, ?_⟩
  rintro _ ⟨⟩
  refine ⟨fun _ _ => ⟨fun _ u h hu => ?_, fun _ u h hu => ?_⟩, fun _ _ => trivial⟩
  · rcases u with _ | _ | u <;> cases hu
  · rcases u with _ | _ | u <;> cases hu
    decide

/-- The second constant is created, hashed and deleted. -/
def reuse : List Op :=
  [.store (.mkSymbolInternal .const 1), .hash 1, .store (.inc 1), .store (.dec 1)]

/-- One constant is live, and has the hash 1. -/
def oneHashed (c : UInt64) : HashState where
  store := Store.empty.newExprValue .const [] 0
  hashMap := Function.update (fun _ => none) 0 (some 1)
  hashCounter := c
  hashed := [(0, 1)]
  compared := []

lemma run_reuse (c : UInt64) (ops : List Op) : (oneHashed c).run (fun _ _ => false) (reuse ++ ops) =
      (oneHashed (c + 1)).run (fun _ _ => false) ops := by
  change HashState.run _ _ ops = _
  congr 1
  rw [oneHashed, HashState.mk.injEq, Store.mk.injEq]
  refine ⟨⟨funext fun e => ?_, funext fun k => ?_⟩, funext fun e => ?_, rfl, rfl, rfl⟩
  · rcases e with _ | _ | e <;> rfl
  · cases k <;> rfl
  · rcases e with _ | _ | e <;> rfl

lemma run_reuse_many (n : Nat) (c : UInt64) (ops : List Op) :
    (oneHashed c).run (fun _ _ => false) ((List.replicate n reuse).flatten ++ ops) =
      (oneHashed (c + .ofNat n)).run (fun _ _ => false) ops := by
  induction n generalizing c with
  | zero => simp
  | succ n ih =>
    rw [List.replicate_succ, List.flatten_cons, List.append_assoc, run_reuse, ih, UInt64.ofNat_add,
      UInt64.add_assoc, UInt64.add_comm 1]
    rfl

/-- After `2^32` constants the second one has the hash that `eo::hash` returned for the first. -/
theorem not_consistent_of_run : ¬ ∀ isEvaluatable ops s,
    empty.run isEvaluatable ops = some s → s.Consistent := by
  intro h
  have hstart : ∀ ops, empty.run (fun _ _ => false) (.store (.mkSymbolInternal .const 0) ::
      .hash 0 :: ops) = (oneHashed 1).run (fun _ _ => false) ops := by
    intro ops
    change HashState.run _ _ ops = _
    congr 1
    rw [oneHashed, HashState.mk.injEq]
    refine ⟨rfl, funext fun e => ?_, rfl, rfl, rfl⟩
    cases e <;> rfl
  have hcons := h (fun _ _ => false) (.store (.mkSymbolInternal .const 0) :: .hash 0 ::
    ((List.replicate (2 ^ 32 - 1) reuse).flatten ++ [.store (.mkSymbolInternal .const 1), .hash 1]))
    _ ((hstart _).trans (run_reuse_many ..))
  have := (hcons.hash (.head _) (.tail _ (.head _))).1 (by decide)
  contradiction

end HashState

end EthosCpc
