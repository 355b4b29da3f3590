import Mathlib.Data.List.Infix
import Mathlib.Data.List.Lookmap
import EthosCpc.Library.Inversion

/-!
# Tries

A trie keeps data at lists of keys.  A node has a finite map of children,
here an association list, and possibly a datum.  `lookup` is the only
specification of the two updates: `update` changes the datum of one list of
keys, `erase` removes everything below a path.
-/

namespace EthosCpc.Library

/-! ## Association lists -/

section Assoc

variable {α γ : Type} [DecidableEq α]

/-- Overwrite the entry of a key, or add one. -/
def assocSet (a : α) (c : γ) : List (α × γ) → List (α × γ)
  | [] => [(a, c)]
  | (b, d) :: l => if b = a then (a, c) :: l else (b, d) :: assocSet a c l

/-- Remove the entry of a key. -/
def assocErase (a : α) (l : List (α × γ)) : List (α × γ) := l.filter fun p => p.1 ≠ a

lemma assocLookup_cons (b k : α) (d : γ) (l : List (α × γ)) :
    List.lookup b ((k, d) :: l) = if b = k then some d else l.lookup b := by
  rw [List.lookup_cons]
  by_cases h : b = k
  · rw [if_pos h, beq_iff_eq.2 h]
  · rw [if_neg h, beq_eq_false_iff_ne.2 h]

lemma lookup_assocSet (a b : α) (c : γ) (l : List (α × γ)) :
    (assocSet a c l).lookup b = if b = a then some c else l.lookup b := by
  induction l with
  | nil => rw [assocSet, assocLookup_cons]
  | cons p l ih =>
    obtain ⟨k, d⟩ := p
    rw [assocSet]
    by_cases hk : k = a
    · rw [if_pos hk, assocLookup_cons, assocLookup_cons, hk]
      by_cases h : b = a
      · rw [if_pos h, if_pos h]
      · rw [if_neg h, if_neg h, if_neg h]
    rw [if_neg hk, assocLookup_cons, assocLookup_cons, ih]
    by_cases h : b = k
    · have hba : b ≠ a := fun hb => hk (h.symm.trans hb)
      rw [if_pos h, if_neg hba, if_pos h]
    · rw [if_neg h, if_neg h]

lemma lookup_assocErase (a b : α) (l : List (α × γ)) :
    (assocErase a l).lookup b = if b = a then none else l.lookup b := by
  induction l with
  | nil =>
    rw [assocErase, List.filter_nil, List.lookup_nil]
    split <;> rfl
  | cons p l ih =>
    obtain ⟨k, d⟩ := p
    rw [assocErase] at ih
    rw [assocErase, List.filter_cons, assocLookup_cons]
    by_cases hk : k = a
    · rw [if_neg (by simpa using hk), ih, hk]
      by_cases h : b = a
      · rw [if_pos h, if_pos h]
      · rw [if_neg h, if_neg h, if_neg h]
    rw [if_pos (by simpa using hk), assocLookup_cons, ih]
    by_cases h : b = k
    · have hba : b ≠ a := fun hb => hk (h.symm.trans hb)
      rw [if_pos h, if_neg hba, if_pos h]
    · rw [if_neg h, if_neg h]

/-- Two keys with entries need two entries. -/
lemma one_lt_length_of_lookup {a b : α} {c d : γ} {l : List (α × γ)} (hab : a ≠ b)
    (ha : l.lookup a = some c) (hb : l.lookup b = some d) : 1 < l.length := by
  match l with
  | [] => contradiction
  | [(k, e)] =>
    rw [assocLookup_cons, List.lookup_nil] at ha hb
    have hka : a = k := by
      by_contra h
      rw [if_neg h] at ha
      contradiction
    have hkb : b = k := by
      by_contra h
      rw [if_neg h] at hb
      contradiction
    exact absurd (hka.trans hkb.symm) hab
  | _ :: _ :: l => simp

end Assoc

/-! ## Nodes -/

inductive Trie (α β : Type)
  | node (children : List (α × Trie α β)) (data : Option β)

namespace Trie

variable {α β : Type}

def empty : Trie α β := node [] none

def children : Trie α β → List (α × Trie α β)
  | node cs _ => cs

def data : Trie α β → Option β
  | node _ d => d

variable [DecidableEq α]

def child (t : Trie α β) (a : α) : Option (Trie α β) := t.children.lookup a

def find (t : Trie α β) : List α → Option (Trie α β)
  | [] => some t
  | a :: ks => (t.child a).bind fun c => c.find ks

def lookup (t : Trie α β) (ks : List α) : Option β := (t.find ks).bind data

/-- Set the datum at a list of keys, with all nodes that are missing on the
way. -/
def update (d : Option β) : List α → Trie α β → Trie α β
  | [], node cs _ => node cs d
  | a :: ks, node cs e => node (assocSet a (update d ks ((cs.lookup a).getD empty)) cs) e

/-- Remove the node at a list of keys and all nodes below it. -/
def erase : List α → Trie α β → Trie α β
  | [], t => t
  | a :: ks, node cs e =>
    match ks with
    | [] => node (assocErase a cs) e
    | _ :: _ =>
      match cs.lookup a with
      | none => node cs e
      | some c => node (assocSet a (erase ks c) cs) e

lemma find_cons (t : Trie α β) (a : α) (ks : List α) :
    t.find (a :: ks) = (t.child a).bind fun c => c.find ks := rfl

@[simp] lemma lookup_empty (ks : List α) : (empty : Trie α β).lookup ks = none := by
  cases ks <;> rfl

lemma lookup_cons (t : Trie α β) (a : α) (ks : List α) :
    t.lookup (a :: ks) = (t.child a).bind fun c => c.lookup ks := by
  rw [lookup, find_cons]
  cases t.child a <;> rfl

lemma find_append (t : Trie α β) (p ks : List α) :
    t.find (p ++ ks) = (t.find p).bind fun c => c.find ks := by
  induction p generalizing t with
  | nil => rfl
  | cons a p ih =>
    rw [List.cons_append, find_cons, find_cons]
    cases h : t.child a with
    | none => rfl
    | some c => exact ih c

/-- A datum stands at a node. -/
lemma isSome_find_of_lookup {t : Trie α β} {ks : List α} {d : β} (h : t.lookup ks = some d) :
    ∃ n, t.find ks = some n := by
  obtain ⟨n, hn, _⟩ := bind_inv h
  exact ⟨n, hn⟩

/-! ## What the updates do -/

lemma lookup_update (d : Option β) (ks : List α) (t : Trie α β) (ks' : List α) :
    (update d ks t).lookup ks' = if ks' = ks then d else t.lookup ks' := by
  induction ks generalizing t ks' with
  | nil =>
    obtain ⟨cs, e⟩ := t
    cases ks' with
    | nil => rfl
    | cons b ks' => rfl
  | cons a ks ih =>
    obtain ⟨cs, e⟩ := t
    cases ks' with
    | nil => rfl
    | cons b ks' =>
      rw [update, lookup_cons, lookup_cons, child, child, children, lookup_assocSet]
      by_cases hba : b = a
      swap
      · rw [if_neg hba, if_neg (fun h => hba (List.cons.inj h).1), children]
      rw [if_pos hba, Option.bind_some, ih, hba]
      by_cases hks : ks' = ks
      · rw [if_pos hks, if_pos (by rw [hks])]
      rw [if_neg hks, if_neg (by simpa using hks), children]
      cases List.lookup a cs with
      | none => exact lookup_empty ks'
      | some c => rfl

lemma lookup_erase {p : List α} (hp : p ≠ []) (t : Trie α β) (ks : List α) :
    (erase p t).lookup ks = if p <+: ks then none else t.lookup ks := by
  induction p generalizing t ks with
  | nil => contradiction
  | cons a p ih =>
    obtain ⟨cs, e⟩ := t
    cases ks with
    | nil =>
      rw [if_neg (by simp)]
      unfold erase
      split
      · rfl
      · split <;> rfl
    | cons b ks =>
      have hchild : (node cs e : Trie α β).child b = cs.lookup b := rfl
      rw [lookup_cons (node cs e), hchild]
      cases p with
      | nil =>
        rw [erase, lookup_cons, child, children, lookup_assocErase]
        by_cases hba : b = a
        · rw [if_pos hba, if_pos (by simp [hba])]
          rfl
        rw [if_neg hba, if_neg]
        intro hpre
        exact hba (List.cons_prefix_cons.1 hpre).1.symm
      | cons a' p =>
        rw [erase]
        cases hc : List.lookup a cs with
        | none =>
          simp only
          rw [lookup_cons, child, children]
          split
          · rename_i hpre
            rw [← (List.cons_prefix_cons.1 hpre).1, hc]
            rfl
          · rfl
        | some c =>
          simp only
          rw [lookup_cons, child, children, lookup_assocSet]
          by_cases hba : b = a
          · rw [if_pos hba, Option.bind_some, ih (by simp), hba, hc, Option.bind_some]
            simp only [List.cons_prefix_cons, true_and]
          rw [if_neg hba, if_neg]
          intro hpre
          exact hba (List.cons_prefix_cons.1 hpre).1.symm

end Trie

end EthosCpc.Library
