import Mathlib.Logic.Basic

/-!
# Predicates on partial heaps

A heap is a partial map from locations to data.  The separating conjunction of
two predicates holds of the heaps that split into two disjoint parts, one for
each predicate.  It is commutative and associative, and its unit holds of the
empty heap only: a predicate that is always true is not a unit.
-/

namespace EthosCpc.Library

/-- Partial heaps. -/
abbrev PHeap (Loc Data : Type) : Type := Loc → Option Data

variable {Loc Data : Type}

namespace PHeap

/-- The heap splits into two parts with different locations. -/
def Splits (h h₁ h₂ : PHeap Loc Data) : Prop :=
  ∀ l, (h₁ l = none ∧ h l = h₂ l) ∨ (h₂ l = none ∧ h l = h₁ l)

variable {h₁ h₂ : PHeap Loc Data}

lemma Splits.symm {h : PHeap Loc Data} (hs : Splits h h₁ h₂) : Splits h h₂ h₁ :=
  fun l => (hs l).symm

/-- The two heaps together, the first one where both are defined. -/
def join (h₁ h₂ : PHeap Loc Data) : PHeap Loc Data := fun l => (h₁ l).or (h₂ l)

lemma join_of_left {l : Loc} (h : h₁ l = none) : join h₁ h₂ l = h₂ l := by
  rw [join, h, Option.none_or]

lemma join_of_right {l : Loc} (h : h₂ l = none) : join h₁ h₂ l = h₁ l := by
  rw [join, h, Option.or_none]

/-- The parts of a part can be put with the other part. -/
lemma Splits.assoc {h g h3 : PHeap Loc Data} (hs : Splits h g h3) (hg : Splits g h₁ h₂) :
    Splits h h₁ (join h₂ h3) ∧ Splits (join h₂ h3) h₂ h3 := by
  constructor
  · intro l
    rcases hs l with ⟨hgl, hl⟩ | ⟨h₃l, hl⟩ <;> rcases hg l with ⟨h₁l, hgl'⟩ | ⟨h₂l, hgl'⟩
    · exact .inl ⟨h₁l, hl.trans (join_of_left (hgl'.symm.trans hgl)).symm⟩
    · exact .inl ⟨hgl'.symm.trans hgl, hl.trans (join_of_left h₂l).symm⟩
    · exact .inl ⟨h₁l, (hl.trans hgl').trans (join_of_right h₃l).symm⟩
    · exact .inr ⟨(join_of_left h₂l).trans h₃l, hl.trans hgl'⟩
  intro l
  rcases hs l with ⟨hgl, -⟩ | ⟨h₃l, -⟩
  · rcases hg l with ⟨-, hgl'⟩ | ⟨h₂l, -⟩
    · exact .inl ⟨hgl'.symm.trans hgl, join_of_left (hgl'.symm.trans hgl)⟩
    · exact .inl ⟨h₂l, join_of_left h₂l⟩
  · exact .inr ⟨h₃l, join_of_right h₃l⟩

def empty : PHeap Loc Data := fun _ => none

lemma splits_empty {h g : PHeap Loc Data} : Splits h empty g ↔ h = g := by
  constructor
  · intro hs
    funext l
    rcases hs l with ⟨-, hl⟩ | ⟨hg, hl⟩
    · exact hl
    · rw [hl, hg]
      rfl
  · rintro rfl l
    exact .inl ⟨rfl, rfl⟩

end PHeap

open Classical in
noncomputable def sepConj (p q : PHeap Loc Data → Bool) (h : PHeap Loc Data) : Bool :=
  decide (∃ h₁ h₂, PHeap.Splits h h₁ h₂ ∧ p h₁ = true ∧ q h₂ = true)

open Classical in
noncomputable def sepEmp (h : PHeap Loc Data) : Bool := decide (h = PHeap.empty)

lemma sepConj_iff {p q : PHeap Loc Data → Bool} {h : PHeap Loc Data} :
    sepConj p q h = true ↔ ∃ h₁ h₂, PHeap.Splits h h₁ h₂ ∧ p h₁ = true ∧ q h₂ = true := by
  simp [sepConj]

lemma sepEmp_iff {h : PHeap Loc Data} : sepEmp h = true ↔ h = PHeap.empty := by
  simp [sepEmp]

lemma sepConj_comm : Std.Commutative (@sepConj Loc Data) where
  comm := by
    intro p q
    funext h
    rw [Bool.eq_iff_iff, sepConj_iff, sepConj_iff]
    constructor
    · rintro ⟨h₁, h₂, hs, hp, hq⟩
      exact ⟨h₂, h₁, hs.symm, hq, hp⟩
    · rintro ⟨h₁, h₂, hs, hq, hp⟩
      exact ⟨h₂, h₁, hs.symm, hp, hq⟩

lemma sepConj_assoc : Std.Associative (@sepConj Loc Data) where
  assoc := by
    intro p q r
    funext h
    rw [Bool.eq_iff_iff, sepConj_iff, sepConj_iff]
    constructor
    · rintro ⟨g, h3, hs, hpq, hr⟩
      obtain ⟨h₁, h₂, hg, hp, hq⟩ := sepConj_iff.1 hpq
      obtain ⟨hs', hg'⟩ := hs.assoc hg
      exact ⟨h₁, _, hs', hp, sepConj_iff.2 ⟨h₂, h3, hg', hq, hr⟩⟩
    rintro ⟨h₁, g, hs, hp, hqr⟩
    obtain ⟨h₂, h3, hg, hq, hr⟩ := sepConj_iff.1 hqr
    -- the same splitting, from the other end
    obtain ⟨hs', hg'⟩ := hs.symm.assoc hg.symm
    exact ⟨_, h3, hs'.symm, sepConj_iff.2 ⟨h₁, h₂, hg'.symm, hp, hq⟩, hr⟩

lemma sepConj_ident : Std.LawfulIdentity (@sepConj Loc Data) sepEmp where
  left_id := by
    intro p
    funext h
    rw [Bool.eq_iff_iff, sepConj_iff]
    constructor
    · rintro ⟨h₁, h₂, hs, hemp, hp⟩
      obtain rfl : h₁ = PHeap.empty := sepEmp_iff.1 hemp
      rw [PHeap.splits_empty.1 hs]
      exact hp
    · intro hp
      exact ⟨PHeap.empty, h, PHeap.splits_empty.2 rfl, sepEmp_iff.2 rfl, hp⟩
  right_id := by
    intro p
    funext h
    rw [Bool.eq_iff_iff, sepConj_iff]
    constructor
    · rintro ⟨h₁, h₂, hs, hp, hemp⟩
      obtain rfl : h₂ = PHeap.empty := sepEmp_iff.1 hemp
      rw [PHeap.splits_empty.1 hs.symm]
      exact hp
    · intro hp
      exact ⟨h, PHeap.empty, (PHeap.splits_empty.2 rfl).symm, hp, sepEmp_iff.2 rfl⟩

end EthosCpc.Library
