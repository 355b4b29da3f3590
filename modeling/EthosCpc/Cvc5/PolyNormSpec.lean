import EthosCpc.Cvc5.NodeSpec
import EthosCpc.Cvc5.PolyNorm

/-!
# The normal form is canonical

The traversal computes `recPoly`, the polynomial of a node by recursion on the
node, whatever is shared and whatever is zero (`mkPolyNorm_eq`).  That map is
normal and stands for `polyOf`, the polynomial of a node in its leaves
(`denote_recPoly`), so two nodes have equal normal forms exactly when they are
the same polynomial.  The value of a node is its polynomial at the values of its
leaves (`numVal_polyOf`).
-/

namespace EthosCpc.Cvc5

open Library (MapPoly)
open Library.MapPoly
open Option (bind_some map_some)
open MvPolynomial (aeval aeval_C aeval_X monomial)
open List (Forall₂ forall_mem_cons map_cons map_nil sum_cons)
open AList (lookup_insert lookup_insert_ne)

variable {Γ : Nat → Ty} {le : Node → Node → Bool}

/-! ## The traversal computes `recPoly` -/

section Traversal

variable (le)

mutual

def recPoly : Node → PolyNorm
  | .constInteger z => addMonomial ∅ [] z false
  | .constRational q => addMonomial ∅ [] q false
  | .constBitvector _ v => addMonomial ∅ [] v.toNat false
  | .constBoolean b => addMonomial ∅ [.constBoolean b] 1 false
  | .app k cs =>
    if isPolyOp k then combine le k 0 ∅ (recPolys cs)
    else match constDivision? k cs, recPolys cs with
      | some aq, p :: _ => multiplyMonomial le (add ∅ p) [] aq.2⁻¹
      | _, _ => addMonomial ∅ [.app k cs] 1 false

/-- The polynomials of the children. -/
def recPolys : List Node → List PolyNorm
  | [] => []
  | c :: cs => recPoly c :: recPolys cs

end

lemma recPolys_eq_map (cs : List Node) : recPolys le cs = cs.map (recPoly le) := by
  induction cs with
  | nil => rfl
  | cons c cs ih => rw [recPolys, ih, map_cons]

lemma roundsList_eq_sum (cs : List Node) : roundsList cs = (cs.map rounds).sum := by
  induction cs with
  | nil => rfl
  | cons c cs ih => rw [roundsList, ih, map_cons, sum_cons]

lemma rounds_pos (n : Node) : 2 ≤ rounds n := by
  cases n with
  | app k cs =>
    rw [rounds]
    omega
  | _ => simp [rounds]

lemma constDivision?_eq_some {k : Kind} {cs : List Node} {a : Node} {q : Rat}
    (h : constDivision? k cs = some (a, q)) :
    ∃ c ds, cs = a :: c :: ds ∧ c.rational? = some q ∧ q ≠ 0 ∧
      (k = .division ∨ k = .divisionTotal) := by
  unfold constDivision? at h
  split at h
  · rename_i a' c ds
    cases hc : c.rational? with
    | none => simp [hc] at h
    | some q' =>
      simp only [hc] at h
      split at h
      · rename_i hq
        cases h
        exact ⟨c, ds, rfl, hc, hq, .inl rfl⟩
      · cases h
  · rename_i a' c ds
    cases hc : c.rational? with
    | none => simp [hc] at h
    | some q' =>
      simp only [hc] at h
      split at h
      · rename_i hq
        cases h
        exact ⟨c, ds, rfl, hc, hq, .inr rfl⟩
      · cases h
  · cases h

/-- The nodes that are visited before a node. -/
def dependencies (n : Node) : List Node :=
  match firstVisit n with
  | .inl _ => []
  | .inr cs => cs

variable {n : Node}

lemma rounds_dependencies {cs : List Node} (h : firstVisit n = .inr cs) :
    (cs.map rounds).sum + 2 ≤ rounds n := by
  cases n with
  | app k ds =>
    unfold firstVisit at h
    rw [rounds, roundsList_eq_sum]
    cases hk : isPolyOp k with
    | true =>
      simp only [hk, if_true, Sum.inr.injEq] at h
      rw [h, Nat.add_comm]
    | false =>
      cases hdiv : constDivision? k ds with
      | none => simp [hk, hdiv] at h
      | some aq =>
        obtain ⟨a, q⟩ := aq
        obtain ⟨d, es, rfl, -⟩ := constDivision?_eq_some hdiv
        simp only [hk, hdiv, Bool.false_eq_true, if_false, Sum.inr.injEq] at h
        subst h
        simp only [map_cons, sum_cons, map_nil, List.sum_nil]
        omega
  | _ => cases h

lemma rounds_dependency {n c : Node} (hc : c ∈ dependencies n) : rounds c < rounds n := by
  cases hfirst : firstVisit n with
  | inl p => simp [dependencies, hfirst] at hc
  | inr cs =>
    rw [dependencies, hfirst] at hc
    have hle : rounds c ≤ (cs.map rounds).sum :=
      List.single_le_sum (by simp) _ (List.mem_map_of_mem hc)
    have hsum := rounds_dependencies hfirst
    omega

variable {p : PolyNorm}

lemma recPoly_of_firstVisit_inl (h : firstVisit n = .inl p) : recPoly le n = p := by
  cases n with
  | app k cs =>
    unfold firstVisit at h
    cases hk : isPolyOp k with
    | true => simp [hk] at h
    | false =>
      simp only [hk] at h
      cases hdiv : constDivision? k cs with
      | none =>
        simp only [hdiv] at h
        cases h
        rw [recPoly, hk, hdiv]
        rfl
      | some aq => simp [hdiv] at h
  | _ => exact Sum.inl.inj h

lemma mapM_eq_some_map {α β : Type*} {f : α → Option β} {g : α → β} {as : List α}
    (h : ∀ a ∈ as, f a = some (g a)) : as.mapM f = some (as.map g) := by
  induction as with
  | nil => rfl
  | cons a as ih =>
    obtain ⟨ha, has⟩ := forall_mem_cons.1 h
    rw [List.mapM_cons, ha, ih has]
    rfl

/-- When its children are done, a node gets its polynomial. -/
lemma secondVisit_eq {cs : List Node} {v : Visited}
    (h : firstVisit n = .inr cs) (hcs : ∀ c ∈ cs, v.lookup c = some (recPoly le c)) :
    secondVisit le v n = some (recPoly le n) := by
  cases n with
  | app k ds =>
    unfold firstVisit at h
    cases hk : isPolyOp k with
    | true =>
      simp only [hk, if_true, Sum.inr.injEq] at h
      subst h
      have hmap := mapM_eq_some_map hcs
      simp only [secondVisit, recPoly, hk, if_true, hmap, recPolys_eq_map, map_some]
    | false =>
      cases hdiv : constDivision? k ds with
      | none => simp [hk, hdiv] at h
      | some aq =>
        obtain ⟨a, q⟩ := aq
        obtain ⟨d, es, hds, _⟩ := constDivision?_eq_some hdiv
        simp only [hk, hdiv, Bool.false_eq_true, if_false, Sum.inr.injEq] at h
        subst h
        have ha := hcs a (by simp)
        simp only [secondVisit, recPoly, hk, hdiv, Bool.false_eq_true, if_false,
          bind_some, ha, map_some]
        rw [hds, recPolys]
  | _ => cases h

variable {visited : Visited}

/-- An empty polynomial is computed again, with the same result. -/
lemma secondVisit_done (hn : (recPoly le n).entries = [])
    (hcs : ∀ c ∈ dependencies n, visited.lookup c = some (recPoly le c)) :
    secondVisit le visited n = some (recPoly le n) := by
  have hempty : recPoly le n = ∅ := AList.ext hn
  cases hfirst : firstVisit n with
  | inr cs =>
    refine secondVisit_eq le hfirst ?_
    rwa [dependencies, hfirst] at hcs
  | inl p =>
    cases n with
    | constBoolean b =>
      rw [recPoly] at hn
      exact absurd hn (by simp [addMonomial])
    | app k cs =>
      have hp := recPoly_of_firstVisit_inl le hfirst
      unfold firstVisit at hfirst
      cases hk : isPolyOp k with
      | true => simp [hk] at hfirst
      | false =>
        cases hdiv : constDivision? k cs with
        | some aq => simp [hk, hdiv] at hfirst
        | none =>
          simp only [hk, hdiv, Bool.false_eq_true, if_false, Sum.inl.injEq] at hfirst
          rw [hp, ← hfirst] at hn
          exact absurd hn (by simp [addMonomial])
    | _ =>
      rw [hempty]
      rfl

/-! ## One node, all rounds -/

/-- Every visited node up to a size is done, and so are the nodes it depends
on. -/
def Finished (visited : Visited) (b : Nat) : Prop :=
  ∀ m p, rounds m ≤ b → visited.lookup m = some p →
    p = recPoly le m ∧ ∀ c ∈ dependencies m, visited.lookup c = some (recPoly le c)

/-- What the visits of a list of nodes of sizes up to `b` leave behind. -/
structure Visits (visited visited' : Visited) (ns : List Node) (b : Nat) : Prop where
  finished : ∀ b', b ≤ b' → Finished le visited b' → Finished le visited' b'
  done : ∀ n ∈ ns, visited'.lookup n = some (recPoly le n)
  old : ∀ m p, visited.lookup m = some p → visited'.lookup m = some p
  larger : ∀ m, b < rounds m → visited'.lookup m = visited.lookup m

/-- The loop takes the visited nodes from `visited` to `visited'` and the stack
from `visit` to `visit'` in at most `k` rounds. -/
def Reaches (k : Nat) (visited : Visited) (visit : List Node) (visited' : Visited)
    (visit' : List Node) : Prop :=
  ∃ j ≤ k, ∀ i, Traversal.run le (j + i) ⟨visited, visit⟩ = Traversal.run le i ⟨visited', visit'⟩

variable {le}

variable {s s' ns : List Node}

lemma Reaches.trans {k k' : Nat} {v v' v'' : Visited} {s'' : List Node}
    (h : Reaches le k v s v' s') (h' : Reaches le k' v' s' v'' s'') :
    Reaches le (k + k') v s v'' s'' := by
  obtain ⟨j, hj, hrun⟩ := h
  obtain ⟨j', hj', hrun'⟩ := h'
  refine ⟨j + j', by omega, fun i => ?_⟩
  rw [Nat.add_assoc, hrun, hrun']

variable {v v' : Visited}

lemma Reaches.mono {k k' : Nat}
    (h : Reaches le k v s v' s') (hk : k ≤ k') : Reaches le k' v s v' s' := by
  obtain ⟨j, hj, hrun⟩ := h
  exact ⟨j, hj.trans hk, hrun⟩

lemma reaches_of_step {cur : Node}
    (h : Traversal.step le ⟨v, cur :: s⟩ = some ⟨v', s'⟩) : Reaches le 1 v (cur :: s) v' s' := by
  refine ⟨1, le_rfl, fun i => ?_⟩
  rw [Nat.add_comm, Traversal.run, if_neg (by simp), h]
  rfl

lemma Finished.mono {b b' : Nat} (h : Finished le visited b') (hb : b ≤ b') :
    Finished le visited b := fun m p hm => h m p (hm.trans hb)

variable {b : Nat}

lemma Finished.insert
    (h : Finished le visited b) (hnew : visited.lookup n = none) (hn : b < rounds n) :
    Finished le (visited.insert n p) b := by
  intro m q hm hq
  rw [lookup_insert_ne (by rintro rfl; omega)] at hq
  obtain ⟨hrec, hdeps⟩ := h m q hm hq
  refine ⟨hrec, fun c hc => ?_⟩
  have hne : c ≠ n := by
    rintro rfl
    rw [hdeps _ hc] at hnew
    contradiction
  rw [lookup_insert_ne hne, hdeps c hc]

/-- A visited node is left alone, or computed again. -/
lemma Visits.of_lookup_eq {visited visited' : Visited}
    (heq : ∀ m, visited'.lookup m = visited.lookup m)
    (hn : visited.lookup n = some (recPoly le n)) : Visits le visited visited' [n] b where
  finished := by
    intro b' _ hfin m p hm hp
    rw [heq] at hp
    obtain ⟨hrec, hdeps⟩ := hfin m p hm hp
    exact ⟨hrec, fun c hc => by rw [heq, hdeps c hc]⟩
  done := by
    intro m hm
    rw [heq, List.mem_singleton.1 hm, hn]
  old := fun m p hp => by rw [heq, hp]
  larger := fun m _ => heq m

lemma Visits.cons {v v' v'' : Visited}
    (h : Visits le v v' [n] (rounds n)) (h' : Visits le v' v'' ns b) (hn : rounds n ≤ b) :
    Visits le v v'' (n :: ns) b where
  finished := fun b' hb hfin => h'.finished b' hb (h.finished b' (hn.trans hb) hfin)
  done := by
    intro m hm
    rcases List.mem_cons.1 hm with rfl | hm
    · exact h'.old _ _ (h.done _ (by simp))
    · exact h'.done m hm
  old := fun m p hp => h'.old m p (h.old m p hp)
  larger := fun m hm => (h'.larger m hm).trans (h.larger m (hn.trans_lt hm))

lemma Visits.leaf {v : Visited} (hnew : v.lookup n = none)
    (hfirst : firstVisit n = .inl p) : Visits le v (v.insert n p) [n] (rounds n) := by
  have hold : ∀ m q, v.lookup m = some q → (v.insert n p).lookup m = some q := by
    intro m q hq
    have hne : m ≠ n := by
      rintro rfl
      rw [hnew] at hq
      contradiction
    rwa [lookup_insert_ne hne]
  refine ⟨fun b' _ hfin m q hm hq => ?_, fun m hm => ?_, hold, fun m hm => ?_⟩
  · by_cases hmn : m = n
    · subst hmn
      rw [lookup_insert] at hq
      cases hq
      refine ⟨(recPoly_of_firstVisit_inl le hfirst).symm, fun c hc => ?_⟩
      simp [dependencies, hfirst] at hc
    · rw [lookup_insert_ne hmn] at hq
      obtain ⟨hrec, hdeps⟩ := hfin m q hm hq
      exact ⟨hrec, fun c hc => hold c _ (hdeps c hc)⟩
  · rw [List.mem_singleton.1 hm, lookup_insert, recPoly_of_firstVisit_inl le hfirst]
  · exact lookup_insert_ne (by rintro rfl; omega)

/-- An operation is done when it is seen again after its children. -/
lemma Visits.op {cs ds : List Node} (hnew : v.lookup n = none)
    (hfirst : firstVisit n = .inr cs) (hds : ∀ c ∈ cs, c ∈ ds)
    (hfin : Finished le v (rounds n))
    (hcs : Visits le (v.insert n ∅) v' ds (rounds n - 1)) :
    Visits le v (v'.insert n (recPoly le n)) [n] (rounds n) := by
  have hdep : dependencies n = cs := by rw [dependencies, hfirst]
  have hne_of_lt : ∀ m, rounds m < rounds n → m ≠ n := by
    rintro m hm rfl
    omega
  have hne_of_some : ∀ m q, v.lookup m = some q → m ≠ n := by
    rintro m q hq rfl
    rw [hnew] at hq
    contradiction
  have hmark : ∀ m, m ≠ n → (v.insert n ∅).lookup m = v.lookup m := fun m hm =>
    lookup_insert_ne hm
  have hlast : ∀ m, m ≠ n → (v'.insert n (recPoly le n)).lookup m = v'.lookup m := fun m hm =>
    lookup_insert_ne hm
  have hold : ∀ m q, v.lookup m = some q → (v'.insert n (recPoly le n)).lookup m = some q := by
    intro m q hq
    have hne := hne_of_some m q hq
    rw [hlast m hne]
    exact hcs.old m q (by rw [hmark m hne, hq])
  have hpos := rounds_pos n
  have hfin' : Finished le v' (rounds n - 1) :=
    hcs.finished _ le_rfl ((hfin.mono (Nat.sub_le _ _)).insert hnew (by omega))
  refine ⟨fun b' hb hfinb m q hm hq => ?_, fun m hm => ?_, hold, fun m hm => ?_⟩
  · by_cases hmn : m = n
    · subst hmn
      rw [lookup_insert] at hq
      cases hq
      refine ⟨rfl, fun c hc => ?_⟩
      rw [hlast c (hne_of_lt c (rounds_dependency hc))]
      exact hcs.done c (hds c (hdep ▸ hc))
    · rw [hlast m hmn] at hq
      -- a node smaller than `n` may be new, a larger one is not
      by_cases hlt : rounds m ≤ rounds n - 1
      · obtain ⟨hrec, hdeps⟩ := hfin' m q hlt hq
        refine ⟨hrec, fun c hc => ?_⟩
        have hcm := rounds_dependency hc
        rw [hlast c (hne_of_lt c (by omega)), hdeps c hc]
      rw [hcs.larger m (by omega), hmark m hmn] at hq
      obtain ⟨hrec, hdeps⟩ := hfinb m q hm hq
      exact ⟨hrec, fun c hc => hold c _ (hdeps c hc)⟩
  · rw [List.mem_singleton.1 hm, lookup_insert]
  · have hne : m ≠ n := by
      rintro rfl
      omega
    rw [hlast m hne, hcs.larger m (by omega), hmark m hne]

lemma visits_list (ih : ∀ n ∈ ns, ∀ v rest, Finished le v (rounds n) →
      ∃ v', Reaches le (rounds n) v (n :: rest) v' rest ∧ Visits le v v' [n] (rounds n))
    (hb : ∀ n ∈ ns, rounds n ≤ b) (v : Visited) (rest : List Node) (hfin : Finished le v b) :
    ∃ v', Reaches le (ns.map rounds).sum v (ns ++ rest) v' rest ∧ Visits le v v' ns b := by
  induction ns generalizing v with
  | nil =>
    refine ⟨v, ⟨0, le_rfl, fun i => by rw [Nat.zero_add]; rfl⟩, ?_⟩
    exact ⟨fun _ _ h => h, by simp, fun _ _ h => h, fun _ _ => rfl⟩
  | cons n ns ihs =>
    obtain ⟨ihn, ihns⟩ := forall_mem_cons.1 ih
    obtain ⟨hbn, hbns⟩ := forall_mem_cons.1 hb
    obtain ⟨v', hrun, hv'⟩ := ihn v (ns ++ rest) (hfin.mono hbn)
    obtain ⟨v'', hruns, hv''⟩ := ihs ihns hbns v' (hv'.finished b hbn hfin)
    refine ⟨v'', ?_, hv'.cons hv'' hbn⟩
    rw [map_cons, sum_cons]
    exact hrun.trans hruns

/-- One node on the stack: the loop comes back to the rest of the stack with the
node done and everything older unchanged. -/
lemma visits_node (n : Node) : ∀ v rest, Finished le v (rounds n) →
    ∃ v', Reaches le (rounds n) v (n :: rest) v' rest ∧ Visits le v v' [n] (rounds n) := by
  have hpos := rounds_pos n
  induction hsize : rounds n using Nat.strong_induction_on generalizing n with
  | _ b ih =>
    subst hsize
    intro v rest hfin
    cases hlook : v.lookup n with
    | some p =>
      obtain ⟨rfl, hdeps⟩ := hfin n p le_rfl hlook
      by_cases hempty : (recPoly le n).entries = []
      · have hsecond := secondVisit_done le hempty hdeps
        refine ⟨v.insert n (recPoly le n), ?_, Visits.of_lookup_eq (fun m => ?_) hlook⟩
        · refine (reaches_of_step ?_).mono (Nat.one_le_of_lt hpos)
          rw [Traversal.step]
          simp only [hlook, hempty, if_true, hsecond, map_some]
        by_cases hmn : m = n
        · rw [hmn, lookup_insert, hlook]
        · exact lookup_insert_ne hmn
      refine ⟨v, ?_, Visits.of_lookup_eq (fun m => rfl) hlook⟩
      refine (reaches_of_step ?_).mono (Nat.one_le_of_lt hpos)
      rw [Traversal.step]
      simp only [hlook, hempty, if_false]
    | none =>
      cases hfirst : firstVisit n with
      | inl p =>
        refine ⟨v.insert n p, ?_, Visits.leaf hlook hfirst⟩
        refine (reaches_of_step ?_).mono (Nat.one_le_of_lt hpos)
        rw [Traversal.step]
        simp only [hlook, hfirst]
      | inr cs =>
        have hdep : dependencies n = cs := by rw [dependencies, hfirst]
        have hlt : ∀ c ∈ cs.reverse, rounds c < rounds n := fun c hc =>
          rounds_dependency (by rw [hdep]; exact List.mem_reverse.1 hc)
        have hmark : Finished le (v.insert n ∅) (rounds n - 1) :=
          (hfin.mono (Nat.sub_le _ _)).insert hlook (by omega)
        obtain ⟨v', hruns, hv'⟩ := visits_list (b := rounds n - 1)
          (fun c (hc : c ∈ cs.reverse) => ih (rounds c) (hlt c hc) c (rounds_pos c) rfl)
          (fun c hc => by have := hlt c hc; omega) (v.insert n ∅) (n :: rest) hmark
        have hvn : v'.lookup n = some ∅ := by rw [hv'.larger n (by omega), lookup_insert]
        have hsecond := secondVisit_eq le (v := v') hfirst fun c hc =>
          hv'.done c (List.mem_reverse.2 hc)
        have hpush : Reaches le 1 v (n :: rest) (v.insert n ∅) (cs.reverse ++ n :: rest) :=
          reaches_of_step (by rw [Traversal.step]; simp only [hlook, hfirst])
        have hpop : Reaches le 1 v' (n :: rest) (v'.insert n (recPoly le n)) rest := by
          refine reaches_of_step ?_
          rw [Traversal.step]
          simp only [hvn, hsecond, AList.empty_entries, if_true, map_some]
        have htotal := rounds_dependencies hfirst
        refine ⟨v'.insert n (recPoly le n), ?_, Visits.op hlook hfirst
          (fun c hc => List.mem_reverse.2 hc) hfin hv'⟩
        refine (hpush.trans (hruns.trans hpop)).mono ?_
        rw [List.map_reverse, List.sum_reverse]
        omega

lemma mkPolyNorm_eq (n : Node) : mkPolyNorm le n = some (recPoly le n) := by
  have hstart : Finished le ∅ (rounds n) := by
    intro m p _ hp
    rw [AList.lookup_empty] at hp
    contradiction
  obtain ⟨v', ⟨j, hj, hrun⟩, hv'⟩ := visits_node n ∅ [] hstart
  obtain ⟨i, hi⟩ := Nat.exists_eq_add_of_le hj
  have hdone : Traversal.run le i ⟨v', []⟩ = some ⟨v', []⟩ := by
    cases i with
    | zero => rfl
    | succ i => rfl
  rw [mkPolyNorm, hi, hrun, hdone, bind_some]
  exact hv'.done n (by simp)

end Traversal

/-! ## The polynomial of a node in its leaves -/

section Polynomial

variable {K : Type*} [CommRing K] (φ : Rat → K)

/-- The polynomial of an operation, from those of its children. -/
noncomputable def kindPoly (leaf : MvPolynomial Node K) :
    Kind → List (MvPolynomial Node K) → MvPolynomial Node K
  | .add, ps | .bvAdd, ps => ps.sum
  | .mult, ps | .nonlinearMult, ps | .bvMult, ps => ps.prod
  | .sub, [p, q] | .bvSub, [p, q] => p - q
  | .neg, [p] | .bvNeg, [p] => -p
  | .toReal, [p] => p
  | _, _ => leaf

mutual

/-- The polynomial of a node over a ring with a reading of the constants. -/
noncomputable def polyOf : Node → MvPolynomial Node K
  | .constInteger z => MvPolynomial.C (φ z)
  | .constRational q => MvPolynomial.C (φ q)
  | .constBitvector _ v => MvPolynomial.C (φ v.toNat)
  | .constBoolean b => MvPolynomial.X (.constBoolean b)
  | .app k cs =>
    match constDivision? k cs, polysOf cs with
    | some aq, p :: _ => p * MvPolynomial.C (φ aq.2⁻¹)
    | _, ps => kindPoly (MvPolynomial.X (.app k cs)) k ps

/-- The polynomials of the children. -/
noncomputable def polysOf : List Node → List (MvPolynomial Node K)
  | [] => []
  | c :: cs => polyOf c :: polysOf cs

end

lemma polysOf_eq_map (cs : List Node) : polysOf φ cs = cs.map (polyOf φ) := by
  induction cs with
  | nil => rfl
  | cons c cs ih => rw [polysOf, ih, map_cons]

end Polynomial

/-! ## `recPoly` is normal and stands for `polyOf` -/

variable {cs : List Node}

lemma typesOf_eq_some {Ts : List Ty} :
    Node.typesOf Γ cs = some Ts ↔ Forall₂ (fun c T => c.typeOf Γ = some T) cs Ts :=
  readings_eq_some (by rw [Node.typesOf]) fun _ _ => by rw [Node.typesOf]

variable {k : Kind}

variable {T : Ty}

lemma typeOf_app_inv (h : (Node.app k cs).typeOf Γ = some T) :
    ∃ Ts, Forall₂ (fun c S => c.typeOf Γ = some S) cs Ts ∧ kindTy Γ k Ts = some T := by
  rw [Node.typeOf] at h
  obtain ⟨Ts, hTs, hk⟩ := bind_inv h
  exact ⟨Ts, typesOf_eq_some.1 hTs, hk⟩

lemma exists_typeOf_of_mem (h : (Node.app k cs).typeOf Γ = some T) {c : Node} (hc : c ∈ cs) :
    ∃ S, c.typeOf Γ = some S := by
  obtain ⟨Ts, hTs, -⟩ := typeOf_app_inv h
  clear h
  induction hTs with
  | nil => cases hc
  | cons hd _ ih =>
    rcases List.mem_cons.1 hc with rfl | hc
    · exact ⟨_, hd⟩
    · exact ih hc

lemma combines (k : Kind) : Combines le (isSubtracted k) (isMultiplied k) (combine le k) :=
  ⟨fun _ _ => rfl, fun _ _ _ _ => rfl⟩

lemma sorted_singleton (n : Node) : Sorted le [n] := List.pairwise_singleton _ _

lemma normal_recPoly (hle : IsOrder le) (n : Node) : Normal le (recPoly le n) := by
  have hleaf : ∀ (x : List Node) (c : Rat), Sorted le x →
      Normal le (addMonomial (∅ : PolyNorm) x c false) := fun x c hx =>
    normal_empty.addMonomial hx c false
  induction n with
  | constInteger z => exact hleaf _ _ List.Pairwise.nil
  | constRational q => exact hleaf _ _ List.Pairwise.nil
  | constBitvector w v => exact hleaf _ _ List.Pairwise.nil
  | constBoolean b => exact hleaf _ _ (sorted_singleton _)
  | app k cs ih =>
    rw [recPoly, recPolys_eq_map]
    have hps : ∀ p ∈ cs.map (recPoly le), Normal le p := List.forall_mem_map.2 ih
    split
    · exact (combines k).normal hle hps 0 normal_empty
    split
    swap
    · exact hleaf _ _ (sorted_singleton _)
    rename_i aq p ps haq hcs
    obtain ⟨a, q⟩ := aq
    obtain ⟨c, ds, _, _, hq, _⟩ := constDivision?_eq_some haq
    have hp : Normal le p := hps p (by rw [hcs]; simp)
    exact (normal_empty.add hp).multiplyMonomial hle [] (inv_ne_zero hq)

/-- The number of children that the type rules ask for. -/
def IsArity : Kind → Nat → Prop
  | .add, n | .mult, n | .nonlinearMult, n | .bvAdd, n | .bvMult, n => 2 ≤ n
  | .sub, n | .bvSub, n => n = 2
  | .neg, n | .bvNeg, n | .toReal, n => n = 1
  | _, _ => True

lemma isArity_of_kindTy {Ts : List Ty} (h : kindTy Γ k Ts = some T) : IsArity k Ts.length := by
  have hguard : ∀ {p : Prop} [Decidable p] {o : Option Ty}, (if p then o else none) = some T → p := by
    intro p _ o hif
    by_contra hp
    rw [if_neg hp] at hif
    contradiction
  unfold kindTy at h
  split at h
  all_goals first
    | trivial
    | rfl
    | exact (hguard h : 2 ≤ _)

lemma denote_combine (hle : IsOrder le) (hk : isPolyOp k = true) {ps : List PolyNorm}
    (harity : IsArity k ps.length) (hps : ∀ p ∈ ps, Normal le p)
    (leaf : MvPolynomial Node Rat) :
    denote (combine le k 0 ∅ ps) = kindPoly leaf k (ps.map denote) := by
  have hsum : (∀ i, isSubtracted k i = false) → (∀ i, isMultiplied k i = false) →
      denote (combine le k 0 ∅ ps) = (ps.map denote).sum := by
    intro hsub hmul
    rw [(combines k).denote_sum hsub hmul, denote_empty, zero_add]
  have hprod : (∀ i, isSubtracted k i = false) → (∀ i, isMultiplied k (i + 1) = true) →
      2 ≤ ps.length → denote (combine le k 0 ∅ ps) = (ps.map denote).prod := by
    intro hsub hmul hlen
    refine (combines k).denote_product hle hsub hmul (by simp [isMultiplied]) hps ?_
    rintro rfl
    contradiction
  cases k with
  | add => exact hsum (by simp [isSubtracted]) (by simp [isMultiplied])
  | bvAdd => exact hsum (by simp [isSubtracted]) (by simp [isMultiplied])
  | mult => exact hprod (by simp [isSubtracted]) (by simp [isMultiplied]) harity
  | nonlinearMult => exact hprod (by simp [isSubtracted]) (by simp [isMultiplied]) harity
  | bvMult => exact hprod (by simp [isSubtracted]) (by simp [isMultiplied]) harity
  | sub =>
    obtain ⟨p, q, rfl⟩ := List.length_eq_two.1 harity
    simp [combine, isSubtracted, isMultiplied, kindPoly, denote_add, denote_subtract]
  | bvSub =>
    obtain ⟨p, q, rfl⟩ := List.length_eq_two.1 harity
    simp [combine, isSubtracted, isMultiplied, kindPoly, denote_add, denote_subtract]
  | neg =>
    obtain ⟨p, rfl⟩ := List.length_eq_one_iff.1 harity
    simp [combine, isSubtracted, kindPoly, denote_subtract]
  | bvNeg =>
    obtain ⟨p, rfl⟩ := List.length_eq_one_iff.1 harity
    simp [combine, isSubtracted, kindPoly, denote_subtract]
  | toReal =>
    obtain ⟨p, rfl⟩ := List.length_eq_one_iff.1 harity
    simp [combine, isSubtracted, isMultiplied, kindPoly, denote_add]
  | _ => contradiction

lemma constDivision?_of_isPolyOp (hk : isPolyOp k = true) : constDivision? k cs = none := by
  cases k <;> first | rfl | contradiction

lemma kindPoly_of_not_isPolyOp {K : Type*} [CommRing K] (hk : isPolyOp k = false)
    (leaf : MvPolynomial Node K) (ps : List (MvPolynomial Node K)) :
    kindPoly leaf k ps = leaf := by
  cases k <;> first | rfl | contradiction

lemma polyOf_app_op {K : Type*} [CommRing K] (φ : Rat → K) (h : constDivision? k cs = none) :
    polyOf φ (.app k cs) = kindPoly (MvPolynomial.X (.app k cs)) k (cs.map (polyOf φ)) := by
  rw [polyOf, h, polysOf_eq_map]

lemma polyOf_app_division {K : Type*} [CommRing K] (φ : Rat → K)
    {a : Node} {q : Rat} (h : constDivision? k cs = some (a, q)) :
    polyOf φ (.app k cs) = polyOf φ a * MvPolynomial.C (φ q⁻¹) := by
  obtain ⟨c, ds, rfl, -⟩ := constDivision?_eq_some h
  rw [polyOf, h, polysOf]

lemma denote_recPoly (hle : IsOrder le) {n : Node} (hn : n.typeOf Γ = some T) :
    denote (recPoly le n) = polyOf id n := by
  have hleaf : ∀ (x : List Node) (c : Rat), denote (addMonomial (∅ : PolyNorm) x c false) =
      monomial (exponents x) c := by
    intro x c
    rw [denote_addMonomial, denote_empty, zero_add]
    rfl
  have hvar : ∀ m : Node, denote (addMonomial (∅ : PolyNorm) [m] 1 false) = MvPolynomial.X m := by
    intro m
    rw [hleaf, exponents, Multiset.coe_singleton, Multiset.toFinsupp_singleton]
    rfl
  induction n generalizing T with
  | constInteger z => exact hleaf [] z
  | constRational q => exact hleaf [] q
  | constBitvector w v => exact hleaf [] v.toNat
  | constBoolean b => exact hvar _
  | app k cs ih =>
    have hcs : ∀ c ∈ cs, denote (recPoly le c) = polyOf id c := by
      intro c hc
      obtain ⟨S, hS⟩ := exists_typeOf_of_mem hn hc
      exact ih c hc hS
    rw [recPoly, recPolys_eq_map]
    by_cases hk : isPolyOp k = true
    · obtain ⟨Ts, hTs, hkind⟩ := typeOf_app_inv hn
      have harity : IsArity k (cs.map (recPoly le)).length := by
        rw [List.length_map, hTs.length_eq]
        exact isArity_of_kindTy hkind
      have hnormal : ∀ p ∈ cs.map (recPoly le), Normal le p :=
        List.forall_mem_map.2 fun c _ => normal_recPoly hle c
      rw [if_pos hk, polyOf_app_op id (constDivision?_of_isPolyOp hk),
        denote_combine hle hk harity hnormal (MvPolynomial.X (.app k cs)), List.map_map]
      congr 1
      exact List.map_congr_left hcs
    rw [if_neg hk]
    cases hdiv : constDivision? k cs with
    | none =>
      rw [polyOf_app_op id hdiv, kindPoly_of_not_isPolyOp (Bool.not_eq_true _ ▸ hk)]
      exact hvar _
    | some aq =>
      obtain ⟨a, q⟩ := aq
      obtain ⟨c, ds, rfl, -⟩ := constDivision?_eq_some hdiv
      rw [polyOf_app_division id hdiv, map_cons]
      simp only
      rw [denote_multiplyMonomial hle (normal_empty.add (normal_recPoly hle a)), denote_add,
        denote_empty, zero_add, hcs a (by simp)]
      rfl

/-! ## The value of a node is its polynomial at its leaves -/

section Values

variable (I : Interp Γ)

/-- The number of a node, zero when it has none. -/
noncomputable def leafNum (n : Node) : ℝ := ((eval I n).bind numOf).getD 0

variable {I}

variable {r : ℝ}

variable {n : Node}

lemma leafNum_eq (h : NumVal I n r) : leafNum I n = r := by
  obtain ⟨v, hv, hr⟩ := h
  rw [leafNum, hv, bind_some, hr]
  rfl

lemma not_numVal_of_bitvec {w : Nat} (hn : n.typeOf Γ = some (.bitvec w)) : ¬ NumVal I n r := by
  rintro ⟨v, hv, hr⟩
  obtain ⟨x, hx⟩ := eval_of_typeOf (I := I) hn
  rw [hx] at hv
  cases hv
  contradiction

lemma typeOf_bv_op {k : Kind} (hk : k = .bvAdd ∨ k = .bvSub ∨ k = .bvNeg ∨ k = .bvMult)
    {Ts : List Ty} {T : Ty} (h : kindTy Γ k Ts = some T) :
    ∃ w Ss, T = .bitvec w ∧ Ts = .bitvec w :: Ss ∧ ∀ S ∈ Ss, S = .bitvec w := by
  have hTs : bvTy Ts = some T := by
    unfold kindTy at h
    split at h
    all_goals first
      | exact h
      | simp_all
  obtain ⟨w, Ss, rfl, hSs, rfl⟩ := bvTy_eq_some hTs
  exact ⟨w, Ss, rfl, rfl, hSs⟩

lemma numVal_constDivision_inv {k : Kind} {cs : List Node} {a : Node} {q : Rat}
    (hdiv : constDivision? k cs = some (a, q)) (h : NumVal I (.app k cs) r) :
    ∃ x, NumVal I a x ∧ r = x * (q⁻¹ : Rat) := by
  obtain ⟨c, ds, rfl, hc, hq, hk⟩ := constDivision?_eq_some hdiv
  obtain ⟨v, hv, hr⟩ := h
  obtain ⟨vs, hvs, hkind⟩ := eval_app_inv hv
  obtain ⟨f, hf, hfq⟩ : ∃ f : ℝ → ℝ → ℝ, kindVal I k = vNumDiv f ∧ ∀ x, f x q = x * (q⁻¹ : Rat) := by
    have hq' : (q : ℝ) ≠ 0 := by exact_mod_cast hq
    rcases hk with rfl | rfl
    · refine ⟨realDiv I, rfl, fun x => ?_⟩
      rw [realDiv, if_neg hq', Rat.cast_inv, div_eq_mul_inv]
    · refine ⟨fun x y => x / y, rfl, fun x => ?_⟩
      simp only [Rat.cast_inv, div_eq_mul_inv]
  cases hvs with
  | @cons _ u _ us ha hvs =>
    cases hvs with
    | @cons _ w _ us hcw hvs =>
      rw [hf] at hkind
      cases hvs with
      | cons => simp [vNumDiv] at hkind
      | nil =>
        obtain ⟨x, hx, hkind⟩ := bind_inv hkind
        obtain ⟨y, hy, rfl⟩ := map_inv hkind
        have hyq : y = q := (numVal_rational hc).unique ⟨w, hcw, hy⟩
        refine ⟨x, ⟨u, ha, hx⟩, ?_⟩
        rw [← hfq, ← hyq]
        exact (Option.some.inj hr).symm

lemma aeval_list {cs : List Node} {xs : List ℝ} (h : Forall₂ (NumVal I) cs xs)
    (ih : ∀ c ∈ cs, ∀ x, NumVal I c x → aeval (leafNum I) (polyOf id c) = x) :
    (cs.map (polyOf id)).map (aeval (leafNum I)) = xs := by
  induction h with
  | nil => rfl
  | cons hc _ ihcs =>
    obtain ⟨ihc, ihcs'⟩ := forall_mem_cons.1 ih
    rw [map_cons, map_cons, ihc _ hc, ihcs ihcs']

lemma aeval_polyOf {T : Ty} (hn : n.typeOf Γ = some T) (h : NumVal I n r) :
    aeval (leafNum I) (polyOf id n) = r := by
  induction n generalizing T r with
  | constInteger z =>
    rw [polyOf, aeval_C]
    exact h.unique (numVal_rational (c := .constInteger z) rfl)
  | constRational q =>
    rw [polyOf, aeval_C]
    exact h.unique (numVal_rational (c := .constRational q) rfl)
  | constBitvector w v =>
    cases hn
    exact absurd h (not_numVal_of_bitvec rfl)
  | constBoolean b =>
    rw [polyOf, aeval_X]
    exact leafNum_eq h
  | app k cs ih =>
    have ih' : ∀ c ∈ cs, ∀ x, NumVal I c x → aeval (leafNum I) (polyOf id c) = x := by
      intro c hc x hx
      obtain ⟨S, hS⟩ := exists_typeOf_of_mem hn hc
      exact ih c hc hS hx
    have hbv : ¬ (k = .bvAdd ∨ k = .bvSub ∨ k = .bvNeg ∨ k = .bvMult) := by
      intro hk
      obtain ⟨Ts, _, hT⟩ := typeOf_app_inv hn
      obtain ⟨w, Ss, rfl, -⟩ := typeOf_bv_op hk hT
      exact not_numVal_of_bitvec hn h
    cases hdiv : constDivision? k cs with
    | some aq =>
      obtain ⟨a, q⟩ := aq
      obtain ⟨x, hx, rfl⟩ := numVal_constDivision_inv hdiv h
      obtain ⟨c, ds, rfl, -⟩ := constDivision?_eq_some hdiv
      rw [polyOf_app_division id hdiv, map_mul, ih' a (by simp) x hx, aeval_C]
      rfl
    | none =>
      rw [polyOf_app_op id hdiv]
      have hleaf : aeval (leafNum I) (MvPolynomial.X (R := ℚ) (.app k cs)) = r := by
        rw [aeval_X]
        exact leafNum_eq h
      cases k with
      | add =>
        obtain ⟨xs, hxs, rfl⟩ := numVal_add_inv h
        rw [kindPoly, map_list_sum, aeval_list hxs ih']
      | mult =>
        obtain ⟨xs, hxs, rfl⟩ := numVal_mult_inv (Or.inl rfl) h
        rw [kindPoly, map_list_prod, aeval_list hxs ih']
      | nonlinearMult =>
        obtain ⟨xs, hxs, rfl⟩ := numVal_mult_inv (Or.inr rfl) h
        rw [kindPoly, map_list_prod, aeval_list hxs ih']
      | sub =>
        match cs, h, ih' with
        | [a, b], h, ih' =>
          obtain ⟨x, y, hx, hy, rfl⟩ := numVal_sub_inv h
          rw [map_cons, map_cons, map_nil, kindPoly, map_sub,
            ih' a (by simp) x hx, ih' b (by simp) y hy]
        | [], _, _ | [_], _, _ | _ :: _ :: _ :: _, _, _ => exact hleaf
      | neg =>
        match cs, h, ih' with
        | [a], h, ih' =>
          obtain ⟨x, hx, rfl⟩ := numVal_arith1_inv (k := .neg) (f := (- ·)) (g := (- ·))
            rfl (by simp) h
          rw [map_cons, map_nil, kindPoly, map_neg, ih' a (by simp) x hx]
        | [], _, _ | _ :: _ :: _, _, _ => exact hleaf
      | toReal =>
        match cs, h, ih' with
        | [a], h, ih' => rw [map_cons, map_nil, kindPoly, ih' a (by simp) r (numVal_toReal_inv h)]
        | [], _, _ | _ :: _ :: _, _, _ => exact hleaf
      | bvAdd | bvSub | bvNeg | bvMult => exact absurd (by simp) hbv
      | _ => exact hleaf

end Values

/-! ## Comparisons -/

/-- Two arithmetic terms have equal normal forms exactly when they are the same
polynomial in their leaves. -/
lemma isArithPolyNorm_iff (hle : IsOrder le) {a b : Node} {A B : Ty}
    (ha : a.typeOf Γ = some A) (hb : b.typeOf Γ = some B) (hA : A.isArithType = true) :
    isArithPolyNorm Γ le a b = some true ↔ polyOf id a = polyOf id b := by
  have hbool : A ≠ .bool := by
    rintro rfl
    contradiction
  have htyped : ∀ p q, areEqualPolyNormTyped A p q = isEqual p q := by
    intro p q
    cases A <;> first | rfl | contradiction
  rw [isArithPolyNorm, ha, bind_some, if_neg hbool]
  by_cases hab : a = b
  · rw [if_pos hab, hab]
    simp
  rw [if_neg hab, mkPolyNorm_eq, mkPolyNorm_eq, bind_some, map_some, htyped,
    Option.some.injEq, isEqual_iff hle (normal_recPoly hle a) (normal_recPoly hle b),
    denote_recPoly hle ha, denote_recPoly hle hb]

lemma numVal_eq_of_isArithPolyNorm {I : Interp Γ} (hle : IsOrder le) {a b : Node} {A B : Ty}
    (ha : a.typeOf Γ = some A) (hb : b.typeOf Γ = some B) (hA : A.isArithType = true)
    (h : isArithPolyNorm Γ le a b = some true) {x y : ℝ} (hx : NumVal I a x)
    (hy : NumVal I b y) : x = y := by
  rw [← aeval_polyOf ha hx, ← aeval_polyOf hb hy, (isArithPolyNorm_iff hle ha hb hA).1 h]

end EthosCpc.Cvc5
