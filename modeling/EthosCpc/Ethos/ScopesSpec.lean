import EthosCpc.Ethos.Scopes
import Mathlib.Data.Finset.Lattice.Fold
import Mathlib.Data.Set.Finite.Basic

/-!
# When a block leaves no trace

Closing a scope undoes the bindings made in it, last one first.  Whether a
declaration was an overload is read off from the last entry of
`d_overloadedDecls`, and what it overloaded from the overloads of its name.
Both are right in every state that no `reset` has passed through.  The flags
in `AppInfo` are never undone: a term that exists outside of the block and
was bound inside to a name already bound is looked up as an overload of that
name ever after.  `Block.transparent_iff` puts the three conditions together.
-/

namespace EthosCpc

open Bool (false_ne_true)
open List (head?_cons mem_cons mem_cons_of_mem mem_cons_self)
open Function (update update_of_ne update_self)

variable {E A : Type}

namespace Scopes

/-! ## One binding and its undoing -/

section Unbind

variable {s : Scopes E A} {name : String}

lemma unbind_appData : (s.unbind name).appData = s.appData := by
  unfold unbind
  split <;> rfl

lemma unbind_of_overloaded (h : s.overloadedDecls.head? = some name) : s.unbind name = { s with
      overloadedDecls := s.overloadedDecls.tail
      symTable := update s.symTable name (s.overloads name).tail.head?
      overloads := update s.overloads name
        (if (s.overloads name).tail.length = 1 then [] else (s.overloads name).tail) } := by
  rw [unbind, if_pos h]

lemma unbind_of_not_overloaded (h : s.overloadedDecls.head? ≠ some name) :
    s.unbind name = { s with symTable := update s.symTable name none } := by
  rw [unbind, if_neg h]

lemma unbind_symTable_of_ne {m : String} (h : m ≠ name) :
    (s.unbind name).symTable m = s.symTable m := by
  unfold unbind
  split <;> exact update_of_ne h _ _

end Unbind

variable [DecidableEq E]

section Bind

variable (s : Scopes E A) (name : String) (e : E)

/-- The name whose overloads a term is looked up among. -/
def overloadKey (s : Scopes E A) (e : E) : Option String :=
  if (s.info e).isOverloaded then some (s.info e).overloadName else none

lemma bindMain_symTable : (s.bindMain name e).symTable = update s.symTable name (some e) := by
  unfold bindMain
  cases h : s.symTable name <;> rfl

lemma bindMain_declsSizeCtx : (s.bindMain name e).declsSizeCtx = s.declsSizeCtx := by
  unfold bindMain
  cases h : s.symTable name <;> rfl

variable {s name}

lemma bindMain_overloads_of_none (h : s.symTable name = none) :
    (s.bindMain name e).overloads = s.overloads := by
  simp only [bindMain, h]

lemma bindMain_overloads_of_some {prev : E} (h : s.symTable name = some prev) :
    (s.bindMain name e).overloads = update s.overloads name
      (e :: if s.overloads name = [] then [prev] else s.overloads name) := by
  simp only [bindMain, h, addOverload]

lemma bindMain_overloadedDecls_of_none (h : s.symTable name = none) :
    (s.bindMain name e).overloadedDecls = s.overloadedDecls := by
  simp only [bindMain, h]

lemma bindMain_overloadedDecls_of_some {prev : E} (hctx : s.declsSizeCtx ≠ [])
    (h : s.symTable name = some prev) :
    (s.bindMain name e).overloadedDecls = name :: s.overloadedDecls := by
  simp only [bindMain, h, addOverload, if_neg hctx]

lemma bindMain_decls (hctx : s.declsSizeCtx ≠ []) :
    (s.bindMain name e).decls = name :: s.decls := by
  unfold bindMain
  cases h : s.symTable name <;> simp [addOverload, hctx]

end Bind

/-! ## A list of bindings and its undoing -/

def mainNames (o : BindOptions E) : List (String × E) → List String
  | [] => []
  | (name, e) :: B =>
    if o.useRuleSymTable && o.isProofRule e then mainNames o B else name :: mainNames o B

/-- The state after a list of bindings is made and undone again. -/
def undone (o : BindOptions E) (s : Scopes E A) (B : List (String × E)) : Scopes E A :=
  (mainNames o B).foldr (fun name s => s.unbind name) (s.bindAll o B)

/-- The names of the bindings before the first one that overloads. -/
def freshNames (o : BindOptions E) (bound : String → Bool) : List (String × E) → List String
  | [] => []
  | (name, e) :: B =>
    if o.useRuleSymTable && o.isProofRule e then freshNames o bound B
    else if bound name then []
    else name :: freshNames o (Function.update bound name true) B

/-- The name under which a list of bindings last makes `e` an overload. -/
def lastOverload (o : BindOptions E) (bound : String → Bool) (e : E) :
    List (String × E) → Option String
  | [] => none
  | (name, x) :: B =>
    if o.useRuleSymTable && o.isProofRule x then lastOverload o bound e B
    else (lastOverload o (Function.update bound name true) e B).or
      (if bound name ∧ x = e then some name else none)

def bound (s : Scopes E A) (name : String) : Bool := (s.symTable name).isSome

section Undone

variable {o : BindOptions E} {s : Scopes E A}

variable {e : E} {m name : String}

lemma bind_of_rule (h : (o.useRuleSymTable && o.isProofRule e) = true) (name : String) :
    ∃ t, s.bind o name e = { s with ruleSymTable := t } := by
  rw [bind, if_pos h]
  cases hr : s.ruleSymTable name with
  | some _ => exact ⟨s.ruleSymTable, rfl⟩
  | none => exact ⟨_, rfl⟩

lemma bind_of_main (h : (o.useRuleSymTable && o.isProofRule e) = false) (name : String) :
    s.bind o name e = s.bindMain name e := by
  rw [bind, h]
  rfl

lemma undone_cons_of_rule (h : (o.useRuleSymTable && o.isProofRule e) = true)
    (name : String) (B : List (String × E)) :
    s.undone o ((name, e) :: B) = (s.bind o name e).undone o B := by
  rw [undone, undone, mainNames, if_pos h, bindAll, bindAll, List.foldl_cons]

lemma undone_cons_of_main (h : (o.useRuleSymTable && o.isProofRule e) = false)
    (name : String) (B : List (String × E)) :
    s.undone o ((name, e) :: B) = ((s.bindMain name e).undone o B).unbind name := by
  rw [undone, undone, mainNames, h, bindAll, bindAll, List.foldl_cons, bind_of_main h,
    if_neg Bool.false_ne_true, List.foldr_cons]

lemma bound_bindMain (name : String) (e : E) :
    (s.bindMain name e).bound = update s.bound name true := by
  funext m
  rw [bound, bindMain_symTable]
  by_cases h : m = name
  · rw [h, update_self, update_self]
    rfl
  · rw [update_of_ne h, update_of_ne h]
    rfl

omit [DecidableEq E] in
lemma bound_of_mem_freshNames {b : String → Bool} {B : List (String × E)}
    (h : m ∈ freshNames o b B) : b m = false := by
  induction B generalizing b with
  | nil => contradiction
  | cons p B ih =>
    obtain ⟨name, e⟩ := p
    rw [freshNames] at h
    split at h
    · exact ih h
    split at h
    · cases h
    rename_i hb
    rcases mem_cons.1 h with rfl | h
    · simpa using hb
    have hm := ih h
    by_cases hmn : m = name
    · rw [hmn, update_self] at hm
      contradiction
    · rwa [update_of_ne hmn] at hm

/-- What the main table says about a name after bindings of the names `ns` are
undone. -/
def restored (s : Scopes E A) (ns : List String) (m : String) : Option E :=
  if s.bound m ∧ m ∈ ns ∧ s.overloads m ≠ [] then (s.overloads m).head? else s.symTable m

lemma overloads_bindMain_of_ne (h : m ≠ name) (e : E) :
    (s.bindMain name e).overloads m = s.overloads m := by
  cases hT : s.symTable name with
  | none => rw [bindMain_overloads_of_none e hT]
  | some prev => rw [bindMain_overloads_of_some e hT, update_of_ne h]

lemma restored_bindMain (h : m ≠ name) (e : E) (ns : List String) :
    (s.bindMain name e).restored ns m = s.restored (name :: ns) m := by
  have hbound : (s.bindMain name e).bound m = s.bound m := by rw [bound_bindMain, update_of_ne h]
  have hov := overloads_bindMain_of_ne (s := s) h e
  have hsym : (s.bindMain name e).symTable m = s.symTable m := by
    rw [bindMain_symTable, update_of_ne h]
  rw [restored, restored, hbound, hov, hsym]
  simp only [mem_cons, h, false_or]

lemma length_overloads_bindMain (hov : ∀ m, (s.overloads m).length ≠ 1) (name : String) (e : E)
    (m : String) : ((s.bindMain name e).overloads m).length ≠ 1 := by
  cases hT : s.symTable name with
  | none =>
    rw [bindMain_overloads_of_none e hT]
    exact hov m
  | some prev =>
    rw [bindMain_overloads_of_some e hT]
    by_cases h : m = name
    swap
    · rw [update_of_ne h]
      exact hov m
    rw [h, update_self]
    split
    · simp
    rename_i hne
    have := List.length_pos_iff.2 hne
    simp only [List.length_cons]
    omega

/-- Undoing restores the overloads, if the last overloaded declaration from
before is not taken for one of the block. -/
lemma undone_spec (B : List (String × E)) (hctx : s.declsSizeCtx ≠ [])
    (hov : ∀ m, (s.overloads m).length ≠ 1)
    (hlast : ∀ d ∈ freshNames o s.bound B, s.overloadedDecls.head? ≠ some d) :
    (s.undone o B).overloads = s.overloads ∧
    (s.undone o B).overloadedDecls = s.overloadedDecls ∧
    (s.undone o B).symTable = s.restored (mainNames o B) := by
  induction B generalizing s with
  | nil =>
    refine ⟨rfl, rfl, ?_⟩
    funext m
    rw [restored, if_neg (by simp [mainNames])]
    rfl
  | cons p B ih =>
    obtain ⟨name, e⟩ := p
    cases hrule : o.useRuleSymTable && o.isProofRule e with
    | true =>
      rw [undone_cons_of_rule hrule, mainNames, if_pos hrule]
      rw [freshNames, if_pos hrule] at hlast
      obtain ⟨t, ht⟩ := bind_of_rule (s := s) hrule name
      rw [ht]
      exact ih hctx hov hlast
    | false =>
      rw [undone_cons_of_main hrule, mainNames, hrule, if_neg Bool.false_ne_true]
      rw [freshNames, hrule, if_neg Bool.false_ne_true] at hlast
      have hctx' : (s.bindMain name e).declsSizeCtx ≠ [] := by rwa [bindMain_declsSizeCtx]
      have hov' := length_overloads_bindMain hov name e
      cases hT : s.symTable name with
      | none =>
        have hbound : s.bound name = false := by rw [bound, hT]; rfl
        rw [hbound, if_neg Bool.false_ne_true, ← bound_bindMain name e] at hlast
        obtain ⟨ihov, ihdecls, ihsym⟩ := ih hctx' hov' (by
          intro d hd
          rw [bindMain_overloadedDecls_of_none e hT]
          exact hlast d (mem_cons_of_mem _ hd))
        rw [bindMain_overloads_of_none e hT] at ihov
        rw [bindMain_overloadedDecls_of_none e hT] at ihdecls
        have hhead : ((s.bindMain name e).undone o B).overloadedDecls.head? ≠ some name := by
          rw [ihdecls]
          exact hlast name mem_cons_self
        rw [unbind_of_not_overloaded hhead]
        refine ⟨ihov, ihdecls, ?_⟩
        funext m
        simp only [ihsym]
        by_cases hm : m = name
        · rw [hm, update_self, restored, if_neg (by simp [hbound]), hT]
        · rw [update_of_ne hm, restored_bindMain hm]
      | some prev =>
        obtain ⟨ihov, ihdecls, ihsym⟩ := ih hctx' hov' (by
          intro d hd hhead
          rw [bindMain_overloadedDecls_of_some e hctx hT, head?_cons, Option.some.injEq] at hhead
          have hb := bound_of_mem_freshNames hd
          rw [bound_bindMain, ← hhead, update_self] at hb
          contradiction)
        rw [bindMain_overloads_of_some e hT] at ihov
        rw [bindMain_overloadedDecls_of_some e hctx hT] at ihdecls
        have hhead : ((s.bindMain name e).undone o B).overloadedDecls.head? = some name := by
          rw [ihdecls, head?_cons]
        rw [unbind_of_overloaded hhead]
        simp only [ihov, ihdecls, ihsym, update_self, List.tail_cons, Function.update_idem]
        refine ⟨?_, trivial, ?_⟩
        · by_cases hne : s.overloads name = []
          · rw [if_pos hne, if_pos (by simp), ← hne, Function.update_eq_self]
          · rw [if_neg hne, if_neg (hov name), Function.update_eq_self]
        funext m
        by_cases hm : m = name
        · rw [hm, update_self, restored]
          by_cases hne : s.overloads name = []
          · rw [if_pos hne, if_neg (by simp [hne]), hT, head?_cons]
          · rw [if_neg hne, if_pos ⟨by rw [bound, hT]; rfl, mem_cons_self, hne⟩]
        · rw [update_of_ne hm, restored_bindMain hm]

/-- The declaration that is taken for the last overloaded one keeps a binding. -/
lemma undone_symTable_of_misread {d : String} (B : List (String × E))
    (hctx : s.declsSizeCtx ≠ []) (hov : ∀ m, (s.overloads m).length ≠ 1)
    (hhead : s.overloadedDecls.head? = some d) (hlen : 2 ≤ (s.overloads d).length)
    (hd : d ∈ freshNames o s.bound B) : (s.undone o B).symTable d ≠ none := by
  induction B generalizing s with
  | nil => contradiction
  | cons p B ih =>
    obtain ⟨name, e⟩ := p
    cases hrule : o.useRuleSymTable && o.isProofRule e with
    | true =>
      rw [undone_cons_of_rule hrule]
      rw [freshNames, if_pos hrule] at hd
      obtain ⟨t, ht⟩ := bind_of_rule (s := s) hrule name
      rw [ht]
      exact ih hctx hov hhead hlen hd
    | false =>
      rw [undone_cons_of_main hrule]
      rw [freshNames, hrule, if_neg Bool.false_ne_true] at hd
      have hctx' : (s.bindMain name e).declsSizeCtx ≠ [] := by rwa [bindMain_declsSizeCtx]
      have hov' := length_overloads_bindMain hov name e
      cases hT : s.symTable name with
      | some prev => simp [bound, hT] at hd
      | none =>
        have hbound : s.bound name = false := by rw [bound, hT]; rfl
        rw [hbound, if_neg Bool.false_ne_true, ← bound_bindMain name e] at hd
        have hdecls := bindMain_overloadedDecls_of_none (s := s) e hT
        have hovs := bindMain_overloads_of_none (s := s) e hT
        by_cases hdn : d = name
        · -- this is the declaration: its binding is read off from stale overloads
          obtain ⟨ihov, ihdecls, -⟩ := undone_spec B hctx' hov' (by
            intro m hm hmhead
            rw [hdecls, hhead, Option.some.injEq] at hmhead
            have hb := bound_of_mem_freshNames hm
            rw [bound_bindMain, ← hmhead, hdn, update_self] at hb
            contradiction)
          have hhead' : ((s.bindMain name e).undone o B).overloadedDecls.head? = some name := by
            rw [ihdecls, hdecls, hhead, hdn]
          obtain ⟨x, y, l, hl⟩ : ∃ x y l, s.overloads d = x :: y :: l := by
            match hl : s.overloads d with
            | [] => simp [hl] at hlen
            | [x] => simp [hl] at hlen
            | x :: y :: l => exact ⟨x, y, l, rfl⟩
          rw [hdn] at hl
          rw [hdn, unbind_of_overloaded hhead']
          simp only [update_self, ihov, hovs, hl]
          simp
        · rw [unbind_symTable_of_ne hdn]
          refine ih hctx' hov' (by rw [hdecls, hhead]) (by rwa [hovs]) ?_
          rcases mem_cons.1 hd with h | h
          · exact absurd h hdn
          · exact h

/-! ### What is left in `AppInfo` -/

lemma info_bindMain_of_some {prev : E} (h : s.symTable name = some prev)
    (x e : E) : (s.bindMain name x).info e =
      if e = x then { s.info x with isOverloaded := true, overloadName := name } else s.info e := by
  simp only [bindMain, h, addOverload, info]
  by_cases hex : e = x
  · rw [if_pos hex, hex, update_self]
    rfl
  · rw [if_neg hex, update_of_ne hex]

lemma info_bindMain_of_none (h : s.symTable name = none) (x e : E) :
    (s.bindMain name x).info e = s.info e := by
  simp only [bindMain, h, info]

lemma kind_attrCons_bindMain (name : String) (x e : E) :
    ((s.bindMain name x).info e).kind = (s.info e).kind ∧
    ((s.bindMain name x).info e).attrCons = (s.info e).attrCons := by
  cases hT : s.symTable name with
  | none =>
    rw [info_bindMain_of_none hT]
    exact ⟨rfl, rfl⟩
  | some prev =>
    rw [info_bindMain_of_some hT]
    split
    · rename_i hex
      rw [hex]
      exact ⟨rfl, rfl⟩
    · exact ⟨rfl, rfl⟩

lemma overloadKey_bindMain (name : String) (x e : E) : (s.bindMain name x).overloadKey e =
      (if s.bound name ∧ x = e then some name else none).or (s.overloadKey e) := by
  cases hT : s.symTable name with
  | none =>
    have hcond : ¬ (s.bound name = true ∧ x = e) := by simp [bound, hT]
    rw [if_neg hcond, overloadKey, info_bindMain_of_none hT]
    rfl
  | some prev =>
    by_cases hex : e = x
    · have hcond : s.bound name = true ∧ x = e := ⟨by rw [bound, hT]; rfl, hex.symm⟩
      rw [if_pos hcond, overloadKey, info_bindMain_of_some hT, if_pos hex]
      rfl
    have hcond : ¬ (s.bound name = true ∧ x = e) := fun h => hex h.2.symm
    rw [if_neg hcond, overloadKey, info_bindMain_of_some hT, if_neg hex]
    rfl

lemma info_bindAll (B : List (String × E)) (e : E) :
    ((s.bindAll o B).info e).kind = (s.info e).kind ∧
    ((s.bindAll o B).info e).attrCons = (s.info e).attrCons ∧
    (s.bindAll o B).overloadKey e = (lastOverload o s.bound e B).or (s.overloadKey e) := by
  induction B generalizing s with
  | nil => exact ⟨rfl, rfl, rfl⟩
  | cons p B ih =>
    obtain ⟨name, x⟩ := p
    have hcons : s.bindAll o ((name, x) :: B) = (s.bind o name x).bindAll o B := rfl
    rw [hcons, lastOverload]
    cases hrule : o.useRuleSymTable && o.isProofRule x with
    | true =>
      obtain ⟨t, ht⟩ := bind_of_rule (s := s) hrule name
      rw [if_pos rfl, ht]
      exact ih
    | false =>
      rw [if_neg Bool.false_ne_true, bind_of_main hrule, ← bound_bindMain name x]
      obtain ⟨hk, ha⟩ := kind_attrCons_bindMain (s := s) name x e
      obtain ⟨ihk, iha, ihkey⟩ := ih (s := s.bindMain name x)
      refine ⟨ihk.trans hk, iha.trans ha, ?_⟩
      rw [ihkey, overloadKey_bindMain, Option.or_assoc]

lemma appData_undone (B : List (String × E)) :
    (s.undone o B).appData = (s.bindAll o B).appData := by
  rw [undone]
  induction mainNames o B with
  | nil => rfl
  | cons name ns ih => rw [List.foldr_cons, unbind_appData, ih]

/-! ### Blocks -/

lemma declsSizeCtx_bindAll (B : List (String × E)) :
    (s.bindAll o B).declsSizeCtx = s.declsSizeCtx := by
  induction B generalizing s with
  | nil => rfl
  | cons p B ih =>
    obtain ⟨name, e⟩ := p
    have hcons : s.bindAll o ((name, e) :: B) = (s.bind o name e).bindAll o B := rfl
    rw [hcons, ih]
    cases hrule : o.useRuleSymTable && o.isProofRule e with
    | true =>
      obtain ⟨t, ht⟩ := bind_of_rule (s := s) hrule name
      rw [ht]
    | false => rw [bind_of_main hrule, bindMain_declsSizeCtx]

lemma decls_bindAll (hctx : s.declsSizeCtx ≠ []) (B : List (String × E)) :
    (s.bindAll o B).decls = (mainNames o B).reverse ++ s.decls := by
  induction B generalizing s with
  | nil => rfl
  | cons p B ih =>
    obtain ⟨name, e⟩ := p
    have hcons : s.bindAll o ((name, e) :: B) = (s.bind o name e).bindAll o B := rfl
    rw [hcons, mainNames]
    cases hrule : o.useRuleSymTable && o.isProofRule e with
    | true =>
      obtain ⟨t, ht⟩ := bind_of_rule (s := s) hrule name
      rw [ht, if_pos rfl]
      exact ih (s := { s with ruleSymTable := t }) hctx
    | false =>
      rw [bind_of_main hrule, if_neg Bool.false_ne_true,
        ih (by rwa [bindMain_declsSizeCtx]), bindMain_decls e hctx, List.reverse_cons,
        List.append_assoc, List.singleton_append]

end Undone

end Scopes

lemma Block.run_eq [DecidableEq E] (o : BindOptions E) (b : Block E) (s : Scopes E A) :
    b.run o s = some { s.pushScope.undone o b.binds with
      decls := s.decls
      declsSizeCtx := s.declsSizeCtx } := by
  have hctx : s.pushScope.declsSizeCtx = s.decls.length :: s.declsSizeCtx := rfl
  have hdecls := Scopes.decls_bindAll (o := o) (s := s.pushScope) (by rw [hctx]; simp) b.binds
  have hlen : (s.pushScope.bindAll o b.binds).decls.length - s.decls.length =
      (Scopes.mainNames o b.binds).reverse.length := by
    have hpush : s.pushScope.decls = s.decls := rfl
    rw [hdecls, List.length_append, hpush]
    omega
  rw [Block.run, Scopes.popScope, Scopes.declsSizeCtx_bindAll, hctx]
  simp only [hlen]
  rw [hdecls, List.take_left, List.drop_left, List.foldl_reverse]
  rfl

namespace Scopes

variable [DecidableEq E] {o : BindOptions E} {s : Scopes E A}

/-! ## The overload tables of reachable states -/

/-- No name has a single overload, and every overloaded declaration that is to
be undone has its overload. -/
structure OverloadsWf (s : Scopes E A) : Prop where
  length_ne_one : ∀ m, (s.overloads m).length ≠ 1
  count_lt : ∀ m ∈ s.overloadedDecls, s.overloadedDecls.count m < (s.overloads m).length

omit [DecidableEq E] in
lemma OverloadsWf.count_le (h : s.OverloadsWf) (m : String) :
    s.overloadedDecls.count m = 0 ∨ s.overloadedDecls.count m < (s.overloads m).length := by
  by_cases hm : m ∈ s.overloadedDecls
  · exact .inr (h.count_lt m hm)
  · exact .inl (List.count_eq_zero.2 hm)

lemma OverloadsWf.bindMain (h : s.OverloadsWf) (name : String) (e : E) :
    (s.bindMain name e).OverloadsWf where
  length_ne_one := length_overloads_bindMain h.length_ne_one name e
  count_lt := by
    intro m hm
    cases hT : s.symTable name with
    | none =>
      rw [bindMain_overloadedDecls_of_none e hT] at hm ⊢
      rw [bindMain_overloads_of_none e hT]
      exact h.count_lt m hm
    | some prev =>
      have hdecls : (s.bindMain name e).overloadedDecls =
          if s.declsSizeCtx = [] then s.overloadedDecls else name :: s.overloadedDecls := by
        simp only [Scopes.bindMain, hT, addOverload]
      have hcount : (s.bindMain name e).overloadedDecls.count m ≤
          s.overloadedDecls.count m + if name = m then 1 else 0 := by
        rw [hdecls]
        split
        · omega
        rw [List.count_cons]
        simp only [beq_iff_eq]
        omega
      rw [bindMain_overloads_of_some e hT]
      by_cases hmn : m = name
      · subst hmn
        rw [if_pos rfl] at hcount
        rw [update_self, List.length_cons]
        have hlen : s.overloadedDecls.count m + 1 ≤
            (if s.overloads m = [] then [prev] else s.overloads m).length := by
          rcases h.count_le m with h0 | hlt
          · rw [h0]
            split
            · simp
            · rename_i hne
              exact List.length_pos_iff.2 hne
          · rw [if_neg (List.length_pos_iff.1 (by omega))]
            omega
        omega
      · rw [if_neg (fun h => hmn h.symm)] at hcount
        rw [update_of_ne hmn]
        have hpos := List.count_pos_iff.2 hm
        rcases h.count_le m with h0 | hlt
        · omega
        · omega

omit [DecidableEq E] in
lemma OverloadsWf.unbind (h : s.OverloadsWf) (name : String) : (s.unbind name).OverloadsWf := by
  by_cases hhead : s.overloadedDecls.head? = some name
  swap
  · rw [unbind_of_not_overloaded hhead]
    exact ⟨h.length_ne_one, h.count_lt⟩
  rw [unbind_of_overloaded hhead]
  obtain ⟨D, hD⟩ : ∃ D, s.overloadedDecls = name :: D := by
    cases hdecls : s.overloadedDecls with
    | nil => simp [hdecls] at hhead
    | cons d D =>
      rw [hdecls, head?_cons, Option.some.injEq] at hhead
      exact ⟨D, by rw [hhead]⟩
  constructor
  · intro m
    by_cases hmn : m = name
    · simp only [hmn, update_self]
      split
      · simp
      · assumption
    · simp only [update_of_ne hmn]
      exact h.length_ne_one m
  intro m hm
  simp only [hD, List.tail_cons] at hm ⊢
  have hlt := h.count_lt m (by rw [hD]; exact mem_cons_of_mem _ hm)
  rw [hD, List.count_cons] at hlt
  have hpos := List.count_pos_iff.2 hm
  by_cases hmn : m = name
  · simp only [hmn, update_self, beq_self_eq_true, if_true] at hlt hpos ⊢
    have htail : (s.overloads name).tail.length = (s.overloads name).length - 1 :=
      List.length_tail
    rw [if_neg (by omega)]
    omega
  simp only [update_of_ne hmn]
  have hne : (name == m) = false := beq_eq_false_iff_ne.2 fun h => hmn h.symm
  rw [hne, if_neg Bool.false_ne_true] at hlt
  exact hlt

omit [DecidableEq E] in
lemma OverloadsWf.foldl_unbind (h : s.OverloadsWf) (ns : List String) :
    (ns.foldl Scopes.unbind s).OverloadsWf := by
  induction ns generalizing s with
  | nil => exact h
  | cons n ns ih => exact ih (h.unbind n)

lemma Reachable.overloadsWf (h : Reachable o s) : s.OverloadsWf := by
  induction h with
  | init => exact ⟨by simp [Scopes.empty], by simp [Scopes.empty]⟩
  | @bind s name e _ ih =>
    cases hrule : o.useRuleSymTable && o.isProofRule e with
    | true =>
      obtain ⟨t, ht⟩ := bind_of_rule (s := s) hrule name
      rw [ht]
      exact ⟨ih.length_ne_one, ih.count_lt⟩
    | false =>
      rw [bind_of_main hrule]
      exact ih.bindMain name e
  | pushScope _ ih => exact ⟨ih.length_ne_one, ih.count_lt⟩
  | @popScope s s' _ hpop ih =>
    unfold Scopes.popScope at hpop
    split at hpop
    · cases hpop
    rename_i lastSize ctx _
    cases hpop
    have hfold := ih.foldl_unbind (s.decls.take (s.decls.length - lastSize))
    exact ⟨hfold.length_ne_one, hfold.count_lt⟩
  | reset _ ih => exact ⟨ih.length_ne_one, ih.count_lt⟩
  | setInfo _ _ _ _ ih => exact ⟨ih.length_ne_one, ih.count_lt⟩

/-! ## States that later calls cannot tell apart -/

/-- The tables agree on everything that later calls with terms outside of `L`
read. -/
structure Agree (L : Finset E) (s s' : Scopes E A) : Prop where
  symTable : s'.symTable = s.symTable
  overloads : s'.overloads = s.overloads
  kind : ∀ e, (s'.info e).kind = (s.info e).kind
  attrCons : ∀ e, (s'.info e).attrCons = (s.info e).attrCons
  overloadKey : ∀ e ∉ L, s'.overloadKey e = s.overloadKey e
  outside : ∀ name, ∀ e ∈ s.overloads name, e ∉ L
  outside_symTable : ∀ name e, s.symTable name = some e → e ∉ L

variable {L : Finset E} {s' : Scopes E A} {tc : Builder E A}

omit [DecidableEq E] in
lemma overloadsOf_eq (s : Scopes E A) (e : E) :
    s.overloadsOf e = (s.overloadKey e).elim [] s.overloads := by
  rw [overloadsOf, overloadKey]
  split <;> rfl

variable {mk mk' : E → List E → Option E}

variable {args : List E} {e : E}

omit [DecidableEq E] in
lemma Agree.attrApp (h : Agree L s s') (htc : tc.Outside L)
    (hmk : ∀ c cs, c ∉ L → (∀ x ∈ cs, x ∉ L) → mk' c cs = mk c cs)
    (hargs : ∀ x ∈ args, x ∉ L) {hd : E} (hhd : hd ∉ L) (plain : E) :
    s'.attrApp tc mk' hd args plain = s.attrApp tc mk hd args plain := by
  rw [Scopes.attrApp, Scopes.attrApp, h.attrCons]
  split
  · rfl
  split
  · rfl
  · rfl
  · rename_i hchain
    obtain ⟨hc, hcs⟩ := htc.chain hhd hargs hchain
    rw [hmk _ _ hc hcs]
  rename_i hlist
  obtain ⟨hc, hcs⟩ := htc.argList hhd hargs hlist
  rw [hmk _ _ hc hcs]

omit [DecidableEq E] in
lemma Agree.getOverloadInternal (h : Agree L s s') (htc : tc.Outside L)
    (hmk : ∀ c cs, c ∉ L → (∀ x ∈ cs, x ∉ L) → mk' c cs = mk c cs)
    (hargs : ∀ x ∈ args, x ∉ L) (ok : E → Bool) (retApply : Bool) {ov : List E}
    (hov : ∀ x ∈ ov, x ∉ L) :
    s'.getOverloadInternal tc mk' args ok retApply ov =
      s.getOverloadInternal tc mk args ok retApply ov := by
  induction ov with
  | nil => rfl
  | cons hd ov ih =>
    rw [Scopes.getOverloadInternal, Scopes.getOverloadInternal,
      h.attrApp htc hmk hargs (hov hd (.head _)),
      ih fun x hx => hov x (.tail _ hx)]

omit [DecidableEq E] in
lemma Agree.overloadsOf (h : Agree L s s') (he : e ∉ L) :
    s'.overloadsOf e = s.overloadsOf e ∧ ∀ x ∈ s.overloadsOf e, x ∉ L := by
  rw [overloadsOf_eq, overloadsOf_eq, h.overloadKey e he, h.overloads]
  refine ⟨rfl, ?_⟩
  cases s.overloadKey e with
  | none => simp
  | some name => exact h.outside name

omit [DecidableEq E] in
lemma Agree.mkAs (h : Agree L s s') (htc : tc.Outside L)
    (hmk : ∀ c cs, c ∉ L → (∀ x ∈ cs, x ∉ L) → mk' c cs = mk c cs) {f T : E} (hf : f ∉ L)
    (hT : T ∉ L) : s'.mkAs tc mk' f T = s.mkAs tc mk f T := by
  have hov : ∀ s : Scopes E A,
      (if (s.info f).isOverloaded then s.overloads (s.info f).overloadName else [f]) =
        (s.overloadKey f).elim [f] s.overloads := by
    intro s
    rw [Scopes.overloadKey]
    split <;> rfl
  rw [Scopes.mkAs, Scopes.mkAs]
  simp only [hov]
  rw [h.overloadKey f hf, h.overloads]
  rw [h.getOverloadInternal htc hmk (htc.dummyArgs hT)]
  cases s.overloadKey f with
  | none => simpa using hf
  | some name => exact h.outside name

omit [DecidableEq E] in
lemma Agree.mkBuiltin (h : Agree L s s') (htc : tc.Outside L)
    (hmk : ∀ c cs, c ∉ L → (∀ x ∈ cs, x ∉ L) → mk' c cs = mk c cs) (k : Kind)
    (hargs : ∀ x ∈ args, x ∉ L) : s'.mkBuiltin tc mk' k args = s.mkBuiltin tc mk k args := by
  unfold Scopes.mkBuiltin
  split
  · exact h.mkAs htc hmk (hargs _ (by simp)) (hargs _ (by simp))
  · rfl

omit [DecidableEq E] in
lemma Agree.mkApply (h : Agree L s s') (htc : tc.Outside L) (fuel : Nat) :
    ∀ hd args, hd ∉ L → (∀ x ∈ args, x ∉ L) →
      s'.mkApply tc fuel hd args = s.mkApply tc fuel hd args := by
  induction fuel with
  | zero =>
    intro hd args _ _
    rfl
  | succ fuel ih =>
    intro hd args hhd hargs
    obtain ⟨hov, hout⟩ := h.overloadsOf hhd
    rw [Scopes.mkApply, Scopes.mkApply, h.kind, h.mkBuiltin htc ih _ hargs, hov,
      h.getOverloadInternal htc ih hargs _ _ hout, h.attrApp htc ih hargs hhd]

omit [DecidableEq E] in
lemma Agree.mkExpr (h : Agree L s s') (htc : tc.Outside L) (fuel : Nat) (k : Kind)
    {children : List E} (hc : ∀ x ∈ children, x ∉ L) :
    s'.mkExpr tc fuel k children = s.mkExpr tc fuel k children := by
  unfold Scopes.mkExpr
  split
  · exact h.mkApply htc fuel _ _ (hc _ (.head _)) fun x hx =>
      hc x (.tail _ hx)
  · exact h.mkBuiltin htc (h.mkApply htc fuel) k hc

lemma Agree.bindMain (h : Agree L s s') (he : e ∉ L) (name : String) :
    Agree L (s.bindMain name e) (s'.bindMain name e) where
  symTable := by rw [bindMain_symTable, bindMain_symTable, h.symTable]
  overloads := by
    cases hT : s.symTable name with
    | none => rw [bindMain_overloads_of_none e hT,
        bindMain_overloads_of_none e (by rw [h.symTable, hT]), h.overloads]
    | some prev =>
      have hT' : s'.symTable name = some prev := by rw [h.symTable, hT]
      rw [bindMain_overloads_of_some e hT, bindMain_overloads_of_some e hT', h.overloads]
  kind := by
    intro x
    rw [(kind_attrCons_bindMain name e x).1, (kind_attrCons_bindMain name e x).1, h.kind]
  attrCons := by
    intro x
    rw [(kind_attrCons_bindMain name e x).2, (kind_attrCons_bindMain name e x).2, h.attrCons]
  overloadKey := by
    intro x hx
    have hbound : s'.bound name = s.bound name := by rw [bound, bound, h.symTable]
    rw [overloadKey_bindMain, overloadKey_bindMain, h.overloadKey x hx, hbound]
  outside := by
    intro m x hx
    cases hT : s.symTable name with
    | none =>
      rw [bindMain_overloads_of_none e hT] at hx
      exact h.outside m x hx
    | some prev =>
      rw [bindMain_overloads_of_some e hT] at hx
      by_cases hm : m = name
      swap
      · rw [update_of_ne hm] at hx
        exact h.outside m x hx
      rw [hm, update_self, mem_cons] at hx
      rcases hx with rfl | hx
      · exact he
      split at hx
      · rw [List.mem_singleton.1 hx]
        exact h.outside_symTable name prev hT
      · exact h.outside name x hx
  outside_symTable := by
    intro m x hx
    rw [bindMain_symTable] at hx
    by_cases hm : m = name
    · rw [hm, update_self, Option.some.injEq] at hx
      rw [← hx]
      exact he
    · rw [update_of_ne hm] at hx
      exact h.outside_symTable m x hx

lemma Agree.bind (h : Agree L s s') (he : e ∉ L) (o : BindOptions E) (name : String) :
    Agree L (s.bind o name e) (s'.bind o name e) := by
  cases hrule : o.useRuleSymTable && o.isProofRule e with
  | true =>
    obtain ⟨t, ht⟩ := bind_of_rule (s := s) hrule name
    obtain ⟨t', ht'⟩ := bind_of_rule (s := s') hrule name
    rw [ht, ht']
    exact ⟨h.symTable, h.overloads, h.kind, h.attrCons, h.overloadKey, h.outside,
      h.outside_symTable⟩
  | false =>
    rw [bind_of_main hrule, bind_of_main hrule]
    exact h.bindMain he name

lemma Agree.observe (h : Agree L s s') (htc : tc.Outside L) {later : List (Later E)}
    (hl : ∀ l ∈ later, l.Outside L) : s'.observe tc o later = s.observe tc o later := by
  induction later generalizing s s' with
  | nil => rfl
  | cons l later ih =>
    have hrest : ∀ l ∈ later, l.Outside L := fun l hl' => hl l (.tail _ hl')
    have hhead := hl l (.head _)
    cases l with
    | getVar name => rw [Scopes.observe, Scopes.observe, getVar, getVar, h.symTable, ih h hrest]
    | bind name e => exact ih (h.bind hhead o name) hrest
    | mkExpr fuel k cs => rw [Scopes.observe, Scopes.observe, h.mkExpr htc fuel k hhead, ih h hrest]

end Scopes

/-! ## When a block is transparent -/

section Transparent

variable [DecidableEq E] {o : BindOptions E} {s : Scopes E A} {b : Block E}

/-- Every term from outside that the block makes an overload was looked up
under that name before. -/
def Block.KeepsOverloadNames (o : BindOptions E) (b : Block E) (s : Scopes E A) : Prop :=
  ∀ e ∉ b.locals, ∀ name, Scopes.lastOverload o s.bound e b.binds = some name →
    s.overloadKey e = some name

/-- The overloads of a bound name that the block binds end in its binding. -/
def Block.OverloadsCurrent (o : BindOptions E) (b : Block E) (s : Scopes E A) : Prop :=
  ∀ name ∈ Scopes.mainNames o b.binds, ∀ e, s.symTable name = some e →
    s.overloads name ≠ [] → (s.overloads name).head? = some e

/-- The last overloaded declaration from before the block is not one of the
names that the block binds first. -/
def Block.NotMisread (o : BindOptions E) (b : Block E) (s : Scopes E A) : Prop :=
  ∀ name ∈ Scopes.freshNames o s.bound b.binds, s.overloadedDecls.head? ≠ some name

variable {s' : Scopes E A}

/-- What a block leaves behind, as bindings that are made and undone. -/
lemma Block.info_run (h : b.run o s = some s') (e : E) :
    (s'.info e).kind = (s.info e).kind ∧ (s'.info e).attrCons = (s.info e).attrCons ∧
    s'.overloadKey e = (Scopes.lastOverload o s.bound e b.binds).or (s.overloadKey e) := by
  rw [b.run_eq o s, Option.some.injEq] at h
  have hinfo : s'.info e = (s.pushScope.bindAll o b.binds).info e := by
    rw [← h, Scopes.info, Scopes.info, ← Scopes.appData_undone]
  obtain ⟨hk, ha, hkey⟩ := Scopes.info_bindAll (o := o) (s := s.pushScope) b.binds e
  rw [Scopes.overloadKey] at hkey ⊢
  rw [hinfo]
  exact ⟨hk, ha, hkey⟩

lemma Block.tables_run (hwf : s.OverloadsWf) (hmis : b.NotMisread o s) (h : b.run o s = some s') :
    s'.overloads = s.overloads ∧ s'.symTable = s.restored (Scopes.mainNames o b.binds) := by
  rw [b.run_eq o s, Option.some.injEq] at h
  obtain ⟨hov, _, hsym⟩ := Scopes.undone_spec (o := o) (s := s.pushScope) b.binds
    (by simp [Scopes.pushScope]) hwf.length_ne_one hmis
  rw [← h]
  exact ⟨hov, hsym⟩

lemma Block.agree (hwf : s.OverloadsWf) (hfresh : b.Fresh s) (hkeep : b.KeepsOverloadNames o s)
    (hcur : b.OverloadsCurrent o s) (hmis : b.NotMisread o s)
    (h : b.run o s = some s') : Scopes.Agree b.locals s s' where
  symTable := by
    rw [(b.tables_run hwf hmis h).2]
    funext m
    rw [Scopes.restored]
    split
    · rename_i hm
      obtain ⟨e, he⟩ := Option.isSome_iff_exists.1 hm.1
      rw [hcur m hm.2.1 e he hm.2.2, he]
    · rfl
  overloads := (b.tables_run hwf hmis h).1
  kind := fun e => (b.info_run h e).1
  attrCons := fun e => (b.info_run h e).2.1
  overloadKey := by
    intro e he
    rw [(b.info_run h e).2.2]
    cases hlast : Scopes.lastOverload o s.bound e b.binds with
    | none => rfl
    | some name => exact (hkeep e he name hlast).symm
  outside := fun name e he hloc => (hfresh e hloc name).2 he
  outside_symTable := fun name e he hloc => (hfresh e hloc name).1 he

/-- A builder whose applications are their heads and where only applications
of `f` have a type. -/
def Builder.headOnly (f : E) : Builder E A where
  apply hd _ := hd
  wellTyped x := decide (x = f)
  dummyArgs _ := []
  hasReturnType x _ := decide (x = f)
  applyAttr _ _ _ := .null
  applyPlain hd _ := hd
  mkOther _ args := args.headD f

lemma Builder.headOnly_outside (f : E) (L : Finset E) :
    (Builder.headOnly f : Builder E A).Outside L where
  chain := fun _ _ h => by cases h
  argList := fun _ _ h => by cases h
  dummyArgs := fun _ x hx => by cases hx

lemma getOverloadInternal_headOnly (f : E) (mk : E → List E → Option E) (args : List E)
    (ok : E → Bool) (hok : ∀ x, ok x = decide (x = f)) (ov : List E) :
    s.getOverloadInternal (Builder.headOnly f) mk args ok false ov =
      some (if f ∈ ov then some f else none) := by
  induction ov with
  | nil => rfl
  | cons hd ov ih =>
    have happ : s.attrApp (Builder.headOnly f) mk hd args hd = some hd := by
      rw [Scopes.attrApp]
      split <;> rfl
    rw [Scopes.getOverloadInternal,
      show (Builder.headOnly f : Builder E A).apply hd args = hd from rfl, happ,
      Option.bind_some, hok, ih]
    by_cases hf : hd = f
    · simp [hf]
    · have hf' : f ≠ hd := fun h => hf h.symm
      simp [hf, hf']

lemma mkAs_headOnly (f e T : E) (mk : E → List E → Option E) (hfe : f ≠ e) :
    s.mkAs (Builder.headOnly f) mk e T = some (if f ∈ s.overloadsOf e then f else e) := by
  have hok : ∀ x, (Builder.headOnly f : Builder E A).hasReturnType x T = decide (x = f) :=
    fun _ => rfl
  rw [Scopes.mkAs, Scopes.overloadsOf]
  simp only [getOverloadInternal_headOnly f mk _ _ hok]
  cases (s.info e).isOverloaded with
  | true =>
    simp only [if_true]
    split <;> rfl
  | false => simp [hfe, Builder.headOnly]

/-- Two bindings of a name to `f` make `f` an overload of it, and change
neither the overloads of other names nor what `e` is looked up under. -/
lemma overloadsOf_bind_bind {e f : E} (hf : o.isProofRule f = false) (hfe : f ≠ e) (name : String) :
    ((s.bind o name f).bind o name f).overloadKey e = s.overloadKey e ∧
    f ∈ ((s.bind o name f).bind o name f).overloads name ∧
    ∀ m ≠ name, ((s.bind o name f).bind o name f).overloads m = s.overloads m := by
  have hrule : (o.useRuleSymTable && o.isProofRule f) = false := by rw [hf, Bool.and_false]
  rw [Scopes.bind_of_main hrule, Scopes.bind_of_main hrule]
  refine ⟨?_, ?_, ?_⟩
  · rw [Scopes.overloadKey_bindMain, Scopes.overloadKey_bindMain, if_neg (fun h => hfe h.2),
      if_neg (fun h => hfe h.2)]
    rfl
  · have hsym : (s.bindMain name f).symTable name = some f := by
      rw [Scopes.bindMain_symTable, update_self]
    rw [Scopes.bindMain_overloads_of_some f hsym, update_self]
    exact .head _
  · intro m hm
    rw [Scopes.overloads_bindMain_of_ne hm, Scopes.overloads_bindMain_of_ne hm]

/-- A term that is looked up under another name after the block can be told
apart: bind that name again. -/
lemma Block.key_of_transparent (hinf : Set.Infinite {e | o.isProofRule e = false})
    (h : b.Transparent o s) {e : E} (he : e ∉ b.locals) {name : String}
    (hlast : Scopes.lastOverload o s.bound e b.binds = some name) :
    s.overloadKey e = some name := by
  by_contra hkey
  obtain ⟨s', hrun, hobs⟩ := h
  obtain ⟨f, hf, hfnew⟩ := hinf.exists_notMem_finset (b.locals ∪ {e} ∪ (s.overloadsOf e).toFinset)
  simp only [Finset.mem_union, Finset.mem_singleton, List.mem_toFinset, not_or] at hfnew
  obtain ⟨⟨hfloc, hfe⟩, hfov⟩ := hfnew
  have hkey' : s'.overloadKey e = some name := by
    rw [(b.info_run hrun e).2.2, hlast]
    rfl
  have hsame := hobs (Builder.headOnly f) (Builder.headOnly_outside f _)
    [.bind name f, .bind name f, .mkExpr 0 .as [e, e]] (by
      intro l hl
      simp only [mem_cons, List.not_mem_nil, or_false] at hl
      rcases hl with rfl | rfl | rfl
      · exact hfloc
      · exact hfloc
      · simpa [Later.Outside] using he)
  have heval : ∀ r : Scopes E A,
      r.observe (Builder.headOnly f) o [.bind name f, .bind name f, .mkExpr 0 .as [e, e]] =
        [some (if f ∈ ((r.bind o name f).bind o name f).overloadsOf e then f else e)] := by
    intro r
    rw [← mkAs_headOnly f e e (Scopes.mkApply (Builder.headOnly f) _ 0) hfe]
    rfl
  rw [heval, heval, List.cons.injEq, Option.some.injEq] at hsame
  have hin : f ∈ ((s'.bind o name f).bind o name f).overloadsOf e := by
    obtain ⟨hk, hmem, _⟩ := overloadsOf_bind_bind (s := s') (o := o) hf hfe name
    rw [Scopes.overloadsOf_eq, hk, hkey']
    exact hmem
  have hout : f ∉ ((s.bind o name f).bind o name f).overloadsOf e := by
    obtain ⟨hk, _, hothers⟩ := overloadsOf_bind_bind (s := s) (o := o) hf hfe name
    rw [Scopes.overloadsOf_eq] at hfov ⊢
    rw [hk]
    cases hk0 : s.overloadKey e with
    | none => simp
    | some m =>
      have hm : m ≠ name := by
        rintro rfl
        exact hkey hk0
      rw [hk0] at hfov
      rw [Option.elim_some, hothers m hm]
      exact hfov
  rw [if_pos hin, if_neg hout] at hsame
  exact hfe hsame.1

lemma Block.symTable_of_transparent (h : b.Transparent o s)
    (hrun : b.run o s = some s') (name : String) [Nonempty E] :
    s'.symTable name = s.symTable name := by
  obtain ⟨s1, hrun', hobs⟩ := h
  cases hrun'.symm.trans hrun
  have hsame := hobs (Builder.headOnly (Classical.arbitrary E)) (Builder.headOnly_outside _ _)
    [.getVar name] (by simp [Later.Outside])
  simpa [Scopes.observe, Scopes.getVar] using hsame

/-- In every reachable state, a block cannot be noticed by later calls exactly
if it meets the three conditions. -/
theorem Block.transparent_iff (o : BindOptions E) (s : Scopes E A) (b : Block E)
    (hinf : Set.Infinite {e | o.isProofRule e = false}) (hs : Scopes.Reachable o s)
    (hfresh : b.Fresh s) :
    b.Transparent o s ↔ b.KeepsOverloadNames o s ∧ b.OverloadsCurrent o s ∧ b.NotMisread o s := by
  have hwf := hs.overloadsWf
  have : Nonempty E := ⟨hinf.nonempty.some⟩
  constructor
  · intro h
    have hmis : b.NotMisread o s := by
      intro d hd hhead
      have hlen : 2 ≤ (s.overloads d).length := by
        have hmem : d ∈ s.overloadedDecls := List.mem_of_mem_head? hhead
        have hlt := hwf.count_lt d hmem
        have hpos := List.count_pos_iff.2 hmem
        omega
      have hne := Scopes.undone_symTable_of_misread (o := o) (s := s.pushScope) b.binds
        (by simp [Scopes.pushScope]) hwf.length_ne_one hhead hlen hd
      have hsym := b.symTable_of_transparent h (b.run_eq o s) d
      have hnone : s.symTable d = none := by
        have hb := Scopes.bound_of_mem_freshNames hd
        simpa [Scopes.bound] using hb
      exact hne (hsym.trans hnone)
    refine ⟨fun e he name hlast => b.key_of_transparent hinf h he hlast, ?_, hmis⟩
    intro name hname e he hov
    have hsym := b.symTable_of_transparent h (b.run_eq o s) name
    rw [(b.tables_run hwf hmis (b.run_eq o s)).2, Scopes.restored,
      if_pos ⟨by rw [Scopes.bound, he]; rfl, hname, hov⟩] at hsym
    rw [hsym, he]
  · rintro ⟨hkeep, hcur, hmis⟩
    refine ⟨_, b.run_eq o s, fun tc htc later hl => ?_⟩
    exact (b.agree hwf hfresh hkeep hcur hmis (b.run_eq o s)).observe htc hl

end Transparent

/-! ## Two blocks on a small state -/

/-- Terms as words of symbols, all of them well typed. -/
def wordBuilder : Builder (List Nat) Unit where
  apply hd args := hd ++ args.flatten
  wellTyped _ := true
  dummyArgs _ := []
  hasReturnType _ _ := true
  applyAttr _ _ _ := .null
  applyPlain hd args := hd ++ args.flatten
  mkOther _ args := args.flatten

/-- Proof rules share the main symbol table. -/
def wordOptions : BindOptions (List Nat) := ⟨false, fun _ => false⟩

/-- The symbol `0` is declared as `x` and the symbol `1` as `s`. -/
def wordScopes : Scopes (List Nat) Unit :=
  (Scopes.empty.bind wordOptions "x" [0]).bind wordOptions "s" [1]

lemma reachable_wordScopes : Scopes.Reachable wordOptions wordScopes :=
  .bind _ _ (.bind _ _ .init)

lemma wordBuilder_outside (L : Finset (List Nat)) : wordBuilder.Outside L where
  chain := fun _ _ h => by cases h
  argList := fun _ _ h => by cases h
  dummyArgs := fun _ x hx => by cases hx

lemma symTable_wordScopes (name : String) (e : List Nat)
    (h : wordScopes.symTable name = some e) : e = [0] ∨ e = [1] := by
  rw [wordScopes, Scopes.bind_of_main rfl, Scopes.bind_of_main rfl, Scopes.bindMain_symTable,
    Scopes.bindMain_symTable] at h
  by_cases hs : name = "s"
  · rw [hs, update_self, Option.some.injEq] at h
    exact .inr h.symm
  rw [update_of_ne hs] at h
  by_cases hx : name = "x"
  · rw [hx, update_self, Option.some.injEq] at h
    exact .inl h.symm
  · rw [update_of_ne hx] at h
    contradiction

lemma overloads_wordScopes (name : String) : wordScopes.overloads name = [] := rfl

/-- A parameter that shadows `x` leaves no trace. -/
theorem transparent_iff_parameter :
    Block.Transparent wordOptions ⟨[("x", [7])], {[7]}⟩ wordScopes := by
  have hinf : Set.Infinite {e : List Nat | wordOptions.isProofRule e = false} := by
    simpa [wordOptions] using Set.infinite_univ
  refine (Block.transparent_iff wordOptions wordScopes _ hinf reachable_wordScopes ?_).2
    ⟨?_, ?_, ?_⟩
  · intro e he name
    rw [Finset.mem_singleton.1 he, overloads_wordScopes]
    refine ⟨fun h => ?_, List.not_mem_nil⟩
    rcases symTable_wordScopes name [7] h with h | h
    · contradiction
    · contradiction
  · intro e he name hlast
    have hne : ([7] : List Nat) ≠ e := fun h => he (Finset.mem_singleton.2 h.symm)
    simp [Scopes.lastOverload, wordOptions, hne] at hlast
  · intro name _ e _ hov
    exact absurd (overloads_wordScopes name) hov
  · intro name _ h
    contradiction

/-- A local name `x` for the symbol `s` makes `s` an overload of `x`: when `x`
is declared again, an application of `s` becomes one of the new symbol. -/
theorem not_transparent_let : Scopes.Reachable wordOptions wordScopes ∧
    ¬ Block.Transparent wordOptions ⟨[("x", [1])], ∅⟩ wordScopes := by
  refine ⟨reachable_wordScopes, ?_⟩
  rintro ⟨s', hrun, hobs⟩
  have hsame := hobs wordBuilder (wordBuilder_outside _)
    [.bind "x" [2], .mkExpr 1 .apply [[1], [5]]] (by simp [Later.Outside])
  have hwith : (Block.run wordOptions ⟨[("x", [1])], ∅⟩ wordScopes).map (fun s =>
      s.observe wordBuilder wordOptions [.bind "x" [2], .mkExpr 1 .apply [[1], [5]]]) =
        some [some [2, 5]] := by decide
  have hwithout : wordScopes.observe wordBuilder wordOptions
      [.bind "x" [2], .mkExpr 1 .apply [[1], [5]]] = [some [1, 5]] := by decide
  rw [hrun, Option.map_some, hsame, hwithout] at hwith
  contradiction

end EthosCpc
