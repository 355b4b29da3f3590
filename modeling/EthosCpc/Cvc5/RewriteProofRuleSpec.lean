import EthosCpc.Cvc5.RewriteProofRule

/-!
# Rewrite steps in cvc5 and in Ethos

An accepted rule has one kind for the occurrences of a list variable (`Consistent`), so the list
that is the witness for it is a list of the operator around every occurrence.  What Ethos reads
then evaluates to the translation of the substituted term (`eval_read`): the lists are
concatenated where cvc5 splices them, and `eo::list_singleton_elim` stands where cvc5 may collapse
an application.  A premise is matched and not evaluated, so a rule is only accepted by Ethos if
its conditions are `plain`.
-/

namespace EthosCpc.Cvc5.Rare

open Option (map_some)
open List (any_cons cons_append forall_mem_cons mapM_cons map_cons mem_append mem_append_left
  mem_append_right mem_map mem_singleton)
open Function (update_of_ne update_self)

variable {κ : Type} {K : NaryTable κ} {σ : Subst κ} {ctx ctx' : Context κ}

/-! ## Contexts -/

section Contexts

variable [DecidableEq κ]

mutual

/-- Every list variable stands below the kind of its context. -/
def Consistent (ctx : Context κ) : Pattern κ → Prop
  | .var (.term _) => True
  | .var (.list _) => False
  | .const _ => True
  | .app _ args => ConsistentArgs ctx none args
  | .nary k args => ConsistentArgs ctx (some k) args

def ConsistentArgs (ctx : Context κ) (k : Option κ) : List (Pattern κ) → Prop
  | [] => True
  | p :: ps =>
    (match p.listVar? with
      | some v => k ≠ none ∧ ctx v = k
      | none => Consistent ctx p) ∧ ConsistentArgs ctx k ps

end

def Context.Le (ctx ctx' : Context κ) : Prop := ∀ v k, ctx v = some k → ctx' v = some k

omit [DecidableEq κ] in
lemma Context.Le.trans {ctx'' : Context κ} (h : ctx.Le ctx') (h' : ctx'.Le ctx'') :
    ctx.Le ctx'' := fun v k hv => h' v k (h v k hv)

lemma addContext_spec {k : Option κ} {v : Nat} (h : addContext k v ctx = some ctx') :
    ctx.Le ctx' ∧ k ≠ none ∧ ctx' v = k := by
  unfold addContext at h
  cases hv : ctx v with
  | none =>
    rw [hv] at h
    cases k with
    | none => cases h
    | some k =>
      cases h
      refine ⟨fun w l hw => ?_, Option.some_ne_none k, update_self ..⟩
      have hne : w ≠ v := by
        rintro rfl
        rw [hv] at hw
        cases hw
      exact (update_of_ne hne _ _).trans hw
  | some k' =>
    rw [hv] at h
    dsimp only at h
    split at h
    · rename_i hk
      cases h
      exact ⟨fun _ _ hw => hw, by rw [← hk]; exact Option.some_ne_none k', hv.trans hk⟩
    · cases h

mutual

lemma getListVarContext_spec : ∀ (p : Pattern κ) (ctx ctx' : Context κ),
    getListVarContext p ctx = some ctx' →
      ctx.Le ctx' ∧ ∀ ctx'' : Context κ, ctx'.Le ctx'' → Consistent ctx'' p
  | .var (.term _), ctx, ctx', h => by
      cases h
      exact ⟨fun _ _ hv => hv, fun _ _ => trivial⟩
  | .var (.list _), _, _, h => nomatch h
  | .const _, ctx, ctx', h => by
      cases h
      exact ⟨fun _ _ hv => hv, fun _ _ => trivial⟩
  | .app _ args, ctx, ctx', h => getListVarContexts_spec none args ctx ctx' h
  | .nary k args, ctx, ctx', h => getListVarContexts_spec (some k) args ctx ctx' h

lemma getListVarContexts_spec (k : Option κ) : ∀ (ps : List (Pattern κ)) (ctx ctx' : Context κ),
    getListVarContexts k ps ctx = some ctx' →
      ctx.Le ctx' ∧ ∀ ctx'' : Context κ, ctx'.Le ctx'' → ConsistentArgs ctx'' k ps
  | [], ctx, ctx', h => by
      cases h
      exact ⟨fun _ _ hv => hv, fun _ _ => trivial⟩
  | p :: ps, ctx, ctx', h => by
      rw [getListVarContexts] at h
      obtain ⟨ctx1, h1, h⟩ := bind_inv h
      obtain ⟨hle, hps⟩ := getListVarContexts_spec k ps ctx1 ctx' h
      cases hp : p.listVar? with
      | some v =>
        rw [hp] at h1
        obtain ⟨hle1, hk, hv⟩ := addContext_spec h1
        refine ⟨hle1.trans hle, fun ctx'' hle'' => ⟨?_, hps ctx'' hle''⟩⟩
        rw [hp]
        obtain ⟨k', rfl⟩ := Option.ne_none_iff_exists'.1 hk
        exact ⟨hk, hle'' v k' (hle v k' hv)⟩
      | none =>
        rw [hp] at h1
        obtain ⟨hle1, hcons⟩ := getListVarContext_spec p ctx ctx1 h1
        refine ⟨hle1.trans hle, fun ctx'' hle'' => ⟨?_, hps ctx'' hle''⟩⟩
        rw [hp]
        exact hcons ctx'' (hle.trans hle'')

end

lemma consistent_of_foldlM (ps : List (Pattern κ)) (ctx ctx' : Context κ)
    (h : ps.foldlM (fun ctx p => getListVarContext p ctx) ctx = some ctx') :
    ctx.Le ctx' ∧ ∀ p ∈ ps, Consistent ctx' p := by
  induction ps generalizing ctx with
  | nil =>
    cases h
    exact ⟨fun _ _ hv => hv, nofun⟩
  | cons p ps ih =>
    rw [List.foldlM_cons] at h
    obtain ⟨ctx1, h1, h⟩ := bind_inv h
    obtain ⟨hle1, hcons⟩ := getListVarContext_spec p ctx ctx1 h1
    obtain ⟨hle, hall⟩ := ih ctx1 h
    exact ⟨hle1.trans hle, forall_mem_cons.2 ⟨hcons ctx' hle, hall⟩⟩

end Contexts

/-! ## Lists -/

lemma convertList_append (ns ms : List (Node κ)) :
    convertList K (ns ++ ms) = convertList K ns ++ convertList K ms := by
  induction ns with
  | nil => rfl
  | cons n ns ih => rw [cons_append, convertList, convertList, ih, cons_append]

lemma eoListConcat_prepend (k : κ) (xs ys : List Term) :
    eoListConcat (K.op k) (K.nil k) (prependNAryChildren (K.op k) (K.nil k) xs)
        (prependNAryChildren (K.op k) (K.nil k) ys) =
      some (prependNAryChildren (K.op k) (K.nil k) (xs ++ ys)) := by
  have hxs := getNAryChildren_prepend (K.nil_view k) xs
  have hys := getNAryChildren_prepend (K.nil_view k) ys
  rw [eoListConcat, if_pos (isNAryList_iff.2 ⟨ys, hys⟩), hxs, map_some]
  split
  swap
  · rw [prependNAryChildren_append]
  rename_i hnil
  have hempty : ys = [] := by
    have h := congrArg (fun t => (naryView (K.op k) t).1) hnil
    simpa [naryView_prepend, K.nil_view k] using h
  rw [hempty, List.append_nil]

lemma eoListSingletonElim_prepend (k : κ) (xs : List Term) :
    eoListSingletonElim (K.op k) (K.nil k) (prependNAryChildren (K.op k) (K.nil k) xs) =
      some (match xs with
        | [x] => x
        | xs => prependNAryChildren (K.op k) (K.nil k) xs) := by
  rw [eoListSingletonElim, getNAryChildren_prepend (K.nil_view k) xs, map_some]
  match xs with
  | [] => rfl
  | [_] => rfl
  | _ :: _ :: _ => rfl

/-! ## Operands -/

lemma operands_cons (p : Pattern κ) (ps : List (Pattern κ)) : Pattern.operands σ (p :: ps) =
      (match p.listVar? with
        | some v => (σ.list v).length
        | none => 1) + Pattern.operands σ ps := by
  rw [Pattern.operands, map_cons, List.sum_cons]
  rfl

lemma length_substituteArgs (ps : List (Pattern κ)) (ns : List (Node κ))
    (h : substituteArgs K σ ps = some ns) : ns.length = Pattern.operands σ ps := by
  induction ps generalizing ns with
  | nil =>
    cases h
    rfl
  | cons p ps ih =>
    rw [substituteArgs] at h
    obtain ⟨children, hchildren, h⟩ := bind_inv h
    obtain ⟨ms, hms, rfl⟩ := map_inv h
    rw [List.length_append, ih ms hms, operands_cons]
    congr 1
    cases hp : p.listVar? with
    | some v =>
      rw [hp] at hchildren
      cases hchildren
      rfl
    | none =>
      rw [hp] at hchildren
      obtain ⟨n, -, rfl⟩ := map_inv hchildren
      rfl

lemma nlistChildren_le_operands (ps : List (Pattern κ)) :
    nlistChildren ps ≤ Pattern.operands σ ps := by
  induction ps with
  | nil => exact Nat.le_refl 0
  | cons p ps ih =>
    rw [nlistChildren, List.countP_cons, operands_cons]
    have hps : List.countP (!·.isListVar) ps ≤ Pattern.operands σ ps := ih
    cases hp : p.listVar? with
    | some v =>
      simp only [Pattern.isListVar, hp, Option.isSome_some, Bool.not_true]
      exact Nat.le_trans hps (Nat.le_add_left ..)
    | none =>
      simp only [Pattern.isListVar, hp, Option.isSome_none, Bool.not_false, if_true]
      rw [Nat.add_comm]
      exact Nat.add_le_add_left hps 1

lemma rebuild_of_two_le {null : Option (Node κ)} {mk : List (Node κ) → Node κ} {m : Nat}
    {ns : List (Node κ)} (h : 2 ≤ ns.length) : rebuild null mk m ns = some (mk ns) := by
  unfold rebuild
  split
  · rfl
  match ns with
  | [] => exact absurd h (by simp)
  | [_] => exact absurd h (by simp)
  | _ :: _ :: _ => rfl

/-! ## What Ethos evaluates -/

variable {k : κ}

lemma witnessTerm_list {v : Nat} (h : ctx v = some k) : Rule.witnessTerm K ctx σ (.list v) =
      some (prependNAryChildren (K.op k) (K.nil k) (convertList K (σ.list v))) := by
  rw [Rule.witnessTerm, h, map_some]
  cases σ.list v <;> rfl

lemma eq_of_listVar? {p : Pattern κ} {v : Nat} (h : p.listVar? = some v) : p = .var (.list v) := by
  match p, h with
  | .var (.list _), rfl => rfl

lemma eoListSingletonElim_rebuild {m : Nat} {ns : List (Node κ)} {n : Node κ}
    (hm : 2 ≤ m) (h : rebuild (some (getNullTerminator K k)) (.nary k) m ns = some n) :
    eoListSingletonElim (K.op k) (K.nil k)
        (prependNAryChildren (K.op k) (K.nil k) (convertList K ns)) = some (convert K n) := by
  rw [eoListSingletonElim_prepend]
  match ns with
  | [] =>
    rw [rebuild, if_neg (by rw [List.length_nil]; omega)] at h
    cases h
    rfl
  | [n'] =>
    rw [rebuild, if_neg (by rw [List.length_singleton]; omega)] at h
    cases h
    rfl
  | n1 :: n2 :: ns =>
    rw [rebuild_of_two_le (by simp)] at h
    cases h
    rfl

variable {ρ : Var → Option Term} {elim : Bool}

mutual

lemma eval_read : ∀ (p : Pattern κ) (n : Node κ), narySubstitute K σ p = some n →
    Consistent ctx p → p.WellFormed → (elim = true ∨ p.Keeps σ) →
      (∀ x ∈ p.getVariables, ρ x = Rule.witnessTerm K ctx σ x) →
        eval K ρ (read K elim p) = some (convert K n)
  | .var (.term v), n, h, _, _, _, hρ => by
      cases h
      exact hρ (.term v) (mem_singleton.2 rfl)
  | .var (.list _), _, h, _, _, _, _ => nomatch h
  | .const t, n, h, _, _, _, _ => by
      cases h
      rfl
  | .app f args, n, h, hcons, hwf, helim, hρ => by
      obtain ⟨ns, hns, h⟩ := bind_inv h
      obtain ⟨heval, hlength⟩ := eval_readArgs_app args ns hns hcons hwf helim hρ (.const f) f rfl
      have hrebuild : rebuild none (.app f) args.length ns = some (.app f ns) := if_pos hlength
      rw [hrebuild] at h
      cases h
      exact heval
  | .nary k args, n, h, hcons, hwf, helim, hρ => by
      obtain ⟨ns, hns, h⟩ := bind_inv h
      have heval := eval_readArgs_nary k args ns hns hcons hwf.2 (helim.imp_right And.right) hρ
      rw [read]
      by_cases hshort : (elim && decide (nlistChildren args < 2)) = true
      · rw [if_pos hshort, eval, heval]
        exact eoListSingletonElim_rebuild hwf.1 h
      rw [if_neg hshort, heval]
      have hoperands : 2 ≤ Pattern.operands σ args := by
        rcases helim with rfl | hkeeps
        · have hle : 1 < nlistChildren args := by simpa using hshort
          exact Nat.le_trans hle (nlistChildren_le_operands args)
        · exact hkeeps.1
      rw [rebuild_of_two_le (by rw [length_substituteArgs args ns hns]; exact hoperands)] at h
      cases h
      rfl

lemma eval_readArgs_nary (k : κ) : ∀ (ps : List (Pattern κ)) (ns : List (Node κ)),
    substituteArgs K σ ps = some ns → ConsistentArgs ctx (some k) ps →
      Pattern.WellFormedList ps → (elim = true ∨ Pattern.KeepsList σ ps) →
        (∀ x ∈ Pattern.getVariablesList ps, ρ x = Rule.witnessTerm K ctx σ x) →
          eval K ρ (mkApplyAttr K k (readArgs K elim ps)) =
            some (prependNAryChildren (K.op k) (K.nil k) (convertList K ns))
  | [], ns, h, _, _, _, _ => by
      cases h
      rfl
  | p :: ps, ns, h, hcons, hwf, helim, hρ => by
      rw [substituteArgs] at h
      obtain ⟨children, hchildren, h⟩ := bind_inv h
      obtain ⟨ms, hms, rfl⟩ := map_inv h
      have hps := eval_readArgs_nary k ps ms hms hcons.2 hwf.2 (helim.imp_right And.right)
        fun x hx => hρ x (mem_append_right _ hx)
      rw [readArgs, mkApplyAttr, convertList_append]
      cases hp : p.listVar? with
      | some v =>
        rw [hp] at hchildren
        cases hchildren
        have hctx : ctx v = some k := by
          have h := hcons.1
          rw [hp] at h
          exact h.2
        obtain rfl := eq_of_listVar? hp
        have hv : eval K ρ (read K elim (.var (.list v))) =
            some (prependNAryChildren (K.op k) (K.nil k) (convertList K (σ.list v))) :=
          (hρ (.list v) (mem_append_left _ (mem_singleton.2 rfl))).trans (witnessTerm_list hctx)
        rw [if_pos (show Pattern.isListVar (.var (.list v) : Pattern κ) = true from rfl)]
        cases ps with
        | nil =>
          cases hms
          rw [convertList, List.append_nil]
          exact hv
        | cons p' ps =>
          rw [readArgs, if_neg (by simp), eval, hv]
          rw [readArgs] at hps
          rw [hps]
          exact eoListConcat_prepend k _ _
      | none =>
        rw [hp] at hchildren
        obtain ⟨n, hn, rfl⟩ := map_inv hchildren
        have hcons1 := hcons.1
        rw [hp] at hcons1
        have hread := eval_read p n hn hcons1 hwf.1 (helim.imp_right And.left) fun x hx =>
          hρ x (mem_append_left _ hx)
        rw [if_neg (by rw [Pattern.isListVar, hp]; exact Bool.false_ne_true), eval, eval, eval,
          hread, hps]
        rfl

lemma eval_readArgs_app : ∀ (ps : List (Pattern κ)) (ns : List (Node κ)),
    substituteArgs K σ ps = some ns → ConsistentArgs ctx none ps →
      Pattern.WellFormedList ps → (elim = true ∨ Pattern.KeepsList σ ps) →
        (∀ x ∈ Pattern.getVariablesList ps, ρ x = Rule.witnessTerm K ctx σ x) →
          ∀ (e : Expr κ) (f : Term), eval K ρ e = some f →
            eval K ρ ((readArgs K elim ps).foldl (fun e c => .app e c.2) e) =
              some ((convertList K ns).foldl .app f) ∧ ns.length = ps.length
  | [], ns, h, _, _, _, _, e, f, hf => by
      cases h
      exact ⟨hf, rfl⟩
  | p :: ps, ns, h, hcons, hwf, helim, hρ, e, f, hf => by
      rw [substituteArgs] at h
      obtain ⟨children, hchildren, h⟩ := bind_inv h
      obtain ⟨ms, hms, rfl⟩ := map_inv h
      have hcons1 := hcons.1
      cases hp : p.listVar? with
      | some v =>
        rw [hp] at hcons1
        exact absurd rfl hcons1.1
      | none =>
        rw [hp] at hchildren hcons1
        obtain ⟨n, hn, rfl⟩ := map_inv hchildren
        have hread := eval_read p n hn hcons1 hwf.1 (helim.imp_right And.left) fun x hx =>
          hρ x (mem_append_left _ hx)
        have happ : eval K ρ (.app e (read K elim p)) = some (.app f (convert K n)) := by
          rw [eval, hf, hread]
          rfl
        obtain ⟨heval, hlength⟩ := eval_readArgs_app ps ms hms hcons.2 hwf.2
          (helim.imp_right And.right) (fun x hx => hρ x (mem_append_right _ hx)) _ _ happ
        exact ⟨heval, congrArg Nat.succ hlength⟩

end

/-! ## What Ethos accepts -/

mutual

variable {P : Pattern κ → Prop}

lemma Pattern.induct (var : ∀ x, P (.var x)) (const : ∀ t, P (.const t))
    (app : ∀ f args, (∀ p ∈ args, P p) → P (.app f args))
    (nary : ∀ k args, (∀ p ∈ args, P p) → P (.nary k args)) : ∀ p, P p
  | .var x => var x
  | .const t => const t
  | .app f args => app f args (Pattern.inductList var const app nary args)
  | .nary k args => nary k args (Pattern.inductList var const app nary args)

lemma Pattern.inductList (var : ∀ x, P (.var x))
    (const : ∀ t, P (.const t)) (app : ∀ f args, (∀ p ∈ args, P p) → P (.app f args))
    (nary : ∀ k args, (∀ p ∈ args, P p) → P (.nary k args)) :
    ∀ ps : List (Pattern κ), ∀ p ∈ ps, P p
  | [] => nofun
  | p :: ps => forall_mem_cons.2
      ⟨Pattern.induct var const app nary p, Pattern.inductList var const app nary ps⟩

end

lemma readArgs_eq (ps : List (Pattern κ)) :
    readArgs K elim ps = ps.map fun p => (p.isListVar, read K elim p) := by
  induction ps with
  | nil => rfl
  | cons p ps ih => rw [readArgs, ih, map_cons]

lemma getVariablesList_eq (ps : List (Pattern κ)) :
    Pattern.getVariablesList ps = ps.flatMap Pattern.getVariables := by
  induction ps with
  | nil => rfl
  | cons p ps ih => rw [Pattern.getVariablesList, ih, List.flatMap_cons]

/-- An application of an n-ary operator is evaluated if a list is concatenated or an argument is
evaluated. -/
lemma isEvaluatable_mkApplyAttr (k : κ) (cs : List (Bool × Expr κ)) :
    (mkApplyAttr K k cs).isEvaluatable = (cs.dropLast.any (·.1) || cs.any (·.2.isEvaluatable)) := by
  induction cs with
  | nil => rfl
  | cons c cs ih =>
    obtain ⟨isList, e⟩ := c
    cases cs with
    | nil => cases isList <;> simp [mkApplyAttr, Expr.isEvaluatable]
    | cons c' cs =>
      rw [mkApplyAttr]
      cases isList with
      | true => rfl
      | false =>
        rw [if_neg Bool.false_ne_true, Expr.isEvaluatable, Expr.isEvaluatable,
          Expr.isEvaluatable, ih, List.dropLast_cons_of_ne_nil (List.cons_ne_nil _ _),
          any_cons, any_cons]
        simp only [Bool.false_or]
        exact Bool.or_left_comm ..

lemma isEvaluatable_foldl (cs : List (Bool × Expr κ)) (e : Expr κ) :
    (cs.foldl (fun e c => .app e c.2) e).isEvaluatable =
      (e.isEvaluatable || cs.any (·.2.isEvaluatable)) := by
  induction cs generalizing e with
  | nil => simp
  | cons c cs ih => rw [List.foldl_cons, ih, Expr.isEvaluatable, any_cons, Bool.or_assoc]

lemma isEvaluatable_read (p : Pattern κ) : (read K true p).isEvaluatable = !p.plain := by
  have hargs : ∀ args : List (Pattern κ), (∀ p ∈ args, (read K true p).isEvaluatable = !p.plain) →
        (readArgs K true args).any (·.2.isEvaluatable) = !Pattern.plainList args := by
    intro args ih
    induction args with
    | nil => rfl
    | cons p ps hrec =>
      obtain ⟨hp, hps⟩ := forall_mem_cons.1 ih
      rw [readArgs, any_cons, hrec hps, hp, Pattern.plainList, Bool.not_and]
  induction p using Pattern.induct with
  | var x => rfl
  | const t => rfl
  | app f args ih =>
    rw [read, isEvaluatable_foldl, hargs args ih]
    rfl
  | nary k args ih =>
    rw [read, Pattern.plain]
    by_cases hshort : nlistChildren args < 2
    · rw [if_pos (by simpa using hshort), decide_eq_false (by omega)]
      rfl
    rw [if_neg (by simpa using hshort), decide_eq_true (by omega), isEvaluatable_mkApplyAttr,
      hargs args ih, readArgs_eq, ← List.map_dropLast, List.any_map]
    simp [List.not_all_eq_any_not, Function.comp_def]

lemma isEvaluatable_ground (p : Pattern κ) (hwf : p.WellFormed) (hp : p.getVariables = []) :
    (read K elim p).isEvaluatable = false := by
  have hargs : ∀ args : List (Pattern κ), Pattern.WellFormedList args →
      Pattern.getVariablesList args = [] → (∀ p ∈ args, p.WellFormed → p.getVariables = [] →
          (read K elim p).isEvaluatable = false) →
        (∀ p ∈ args, p.isListVar = false) ∧
          (readArgs K elim args).any (·.2.isEvaluatable) = false := by
    intro args hwf hvars ih
    induction args with
    | nil => exact ⟨nofun, rfl⟩
    | cons p ps hrec =>
      obtain ⟨hp, hps⟩ := List.append_eq_nil_iff.1 hvars
      obtain ⟨ihp, ihps⟩ := forall_mem_cons.1 ih
      obtain ⟨hlist, hany⟩ := hrec hwf.2 hps ihps
      refine ⟨forall_mem_cons.2 ⟨?_, hlist⟩, ?_⟩
      · match p, hp with
        | .const _, _ => rfl
        | .app _ _, _ => rfl
        | .nary _ _, _ => rfl
      · rw [readArgs, any_cons, hany, ihp hwf.1 hp]
        rfl
  induction p using Pattern.induct with
  | var x => cases hp
  | const t => rfl
  | app f args ih =>
    obtain ⟨_, hany⟩ := hargs args hwf hp ih
    rw [read, isEvaluatable_foldl, hany]
    rfl
  | nary k args ih =>
    obtain ⟨hlist, hany⟩ := hargs args hwf.2 hp ih
    have hcount : nlistChildren args = args.length :=
      List.countP_eq_length.2 fun p hp => by rw [hlist p hp]; rfl
    have hlong : ¬nlistChildren args < 2 := by
      rw [hcount]
      exact Nat.not_lt.2 hwf.1
    rw [read, if_neg (by simp [hlong]), isEvaluatable_mkApplyAttr, hany, Bool.or_false,
      List.any_eq_false]
    intro c hc
    rw [readArgs_eq] at hc
    obtain ⟨p, hp, rfl⟩ := mem_map.1 (List.mem_of_mem_dropLast hc)
    rw [hlist p hp]
    exact Bool.false_ne_true

variable {cs : List (Bool × Expr κ)}

lemma mem_getVariables_mkApplyAttr {x : Var}
    (h : x ∈ (mkApplyAttr K k cs).getVariables) : ∃ c ∈ cs, x ∈ c.2.getVariables := by
  induction cs with
  | nil => cases h
  | cons c cs ih =>
    obtain ⟨isList, e⟩ := c
    have hcases : x ∈ e.getVariables ∨ x ∈ (mkApplyAttr K k cs).getVariables := by
      rw [mkApplyAttr] at h
      split at h
      · split at h
        · exact .inl h
        · exact mem_append.1 h
      · simpa [Expr.getVariables] using h
    rcases hcases with h | h
    · exact ⟨_, .head _, h⟩
    · obtain ⟨c, hc, hx⟩ := ih h
      exact ⟨c, .tail _ hc, hx⟩

lemma mem_getVariables_foldl {x : Var} {e : Expr κ}
    (h : x ∈ (cs.foldl (fun e c => .app e c.2) e).getVariables) :
    x ∈ e.getVariables ∨ ∃ c ∈ cs, x ∈ c.2.getVariables := by
  induction cs generalizing e with
  | nil => exact .inl h
  | cons c cs ih =>
    rcases ih h with h | ⟨c', hc', hx⟩
    · rcases mem_append.1 h with h | h
      · exact .inl h
      · exact .inr ⟨c, .head _, h⟩
    · exact .inr ⟨c', .tail _ hc', hx⟩

lemma getVariables_read (p : Pattern κ) :
    ∀ x ∈ (read K elim p).getVariables, x ∈ p.getVariables := by
  have hargs : ∀ (args : List (Pattern κ)) (x : Var),
      (∀ p ∈ args, ∀ x ∈ (read K elim p).getVariables, x ∈ p.getVariables) →
        (∃ c ∈ readArgs K elim args, x ∈ c.2.getVariables) → x ∈ Pattern.getVariablesList args := by
    rintro args x ih ⟨c, hc, hx⟩
    rw [readArgs_eq] at hc
    obtain ⟨p, hp, rfl⟩ := mem_map.1 hc
    rw [getVariablesList_eq]
    exact List.mem_flatMap.2 ⟨p, hp, ih p hp x hx⟩
  induction p using Pattern.induct with
  | var x => exact fun y hy => hy
  | const t => exact fun y hy => hy
  | app f args ih =>
    intro x hx
    exact hargs args x ih ((mem_getVariables_foldl hx).resolve_left List.not_mem_nil)
  | nary k args ih =>
    intro x hx
    refine hargs args x ih (mem_getVariables_mkApplyAttr (K := K) (k := k) ?_)
    rw [read] at hx
    split at hx <;> exact hx

/-! ## Matching -/

lemma tryMatch_of_eval {e : Expr κ} {t : Term} (he : e.isEvaluatable = false)
    (heval : eval K ρ e = some t) : tryMatch e t ρ = some ρ := by
  induction e generalizing t with
  | param x =>
    have hx : ρ x = some t := heval
    rw [tryMatch, hx]
    exact if_pos rfl
  | const c =>
    cases heval
    exact if_pos rfl
  | app f a ihf iha =>
    obtain ⟨hf, ha⟩ := Bool.or_eq_false_iff.1 he
    obtain ⟨f', hf', heval⟩ := bind_inv heval
    obtain ⟨a', ha', rfl⟩ := map_inv heval
    rw [tryMatch, ihf hf hf']
    exact iha ha ha'
  | listConcat k a b => cases he
  | listSingletonElim k a => cases he

lemma tryMatchList_of_eval {es : List (Expr κ)} {ts : List Term}
    (he : ∀ e ∈ es, e.isEvaluatable = false) (heval : es.mapM (eval K ρ) = some ts) :
    tryMatchList es ts ρ = some ρ := by
  induction es generalizing ts with
  | nil =>
    cases heval
    rfl
  | cons e es ih =>
    obtain ⟨he, hes⟩ := forall_mem_cons.1 he
    rw [mapM_cons] at heval
    obtain ⟨t, ht, heval⟩ := bind_inv heval
    obtain ⟨ts, hts, heval⟩ := bind_inv heval
    cases heval
    rw [tryMatchList, tryMatch_of_eval he ht]
    exact ih hes hts

lemma tryMatchList_params {w : Var → Option Term} (xs : List Var) {args : List Term}
    (es : List (Expr κ)) (ts : List Term) (ρ0 : Var → Option Term) (hargs : xs.mapM w = some args)
    (hρ0 : ∀ x t, ρ0 x = some t → w x = some t) :
    ∃ ρ : Var → Option Term, (∀ x t, ρ0 x = some t → ρ x = some t) ∧ (∀ x ∈ xs, ρ x = w x) ∧
      tryMatchList (xs.map .param ++ es) (args ++ ts) ρ0 = tryMatchList es ts ρ := by
  induction xs generalizing args ρ0 with
  | nil =>
    cases hargs
    exact ⟨ρ0, fun _ _ h => h, nofun, rfl⟩
  | cons x xs ih =>
    rw [mapM_cons] at hargs
    obtain ⟨t, ht, hargs⟩ := bind_inv hargs
    obtain ⟨args, hargs', hargs⟩ := bind_inv hargs
    cases hargs
    obtain ⟨ρ1, hmatch, hle, hx, hρ1⟩ : ∃ ρ1 : Var → Option Term,
        tryMatch (.param x : Expr κ) t ρ0 = some ρ1 ∧
          (∀ y u, ρ0 y = some u → ρ1 y = some u) ∧ ρ1 x = some t ∧
          ∀ y u, ρ1 y = some u → w y = some u := by
      cases hx : ρ0 x with
      | none =>
        refine ⟨Function.update ρ0 x (some t), by rw [tryMatch, hx], fun y u hy => ?_,
          update_self .., fun y u hy => ?_⟩
        · have hne : y ≠ x := by
            rintro rfl
            rw [hx] at hy
            cases hy
          rwa [update_of_ne hne]
        by_cases hyx : y = x
        · subst hyx
          rw [update_self] at hy
          rw [ht, hy]
        · rw [update_of_ne hyx] at hy
          exact hρ0 y u hy
      | some t' =>
        have htt : t' = t := Option.some.inj ((hρ0 x t' hx).symm.trans ht)
        exact ⟨ρ0, by rw [tryMatch, hx]; exact if_pos htt, fun _ _ h => h, by rw [hx, htt], hρ0⟩
    obtain ⟨ρ, hle', hxs, hrun⟩ := ih ρ1 hargs' hρ1
    refine ⟨ρ, fun y u hy => hle' y u (hle y u hy), forall_mem_cons.2 ⟨?_, hxs⟩, ?_⟩
    · rw [hle' x t hx, ht]
    · rw [map_cons, cons_append, cons_append, tryMatchList, hmatch]
      exact hrun

/-! ## Steps -/

variable {r : Rule κ}

lemma substitute_conc {C : Node κ} (hC : narySubstitute K σ r.conc = some C)
    (hcons : Consistent ctx r.conc) :
    ∃ l m, narySubstitute K σ r.lhs = some l ∧ narySubstitute K σ r.rhs = some m ∧
      C = .app (.sym .eq) [l, m] ∧ Consistent ctx r.lhs ∧ Consistent ctx r.rhs := by
  obtain ⟨children, hchildren, hC⟩ := bind_inv hC
  obtain ⟨hl, hm, _⟩ := hcons
  have hlist : ∀ p : Pattern κ, (match p.listVar? with
      | some v => (none : Option κ) ≠ none ∧ ctx v = none
      | none => Consistent ctx p) → p.listVar? = none ∧ Consistent ctx p := by
    intro p h
    cases hp : p.listVar? with
    | some v =>
      rw [hp] at h
      exact absurd rfl h.1
    | none =>
      rw [hp] at h
      exact ⟨rfl, h⟩
  obtain ⟨hlv, hl⟩ := hlist _ hl
  obtain ⟨hmv, hm⟩ := hlist _ hm
  rw [substituteArgs, hlv, substituteArgs, hmv] at hchildren
  obtain ⟨ls, hls, hchildren⟩ := bind_inv hchildren
  obtain ⟨ms, hms, rfl⟩ := map_inv hchildren
  obtain ⟨ms, hms', hms⟩ := bind_inv hms
  obtain ⟨_, hnil, rfl⟩ := map_inv hms
  cases hnil
  obtain ⟨l, hl', rfl⟩ := map_inv hls
  obtain ⟨m, hm', rfl⟩ := map_inv hms'
  cases hC
  exact ⟨l, m, hl', hm', rfl, hl, hm⟩

lemma mapM_eval {conds : List (Pattern κ)} {Cs : List (Node κ)}
    (h : ∀ c ∈ conds, ∀ n, narySubstitute K σ c = some n →
      eval K ρ (read K true c) = some (convert K n))
    (hCs : conds.mapM (narySubstitute K σ) = some Cs) :
    (conds.map (read K true)).mapM (eval K ρ) = some (Cs.map (convert K)) := by
  induction conds generalizing Cs with
  | nil =>
    cases hCs
    rfl
  | cons c conds ih =>
    obtain ⟨hc, hconds⟩ := forall_mem_cons.1 h
    rw [mapM_cons] at hCs
    obtain ⟨n, hn, hCs⟩ := bind_inv hCs
    obtain ⟨ns, hns, hCs⟩ := bind_inv hCs
    cases hCs
    rw [map_cons, mapM_cons, hc n hn, ih hconds hns]
    rfl

lemma accepted_plain (h : (r.printDslRule K).accepted = true) : ∀ c ∈ r.cond, c.plain = true := by
  intro c hc
  have hmem : read K true c ∈ (r.printDslRule K).args ++ (r.printDslRule K).premises :=
    mem_append_right _ (List.mem_map_of_mem hc)
  rw [EoRule.accepted, if_neg (by rw [List.isEmpty_iff]; exact List.ne_nil_of_mem hmem),
    Bool.and_eq_true] at h
  have he := List.all_eq_true.1 h.1 _ hmem
  rw [isEvaluatable_read] at he
  simpa using he

lemma accepted_of_plain (hwf : r.WellFormed)
    (hplain : ∀ c ∈ r.cond, c.plain = true) : (r.printDslRule K).accepted = true := by
  have hl : r.lhs ∈ r.cond ++ [r.lhs, r.rhs] := mem_append_right _ (by simp)
  have hm : r.rhs ∈ r.cond ++ [r.lhs, r.rhs] := mem_append_right _ (by simp)
  have hvars : ∀ x ∈ (r.printDslRule K).conclusion.getVariables, x ∈ r.fvs := by
    intro x hx
    have hx : x ∈ (read K false r.lhs).getVariables ∨ x ∈ (read K true r.rhs).getVariables := by
      simpa [Rule.printDslRule, Expr.getVariables] using hx
    rcases hx with hx | hx
    · exact hwf.declared _ hl x (getVariables_read _ x hx)
    · exact hwf.declared _ hm x (getVariables_read _ x hx)
  rw [EoRule.accepted]
  split
  · rename_i hempty
    have hfvs : r.fvs = [] := by
      have h := (List.append_eq_nil_iff.1 (List.isEmpty_iff.1 hempty)).1
      exact List.map_eq_nil_iff.1 h
    have hground : ∀ p ∈ r.cond ++ [r.lhs, r.rhs], p.getVariables = [] := fun p hp =>
      List.eq_nil_iff_forall_not_mem.2 fun x hx => by
        have h := hwf.declared p hp x hx
        rw [hfvs] at h
        cases h
    rw [Bool.and_eq_true]
    constructor
    · rw [List.isEmpty_iff]
      refine List.eq_nil_iff_forall_not_mem.2 fun x hx => ?_
      have h := hvars x hx
      rw [hfvs] at h
      cases h
    have hl' : (read K false r.lhs).isEvaluatable = false :=
      isEvaluatable_ground r.lhs (hwf.wellFormed _ hl) (hground _ hl)
    have hm' : (read K true r.rhs).isEvaluatable = false :=
      isEvaluatable_ground r.rhs (hwf.wellFormed _ hm) (hground _ hm)
    simp [Rule.printDslRule, Expr.isEvaluatable, hl', hm']
  rw [Bool.and_eq_true]
  constructor
  · refine List.all_eq_true.2 fun e he => ?_
    rcases mem_append.1 he with he | he
    · obtain ⟨x, -, rfl⟩ := mem_map.1 he
      rfl
    obtain ⟨c, hc, rfl⟩ := mem_map.1 he
    rw [isEvaluatable_read, hplain c hc]
    rfl
  · refine List.all_eq_true.2 fun x hx => ?_
    rw [List.contains_iff_mem]
    exact List.mem_flatMap.2 ⟨.param x,
      mem_append_left _ (List.mem_map_of_mem (hvars x hx)), mem_singleton.2 rfl⟩

variable [DecidableEq κ]

/-- A disjunction, with a list at its end, rewrites to `true` if it is `true`. -/
def orTrue : Rule Kind where
  fvs := [.term 0, .list 0]
  cond := [.app (.sym .eq) [.nary .or [.var (.term 0), .var (.list 0)], .const (.bool true)]]
  lhs := .nary .or [.var (.term 0), .var (.list 0)]
  rhs := .const (.bool true)

def orTrueSubst : Subst Kind where
  term _ := .const (.const 0)
  list _ := [.const (.const 1)]

lemma orTrue_wellFormed : orTrue.WellFormed where
  wellFormed := by simp [orTrue, Pattern.WellFormed, Pattern.WellFormedList]
  declared := by simp [orTrue, Pattern.getVariables, Pattern.getVariablesList]

/-- A disjunction with a list at its start, of which the last argument is dropped if another
disjunction is true. -/
def orDrop : Rule Kind where
  fvs := [.list 0, .term 0, .term 1, .list 1]
  cond :=
    [.app (.sym .eq)
      [.nary .or [.var (.term 0), .var (.term 1), .var (.list 1)], .const (.bool true)]]
  lhs := .nary .or [.var (.list 0), .var (.term 0), .var (.term 1)]
  rhs := .nary .or [.var (.list 0), .var (.term 0)]

def orDropSubst : Subst Kind where
  term v := .const (.const v)
  list v := if v = 0 then [] else [.const (.const 2)]

lemma orDrop_wellFormed : orDrop.WellFormed where
  wellFormed := by simp [orDrop, Pattern.WellFormed, Pattern.WellFormedList]
  declared := by simp [orDrop, Pattern.getVariables, Pattern.getVariablesList]

end EthosCpc.Cvc5.Rare
