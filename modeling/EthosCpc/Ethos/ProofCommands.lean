import EthosCpc.Ethos.ScopesSpec
import EthosCpc.Library.Inversion

/-!
# The commands of a proof

`CmdParser::parseNextCommand` for `assume`, `assume-push`, `step`, `step-pop`, for the commands
that bind other terms and for the undocumented `push` and `pop`, with the part of `State` that
they use.  Proof rules and the type checker are parameters, plugins are left out.  A premise is
the name of a proof: other expressions are no proofs, and no rule accepts them.

Closing a scope forgets the facts that were proven in it, so a fact never depends on more than
the assumptions that are open and those of `assume`.  This needs the scopes of `State` to be
the ones that `assume-push` opens.
-/

namespace EthosCpc

open List (mem_append)
open Function (update_eq_self update_idem update_of_ne update_self)

variable {E A R : Type}

namespace Scopes

/-! ## Nested scopes -/

/-- The tables of a state that no `reset` has passed through. -/
structure Current (s : Scopes E A) : Prop where
  length_ne_one : ∀ m, (s.overloads m).length ≠ 1
  head : ∀ m, s.overloads m ≠ [] → s.symTable m = (s.overloads m).head?
  declared : ∀ m ∈ s.overloadedDecls, s.overloads m ≠ []
  size_le : ∀ n ∈ s.declsSizeCtx.head?, n ≤ s.decls.length

/-- Closing the last scope leads back to `outer`, but for the data of terms. -/
def Restores (s outer : Scopes E A) : Prop :=
  ∃ a, s.popScope = some { outer with appData := a }

variable {s outer : Scopes E A} {name : String}

lemma Current.withAppData (h : s.Current) (a : E → Option (AppInfo A)) :
    { s with appData := a }.Current := ⟨h.1, h.2, h.3, h.4⟩

lemma Current.pushScope (h : s.Current) : s.pushScope.Current :=
  ⟨h.1, h.2, h.3, fun n hn => by cases hn; exact le_rfl⟩

lemma restores_pushScope (s : Scopes E A) : s.pushScope.Restores s :=
  ⟨s.appData, by simp [popScope, Scopes.pushScope]⟩

lemma foldl_unbind_with (a : E → Option (AppInfo A)) (d : List String) (l : List String) :
    ∀ s : Scopes E A, l.foldl unbind { s with appData := a, decls := d } =
      { l.foldl unbind s with appData := a, decls := d } := by
  induction l with
  | nil => exact fun _ => rfl
  | cons m l ih =>
    intro s
    rw [List.foldl_cons, List.foldl_cons, ← ih (s.unbind m)]
    congr 1
    unfold unbind
    split <;> rfl

lemma popScope_withAppData (s : Scopes E A) (a : E → Option (AppInfo A)) :
    { s with appData := a }.popScope = s.popScope.map fun s => { s with appData := a } := by
  obtain ⟨symTable, overloads, overloadedDecls, decls, ctx, b, rules⟩ := s
  cases ctx with
  | nil => rfl
  | cons n ctx =>
    have hfold := foldl_unbind_with a decls (decls.take (decls.length - n))
      ⟨symTable, overloads, overloadedDecls, decls, n :: ctx, b, rules⟩
    simp only [popScope, Option.map_some, hfold]

lemma Restores.withAppData (h : s.Restores outer) (a : E → Option (AppInfo A)) :
    { s with appData := a }.Restores outer := by
  obtain ⟨b, hb⟩ := h
  exact ⟨a, by rw [popScope_withAppData, hb, Option.map_some]⟩

variable [DecidableEq E]

lemma unbind_bindMain (h : s.Current) (hctx : s.declsSizeCtx ≠ []) (e : E) :
    ∃ a, (s.bindMain name e).unbind name =
      { s with appData := a, decls := name :: s.decls } := by
  cases hT : s.symTable name with
  | none =>
    have hhead : (s.bindMain name e).overloadedDecls.head? ≠ some name := by
      rw [bindMain_overloadedDecls_of_none e hT]
      intro hd
      have hne := h.declared name (List.mem_of_mem_head? hd)
      have hsome := h.head name hne
      rw [hT] at hsome
      exact hne (List.head?_eq_none_iff.1 hsome.symm)
    refine ⟨s.appData, ?_⟩
    rw [unbind_of_not_overloaded hhead]
    have hnone : Function.update s.symTable name none = s.symTable := by
      rw [← hT, update_eq_self]
    simp only [bindMain, hT, update_idem, hnone, if_neg hctx]
  | some prev =>
    have hhead : (s.bindMain name e).overloadedDecls.head? = some name := by
      rw [bindMain_overloadedDecls_of_some e hctx hT, List.head?_cons]
    refine ⟨(s.bindMain name e).appData, ?_⟩
    rw [unbind_of_overloaded hhead]
    by_cases hov : s.overloads name = []
    · have h1 : Function.update s.symTable name (some prev) = s.symTable := by
        rw [← hT, update_eq_self]
      have h2 : Function.update s.overloads name [] = s.overloads := by
        rw [← hov, update_eq_self]
      simp [bindMain, hT, addOverload, hctx, hov, h1, h2]
    · have h1 : Function.update s.symTable name (s.overloads name).head? = s.symTable := by
        rw [← h.head name hov, update_eq_self]
      simp [bindMain, hT, addOverload, hctx, hov, h1, h.length_ne_one name]

lemma Current.bindMain (h : s.Current) (name : String) (e : E) : (s.bindMain name e).Current where
  length_ne_one := length_overloads_bindMain h.length_ne_one name e
  head m hne := by
    by_cases hm : m = name
    · subst hm
      cases hT : s.symTable m with
      | none =>
        rw [bindMain_overloads_of_none e hT] at hne
        have hsome := h.head m hne
        rw [hT] at hsome
        exact absurd (List.head?_eq_none_iff.1 hsome.symm) hne
      | some prev =>
        rw [bindMain_symTable, bindMain_overloads_of_some e hT, update_self, update_self,
          List.head?_cons]
    · rw [overloads_bindMain_of_ne hm] at hne ⊢
      rw [bindMain_symTable, update_of_ne hm]
      exact h.head m hne
  declared m hmem := by
    cases hT : s.symTable name with
    | none =>
      rw [bindMain_overloadedDecls_of_none e hT] at hmem
      rw [bindMain_overloads_of_none e hT]
      exact h.declared m hmem
    | some prev =>
      rw [bindMain_overloads_of_some e hT]
      by_cases hm : m = name
      · rw [hm, update_self]
        exact List.cons_ne_nil _ _
      · rw [update_of_ne hm]
        refine h.declared m ?_
        by_cases hctx : s.declsSizeCtx = []
        · simpa [Scopes.bindMain, hT, addOverload, hctx] using hmem
        · rw [bindMain_overloadedDecls_of_some e hctx hT] at hmem
          exact (List.mem_cons.1 hmem).resolve_left hm
  size_le n hn := by
    rw [bindMain_declsSizeCtx] at hn
    have hctx : s.declsSizeCtx ≠ [] := by
      intro hnil
      rw [hnil] at hn
      cases hn
    rw [bindMain_decls e hctx, List.length_cons]
    exact (h.size_le n hn).trans (Nat.le_succ _)

lemma Restores.bindMain (h : s.Current) (hr : s.Restores outer) (name : String) (e : E) :
    (s.bindMain name e).Restores outer := by
  obtain ⟨a, ha⟩ := hr
  cases hctx : s.declsSizeCtx with
  | nil =>
    rw [popScope, hctx] at ha
    cases ha
  | cons n ctx =>
    have hne : s.declsSizeCtx ≠ [] := by simp [hctx]
    obtain ⟨a', ha'⟩ := @unbind_bindMain _ _ _ name _ h hne e
    have hle := h.size_le n (by simp [hctx])
    have hlen : s.decls.length + 1 - n = s.decls.length - n + 1 := by omega
    rw [popScope, hctx] at ha
    refine ⟨a', ?_⟩
    rw [popScope, bindMain_declsSizeCtx, hctx, bindMain_decls e hne]
    simp only [List.length_cons, hlen, List.take_succ_cons, List.foldl_cons, List.drop_succ_cons,
      ha', foldl_unbind_with]
    simp only [Option.some.injEq] at ha ⊢
    rw [Scopes.mk.injEq] at ha ⊢
    simp_all

end Scopes

/-! ## Commands -/

/-- What a name stands for: the proof of a formula, or another term. -/
inductive Bound (E : Type)
  | proof (F : E)
  | term (t : E)
  deriving DecidableEq

/-- The data that `declare-rule` attaches to a rule.  `program` takes the arguments, with the
conclusion and the assumption behind them, and what the premises prove. -/
structure ProofRule (E : Type) where
  isAssume : Bool
  isConcExplicit : Bool
  program : List E → List E → Option E

/-- What the commands of a proof depend on. -/
structure Checker (R E : Type) where
  rules : R → ProofRule E
  /-- Is `Bool` the type of a term? -/
  isBool : E → Bool
  /-- The assertions of the reference file and its normal form. -/
  reference : Option (List E × (E → E))

/-- The part of `State` that a proof changes. -/
structure ProofState (E A : Type) where
  scopes : Scopes (Bound E) A := .empty
  assumptions : List E := []
  assumptionsSizeCtx : List Nat := []

inductive ProofCmd (R E : Type)
  | assume (isPush : Bool) (name : String) (proven : E)
  | step (isPop : Bool) (name : String) (proven : Option E) (rule : R) (premises : List String)
    (args : List E)
  | bind (name : String) (t : E)
  | push
  | pop

namespace ProofState

variable [DecidableEq E] (c : Checker R E) (s : ProofState E A)

def bind (name : String) (b : Bound E) : ProofState E A :=
  { s with scopes := s.scopes.bindMain name b }

def pushAssumptionScope : ProofState E A :=
  { s with
    scopes := s.scopes.pushScope
    assumptionsSizeCtx := s.assumptions.length :: s.assumptionsSizeCtx }

def popAssumptionScope : Option (ProofState E A) :=
  match s.assumptionsSizeCtx with
  | [] => none
  | lastSize :: ctx => s.scopes.popScope.map fun scopes =>
    ⟨scopes, s.assumptions.take lastSize, ctx⟩

/-- `State::addAssumption`, which fails for an assumption that the reference file lacks. -/
def addAssumption (a : E) : Option (ProofState E A) :=
  let s' := { s with assumptions := s.assumptions ++ [a] }
  match c.reference with
  | none => some s'
  | some (asserts, nf) =>
    if s.assumptionsSizeCtx = [] ∧ nf a ∉ asserts.map nf then none else some s'

def getCurrentAssumptions : List E := s.assumptions.drop (s.assumptionsSizeCtx.headD 0)

/-- What a premise proves. -/
def premise (name : String) : Option E :=
  match s.scopes.symTable name with
  | some (.proof F) => some F
  | _ => none

def notifyStep (rule : ProofRule E) (proven : Option E) (premises args : List E) (isPop : Bool) :
    Option E :=
  if rule.isConcExplicit ∧ proven = none ∨ isPop ≠ rule.isAssume then none
  else
    let children := args ++ if rule.isConcExplicit then proven.toList else []
    if isPop then s.getCurrentAssumptions.head?.bind fun F => rule.program (children ++ [F]) premises
    else rule.program children premises

/-- `CmdParser::parseNextCommand`. -/
def exec : ProofCmd R E → Option (ProofState E A)
  | .assume isPush name proven =>
    let s' := if isPush then s.pushAssumptionScope else s
    if c.isBool proven then (s'.bind name (.proof proven)).addAssumption c proven else none
  | .step isPop name proven rule premises args =>
    if isPop ∧ s.assumptionsSizeCtx = [] ∨ ∃ F ∈ proven, ¬ c.isBool F then none
    else (premises.mapM s.premise).bind fun Fs =>
      (s.notifyStep (c.rules rule) proven Fs args isPop).bind fun F =>
        if c.isBool F ∧ ∀ G ∈ proven, F = G then
          (if isPop then s.popAssumptionScope else some s).map fun s => s.bind name (.proof F)
        else none
  | .bind name t => some (s.bind name (.term t))
  | .push => some { s with scopes := s.scopes.pushScope }
  | .pop => s.scopes.popScope.map fun scopes => { s with scopes := scopes }

def run (cs : List (ProofCmd R E)) : Option (ProofState E A) := cs.foldlM (exec c) s

end ProofState

namespace ProofCmd

def isScope : ProofCmd R E → Bool
  | .push | .pop => true
  | _ => false

def level (l : Nat) : ProofCmd R E → Nat
  | .assume true _ _ => l + 1
  | .step true _ _ _ _ _ => l - 1
  | _ => l

/-- At the level `l` the command makes no assumption for a longer time than that of a scope, and
opens or closes no other scope. -/
def isGround (l : Nat) : ProofCmd R E → Bool
  | .assume false _ _ => l = 0
  | cmd => !cmd.isScope

/-- From the level `l` on, `assume` is used at level zero only, and all scopes are those of
assumptions. -/
def groundAssumes : Nat → List (ProofCmd R E) → Bool
  | _, [] => true
  | l, cmd :: cs => cmd.isGround l && groundAssumes (cmd.level l) cs

end ProofCmd

/-! ## Soundness -/

/-- The rules keep to the formulas with the property `P`: the one of a step if it holds of the
premises, the one of a `step-pop` also if it holds of them because of the assumption. -/
structure Checker.Sound (c : Checker R E) (P : E → Prop) : Prop where
  step : ∀ {r ts Fs G}, (c.rules r).isAssume = false → (c.rules r).program ts Fs = some G →
    c.isBool G → (∀ F ∈ Fs, P F) → P G
  discharge : ∀ {r ts B Fs G}, (c.rules r).isAssume = true →
    (c.rules r).program (ts ++ [B]) Fs = some G → c.isBool G → (P B → ∀ F ∈ Fs, P F) → P G

namespace ProofState

variable {c : Checker R E} {P : E → Prop} {s s' o : ProofState E A} {name : String} {F : E}

/-- What is proven holds if the assumptions do. -/
def Facts (P : E → Prop) (s : ProofState E A) : Prop :=
  (∀ B ∈ s.assumptions, P B) → ∀ name F, s.scopes.symTable name = some (.proof F) → P F

/-- The invariant of a run whose scopes are those of assumptions.  Outside of them the
assumptions hold.  Below a scope lies the state that closing it leads back to. -/
inductive Ok (P : E → Prop) : ProofState E A → Prop
  | ground {s : ProofState E A} (hcur : s.scopes.Current) (hctx : s.assumptionsSizeCtx = [])
    (has : ∀ B ∈ s.assumptions, P B) (hfacts : s.Facts P) : Ok P s
  | nested {s o : ProofState E A} (B : E) (rest : List E) (ho : Ok P o) (hcur : s.scopes.Current)
    (hr : s.scopes.Restores o.scopes)
    (hctx : s.assumptionsSizeCtx = o.assumptions.length :: o.assumptionsSizeCtx)
    (has : s.assumptions = o.assumptions ++ B :: rest) (hrest : ∀ B ∈ rest, P B)
    (hfacts : s.Facts P) : Ok P s

lemma Ok.facts (h : Ok P s) : s.Facts P := by cases h <;> assumption

lemma Ok.current (h : Ok P s) : s.scopes.Current := by cases h <;> assumption

lemma Ok.holds_of_ground (h : Ok P s) (hctx : s.assumptionsSizeCtx = []) :
    ∀ B ∈ s.assumptions, P B := by
  cases h with
  | ground _ _ has => exact has
  | nested B rest ho hcur hr hctx' =>
    rw [hctx] at hctx'
    cases hctx'

lemma ok_init : Ok P ({} : ProofState E A) :=
  .ground ⟨fun _ => by simp [Scopes.empty], fun _ h => absurd rfl h, (fun _ h => by cases h),
    (fun _ h => by cases h)⟩ rfl (List.forall_mem_nil _) (fun _ _ _ h => by cases h)

lemma Ok.withAppData (h : Ok P s) (a : Bound E → Option (AppInfo A)) :
    Ok P { s with scopes := { s.scopes with appData := a } } := by
  cases h with
  | ground hcur hctx has hfacts => exact .ground (hcur.withAppData a) hctx has hfacts
  | nested B rest ho hcur hr hctx has hrest hfacts =>
    exact .nested B rest ho (hcur.withAppData a) (hr.withAppData a) hctx has hrest hfacts

lemma Facts.append (h : s.Facts P) (F : E) :
    Facts P { s with assumptions := s.assumptions ++ [F] } :=
  fun has => h fun B hB => has B (mem_append.2 (.inl hB))

lemma Ok.assume (h : Ok P s) (hF : P F) : Ok P { s with assumptions := s.assumptions ++ [F] } := by
  have hsingle : ∀ B ∈ [F], P B := List.forall_mem_singleton.2 hF
  cases h with
  | ground hcur hctx has hfacts =>
    exact .ground hcur hctx (List.forall_mem_append.2 ⟨has, hsingle⟩) (hfacts.append F)
  | nested B rest ho hcur hr hctx has hrest hfacts =>
    refine .nested B (rest ++ [F]) ho hcur hr hctx ?_ ?_ (hfacts.append F)
    · rw [has, List.append_assoc, List.cons_append]
    · exact List.forall_mem_append.2 ⟨hrest, hsingle⟩

lemma Facts.premise (h : s.Facts P) (has : ∀ B ∈ s.assumptions, P B)
    (hF : s.premise name = some F) : P F := by
  unfold ProofState.premise at hF
  split at hF
  · rename_i heq
    cases hF
    exact h has name F heq
  · cases hF

lemma premises_hold (h : s.Facts P) (has : ∀ B ∈ s.assumptions, P B) :
    ∀ {names : List String} {Fs : List E}, names.mapM s.premise = some Fs → ∀ F ∈ Fs, P F := by
  intro names
  induction names with
  | nil =>
    intro Fs hFs
    cases hFs
    exact List.forall_mem_nil _
  | cons name names ih =>
    intro Fs hFs
    rw [List.mapM_cons] at hFs
    obtain ⟨F, hF, hFs⟩ := bind_inv hFs
    obtain ⟨Gs, hGs, hFs⟩ := bind_inv hFs
    cases hFs
    exact List.forall_mem_cons.2 ⟨h.premise has hF, ih hGs⟩

section

variable {B : E} {rest : List E}
  (hctx : s.assumptionsSizeCtx = o.assumptions.length :: o.assumptionsSizeCtx)
  (has : s.assumptions = o.assumptions ++ B :: rest)
include hctx has

lemma head_assumptions : s.getCurrentAssumptions.head? = some B := by
  rw [getCurrentAssumptions, hctx, has, List.headD_cons, List.drop_left]
  rfl

lemma popAssumptionScope_nested (hr : s.scopes.Restores o.scopes) :
    ∃ a, s.popAssumptionScope = some { o with scopes := { o.scopes with appData := a } } := by
  obtain ⟨a, ha⟩ := hr
  refine ⟨a, ?_⟩
  rw [popAssumptionScope, hctx]
  simp only [ha, has, List.take_left, Option.map_some]

end

lemma Ok.popAssumptionScope (h : Ok P s) (hs' : s.popAssumptionScope = some s') :
    ∃ B ∈ s.getCurrentAssumptions.head?, Ok P s' ∧
      ((∀ B ∈ s'.assumptions, P B) → P B → ∀ B ∈ s.assumptions, P B) := by
  cases h with
  | ground hcur hctx has hfacts =>
    rw [ProofState.popAssumptionScope, hctx] at hs'
    cases hs'
  | @nested _ o B rest ho hcur hr hctx has hrest hfacts =>
    obtain ⟨a, ha⟩ := popAssumptionScope_nested hctx has hr
    obtain rfl := Option.some.inj (ha.symm.trans hs')
    refine ⟨B, head_assumptions hctx has, ho.withAppData a, ?_⟩
    intro houter hB
    rw [has]
    exact List.forall_mem_append.2 ⟨houter, List.forall_mem_cons.2 ⟨hB, hrest⟩⟩

lemma notifyStep_holds (hc : c.Sound P) {rule : R} {proven : Option E} {Fs args : List E}
    {isPop : Bool} (h : s.notifyStep (c.rules rule) proven Fs args isPop = some F)
    (hF : c.isBool F) :
    if isPop then ∀ B ∈ s.getCurrentAssumptions.head?, (P B → ∀ F ∈ Fs, P F) → P F
    else (∀ F ∈ Fs, P F) → P F := by
  unfold notifyStep at h
  split at h
  · cases h
  rename_i hcond
  have hpop : isPop = (c.rules rule).isAssume := by
    by_contra hne
    exact hcond (.inr hne)
  cases isPop with
  | false =>
    rw [if_neg Bool.false_ne_true] at h ⊢
    exact hc.step hpop.symm h hF
  | true =>
    rw [if_pos rfl] at h ⊢
    obtain ⟨B, hB, h⟩ := bind_inv h
    intro B' hB'
    obtain rfl : B = B' := Option.some.inj (hB.symm.trans hB')
    exact hc.discharge hpop.symm h hF

variable [DecidableEq E]

lemma Facts.bind (h : s.Facts P) {b : Bound E}
    (hb : ∀ F, b = .proof F → (∀ B ∈ s.assumptions, P B) → P F) : (s.bind name b).Facts P := by
  intro has m F hm
  change (s.scopes.bindMain name b).symTable m = _ at hm
  rw [Scopes.bindMain_symTable] at hm
  by_cases h' : m = name
  · rw [h', update_self] at hm
    exact hb F (Option.some.inj hm) has
  · rw [update_of_ne h'] at hm
    exact h has m F hm

lemma Ok.bind (h : Ok P s) {b : Bound E}
    (hb : ∀ F, b = .proof F → (∀ B ∈ s.assumptions, P B) → P F) : Ok P (s.bind name b) := by
  have hfacts' : (s.bind name b).Facts P := h.facts.bind hb
  cases h with
  | ground hcur hctx has hfacts => exact .ground (hcur.bindMain name b) hctx has hfacts'
  | nested B rest ho hcur hr hctx has hrest hfacts =>
    exact .nested B rest ho (hcur.bindMain name b) (hr.bindMain hcur name b) hctx has hrest hfacts'

lemma Ok.assumePush (h : Ok P s) (name : String) (F : E) :
    Ok P { s.pushAssumptionScope.bind name (.proof F) with assumptions := s.assumptions ++ [F] } := by
  refine .nested F [] h (h.current.pushScope.bindMain name _)
    ((Scopes.restores_pushScope s.scopes).bindMain h.current.pushScope name _) rfl rfl
    (List.forall_mem_nil _) ?_
  intro has
  have hold : ∀ B ∈ s.assumptions, P B := fun B hB => has B (mem_append.2 (.inl hB))
  have hF : P F := has F (mem_append.2 (.inr (List.mem_singleton_self F)))
  refine Facts.bind (s := s.pushAssumptionScope) (fun _ => h.facts hold) ?_ hold
  intro G hG _
  cases hG
  exact hF

lemma addAssumption_eq (h : s.addAssumption c F = some s') :
    s' = { s with assumptions := s.assumptions ++ [F] } := by
  unfold addAssumption at h
  split at h
  · exact (Option.some.inj h).symm
  · split at h
    · cases h
    · exact (Option.some.inj h).symm

/-- A command that opens no other scope keeps the invariant. -/
lemma Ok.exec (hc : c.Sound P) (h : Ok P s) {cmd : ProofCmd R E} (hcmd : cmd.isScope = false)
    (hassume : ∀ name F, cmd = .assume false name F → P F) (hs' : s.exec c cmd = some s') :
    Ok P s' := by
  cases cmd with
  | assume isPush name F =>
    rw [ProofState.exec] at hs'
    split at hs'
    · obtain rfl := addAssumption_eq hs'
      cases isPush with
      | false =>
        have hF := hassume name F rfl
        exact (h.bind (fun G hG _ => by cases hG; exact hF)).assume hF
      | true => exact h.assumePush name F
    · cases hs'
  | step isPop name proven rule premises args =>
    rw [ProofState.exec] at hs'
    split at hs'
    · cases hs'
    obtain ⟨Fs, hFs, hs'⟩ := bind_inv hs'
    obtain ⟨F, hF, hs'⟩ := bind_inv hs'
    split at hs'
    swap
    · cases hs'
    rename_i hbool
    obtain ⟨s1, hs1, rfl⟩ := map_inv hs'
    have hrule := notifyStep_holds hc hF hbool.1
    cases isPop with
    | false =>
      cases hs1
      rw [if_neg Bool.false_ne_true] at hrule
      refine h.bind fun G hG has => ?_
      cases hG
      exact hrule (premises_hold h.facts has hFs)
    | true =>
      obtain ⟨B, hB, hs1', hall⟩ := h.popAssumptionScope hs1
      rw [if_pos rfl] at hrule
      refine hs1'.bind fun G hG has => ?_
      cases hG
      exact hrule B hB fun hPB => premises_hold h.facts (hall has hPB) hFs
  | bind name t =>
    cases hs'
    exact h.bind fun G hG => by cases hG
  | push => cases hcmd
  | pop => cases hcmd

lemma Ok.run (hc : c.Sound P) {cs : List (ProofCmd R E)} (hcs : ∀ cmd ∈ cs, cmd.isScope = false)
    (hassumed : ∀ name B, .assume false name B ∈ cs → P B) (h : Ok P s)
    (hrun : s.run c cs = some s') : Ok P s' := by
  induction cs generalizing s with
  | nil =>
    cases hrun
    exact h
  | cons cmd cs ih =>
    rw [ProofState.run, List.foldlM_cons] at hrun
    obtain ⟨s1, hs1, hrun⟩ := bind_inv hrun
    obtain ⟨hcmd, hcs⟩ := List.forall_mem_cons.1 hcs
    have h1 : Ok P s1 := h.exec hc hcmd (fun name F heq => hassumed name F (heq ▸ .head _)) hs1
    exact ih hcs (fun name B hB => hassumed name B (.tail _ hB)) h1 hrun

/-! ## Assumptions and the reference file -/

lemma length_exec {cmd : ProofCmd R E} (hs' : s.exec c cmd = some s') :
    s'.assumptionsSizeCtx.length = cmd.level s.assumptionsSizeCtx.length := by
  cases cmd with
  | assume isPush name F =>
    rw [exec] at hs'
    split at hs'
    · obtain rfl := addAssumption_eq hs'
      cases isPush <;> rfl
    · cases hs'
  | step isPop name proven rule premises args =>
    rw [exec] at hs'
    split at hs'
    · cases hs'
    obtain ⟨Fs, hFs, hs'⟩ := bind_inv hs'
    obtain ⟨F, hF, hs'⟩ := bind_inv hs'
    split at hs'
    swap
    · cases hs'
    obtain ⟨s1, hs1, rfl⟩ := map_inv hs'
    cases isPop with
    | false =>
      cases hs1
      rfl
    | true =>
      rw [if_pos rfl, popAssumptionScope] at hs1
      split at hs1
      · cases hs1
      rename_i hctx
      obtain ⟨scopes, -, rfl⟩ := map_inv hs1
      rw [hctx]
      rfl
  | bind name t =>
    cases hs'
    rfl
  | push =>
    cases hs'
    rfl
  | pop =>
    obtain ⟨scopes, -, rfl⟩ := map_inv hs'
    rfl

lemma mem_reference {asserts : List E} {nf : E → E} (href : c.reference = some (asserts, nf))
    {cs : List (ProofCmd R E)} (hcs : ProofCmd.groundAssumes s.assumptionsSizeCtx.length cs)
    (hrun : s.run c cs = some s') {name : String} {B : E} (hB : .assume false name B ∈ cs) :
    nf B ∈ asserts.map nf := by
  induction cs generalizing s with
  | nil => cases hB
  | cons cmd cs ih =>
    rw [ProofState.run, List.foldlM_cons] at hrun
    obtain ⟨s1, hs1, hrun⟩ := bind_inv hrun
    rw [ProofCmd.groundAssumes, Bool.and_eq_true, ← length_exec hs1] at hcs
    cases hB with
    | tail _ hB => exact ih hcs.2 hrun hB
    | head =>
      have hctx : s.assumptionsSizeCtx = [] := by
        simpa [ProofCmd.isGround, List.length_eq_zero_iff] using hcs.1
      rw [exec] at hs1
      split at hs1
      · rw [if_neg Bool.false_ne_true, addAssumption, href] at hs1
        by_contra hmem
        have hcond : (s.bind name (.proof B)).assumptionsSizeCtx = [] ∧ nf B ∉ asserts.map nf :=
          ⟨hctx, hmem⟩
        dsimp only at hs1
        rw [if_pos hcond] at hs1
        cases hs1
      · cases hs1

omit [DecidableEq E] in
lemma isScope_of_ground {cs : List (ProofCmd R E)} {l : Nat} (hcs : ProofCmd.groundAssumes l cs) :
    ∀ cmd ∈ cs, cmd.isScope = false := by
  induction cs generalizing l with
  | nil => exact List.forall_mem_nil _
  | cons cmd cs ih =>
    rw [ProofCmd.groundAssumes, Bool.and_eq_true] at hcs
    refine List.forall_mem_cons.2 ⟨?_, ih hcs.2⟩
    have hcmd := hcs.1
    cases cmd <;> simp_all [ProofCmd.isGround, ProofCmd.isScope]

/-- The invariant in the final state of a proof that refers to a file and assumes at level zero
only, if terms with one normal form mean the same. -/
lemma Ok.of_reference (hc : c.Sound P) {asserts : List E} {nf : E → E}
    (href : c.reference = some (asserts, nf)) (hnf : ∀ B C, nf B = nf C → P B → P C)
    (hasserts : ∀ B ∈ asserts, P B) {cs : List (ProofCmd R E)} (hcs : ProofCmd.groundAssumes 0 cs)
    {s : ProofState E A} (hrun : ProofState.run c {} cs = some s) : Ok P s := by
  refine ok_init.run hc (isScope_of_ground hcs) ?_ hrun
  intro name B hB
  obtain ⟨C, hC, heq⟩ := List.mem_map.1 (mem_reference (s := {}) href hcs hrun hB)
  exact hnf C B heq (hasserts C hC)

end ProofState

/-- In every accepted proof whose scopes are those of `assume-push`: whatever is proven follows
from the formulas of `assume`, at whatever level they stand, and the open assumptions. -/
theorem ProofState.holds_of_run [DecidableEq E] {c : Checker R E} {P : E → Prop} (hc : c.Sound P)
    {cs : List (ProofCmd R E)} (hcs : ∀ cmd ∈ cs, cmd.isScope = false) {s : ProofState E A}
    (hrun : ProofState.run c {} cs = some s)
    (hassumed : ∀ name B, .assume false name B ∈ cs → P B)
    (hopen : ∀ B ∈ s.assumptions, P B) {name : String} {F : E} (hF : s.premise name = some F) :
    P F :=
  (ok_init.run hc hcs hassumed hrun).facts.premise hopen hF

end EthosCpc
