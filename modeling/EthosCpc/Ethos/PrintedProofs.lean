import EthosCpc.Cvc5.EoPrinterSpec
import EthosCpc.Ethos.ProofCommands
import Mathlib

/-!
# Reading printed proofs

A replay of the commands that `EoPrinter` prints is a run of `CmdParser::parseNextCommand`, so a
proof whose steps are accepted one by one is accepted as a whole.  `EoPrintChannelOut` prints the
identifier `i` as `@p` followed by its digits.
-/

namespace EthosCpc

open Cvc5
open Cvc5.EoPrinter (Command Scope)
open Function (update_of_ne update_self)

variable {E A R : Type}

def printedId (id : Nat) : String := "@p" ++ id.repr

lemma printedId_injective : Function.Injective printedId := fun _ _ h =>
  Nat.repr_injective ((String.append_right_inj _).1 h)

/-- What a step prints besides its identifier and its premises. -/
structure Writing (R E : Type) where
  implies : E → E → E
  scope : R
  rule : Nat → R
  args : Nat → List E
  printsConclusion : Nat → Bool

namespace Writing

variable (w : Writing R E) (c : Checker R E)

def formula : EoPrinter.Fact E → E
  | .proves F => F
  | .implies F X => w.implies F (formula X)

def write : Command E → ProofCmd R E
  | .assume id F => .assume false (printedId id) F
  | .assumePush id F => .assume true (printedId id) F
  | .step id premises result =>
    .step false (printedId id) (if w.printsConclusion id then some result else none) (w.rule id)
      (premises.map fun p => printedId p.1) (w.args id)
  | .stepPop id premise => .step true (printedId id) none w.scope [printedId premise.1] []

/-- The checker agrees to a command by itself: the reference file has the assumption, and the rule
of a step derives the result from what the premises prove. -/
def Accepts : Command E → Prop
  | .assume _ F =>
    c.isBool F ∧ ∀ asserts nf, c.reference = some (asserts, nf) → nf F ∈ asserts.map nf
  | .assumePush _ F => c.isBool F
  | .step id premises result =>
    c.isBool result ∧ (c.rules (w.rule id)).isAssume = false ∧
      ((c.rules (w.rule id)).isConcExplicit → w.printsConclusion id) ∧
      (c.rules (w.rule id)).program
        (w.args id ++ if (c.rules (w.rule id)).isConcExplicit then [result] else [])
        (premises.map fun p => w.formula p.2) = some result
  | .stepPop _ premise =>
    (c.rules w.scope).isAssume ∧ (c.rules w.scope).isConcExplicit = false ∧
      ∀ F, c.isBool F → c.isBool (w.implies F (w.formula premise.2)) ∧
        (c.rules w.scope).program [F] [w.formula premise.2] =
          some (w.implies F (w.formula premise.2))

/-- The identifiers that are in scope name proofs. -/
def Binds (scopes : List (Scope E)) (s : ProofState E A) : Prop :=
  ∀ id X, EoPrinter.lookup id scopes = some X →
    s.scopes.symTable (printedId id) = some (.proof (w.formula X))

/-- A state of Ethos after commands that have been replayed.  Below a scope lies the state that
closing it leads back to. -/
inductive Replays : List (Scope E) → ProofState E A → Prop
  | ground {names : List (Nat × EoPrinter.Fact E)} {s : ProofState E A} (hcur : s.scopes.Current)
    (hctx : s.assumptionsSizeCtx = []) (hbinds : w.Binds [⟨none, names⟩] s) :
    Replays [⟨none, names⟩] s
  | nested {F : E} {names : List (Nat × EoPrinter.Fact E)} {scopes : List (Scope E)}
    {s o : ProofState E A} (rest : List E) (ho : Replays scopes o) (hF : c.isBool F)
    (hcur : s.scopes.Current) (hr : s.scopes.Restores o.scopes)
    (hctx : s.assumptionsSizeCtx = o.assumptions.length :: o.assumptionsSizeCtx)
    (has : s.assumptions = o.assumptions ++ F :: rest)
    (hbinds : w.Binds (⟨some F, names⟩ :: scopes) s) : Replays (⟨some F, names⟩ :: scopes) s

variable {w c} {scopes scopes' : List (Scope E)} {s o : ProofState E A}

lemma exists_of_bind {id : Nat} {X : EoPrinter.Fact E}
    (h : EoPrinter.bind id X scopes = some scopes') :
    ∃ sc outer, scopes = sc :: outer ∧ scopes' = ⟨sc.assumption, (id, X) :: sc.names⟩ :: outer := by
  cases scopes with
  | nil => cases h
  | cons sc outer =>
    rw [EoPrinter.bind] at h
    split at h
    · cases h
    · cases h
      exact ⟨sc, outer, rfl, rfl⟩

lemma Replays.binds (h : w.Replays c scopes s) : w.Binds scopes s := by cases h <;> assumption

lemma Replays.current (h : w.Replays c scopes s) : s.scopes.Current := by cases h <;> assumption

lemma Replays.withAppData (h : w.Replays c scopes s) (a : Bound E → Option (AppInfo A)) :
    w.Replays c scopes { s with scopes := { s.scopes with appData := a } } := by
  cases h with
  | ground hcur hctx hbinds => exact .ground (hcur.withAppData a) hctx hbinds
  | nested rest ho hF hcur hr hctx has hbinds =>
    exact .nested rest ho hF (hcur.withAppData a) (hr.withAppData a) hctx has hbinds

lemma Replays.append (h : w.Replays c scopes s) (F : E) :
    w.Replays c scopes { s with assumptions := s.assumptions ++ [F] } := by
  cases h with
  | ground hcur hctx hbinds => exact .ground hcur hctx hbinds
  | nested rest ho hF hcur hr hctx has hbinds =>
    refine .nested (rest ++ [F]) ho hF hcur hr hctx ?_ hbinds
    rw [has, List.append_assoc, List.cons_append]

lemma Binds.premises (h : w.Binds scopes s) {premises : List (Nat × EoPrinter.Fact E)}
    (hp : ∀ p ∈ premises, EoPrinter.lookup p.1 scopes = some p.2) :
    (premises.map fun p => printedId p.1).mapM s.premise =
      some (premises.map fun p => w.formula p.2) := by
  induction premises with
  | nil => rfl
  | cons p premises ih =>
    obtain ⟨hhead, htail⟩ := List.forall_mem_cons.1 hp
    have hpremise : s.premise (printedId p.1) = some (w.formula p.2) := by
      rw [ProofState.premise, h p.1 p.2 hhead]
    rw [List.map_cons, List.mapM_cons, hpremise, ih htail]
    rfl

variable [DecidableEq E]

lemma Binds.bind {sc : Scope E} (h : w.Binds (sc :: scopes) s) (id : Nat)
    (X : EoPrinter.Fact E) : w.Binds (⟨sc.assumption, (id, X) :: sc.names⟩ :: scopes)
      (s.bind (printedId id) (.proof (w.formula X))) := by
  intro id' X' hX'
  change (s.scopes.bindMain _ _).symTable _ = _
  rw [Scopes.bindMain_symTable]
  rw [EoPrinter.lookup_bound] at hX'
  by_cases hid : id' = id
  · rw [if_pos hid] at hX'
    cases hX'
    rw [hid, update_self]
  · rw [if_neg hid] at hX'
    rw [update_of_ne (printedId_injective.ne hid)]
    exact h id' X' hX'

lemma Replays.bind (h : w.Replays c scopes s) {id : Nat} {X : EoPrinter.Fact E}
    (hbind : EoPrinter.bind id X scopes = some scopes') :
    w.Replays c scopes' (s.bind (printedId id) (.proof (w.formula X))) := by
  obtain ⟨sc, outer, rfl, rfl⟩ := exists_of_bind hbind
  cases h with
  | ground hcur hctx hbinds => exact .ground (hcur.bindMain _ _) hctx (hbinds.bind id X)
  | nested rest ho hF hcur hr hctx has hbinds =>
    exact .nested rest ho hF (hcur.bindMain _ _) (hr.bindMain hcur _ _) hctx has (hbinds.bind id X)

lemma Replays.assumePush (h : w.Replays c scopes s) {F : E} (hF : c.isBool F) (id : Nat) :
    w.Replays c (⟨some F, [(id, .proves F)]⟩ :: scopes)
      { s.pushAssumptionScope.bind (printedId id) (.proof F) with
        assumptions := s.assumptions ++ [F] } := by
  have hpush : s.scopes.pushScope.Current := h.current.pushScope
  have hbinds : w.Binds (⟨some F, []⟩ :: scopes) s.pushAssumptionScope := h.binds
  exact .nested [] h hF (hpush.bindMain _ _)
    ((Scopes.restores_pushScope s.scopes).bindMain hpush _ _) rfl rfl (hbinds.bind id (.proves F))

lemma addAssumption_of_mem {F : E} (hF : ∀ asserts nf, c.reference = some (asserts, nf) →
    s.assumptionsSizeCtx = [] → nf F ∈ asserts.map nf) :
    s.addAssumption c F = some { s with assumptions := s.assumptions ++ [F] } := by
  unfold ProofState.addAssumption
  split
  · rfl
  · rename_i asserts nf href
    exact if_neg fun hcond => hcond.2 (hF asserts nf href hcond.1)

/-- A command that replays is executed, and the states correspond again. -/
lemma Replays.exec (h : w.Replays c scopes s) {cmd : Command E} (hacc : w.Accepts c cmd)
    (hexec : EoPrinter.exec scopes cmd = some scopes') :
    ∃ s', s.exec c (w.write cmd) = some s' ∧ w.Replays c scopes' s' := by
  cases cmd with
  | assume id F =>
    refine ⟨_, ?_, (h.bind hexec).append F⟩
    rw [write, ProofState.exec, if_pos hacc.1, if_neg Bool.false_ne_true]
    exact addAssumption_of_mem fun asserts nf href _ => hacc.2 asserts nf href
  | assumePush id F =>
    cases hexec
    refine ⟨_, ?_, h.assumePush hacc id⟩
    rw [write, ProofState.exec, if_pos (show c.isBool F from hacc), if_pos rfl]
    exact addAssumption_of_mem fun _ _ _ hctx => by cases hctx
  | step id premises result =>
    obtain ⟨hbool, hrule, hconc, hprog⟩ := hacc
    rw [EoPrinter.exec] at hexec
    obtain ⟨hpremises, hexec⟩ := Option.ite_none_right_eq_some.1 hexec
    refine ⟨_, ?_, h.bind hexec⟩
    have hproven : ∀ F ∈ (if w.printsConclusion id then some result else none), F = result :=
      fun F hF => (Option.some.inj (Option.ite_none_right_eq_some.1 hF).2).symm
    have hnotify : s.notifyStep (c.rules (w.rule id))
        (if w.printsConclusion id then some result else none)
        (premises.map fun p => w.formula p.2) (w.args id) false = some result := by
      unfold ProofState.notifyStep
      rw [if_neg, if_neg Bool.false_ne_true]
      · convert hprog using 2
        split <;> simp_all
      · simp_all
    rw [write, ProofState.exec, if_neg, h.binds.premises hpremises]
    · rw [Option.bind_some, hnotify, Option.bind_some,
        if_pos ⟨hbool, fun F hF => (hproven F hF).symm⟩]
      rfl
    · rintro (⟨hpop, -⟩ | ⟨F, hF, hnot⟩)
      · cases hpop
      · exact hnot (hproven F hF ▸ hbool)
  | stepPop id premise =>
    obtain ⟨hrule, hconc, hprog⟩ := hacc
    cases h with
    | ground hcur hctx hbinds => simp [EoPrinter.exec] at hexec
    | @nested F names rest s o assumptions ho hF hcur hr hctx has hbinds =>
      rw [EoPrinter.exec] at hexec
      obtain ⟨hpremise, hexec⟩ := Option.ite_none_right_eq_some.1 hexec
      obtain ⟨a, hpop⟩ := ProofState.popAssumptionScope_nested hctx has hr
      obtain ⟨hbool, hprog⟩ := hprog F hF
      have hpremises : [printedId premise.1].mapM s.premise = some [w.formula premise.2] :=
        hbinds.premises (List.forall_mem_singleton.2 hpremise)
      have hnotify : s.notifyStep (c.rules w.scope) none [w.formula premise.2] [] true =
          some (w.implies F (w.formula premise.2)) := by
        simp [ProofState.notifyStep, hrule, hconc, ProofState.head_assumptions hctx has, hprog]
      refine ⟨_, ?_, (ho.withAppData a).bind hexec⟩
      rw [write, ProofState.exec, if_neg (by simp [hctx]), hpremises, Option.bind_some, hnotify,
        Option.bind_some, if_pos ⟨hbool, by simp⟩, if_pos rfl, hpop]
      rfl

lemma Replays.run {commands : List (Command E)} (h : w.Replays c scopes s)
    (hacc : ∀ cmd ∈ commands, w.Accepts c cmd)
    (hreplay : EoPrinter.replay scopes commands = some scopes') :
    ∃ s', s.run c (commands.map w.write) = some s' ∧ w.Replays c scopes' s' := by
  induction commands generalizing scopes s with
  | nil =>
    cases hreplay
    exact ⟨s, rfl, h⟩
  | cons cmd commands ih =>
    obtain ⟨hcmd, hacc⟩ := List.forall_mem_cons.1 hacc
    rw [EoPrinter.replay, List.foldlM_cons] at hreplay
    obtain ⟨scopes1, hexec, hreplay⟩ := bind_inv hreplay
    obtain ⟨s1, hs1, h1⟩ := h.exec hcmd hexec
    obtain ⟨s', hs', h'⟩ := ih h1 hacc hreplay
    refine ⟨s', ?_, h'⟩
    rw [ProofState.run, List.map_cons, List.foldlM_cons, hs1]
    exact hs'

end Writing

/-- Ethos accepts a printed proof that names its steps rightly if it agrees to each command, and
proves its result outside of all assumptions of the proof. -/
theorem ProofState.run_of_wellScoped [DecidableEq E] (w : Writing R E) (c : Checker R E)
    (p : EoPrinter.Proof E) (hp : p.WellScoped)
    (hacc : ∀ fuel commands, EoPrinter.print p fuel = some commands →
      ∀ cmd ∈ commands, w.Accepts c cmd) :
    ∃ fuel commands name, ∃ s : ProofState E A, EoPrinter.print p fuel = some commands ∧
      ({} : ProofState E A).run c (commands.map w.write) = some s ∧ s.assumptionsSizeCtx = [] ∧
      s.scopes.symTable name = some (.proof (p.dag.node p.body).result) := by
  obtain ⟨fuel, commands, names, hprint, hreplay, id, premises, hlast⟩ := hp
  obtain ⟨init, rfl⟩ := List.getLast?_eq_some_iff.1 hlast
  have hinit : w.Replays c [⟨none, []⟩] ({} : ProofState E A) :=
    .ground (ok_init (P := fun _ => True)).current rfl fun _ _ h => by cases h
  obtain ⟨s, hs, h⟩ := hinit.run (hacc fuel _ hprint) hreplay
  refine ⟨fuel, _, printedId id, s, hprint, hs, ?_, ?_⟩
  · cases h with
    | ground _ hctx => exact hctx
  · rw [EoPrinter.replay, List.foldlM_append] at hreplay
    obtain ⟨scopes1, -, hreplay⟩ := bind_inv hreplay
    obtain ⟨scopes2, hexec, hpure⟩ := bind_inv hreplay
    cases hpure
    obtain ⟨-, hbind⟩ := Option.ite_none_right_eq_some.1 hexec
    obtain ⟨sc, outer, -, hscopes⟩ := Writing.exists_of_bind hbind
    refine h.binds id (.proves _) ?_
    rw [hscopes, EoPrinter.lookup_bound, if_pos rfl]
    rfl

/-- Rules that prove what they are asked to, and the rule `scope`. -/
def trustingChecker : Checker Bool Nat where
  rules r := ⟨r, !r, fun ts Fs => if r then some (ts.sum + Fs.sum) else ts.getLast?⟩
  isBool _ := true
  reference := none

def scopeNode (n : Nat) : EoPrinter.ProofNode Nat :=
  if n = 0 then .assume 1 else if n = 1 then .scope [1] 0 2 else .step [1] 3

lemma children_scopeNode_lt (n : Nat) : ∀ c ∈ (scopeNode n).children, c < n := by
  unfold scopeNode
  split_ifs <;> simp [EoPrinter.ProofNode.children] <;> omega

/-- An assertion, and a step to it from a proof under an assumption. -/
def scopeProof : EoPrinter.Proof Nat := ⟨⟨scopeNode, children_scopeNode_lt⟩, fun _ => true, [], [3], 2⟩

theorem ProofState.run_of_wellScoped_scope : ∃ fuel commands name, ∃ s : ProofState Nat Unit,
    EoPrinter.print scopeProof fuel = some commands ∧
    ({} : ProofState Nat Unit).run trustingChecker
      (commands.map (⟨(· + ·), true, fun _ => false, fun _ => [], fun _ => true⟩ :
        Writing Bool Nat).write) = some s ∧
    s.assumptionsSizeCtx = [] ∧ s.scopes.symTable name = some (.proof 3) :=
  run_of_wellScoped _ _ scopeProof ⟨20, _, _, rfl, rfl, _, _, rfl⟩ fun _ _ _ cmd _ => by
    cases cmd <;> simp [Writing.Accepts, trustingChecker]

end EthosCpc
