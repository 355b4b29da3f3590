import EthosCpc.Cvc5.EoPrinter
import EthosCpc.Library.Inversion

/-!
# Printed proofs are well scoped

A visit of a node (`Visit`) leaves the stack without the node.  Two invariants are kept: the
identifiers are distinct and below the counter (`Ids`, in both passes), and what is printed is
bound in the scopes of the replay, to what the printer means by it, while no identifier of a step
that is not printed is bound (`Bound`, in the second pass).  Every visit extends the innermost
scope only, so that the scopes that a `SCOPE` step opens are the ones that its `step-pop` commands
close.  All of this is for proofs where `SCOPE` steps have arguments.
-/

set_option linter.unusedSectionVars false

namespace EthosCpc.Cvc5.EoPrinter

open List (getLast map_cons not_mem_nil)
open Option (bind_eq_some_iff ne_none_iff_exists' some_ne_none)
open Nat (le_succ le_succ_of_le lt_succ_self)
open List (append_assoc append_nil cons_append cons_ne_nil forall_mem_cons forall_mem_singleton
  mem_cons mem_singleton)
open Function (update update_of_ne update_self)

variable {α : Type} [DecidableEq α] {g : Dag α} {cache : Bool} {s s' s₁ s₂ : State α}
variable {n m c N : Nat} {visit cs : List Nat} {scopes scopes' rest : List (Scope α)}
variable {commands : List (Command α)}

/-! ## Runs of the loop -/

def Steps (g : Dag α) (cache : Bool) : List Nat × State α → List Nat × State α → Prop :=
  Relation.ReflTransGen fun p q =>
    ∃ cur visit, p.1 = cur :: visit ∧ visitStep g cache cur visit p.2 = some q

lemma steps_one (h : visitStep g cache n visit s = some (cs, s')) :
    Steps g cache (n :: visit, s) (cs, s') :=
  Relation.ReflTransGen.single ⟨n, visit, rfl, h⟩

lemma loop_of_steps (h : Steps g cache (visit, s) ([], s')) :
    ∃ fuel, loop g cache fuel visit s = some s' := by
  generalize hp : (visit, s) = p at h
  induction h using Relation.ReflTransGen.head_induction_on generalizing visit s with
  | refl =>
    cases hp
    exact ⟨0, rfl⟩
  | head hstep _ ih =>
    subst hp
    obtain ⟨cur, visit', rfl, hvisit⟩ := hstep
    obtain ⟨fuel, hfuel⟩ := ih rfl
    refine ⟨fuel + 1, ?_⟩
    rw [loop, hvisit]
    exact hfuel

variable {fuel fuel' : Nat}

lemma loop_mono (hle : fuel ≤ fuel') (h : loop g cache fuel visit s = some s') :
    loop g cache fuel' visit s = some s' := by
  induction fuel generalizing fuel' visit s with
  | zero =>
    cases visit with
    | nil =>
      cases h
      cases fuel' <;> rfl
    | cons => cases h
  | succ fuel ih =>
    cases visit with
    | nil =>
      cases h
      cases fuel' <;> rfl
    | cons cur visit =>
      obtain ⟨fuel', rfl⟩ := Nat.exists_eq_succ_of_ne_zero (by omega : fuel' ≠ 0)
      obtain ⟨p, hp, h⟩ := bind_inv h
      rw [loop, hp]
      exact ih (by omega) h

/-! ## Scopes -/

/-- Only the names of the innermost scope change. -/
def Extends (scopes scopes' : List (Scope α)) : Prop :=
  ∃ assumption names names' rest, scopes = ⟨assumption, names⟩ :: rest ∧
    scopes' = ⟨assumption, names'⟩ :: rest

variable {scopes'' : List (Scope α)} {id : Nat}

lemma Extends.trans (h : Extends scopes scopes')
    (h' : Extends scopes' scopes'') : Extends scopes scopes'' := by
  obtain ⟨a, names, names', rest, rfl, rfl⟩ := h
  obtain ⟨a', _, names'', rest', heq, rfl⟩ := h'
  cases heq
  exact ⟨a, names, names'', rest, rfl, rfl⟩

lemma extends_refl (h : scopes ≠ []) : Extends scopes scopes := by
  cases scopes with
  | nil => exact absurd rfl h
  | cons sc rest => exact ⟨sc.assumption, sc.names, sc.names, rest, rfl, rfl⟩

lemma lookup_bound (a : Option α) (id i : Nat) (X : Fact α) (names : List (Nat × Fact α))
    (rest : List (Scope α)) :
    lookup i (⟨a, (id, X) :: names⟩ :: rest) =
      if i = id then some X else lookup i (⟨a, names⟩ :: rest) := by
  by_cases h : i = id
  · subst h
    simp [lookup]
  · have hne : (i == id) = false := beq_false_of_ne h
    simp [lookup, List.lookup_cons, hne, h]

lemma lookup_tail (i : Nat) (sc : Scope α) (h : lookup i (sc :: rest) = none) :
    lookup i rest = none := (Option.or_eq_none_iff.1 h).2

lemma bind_fresh (id : Nat) (X : Fact α) (sc : Scope α) (h : lookup id (sc :: rest) = none) :
    bind id X (sc :: rest) = some (⟨sc.assumption, (id, X) :: sc.names⟩ :: rest) := by
  have hnone : sc.names.lookup id = none := (Option.or_eq_none_iff.1 h).1
  have hany : sc.names.any (·.1 == id) = false := by
    rw [List.any_eq_false]
    intro p hp heq
    exact absurd (List.lookup_eq_none_iff.1 hnone p hp) (by simpa using (beq_iff_eq.1 heq).symm)
  rw [bind, hany]
  rfl

variable {commands' : List (Command α)}

lemma replay_append
    (h : replay scopes commands = some scopes') (h' : replay scopes' commands' = some scopes'') :
    replay scopes (commands ++ commands') = some scopes'' := by
  rw [replay, List.foldlM_append]
  exact bind_eq_some_iff.2 ⟨scopes', h, h'⟩

lemma replay_one {command : Command α} (h : exec scopes command = some scopes') :
    replay scopes [command] = some scopes' := by
  rw [replay, List.foldlM_cons, h]
  rfl

/-! ## Invariants -/

/-- Only new identifiers were given to nodes. -/
structure Grows (s s' : State α) : Prop where
  counter : s.pfIdCounter ≤ s'.pfIdCounter
  plet_some : ∀ m id, s.pletMap m = some id → s'.pletMap m = some id
  plet_new : ∀ m id, s'.pletMap m = some id → s.pletMap m = some id ∨ s.pfIdCounter < id

lemma Grows.refl (s : State α) : Grows s s := ⟨Nat.le_refl _, fun _ _ h => h, fun _ _ h => .inl h⟩

variable {s'' : State α}

lemma Grows.trans (h : Grows s s') (h' : Grows s' s'') : Grows s s'' where
  counter := Nat.le_trans h.counter h'.counter
  plet_some m id hm := h'.plet_some m id (h.plet_some m id hm)
  plet_new m id hm := by
    rcases h'.plet_new m id hm with hm | hlt
    · exact h.plet_new m id hm
    · exact .inr (Nat.lt_of_le_of_lt h.counter hlt)

lemma Grows.plet_ne_none (h : Grows s s') (hm : s.pletMap m ≠ none) : s'.pletMap m ≠ none := by
  obtain ⟨id, hid⟩ := ne_none_iff_exists'.1 hm
  rw [h.plet_some m id hid]
  exact some_ne_none id

/-- The identifiers of nodes and assumptions are distinct and below the counter. -/
structure Ids (cache : Bool) (s : State α) : Prop where
  plet_le : ∀ m id, s.pletMap m = some id → id ≤ s.pfIdCounter
  passume_le : ∀ F id, s.context.passumeMap F = some id → id ≤ s.pfIdCounter
  plet_inj : ∀ m m' id, s.pletMap m = some id → s.pletMap m' = some id → m = m'
  passume_inj : ∀ F F' id, s.context.passumeMap F = some id → s.context.passumeMap F' = some id →
    F = F'
  plet_ne_passume : ∀ m F id, s.pletMap m = some id → s.context.passumeMap F ≠ some id
  done : ∀ m, s.context.processingChildren m = some false →
    s.pletMap m ≠ none ∧ (cache = true → s.context.alreadyPrinted m = true)
  printed : ∀ m, s.context.alreadyPrinted m = true → s.pletMap m ≠ none

/-- What is printed is bound to what the printer means by it. -/
structure Bound (g : Dag α) (s : State α) (scopes : List (Scope α)) : Prop where
  printed : ∀ m, s.context.alreadyPrinted m = true →
    ∃ id, s.pletMap m = some id ∧ lookup id scopes = some (.proves (g.node m).result)
  passume : ∀ F id, s.context.passumeMap F = some id → lookup id scopes = some (.proves F)
  names : ∀ id, lookup id scopes ≠ none → id ≤ s.pfIdCounter ∧
    ∀ m, s.pletMap m = some id → s.context.alreadyPrinted m = true

/-- What a visit changes, of nodes below `N`. -/
structure Frame (cache : Bool) (N : Nat) (s s' : State α) : Prop extends Grows s s' where
  saved : s'.saved = s.saved
  passume : s'.context.passumeMap = s.context.passumeMap
  pending : ∀ m, s'.context.processingChildren m = some true ↔
    s.context.processingChildren m = some true
  printed_mono : ∀ m, s.context.alreadyPrinted m = true → s'.context.alreadyPrinted m = true
  printed_new : ∀ m, s'.context.alreadyPrinted m = true →
    s.context.alreadyPrinted m = true ∨ cache = true ∧ m < N

/-- The commands extend the innermost scope, and keep the invariant. -/
def Effect (g : Dag α) (s s' : State α) (commands : List (Command α)) : Prop :=
  ∀ scopes, scopes ≠ [] → Bound g s scopes →
    ∃ scopes', replay scopes commands = some scopes' ∧ Extends scopes scopes' ∧ Bound g s' scopes'

lemma Frame.refl (cache : Bool) (N : Nat) (s : State α) : Frame cache N s s where
  toGrows := Grows.refl s
  saved := rfl
  passume := rfl
  pending _ := Iff.rfl
  printed_mono _ h := h
  printed_new _ h := .inl h

lemma Frame.trans (h : Frame cache N s s') (h' : Frame cache N s' s'') : Frame cache N s s'' where
  toGrows := h.toGrows.trans h'.toGrows
  saved := h'.saved.trans h.saved
  passume := h'.passume.trans h.passume
  pending m := (h'.pending m).trans (h.pending m)
  printed_mono m hm := h'.printed_mono m (h.printed_mono m hm)
  printed_new m hm := (h'.printed_new m hm).elim (h.printed_new m) .inr

lemma Frame.mono {N' : Nat} (h : Frame cache N s s') (hle : N ≤ N') : Frame cache N' s s' where
  toGrows := h.toGrows
  saved := h.saved
  passume := h.passume
  pending := h.pending
  printed_mono := h.printed_mono
  printed_new m hm := (h.printed_new m hm).imp_right fun h' => ⟨h'.1, Nat.lt_of_lt_of_le h'.2 hle⟩

lemma effect_nil (g : Dag α) (s : State α) : Effect g s s [] :=
  fun scopes hne hb => ⟨scopes, rfl, extends_refl hne, hb⟩

lemma Effect.trans (h : Effect g s s' commands)
    (h' : Effect g s' s'' commands') : Effect g s s'' (commands ++ commands') := by
  intro scopes hne hb
  obtain ⟨scopes', hrun, hext, hb'⟩ := h scopes hne hb
  obtain ⟨a, names, names', rest, rfl, rfl⟩ := hext
  obtain ⟨scopes'', hrun', hext', hb''⟩ := h' _ (cons_ne_nil _ _) hb'
  exact ⟨scopes'', replay_append hrun hrun',
    Extends.trans ⟨a, names, names', rest, rfl, rfl⟩ hext', hb''⟩

/-- The nodes are visited, from the head of the list on. -/
structure Visit (g : Dag α) (cache : Bool) (N : Nat) (cs : List Nat) (s s' : State α)
    (commands : List (Command α)) : Prop where
  steps : ∀ visit, Steps g cache (cs ++ visit, s) (visit, s')
  frame : Frame cache N s s'
  ids : Ids cache s'
  out : s'.out = s.out ++ commands
  effect : cache = true → Effect g s s' commands
  done : ∀ c ∈ cs, (g.node c).isAssume = false →
    s'.pletMap c ≠ none ∧ (cache = true → s'.context.alreadyPrinted c = true)

/-- What a visit needs: identifiers of the assumptions, and no node below that is being
processed. -/
structure Ready (cache : Bool) (Γ : α → Prop) (N : Nat) (s : State α) : Prop where
  assumed : ∀ F, Γ F → s.context.passumeMap F ≠ none
  ids : Ids cache s
  pending : ∀ m < N, s.context.processingChildren m ≠ some true

variable {Γ : α → Prop}

lemma Ready.of_frame (h : Ready cache Γ N s) (hf : Frame cache c s s')
    (hids : Ids cache s') : Ready cache Γ N s' where
  assumed F hF := by
    rw [hf.passume]
    exact h.assumed F hF
  ids := hids
  pending m hm hp := h.pending m hm ((hf.pending m).1 hp)

lemma visit_nil (hids : Ids cache s) : Visit g cache N [] s s [] where
  steps _ := Relation.ReflTransGen.refl
  frame := Frame.refl cache N s
  ids := hids
  out := (append_nil _).symm
  effect _ := effect_nil g s
  done := nofun

lemma Visit.append {cs' : List Nat}
    (h : Visit g cache N cs s s' commands) (h' : Visit g cache N cs' s' s'' commands') :
    Visit g cache N (cs ++ cs') s s'' (commands ++ commands') where
  steps visit := by
    rw [append_assoc]
    exact (h.steps (cs' ++ visit)).trans (h'.steps visit)
  frame := h.frame.trans h'.frame
  ids := h'.ids
  out := by rw [h'.out, h.out, append_assoc]
  effect hcache := (h.effect hcache).trans (h'.effect hcache)
  done c hc hassume := by
    rcases List.mem_append.1 hc with hc | hc
    · obtain ⟨hplet, hprinted⟩ := h.done c hc hassume
      exact ⟨h'.frame.plet_ne_none hplet, fun hcache => h'.frame.printed_mono c (hprinted hcache)⟩
    · exact h'.done c hc hassume

lemma exists_visit_list (cs : List Nat) (hcs : ∀ c ∈ cs, c < N)
    (ih : ∀ c ∈ cs, ∀ s : State α, Ready cache Γ (c + 1) s →
      ∃ s' commands, Visit g cache (c + 1) [c] s s' commands) (s : State α)
    (h : Ready cache Γ N s) : ∃ s' commands, Visit g cache N cs s s' commands := by
  induction cs generalizing s with
  | nil => exact ⟨s, [], visit_nil h.ids⟩
  | cons c cs hrec =>
    obtain ⟨hc, hcs⟩ := forall_mem_cons.1 hcs
    obtain ⟨hvisit, ih⟩ := forall_mem_cons.1 ih
    obtain ⟨s₁, commands, hv⟩ := hvisit s
      ⟨h.assumed, h.ids, fun m hm => h.pending m (Nat.lt_of_lt_of_le hm hc)⟩
    obtain ⟨s₂, commands', hv'⟩ := hrec hcs ih s₁ (h.of_frame hv.frame hv.ids)
    have hv1 : Visit g cache N [c] s s₁ commands := { hv with frame := hv.frame.mono hc }
    exact ⟨s₂, commands ++ commands', hv1.append hv'⟩

/-! ## Identifiers -/

lemma update_eq_some {β : Type} [DecidableEq β] {f : β → Option Nat} {a b : β} {v : Nat}
    (h : update f a (some v) b = some id) : (b = a ∧ id = v) ∨ f b = some id := by
  by_cases hba : b = a
  · subst hba
    rw [update_self] at h
    cases h
    exact .inl ⟨rfl, rfl⟩
  · rw [update_of_ne hba] at h
    exact .inr h

lemma update_ne_none {β : Type} [DecidableEq β] {f : β → Option Nat} {a b : β} {v : Nat}
    (h : f b ≠ none) : update f a (some v) b ≠ none := by
  by_cases hba : b = a
  · rw [hba, update_self]
    exact some_ne_none _
  · rwa [update_of_ne hba]

/-- A node has an identifier from then on, the one it had or a new one. -/
lemma allocateProofId_spec (n : Nat) (h : Ids cache s) :
    ∃ id s', allocateProofId n s = (id, s') ∧ s'.pletMap n = some id ∧ Grows s s' ∧ Ids cache s' ∧
      s'.context = s.context ∧ s'.saved = s.saved ∧ s'.out = s.out := by
  unfold allocateProofId
  cases hn : s.pletMap n with
  | some id => exact ⟨id, s, rfl, hn, Grows.refl s, h, rfl, rfl, rfl⟩
  | none =>
    refine ⟨_, _, rfl, update_self .., ?_, ?_, rfl, rfl, rfl⟩
    · refine ⟨le_succ _, fun m id hm => ?_, fun m id hm => ?_⟩
      · have hne : m ≠ n := by
          rintro rfl
          rw [hn] at hm
          cases hm
        exact (update_of_ne hne _ _).trans hm
      · rcases update_eq_some hm with ⟨-, rfl⟩ | hm
        · exact .inr (lt_succ_self _)
        · exact .inl hm
    refine ⟨fun m id hm => ?_, fun F id hF => ?_, fun m m' id hm hm' => ?_, h.passume_inj,
      fun m F id hm hF => ?_, fun m hm => ⟨update_ne_none (h.done m hm).1, (h.done m hm).2⟩,
      fun m hm => update_ne_none (h.printed m hm)⟩
    · rcases update_eq_some hm with ⟨-, rfl⟩ | hm
      · exact Nat.le_refl _
      · exact le_succ_of_le (h.plet_le m id hm)
    · exact le_succ_of_le (h.passume_le F id hF)
    · rcases update_eq_some hm with ⟨hmn, rfl⟩ | hold <;>
        rcases update_eq_some hm' with ⟨hmn', hid⟩ | hold'
      · exact hmn.trans hmn'.symm
      · exact absurd (h.plet_le m' _ hold') (by omega)
      · exact absurd (h.plet_le m _ hold) (by omega)
      · exact h.plet_inj m m' id hold hold'
    rcases update_eq_some hm with ⟨-, rfl⟩ | hm
    · exact absurd (h.passume_le F _ hF) (by omega)
    · exact h.plet_ne_passume m F id hm hF

lemma Bound.fresh (hb : Bound g s scopes) : lookup (s.pfIdCounter + 1) scopes = none := by
  by_contra hne
  exact absurd (hb.names _ hne).1 (by omega)

lemma Ids.print (h : Ids cache s) (command : Command α) : Ids cache (s.print command) :=
  ⟨h.plet_le, h.passume_le, h.plet_inj, h.passume_inj, h.plet_ne_passume, h.done, h.printed⟩

lemma Ids.allocateAssume (h : Ids cache s) (F : α) : Ids cache
      { s with
        pfIdCounter := s.pfIdCounter + 1
        context :=
          { s.context with
            passumeMap := update s.context.passumeMap F (some (s.pfIdCounter + 1)) } } := by
  refine ⟨fun m id hm => le_succ_of_le (h.plet_le m id hm), fun G id hG => ?_, h.plet_inj,
    fun G G' id hG hG' => ?_, fun m G id hm hG => ?_, h.done, h.printed⟩
  · rcases update_eq_some hG with ⟨-, rfl⟩ | hG
    · exact Nat.le_refl _
    · exact le_succ_of_le (h.passume_le G id hG)
  · rcases update_eq_some hG with ⟨hGF, rfl⟩ | hold <;>
      rcases update_eq_some hG' with ⟨hGF', hid⟩ | hold'
    · exact hGF.trans hGF'.symm
    · exact absurd (h.passume_le G' _ hold') (by omega)
    · exact absurd (h.passume_le G _ hold) (by omega)
    · exact h.passume_inj G G' id hold hold'
  rcases update_eq_some hG with ⟨-, rfl⟩ | hG
  · exact absurd (h.plet_le m _ hm) (by omega)
  · exact h.plet_ne_passume m G id hm hG

lemma printPush_spec (F : α) (h : Ids cache s) :
    ∃ commands, (printPush s F).out = s.out ++ commands ∧ (printPush s F).saved = s.saved ∧
      (printPush s F).pletMap = s.pletMap ∧
      (printPush s F).context.processingChildren = s.context.processingChildren ∧
      (printPush s F).context.alreadyPrinted = s.context.alreadyPrinted ∧
      s.pfIdCounter ≤ (printPush s F).pfIdCounter ∧
      (printPush s F).context.passumeMap F ≠ none ∧
      (∀ G, s.context.passumeMap G ≠ none → (printPush s F).context.passumeMap G ≠ none) ∧
      Ids cache (printPush s F) ∧
      ∀ scopes, Bound g s scopes → ∃ names,
        replay scopes commands = some (⟨some F, names⟩ :: scopes) ∧
        Bound g (printPush s F) (⟨some F, names⟩ :: scopes) := by
  have hlookup : ∀ (scopes : List (Scope α)) i,
      lookup i (⟨some F, [(s.pfIdCounter + 1, .proves F)]⟩ :: scopes) =
      if i = s.pfIdCounter + 1 then some (.proves F) else lookup i scopes := fun scopes i =>
    lookup_bound _ _ _ _ _ _
  cases hF : s.context.passumeMap F with
  | some id =>
    have heq : printPush s F = { s with
          pfIdCounter := s.pfIdCounter + 1
          out := s.out ++ [.assumePush (s.pfIdCounter + 1) F] } := by
      simp only [printPush, allocateAssumePushId, allocateAssumeId, hF, State.print]
    rw [heq]
    refine ⟨[.assumePush (s.pfIdCounter + 1) F], rfl, rfl, rfl, rfl, rfl, le_succ _,
      by rw [hF]; exact some_ne_none id, fun _ hG => hG, ?_, fun scopes hb =>
        ⟨_, replay_one rfl, ?_⟩⟩
    · exact ⟨fun m id hm => le_succ_of_le (h.plet_le m id hm),
        fun G id hG => le_succ_of_le (h.passume_le G id hG), h.plet_inj, h.passume_inj,
        h.plet_ne_passume, h.done, h.printed⟩
    have hold : ∀ i, lookup i scopes ≠ none → i ≠ s.pfIdCounter + 1 := by
      rintro i hi rfl
      exact hi hb.fresh
    refine ⟨fun m hm => ?_, fun G id hG => ?_, fun i hi => ?_⟩
    · obtain ⟨id, hid, hl⟩ := hb.printed m hm
      exact ⟨id, hid, by rw [hlookup, if_neg (hold id (by simp [hl])), hl]⟩
    · have hl := hb.passume G id hG
      rw [hlookup, if_neg (hold id (by simp [hl])), hl]
    rw [hlookup] at hi
    split at hi
    · rename_i heq
      subst heq
      exact ⟨Nat.le_refl _, fun m hm => absurd (h.plet_le m _ hm) (by omega)⟩
    · exact ⟨le_succ_of_le (hb.names i hi).1, (hb.names i hi).2⟩
  | none =>
    have heq : printPush s F = { s with
          pfIdCounter := s.pfIdCounter + 1
          context :=
            { s.context with
              passumeMap := update s.context.passumeMap F (some (s.pfIdCounter + 1)) }
          out := s.out ++ [.assumePush (s.pfIdCounter + 1) F] } := by
      simp only [printPush, allocateAssumePushId, allocateAssumeId, hF, State.print]
    rw [heq]
    refine ⟨[.assumePush (s.pfIdCounter + 1) F], rfl, rfl, rfl, rfl, rfl, le_succ _, ?_,
      fun G hG => update_ne_none hG, ?_, fun scopes hb => ⟨_, replay_one rfl, ?_⟩⟩
    · dsimp only
      rw [update_self]
      exact some_ne_none _
    · exact (h.allocateAssume F).print _
    have hold : ∀ i, lookup i scopes ≠ none → i ≠ s.pfIdCounter + 1 := by
      rintro i hi rfl
      exact hi hb.fresh
    refine ⟨fun m hm => ?_, fun G id hG => ?_, fun i hi => ?_⟩
    · obtain ⟨id, hid, hl⟩ := hb.printed m hm
      exact ⟨id, hid, by rw [hlookup, if_neg (hold id (by simp [hl])), hl]⟩
    · rcases update_eq_some hG with ⟨rfl, rfl⟩ | hG
      · rw [hlookup, if_pos rfl]
      · have hl := hb.passume G id hG
        rw [hlookup, if_neg (hold id (by simp [hl])), hl]
    rw [hlookup] at hi
    split at hi
    · rename_i heq
      subst heq
      exact ⟨Nat.le_refl _, fun m hm => absurd (h.plet_le m _ hm) (by omega)⟩
    · exact ⟨le_succ_of_le (hb.names i hi).1, (hb.names i hi).2⟩

/-- The assumptions of a `SCOPE` step: every one opens a scope. -/
lemma foldl_printPush_spec (args : List α) (h : Ids cache s) :
    ∃ commands, (args.foldl printPush s).out = s.out ++ commands ∧
      (args.foldl printPush s).saved = s.saved ∧ (args.foldl printPush s).pletMap = s.pletMap ∧
      (args.foldl printPush s).context.processingChildren = s.context.processingChildren ∧
      (args.foldl printPush s).context.alreadyPrinted = s.context.alreadyPrinted ∧
      s.pfIdCounter ≤ (args.foldl printPush s).pfIdCounter ∧
      (∀ F, s.context.passumeMap F ≠ none ∨ F ∈ args →
        (args.foldl printPush s).context.passumeMap F ≠ none) ∧
      Ids cache (args.foldl printPush s) ∧
      ∀ scopes, Bound g s scopes → ∃ pushed, replay scopes commands = some (pushed ++ scopes) ∧
        pushed.map Scope.assumption = args.reverse.map some ∧
        Bound g (args.foldl printPush s) (pushed ++ scopes) := by
  induction args generalizing s with
  | nil =>
    refine ⟨[], (append_nil _).symm, rfl, rfl, rfl, rfl, Nat.le_refl _, fun F hF => ?_, h,
      fun scopes hb => ⟨[], rfl, rfl, hb⟩⟩
    exact hF.resolve_right not_mem_nil
  | cons F args ih =>
    obtain ⟨commands, hout, hsaved, hplet, hproc, hprinted, hcounter, hF, hold, hids, heffect⟩ :=
      printPush_spec (g := g) F h
    obtain ⟨commands', hout', hsaved', hplet', hproc', hprinted', hcounter', hF', hids',
      heffect'⟩ := ih hids
    refine ⟨commands ++ commands', ?_, hsaved'.trans hsaved, hplet'.trans hplet,
      hproc'.trans hproc, hprinted'.trans hprinted, Nat.le_trans hcounter hcounter', ?_, hids',
      fun scopes hb => ?_⟩
    · rw [List.foldl_cons, hout', hout, append_assoc]
    · rintro G (hG | hG)
      · exact hF' G (.inl (hold G hG))
      · rcases mem_cons.1 hG with rfl | hG
        · exact hF' G (.inl hF)
        · exact hF' G (.inr hG)
    obtain ⟨names, hrun, hb'⟩ := heffect scopes hb
    obtain ⟨pushed, hrun', hpushed, hb''⟩ := heffect' _ hb'
    refine ⟨pushed ++ [⟨some F, names⟩], ?_, ?_, ?_⟩
    · rw [append_assoc]
      exact replay_append hrun hrun'
    · simp [hpushed]
    · rw [append_assoc]
      exact hb''

/-- The commands `step-pop` close the scopes that were opened, the innermost one first, and bind
one name in the scope below. -/
lemma printPops_spec (args : List α) (premise : Nat × Fact α) (s : State α) :
    ∃ commands, (printPops args premise s).2.out = s.out ++ commands ∧
      (printPops args premise s).2.saved = s.saved ∧
      (printPops args premise s).2.pletMap = s.pletMap ∧
      (printPops args premise s).2.context = s.context ∧
      s.pfIdCounter ≤ (printPops args premise s).2.pfIdCounter ∧
      (args ≠ [] → s.pfIdCounter < (printPops args premise s).1.1 ∧
        (printPops args premise s).1.1 ≤ (printPops args premise s).2.pfIdCounter) ∧
      ∀ (pushed : List (Scope α)) (sc : Scope α) (rest : List (Scope α)), args ≠ [] →
        pushed.map Scope.assumption = args.map some →
        lookup premise.1 (pushed ++ sc :: rest) = some premise.2 →
        (∀ id, lookup id (pushed ++ sc :: rest) ≠ none → id ≤ s.pfIdCounter) →
        replay (pushed ++ sc :: rest) commands =
          some (⟨sc.assumption, (printPops args premise s).1 :: sc.names⟩ :: rest) := by
  induction args generalizing premise s with
  | nil => exact ⟨[], (append_nil _).symm, rfl, rfl, rfl, Nat.le_refl _, nofun, nofun⟩
  | cons F args ih =>
    obtain ⟨commands, hout, hsaved, hplet, hcontext, hcounter, hid, hrun⟩ :=
      ih (s.pfIdCounter + 1, .implies F premise.2)
        (State.print { s with pfIdCounter := s.pfIdCounter + 1 }
          (.stepPop (s.pfIdCounter + 1) premise))
    rw [printPops]
    refine ⟨.stepPop (s.pfIdCounter + 1) premise :: commands, ?_, hsaved, hplet, hcontext,
      Nat.le_of_succ_le hcounter, fun _ => ?_, fun pushed sc rest _ hpushed hpremise hnames => ?_⟩
    · rw [hout, State.print, append_assoc]
      rfl
    · cases args with
      | nil => exact ⟨lt_succ_self _, Nat.le_refl _⟩
      | cons F' args =>
        have h := hid (cons_ne_nil _ _)
        exact ⟨Nat.lt_of_succ_lt h.1, h.2⟩
    match pushed, hpushed with
    | ⟨_, names⟩ :: pushed, hpushed =>
      rw [map_cons, map_cons, List.cons.injEq] at hpushed
      obtain ⟨rfl, hpushed⟩ := hpushed
      have hfresh : lookup (s.pfIdCounter + 1) (pushed ++ sc :: rest) = none := by
        by_contra hne
        have hle := hnames (s.pfIdCounter + 1) fun h => hne (lookup_tail _ _ h)
        omega
      have hexec : ∀ scopes', bind (s.pfIdCounter + 1) (.implies F premise.2)
          (pushed ++ sc :: rest) = some scopes' →
          exec (⟨some F, names⟩ :: (pushed ++ sc :: rest))
            (.stepPop (s.pfIdCounter + 1) premise) = some scopes' := by
        intro scopes' hbind
        exact (if_pos hpremise).trans hbind
      rw [replay, cons_append, List.foldlM_cons]
      cases args with
      | nil =>
        obtain rfl : pushed = [] := by simpa using hpushed
        rw [hexec _ (bind_fresh _ _ sc hfresh)]
        have hnil : commands = [] := by simpa [printPops] using hout
        rw [hnil]
        rfl
      | cons F' args =>
        match pushed, hpushed with
        | sc' :: pushed, hpushed =>
          rw [cons_append] at hfresh
          rw [hexec _ (bind_fresh _ _ sc' hfresh)]
          have hlookup := lookup_bound sc'.assumption (s.pfIdCounter + 1)
          refine hrun (⟨sc'.assumption, _ :: sc'.names⟩ :: pushed) sc rest
            (cons_ne_nil _ _) hpushed ?_ fun id hne => ?_
          · rw [cons_append, hlookup, if_pos rfl]
          rw [cons_append, hlookup] at hne
          split at hne
          · rename_i heq
            exact Nat.le_of_eq heq
          · refine le_succ_of_le (hnames id fun h => hne ?_)
            exact lookup_tail id _ h

/-! ## Visiting a node -/

/-- The state after the visit of a node. -/
def finish (cache : Bool) (n : Nat) (s : State α) : State α :=
  if cache then s.insertPrinted n else s

section Finish

variable (cache : Bool) (n : Nat) (s : State α)

@[simp] lemma finish_pfIdCounter : (finish cache n s).pfIdCounter = s.pfIdCounter := by
  cases cache <;> rfl

@[simp] lemma finish_pletMap : (finish cache n s).pletMap = s.pletMap := by cases cache <;> rfl

@[simp] lemma finish_saved : (finish cache n s).saved = s.saved := by cases cache <;> rfl

@[simp] lemma finish_out : (finish cache n s).out = s.out := by cases cache <;> rfl

@[simp] lemma finish_passumeMap :
    (finish cache n s).context.passumeMap = s.context.passumeMap := by cases cache <;> rfl

@[simp] lemma finish_processingChildren :
    (finish cache n s).context.processingChildren = s.context.processingChildren := by
  cases cache <;> rfl

lemma finish_alreadyPrinted (m : Nat) : (finish cache n s).context.alreadyPrinted m = true ↔
    s.context.alreadyPrinted m = true ∨ cache = true ∧ m = n := by
  cases cache with
  | false => simp [finish]
  | true =>
    by_cases hmn : m = n
    · simp [finish, State.insertPrinted, hmn]
    · simp [finish, State.insertPrinted, hmn]

end Finish

lemma Ids.finish (h : Ids cache s) (hn : s.pletMap n ≠ none) : Ids cache (finish cache n s) where
  plet_le := by simpa using h.plet_le
  passume_le := by simpa using h.passume_le
  plet_inj := by simpa using h.plet_inj
  passume_inj := by simpa using h.passume_inj
  plet_ne_passume := by simpa using h.plet_ne_passume
  done m hm := by
    rw [finish_processingChildren] at hm
    rw [finish_pletMap, finish_alreadyPrinted]
    exact ⟨(h.done m hm).1, fun hcache => .inl ((h.done m hm).2 hcache)⟩
  printed m hm := by
    rw [finish_pletMap]
    rcases (finish_alreadyPrinted cache n s m).1 hm with hm | ⟨-, rfl⟩
    · exact h.printed m hm
    · exact hn

lemma setProcessing_processingChildren (s : State α) (n m : Nat) (b : Bool) :
    (s.setProcessing n b).context.processingChildren m =
      if m = n then some b else s.context.processingChildren m :=
  Function.update_apply ..

lemma Ids.setProcessing (h : Ids cache s) {b : Bool}
    (hb : b = false → s.pletMap n ≠ none ∧ (cache = true → s.context.alreadyPrinted n = true)) :
    Ids cache (s.setProcessing n b) where
  plet_le := h.plet_le
  passume_le := h.passume_le
  plet_inj := h.plet_inj
  passume_inj := h.passume_inj
  plet_ne_passume := h.plet_ne_passume
  done m hm := by
    rw [setProcessing_processingChildren] at hm
    split at hm
    · rename_i hmn
      cases hm
      rw [hmn]
      exact hb rfl
    · exact h.done m hm
  printed := h.printed

/-- Outside a scope the identifiers are those from inside, with the assumptions from before. -/
lemma Ids.pop {s₂ : State α} (h : Ids cache s) (h2 : Ids cache s₂) (hg : Grows s s₂)
    (hcontext : s'.context = s.context) (hplet : s'.pletMap = s₂.pletMap)
    (hcounter : s₂.pfIdCounter ≤ s'.pfIdCounter) : Ids cache s' where
  plet_le m id hm := by
    rw [hplet] at hm
    exact Nat.le_trans (h2.plet_le m id hm) hcounter
  passume_le F id hF := by
    rw [hcontext] at hF
    exact Nat.le_trans (h.passume_le F id hF) (Nat.le_trans hg.counter hcounter)
  plet_inj := by
    rw [hplet]
    exact h2.plet_inj
  passume_inj := by
    rw [hcontext]
    exact h.passume_inj
  plet_ne_passume m F id hm hF := by
    rw [hplet] at hm
    rw [hcontext] at hF
    rcases hg.plet_new m id hm with hm | hlt
    · exact h.plet_ne_passume m F id hm hF
    · exact absurd (h.passume_le F id hF) (by omega)
  done m hm := by
    rw [hcontext] at hm ⊢
    rw [hplet]
    exact ⟨hg.plet_ne_none (h.done m hm).1, (h.done m hm).2⟩
  printed m hm := by
    rw [hcontext] at hm
    rw [hplet]
    exact hg.plet_ne_none (h.printed m hm)

lemma allocateProofId_setProcessing (s : State α) (n m : Nat) (b : Bool) :
    allocateProofId n (s.setProcessing m b) =
      ((allocateProofId n s).1, (allocateProofId n s).2.setProcessing m b) := by
  have hmap : (s.setProcessing m b).pletMap n = s.pletMap n := rfl
  rw [allocateProofId, allocateProofId, hmap]
  cases s.pletMap n <;> rfl

/-! ### Scopes -/

lemma Bound.grows (hb : Bound g s scopes) (hg : Grows s s') (hcontext : s'.context = s.context) :
    Bound g s' scopes where
  printed m hm := by
    rw [hcontext] at hm
    obtain ⟨id, hid, hl⟩ := hb.printed m hm
    exact ⟨id, hg.plet_some m id hid, hl⟩
  passume := by
    rw [hcontext]
    exact hb.passume
  names id hne := by
    obtain ⟨hle, hprinted⟩ := hb.names id hne
    refine ⟨Nat.le_trans hle hg.counter, fun m hm => ?_⟩
    rw [hcontext]
    rcases hg.plet_new m id hm with hm | hlt
    · exact hprinted m hm
    · omega

lemma Bound.fresh_node (hb : Bound g s scopes) (hid : s.pletMap n = some id)
    (hn : s.context.alreadyPrinted n ≠ true) : lookup id scopes = none := by
  by_contra hne
  exact hn ((hb.names id hne).2 n hid)

lemma Bound.ne_of_fresh {i : Nat} (hfresh : lookup id scopes = none)
    (hi : lookup i scopes ≠ none) : i ≠ id := by
  rintro rfl
  exact hi hfresh

lemma Bound.bind_name {X : Fact α} {sc : Scope α} (hb : Bound g s (sc :: rest))
    (hids : Ids cache s) (hcounter : s.pfIdCounter < id) (hle : id ≤ s'.pfIdCounter)
    (hplet : s'.pletMap = s.pletMap) (hcontext : s'.context = s.context) :
    Bound g s' (⟨sc.assumption, (id, X) :: sc.names⟩ :: rest) := by
  have hlookup := fun i => lookup_bound sc.assumption id i X sc.names rest
  have hne : ∀ i, lookup i (sc :: rest) ≠ none → i ≠ id := by
    rintro i hi rfl
    exact absurd (hb.names i hi).1 (by omega)
  refine ⟨fun m hm => ?_, fun F i hF => ?_, fun i hi => ?_⟩
  · rw [hcontext] at hm
    obtain ⟨i, hi, hl⟩ := hb.printed m hm
    refine ⟨i, by rw [hplet, hi], ?_⟩
    rw [hlookup, if_neg (hne i (by simp [hl])), hl]
  · rw [hcontext] at hF
    have hl := hb.passume F i hF
    rw [hlookup, if_neg (hne i (by simp [hl])), hl]
  rw [hlookup] at hi
  rw [hplet, hcontext]
  split at hi
  · rename_i heq
    subst heq
    exact ⟨hle, fun m hm => absurd (hids.plet_le m _ hm) (by omega)⟩
  · obtain ⟨hle', hprinted⟩ := hb.names i hi
    exact ⟨by omega, hprinted⟩

lemma Bound.bind_node {sc : Scope α} (hb : Bound g s (sc :: rest)) (hids : Ids true s)
    (hid : s.pletMap n = some id) (hn : s.context.alreadyPrinted n ≠ true)
    (hcounter : s'.pfIdCounter = s.pfIdCounter) (hplet : s'.pletMap = s.pletMap)
    (hpassume : s'.context.passumeMap = s.context.passumeMap)
    (hprinted : ∀ m, s'.context.alreadyPrinted m = true ↔
      s.context.alreadyPrinted m = true ∨ m = n) :
    Bound g s' (⟨sc.assumption, (id, .proves (g.node n).result) :: sc.names⟩ :: rest) := by
  have hlookup := fun i =>
    lookup_bound sc.assumption id i (.proves (g.node n).result) sc.names rest
  have hfresh := hb.fresh_node hid hn
  refine ⟨fun m hm => ?_, fun F i hF => ?_, fun i hi => ?_⟩
  · rcases (hprinted m).1 hm with hm | rfl
    · obtain ⟨i, hi, hl⟩ := hb.printed m hm
      refine ⟨i, by rw [hplet, hi], ?_⟩
      rw [hlookup, if_neg (Bound.ne_of_fresh hfresh (by simp [hl])), hl]
    · exact ⟨id, by rw [hplet, hid], by rw [hlookup, if_pos rfl]⟩
  · rw [hpassume] at hF
    have hl := hb.passume F i hF
    rw [hlookup, if_neg (Bound.ne_of_fresh hfresh (by simp [hl])), hl]
  rw [hlookup] at hi
  rw [hplet, hcounter]
  split at hi
  · rename_i heq
    subst heq
    exact ⟨hids.plet_le n i hid, fun m hm => (hprinted m).2 (.inr (hids.plet_inj m n i hm hid))⟩
  · obtain ⟨hle, hold⟩ := hb.names i hi
    exact ⟨hle, fun m hm => (hprinted m).2 (.inl (hold m hm))⟩

/-! ### Premises -/

variable {F : α}

lemma Closed.assumed (h : Closed g Γ n) (hn : g.node n = .assume F) : Γ F := by
  cases h with
  | assume hn' hF =>
    rw [hn] at hn'
    cases hn'
    exact hF
  | scope hn' => rw [hn] at hn'; cases hn'
  | step hn' => rw [hn] at hn'; cases hn'

lemma premise?_assume (hc : g.node c = .assume F) :
    premise? g s c = (s.context.passumeMap F).map (·, .proves F) := by
  rw [premise?, hc]

lemma premise?_node (hc : (g.node c).isAssume = false) :
    premise? g s c = (s.pletMap c).map (·, .proves (g.node c).result) := by
  unfold premise?
  cases hn : g.node c with
  | assume F => rw [hn] at hc; cases hc
  | scope args child F => rfl
  | step cs F => rfl

lemma premise?_spec (cache : Bool) (c : Nat)
    (hassume : ∀ F, g.node c = .assume F → s.context.passumeMap F ≠ none)
    (hdone : (g.node c).isAssume = false →
      s.pletMap c ≠ none ∧ (cache = true → s.context.alreadyPrinted c = true)) :
    ∃ id, premise? g s c = some (id, .proves (g.node c).result) ∧
      (cache = true → ∀ scopes, Bound g s scopes →
        lookup id scopes = some (.proves (g.node c).result)) := by
  cases hc : (g.node c).isAssume with
  | true =>
    cases hn : g.node c with
    | assume F =>
      obtain ⟨id, hid⟩ := ne_none_iff_exists'.1 (hassume F hn)
      exact ⟨id, by rw [premise?_assume hn, hid]; rfl, fun _ scopes hb => hb.passume F id hid⟩
    | scope args child F => rw [hn] at hc; cases hc
    | step cs F => rw [hn] at hc; cases hc
  | false =>
    obtain ⟨hplet, hprinted⟩ := hdone hc
    obtain ⟨id, hid⟩ := ne_none_iff_exists'.1 hplet
    refine ⟨id, by rw [premise?_node hc, hid]; rfl, fun hcache scopes hb => ?_⟩
    obtain ⟨id', hid', hl⟩ := hb.printed c (hprinted hcache)
    rw [hid] at hid'
    cases hid'
    exact hl

lemma premises_spec (cache : Bool) (cs : List Nat)
    (hassume : ∀ c ∈ cs, ∀ F, g.node c = .assume F → s.context.passumeMap F ≠ none)
    (hdone : ∀ c ∈ cs, (g.node c).isAssume = false →
      s.pletMap c ≠ none ∧ (cache = true → s.context.alreadyPrinted c = true)) :
    ∃ premises, cs.mapM (premise? g s) = some premises ∧
      (cache = true → ∀ scopes, Bound g s scopes →
        ∀ p ∈ premises, lookup p.1 scopes = some p.2) := by
  induction cs with
  | nil => exact ⟨[], rfl, fun _ _ _ => nofun⟩
  | cons c cs ih =>
    obtain ⟨hc, hcs⟩ := forall_mem_cons.1 hassume
    obtain ⟨hdc, hdcs⟩ := forall_mem_cons.1 hdone
    obtain ⟨id, hid, hl⟩ := premise?_spec cache c hc hdc
    obtain ⟨premises, hpremises, hls⟩ := ih hcs hdcs
    refine ⟨(id, .proves (g.node c).result) :: premises, ?_, fun hcache scopes hb => ?_⟩
    · rw [List.mapM_cons, hid, hpremises]
      rfl
    · exact forall_mem_cons.2 ⟨hl hcache scopes hb, hls hcache scopes hb⟩

/-! ### Steps of the rules -/

lemma steps_node (hassume : (g.node n).isAssume = false)
    (hprinted : s.context.alreadyPrinted n ≠ true)
    (hproc : s.context.processingChildren n = none)
    (hchildren : ∀ visit, Steps g cache
      ((g.node n).children.reverse ++ visit, (printStepPre g n s).setProcessing n true) (visit, s₁))
    (hprinted1 : s₁.context.alreadyPrinted n ≠ true)
    (hproc1 : s₁.context.processingChildren n = some true)
    (hpost : printStepPost g n (s₁.setProcessing n false) = some s₂) (visit : List Nat) :
    Steps g cache ([n] ++ visit, s) (visit, finish cache n s₂) := by
  have hfirst : visitStep g cache n visit s = some ((g.node n).children.reverse ++ n :: visit,
        (printStepPre g n s).setProcessing n true) := by
    rw [visitStep, if_neg hprinted, hproc]
    dsimp only
    rw [hassume]
    rfl
  have hlast : visitStep g cache n visit s₁ = some (visit, finish cache n s₂) := by
    rw [visitStep, if_neg hprinted1, hproc1]
    dsimp only
    rw [hpost]
    rfl
  exact (steps_one hfirst).trans ((hchildren (n :: visit)).trans (steps_one hlast))

lemma visit_skip (hskip : ∀ visit, visitStep g cache n visit s = some (visit, s))
    (hids : Ids cache s) (hdone : (g.node n).isAssume = false →
      s.pletMap n ≠ none ∧ (cache = true → s.context.alreadyPrinted n = true)) :
    Visit g cache N [n] s s [] where
  steps visit := steps_one (hskip visit)
  frame := Frame.refl cache N s
  ids := hids
  out := (append_nil _).symm
  effect _ := effect_nil g s
  done m hm hassume := by
    obtain rfl := mem_singleton.1 hm
    exact hdone hassume

lemma Grows.congr (h : Grows s s₁) (hcounter : s₁.pfIdCounter ≤ s₂.pfIdCounter)
    (hplet : s₂.pletMap = s₁.pletMap) : Grows s s₂ where
  counter := Nat.le_trans h.counter hcounter
  plet_some := by
    rw [hplet]
    exact h.plet_some
  plet_new := by
    rw [hplet]
    exact h.plet_new

lemma Bound.setProcessing (hb : Bound g s scopes) (n : Nat) (b : Bool) :
    Bound g (s.setProcessing n b) scopes :=
  ⟨hb.printed, hb.passume, hb.names⟩

lemma exists_visit_step (hn : g.node n = .step cs F) (hcs : ∀ c ∈ cs, Closed g Γ c)
    (ih : ∀ c ∈ cs, ∀ s : State α, Ready cache Γ (c + 1) s →
      ∃ s' commands, Visit g cache (c + 1) [c] s s' commands)
    (h : Ready cache Γ (n + 1) s) (hprinted : s.context.alreadyPrinted n ≠ true)
    (hproc : s.context.processingChildren n = none) :
    ∃ s' commands, Visit g cache (n + 1) [n] s s' commands ∧
      ∃ id premises, commands.getLast? = some (.step id premises F) := by
  have hlt : ∀ c ∈ cs.reverse, c < n := fun c hc =>
    g.children_lt n c (by rw [hn]; exact List.mem_reverse.1 hc)
  have hready : Ready cache Γ n (s.setProcessing n true) := by
    refine ⟨h.assumed, h.ids.setProcessing nofun, fun m hm => ?_⟩
    rw [setProcessing_processingChildren, if_neg (Nat.ne_of_lt hm)]
    exact h.pending m (Nat.lt_succ_of_lt hm)
  obtain ⟨s₁, commands, hv⟩ := exists_visit_list cs.reverse hlt
    (fun c hc => ih c (List.mem_reverse.1 hc)) _ hready
  have hprinted1 : s₁.context.alreadyPrinted n ≠ true := fun hp =>
    (hv.frame.printed_new n hp).elim hprinted fun h => absurd h.2 (Nat.lt_irrefl n)
  have hproc1 : s₁.context.processingChildren n = some true := by
    rw [hv.frame.pending n, setProcessing_processingChildren, if_pos rfl]
  obtain ⟨id, s₂, halloc, hid, hgrows, hids, hcontext, hsaved, hout⟩ :=
    allocateProofId_spec n hv.ids
  obtain ⟨premises, hpremises, hlookup⟩ :=
    premises_spec (g := g) (s := s₂.setProcessing n false) cache cs (fun c hc G hG => by
        change s₂.context.passumeMap G ≠ none
        rw [hcontext, hv.frame.passume]
        exact h.assumed G ((hcs c hc).assumed hG))
      (fun c hc hassume => by
        change s₂.pletMap c ≠ none ∧ (cache = true → s₂.context.alreadyPrinted c = true)
        obtain ⟨hplet, hp⟩ := hv.done c (List.mem_reverse.2 hc) hassume
        rw [hcontext]
        exact ⟨hgrows.plet_ne_none hplet, hp⟩)
  have hpost : printStepPost g n (s₁.setProcessing n false) =
      some ((s₂.setProcessing n false).print (.step id premises F)) := by
    rw [printStepPost, hn]
    dsimp only
    rw [allocateProofId_setProcessing, halloc]
    dsimp only
    rw [hpremises]
    rfl
  have hfinal : finish cache n ((s₂.setProcessing n false).print (.step id premises F)) =
      (finish cache n (s₂.print (.step id premises F))).setProcessing n false := by
    cases cache <;> rfl
  have hplet : s₂.pletMap n ≠ none := by
    rw [hid]
    exact some_ne_none id
  refine ⟨_, commands ++ [.step id premises F], ⟨steps_node (by rw [hn]; rfl) hprinted hproc ?_
    hprinted1 hproc1 hpost, ?_, ?_, ?_, ?_, ?_⟩, id, premises, List.getLast?_concat⟩
  · rw [printStepPre, hn]
    exact hv.steps
  · have hg : Grows s s₁ := ⟨hv.frame.counter, hv.frame.plet_some, hv.frame.plet_new⟩
    refine ⟨(hg.trans hgrows).congr (by simp [State.print, State.setProcessing])
      (by simp [State.print, State.setProcessing]), ?_, ?_, fun m => ?_, fun m hm => ?_,
      fun m hm => ?_⟩
    · rw [finish_saved]
      exact hsaved.trans hv.frame.saved
    · rw [finish_passumeMap]
      change s₂.context.passumeMap = _
      rw [hcontext]
      exact hv.frame.passume
    · rw [hfinal, setProcessing_processingChildren, finish_processingChildren]
      change (if m = n then some false else s₂.context.processingChildren m) = some true ↔ _
      rw [hcontext]
      by_cases hmn : m = n
      · rw [if_pos hmn, hmn, hproc]
        exact ⟨nofun, nofun⟩
      · rw [if_neg hmn, hv.frame.pending m, setProcessing_processingChildren, if_neg hmn]
    · rw [finish_alreadyPrinted]
      change s₂.context.alreadyPrinted m = true ∨ _
      rw [hcontext]
      exact .inl (hv.frame.printed_mono m hm)
    rw [finish_alreadyPrinted] at hm
    change s₂.context.alreadyPrinted m = true ∨ _ at hm
    rw [hcontext] at hm
    rcases hm with hm | ⟨hcache, rfl⟩
    · exact (hv.frame.printed_new m hm).imp_right fun h => ⟨h.1, Nat.lt_succ_of_lt h.2⟩
    · exact .inr ⟨hcache, lt_succ_self m⟩
  · rw [hfinal]
    refine ((hids.print _).finish hplet).setProcessing fun _ => ⟨?_, fun hcache => ?_⟩
    · rw [finish_pletMap]
      exact hplet
    · rw [finish_alreadyPrinted]
      exact .inr ⟨hcache, rfl⟩
  · rw [finish_out]
    change s₂.out ++ _ = _
    rw [hout, hv.out, append_assoc]
    rfl
  · rintro rfl scopes hne hb
    obtain ⟨scopes1, hrun, hext, hb1⟩ := hv.effect rfl scopes hne (hb.setProcessing n true)
    obtain ⟨a, names, names', rest, rfl, rfl⟩ := hext
    have hb2 : Bound g s₂ _ := hb1.grows hgrows hcontext
    have hprinted2 : s₂.context.alreadyPrinted n ≠ true := by
      rw [hcontext]
      exact hprinted1
    have hexec : exec (⟨a, names'⟩ :: rest) (.step id premises F) =
        some (⟨a, (id, .proves F) :: names'⟩ :: rest) :=
      (if_pos (hlookup rfl _ (hb2.setProcessing n false))).trans
        (bind_fresh _ _ _ (hb2.fresh_node hid hprinted2))
    refine ⟨_, replay_append hrun (replay_one hexec), ⟨a, names, _, rest, rfl, rfl⟩, ?_⟩
    have hresult : F = (g.node n).result := by
      rw [hn]
      rfl
    rw [hresult]
    exact hb2.bind_node hids hid hprinted2 rfl rfl rfl fun m => by
      rw [finish_alreadyPrinted, and_iff_right rfl]
      rfl
  · intro m hm _
    obtain rfl := mem_singleton.1 hm
    rw [finish_pletMap, finish_alreadyPrinted]
    exact ⟨hplet, fun hcache => .inr ⟨hcache, rfl⟩⟩

lemma push_bound (hb : Bound g s scopes) : Bound g s.push scopes :=
  ⟨hb.printed, hb.passume, hb.names⟩

lemma extends_append {pushed : List (Scope α)} {assumptions : List (Option α)}
    (h : Extends (pushed ++ scopes) scopes')
    (hpushed : pushed.map Scope.assumption = assumptions) (hne : assumptions ≠ []) :
    ∃ pushed', scopes' = pushed' ++ scopes ∧ pushed'.map Scope.assumption = assumptions := by
  obtain ⟨a, names, names', rest, heq, rfl⟩ := h
  cases pushed with
  | nil => exact absurd hpushed.symm hne
  | cons sc pushed =>
    rw [cons_append, List.cons.injEq] at heq
    obtain ⟨rfl, rfl⟩ := heq
    exact ⟨⟨a, names'⟩ :: pushed, rfl, hpushed⟩

/-- The visit of a `SCOPE` step with arguments: a command for every argument opens a scope, and
the commands after those of the child close the scopes. -/
lemma exists_visit_scope {args : List α} (hn : g.node n = .scope args c F) (hargs : args ≠ [])
    (hc : Closed g (fun G => Γ G ∨ G ∈ args) c)
    (ih : ∀ s : State α, Ready cache (fun G => Γ G ∨ G ∈ args) (c + 1) s →
      ∃ s' commands, Visit g cache (c + 1) [c] s s' commands)
    (h : Ready cache Γ (n + 1) s) (hprinted : s.context.alreadyPrinted n ≠ true)
    (hproc : s.context.processingChildren n = none) :
    ∃ s' commands, Visit g cache (n + 1) [n] s s' commands ∧
      ∃ id premises, commands.getLast? = some (.step id premises F) := by
  have hlt : c < n := g.children_lt n c (by rw [hn]; exact mem_singleton.2 rfl)
  have hids0 : Ids cache s.push := ⟨h.ids.plet_le, h.ids.passume_le, h.ids.plet_inj,
    h.ids.passume_inj, h.ids.plet_ne_passume, h.ids.done, h.ids.printed⟩
  obtain ⟨pushes, hout0, hsaved0, hplet0, hproc0, hprinted0, hcounter0, hassumed0, hids0,
    heffect0⟩ := foldl_printPush_spec (g := g) args hids0
  generalize hs0 : args.foldl printPush s.push = s₀ at *
  have hready : Ready cache (fun G => Γ G ∨ G ∈ args) (c + 1) (s₀.setProcessing n true) := by
    refine ⟨fun G hG => hassumed0 G (hG.imp_left (h.assumed G)), hids0.setProcessing nofun,
      fun m hm => ?_⟩
    rw [setProcessing_processingChildren, if_neg (by omega), hproc0]
    exact h.pending m (by omega)
  obtain ⟨s₁, commands, hv⟩ := ih _ hready
  have hprinted1 : s₁.context.alreadyPrinted n ≠ true := by
    intro hp
    rcases hv.frame.printed_new n hp with hp | ⟨-, hlt'⟩
    · change s₀.context.alreadyPrinted n = true at hp
      rw [hprinted0] at hp
      exact hprinted hp
    · omega
  have hproc1 : s₁.context.processingChildren n = some true := by
    rw [hv.frame.pending n, setProcessing_processingChildren, if_pos rfl]
  obtain ⟨id, s₂, halloc, hid, hgrows, hids, hcontext, hsaved, hout⟩ :=
    allocateProofId_spec n hv.ids
  obtain ⟨idc, hidc, hlookup⟩ :=
    premise?_spec (g := g) (s := s₂.setProcessing n false) cache c (fun G hG => by
        change s₂.context.passumeMap G ≠ none
        rw [hcontext, hv.frame.passume]
        exact hready.assumed G (hc.assumed hG))
      (fun hassume => by
        change s₂.pletMap c ≠ none ∧ (cache = true → s₂.context.alreadyPrinted c = true)
        obtain ⟨hplet, hp⟩ := hv.done c (mem_singleton.2 rfl) hassume
        rw [hcontext]
        exact ⟨hgrows.plet_ne_none hplet, hp⟩)
  obtain ⟨pops, hout3, hsaved3, hplet3, hcontext3, hcounter3, hpop, hrun3⟩ :=
    printPops_spec args.reverse (idc, .proves (g.node c).result) (s₂.setProcessing n false)
  generalize hpops : printPops args.reverse (idc, .proves (g.node c).result)
    (s₂.setProcessing n false) = popped at *
  obtain ⟨premise, s3⟩ := popped
  have hsaved' : s3.saved = s.context :: s.saved :=
    hsaved3.trans (hsaved.trans (hv.frame.saved.trans hsaved0))
  -- the state after the commands, outside the scopes
  let s4 : State α :=
    { (s3.print (.step id [premise] F)) with context := s.context, saved := s.saved }
  have hpost : printStepPost g n (s₁.setProcessing n false) = some s4 := by
    rw [printStepPost, hn]
    dsimp only
    rw [allocateProofId_setProcessing, halloc]
    dsimp only
    rw [hidc]
    cases args with
    | nil => exact absurd rfl hargs
    | cons F' args => simp only [Option.map_some, hpops, State.pop, State.print, hsaved', s4]
  have hg : Grows s s₂ := by
    have hg1 : Grows s s₁ := by
      refine ⟨Nat.le_trans hcounter0 hv.frame.counter, fun m i hm => hv.frame.plet_some m i ?_,
        fun m i hm => ?_⟩
      · change s₀.pletMap m = some i
        rw [hplet0]
        exact hm
      rcases hv.frame.plet_new m i hm with hm | hlt'
      · change s₀.pletMap m = some i at hm
        rw [hplet0] at hm
        exact .inl hm
      · exact .inr (Nat.lt_of_le_of_lt hcounter0 hlt')
    exact hg1.trans hgrows
  have hplet : s₂.pletMap n ≠ none := by
    rw [hid]
    exact some_ne_none id
  have hids4 : Ids cache s4 := h.ids.pop hids hg rfl hplet3 hcounter3
  refine ⟨finish cache n s4, pushes ++ commands ++ pops ++ [.step id [premise] F],
    ⟨steps_node (by rw [hn]; rfl) hprinted hproc ?_ hprinted1 hproc1 hpost, ?_, ?_, ?_, ?_, ?_⟩,
    id, _, List.getLast?_concat⟩
  · rw [printStepPre, hn]
    dsimp only
    rw [hs0]
    exact hv.steps
  · refine ⟨hg.congr ?_ ?_, by rw [finish_saved], by rw [finish_passumeMap], fun m => ?_,
      fun m hm => ?_, fun m hm => ?_⟩
    · rw [finish_pfIdCounter]
      exact hcounter3
    · rw [finish_pletMap]
      exact hplet3
    · rw [finish_processingChildren]
    · rw [finish_alreadyPrinted]
      exact .inl hm
    · rcases (finish_alreadyPrinted cache n s4 m).1 hm with hm | ⟨hcache, rfl⟩
      · exact .inl hm
      · exact .inr ⟨hcache, lt_succ_self m⟩
  · refine hids4.finish ?_
    change s3.pletMap n ≠ none
    rw [hplet3]
    exact hplet
  · rw [finish_out]
    change s3.out ++ _ = _
    rw [hout3]
    change s₂.out ++ pops ++ _ = _
    rw [hout, hv.out]
    change s₀.out ++ _ ++ _ ++ _ = _
    rw [hout0]
    simp only [append_assoc]
    rfl
  · rintro rfl scopes hne hb
    obtain ⟨sc, rest, rfl⟩ := List.exists_cons_of_ne_nil hne
    obtain ⟨pushed, hrun, hpushed, hb0⟩ := heffect0 _ (push_bound hb)
    obtain ⟨scopes1, hrun1, hext, hb1⟩ :=
      hv.effect rfl (pushed ++ sc :: rest) (by simp) (hb0.setProcessing n true)
    have hne' : args.reverse ≠ [] := fun heq => hargs (List.reverse_eq_nil_iff.1 heq)
    obtain ⟨pushed', rfl, hpushed'⟩ := extends_append hext hpushed (by simpa using hargs)
    have hb2 : Bound g s₂ (pushed' ++ sc :: rest) := hb1.grows hgrows hcontext
    obtain ⟨hlt', hle'⟩ := hpop hne'
    have hrun2 := hrun3 pushed' sc rest hne' hpushed' (hlookup rfl _ (hb2.setProcessing n false))
      fun i hi => (hb2.names i hi).1
    -- the name that the last `step-pop` binds in the scope outside
    have hb3 : Bound g { s3 with context := s.context }
        (⟨sc.assumption, premise :: sc.names⟩ :: rest) := by
      have hb' : Bound g { s₂ with context := s.context } (sc :: rest) :=
        hb.grows (hg.congr (Nat.le_refl _) rfl) rfl
      exact hb'.bind_name (h.ids.pop hids hg rfl rfl (Nat.le_refl _)) hlt' hle' hplet3 rfl
    have hid3 : s3.pletMap n = some id := by
      rw [hplet3]
      exact hid
    have hexec : exec (⟨sc.assumption, premise :: sc.names⟩ :: rest) (.step id [premise] F) =
        some (⟨sc.assumption, (id, .proves F) :: premise :: sc.names⟩ :: rest) := by
      refine (if_pos fun p hp => ?_).trans (bind_fresh _ _ _ (hb3.fresh_node hid3 hprinted))
      obtain rfl := mem_singleton.1 hp
      exact (lookup_bound ..).trans (if_pos rfl)
    refine ⟨_, replay_append (replay_append (replay_append hrun hrun1) hrun2) (replay_one hexec),
      ⟨sc.assumption, sc.names, _, rest, rfl, rfl⟩, ?_⟩
    have hresult : F = (g.node n).result := by
      rw [hn]
      rfl
    rw [hresult]
    exact hb3.bind_node (h.ids.pop hids hg rfl hplet3 hcounter3) hid3 hprinted rfl rfl rfl fun m => by
      rw [finish_alreadyPrinted, and_iff_right rfl]
  · intro m hm _
    obtain rfl := mem_singleton.1 hm
    rw [finish_pletMap, finish_alreadyPrinted]
    refine ⟨?_, fun hcache => .inr ⟨hcache, rfl⟩⟩
    change s3.pletMap m ≠ none
    rw [hplet3]
    exact hplet

lemma visit_visited (h : Ready cache Γ (n + 1) s)
    (hvisited : s.context.alreadyPrinted n = true ∨ s.context.processingChildren n ≠ none) :
    Visit g cache (n + 1) [n] s s [] := by
  by_cases hprinted : s.context.alreadyPrinted n = true
  · exact visit_skip (fun visit => by rw [visitStep, if_pos hprinted]) h.ids fun _ =>
      ⟨h.ids.printed n hprinted, fun _ => hprinted⟩
  cases hproc : s.context.processingChildren n with
  | none => exact absurd hproc (hvisited.resolve_left hprinted)
  | some b =>
    cases b with
    | true => exact absurd hproc (h.pending n (lt_succ_self n))
    | false =>
      refine visit_skip (fun visit => ?_) h.ids fun _ => h.ids.done n hproc
      rw [visitStep, if_neg hprinted, hproc]

lemma exists_visit (h : Closed g Γ n)
    (hargs : ∀ m, Reaches g n m → ∀ c F, g.node m ≠ .scope [] c F) (s : State α)
    (hr : Ready cache Γ (n + 1) s) :
    ∃ s' commands, Visit g cache (n + 1) [n] s s' commands ∧
      ((g.node n).isAssume = false → s.context.alreadyPrinted n ≠ true →
        s.context.processingChildren n = none →
          ∃ id premises, commands.getLast? = some (.step id premises (g.node n).result)) := by
  induction h generalizing s with
  | @assume Γ n F hn hF =>
    by_cases hvisited : s.context.alreadyPrinted n = true ∨ s.context.processingChildren n ≠ none
    · refine ⟨s, [], visit_visited hr hvisited, fun hassume => ?_⟩
      rw [hn] at hassume
      cases hassume
    obtain ⟨hprinted, hproc⟩ := not_or.1 hvisited
    refine ⟨s, [], visit_skip (fun visit => ?_) hr.ids fun hassume => ?_, fun hassume => ?_⟩
    · rw [visitStep, if_neg hprinted, not_not.1 hproc]
      dsimp only
      rw [hn]
      rfl
    · rw [hn] at hassume
      cases hassume
    · rw [hn] at hassume
      cases hassume
  | @scope Γ n c args F hn hc ih =>
    by_cases hvisited : s.context.alreadyPrinted n = true ∨ s.context.processingChildren n ≠ none
    · exact ⟨s, [], visit_visited hr hvisited, fun _ hprinted hproc =>
        (hvisited.elim hprinted fun h => h hproc).elim⟩
    obtain ⟨hprinted, hproc⟩ := not_or.1 hvisited
    have hne : args ≠ [] := by
      rintro rfl
      exact hargs n (.refl n) c F hn
    have hreach : ∀ m, Reaches g c m → ∀ c F, g.node m ≠ .scope [] c F := fun m hm =>
      hargs m (.child (by rw [hn]; exact mem_singleton.2 rfl) hm)
    obtain ⟨s', commands, hv, hlast⟩ := exists_visit_scope hn hne hc
      (fun s hs => (ih hreach s hs).imp fun s' => Exists.imp fun _ => And.left) hr hprinted
      (not_not.1 hproc)
    refine ⟨s', commands, hv, fun _ _ _ => ?_⟩
    rw [hn]
    exact hlast
  | @step Γ n cs F hn hcs ih =>
    by_cases hvisited : s.context.alreadyPrinted n = true ∨ s.context.processingChildren n ≠ none
    · exact ⟨s, [], visit_visited hr hvisited, fun _ hprinted hproc =>
        (hvisited.elim hprinted fun h => h hproc).elim⟩
    obtain ⟨hprinted, hproc⟩ := not_or.1 hvisited
    have hreach : ∀ c ∈ cs, ∀ m, Reaches g c m → ∀ c F, g.node m ≠ .scope [] c F :=
      fun c hc m hm => hargs m (.child (by rw [hn]; exact hc) hm)
    obtain ⟨s', commands, hv, hlast⟩ := exists_visit_step hn hcs
      (fun c hc s hs => (ih c hc (hreach c hc) s hs).imp fun s' => Exists.imp fun _ => And.left)
      hr hprinted (not_not.1 hproc)
    refine ⟨s', commands, hv, fun _ _ _ => ?_⟩
    rw [hn]
    exact hlast

/-! ## The passes -/

lemma allocateAssumeId_spec (F : α) (h : Ids cache s) :
    ∃ id b s', allocateAssumeId F s = ((id, b), s') ∧ s'.context.passumeMap F = some id ∧
      (∀ G i, s.context.passumeMap G = some i → s'.context.passumeMap G = some i) ∧
      (∀ G i, s'.context.passumeMap G = some i → G = F ∨ s.context.passumeMap G = some i) ∧
      Ids cache s' ∧ s'.pletMap = s.pletMap ∧
      s'.context.alreadyPrinted = s.context.alreadyPrinted ∧ s'.saved = s.saved ∧
      s'.out = s.out := by
  unfold allocateAssumeId
  cases hF : s.context.passumeMap F with
  | some id => exact ⟨id, false, s, rfl, hF, fun _ _ h => h, fun _ _ => .inr, h, rfl, rfl, rfl, rfl⟩
  | none =>
    refine ⟨_, true, _, rfl, update_self .., fun G i hG => ?_,
      fun G i hG => (update_eq_some hG).imp_left And.left, h.allocateAssume F, rfl, rfl, rfl, rfl⟩
    have hne : G ≠ F := by
      rintro rfl
      rw [hF] at hG
      cases hG
    exact (update_of_ne hne _ _).trans hG

/-- After the commands for the assumptions that are processed. -/
structure Header (s₀ : State α) (processed : List α) (s : State α) (commands : List (Command α))
    (names : List (Nat × Fact α)) : Prop where
  ids : Ids false s
  out : s.out = s₀.out ++ commands
  replay : replay [⟨none, []⟩] commands = some [⟨none, names⟩]
  bound : ∀ F ∈ processed, ∃ id, s.context.passumeMap F = some id ∧
    lookup id [⟨none, names⟩] = some (.proves F)
  of_bound : ∀ id, lookup id [⟨none, names⟩] ≠ none →
    ∃ F ∈ processed, s.context.passumeMap F = some id
  known : ∀ F, s.context.passumeMap F ≠ none → s₀.context.passumeMap F ≠ none ∨ F ∈ processed
  alreadyPrinted : s.context.alreadyPrinted = s₀.context.alreadyPrinted
  saved : s.saved = s₀.saved

variable {s₀ : State α} {processed : List α} {names : List (Nat × Fact α)}

lemma header_nil (h : Ids false s) : Header s [] s [] [] where
  ids := h
  out := (append_nil _).symm
  replay := rfl
  bound := nofun
  of_bound _ hne := absurd rfl hne
  known _ hF := .inl hF
  alreadyPrinted := rfl
  saved := rfl

lemma Header.next (h : Header s₀ processed s commands names) (hF : F ∉ processed)
    (command : Command α)
    (hcommand : ∀ scopes : List (Scope α), exec scopes command =
      bind (allocateAssumeId F s).1.1 (.proves F) scopes) :
    ∃ names', Header s₀ (F :: processed) ((allocateAssumeId F s).2.print command)
      (commands ++ [command]) names' := by
  obtain ⟨id, b, s', halloc, hid, hold, hnew, hids, hplet, hprinted, hsaved, hout⟩ :=
    allocateAssumeId_spec F h.ids
  rw [halloc] at hcommand ⊢
  have hfresh : lookup id [(⟨none, names⟩ : Scope α)] = none := by
    by_contra hne
    obtain ⟨G, hG, hG'⟩ := h.of_bound id hne
    exact hF (hids.passume_inj F G id hid (hold G id hG') ▸ hG)
  have hexec : exec [⟨none, names⟩] command = some [⟨none, (id, .proves F) :: names⟩] :=
    (hcommand _).trans (bind_fresh id _ _ hfresh)
  refine ⟨(id, .proves F) :: names, hids.print command, ?_,
    replay_append h.replay (replay_one hexec), fun G hG => ?_, fun i hi => ?_, fun G hG => ?_,
    hprinted.trans h.alreadyPrinted, hsaved.trans h.saved⟩
  · change s'.out ++ [command] = _
    rw [hout, h.out, append_assoc]
  · change ∃ i, s'.context.passumeMap G = some i ∧ _
    rcases mem_cons.1 hG with rfl | hG
    · exact ⟨id, hid, (lookup_bound ..).trans (if_pos rfl)⟩
    obtain ⟨i, hi, hl⟩ := h.bound G hG
    refine ⟨i, hold G i hi, (lookup_bound ..).trans ?_⟩
    rw [if_neg (Bound.ne_of_fresh hfresh (by simp [hl])), hl]
  · change ∃ G ∈ F :: processed, s'.context.passumeMap G = some i
    rw [lookup_bound] at hi
    split at hi
    · rename_i heq
      exact ⟨F, .head _, heq ▸ hid⟩
    · obtain ⟨G, hG, hi⟩ := h.of_bound i hi
      exact ⟨G, List.mem_cons_of_mem F hG, hold G i hi⟩
  obtain ⟨i, hi⟩ := ne_none_iff_exists'.1 hG
  rcases hnew G i hi with rfl | hi
  · exact .inr (.head _)
  · exact (h.known G (by rw [hi]; exact some_ne_none i)).imp_right (List.mem_cons_of_mem F)

lemma printAssertions_spec (assertions : List α) (h : Header s₀ processed s commands names) :
    ∃ commands' names', Header s₀ (printAssertions assertions processed s).1
        (printAssertions assertions processed s).2 commands' names' ∧
      ∀ F, F ∈ (printAssertions assertions processed s).1 ↔ F ∈ assertions ∨ F ∈ processed := by
  induction assertions generalizing processed s commands names with
  | nil => exact ⟨commands, names, h, fun F => (or_iff_right not_mem_nil).symm⟩
  | cons F assertions ih =>
    rw [printAssertions]
    split
    · rename_i hF
      obtain ⟨commands', names', h', hmem⟩ := ih h
      refine ⟨commands', names', h', fun G => (hmem G).trans ?_⟩
      rw [mem_cons, or_assoc]
      exact ⟨.inr, fun hG => hG.elim (fun hGF => .inr (hGF ▸ hF)) fun hG => hG⟩
    rename_i hF
    obtain ⟨names', h'⟩ := h.next hF (.assume (allocateAssumeId F s).1.1 F) fun scopes => rfl
    obtain ⟨commands'', names'', h'', hmem⟩ := ih h'
    refine ⟨commands'', names'', h'', fun G => (hmem G).trans ?_⟩
    rw [mem_cons, mem_cons, or_left_comm, or_assoc]

lemma printDefinitions_spec (isEqual : α → Bool) (definitions : List α)
    (h : Header s₀ processed s commands names) :
    ∃ processed' commands' names',
      Header s₀ processed' (printDefinitions isEqual definitions processed s) commands' names' ∧
      ∀ F, F ∈ processed' ↔ F ∈ processed ∨ F ∈ definitions ∧ isEqual F := by
  induction definitions generalizing processed s commands names with
  | nil => exact ⟨processed, commands, names, h, fun F => by simp⟩
  | cons F definitions ih =>
    rw [printDefinitions]
    split
    · rename_i hF
      obtain ⟨processed', commands', names', h', hmem⟩ := ih h
      refine ⟨processed', commands', names', h', fun G => (hmem G).trans ?_⟩
      rw [mem_cons]
      constructor
      · exact Or.imp_right (And.imp_left .inr)
      rintro (hG | ⟨rfl | hG, heq⟩)
      · exact .inl hG
      · exact .inl (hF.resolve_left (not_not.2 heq))
      · exact .inr ⟨hG, heq⟩
    rename_i hF
    obtain ⟨heq, hF⟩ := not_or.1 hF
    obtain ⟨names', h'⟩ := h.next hF (.step (allocateAssumeId F s).1.1 [] F) fun scopes => by
      rw [exec, if_pos (by simp)]
    obtain ⟨processed', commands'', names'', h'', hmem⟩ := ih h'
    refine ⟨processed', commands'', names'', h'', fun G => (hmem G).trans ?_⟩
    rw [mem_cons, mem_cons]
    constructor
    · rintro ((rfl | hG) | ⟨hG, heq'⟩)
      · exact .inr ⟨.inl rfl, not_not.1 heq⟩
      · exact .inl hG
      · exact .inr ⟨.inr hG, heq'⟩
    rintro (hG | ⟨rfl | hG, heq'⟩)
    · exact .inl (.inr hG)
    · exact .inl (.inl rfl)
    · exact .inr ⟨hG, heq'⟩

/-- No node is being processed. -/
def start (s : State α) : State α :=
  { s with context := { s.context with processingChildren := fun _ => none } }

lemma Ids.start (h : Ids false s) : Ids cache (start s) where
  plet_le := h.plet_le
  passume_le := h.passume_le
  plet_inj := h.plet_inj
  passume_inj := h.passume_inj
  plet_ne_passume := h.plet_ne_passume
  done _ hm := nomatch hm
  printed := h.printed

/-- What the two passes have in common. -/
structure Pass (p : Proof α) (cache : Bool) (s s' : State α) (commands : List (Command α)) :
    Prop where
  run : ∃ fuel, printPass p cache fuel s = some s'
  ids : Ids cache s'
  known : ∀ F, s'.context.passumeMap F ≠ none → p.Assumed F
  printed : cache = false → ∀ m, s'.context.alreadyPrinted m ≠ true
  out : s'.out = s.out ++ commands
  replay : cache = true → ∃ names, replay [⟨none, []⟩] commands = some [⟨none, names⟩]
  last : ∃ id premises, commands.getLast? = some (.step id premises (p.dag.node p.body).result)

variable {p : Proof α}

lemma exists_pass (hclosed : p.IsClosed)
    (hargs : ∀ m, Reaches p.dag p.body m → ∀ c F, p.dag.node m ≠ .scope [] c F)
    (hbody : (p.dag.node p.body).isAssume = false) (hids : Ids false s)
    (hknown : ∀ F, s.context.passumeMap F ≠ none → p.Assumed F)
    (hprinted : ∀ m, s.context.alreadyPrinted m ≠ true) :
    ∃ s' commands, Pass p cache s s' commands := by
  obtain ⟨commands, names, h, hmem⟩ := printAssertions_spec p.assertions (header_nil hids)
  obtain ⟨processed, commands, names, h, hmem'⟩ :=
    printDefinitions_spec p.isEqual p.definitions h
  generalize hs1 : printDefinitions p.isEqual p.definitions
    (printAssertions p.assertions [] s).1 (printAssertions p.assertions [] s).2 = s₁ at h
  have hassumed : ∀ F, F ∈ processed ↔ p.Assumed F := fun F => by
    rw [hmem', hmem, or_iff_left List.not_mem_nil]
    rfl
  have hready : Ready cache p.Assumed (p.body + 1) (start s₁) := by
    refine ⟨fun F hF => ?_, h.ids.start, fun m _ => nofun⟩
    obtain ⟨id, hid, -⟩ := h.bound F ((hassumed F).2 hF)
    change s₁.context.passumeMap F ≠ none
    rw [hid]
    exact some_ne_none id
  have hknown1 : ∀ F, s₁.context.passumeMap F ≠ none → p.Assumed F := fun F hF =>
    (h.known F hF).elim (hknown F) (hassumed F).1
  have hprinted1 : ∀ m, s₁.context.alreadyPrinted m ≠ true := by
    rw [h.alreadyPrinted]
    exact hprinted
  obtain ⟨s', commands', hv, hlast⟩ := exists_visit hclosed hargs _ hready
  obtain ⟨id, premises, hlast⟩ := hlast hbody (hprinted1 p.body) rfl
  obtain ⟨fuel, hfuel⟩ := loop_of_steps (hv.steps [])
  refine ⟨s', commands ++ commands', ⟨fuel, ?_⟩, hv.ids, fun F hF => ?_, fun hcache m hm => ?_, ?_,
    fun hcache => ?_, id, premises, ?_⟩
  · rw [← hs1] at hfuel
    exact hfuel
  · rw [hv.frame.passume] at hF
    exact hknown1 F hF
  · rcases hv.frame.printed_new m hm with hm | ⟨hcache', -⟩
    · exact hprinted1 m hm
    · rw [hcache] at hcache'
      cases hcache'
  · rw [hv.out]
    change s₁.out ++ commands' = _
    rw [h.out, append_assoc]
  · have hb : Bound p.dag (start s₁) [⟨none, names⟩] := by
      refine ⟨fun m hm => absurd hm (hprinted1 m), fun F id hF => ?_, fun id hne => ?_⟩
      · change s₁.context.passumeMap F = some id at hF
        have hsome : s₁.context.passumeMap F ≠ none := by
          rw [hF]
          exact some_ne_none id
        obtain ⟨id', hid', hl⟩ := h.bound F ((hassumed F).2 (hknown1 F hsome))
        rw [hF] at hid'
        cases hid'
        exact hl
      · obtain ⟨F, -, hF⟩ := h.of_bound id hne
        exact ⟨h.ids.passume_le F id hF, fun m hm => absurd hF (h.ids.plet_ne_passume m F id hm)⟩
    obtain ⟨scopes, hrun, hext, -⟩ := hv.effect hcache _ (cons_ne_nil _ _) hb
    obtain ⟨a, _, names', rest, heq, rfl⟩ := hext
    cases heq
    exact ⟨names', replay_append h.replay hrun⟩
  · rw [List.getLast?_append, hlast]
    rfl

lemma printPass_mono (hle : fuel ≤ fuel')
    (h : printPass p cache fuel s = some s') : printPass p cache fuel' s = some s' :=
  loop_mono hle h

lemma initial_ids : Ids false (initial : State α) where
  plet_le _ _ h := nomatch h
  passume_le _ _ h := nomatch h
  plet_inj _ _ _ h := nomatch h
  passume_inj _ _ _ h := nomatch h
  plet_ne_passume _ _ _ h := nomatch h
  done _ h := nomatch h
  printed _ h := nomatch h

lemma print_mono (hle : fuel ≤ fuel')
    (h : print p fuel = some commands) : print p fuel' = some commands := by
  rw [print] at h ⊢
  obtain ⟨s, hs, h⟩ := bind_inv h
  obtain ⟨s', hs', h⟩ := bind_inv h
  rw [printPass_mono hle hs]
  change (printPass p true _ { s with out := [] }).bind _ = _
  rw [printPass_mono hle hs']
  exact h

def Dag.ofList (F : α) (nodes : List (ProofNode α))
    (h : ∀ n < nodes.length, ∀ c ∈ (nodes.getD n (.assume F)).children, c < n) : Dag α where
  node n := nodes.getD n (.assume F)
  children_lt n c hc := by
    by_cases hn : n < nodes.length
    · exact h n hn c hc
    · rw [List.getD_eq_getElem?_getD, List.getElem?_eq_none (by omega)] at hc
      cases hc

/-- A conjunction of two proofs of one formula: a step, and the same step below a `SCOPE` step
without arguments. -/
def emptyScope : Proof Nat where
  dag := Dag.ofList 0 [.assume 0, .step [0] 1, .scope [] 1 1, .step [1, 2] 2] (by decide)
  isEqual _ := false
  definitions := []
  assertions := [0]
  body := 3

lemma emptyScope_isClosed : emptyScope.IsClosed := by
  have hstep : ∀ Γ : Nat → Prop, Γ 0 → Closed emptyScope.dag Γ 1 := fun Γ h =>
    .step rfl (forall_mem_singleton.2 (.assume rfl h))
  have hassumed : emptyScope.Assumed 0 := .inl (by decide)
  have hscope : Closed emptyScope.dag emptyScope.Assumed 2 :=
    .scope rfl (hstep _ (.inl hassumed))
  exact .step rfl (forall_mem_cons.2 ⟨hstep _ hassumed, forall_mem_singleton.2 hscope⟩)

/-- A step that is used inside and outside of a scope that assumes its premise again. -/
def sharedStep : Proof Nat where
  dag := Dag.ofList 0 [.assume 0, .step [0] 1, .step [1, 0] 2, .scope [0] 2 3, .step [1, 3] 4]
    (by decide)
  isEqual _ := false
  definitions := []
  assertions := [0]
  body := 4

lemma sharedStep_isClosed : sharedStep.IsClosed := by
  have hassume : ∀ Γ : Nat → Prop, Γ 0 → Closed sharedStep.dag Γ 0 := fun Γ h => .assume rfl h
  have hstep : ∀ Γ : Nat → Prop, Γ 0 → Closed sharedStep.dag Γ 1 := fun Γ h =>
    .step rfl (forall_mem_singleton.2 (hassume Γ h))
  have hchild : ∀ Γ : Nat → Prop, Γ 0 → Closed sharedStep.dag Γ 2 := fun Γ h =>
    .step rfl (forall_mem_cons.2 ⟨hstep Γ h, forall_mem_singleton.2 (hassume Γ h)⟩)
  have hassumed : sharedStep.Assumed 0 := .inl (by decide)
  have hscope : Closed sharedStep.dag sharedStep.Assumed 3 :=
    .scope rfl (hchild _ (.inl hassumed))
  exact .step rfl (forall_mem_cons.2 ⟨hstep _ hassumed, forall_mem_singleton.2 hscope⟩)

end EthosCpc.Cvc5.EoPrinter
