import Nca.Resources.Policies

/-!
What a policy decides about single connections. No policy decides twice about a connection, and
the decisions of a policy concern the peers it selects.
-/

namespace Nca.Resources
open CoreDS Lib

variable {P E κ : Type} [ConnectivityProperties P E κ] {x : Flow E κ} {is_ingress : Bool}

/-- The verdict of a rule about the connections it matches; logging decides nothing. -/
def CalicoActionType.verdict : CalicoActionType → Option Verdict
  | .Allow => some .allow
  | .Deny => some .deny
  | .Pass => some .pass
  | .Log => none

def CalicoPolicyRule.decisions (rule : CalicoPolicyRule P) : Decisions P :=
  match rule.action with
  | .Allow => ⟨rule.props, ∅, ∅⟩
  | .Deny => ⟨∅, rule.props, ∅⟩
  | .Pass => ⟨∅, ∅, rule.props⟩
  | .Log => .none

theorem rule_disjoint (rule : CalicoPolicyRule P) : rule.decisions.Disjoint := by
  intro x
  unfold CalicoPolicyRule.decisions
  cases rule.action <;> simp [Decisions.none]

theorem rule_verdict (rule : CalicoPolicyRule P) :
    rule.decisions.verdict x = if x ∈ rule.props then rule.action.verdict else none := by
  unfold CalicoPolicyRule.decisions
  cases rule.action <;> simp [Decisions.verdict, Decisions.none, CalicoActionType.verdict]

theorem updateByRule_combine (acc : Decisions P) (rule : CalicoPolicyRule P) :
    updateByRule acc rule = acc.combine rule.decisions := by
  have cut : ∀ s t : P, (∅ \ s) \ t = ∅ := by
    intro s t
    simp [ExactSet.eq_iff]
  have keep : ∀ s : P, s ∪ ∅ = s := by
    intro s
    simp [ExactSet.eq_iff]
  have swap : ∀ s t u : P, (s \ t) \ u = (s \ u) \ t := by
    intro s t u
    simp only [ExactSet.eq_iff, ExactSet.mem_sdiff]
    grind
  unfold updateByRule CalicoPolicyRule.decisions
  cases rule.action with
  | Deny | Allow | Log => simp only [Decisions.combine, Decisions.none, cut, keep]
  | Pass => simp only [Decisions.combine, cut, keep, swap rule.props acc.allow]

/-- The first matching rule of a Calico policy decides. -/
theorem updateOptProps_firstMatch (rules : List (CalicoPolicyRule P)) :
    (updateOptPropsByOrder rules).Disjoint ∧ ∀ x, (updateOptPropsByOrder rules).verdict x =
      rules.findSome? fun rule => if x ∈ rule.props then rule.action.verdict else none := by
  have same : updateOptPropsByOrder rules =
      (rules.map CalicoPolicyRule.decisions).foldl .combine .none := by
    unfold updateOptPropsByOrder
    rw [List.foldl_map]
    congr 1
    funext acc rule
    exact updateByRule_combine acc rule
  have disjoint : ∀ e ∈ rules.map CalicoPolicyRule.decisions, Decisions.Disjoint e := by
    intro e member
    obtain ⟨rule, _, rfl⟩ := List.mem_map.mp member
    exact rule_disjoint rule
  obtain ⟨apart, verdict⟩ := Decisions.foldl_combine _ Decisions.none_disjoint disjoint
  rw [same]
  refine ⟨apart, fun x => (verdict x).trans ?_⟩
  rw [Decisions.verdict_none, Option.none_or, List.findSome?_map]
  congr 1
  funext rule
  exact rule_verdict rule

/-- The action of the first rule that matches the connection, where logging does not count. -/
def firstAction (rules : List (CalicoPolicyRule P)) (x : Flow E κ) : Option CalicoActionType :=
  (rules.find? fun rule => decide (rule.action ≠ .Log ∧ x ∈ rule.props)).map (·.action)

theorem firstAction_ne_log (rules : List (CalicoPolicyRule P)) :
    firstAction rules x ≠ some .Log := by
  intro log
  obtain ⟨rule, found, action⟩ := Option.map_eq_some_iff.mp log
  have matched := List.find?_some found
  simp only [ne_eq, decide_eq_true_eq] at matched
  exact matched.1 action

theorem firstAction_verdict (rules : List (CalicoPolicyRule P)) :
    (rules.findSome? fun rule => if x ∈ rule.props then rule.action.verdict else none) =
      (firstAction rules x).bind CalicoActionType.verdict := by
  unfold firstAction
  induction rules with
  | nil => rfl
  | cons rule rest ih =>
    rw [List.findSome?_cons, List.find?_cons, ih]
    by_cases matched : x ∈ rule.props
    · cases action : rule.action <;> simp [matched, action, CalicoActionType.verdict]
    · simp [matched]

theorem firstAction_isSome (rules : List (CalicoPolicyRule P)) :
    (firstAction rules x).isSome = true ↔ ∃ rule ∈ rules, rule.action ≠ .Log ∧ x ∈ rule.props := by
  simp [firstAction]

/-- The properties of a Calico policy: three disjoint sets that share out what its rules match but
logging ones, each connection to the action of the first rule that matches it. -/
theorem calico_firstMatch :
    (∀ (policy : CalicoNetworkPolicy P) (is_ingress : Bool),
      policy.syncProps is_ingress = updateOptPropsByOrder (policy.rules is_ingress)) ∧
    ∀ (rules : List (CalicoPolicyRule P)) (x : Flow E κ),
      let props := updateOptPropsByOrder rules
      (¬ (x ∈ props.allow ∧ x ∈ props.deny) ∧ ¬ (x ∈ props.allow ∧ x ∈ props.pass) ∧
        ¬ (x ∈ props.deny ∧ x ∈ props.pass)) ∧
      (x ∈ props.allow ∪ props.deny ∪ props.pass ↔
        ∃ rule ∈ rules, rule.action ≠ .Log ∧ x ∈ rule.props) ∧
      (x ∈ props.allow ↔ firstAction rules x = some .Allow) ∧
      (x ∈ props.deny ↔ firstAction rules x = some .Deny) ∧
      (x ∈ props.pass ↔ firstAction rules x = some .Pass) := by
  refine ⟨fun _ _ => rfl, fun rules x => ?_⟩
  obtain ⟨disjoint, verdict⟩ := updateOptProps_firstMatch rules
  have decided := (verdict x).trans (firstAction_verdict rules)
  have notLog := firstAction_ne_log (x := x) rules
  have allow := Decisions.verdict_allow (d := updateOptPropsByOrder rules) (x := x)
  have deny := Decisions.verdict_deny (x := x) disjoint
  have pass := Decisions.verdict_pass (x := x) disjoint
  rw [decided] at allow deny pass
  refine ⟨disjoint x, ?_, ?_, ?_, ?_⟩
  · rw [← firstAction_isSome, ExactSet.mem_union, ExactSet.mem_union, ← allow, ← deny, ← pass]
    cases action : firstAction rules x with
    | none => simp
    | some action' =>
      cases action' <;> simp_all [CalicoActionType.verdict]
  all_goals
    first | rw [← allow] | rw [← deny] | rw [← pass]
    cases action : firstAction rules x with
    | none => simp
    | some action' => cases action' <;> simp_all [CalicoActionType.verdict]

theorem allow_disjoint (s : P) : (⟨s, ∅, ∅⟩ : Decisions P).Disjoint := fun x => by simp

theorem deny_disjoint (s : P) : (⟨∅, s, ∅⟩ : Decisions P).Disjoint := fun x => by simp

namespace Policy
variable [Fintype E] [Peers E]

/-- No policy gives a connection two verdicts. -/
theorem syncProps_disjoint (policy : Policy P) (is_ingress : Bool) :
    (policy.syncProps is_ingress).Disjoint := by
  cases policy with
  | k8s p => exact allow_disjoint _
  | calico p => exact (updateOptProps_firstMatch _).1
  | istio p =>
    simp only [syncProps, IstioNetworkPolicy.syncProps]
    split
    · cases p.action
      · exact deny_disjoint _
      · exact allow_disjoint _
    · exact Decisions.none_disjoint
  | sidecar p =>
    simp only [syncProps, IstioSidecar.syncProps]
    split
    · exact allow_disjoint _
    · exact allow_disjoint _
  | gateway p =>
    simp only [syncProps, GatewayPolicy.syncProps]
    cases p.action
    · exact deny_disjoint _
    · exact allow_disjoint _

theorem allowedConnections_decisions (policy : Policy P) :
    (policy.allowedConnections is_ingress).decisions = policy.syncProps is_ingress := by
  cases policy <;> rfl

/-- The peers that the policy captures in the direction. -/
def captured (policy : Policy P) (is_ingress : Bool) : PeerSet E :=
  (policy.allowedConnections is_ingress).captured

/-- What the policy says about a connection; without captured peers it is not asked. -/
def verdictOn [DecidableEq E] (policy : Policy P) (is_ingress : Bool) (x : Flow E κ) :
    Option Verdict :=
  if policy.captured is_ingress ≠ ∅ then (policy.syncProps is_ingress).verdict x else none

end Policy
end Nca.Resources
