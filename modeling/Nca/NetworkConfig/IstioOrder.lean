import Nca.NetworkConfig.PolicyInsertion
import Nca.NetworkConfig.IstioSemantics

/-!
The order of the Istio layer. Insertion by binary search keeps `Deny` before `Allow` policies as
long as it does not take its way from a Sidecar: Sidecars stand at whatever place they came to, and
no policy precedes them.
-/

namespace Nca.NetworkConfig
open CoreDS Lib Resources

variable {P E κ : Type} [Fintype E] [DecidableEq E] [Peers E] [ConnectivityProperties P E κ]
  {policies_list : List (Policy P)} {policy : Policy P}

def IsSidecar : Policy P → Prop
  | .sidecar _ => True
  | _ => False

/-- The binary search for the place of the policy meets a Sidecar with an `Allow` policy before
it. -/
def LateSidecar (policies_list : List (Policy P)) (policy : Policy P) : Prop :=
  ∃ i ∈ Python.probes Policy.lt policies_list policy policies_list.length 0 policies_list.length,
    (∃ q, policies_list[i]? = some q ∧ IsSidecar q) ∧ ∃ r ∈ policies_list.take i, IsAllow r

section Insertion

omit [Fintype E] [DecidableEq E]

/-- A policy precedes exactly the authorization policies, and only if it is a `Deny` policy. -/
theorem lt_istio {p q : Policy P} (istio : IsIstio p) (istio' : IsIstio q) :
    p.lt q = true ↔ IsDeny p ∧ ¬ IsSidecar q := by
  obtain ⟨p, rfl⟩ | ⟨p, rfl⟩ := istio_cases istio <;>
    obtain ⟨q, rfl⟩ | ⟨q, rfl⟩ := istio_cases istio' <;>
    simp [Policy.lt, Policy.orderLt, Policy.getOrder, IsDeny, IsSidecar]

theorem not_allow_of_sidecar {q : Policy P} (sidecar : IsSidecar q) : ¬ IsAllow q := by
  cases q <;> simp_all [IsSidecar, IsAllow]

theorem denyFirst_insert {before after : List (Policy P)} (ordered : DenyFirst (before ++ after)) :
    DenyFirst (before ++ policy :: after) ↔
      (∀ r ∈ before, ¬ (IsAllow r ∧ IsDeny policy)) ∧
        ∀ r ∈ after, ¬ (IsAllow policy ∧ IsDeny r) := by
  unfold DenyFirst at ordered ⊢
  rw [List.pairwise_append] at ordered ⊢
  obtain ⟨first, second, across⟩ := ordered
  rw [List.pairwise_cons]
  constructor
  · intro ⟨_, ⟨later, _⟩, earlier⟩
    exact ⟨fun r member => earlier r member policy List.mem_cons_self, later⟩
  · intro ⟨earlier, later⟩
    refine ⟨first, ⟨later, second⟩, fun r member q inside => ?_⟩
    rcases List.mem_cons.mp inside with rfl | inside
    · exact earlier r member
    · exact across r member q inside

theorem not_deny_of_allow (allow : IsAllow policy) : ¬ IsDeny policy := by
  cases policy <;> simp_all [IsAllow, IsDeny]

theorem insort_denyFirst_iff (istio : ∀ q ∈ policies_list, IsIstio q) (istio' : IsIstio policy)
    (ordered : DenyFirst policies_list) :
    DenyFirst (Python.insort Policy.lt policies_list policy) ↔
      ¬ (IsDeny policy ∧ LateSidecar policies_list policy) := by
  constructor
  · intro kept ⟨deny, i, probed, ⟨q, found, sidecar⟩, r, member, allow⟩
    obtain ⟨bound, rfl⟩ := List.getElem?_eq_some_iff.mp found
    have stays : policy.lt policies_list[i] = false := by
      rw [← Bool.not_eq_true, lt_istio istio' (istio _ (List.getElem_mem bound))]
      exact fun precedes => precedes.2 sidecar
    have behind := Python.bisectRight_gt (Nat.zero_le _) (Nat.le_refl _) (Nat.le_refl _) probed
      found stays
    have before : r ∈ policies_list.take (Python.bisectRight Policy.lt policies_list policy
        policies_list.length 0 policies_list.length) :=
      (List.take_subset_take_left policies_list (Nat.le_of_lt behind)) member
    exact (List.pairwise_append.mp kept).2.2 r before policy List.mem_cons_self ⟨allow, deny⟩
  · intro fits
    obtain ⟨before, after, rfl, whole, left, right⟩ :=
      Python.insort_spec Policy.lt policies_list policy
    rw [whole, denyFirst_insert ordered]
    constructor
    · intro r member ⟨allow, deny⟩
      -- the search came from the Sidecar that ends the first part
      obtain rfl | ⟨init, y, rfl, stays, probed⟩ := left
      · cases member
      · have sidecar : IsSidecar y := by
          by_contra other
          have precedes := (lt_istio istio' (istio y (by simp))).mpr ⟨deny, other⟩
          rw [stays] at precedes
          cases precedes
        refine fits ⟨deny, init.length, probed, ⟨y, by simp, sidecar⟩, r, ?_, allow⟩
        rcases List.mem_append.mp member with inside | last
        · simpa using inside
        · obtain rfl := List.mem_singleton.mp last
          exact (not_allow_of_sidecar sidecar allow).elim
    · intro r member ⟨allow, _⟩
      obtain rfl | ⟨y, rest, rfl, precedes, _⟩ := right
      · cases member
      · exact not_deny_of_allow allow ((lt_istio istio' (istio y (by simp))).mp precedes).1

end Insertion

section Appending

/-- The policies of the Istio layer. -/
def istioPolicies (self : NetworkConfig P) : List (Policy P) := self.layerPolicies .Istio

/-- The ways in which a configuration gets a policy; the second is how rules are left out. -/
inductive Insertion (P : Type) {E κ : Type} [Peers E] [ConnectivityProperties P E κ] where
  | append (policy : Policy P)
  | replace (policy_to_exclude policy : Policy P)

def insertionStep (self : NetworkConfig P) : Insertion P → NetworkConfig P
  | .append policy => self.appendPolicyToConfig policy
  | .replace policy_to_exclude policy =>
    (self.cloneWithoutPolicy policy_to_exclude).appendPolicyToConfig policy

/-- A `Deny` policy that is new finds its place without meeting a late Sidecar. -/
def FindsPlace (self : NetworkConfig P) (policy : Policy P) : Prop :=
  IsDeny policy →
    (Dict.get self.policies_container.policies (PoliciesContainer.key policy)).isNone = true →
    ¬ LateSidecar (istioPolicies self) policy

/-- All policies, appended one after the other, find their places. -/
def AllFindPlaces : NetworkConfig P → List (Policy P) → Prop
  | _, [] => True
  | self, policy :: rest =>
    FindsPlace self policy ∧ AllFindPlaces (self.appendPolicyToConfig policy) rest

/-- The policies that the step appends find their places; a clone is appended anew. -/
def StepFits (self : NetworkConfig P) : Insertion P → Prop
  | .append policy => FindsPlace self policy
  | .replace policy_to_exclude policy =>
    AllFindPlaces self.cloneWithoutPolicies ((self.policies_container.policies.filter
      fun entry => !entry.2.eq policy_to_exclude).map Prod.snd) ∧
    FindsPlace (self.cloneWithoutPolicy policy_to_exclude) policy

def EveryStepFits : NetworkConfig P → List (Insertion P) → Prop
  | _, [] => True
  | self, cmd :: rest => StepFits self cmd ∧ EveryStepFits (insertionStep self cmd) rest

/-- The Istio layer holds Istio policies, `Deny` before `Allow`. -/
def Ordered (self : NetworkConfig P) : Prop :=
  (∀ policy ∈ istioPolicies self, IsIstio policy) ∧ DenyFirst (istioPolicies self)

omit [Fintype E] [DecidableEq E]

theorem append_ordered {self : NetworkConfig P} (ordered : Ordered self)
    (fits : FindsPlace self policy) : Ordered (self.appendPolicyToConfig policy) := by
  obtain ⟨istio, first⟩ := ordered
  unfold Ordered istioPolicies at *
  rw [layerPolicies_append]
  split
  · rename_i new
    obtain ⟨absent, layer⟩ := new
    have istio' : IsIstio policy := layer
    refine ⟨fun q member => ?_, (insort_denyFirst_iff istio istio' first).mpr ?_⟩
    · rcases Python.mem_insort.mp member with rfl | member
      · exact istio'
      · exact istio q member
    · exact fun late => fits late.1 absent late.2
  · exact ⟨istio, first⟩

theorem appendAll_ordered {self : NetworkConfig P} (policies : List (Policy P))
    (ordered : Ordered self) (fits : AllFindPlaces self policies) :
    Ordered (policies.foldl NetworkConfig.appendPolicyToConfig self) := by
  induction policies generalizing self with
  | nil => exact ordered
  | cons policy rest ih => exact ih (append_ordered ordered fits.1) fits.2

theorem empty_ordered (peer_container : PeerContainer E) :
    Ordered (⟨peer_container, .init⟩ : NetworkConfig P) :=
  ⟨List.forall_mem_nil _, List.Pairwise.nil⟩

end Appending

section Runs

theorem step_ordered {self : NetworkConfig P} {cmd : Insertion P} (ordered : Ordered self)
    (fits : StepFits self cmd) : Ordered (insertionStep self cmd) := by
  cases cmd with
  | append policy => exact append_ordered ordered fits
  | replace policy_to_exclude policy =>
    refine append_ordered ?_ fits.2
    rw [cloneWithoutPolicy_eq]
    exact appendAll_ordered _ (empty_ordered _) fits.1

theorem run_ordered {self : NetworkConfig P} {cmds : List (Insertion P)} (ordered : Ordered self)
    (fits : EveryStepFits self cmds) : Ordered (cmds.foldl insertionStep self) := by
  induction cmds generalizing self with
  | nil => exact ordered
  | cons cmd rest ih => exact ih (step_ordered ordered fits.1) fits.2

theorem everyStepFits_take {self : NetworkConfig P} {cmds : List (Insertion P)}
    (fits : EveryStepFits self cmds) (n : Nat) : EveryStepFits self (cmds.take n) := by
  induction cmds generalizing self n with
  | nil => simpa using fits
  | cons cmd rest ih =>
    cases n with
    | zero => trivial
    | succ n => exact ⟨fits.1, ih fits.2 n⟩

/-- In all states of a run whose `Deny` policies find their places they stand before the `Allow`
policies. -/
theorem run_denyFirst (peer_container : PeerContainer E) (cmds : List (Insertion P))
    (fits : EveryStepFits ⟨peer_container, .init⟩ cmds) (n : Nat) :
    DenyFirst (istioPolicies ((cmds.take n).foldl insertionStep ⟨peer_container, .init⟩)) :=
  (run_ordered (empty_ordered peer_container) (everyStepFits_take fits n)).2

/-- A Sidecar that lets everything out of the pod. -/
def podSidecar : Policy (FlowSet PeerKind Unit) :=
  .sidecar
    { name := "sidecar"
      policy_namespace := some "default"
      selected_peers := {.pod}
      affects_ingress := false
      affects_egress := true
      policy_kind := .IstioSidecar
      default_sidecar := false
      egress_rules := [⟨makeConnProps { src_peers := some {.pod} }⟩]
      kind := rfl
      egress_inside := by simp [Inside, ConnectivityCube.Admits, capturedEnd] }

/-- An `Allow` policy, then a `Deny` policy, then a Sidecar. -/
def plainInsertions : List (Insertion (FlowSet PeerKind Unit)) :=
  [.append (podPolicy .Allow {.pod}), .append (podPolicy .Deny {.ipBlock}), .append podSidecar]

theorem run_denyFirst_plain : DenyFirst (istioPolicies
    (plainInsertions.foldl insertionStep ⟨⟨{.pod}⟩, .init⟩)) := by
  refine run_denyFirst ⟨{.pod}⟩ plainInsertions ⟨nofun, fun _ _ late => ?_, nofun, trivial⟩ 3
  have late : LateSidecar [podPolicy .Allow {.pod}] (podPolicy .Deny {.ipBlock}) := late
  obtain ⟨i, _, ⟨q, found, sidecar⟩, _⟩ := late
  cases i with
  | zero =>
    obtain rfl := Option.some.inj found
    exact sidecar
  | succ i => cases found

/-- A Sidecar after an `Allow` policy sends a `Deny` policy behind both. -/
theorem lateSidecar_not_denyFirst : ¬ DenyFirst (istioPolicies
    ([.append (podPolicy .Allow {.pod}), .append podSidecar,
      .append (podPolicy .Deny {.ipBlock})].foldl insertionStep ⟨⟨{.pod}⟩, .init⟩)) := by
  have placed : istioPolicies ([.append (podPolicy .Allow {.pod}), .append podSidecar,
      .append (podPolicy .Deny {.ipBlock})].foldl insertionStep ⟨⟨{.pod}⟩, .init⟩) =
      [podPolicy .Allow {.pod}, podSidecar, podPolicy .Deny {.ipBlock}] := rfl
  rw [placed]
  simp [DenyFirst, podPolicy, podSidecar, IsAllow, IsDeny]

end Runs
end Nca.NetworkConfig
