import Mathlib.Data.List.ReduceOption
import Nca.Parsers.IngressHosts

/-!
The share of the default backend of an Ingress: the requests that no rule captures. What a rule
captures goes to the backend of the path that matches it best.
-/

namespace Nca.Parsers
open CoreDS Lib MinDFA

section Demand

variable {E : Type} [DecidableEq E] (cluster : Cluster E) (default_backend : Target E)

/-- The request is for a pod and a port of the target. -/
def Reaches (target : Target E) (x : Request E) : Prop :=
  (∃ peers, target.1 = some peers ∧ x.dst ∈ peers) ∧
    ∃ ports, target.2 = some ports ∧ ports.Has cluster x

/-- A path of a rule with its target, unless it is ignored. -/
def listedPath (path : Option IngressPath) : Option (ListedPath (Target E)) :=
  path.bind fun path =>
    match parsePathTarget cluster default_backend path with
    | .ok (some target) => some ⟨path.path.getD [], path.pathType, target⟩
    | _ => none

namespace IngressRule
variable (rule : IngressRule)

def listed : List (ListedPath (Target E)) :=
  match rule.http with
  | some (some paths) => paths.filterMap (listedPath cluster default_backend)
  | _ => []

def Captures (r : Str) : Prop := ∃ p ∈ rule.listed cluster default_backend, p.Matches r

/-- What a rule gives to a request by its own paths. -/
def Routes (x : Request E) : Prop :=
  HostMatches rule.host x.host ∧ ∃ p ∈ rule.listed cluster default_backend,
    Reaches cluster p.target x ∧ p.BestMatch (rule.listed cluster default_backend) x.path

/-- The rule is about the host. -/
def Serves (h : Str) : Prop := IsHost h ∧ HostMatches rule.host h

end IngressRule

namespace IngressSpec
variable (spec : IngressSpec)

def ruleList : List IngressRule :=
  match spec.rules with
  | .list rules => rules.reduceOption
  | _ => []

def defaultTarget : Target E :=
  match parseBackend cluster spec.defaultBackend true with
  | .ok (target, _) => target
  | .error _ => (none, none)

/-- What the Ingress is to allow: the requests that no rule captures go to the default backend, the
others to the path that matches them best. -/
def Allows (x : Request E) : Prop :=
  (Reaches cluster (spec.defaultTarget cluster) x ∧ ∀ rule ∈ spec.ruleList,
    HostMatches rule.host x.host → ¬ rule.Captures cluster (spec.defaultTarget cluster) x.path) ∨
  ∃ rule ∈ spec.ruleList, rule.Routes cluster (spec.defaultTarget cluster) x

end IngressSpec

/-- A backend that names a resource or a service. -/
def IngressBackend.Named (backend : IngressBackend) : Prop :=
  backend.resource = true ∨ backend.service ≠ none

/-- A rule whose own connections are right. -/
structure IngressRule.Regular (rule : IngressRule) : Prop where
  http : rule.http ≠ none
  named : ∀ paths, rule.http = some (some paths) →
    ∀ path ∈ paths, ∃ given, path = some given ∧ given.backend.Named
  known : ∀ h, rule.Serves h → ∀ p ∈ rule.listed cluster default_backend, p.target.1 ≠ none
  segregable : ∀ h, rule.Serves h → Segregable (rule.listed cluster default_backend)
  some_path : truthy default_backend.1 = true → ∀ h, rule.Serves h → rule.http ≠ some none →
    rule.listed cluster default_backend ≠ []
  some_rest : truthy default_backend.1 = true → ∀ h, rule.Serves h →
    ∃ r, IsPath r ∧ ¬ rule.Captures cluster default_backend r

/-- A resource whose default backend gets its share and no more. -/
structure IngressSpec.Regular (spec : IngressSpec) (default_backend : Target E) : Prop where
  given : spec.rules ≠ .null
  named : ∀ backend, spec.defaultBackend = some backend → backend.Named
  rule : ∀ rule ∈ spec.ruleList, rule.Regular cluster default_backend
  some_rule : truthy default_backend.1 = true → spec.rules ≠ .missing ∧ spec.rules ≠ .list []
  same_paths : truthy default_backend.1 = true → ∀ rule ∈ spec.ruleList, ∀ other ∈ spec.ruleList,
    ∀ h, rule.Serves h → other.Serves h → ∀ r, IsPath r →
      rule.Captures cluster default_backend r → other.Captures cluster default_backend r
  some_host : truthy default_backend.1 = true →
    (∃ h, IsHost h ∧ ∀ rule ∈ spec.ruleList, ¬ rule.Serves h) ∨
    ∀ rule ∈ spec.ruleList, ∀ h, rule.Serves h → ∀ r, IsPath r →
      ¬ rule.Captures cluster default_backend r

end Demand

section Errors

variable {E : Type} [DecidableEq E] {cluster : Cluster E} {default_backend : Target E}
  {unicode : Char → Bool}

/-- A target with peers has ports. -/
def Complete (target : Target E) : Prop := target.1 ≠ none → target.2 ≠ none

omit [DecidableEq E] in
theorem parseBackend_spec {backend : Option IngressBackend} {is_default : Bool}
    (named : ∀ given, backend = some given → given.Named) :
    Ends IsSyntaxError (parseBackend cluster backend is_default) fun result => Complete result.1 := by
  have unknown : ∀ b : Bool, Complete
      (if b = true then (((none, some .all), true) : Target E × Bool) else ((none, none), true)).1 := by
    intro b absent
    cases b <;> exact (absent rfl).elim
  unfold parseBackend
  cases backend with
  | none => exact ends_pure (unknown is_default)
  | some given =>
    dsimp only
    refine ends_ite (fun _ => ⟨_, rfl⟩) fun _ => ?_
    refine ends_ite (fun _ => ends_pure (unknown is_default)) fun noResource => ?_
    obtain ⟨service, found⟩ := Option.ne_none_iff_exists'.mp ((named given rfl).resolve_left noResource)
    rw [found]
    dsimp only
    cases service.name with
    | none => exact ⟨_, rfl⟩
    | some service_name =>
      cases service.port with
      | none => exact ⟨_, rfl⟩
      | some port =>
        dsimp only
        refine ends_ite (fun _ => ⟨_, rfl⟩) fun _ => ?_
        refine ends_ite (fun _ => ⟨_, rfl⟩) fun _ => ?_
        split
        · exact ends_pure fun absent => (absent rfl).elim
        · split
          · exact ends_pure fun absent => (absent rfl).elim
          · exact ends_pure fun _ => nofun

omit [DecidableEq E] in
theorem defaultTarget_complete {spec : IngressSpec}
    (named : ∀ backend, spec.defaultBackend = some backend → backend.Named) :
    Ends IsSyntaxError (parseBackend cluster spec.defaultBackend true) fun result =>
      spec.defaultTarget cluster = result.1 ∧ Complete (spec.defaultTarget cluster) := by
  have complete : Ends IsSyntaxError (parseBackend cluster spec.defaultBackend true) fun result =>
      Complete result.1 := parseBackend_spec named
  unfold IngressSpec.defaultTarget
  generalize parseBackend cluster spec.defaultBackend true = parsed at complete ⊢
  cases parsed with
  | error e => exact complete
  | ok result => exact ⟨rfl, complete⟩

theorem parsePathTarget_spec {path : IngressPath} (named : path.backend.Named)
    (complete : Complete default_backend) :
    Ends IsSyntaxError (parsePathTarget cluster default_backend path) fun target =>
      ∀ t, target = some t → Complete t := by
  unfold parsePathTarget
  refine ends_bind (parseBackend_spec fun given same => Option.some.inj same ▸ named) ?_
  rintro ⟨target, override_default⟩ complete'
  refine ends_ite (fun _ => ends_pure fun t same => Option.some.inj same ▸ complete') fun _ => ?_
  refine ends_ite (fun _ => ends_pure fun t same => Option.some.inj same ▸ complete) fun _ => ?_
  exact ends_pure nofun

theorem validatePathValue_spec (path_value : Str) :
    Ends IsSyntaxError (validatePathValue unicode path_value) fun _ => True := by
  unfold validatePathValue
  refine ends_ite (fun _ => ⟨_, rfl⟩) fun _ => ?_
  exact ends_ite (fun _ => ⟨_, rfl⟩) fun _ => ends_pure trivial

omit [DecidableEq E] in
theorem parse_spec (p : ListedPath (Target E)) :
    Ends IsSyntaxError (p.parse unicode) fun parsed => p.Valid unicode ∧ parsed = p.normal := by
  refine ends_iff.mpr ⟨fun e failed => ?_, fun parsed => ListedPath.parse_ok.mp⟩
  cases path : p.path with
  | nil =>
    unfold ListedPath.parse parsePathString at failed
    rw [path] at failed
    exact ⟨_, (Except.error.inj failed).symm⟩
  | cons c rest =>
    rw [ListedPath.parse_eq c rest path] at failed
    have validated : Ends IsSyntaxError (validatePathValue unicode p.path) fun _ => True :=
      validatePathValue_spec p.path
    cases result : validatePathValue unicode p.path with
    | ok _ =>
      rw [result] at failed
      cases failed
    | error e' =>
      rw [result] at failed validated
      rw [← Except.error.inj failed]
      exact validated

theorem parseIngressPath_spec {path : Option IngressPath} (complete : Complete default_backend)
    (named : ∃ given, path = some given ∧ given.backend.Named) :
    Ends IsSyntaxError (parseIngressPath cluster unicode default_backend path) fun parsed =>
      parsed = (listedPath cluster default_backend path).map ListedPath.normal ∧
      ∀ p, listedPath cluster default_backend path = some p → p.Valid unicode ∧ Complete p.target := by
  obtain ⟨given, rfl, named⟩ := named
  have target : Ends IsSyntaxError (parsePathTarget cluster default_backend given) fun target =>
      ∀ t, target = some t → Complete t := parsePathTarget_spec named complete
  have listed : listedPath cluster default_backend (some given) =
      match parsePathTarget cluster default_backend given with
      | .ok (some target) => some ⟨given.path.getD [], given.pathType, target⟩
      | _ => none := rfl
  unfold parseIngressPath
  dsimp only
  rw [listed]
  cases found : parsePathTarget cluster default_backend given with
  | error e =>
    rw [found] at target
    exact target
  | ok result =>
    rw [found] at target
    cases result with
    | none => exact ⟨rfl, nofun⟩
    | some t =>
      have same : parsePathString unicode given.path given.pathType t =
          ListedPath.parse unicode ⟨given.path.getD [], given.pathType, t⟩ := by
        cases given.path <;> rfl
      rw [ok_bind]
      refine ends_bind (same ▸ parse_spec ⟨given.path.getD [], given.pathType, t⟩) fun normal => ?_
      rintro ⟨valid, rfl⟩
      refine ends_pure ⟨rfl, fun p listed => ?_⟩
      rw [← Option.some.inj listed]
      exact ⟨valid, target t rfl⟩

theorem parsed_listed {paths : List (Option IngressPath)} (complete : Complete default_backend)
    (named : ∀ path ∈ paths, ∃ given, path = some given ∧ given.backend.Named) :
    Ends IsSyntaxError (paths.mapM (parseIngressPath cluster unicode default_backend)) fun parsed =>
      parsed.reduceOption =
        (paths.filterMap (listedPath cluster default_backend)).map ListedPath.normal ∧
      ∀ p ∈ paths.filterMap (listedPath cluster default_backend),
        p.Valid unicode ∧ Complete p.target := by
  refine ends_mono (ends_mapM fun path member =>
    parseIngressPath_spec complete (named path member)) fun parsed each => ?_
  clear named
  induction each with
  | nil => exact ⟨rfl, List.forall_mem_nil _⟩
  | @cons path result paths results first _ ih =>
    obtain ⟨rfl, valid⟩ := first
    obtain ⟨same, valids⟩ := ih
    cases listed : listedPath cluster default_backend path with
    | none =>
      rw [List.filterMap_cons_none listed]
      exact ⟨same, valids⟩
    | some p =>
      rw [List.filterMap_cons_some listed, List.map_cons, Option.map_some,
        List.reduceOption_cons_of_some, same]
      exact ⟨rfl, List.forall_mem_cons.mpr ⟨valid p listed, valids⟩⟩

end Errors

section Connections

variable {E D P : Type}

theorem resolved_hosts {cluster : Cluster E} (cube : IngressCube E D) :
    (cube.resolved cluster).hosts = cube.hosts := by
  unfold IngressCube.resolved
  split
  · split <;> rfl
  · rfl

variable [MinDFA D] {cluster : Cluster E}

/-- The host of a request is among those of a dimension. -/
def HostIn (hosts : Option D) (h : Str) : Prop := ∀ dfa, hosts = some dfa → h ∈ dfa

variable [IngressConns P E D cluster]

theorem mem_makeConnProps {cube : IngressCube E D} {x : Request E} :
    x ∈ (makeConnProps cube : P) ↔ cube.Admits cluster x :=
  IngressConns.contains_make cube x

theorem admits_iff {target : Target E} (known : target.1 ≠ none) (complete : Complete target)
    {hosts paths : Option D} {x : Request E} :
    (⟨target.2, target.1, hosts, paths⟩ : IngressCube E D).Admits cluster x ↔
      Reaches cluster target x ∧ HostIn hosts x.host ∧ ∀ dfa, paths = some dfa → x.path ∈ dfa := by
  obtain ⟨peers, given⟩ := Option.ne_none_iff_exists'.mp known
  obtain ⟨ports, given'⟩ := Option.ne_none_iff_exists'.mp (complete known)
  simp only [IngressCube.Admits, Reaches, HostIn, given, given', Option.some.injEq,
    forall_eq', exists_eq_left', and_assoc]
  exact and_left_comm

section Paths

variable {es : List (PathDfa D (Target E))} {state : IngressCube E D × P × Option D} {x : Request E}

theorem addPath_hosts : ((es.foldl (addPath cluster) state).1).hosts = state.1.hosts := by
  induction es generalizing state with
  | nil => rfl
  | cons e rest ih =>
    rw [List.foldl_cons, ih]
    exact resolved_hosts _

theorem addPath_host (member : x ∈ (es.foldl (addPath cluster) state).2.1) :
    x ∈ state.2.1 ∨ HostIn state.1.hosts x.host := by
  induction es generalizing state with
  | nil => exact Or.inl member
  | cons e rest ih =>
    rw [List.foldl_cons] at member
    rcases ih member with added | host
    · refine (ExactSet.mem_union.mp added).imp_right fun admitted => ?_
      exact (mem_makeConnProps.mp admitted).2.2.1
    · rw [show (addPath cluster state e).1.hosts = state.1.hosts from resolved_hosts _] at host
      exact Or.inr host

theorem mem_addPath (known : ∀ e ∈ es, e.target.1 ≠ none ∧ Complete e.target) :
    x ∈ (es.foldl (addPath cluster) state).2.1 ↔ x ∈ state.2.1 ∨
      HostIn state.1.hosts x.host ∧ ∃ e ∈ es, Reaches cluster e.target x ∧ x.path ∈ e.path_dfa := by
  induction es generalizing state with
  | nil => simp
  | cons e rest ih =>
    obtain ⟨⟨peers, complete⟩, others⟩ := List.forall_mem_cons.mp known
    have admitted : x ∈ (makeConnProps (state.1.update e.target e.path_dfa) : P) ↔
        Reaches cluster e.target x ∧ HostIn state.1.hosts x.host ∧ x.path ∈ e.path_dfa := by
      have updated : state.1.update e.target e.path_dfa =
          ⟨e.target.2, e.target.1, state.1.hosts, some e.path_dfa⟩ := by
        obtain ⟨pods, given⟩ := Option.ne_none_iff_exists'.mp peers
        obtain ⟨ports, given'⟩ := Option.ne_none_iff_exists'.mp (complete peers)
        simp [IngressCube.update, given, given']
      rw [updated, mem_makeConnProps, admits_iff peers complete]
      simp
    have conns : x ∈ (addPath cluster state e).2.1 ↔ x ∈ state.2.1 ∨
        x ∈ (makeConnProps (state.1.update e.target e.path_dfa) : P) := ExactSet.mem_union
    rw [List.foldl_cons, ih others, conns, admitted,
      show (addPath cluster state e).1.hosts = state.1.hosts from resolved_hosts _]
    simp only [List.mem_cons, exists_eq_or_imp]
    tauto

theorem mem_all_paths {r : Str} : OptMem (es.foldl (addPath cluster) state).2.2 r ↔
    OptMem state.2.2 r ∨ ∃ e ∈ es, r ∈ e.path_dfa := by
  induction es generalizing state with
  | nil => simp
  | cons e rest ih =>
    have added : OptMem (addPath cluster state e).2.2 r ↔ r ∈ addDfa state.2.2 e.path_dfa := by
      simp [OptMem, addPath]
    rw [List.foldl_cons, ih, added, mem_addDfa]
    simp only [List.mem_cons, exists_eq_or_imp, or_assoc]

theorem all_paths_some (given : es ≠ [] ∨ state.2.2 ≠ none) :
    (es.foldl (addPath cluster) state).2.2 ≠ none := by
  induction es generalizing state with
  | nil => exact given.resolve_left fun some => some rfl
  | cons e rest ih =>
    rw [List.foldl_cons]
    exact ih (Or.inr nofun)

end Paths

variable [DecidableEq E] {default_backend : Target E} {unicode : Char → Bool}

theorem reaches_truthy {target : Target E} {x : Request E} (reaches : Reaches cluster target x) :
    truthy target.1 = true := by
  obtain ⟨⟨peers, found, member⟩, _⟩ := reaches
  rw [found, truthy, decide_eq_true_iff]
  exact Finset.ne_empty_of_mem member

theorem truthy_known {peers : Option (PeerSet E)} (given : truthy peers = true) : peers ≠ none := by
  rintro rfl
  cases given

theorem mem_default {hosts paths : Option D} {x : Request E} (complete : Complete default_backend) :
    x ∈ (makeDefaultConnections cluster default_backend hosts paths : P) ↔
      Reaches cluster default_backend x ∧ HostIn (ifNonEmpty hosts) x.host ∧
        ∀ dfa, ifNonEmpty paths = some dfa → x.path ∈ dfa := by
  unfold makeDefaultConnections
  by_cases given : truthy default_backend.1 = true
  · rw [if_pos given, mem_makeConnProps, admits_iff (truthy_known given) complete]
  · rw [if_neg given]
    refine iff_of_false ExactSet.not_mem_empty fun ⟨reaches, _⟩ => ?_
    exact given (reaches_truthy reaches)

section Rule

variable {rule : IngressRule} {hosts_dfa : Option D} {x : Request E} {r : Str}

variable (P cluster default_backend hosts_dfa) in
/-- The state after the loop over the listed paths of a rule. -/
def pathsState (rule : IngressRule) : IngressCube E D × P × Option D :=
  (segregateLongestPathsAndMakeDfa ((rule.listed cluster default_backend).map
    ListedPath.normal)).foldl (addPath cluster) ({ hosts := hosts_dfa }, ∅, none)

variable (regular : rule.Regular cluster default_backend) (host : ParsedHost rule.host hosts_dfa)
  (valid : ∀ p ∈ rule.listed cluster default_backend, p.Valid unicode ∧ Complete p.target)
include regular host valid

theorem mem_pathConns : x ∈ (pathsState P cluster default_backend hosts_dfa rule).2.1 ↔
    rule.Routes cluster default_backend x := by
  by_cases matched : HostMatches rule.host x.host
  · have serves : rule.Serves x.host := ⟨x.valid_host, matched⟩
    have known : ∀ e ∈ (segregateLongestPathsAndMakeDfa ((rule.listed cluster default_backend).map
        ListedPath.normal) : List (PathDfa D (Target E))), e.target.1 ≠ none ∧ Complete e.target := by
      intro e member
      obtain ⟨_, p, listed, target, _⟩ := segregated_listed member
      have among := List.mem_of_getElem? listed
      rw [target]
      exact ⟨regular.known _ serves p among, (valid p among).2⟩
    rw [pathsState, mem_addPath known, IngressRule.Routes,
      segregated_best (fun p member => (valid p member).1) (regular.segregable _ serves)
        x.valid_path fun target => Reaches cluster target x]
    have inside : HostIn hosts_dfa x.host := (host.matched _ x.valid_host).mpr matched
    simp [inside, matched]
  · refine iff_of_false (fun member => ?_) fun routes => matched routes.1
    have inside := (addPath_host member).resolve_left ExactSet.not_mem_empty
    exact matched ((host.matched _ x.valid_host).mp inside)

omit host in
theorem all_paths_captured (serves : rule.Serves x.host) (path : IsPath r) :
    OptMem (pathsState P cluster default_backend hosts_dfa rule).2.2 r ↔
      rule.Captures cluster default_backend r := by
  have captured := segregated_captured (D := D) (fun p member => (valid p member).1)
    (regular.segregable _ serves) path
  rw [pathsState, mem_all_paths, captured, IngressRule.Captures]
  simp [OptMem]

/-- The share of the default backend in the paths that the rule leaves. -/
theorem mem_remainder {all_paths_dfa : D} (complete : Complete default_backend)
    (all : (pathsState P cluster default_backend hosts_dfa rule).2.2 = some all_paths_dfa) :
    x ∈ (makeDefaultConnections cluster default_backend hosts_dfa
      (some (pathDomain \ all_paths_dfa)) : P) ↔
    HostMatches rule.host x.host ∧ Reaches cluster default_backend x ∧
      ¬ rule.Captures cluster default_backend x.path := by
  rw [mem_default complete, ← host.present, HostIn, host.matched _ x.valid_host, and_left_comm]
  refine and_congr_right fun matched => and_congr_right fun reaches => ?_
  have serves : rule.Serves x.host := ⟨x.valid_host, matched⟩
  have rest : ∀ r, IsPath r → (r ∈ (pathDomain \ all_paths_dfa : D) ↔
      ¬ rule.Captures cluster default_backend r) := by
    intro r path
    have captured : OptMem (pathsState P cluster default_backend hosts_dfa rule).2.2 r ↔ _ :=
      all_paths_captured regular valid serves path
    rw [ExactSet.mem_sdiff, mem_pathDomain, ← captured, all]
    simp [path, OptMem]
  obtain ⟨r, path, free⟩ := regular.some_rest (reaches_truthy reaches) _ serves
  rw [ifNonEmpty_of_mem ((rest r path).mpr free), ← rest x.path x.valid_path]
  simp

end Rule

/-- What a rule gives to a request: by its own paths, or as the share of the default backend. -/
def IngressRule.Gives (cluster : Cluster E) (default_backend : Target E) (rule : IngressRule)
    (x : Request E) : Prop :=
  rule.Routes cluster default_backend x ∨ HostMatches rule.host x.host ∧
    Reaches cluster default_backend x ∧ ¬ rule.Captures cluster default_backend x.path

theorem parseRule_spec {rule : IngressRule} (regular : rule.Regular cluster default_backend)
    (complete : Complete default_backend) :
    Ends IsSyntaxError
      (parseRule cluster unicode default_backend (some rule) : Except ParseError (P × Option D))
      fun result => ParsedHost rule.host result.2 ∧
        ∀ x, x ∈ result.1 ↔ rule.Gives cluster default_backend x := by
  unfold parseRule
  dsimp only
  refine ends_bind (parseRegexHostValue_spec rule.host) fun hosts_dfa host => ?_
  cases http : rule.http with
  | none => exact (regular.http http).elim
  | some given =>
    cases given with
    | none =>
      have listed : rule.listed cluster default_backend = [] := by
        unfold IngressRule.listed
        rw [http]
      refine ends_pure ⟨host, fun x => ?_⟩
      rw [ExactSet.mem_union, mem_default complete, ← host.present, HostIn,
        host.matched _ x.valid_host]
      simp [IngressRule.Gives, IngressRule.Routes, IngressRule.Captures, listed, ifNonEmpty,
        and_comm]
    | some paths_array =>
      have listed : rule.listed cluster default_backend =
          paths_array.filterMap (listedPath cluster default_backend) := by
        unfold IngressRule.listed
        rw [http]
      have parsed : Ends IsSyntaxError
          (paths_array.mapM (parseIngressPath cluster unicode default_backend)) _ :=
        parsed_listed complete (regular.named _ http)
      rw [← listed] at parsed
      cases paths_array with
      | nil => exact ⟨_, rfl⟩
      | cons path paths =>
        refine ends_bind parsed fun path_resources => ?_
        rintro ⟨same, valid⟩
        rw [same]
        have state : (segregateLongestPathsAndMakeDfa ((rule.listed cluster default_backend).map
            ListedPath.normal)).foldl (addPath cluster) ({ hosts := hosts_dfa }, (∅ : P), none) =
            pathsState P cluster default_backend hosts_dfa rule := rfl
        rw [state]
        cases all : (pathsState P cluster default_backend hosts_dfa rule).2.2 with
        | none =>
          refine ends_pure ⟨host, fun x => ?_⟩
          have empty : rule.listed cluster default_backend = [] := by
            by_contra given
            exact all_paths_some (Or.inl fun absent => given (segregated_nil absent)) all
          have noShare : ¬ (HostMatches rule.host x.host ∧ Reaches cluster default_backend x ∧
              ¬ rule.Captures cluster default_backend x.path) := by
            rintro ⟨matched, reaches, _⟩
            refine regular.some_path (reaches_truthy reaches) _ ⟨x.valid_host, matched⟩ ?_ empty
            simp [http]
          rw [ExactSet.mem_union, mem_pathConns regular host valid]
          simp [IngressRule.Gives, noShare]
        | some all_paths_dfa =>
          refine ends_pure ⟨host, fun x => ?_⟩
          rw [ExactSet.mem_union, mem_pathConns regular host valid,
            mem_remainder regular host valid complete all, IngressRule.Gives]

/-- The state of the loop over the rules after some of them. -/
structure RulesAdded (cluster : Cluster E) [IngressConns P E D cluster] (default_backend : Target E)
    (rules : List (Option IngressRule)) (state : P × Option D) : Prop where
  conns : ∀ x, x ∈ state.1 ↔ ∃ rule ∈ rules.reduceOption, rule.Gives cluster default_backend x
  hosts : ∀ h, IsHost h → (OptMem state.2 h ↔ ∃ rule ∈ rules.reduceOption, HostMatches rule.host h)
  given : rules ≠ [] → state.2 ≠ none

theorem addRule_spec {rules : List (Option IngressRule)} {state : P × Option D}
    {ingress_rule : Option IngressRule} (complete : Complete default_backend)
    (regular : ∀ rule, ingress_rule = some rule → rule.Regular cluster default_backend)
    (added : RulesAdded cluster default_backend rules state) :
    Ends IsSyntaxError (addRule cluster unicode default_backend state ingress_rule)
      (RulesAdded cluster default_backend (rules ++ [ingress_rule])) := by
  unfold addRule
  cases ingress_rule with
  | none => exact ⟨_, rfl⟩
  | some rule =>
    have members : ∀ given, given ∈ (rules ++ [some rule]).reduceOption ↔
        given ∈ rules.reduceOption ∨ given = rule := by
      simp [List.reduceOption_append]
    refine ends_bind (parseRule_spec (regular rule rfl) complete) ?_
    rintro ⟨conns, hosts_dfa⟩ ⟨host, gives⟩
    refine ends_pure ⟨fun x => ?_, fun h inside => ?_, fun _ => nofun⟩
    · simp only [ExactSet.mem_union, added.conns, gives, members, or_and_right, exists_or,
        exists_eq_left]
    · have matched := host.matched h inside
      have present := host.present
      dsimp only at matched present ⊢
      simp only [members, or_and_right, exists_or, exists_eq_left]
      rw [← present, ← matched, ← added.hosts h inside]
      cases hosts_dfa with
      | none => simp [OptMem, mem_hostDomain.mpr inside]
      | some dfa =>
        simp only [Option.some.injEq, forall_eq']
        rw [← mem_addDfa]
        simp [OptMem]

section Policy

variable {spec : IngressSpec} {x : Request E}
  (regular : spec.Regular cluster (spec.defaultTarget cluster))
include regular

omit [IngressConns P E D cluster] in
theorem allows_of_gives {rule : IngressRule} (member : rule ∈ spec.ruleList)
    (gives : rule.Gives cluster (spec.defaultTarget cluster) x) : spec.Allows cluster x := by
  rcases gives with routes | ⟨matched, reaches, free⟩
  · exact Or.inr ⟨rule, member, routes⟩
  · refine Or.inl ⟨reaches, fun other among matched' captures => free ?_⟩
    exact regular.same_paths (reaches_truthy reaches) other among rule member _
      ⟨x.valid_host, matched'⟩ ⟨x.valid_host, matched⟩ _ x.valid_path captures

theorem allows_of_share {all_hosts_dfa : D}
    (hosts : ∀ h, IsHost h → (h ∈ all_hosts_dfa ↔ ∃ rule ∈ spec.ruleList, HostMatches rule.host h))
    (reaches : Reaches cluster (spec.defaultTarget cluster) x)
    (inside : HostIn (ifNonEmpty (some (hostDomain \ all_hosts_dfa))) x.host) :
    spec.Allows cluster x := by
  refine Or.inl ⟨reaches, fun rule member matched => ?_⟩
  rcases regular.some_host (reaches_truthy reaches) with ⟨h, host, free⟩ | none
  · have rest : h ∈ hostDomain \ all_hosts_dfa := by
      rw [ExactSet.mem_sdiff, mem_hostDomain, hosts h host]
      refine ⟨host, ?_⟩
      rintro ⟨other, among, matched'⟩
      exact free other among ⟨host, matched'⟩
    rw [ifNonEmpty_of_mem rest] at inside
    have left := inside _ rfl
    rw [ExactSet.mem_sdiff, hosts _ x.valid_host] at left
    exact (left.2 ⟨rule, member, matched⟩).elim
  · exact none rule member _ ⟨x.valid_host, matched⟩ _ x.valid_path

end Policy

omit [IngressConns P E D cluster] in
theorem gives_of_allows {spec : IngressSpec} {x : Request E} {all_hosts_dfa : D}
    (hosts : ∀ h, IsHost h → (h ∈ all_hosts_dfa ↔ ∃ rule ∈ spec.ruleList, HostMatches rule.host h))
    (allows : spec.Allows cluster x) :
    (∃ rule ∈ spec.ruleList, rule.Gives cluster (spec.defaultTarget cluster) x) ∨
      Reaches cluster (spec.defaultTarget cluster) x ∧
        HostIn (ifNonEmpty (some (hostDomain \ all_hosts_dfa))) x.host := by
  rcases allows with ⟨reaches, free⟩ | ⟨rule, member, routes⟩
  · by_cases served : ∃ rule ∈ spec.ruleList, HostMatches rule.host x.host
    · obtain ⟨rule, member, matched⟩ := served
      exact Or.inl ⟨rule, member, Or.inr ⟨matched, reaches, free rule member matched⟩⟩
    · have rest : x.host ∈ hostDomain \ all_hosts_dfa := by
        rw [ExactSet.mem_sdiff, mem_hostDomain, hosts _ x.valid_host]
        exact ⟨x.valid_host, served⟩
      refine Or.inr ⟨reaches, ?_⟩
      rw [ifNonEmpty_of_mem rest]
      rintro _ ⟨⟩
      exact rest
  · exact Or.inl ⟨rule, member, Or.inl routes⟩

end Connections

/-- One service for the default backend and one for a path, with a pod each. -/
def twoServices : Cluster Bool where
  services name :=
    if name = "web" then some ⟨[⟨80, "http", .number 8080⟩], {false}⟩
    else if name = "api" then some ⟨[⟨80, "http", .number 8080⟩], {true}⟩
    else none
  named_ports _ _ := none
  last_named _ _ := none

def servicePort80 (name : String) : IngressBackend := ⟨false, some ⟨some name, some (none, some 80)⟩⟩

/-- A default backend, and a rule with one path. -/
def onePath : IngressSpec where
  defaultBackend := some (servicePort80 "web")
  rules := .list [some ⟨some ['a'], some (some [some ⟨servicePort80 "api", some ['/', 'x'], .Prefix⟩])⟩]

theorem onePath_listed {rule : IngressRule} (member : rule ∈ onePath.ruleList) :
    rule.host = some ['a'] ∧ rule.http =
      some (some [some ⟨servicePort80 "api", some ['/', 'x'], .Prefix⟩]) ∧
    rule.listed twoServices (onePath.defaultTarget twoServices) =
      [⟨['/', 'x'], .Prefix, (some {true}, some (.port (.number 8080)))⟩] := by
  obtain rfl := List.mem_singleton.mp member
  exact ⟨rfl, rfl, rfl⟩

theorem onePath_rule {rule : IngressRule} (member : rule ∈ onePath.ruleList) :
    rule.Regular twoServices (onePath.defaultTarget twoServices) := by
  obtain ⟨_, http, listed⟩ := onePath_listed member
  constructor
  · simp [http]
  · intro paths given path among
    rw [http] at given
    cases given
    obtain rfl := List.mem_singleton.mp among
    exact ⟨_, rfl, Or.inr nofun⟩
  · simp [listed]
  · intro _ _
    rw [listed]
    have slashes : ¬ ['/', '/'] <:+ ['/', 'x'] := by decide
    refine ⟨by simp, by simp [slashes], fun i j p q atI atJ differ => ?_⟩
    obtain ⟨bound, _⟩ := List.getElem?_eq_some_iff.mp atI
    obtain ⟨bound', _⟩ := List.getElem?_eq_some_iff.mp atJ
    simp only [List.length_singleton] at bound bound'
    omega
  · simp [listed]
  · intro _ _ _
    refine ⟨['/'], ⟨List.prefix_refl _, List.all_eq_true.mp rfl⟩, ?_⟩
    simp [IngressRule.Captures, listed, ListedPath.Matches, ListedPath.base, withoutTrailingSlash]

theorem onePath_regular : onePath.Regular twoServices (onePath.defaultTarget twoServices) := by
  refine ⟨nofun, ?_, fun rule => onePath_rule, fun _ => ⟨nofun, nofun⟩, ?_, fun _ => Or.inl ?_⟩
  · rintro _ ⟨⟩
    exact Or.inr nofun
  · intro _ rule member other among _ _ _ _ _
    rw [IngressRule.Captures, IngressRule.Captures, (onePath_listed member).2.2,
      (onePath_listed among).2.2]
    exact id
  · refine ⟨[], List.forall_mem_nil _, fun rule member serves => ?_⟩
    rcases serves.2 ['a'] (onePath_listed member).1 with star | globs
    · cases star
    · cases globs

/-- A default backend without rules. -/
def noRules : IngressSpec := ⟨some (servicePort80 "web"), .missing⟩

end Nca.Parsers
