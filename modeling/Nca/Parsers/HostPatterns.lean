import Nca.Parsers.IngressHosts

/-!
Which hostnames the automaton of a host pattern has. A pattern without a star has itself; a pattern
`*.suffix` misses the hostnames whose first label has a dash.
-/

namespace Nca.Parsers
open CoreDS Lib MinDFA

/-- A letter, a digit or a dash. -/
def isHostnameChar (c : Char) : Bool := c.isAlphanum || c == '-'

/-- A label of a hostname. -/
def IsLabel (label : Str) : Prop := label ≠ [] ∧ ∀ c ∈ label, isHostnameChar c = true

/-- Labels with dots between them. -/
inductive IsHostname : Str → Prop
  | label {label : Str} (valid : IsLabel label) : IsHostname label
  | dot {label rest : Str} (valid : IsLabel label) (others : IsHostname rest) :
      IsHostname (label ++ '.' :: rest)

/-- One label, and then the suffix. -/
def BelowSuffix (suffix h : Str) : Prop := ∃ label, IsLabel label ∧ h = label ++ '.' :: suffix

variable {D : Type} [MinDFA D] {unicode : Char → Bool} {pattern suffix label h : Str} {hosts : D}

section Labels

theorem IsLabel.no_dot (valid : IsLabel label) : '.' ∉ label :=
  fun inside => absurd (valid.2 '.' inside) (by decide)

/-- Where two texts go on after their first dots, they agree before and after it. -/
theorem dot_cancel {t u v w : Str} (left : '.' ∉ t) (right : '.' ∉ u)
    (same : t ++ '.' :: v = u ++ '.' :: w) : t = u ∧ v = w := by
  induction t generalizing u with
  | nil =>
    cases u with
    | nil => exact ⟨rfl, (List.cons.inj same).2⟩
    | cons d u =>
      obtain ⟨rfl, _⟩ := List.cons.inj same
      exact (right List.mem_cons_self).elim
  | cons c t ih =>
    cases u with
    | nil =>
      obtain ⟨rfl, _⟩ := List.cons.inj same
      exact (left List.mem_cons_self).elim
    | cons d u =>
      rw [List.cons_append, List.cons_append, List.cons.injEq] at same
      obtain ⟨rfl, same⟩ := same
      rw [List.mem_cons, not_or] at left right
      obtain ⟨rfl, rest⟩ := ih left.2 right.2 same
      exact ⟨rfl, rest⟩

/-- What stands before the first dot of a hostname is a label, and a hostname follows. -/
theorem IsHostname.split (host : IsHostname (label ++ '.' :: suffix)) (noDot : '.' ∉ label) :
    IsLabel label ∧ IsHostname suffix := by
  generalize whole : label ++ '.' :: suffix = h at host
  cases host with
  | label valid =>
    apply absurd _ valid.no_dot
    rw [← whole]
    exact List.mem_append_right _ List.mem_cons_self
  | dot valid others =>
    obtain ⟨rfl, rfl⟩ := dot_cancel noDot valid.no_dot whole
    exact ⟨valid, others⟩

/-- A label that the class of the star reads has no dash. -/
theorem word_iff_no_dash (valid : IsLabel label) :
    (∀ c ∈ label, isWordChar c = true) ↔ '-' ∉ label := by
  constructor
  · intro word dash
    exact absurd (word '-' dash) (by decide)
  · intro noDash c inside
    have labelChar := valid.2 c inside
    rw [isHostnameChar, Bool.or_eq_true, beq_iff_eq] at labelChar
    rcases labelChar with letter | rfl
    · rw [isWordChar, letter, Bool.true_or]
    · exact (noDash inside).elim

end Labels

section Patterns

theorem globs_self (noStar : '*' ∉ pattern) : Globs pattern h ↔ h = pattern := by
  induction pattern generalizing h with
  | nil =>
    constructor
    · rintro ⟨⟩
      rfl
    · rintro rfl
      exact .nil
  | cons c rest ih =>
    rw [List.mem_cons, not_or] at noStar
    constructor
    · intro globs
      cases globs with
      | star => exact (noStar.1 rfl).elim
      | char _ others => rw [(ih noStar.2).mp others]
    · rintro rfl
      exact .char (Ne.symm noStar.1) ((ih noStar.2).mpr rfl)

theorem globs_star_suffix (noStar : '*' ∉ suffix) : Globs ('*' :: '.' :: suffix) h ↔
    ∃ run, (∀ c ∈ run, isWordChar c = true) ∧ h = run ++ '.' :: suffix := by
  have rest : '*' ∉ '.' :: suffix := by
    rw [List.mem_cons, not_or]
    exact ⟨by decide, noStar⟩
  constructor
  · intro globs
    cases globs with
    | star word others => exact ⟨_, word, by rw [(globs_self rest).mp others]⟩
    | char ordinary _ => exact (ordinary rfl).elim
  · rintro ⟨run, word, rfl⟩
    exact .star word ((globs_self rest).mpr rfl)

/-- A pattern that is accepted consists of the characters of hosts, and its automaton has what it
matches. -/
theorem mem_of_parsed (parsed : parseRegexHostValue unicode (some pattern) = .ok (some hosts))
    (proper : pattern ≠ ['*']) : h ∈ hosts ↔ Globs pattern h := by
  unfold parseRegexHostValue at parsed
  dsimp only at parsed
  rw [if_neg proper] at parsed
  by_cases legal : (pattern.all fun c =>
      c == '*' || c == '.' || isReWord unicode c || c == '/' || c == '-') = true
  · have valid : ∀ c ∈ pattern, HostChar unicode c := by
      intro c inside
      have allowed := List.all_eq_true.mp legal c inside
      simpa [HostChar, or_assoc] using allowed
    rw [legal, Bool.not_true, if_neg Bool.false_ne_true] at parsed
    rw [← mem_hostDfa (D := D) valid]
    by_cases star : '*' ∈ pattern.flatMap fun c => if c = '.' then "[.]".toList else [c]
    · rw [if_pos star] at parsed
      split at parsed
      · cases parsed
      · rw [escaped_replaced] at parsed
        rw [← Option.some.inj (Except.ok.inj parsed)]
    · rw [if_neg star, escaped_of_no_star star] at parsed
      rw [← Option.some.inj (Except.ok.inj parsed)]
  · rw [Bool.not_eq_true] at legal
    rw [legal] at parsed
    cases parsed

/-- At a hostname the automaton of `*.suffix` is right unless the first label has a dash. -/
theorem starSuffix_at (matched : h ∈ hosts ↔ Globs ('*' :: '.' :: suffix) h)
    (noStar : '*' ∉ suffix) (host : IsHostname h) :
    (h ∈ hosts ↔ BelowSuffix suffix h) ↔
      ¬ ∃ label, IsLabel label ∧ '-' ∈ label ∧ h = label ++ '.' :: suffix := by
  rw [matched, globs_star_suffix noStar]
  constructor
  · rintro same ⟨label, valid, dash, rfl⟩
    obtain ⟨run, word, whole⟩ := same.mpr ⟨label, valid, rfl⟩
    obtain rfl := List.append_cancel_right whole
    exact (word_iff_no_dash valid).mp word dash
  · intro noDash
    constructor
    · rintro ⟨run, word, rfl⟩
      have noDot : '.' ∉ run := fun inside => absurd (word '.' inside) (by decide)
      exact ⟨run, (host.split noDot).1, rfl⟩
    · rintro ⟨label, valid, rfl⟩
      refine ⟨label, (word_iff_no_dash valid).mpr fun dash => ?_, rfl⟩
      exact noDash ⟨label, valid, dash, rfl⟩

/-- The automaton of an accepted pattern has, among the hostnames, the pattern itself if there is no
star. For `*.suffix` it is right at a hostname unless a label with a dash precedes the suffix there,
and right everywhere only if the suffix is no hostname. -/
theorem hostPattern_hostnames
    (parsed : parseRegexHostValue unicode (some pattern) = .ok (some hosts)) :
    ('*' ∉ pattern → ∀ h, IsHostname h → (h ∈ hosts ↔ h = pattern)) ∧
    ∀ suffix, pattern = '*' :: '.' :: suffix → '*' ∉ suffix →
      (∀ h, IsHostname h → ((h ∈ hosts ↔ BelowSuffix suffix h) ↔
        ¬ ∃ label, IsLabel label ∧ '-' ∈ label ∧ h = label ++ '.' :: suffix)) ∧
      ((∀ h, IsHostname h → (h ∈ hosts ↔ BelowSuffix suffix h)) ↔ ¬ IsHostname suffix) := by
  constructor
  · intro noStar h _
    have proper : pattern ≠ ['*'] := fun star => noStar (star ▸ List.mem_cons_self)
    rw [mem_of_parsed parsed proper, globs_self noStar]
  · rintro suffix rfl noStar
    have at_ : ∀ h, IsHostname h → ((h ∈ hosts ↔ BelowSuffix suffix h) ↔
        ¬ ∃ label, IsLabel label ∧ '-' ∈ label ∧ h = label ++ '.' :: suffix) :=
      fun h host => starSuffix_at (mem_of_parsed parsed nofun) noStar host
    refine ⟨at_, ?_, ?_⟩
    · intro right host
      have dash : IsLabel ['-'] := ⟨nofun, by simp [isHostnameChar]⟩
      have dashed : IsHostname (['-'] ++ '.' :: suffix) := .dot dash host
      exact (at_ _ dashed).mp (right _ dashed) ⟨['-'], dash, List.mem_cons_self, rfl⟩
    · intro noHost h host
      rw [at_ h host]
      rintro ⟨label, valid, _, rfl⟩
      exact noHost (host.split valid.no_dot).2

/-- All subdomains of a domain. -/
def subdomains : Str := "*.shop.com".toList

theorem subdomains_hostnames :
    ∃ hosts : WordSet, parseRegexHostValue (fun _ => false) (some subdomains) = .ok (some hosts) ∧
      (∀ h, IsHostname h → ((h ∈ hosts ↔ BelowSuffix "shop.com".toList h) ↔
        ¬ ∃ label, IsLabel label ∧ '-' ∈ label ∧ h = label ++ '.' :: "shop.com".toList)) := by
  have parsed : parseRegexHostValue (D := WordSet) (fun _ => false) (some subdomains) =
      .ok (some (dfaFromRegex "[\\w]*[.]shop[.]com".toList)) := rfl
  exact ⟨_, parsed, ((hostPattern_hostnames parsed).2 _ rfl (by decide)).1⟩

/-- A host with a dash in its first label is lost. -/
theorem dashedHost_missed :
    ∃ hosts : WordSet, parseRegexHostValue (fun _ => false) (some subdomains) = .ok (some hosts) ∧
      IsHostname "my-app.shop.com".toList ∧
      BelowSuffix "shop.com".toList "my-app.shop.com".toList ∧
      "my-app.shop.com".toList ∉ hosts := by
  have parsed : parseRegexHostValue (D := WordSet) (fun _ => false) (some subdomains) =
      .ok (some (dfaFromRegex "[\\w]*[.]shop[.]com".toList)) := rfl
  have app : IsLabel "my-app".toList := by simp [IsLabel, isHostnameChar]
  have shop : IsLabel "shop".toList := by simp [IsLabel, isHostnameChar]
  have com : IsLabel "com".toList := by simp [IsLabel, isHostnameChar]
  have host : IsHostname "my-app.shop.com".toList := .dot app (.dot shop (.label com))
  have below : BelowSuffix "shop.com".toList "my-app.shop.com".toList := ⟨_, app, rfl⟩
  refine ⟨_, parsed, host, below, fun member => ?_⟩
  have globs := (mem_of_parsed parsed (by decide)).mp member
  obtain ⟨run, word, whole⟩ := (globs_star_suffix (by decide)).mp globs
  have noDot : '.' ∉ run := fun inside => absurd (word '.' inside) (by decide)
  obtain ⟨rfl, _⟩ := dot_cancel app.no_dot noDot (v := "shop.com".toList) whole
  exact absurd (word '-' (by decide)) (by decide)

end Patterns
end Nca.Parsers
