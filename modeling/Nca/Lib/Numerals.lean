import Mathlib.Data.String.Basic

/-!
Texts that end with a number. The number can be read off such a text if the part before it neither
begins nor ends with a digit.
-/

namespace Nca.Lib.Numerals

variable {a b : String} {i j : Nat}

/-- A text that neither begins nor ends with a digit. -/
structure Framed (text : String) : Prop where
  first : ∃ c ∈ text.toList.head?, c.isDigit = false
  last : ∃ c ∈ text.toList.getLast?, c.isDigit = false

theorem toList_number (i : Nat) : (toString i).toList = Nat.toDigits 10 i := by
  rw [Nat.toString_eq_repr, Nat.toList_repr]

theorem digit_of_number {c : Char} (inside : c ∈ (toString i).toList) : c.isDigit = true := by
  rw [toList_number] at inside
  exact Nat.isDigit_of_mem_toDigits (by decide) (by decide) inside

theorem number_inj (same : toString i = toString j) : i = j := by
  have digits := congrArg String.toList same
  rw [toList_number, toList_number] at digits
  rw [← Nat.ofDigitChars_ten_toDigits (n := i), digits, Nat.ofDigitChars_ten_toDigits]

theorem append_inj (same : a ++ toString i = a ++ toString j) : i = j := by
  have lists := congrArg String.toList same
  rw [String.toList_append, String.toList_append, List.append_cancel_left_eq] at lists
  exact number_inj (String.toList_injective lists)

/-- A framed text does not end with digits. -/
theorem suffix_nil (framed : Framed a) {before rest : List Char} (whole : a.toList = before ++ rest)
    (digits : ∀ c ∈ rest, c.isDigit = true) : rest = [] := by
  by_contra some
  obtain ⟨c, last, no_digit⟩ := framed.last
  rw [whole, List.getLast?_append_of_ne_nil _ some] at last
  have digit := digits c (List.mem_of_getLast? last)
  rw [no_digit] at digit
  cases digit

theorem framed_append_inj (framed : Framed a) (framed' : Framed b)
    (same : a ++ toString i = b ++ toString j) : a = b ∧ i = j := by
  have texts : a = b := by
    have lists := congrArg String.toList same
    rw [String.toList_append, String.toList_append] at lists
    rcases List.append_eq_append_iff.mp lists with ⟨rest, longer, number⟩ | ⟨rest, longer, number⟩
    · have none := suffix_nil framed' longer fun c inside =>
        digit_of_number (i := i) (number ▸ List.mem_append_left _ inside)
      rw [none, List.append_nil] at longer
      exact String.toList_injective longer.symm
    · have none := suffix_nil framed longer fun c inside =>
        digit_of_number (i := j) (number ▸ List.mem_append_left _ inside)
      rw [none, List.append_nil] at longer
      exact String.toList_injective longer
  subst texts
  exact ⟨rfl, append_inj same⟩

theorem number_ne (framed : Framed a) : toString i ≠ a ++ toString j := by
  intro same
  obtain ⟨c, first, no_digit⟩ := framed.first
  have inside : c ∈ (toString i).toList := by
    rw [same, String.toList_append]
    exact List.mem_append_left _ (List.mem_of_mem_head? first)
  have digit := digit_of_number inside
  rw [no_digit] at digit
  cases digit

end Nca.Lib.Numerals
