import RankPoly.Fresh

namespace RankPoly.Fresh

-- A name that some source of names has given out.
def Generated (name : String) : Prop :=
  ∃ (count : Nat) (asked : String), name = (refresh ⟨count⟩ asked).1

-- A name that this source of names has given out.
def Drew (fresh : Fresh) (name : String) : Prop :=
  ∃ count asked, count < fresh.next ∧ name = (refresh ⟨count⟩ asked).1

theorem Drew.generated {fresh : Fresh} {name : String} (h : fresh.Drew name) : Generated name := by
  obtain ⟨count, asked, -, rfl⟩ := h
  exact ⟨count, asked, rfl⟩

theorem Drew.mono {fresh later : Fresh} {name : String} (h : fresh.Drew name)
    (hle : fresh.next ≤ later.next) : later.Drew name := by
  obtain ⟨count, asked, hlt, rfl⟩ := h
  exact ⟨count, asked, by omega, rfl⟩

private theorem dot_not_mem_digits (count : Nat) : '.' ∉ Nat.toDigits 10 count := by
  intro hdot
  have hdigit := Nat.isDigit_of_mem_toDigits (by omega) (by omega) hdot
  revert hdigit
  decide

-- What stands behind the last dot of a name is the number it was given.
private theorem digits_of_refresh (count : Nat) (asked : String) :
    ((refresh ⟨count⟩ asked).1.toList.reverse.takeWhile (· ≠ '.')).reverse =
      Nat.toDigits 10 count := by
  have hdigits : ∀ digit ∈ (Nat.toDigits 10 count).reverse, decide (digit ≠ '.') = true := by
    intro digit hmem
    have hne : digit ≠ '.' := fun h => dot_not_mem_digits count (h ▸ List.mem_reverse.mp hmem)
    simpa using hne
  simp only [refresh, String.toList_ofList, List.reverse_append, List.reverse_cons,
    List.append_assoc]
  rw [List.takeWhile_append_of_pos hdigits]
  simp

-- No number is given twice, so two names are equal only if they were drawn at
-- the same time.
theorem count_eq_of_refresh_eq {count count' : Nat} {asked asked' : String}
    (h : (refresh ⟨count⟩ asked).1 = (refresh ⟨count'⟩ asked').1) : count = count' := by
  have hdigits : Nat.toDigits 10 count = Nat.toDigits 10 count' := by
    rw [← digits_of_refresh count asked, ← digits_of_refresh count' asked', h]
  rw [← Nat.ofDigitChars_ten_toDigits (n := count), hdigits, Nat.ofDigitChars_ten_toDigits]

theorem not_drew_refresh (fresh : Fresh) (asked : String) : ¬fresh.Drew (fresh.refresh asked).1 := by
  rintro ⟨count, asked', hlt, h⟩
  have := count_eq_of_refresh_eq h
  omega

theorem drew_refresh (fresh : Fresh) (asked : String) :
    (fresh.refresh asked).2.Drew (fresh.refresh asked).1 :=
  ⟨fresh.next, asked, Nat.lt_succ_self _, rfl⟩

@[simp] theorem refresh_next (fresh : Fresh) (asked : String) :
    (fresh.refresh asked).2.next = fresh.next + 1 := rfl

end RankPoly.Fresh
