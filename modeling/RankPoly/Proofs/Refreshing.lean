import RankPoly.Proofs.Fresh
import Mathlib.Data.List.Basic

namespace RankPoly.Fresh

-- The names that are given out for one name after the other.
def refreshAll (fresh : Fresh) : List String → List String × Fresh
  | [] => ([], fresh)
  | asked :: rest =>
    let (name, fresh) := fresh.refresh asked
    let (names, fresh) := refreshAll fresh rest
    (name :: names, fresh)

-- A name for which one is given out, for which another one is given out, and so on, when
-- the source has come to these numbers.
def refreshChain (name : String) (counts : List Nat) : String :=
  counts.foldl (fun name count => (refresh ⟨count⟩ name).1) name

-- A name with a number at its end, behind a dot, and something before the dot.
structure Numbered (name stem number : List Char) : Prop where
  eq : name = stem ++ '.' :: number
  stem_ne_nil : stem ≠ []
  number_ne_nil : number ≠ []
  digits : ∀ digit ∈ number, digit.isDigit = true

-- What stands before the dot of a numbered name. Any other name is its own stem.
def IsStem (stem name : List Char) : Prop :=
  (∃ number, Numbered name stem number) ∨
    stem = name ∧ ∀ stem' number, ¬Numbered name stem' number

variable {fresh : Fresh} {asked : List String} {name : String} {chars stem number : List Char}

theorem refreshAll_cons (fresh : Fresh) (first : String) (rest : List String) :
    (fresh.refreshAll (first :: rest)).1 =
      (fresh.refresh first).1 :: ((fresh.refresh first).2.refreshAll rest).1 :=
  rfl

theorem length_refreshAll (fresh : Fresh) (asked : List String) :
    (fresh.refreshAll asked).1.length = asked.length := by
  induction asked generalizing fresh with
  | nil => rfl
  | cons first rest ih => rw [refreshAll_cons, List.length_cons, ih, List.length_cons]

-- Each name has the number that the source has come to.
theorem getElem?_refreshAll (fresh : Fresh) (asked : List String) (i : Nat) :
    (fresh.refreshAll asked).1[i]? =
      asked[i]?.map fun first => (refresh ⟨fresh.next + i⟩ first).1 := by
  induction asked generalizing fresh i with
  | nil => rfl
  | cons first rest ih =>
      rw [refreshAll_cons]
      cases i with
      | zero => rfl
      | succ i =>
          rw [List.getElem?_cons_succ, List.getElem?_cons_succ, ih, refresh_next]
          have hcount : fresh.next + 1 + i = fresh.next + (i + 1) := by omega
          rw [hcount]

theorem exists_count_of_mem (h : name ∈ (fresh.refreshAll asked).1) :
    ∃ count first, fresh.next ≤ count ∧ name = (refresh ⟨count⟩ first).1 := by
  obtain ⟨i, hi⟩ := List.mem_iff_getElem?.mp h
  rw [getElem?_refreshAll, Option.map_eq_some_iff] at hi
  obtain ⟨first, -, rfl⟩ := hi
  exact ⟨fresh.next + i, first, by omega, rfl⟩

theorem nodup_refreshAll (fresh : Fresh) (asked : List String) :
    (fresh.refreshAll asked).1.Nodup := by
  induction asked generalizing fresh with
  | nil => exact List.nodup_nil
  | cons first rest ih =>
      rw [refreshAll_cons]
      apply List.nodup_cons.mpr
      refine ⟨fun hmem => ?_, ih _⟩
      obtain ⟨count, later, hle, heq⟩ := exists_count_of_mem hmem
      have hcount := count_eq_of_refresh_eq heq
      rw [refresh_next] at hle
      omega

theorem not_drew_of_mem (h : name ∈ (fresh.refreshAll asked).1) : ¬fresh.Drew name := by
  obtain ⟨count, first, hle, rfl⟩ := exists_count_of_mem h
  intro hdrew
  obtain ⟨count', first', hlt, heq⟩ := hdrew
  have hcount := count_eq_of_refresh_eq heq
  omega

-- Digits are no dots, so the last dot is the one before the number.
theorem base_of_numbered (h : Numbered chars stem number) : base chars = stem := by
  have hdigits : ∀ digit ∈ number.reverse, decide (digit ≠ '.') = true := by
    intro digit hmem
    have hdigit := h.digits digit (List.mem_reverse.mp hmem)
    apply decide_eq_true
    rintro rfl
    exact absurd hdigit (by decide)
  have hreverse : chars.reverse = number.reverse ++ '.' :: stem.reverse := by
    rw [h.eq]
    simp
  have htake : chars.reverse.takeWhile (· ≠ '.') = number.reverse := by
    rw [hreverse, List.takeWhile_append_of_pos hdigits]
    simp
  have hdrop : chars.reverse.dropWhile (· ≠ '.') = '.' :: stem.reverse := by
    rw [hreverse, List.dropWhile_append_of_pos hdigits]
    simp
  have hall : number.all Char.isDigit = true := List.all_eq_true.mpr h.digits
  simp only [base, htake, hdrop]
  simp [h.stem_ne_nil, h.number_ne_nil, hall]

theorem eq_append_of_dropWhile {dot : Char} {before : List Char}
    (h : chars.reverse.dropWhile (· ≠ '.') = dot :: before) :
    chars = before.reverse ++ '.' :: (chars.reverse.takeWhile (· ≠ '.')).reverse := by
  have hne : chars.reverse.dropWhile (· ≠ '.') ≠ [] := by
    rw [h]
    exact List.cons_ne_nil dot before
  have hdot : dot = '.' := by
    have hhead := List.head_dropWhile_not (· ≠ '.') hne
    simp only [h, List.head_cons] at hhead
    simpa using hhead
  subst hdot
  have happend : chars.reverse.takeWhile (· ≠ '.') ++ '.' :: before = chars.reverse := by
    rw [← h]
    exact List.takeWhile_append_dropWhile
  have hreverse := congrArg List.reverse happend
  simpa using hreverse.symm

-- Only a number is taken off, with the dot before it.
theorem numbered_or_base_eq (chars : List Char) :
    (∃ number, Numbered chars (base chars) number) ∨ base chars = chars := by
  simp only [base]
  split
  · rename_i dot before hdrop
    split
    · rename_i hnumber
      simp only [Bool.and_eq_true, Bool.not_eq_true', List.isEmpty_eq_false_iff,
        List.all_eq_true] at hnumber
      obtain ⟨⟨hbefore, hnumber⟩, hdigits⟩ := hnumber
      refine Or.inl ⟨_, eq_append_of_dropWhile hdrop, ?_, ?_, fun digit hmem => ?_⟩
      · exact List.reverse_ne_nil_iff.mpr hbefore
      · exact List.reverse_ne_nil_iff.mpr hnumber
      · exact hdigits digit (List.mem_reverse.mp hmem)
    · exact Or.inr rfl
  · exact Or.inr rfl

theorem isStem_base (chars : List Char) : IsStem (base chars) chars := by
  by_cases h : ∃ stem number, Numbered chars stem number
  · obtain ⟨stem, number, h⟩ := h
    rw [base_of_numbered h]
    exact Or.inl ⟨number, h⟩
  · cases numbered_or_base_eq chars with
    | inl hnumber => exact Or.inl hnumber
    | inr heq => exact Or.inr ⟨heq, fun stem number hnumber => h ⟨stem, number, hnumber⟩⟩

theorem base_ne_nil (h : chars ≠ []) : base chars ≠ [] := by
  cases numbered_or_base_eq chars with
  | inl hnumber =>
      obtain ⟨number, hnumber⟩ := hnumber
      exact hnumber.stem_ne_nil
  | inr heq => rwa [heq]

-- What is asked for matters as far as its stem goes.
theorem refresh_of_base_eq {name' : String} (fresh : Fresh)
    (h : base name.toList = base name'.toList) : fresh.refresh name = fresh.refresh name' := by
  unfold refresh
  rw [h]

section Chain

variable (hname : name ≠ "")
include hname

-- Without a name there would be nothing before the dot, which then would stay.
theorem numbered_refresh (count : Nat) :
    Numbered (refresh ⟨count⟩ name).1.toList (base name.toList) (Nat.toDigits 10 count) where
  eq := String.toList_ofList
  stem_ne_nil := base_ne_nil (mt String.toList_eq_nil_iff.mp hname)
  number_ne_nil := Nat.toDigits_ne_nil
  digits _ hmem := Nat.isDigit_of_mem_toDigits (by omega) (by omega) hmem

theorem base_refresh (count : Nat) :
    base (refresh ⟨count⟩ name).1.toList = base name.toList :=
  base_of_numbered (numbered_refresh hname count)

theorem refresh_ne_empty (count : Nat) : (refresh ⟨count⟩ name).1 ≠ "" := by
  intro h
  have hnumbered := (numbered_refresh hname count).eq
  rw [h] at hnumbered
  simp at hnumbered

theorem refresh_refresh (fresh fresh' : Fresh) :
    fresh'.refresh (fresh.refresh name).1 = fresh'.refresh name :=
  refresh_of_base_eq fresh' (base_refresh hname fresh.next)

theorem refreshChain_concat (counts : List Nat) (last : Nat) :
    refreshChain name (counts ++ [last]) = (refresh ⟨last⟩ name).1 := by
  induction counts generalizing name with
  | nil => rfl
  | cons count rest ih =>
      have hstep : refreshChain name (count :: rest ++ [last]) =
          refreshChain (refresh ⟨count⟩ name).1 (rest ++ [last]) := rfl
      rw [hstep, ih (refresh_ne_empty hname count), refresh_refresh hname]

end Chain

-- A source never gives a name twice, whatever it is asked for, nor one that it has given
-- before. A name that is refreshed time and again has its stem and the last number: the
-- numbers in between are gone.
theorem refresh_new_and_stable :
    (∀ (fresh : Fresh) (asked : List String),
      (fresh.refreshAll asked).1.length = asked.length ∧ (fresh.refreshAll asked).1.Nodup ∧
        ∀ name ∈ (fresh.refreshAll asked).1, ¬fresh.Drew name) ∧
    ∀ name : String, name ≠ "" →
      (∀ fresh fresh' : Fresh,
        fresh'.refresh (fresh.refresh name).1 = fresh'.refresh name) ∧
      ∃ stem, stem ≠ [] ∧ IsStem stem name.toList ∧ ∀ counts last,
        refreshChain name (counts ++ [last]) =
            String.ofList (stem ++ '.' :: Nat.toDigits 10 last) ∧
          IsStem stem (refreshChain name (counts ++ [last])).toList := by
  refine ⟨fun fresh asked => ⟨length_refreshAll fresh asked, nodup_refreshAll fresh asked,
    fun name => not_drew_of_mem⟩, fun name hname => ⟨refresh_refresh hname, ?_⟩⟩
  have hstem := base_ne_nil (mt String.toList_eq_nil_iff.mp hname)
  refine ⟨base name.toList, hstem, isStem_base name.toList, fun counts last => ?_⟩
  rw [refreshChain_concat hname]
  exact ⟨rfl, Or.inl ⟨_, numbered_refresh hname last⟩⟩

-- Only the last number is replaced, and a dot with nothing before it or behind it is not
-- taken for one before a number.
theorem dotted_refreshed :
    let fresh : Fresh := ⟨7⟩
    let asked := ["x.1.2", ".3", "a.", "", "x.1.7"]
    (fresh.refreshAll asked).1 = ["x.1.7", ".3.8", "a..9", ".10", "x.1.11"] ∧
      (fresh.refreshAll asked).1.Nodup ∧ ¬fresh.Drew "x.1.7" ∧ ".3" ≠ "" ∧
      fresh.refresh ((refresh ⟨4⟩ ".3").1) = fresh.refresh ".3" ∧
      ∃ stem, IsStem stem ".3".toList ∧
        refreshChain ".3" [4, 19, 2] = String.ofList (stem ++ ['.', '2']) ∧
        IsStem stem ".3.2".toList := by
  intro fresh asked
  obtain ⟨hnew, hstable⟩ := refresh_new_and_stable
  obtain ⟨-, hnodup, hdrew⟩ := hnew fresh asked
  obtain ⟨hagain, stem, -, hstem, hchain⟩ := hstable ".3" (by decide)
  obtain ⟨hlast, hkept⟩ := hchain [4, 19] 2
  have hnames : (fresh.refreshAll asked).1 = ["x.1.7", ".3.8", "a..9", ".10", "x.1.11"] := by
    decide +kernel
  refine ⟨hnames, hnodup, hdrew _ (hnames ▸ List.mem_cons_self), by decide, hagain ⟨4⟩ fresh,
    stem, hstem, hlast, ?_⟩
  have hname : refreshChain ".3" [4, 19, 2] = ".3.2" := by decide +kernel
  rw [← hname]
  exact hkept

-- What an empty name is refreshed to has nothing before its dot, so it counts as a stem.
example : refreshChain "" [0, 1, 2] = ".0.2" := by decide +kernel

end RankPoly.Fresh
