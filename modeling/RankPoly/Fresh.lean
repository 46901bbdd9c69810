namespace RankPoly

-- The source of names for local variables and specializations. Each name ends
-- in a number that is used once.
structure Fresh where
  next : Nat := 0
  deriving DecidableEq, Repr

namespace Fresh

-- A name without the number at its end, if it has one after a dot and
-- something before.
def base (name : List Char) : List Char :=
  let backwards := name.reverse
  let number := backwards.takeWhile (· ≠ '.')
  match backwards.dropWhile (· ≠ '.') with
  | _ :: before =>
    if !before.isEmpty && !number.isEmpty && number.all Char.isDigit then before.reverse
    else name
  | [] => name

-- The name with the next number in place of its own.
def refresh (fresh : Fresh) (name : String) : String × Fresh :=
  (String.ofList (base name.toList ++ '.' :: Nat.toDigits 10 fresh.next), ⟨fresh.next + 1⟩)

end Fresh

end RankPoly
