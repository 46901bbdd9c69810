import RankPoly.Signature.Grammar
import Mathlib.Data.List.TakeWhile

namespace RankPoly.Signature

-- The text does not go on with a character of a class.
def Stops (accepts : Char → Bool) (text : List Char) : Prop :=
  ∀ c ∈ text.head?, accepts c = false

section Stops

variable {accepts : Char → Bool} {word rest : List Char}

@[simp] theorem stops_nil : Stops accepts [] :=
  nofun

@[simp] theorem stops_cons {c : Char} : Stops accepts (c :: rest) ↔ accepts c = false := by
  simp [Stops]

theorem Stops.imp {accepts' : Char → Bool} (h : Stops accepts rest)
    (himp : ∀ c, accepts' c = true → accepts c = true) : Stops accepts' rest := by
  intro c hc
  have hout := h c hc
  cases hin : accepts' c with
  | false => rfl
  | true => simp [himp c hin] at hout

theorem takeWhile_eq_nil (h : Stops accepts rest) : rest.takeWhile accepts = [] := by
  cases rest with
  | nil => rfl
  | cons c rest => simp [stops_cons.mp h]

theorem takeWhile_append (hword : ∀ c ∈ word, accepts c = true) (hrest : Stops accepts rest) :
    (word ++ rest).takeWhile accepts = word := by
  rw [List.takeWhile_append_of_pos hword, takeWhile_eq_nil hrest, List.append_nil]

theorem stops_dropWhile (text : List Char) : Stops accepts (text.dropWhile accepts) := by
  induction text with
  | nil => exact stops_nil
  | cons c text ih =>
      rw [List.dropWhile_cons]
      split
      · exact ih
      · rename_i hc
        exact stops_cons.mpr (by simpa using hc)

theorem dropWhile_eq_self (h : Stops accepts rest) : rest.dropWhile accepts = rest := by
  cases rest with
  | nil => rfl
  | cons c rest => simp [stops_cons.mp h]

end Stops

namespace Cursor

-- The place behind any blanks.
def skip (cursor : Cursor) : Cursor :=
  cursor.advance (cursor.rest.takeWhile isBlank).length

variable {cursor : Cursor} {word : List Char}

@[simp] theorem advance_zero : cursor.advance 0 = cursor := rfl

theorem rest_advance (h : word <+: cursor.rest) :
    word ++ (cursor.advance word.length).rest = cursor.rest := by
  obtain ⟨rest, hrest⟩ := h
  simp [advance, ← hrest]

theorem rest_skip (cursor : Cursor) : cursor.skip.rest = cursor.rest.dropWhile isBlank := by
  have hrest : cursor.rest.takeWhile isBlank ++ cursor.skip.rest =
      cursor.rest.takeWhile isBlank ++ cursor.rest.dropWhile isBlank := by
    rw [List.takeWhile_append_dropWhile]
    exact rest_advance (List.takeWhile_prefix isBlank)
  exact List.append_cancel_left hrest

theorem stops_skip (cursor : Cursor) : Stops isBlank cursor.skip.rest := by
  rw [rest_skip]
  exact stops_dropWhile _

theorem skip_eq_self (h : Stops isBlank cursor.rest) : cursor.skip = cursor := by
  simp [skip, takeWhile_eq_nil h]

@[simp] theorem skip_skip (cursor : Cursor) : cursor.skip.skip = cursor.skip :=
  skip_eq_self cursor.stops_skip

theorem length_skip_le (cursor : Cursor) : cursor.skip.rest.length ≤ cursor.rest.length := by
  rw [rest_skip]
  exact List.length_dropWhile_le _ _

end Cursor

-- What can stand from one place to another.
abbrev Part (α : Type) := α → Cursor → Cursor → Prop

-- The text stands at a place, behind any blanks.
def Token (word : List Char) (start stop : Cursor) : Prop :=
  word <+: start.skip.rest ∧ stop = start.skip.advance word.length

namespace Token

variable {word : List Char} {c : Char} {start stop : Cursor}

theorem rest (h : Token word start stop) : start.skip.rest = word ++ stop.rest := by
  rw [h.2]
  exact (Cursor.rest_advance h.1).symm

theorem head (h : Token word start stop) (hword : word.head? = some c) :
    start.skip.rest.head? = some c := by
  simp [h.rest, hword]

theorem head_ne {c' : Char} (h : Token word start stop) (hword : word.head? = some c)
    (hne : c ≠ c') : start.skip.rest.head? ≠ some c' := by
  simpa [h.head hword] using hne

theorem shorter (h : Token word start stop) (hword : word ≠ []) :
    stop.rest.length < start.rest.length := by
  have hlength := congrArg List.length h.rest
  have hskip := start.length_skip_le
  have hpos := List.length_pos_iff.mpr hword
  rw [List.length_append] at hlength
  omega

@[simp] theorem skip_iff : Token word start.skip stop ↔ Token word start stop := by
  simp [Token]

-- Blanks, or else the text itself, are the first that is left.
theorem stops {accepts : Char → Bool} (h : Token word start stop) (hword : word.head? = some c)
    (hc : accepts c = false) (hblank : ∀ c, isBlank c = true → accepts c = false) :
    Stops accepts start.rest := by
  have hhead := h.head hword
  rw [Cursor.rest_skip] at hhead
  cases hstart : start.rest with
  | nil => exact stops_nil
  | cons first rest =>
      rw [hstart, List.dropWhile_cons] at hhead
      refine stops_cons.mpr ?_
      split at hhead
      · exact hblank first ‹_›
      · cases hhead
        exact hc

end Token

namespace Reader

variable {α β : Type}

-- The reader gets from a place to a later one with a result, whatever has failed before.
def Takes (reader : Reader α) : Part α := fun a start stop =>
  ∀ furthest, ∃ furthest', reader start furthest = (some (a, stop), furthest')

-- As before, for some record of what has failed.
def Gives (reader : Reader α) : Part α := fun a start stop =>
  ∃ furthest furthest', reader start furthest = (some (a, stop), furthest')

-- The reader has no result at a place.
def Fails (reader : Reader α) (start : Cursor) : Prop :=
  ∀ furthest, ∃ furthest', reader start furthest = (none, furthest')

theorem apply_bind (m : Reader α) (k : α → Reader β) (cursor : Cursor) (furthest : Furthest) :
    (m >>= k) cursor furthest =
      match m cursor furthest with
      | (some (a, later), furthest) => k a later furthest
      | (none, furthest) => (none, furthest) := by
  change (StateT.bind m k cursor : OptionT (StateM Furthest) _) furthest = _
  unfold StateT.bind
  change (OptionT.bind _ _ : OptionT (StateM Furthest) _) furthest = _
  unfold OptionT.bind OptionT.mk
  change StateT.bind _ _ furthest = _
  unfold StateT.bind
  simp only [bind]
  rcases m cursor furthest with ⟨_ | ⟨a, later⟩, furthest⟩ <;> rfl

theorem apply_orElse (m n : Reader α) (cursor : Cursor) (furthest : Furthest) :
    (m <|> n) cursor furthest =
      match m cursor furthest with
      | (some result, furthest) => (some result, furthest)
      | (none, furthest) => n cursor furthest := by
  change (OptionT.orElse (m cursor) fun _ => n cursor) furthest = _
  unfold OptionT.orElse OptionT.mk
  change StateT.bind _ _ furthest = _
  unfold StateT.bind
  simp only [bind]
  rcases m cursor furthest with ⟨_ | ⟨a, later⟩, furthest⟩ <;> rfl

section Rules

variable {m n : Reader α} {k : α → Reader β} {a a' : α} {b : β} {start mid stop stop' : Cursor}

theorem Takes.eq (h : Takes m a start stop) (h' : Gives m a' start stop') :
    a' = a ∧ stop' = stop := by
  obtain ⟨furthest, furthest', hread'⟩ := h'
  obtain ⟨furthest'', hread⟩ := h furthest
  rw [hread] at hread'
  cases hread'
  exact ⟨rfl, rfl⟩

theorem Fails.not_gives (h : Fails m start) : ¬Gives m a start stop := by
  rintro ⟨furthest, furthest', hread'⟩
  obtain ⟨furthest'', hread⟩ := h furthest
  rw [hread] at hread'
  cases hread'

theorem takes_pure (a : α) (start : Cursor) : Takes (pure a) a start start :=
  fun furthest => ⟨furthest, rfl⟩

theorem fails_failure (start : Cursor) : Fails (failure : Reader α) start :=
  fun furthest => ⟨furthest, rfl⟩

theorem takes_get (start : Cursor) : Takes get start start start :=
  fun furthest => ⟨furthest, rfl⟩

theorem takes_set (start stop : Cursor) : Takes (set stop) () start stop :=
  fun furthest => ⟨furthest, rfl⟩

theorem Takes.bind (h : Takes m a start mid) (hk : Takes (k a) b mid stop) :
    Takes (m >>= k) b start stop := by
  intro furthest
  obtain ⟨furthest', hread⟩ := h furthest
  obtain ⟨furthest'', hread'⟩ := hk furthest'
  refine ⟨furthest'', ?_⟩
  rw [apply_bind, hread]
  exact hread'

theorem Takes.fails_bind (h : Takes m a start mid) (hk : Fails (k a) mid) :
    Fails (m >>= k) start := by
  intro furthest
  obtain ⟨furthest', hread⟩ := h furthest
  obtain ⟨furthest'', hread'⟩ := hk furthest'
  refine ⟨furthest'', ?_⟩
  rw [apply_bind, hread]
  exact hread'

theorem Fails.bind (h : Fails m start) : Fails (m >>= k) start := by
  intro furthest
  obtain ⟨furthest', hread⟩ := h furthest
  exact ⟨furthest', by rw [apply_bind, hread]⟩

theorem Gives.of_bind (h : Gives (m >>= k) b start stop) :
    ∃ a mid, Gives m a start mid ∧ Gives (k a) b mid stop := by
  obtain ⟨furthest, furthest', hread⟩ := h
  rw [apply_bind] at hread
  rcases hm : m start furthest with ⟨_ | ⟨a, mid⟩, later⟩ <;> rw [hm] at hread
  · cases hread
  · exact ⟨a, mid, ⟨furthest, later, hm⟩, later, furthest', hread⟩

theorem Gives.of_pure (h : Gives (pure a) a' start stop) : a' = a ∧ stop = start :=
  (takes_pure a start).eq h

theorem Gives.of_get {k : Cursor → Reader β} (h : Gives (get >>= k) b start stop) :
    Gives (k start) b start stop := by
  obtain ⟨_, _, hget, hk⟩ := h.of_bind
  obtain ⟨rfl, rfl⟩ := (takes_get start).eq hget
  exact hk

theorem Takes.orElse (h : Takes m a start stop) : Takes (m <|> n) a start stop := by
  intro furthest
  obtain ⟨furthest', hread⟩ := h furthest
  exact ⟨furthest', by rw [apply_orElse, hread]⟩

theorem Fails.orElse_takes (h : Fails m start) (h' : Takes n a start stop) :
    Takes (m <|> n) a start stop := by
  intro furthest
  obtain ⟨furthest', hread⟩ := h furthest
  obtain ⟨furthest'', hread'⟩ := h' furthest'
  refine ⟨furthest'', ?_⟩
  rw [apply_orElse, hread]
  exact hread'

theorem Fails.orElse (h : Fails m start) (h' : Fails n start) : Fails (m <|> n) start := by
  intro furthest
  obtain ⟨furthest', hread⟩ := h furthest
  obtain ⟨furthest'', hread'⟩ := h' furthest'
  refine ⟨furthest'', ?_⟩
  rw [apply_orElse, hread]
  exact hread'

theorem Gives.of_orElse (h : Gives (m <|> n) a start stop) :
    Gives m a start stop ∨ Gives n a start stop := by
  obtain ⟨furthest, furthest', hread⟩ := h
  rw [apply_orElse] at hread
  rcases hm : m start furthest with ⟨_ | ⟨a, mid⟩, later⟩ <;> rw [hm] at hread
  · exact Or.inr ⟨later, furthest', hread⟩
  · cases hread
    exact Or.inl ⟨furthest, _, hm⟩

theorem Takes.rule (h : Takes m a start stop) (name : Rule) :
    Takes (Reader.rule name m) a start stop := by
  intro furthest
  obtain ⟨furthest', hread⟩ := h furthest
  refine ⟨furthest', ?_⟩
  unfold Reader.rule
  simp only [hread]

theorem Fails.rule (h : Fails m start) (name : Rule) : Fails (Reader.rule name m) start := by
  intro furthest
  obtain ⟨furthest', hread⟩ := h furthest
  unfold Reader.rule
  simp only [hread]
  exact ⟨_, rfl⟩

theorem Gives.of_rule {name : Rule} (h : Gives (Reader.rule name m) a start stop) :
    Gives m a start stop := by
  obtain ⟨furthest, furthest', hread⟩ := h
  unfold Reader.rule at hread
  rcases hm : m start furthest with ⟨_ | ⟨a, mid⟩, later⟩ <;> simp only [hm] at hread
  · cases hread
  · cases hread
    exact ⟨furthest, _, hm⟩

end Rules

section Text

variable {accepts : Char → Bool} {word : List Char} {start stop : Cursor}

theorem takes_run (accepts : Char → Bool) (start : Cursor) :
    Takes (run accepts) (start.rest.takeWhile accepts) start
      (start.advance (start.rest.takeWhile accepts).length) :=
  fun furthest => ⟨furthest, rfl⟩

-- A word is read as a whole if it does not go on behind its end.
theorem takes_run_of_token (h : Token word start stop) (hword : ∀ c ∈ word, accepts c = true)
    (hstop : Stops accepts stop.rest) : Takes (run accepts) word start.skip stop := by
  have hrun := takes_run accepts start.skip
  rw [h.rest, takeWhile_append hword hstop, ← h.2] at hrun
  exact hrun

theorem token_of_gives_run (h : Gives (run accepts) word start.skip stop) :
    Token word start stop ∧ ∀ c ∈ word, accepts c = true := by
  obtain ⟨rfl, rfl⟩ := (takes_run accepts start.skip).eq h
  exact ⟨⟨List.takeWhile_prefix accepts, rfl⟩, fun c hc => List.mem_takeWhile_imp hc⟩

theorem takes_blanks (start : Cursor) : Takes blanks () start start.skip :=
  (takes_run isBlank start).bind (takes_pure _ _)

theorem takes_symbol (h : Token word start stop) : Takes (symbol word) () start stop := by
  refine (takes_blanks start).bind ((takes_get _).bind ?_)
  rw [if_pos (List.isPrefixOf_iff_prefix.mpr h.1), h.2]
  exact takes_set _ _

theorem fails_symbol (h : ¬word <+: start.skip.rest) : Fails (symbol word) start := by
  refine (takes_blanks start).fails_bind ((takes_get _).fails_bind ?_)
  rw [if_neg (mt List.isPrefixOf_iff_prefix.mp h)]
  exact fails_failure _

theorem fails_symbol_of_head {c : Char} (hword : word.head? = some c)
    (h : start.skip.rest.head? ≠ some c) : Fails (symbol word) start :=
  fails_symbol fun hstands => h (Token.head ⟨hstands, rfl⟩ hword)

theorem Gives.token {u : Unit} (h : Gives (symbol word) u start stop) : Token word start stop := by
  by_cases hword : word <+: start.skip.rest
  · obtain ⟨-, rfl⟩ := (takes_symbol ⟨hword, rfl⟩).eq h
    exact ⟨hword, rfl⟩
  · exact ((fails_symbol hword).not_gives h).elim

end Text

section Items

variable {m : Reader α} {a : α} {start stop : Cursor} {name : Rule}

theorem Takes.item (h : Takes m a start.skip stop) (name : Rule) :
    Takes (item name m) a start stop :=
  (takes_blanks start).bind (h.rule name)

theorem Fails.item (h : Fails m start.skip) (name : Rule) : Fails (item name m) start :=
  (takes_blanks start).fails_bind (h.rule name)

-- Blanks are passed over only once.
theorem item_skip (name : Rule) (m : Reader α) (start : Cursor) :
    item name m start.skip = item name m start := by
  change Reader.rule name m start.skip.skip = Reader.rule name m start.skip
  rw [Cursor.skip_skip]

theorem takes_item_skip :
    Takes (item name m) a start.skip stop ↔ Takes (item name m) a start stop := by
  unfold Takes
  rw [item_skip]

theorem gives_item_skip :
    Gives (item name m) a start.skip stop ↔ Gives (item name m) a start stop := by
  unfold Gives
  rw [item_skip]

theorem Gives.of_item (h : Gives (item name m) a start stop) : Gives m a start.skip stop := by
  obtain ⟨_, _, hblanks, hrule⟩ := h.of_bind
  obtain ⟨-, rfl⟩ := (takes_blanks start).eq hblanks
  exact hrule.of_rule

theorem Takes.spanned (h : Takes m a start stop) :
    Takes (spanned m) (a, ⟨start.offset, stop.offset⟩) start stop :=
  (takes_get start).bind (h.bind ((takes_get stop).bind (takes_pure _ _)))

theorem Fails.spanned (h : Fails m start) : Fails (spanned m) start :=
  (takes_get start).fails_bind h.bind

theorem Gives.of_spanned {result : α × Span} (h : Gives (spanned m) result start stop) :
    Gives m result.1 start stop ∧ result.2 = ⟨start.offset, stop.offset⟩ := by
  obtain ⟨a, later, hm, hrest⟩ := (Gives.of_get h).of_bind
  obtain ⟨rfl, rfl⟩ := (Gives.of_get hrest).of_pure
  exact ⟨hm, rfl⟩

theorem takes_orEmpty {m : Reader (List α)} {as : List α} (h : Takes m as start stop) :
    Takes (orEmpty m) as start stop :=
  h.orElse

theorem Fails.orEmpty {m : Reader (List α)} (h : Fails m start) :
    Takes (orEmpty m) [] start start :=
  h.orElse_takes (takes_pure _ _)

end Items

end Reader

end RankPoly.Signature
