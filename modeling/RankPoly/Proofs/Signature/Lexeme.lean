import RankPoly.Proofs.Signature.Reading

namespace RankPoly.Signature

-- What a text is made of, apart from its blanks. Words of the syntax, kinds and names are all
-- words here, which end where no name goes on.
inductive Lexeme where
  | mark (c : Char)
  | word (name : String)
  | number (digits : List Char)
  deriving DecidableEq, Repr

-- The characters that a name may start with.
def startsName (c : Char) : Bool :=
  c.isAlpha || c = '_'

-- The lexemes of a text behind its first characters, which have been taken.
def lexemesFrom : (taken : Nat) → List Char → List Lexeme
  | _, [] => []
  | taken + 1, _ :: rest => lexemesFrom taken rest
  | 0, c :: rest =>
    if isBlank c then lexemesFrom 0 rest
    else if startsName c then
      let more := rest.takeWhile isName
      .word (String.ofList (c :: more)) :: lexemesFrom more.length rest
    else if c.isDigit then
      let more := rest.takeWhile Char.isDigit
      .number (c :: more) :: lexemesFrom more.length rest
    else .mark c :: lexemesFrom 0 rest
  termination_by structural _ text => text

-- The text is divided from left to right into words and numbers as long as they can be, and
-- into single marks where there are none.
def lexemes (text : List Char) : List Lexeme :=
  lexemesFrom 0 text

namespace Lexeme

def chars : Lexeme → List Char
  | .mark c => [c]
  | .word name => name.toList
  | .number digits => digits

-- A lexeme that is one by itself, and that the text behind it does not go on.
def Fits : Lexeme → List Char → Prop
  | .mark c, _ => isBlank c = false ∧ startsName c = false ∧ c.isDigit = false
  | .word name, rest => isIdentifier name = true ∧ Stops isName rest
  | .number digits, rest =>
    (digits ≠ [] ∧ ∀ c ∈ digits, c.isDigit = true) ∧ Stops Char.isDigit rest

end Lexeme

-- The text consists of these lexemes, with any blanks between them and around them.
inductive Consists : List Lexeme → List Char → Prop where
  | nil {blanks : List Char} : (∀ c ∈ blanks, isBlank c = true) → Consists [] blanks
  | cons {blanks rest : List Char} {l : Lexeme} {ls : List Lexeme} :
      (∀ c ∈ blanks, isBlank c = true) → l.Fits rest → Consists ls rest →
      Consists (l :: ls) (blanks ++ (l.chars ++ rest))

section Equations

variable {c : Char} {rest : List Char}

theorem lexemesFrom_eq (taken : Nat) (text : List Char) :
    lexemesFrom taken text = lexemes (text.drop taken) := by
  induction text generalizing taken with
  | nil => cases taken <;> rfl
  | cons c rest ih =>
      cases taken with
      | zero => rfl
      | succ taken => exact ih taken

theorem drop_takeWhile (accepts : Char → Bool) (text : List Char) :
    text.drop (text.takeWhile accepts).length = text.dropWhile accepts := by
  calc
    text.drop (text.takeWhile accepts).length
        = (text.takeWhile accepts ++ text.dropWhile accepts).drop
            (text.takeWhile accepts).length := by
          rw [List.takeWhile_append_dropWhile]
    _ = text.dropWhile accepts := List.drop_left

theorem lexemes_blank (h : isBlank c = true) : lexemes (c :: rest) = lexemes rest := by
  unfold lexemes
  rw [lexemesFrom, if_pos h]

theorem lexemes_word (hblank : isBlank c = false) (h : startsName c = true) :
    lexemes (c :: rest) =
      .word (String.ofList (c :: rest.takeWhile isName)) :: lexemes (rest.dropWhile isName) := by
  rw [← drop_takeWhile, ← lexemesFrom_eq, lexemes, lexemesFrom, if_neg (by simp [hblank]), if_pos h]

theorem lexemes_number (hblank : isBlank c = false) (hstart : startsName c = false)
    (h : c.isDigit = true) :
    lexemes (c :: rest) =
      .number (c :: rest.takeWhile Char.isDigit) :: lexemes (rest.dropWhile Char.isDigit) := by
  rw [← drop_takeWhile, ← lexemesFrom_eq, lexemes, lexemesFrom, if_neg (by simp [hblank]),
    if_neg (by simp [hstart]), if_pos h]

theorem lexemes_mark (hblank : isBlank c = false) (hstart : startsName c = false)
    (h : c.isDigit = false) : lexemes (c :: rest) = .mark c :: lexemes rest := by
  unfold lexemes
  rw [lexemesFrom, if_neg (by simp [hblank]), if_neg (by simp [hstart]), if_neg (by simp [h])]

theorem lexemes_ne_nil (hblank : isBlank c = false) : lexemes (c :: rest) ≠ [] := by
  cases hstart : startsName c with
  | true => simp [lexemes_word hblank hstart]
  | false =>
      cases hdigit : c.isDigit with
      | true => simp [lexemes_number hblank hstart hdigit]
      | false => simp [lexemes_mark hblank hstart hdigit]

-- Blanks do not count.
theorem lexemes_blanks {blanks : List Char} (h : ∀ c ∈ blanks, isBlank c = true)
    (text : List Char) : lexemes (blanks ++ text) = lexemes text := by
  induction blanks with
  | nil => rfl
  | cons c blanks ih =>
      obtain ⟨hfirst, hrest⟩ := List.forall_mem_cons.mp h
      rw [List.cons_append, lexemes_blank hfirst, ih hrest]

theorem isBlank_of_mem_takeWhile (text : List Char) :
    ∀ c ∈ text.takeWhile isBlank, isBlank c = true :=
  fun _ => List.mem_takeWhile_imp

theorem lexemes_dropWhile (text : List Char) :
    lexemes (text.dropWhile isBlank) = lexemes text := by
  rw [← lexemes_blanks (isBlank_of_mem_takeWhile text), List.takeWhile_append_dropWhile]

-- No lexemes are left just if nothing but blanks is left.
theorem lexemes_eq_nil_iff {text : List Char} :
    lexemes text = [] ↔ text.dropWhile isBlank = [] := by
  rw [← lexemes_dropWhile]
  constructor
  · intro h
    have hstops : Stops isBlank (text.dropWhile isBlank) := stops_dropWhile text
    cases hrest : text.dropWhile isBlank with
    | nil => rfl
    | cons c rest =>
        rw [hrest] at h hstops
        exact absurd h (lexemes_ne_nil (stops_cons.mp hstops))
  · intro h
    rw [h]
    rfl

end Equations

section Characters

variable {c : Char}

theorem isBlank_of_isName (h : isName c = true) : isBlank c = false := by
  cases hblank : isBlank c with
  | false => rfl
  | true => simp [isName_of_isBlank hblank] at h

theorem startsName_of_isDigit (h : c.isDigit = true) : startsName c = false := by
  cases hstart : startsName c with
  | false => rfl
  | true =>
      have hdigit := (startsName_iff.mp hstart).2
      simp [h] at hdigit

end Characters

theorem takeWhile_dropWhile_append {accepts : Char → Bool} {word rest : List Char}
    (hword : ∀ c ∈ word, accepts c = true) (hrest : Stops accepts rest) :
    (word ++ rest).takeWhile accepts = word ∧ (word ++ rest).dropWhile accepts = rest := by
  refine ⟨takeWhile_append hword hrest, ?_⟩
  rw [List.dropWhile_append_of_pos hword, dropWhile_eq_self hrest]

-- What stands in front of a text is told apart from it.
theorem Lexeme.Fits.lexed {l : Lexeme} {rest : List Char} (h : l.Fits rest) :
    lexemes (l.chars ++ rest) = l :: lexemes rest := by
  cases l with
  | mark c =>
      obtain ⟨hblank, hstart, hdigit⟩ := h
      exact lexemes_mark hblank hstart hdigit
  | word name =>
      obtain ⟨hname, hstop⟩ := h
      obtain ⟨hall, first, hfirst, hdigit⟩ := isIdentifier_iff.mp hname
      obtain ⟨more, heq⟩ := List.head?_eq_some_iff.mp hfirst
      rw [heq] at hall
      obtain ⟨hisName, hmore⟩ := List.forall_mem_cons.mp hall
      obtain ⟨htake, hdrop⟩ := takeWhile_dropWhile_append hmore hstop
      have hstart : startsName first = true := startsName_iff.mpr ⟨hisName, hdigit⟩
      change lexemes (name.toList ++ rest) = _
      rw [heq, List.cons_append, lexemes_word (isBlank_of_isName hisName) hstart, htake, hdrop,
        ← heq, String.ofList_toList]
  | number digits =>
      obtain ⟨⟨hne, hall⟩, hstop⟩ := h
      obtain ⟨first, more, rfl⟩ := List.exists_cons_of_ne_nil hne
      obtain ⟨hfirst, hmore⟩ := List.forall_mem_cons.mp hall
      obtain ⟨htake, hdrop⟩ := takeWhile_dropWhile_append hmore hstop
      have hblank := isBlank_of_isName (isName_of_isWord (isWord_of_isDigit hfirst))
      change lexemes (first :: (more ++ rest)) = _
      rw [lexemes_number hblank (startsName_of_isDigit hfirst) hfirst, htake, hdrop]

-- The first lexeme is the text behind the blanks, up to where the others start.
theorem exists_of_lexemes {text : List Char} {l : Lexeme} {ls : List Lexeme}
    (h : lexemes text = l :: ls) :
    ∃ rest, text.dropWhile isBlank = l.chars ++ rest ∧ l.Fits rest ∧ lexemes rest = ls := by
  rw [← lexemes_dropWhile] at h
  have hstops : Stops isBlank (text.dropWhile isBlank) := stops_dropWhile text
  generalize text.dropWhile isBlank = text at h hstops
  cases text with
  | nil => cases h
  | cons c rest =>
      have hblank := stops_cons.mp hstops
      cases hstart : startsName c with
      | true =>
          rw [lexemes_word hblank hstart] at h
          cases h
          refine ⟨rest.dropWhile isName, ?_, ⟨?_, stops_dropWhile rest⟩, rfl⟩
          · simp [Lexeme.chars]
          · unfold isIdentifier
            rw [String.toList_ofList, Bool.and_eq_true]
            exact ⟨hstart, List.all_eq_true.mpr fun d hd => List.mem_takeWhile_imp hd⟩
      | false =>
          cases hdigit : c.isDigit with
          | true =>
              rw [lexemes_number hblank hstart hdigit] at h
              cases h
              refine ⟨rest.dropWhile Char.isDigit, ?_, ⟨⟨nofun, ?_⟩, stops_dropWhile rest⟩, rfl⟩
              · simp [Lexeme.chars]
              · exact List.forall_mem_cons.mpr ⟨hdigit, fun d hd => List.mem_takeWhile_imp hd⟩
          | false =>
              rw [lexemes_mark hblank hstart hdigit] at h
              cases h
              exact ⟨rest, rfl, ⟨hblank, hstart, hdigit⟩, rfl⟩

-- Every text consists of lexemes in just one way.
theorem lexemes_eq_iff {text : List Char} {ls : List Lexeme} :
    lexemes text = ls ↔ Consists ls text := by
  constructor
  · intro h
    induction ls generalizing text with
    | nil => exact .nil (List.dropWhile_eq_nil_iff.mp (lexemes_eq_nil_iff.mp h))
    | cons l ls ih =>
        obtain ⟨rest, hrest, hfits, hmore⟩ := exists_of_lexemes h
        have hconsists := Consists.cons (isBlank_of_mem_takeWhile text) hfits (ih hmore)
        rwa [← hrest, List.takeWhile_append_dropWhile] at hconsists
  · intro h
    induction h with
    | nil hblanks => exact lexemes_eq_nil_iff.mpr (List.dropWhile_eq_nil_iff.mpr hblanks)
    | cons hblanks hfits _ ih => rw [lexemes_blanks hblanks, hfits.lexed, ih]

section Tokens

variable {l : Lexeme} {ls : List Lexeme} {start stop : Cursor}

theorem lexemes_skip (cursor : Cursor) : lexemes cursor.skip.rest = lexemes cursor.rest := by
  rw [Cursor.rest_skip, lexemes_dropWhile]

theorem Token.lexed (h : Token l.chars start stop) (hfits : l.Fits stop.rest) :
    lexemes start.rest = l :: lexemes stop.rest := by
  rw [← lexemes_skip, h.rest, hfits.lexed]

theorem exists_token (h : lexemes start.rest = l :: ls) :
    ∃ stop, Token l.chars start stop ∧ l.Fits stop.rest ∧ lexemes stop.rest = ls := by
  obtain ⟨rest, hrest, hfits, hmore⟩ := exists_of_lexemes h
  rw [← Cursor.rest_skip] at hrest
  have htoken : Token l.chars start (start.skip.advance l.chars.length) := ⟨⟨rest, hrest.symm⟩, rfl⟩
  have heq : (start.skip.advance l.chars.length).rest = rest :=
    List.append_cancel_left (htoken.rest.symm.trans hrest)
  rw [← heq] at hfits hmore
  exact ⟨_, htoken, hfits, hmore⟩

theorem lexemes_rest_eq_nil_iff : lexemes start.rest = [] ↔ start.skip.rest = [] := by
  rw [Cursor.rest_skip, lexemes_eq_nil_iff]

end Tokens

end RankPoly.Signature
