import RankPoly.Proofs.Grammar
import RankPoly.Proofs.RoundTrip

namespace RankPoly

namespace Signature

instance decidableBlank (text : List Char) : Decidable (Blank text) :=
  decidable_of_iff (text.all isBlank = true) List.all_eq_true

-- The text consists of these texts with commas between them. There may be blanks around each of
-- them, and there is nothing but blanks where there are none.
inductive Listed : List (List Char) → List Char → Prop where
  | none {blanks : List Char} : Blank blanks → Listed [] blanks
  | last {before text behind : List Char} : Blank before → Blank behind →
      Listed [text] (before ++ (text ++ behind))
  | more {before text behind rest next : List Char} {texts : List (List Char)} : Blank before →
      Blank behind → Listed (next :: texts) rest →
      Listed (text :: next :: texts) (before ++ (text ++ (behind ++ ',' :: rest)))

section Append

variable {text rest behind : List Char} {ls : List Lexeme} {l : Lexeme}

theorem Stops.append {accepts : Char → Bool} (h : Stops accepts text)
    (hrest : Stops accepts rest) : Stops accepts (text ++ rest) := by
  cases text with
  | nil => exact hrest
  | cons c text => exact stops_cons.mpr (stops_cons.mp h)

-- A number is told apart wherever a name would be.
theorem Stops.isDigit (h : Stops isName rest) : Stops Char.isDigit rest := by
  cases rest with
  | nil => exact stops_nil
  | cons c rest =>
      refine stops_cons.mpr (Bool.eq_false_iff.mpr fun hdigit => ?_)
      have hname := isName_of_isWord (isWord_of_isDigit hdigit)
      simp [stops_cons.mp h] at hname

theorem Lexeme.Fits.append (h : l.Fits text) (hrest : Stops isName rest) :
    l.Fits (text ++ rest) := by
  cases l with
  | mark c => exact h
  | word name => exact ⟨h.1, h.2.append hrest⟩
  | number digits => exact ⟨h.1, h.2.append hrest.isDigit⟩

-- No word and no number goes on behind the end of the text.
theorem lexemes_append (hrest : Stops isName rest) :
    lexemes (text ++ rest) = lexemes text ++ lexemes rest := by
  have hconsists : Consists (lexemes text) text := lexemes_eq_iff.mp rfl
  generalize lexemes text = ls at hconsists
  induction hconsists with
  | nil hblanks => exact lexemes_blanks hblanks rest
  | cons hblanks hfits _ ih =>
      rw [List.append_assoc, lexemes_blanks hblanks, List.append_assoc,
        (hfits.append hrest).lexed, ih, List.cons_append]

theorem stops_of_blank (hbehind : Blank behind) : Stops isName behind := by
  cases behind with
  | nil => exact stops_nil
  | cons c behind => exact stops_cons.mpr (isName_of_isBlank (hbehind c List.mem_cons_self))

theorem lexemes_of_blank (hbehind : Blank behind) : lexemes behind = [] :=
  lexemes_eq_iff.mpr (.nil hbehind)

theorem lexemes_append_blank (hbehind : Blank behind) :
    lexemes (text ++ behind) = lexemes text := by
  rw [lexemes_append (stops_of_blank hbehind), lexemes_of_blank hbehind, List.append_nil]

theorem lexemes_append_comma (hbehind : Blank behind) :
    lexemes (text ++ (behind ++ ',' :: rest)) = lexemes text ++ .mark ',' :: lexemes rest := by
  have hcomma : Stops isName (',' :: rest) := stops_cons.mpr (by decide)
  rw [lexemes_append ((stops_of_blank hbehind).append hcomma), lexemes_blanks hbehind,
    lexemes_mark (by decide) (by decide) (by decide)]

end Append

-- A comma between two texts stands between their lexemes, whatever commas there are inside.
theorem Listed.lexemes {texts : List (List Char)} {text : List Char} (h : Listed texts text) :
    lexemes text = commas (texts.map Signature.lexemes) := by
  induction h with
  | none hblanks => exact lexemes_of_blank hblanks
  | last hbefore hbehind =>
      rw [lexemes_blanks hbefore, lexemes_append_blank hbehind]
      simp [commas]
  | more hbefore hbehind _ ih =>
      rw [lexemes_blanks hbefore, lexemes_append_comma hbehind, ih]
      rfl

section Outcomes

variable {text : String} {ty : Ty} {tys : List Ty}

theorem placeless_eq_ok_iff {α : Type} {result : Except Error α} {a : α} :
    placeless result = .ok a ↔ result = .ok a := by
  cases result <;> simp [placeless, Except.mapError]

theorem GoesBy.eq_ok_iff {α β : Type} {parse : String → Except Error β}
    {derives : α → List Lexeme → Prop} {collect : α → Except Error β} {b : β}
    (h : GoesBy parse derives collect) :
    parse text = .ok b ↔ ∃ a, derives a (lexemes text.toList) ∧ collect a = .ok b := by
  constructor
  · intro hparse
    obtain ⟨a, ls, hderives, hconsists⟩ := (h.accepted_iff text).mp (hparse ▸ accepted_ok b)
    have houtcome := h.outcome text a ls hderives hconsists
    rw [hparse] at houtcome
    rw [lexemes_eq_iff.mpr hconsists]
    exact ⟨a, hderives, placeless_eq_ok_iff.mp houtcome.symm⟩
  · rintro ⟨a, hderives, hcollect⟩
    have houtcome := h.outcome text a _ hderives (lexemes_eq_iff.mp rfl)
    exact placeless_eq_ok_iff.mp (houtcome.trans (placeless_eq_ok_iff.mpr hcollect))

theorem derivesList_singleton_iff {tree : Tree} {ls : List Lexeme} :
    DerivesList [tree] ls ↔ Derives tree ls := by
  constructor
  · rintro ⟨parts, hparts, rfl⟩
    cases hparts with
    | cons hfirst hrest =>
        cases hrest
        simpa [commas] using hfirst
  · intro h
    exact ⟨[ls], .cons h .nil, by simp [commas]⟩

theorem listToTys_singleton_iff {tree : Tree} : Tree.listToTys [tree] = .ok tys ↔
    ∃ ty, tree.toTy = .ok ty ∧ tys = [ty] := by
  cases htree : tree.toTy <;> simp [Tree.listToTys, htree, bind, Except.bind, eq_comm]

-- The trees of the texts are those of the list.
theorem exists_trees {texts : List String}
    (h : List.Forall₂ (fun text ty => Ty.parse text = .ok ty) texts tys) :
    ∃ trees, List.Forall₂ Derives trees ((texts.map String.toList).map lexemes) ∧
      Tree.listToTys trees = .ok tys := by
  induction h with
  | nil => exact ⟨[], .nil, rfl⟩
  | cons hfirst _ ih =>
      obtain ⟨tree, htree, his⟩ := parse_goesBy.eq_ok_iff.mp hfirst
      obtain ⟨trees, htrees, hare⟩ := ih
      refine ⟨tree :: trees, .cons htree htrees, ?_⟩
      rw [Tree.listToTys, his, hare]
      rfl

theorem parseList_of_listed {texts : List String}
    (h : List.Forall₂ (fun text ty => Ty.parse text = .ok ty) texts tys)
    (hlisted : Listed (texts.map String.toList) text.toList) : Ty.parseList text = .ok tys := by
  obtain ⟨trees, htrees, hare⟩ := exists_trees h
  exact parseList_goesBy.eq_ok_iff.mpr ⟨trees, ⟨_, htrees, hlisted.lexemes⟩, hare⟩

theorem parseList_singleton_iff : Ty.parseList text = .ok [ty] ↔ Ty.parse text = .ok ty := by
  rw [parseList_goesBy.eq_ok_iff, parse_goesBy.eq_ok_iff]
  constructor
  · rintro ⟨trees, hderives, hare⟩
    cases forall₂_listToTys hare with
    | cons his hrest =>
        cases hrest
        exact ⟨_, derivesList_singleton_iff.mp hderives, his⟩
  · rintro ⟨tree, hderives, his⟩
    exact ⟨[tree], derivesList_singleton_iff.mpr hderives,
      listToTys_singleton_iff.mpr ⟨ty, his, rfl⟩⟩

-- A text for one type is a list of one.
theorem length_of_accepted (h : Ty.parseList text = .ok tys)
    (haccepted : Accepted (Ty.parse text)) : tys.length = 1 := by
  obtain ⟨tree, ls, hderives, hconsists⟩ := (parse_goesBy.accepted_iff text).mp haccepted
  have houtcome := parseList_goesBy.outcome text [tree] ls
    (derivesList_singleton_iff.mpr hderives) hconsists
  rw [h] at houtcome
  obtain ⟨ty, -, rfl⟩ := listToTys_singleton_iff.mp (placeless_eq_ok_iff.mp houtcome.symm)
  rfl

end Outcomes

end Signature

open Signature

-- Reading a list is reading its texts one by one, however many there are and whatever commas
-- there are inside of them. A text is read for one type just if the list in it is of that type
-- alone, and is no signature for one type if there are none in it or several.
theorem parse_agrees_parseList :
    (∀ (texts : List String) (tys : List Ty) (text : String),
        List.Forall₂ (fun text ty => Ty.parse text = .ok ty) texts tys →
        Listed (texts.map String.toList) text.toList → Ty.parseList text = .ok tys) ∧
      (∀ (text : String) (ty : Ty), Ty.parseList text = .ok [ty] ↔ Ty.parse text = .ok ty) ∧
      ∀ (text : String) (tys : List Ty), Ty.parseList text = .ok tys → tys.length ≠ 1 →
        ∃ problem, Ty.parse text = .error (.unexpected problem) := by
  refine ⟨fun _ _ _ h hlisted => parseList_of_listed h hlisted,
    fun _ _ => parseList_singleton_iff, fun text tys h hlength => ?_⟩
  have hrefused : ¬Accepted (Ty.parse text) := fun haccepted =>
    hlength (length_of_accepted h haccepted)
  unfold Accepted at hrefused
  push Not at hrefused
  exact hrefused

-- There is a comma behind the last part of a tuple, and one between the parts of a closure.
theorem nested_list_read :
    Ty.parseList " (i64,none,) ,\tclosure<f>(f64 ,?)\n" =
        .ok [.tuple [.scalar .i64, .none], .closure ⟨"f", [.scalar .f64, .unknown]⟩] ∧
      Ty.parseList " \n" = .ok [] ∧
      ∃ problem, Ty.parse " (i64,none,) ,\tclosure<f>(f64 ,?)\n" =
        .error (.unexpected problem) := by
  have hfirst : Derives (.scalar .i64) [.word "i64"] := .scalar
  have hthird : Derives (.scalar .f64) [.word "f64"] := .scalar
  have htuple := Derives.tuple (.cons hfirst (.cons .none .nil)) (.comma (by simp))
  have hmember : DerivesClosure ("f", [.scalar .f64, .unknown]) _ :=
    .mk (.cons hthird (.cons .unknown .nil))
  have hlisted : Listed ["(i64,none,)".toList, "closure<f>(f64 ,?)".toList]
      ([' '] ++ ("(i64,none,)".toList ++ ([' '] ++ ',' ::
        (['\t'] ++ ("closure<f>(f64 ,?)".toList ++ ['\n']))))) :=
    .more (by decide) (by decide) (.last (by decide) (by decide))
  have hlist := parse_agrees_parseList.1 ["(i64,none,)", "closure<f>(f64 ,?)"] _
    " (i64,none,) ,\tclosure<f>(f64 ,?)\n"
    (.cons (parse_goesBy.eq_ok_iff.mpr ⟨_, htuple, rfl⟩)
      (.cons (parse_goesBy.eq_ok_iff.mpr ⟨_, .closure hmember, rfl⟩) .nil)) hlisted
  exact ⟨hlist, parse_agrees_parseList.1 [] [] " \n" .nil (.none (by decide)),
    parse_agrees_parseList.2.2 _ _ hlist (by decide)⟩

end RankPoly
