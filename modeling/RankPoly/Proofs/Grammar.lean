import RankPoly.Proofs.Signature.Layout

namespace RankPoly

namespace Signature

-- The text is a signature, though perhaps not for a type.
def Accepted {α : Type} (result : Except Error α) : Prop :=
  ∀ problem, result ≠ .error (.unexpected problem)

section Accepted

variable {α β : Type} {result : Except Error α}

theorem accepted_ok (a : α) : Accepted (.ok a) :=
  nofun

theorem Accepted.bind {k : α → Except Error β} (h : Accepted result) (hk : ∀ a, Accepted (k a)) :
    Accepted (result >>= k) := by
  cases result with
  | ok a => exact hk a
  | error error =>
      rintro problem ⟨⟩
      exact h problem rfl

theorem Accepted.map (f : α → β) (h : Accepted result) : Accepted (result.map f) := by
  cases result with
  | ok a => exact accepted_ok (f a)
  | error error =>
      rintro problem ⟨⟩
      exact h problem rfl

theorem placeless_of_not_accepted (h : ¬Accepted result) : placeless result = .error none := by
  unfold Accepted at h
  push Not at h
  obtain ⟨problem, rfl⟩ := h
  rfl

end Accepted

mutual

-- What is wrong with a text that is a signature is found behind its syntax.
theorem accepted_toTy : ∀ tree : Tree, Accepted tree.toTy
  | .unknown | .scalar _ | .none => accepted_ok _
  | .array _ _ _ _ => by
      unfold Tree.toTy
      dsimp only
      split
      · nofun
      · split
        · nofun
        · exact accepted_ok _
  | .tuple elems => (accepted_listToTys elems).map _
  | .struct fields => (accepted_addFields fields []).map _
  | .closure _ captured => (accepted_listToTys captured).bind fun _ => accepted_ok _
  | .closureSet members => (accepted_membersToClosures members).bind fun _ => accepted_ok _
  | .slice first second third =>
      (accepted_toTy first).bind fun _ => (accepted_toTy second).bind fun _ =>
        (accepted_toTy third).bind fun _ => accepted_ok _
  termination_by structural tree => tree

theorem accepted_listToTys : ∀ trees : List Tree, Accepted (Tree.listToTys trees)
  | [] => accepted_ok _
  | first :: rest =>
      (accepted_toTy first).bind fun _ => (accepted_listToTys rest).bind fun _ => accepted_ok _
  termination_by structural trees => trees

theorem accepted_addFields : ∀ (fields : List (Span × String × Tree)) (known : NameMap Ty),
    Accepted (Tree.addFields known fields)
  | [], known => accepted_ok known
  | (_, _, tree) :: rest, known => by
      refine (accepted_toTy tree).bind fun ty => ?_
      split
      · nofun
      · exact accepted_addFields rest _
  termination_by structural fields => fields

theorem accepted_membersToClosures : ∀ members : List (String × List Tree),
    Accepted (Tree.membersToClosures members)
  | [] => accepted_ok _
  | (_, captured) :: rest =>
      (accepted_listToTys captured).bind fun _ =>
        (accepted_membersToClosures rest).bind fun _ => accepted_ok _
  termination_by structural members => members

end

-- The parser goes by a grammar over lexemes. It accepts what is derived, and every derivation
-- says what comes out.
structure GoesBy {α β : Type} (parse : String → Except Error β) (derives : α → List Lexeme → Prop)
    (collect : α → Except Error β) : Prop where
  accepted_iff : ∀ text, Accepted (parse text) ↔ ∃ a ls, derives a ls ∧ Consists ls text.toList
  outcome : ∀ text a ls, derives a ls → Consists ls text.toList →
    placeless (parse text) = placeless (collect a)

section GoesBy

variable {α β : Type} {parse : String → Except Error β} {derives : α → List Lexeme → Prop}
  {collect : α → Except Error β} {ls : List Lexeme} {text text' : String}

-- For a parser that collects what a reader takes. The reader is sound and complete for the
-- grammar, up to what comes out.
theorem goesBy_of_readAll (reader : Reader α)
    (hok : ∀ text a, readAll reader text.toList = .ok a → parse text = collect a)
    (herror : ∀ text furthest, readAll reader text.toList = .error furthest →
      ¬Accepted (parse text))
    (hcollect : ∀ a, Accepted (collect a))
    (hsound : ∀ text a, readAll reader text = .ok a → derives a (lexemes text))
    (hcomplete : ∀ text a, derives a (lexemes text) →
      ∃ a', readAll reader text = .ok a' ∧ placeless (collect a) = placeless (collect a')) :
    GoesBy parse derives collect := by
  have houtcome : ∀ text a ls, derives a ls → Consists ls text.toList →
      Accepted (parse text) ∧ placeless (parse text) = placeless (collect a) := by
    intro text a ls h hconsists
    obtain rfl := lexemes_eq_iff.mpr hconsists
    obtain ⟨a', hread, hsame⟩ := hcomplete text.toList a h
    rw [hok text a' hread]
    exact ⟨hcollect a', hsame.symm⟩
  refine ⟨fun text => ⟨fun h => ?_, ?_⟩, fun text a ls ha h => (houtcome text a ls ha h).2⟩
  · cases hread : readAll reader text.toList with
    | ok a => exact ⟨a, _, hsound text.toList a hread, lexemes_eq_iff.mp rfl⟩
    | error furthest => exact absurd h (herror text furthest hread)
  · rintro ⟨a, ls, ha, h⟩
    exact (houtcome text a ls ha h).1

theorem GoesBy.derived_iff (h : GoesBy parse derives collect)
    (hconsists : Consists ls text.toList) : Accepted (parse text) ↔ ∃ a, derives a ls := by
  rw [h.accepted_iff]
  constructor
  · rintro ⟨a, ls', ha, hconsists'⟩
    rw [← lexemes_eq_iff.mpr hconsists, lexemes_eq_iff.mpr hconsists']
    exact ⟨a, ha⟩
  · rintro ⟨a, ha⟩
    exact ⟨a, ls, ha, hconsists⟩

theorem GoesBy.layout (h : GoesBy parse derives collect) (hconsists : Consists ls text.toList)
    (hconsists' : Consists ls text'.toList) :
    placeless (parse text) = placeless (parse text') := by
  by_cases hderives : ∃ a, derives a ls
  · obtain ⟨a, ha⟩ := hderives
    rw [h.outcome text a ls ha hconsists, h.outcome text' a ls ha hconsists']
  · rw [placeless_of_not_accepted (mt (h.derived_iff hconsists).mp hderives),
      placeless_of_not_accepted (mt (h.derived_iff hconsists').mp hderives)]

end GoesBy

theorem parse_goesBy : GoesBy Ty.parse Derives Tree.toTy := by
  refine goesBy_of_readAll signature ?_ ?_ accepted_toTy ?_ ?_
  · intro text tree hread
    unfold Ty.parse
    rw [hread]
  · intro text furthest hread haccepted
    unfold Ty.parse at haccepted
    rw [hread] at haccepted
    exact haccepted _ rfl
  · intro text tree hread
    obtain ⟨stop, hspells, hend⟩ := readAll_signature_iff.mp hread
    obtain ⟨ls, hderives, hlexemes⟩ := lexes_tree tree hspells (stops_of_end hend)
    rw [lexemes_rest_eq_nil_iff.mpr hend, List.append_nil] at hlexemes
    exact hlexemes ▸ hderives
  · intro text tree hderives
    have hstart : lexemes (⟨text, 0⟩ : Cursor).rest = lexemes text ++ [] := by simp
    obtain ⟨tree', stop, hspells, hsame, hstop⟩ := spelled_tree tree hderives hstart
    have hend := lexemes_rest_eq_nil_iff.mp hstop
    exact ⟨tree', readAll_signature_iff.mpr ⟨stop, hspells, hend⟩, hsame⟩

theorem parseList_goesBy : GoesBy Ty.parseList DerivesList Tree.listToTys := by
  refine goesBy_of_readAll signatureList ?_ ?_ accepted_listToTys ?_ ?_
  · intro text trees hread
    unfold Ty.parseList
    rw [hread]
  · intro text furthest hread haccepted
    unfold Ty.parseList at haccepted
    rw [hread] at haccepted
    exact haccepted _ rfl
  · intro text trees hread
    obtain ⟨stop, hitems, hend⟩ := readAll_signatureList_iff.mp hread
    obtain ⟨parts, hparts, hlexemes⟩ := hitems.lexes (lexes_list trees) (stops_of_end hend)
    rw [lexemes_rest_eq_nil_iff.mpr hend, List.append_nil] at hlexemes
    exact ⟨parts, hparts, hlexemes⟩
  · rintro text trees ⟨parts, hparts, hlexemes⟩
    have hstart : lexemes (⟨text, 0⟩ : Cursor).rest = commas parts ++ [] := by simp [hlexemes]
    obtain ⟨trees', stop, hitems, hsame, hstop⟩ := exists_items hparts (spelled_list trees) hstart
    have hend := lexemes_rest_eq_nil_iff.mp hstop
    exact ⟨trees', readAll_signatureList_iff.mpr ⟨stop, hitems, hend⟩,
      Tree.placeless_listToTys hsame⟩

end Signature

open Signature

-- Whether a text is a signature is a matter of its lexemes, and so is what it is a signature for
-- or what is wrong with it. No order of the alternatives and no greedy repetition hides a
-- derivation.
theorem parsers_go_by_grammar :
    GoesBy Ty.parse Derives Tree.toTy ∧ GoesBy Ty.parseList DerivesList Tree.listToTys ∧
      ∀ (ls : List Lexeme) (text text' : String), Consists ls text.toList →
        Consists ls text'.toList →
        placeless (Ty.parse text) = placeless (Ty.parse text') ∧
          placeless (Ty.parseList text) = placeless (Ty.parseList text') :=
  ⟨parse_goesBy, parseList_goesBy, fun _ _ _ h h' =>
    ⟨parse_goesBy.layout h h', parseList_goesBy.layout h h'⟩⟩

-- A field is bound twice, and a comma stands behind the last part of the tuple.
theorem spaced_field_rejected_alike :
    placeless (Ty.parse "(f64,\x7bx:i64,x:none\x7d,)") = .error (some "duplicate field `x`") ∧
      placeless (Ty.parse "( f64,\n\t\x7b x : i64, x : none \x7d, )") =
        .error (some "duplicate field `x`") := by
  have hfields : List.Forall₂ DerivesField [(⟨0, 0⟩, "x", .scalar .i64), (⟨0, 0⟩, "x", .none)]
      [[.word "x", .mark ':', .word "i64"], [.word "x", .mark ':', .word "none"]] :=
    .cons (.mk .scalar) (.cons (.mk .none) .nil)
  have hfirst : Derives (.scalar .f64) [.word "f64"] := .scalar
  have hsecond := Derives.struct hfields .none
  have hderives := Derives.tuple (.cons hfirst (.cons hsecond .nil)) (.comma (by simp))
  have hcompact := parsers_go_by_grammar.1.outcome "(f64,\x7bx:i64,x:none\x7d,)" _ _ hderives
    (lexemes_eq_iff.mp (by decide))
  have hspaced := parsers_go_by_grammar.2.2 _ "( f64,\n\t\x7b x : i64, x : none \x7d, )"
    "(f64,\x7bx:i64,x:none\x7d,)" (lexemes_eq_iff.mp rfl) (lexemes_eq_iff.mp (by decide))
  exact ⟨hcompact, hspaced.1.trans hcompact⟩

end RankPoly
