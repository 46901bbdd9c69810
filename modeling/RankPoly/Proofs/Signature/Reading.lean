import RankPoly.Proofs.Signature.Spelling
import Mathlib.Tactic.Tauto

namespace RankPoly.Signature

open Reader

section Characters

variable {c : Char}

theorem isName_of_isBlank (h : isBlank c = true) : isName c = false := by
  simp only [isBlank, Bool.or_eq_true, decide_eq_true_eq] at h
  rcases h with ((rfl | rfl) | rfl) | rfl <;> decide

theorem isName_of_isWord (h : isWord c = true) : isName c = true := by
  simp [isName, h]

theorem isWord_of_isDigit (h : c.isDigit = true) : isWord c = true := by
  simp [isWord, Char.isAlphanum, h]

theorem not_isDigit_of_isAlpha (h : c.isAlpha = true) : c.isDigit = false := by
  change (c.isUpper || c.isLower) = true at h
  refine Bool.eq_false_iff.mpr fun hdigit => ?_
  have hle : c.val.toNat ≤ 57 := of_decide_eq_true (Bool.and_eq_true _ _ |>.mp hdigit).2
  rcases Bool.or_eq_true _ _ |>.mp h with hupper | hlower
  · have hge : 65 ≤ c.val.toNat := (of_decide_eq_true hupper).1
    omega
  · have hge : 97 ≤ c.val.toNat := of_decide_eq_true (Bool.and_eq_true _ _ |>.mp hlower).1
    omega

-- A name is told from other runs of its characters by the first of them.
theorem startsName_iff :
    (c.isAlpha || c = '_') = true ↔ isName c = true ∧ (c.isDigit || c = '.') = false := by
  simp only [isName, isWord, Char.isAlphanum, Bool.or_eq_true, Bool.or_eq_false_iff,
    decide_eq_true_eq, decide_eq_false_iff_not]
  constructor
  · rintro (halpha | rfl)
    · refine ⟨by simp [halpha], not_isDigit_of_isAlpha halpha, ?_⟩
      rintro rfl
      exact absurd halpha (by decide)
    · decide
  · rintro ⟨hname, hdigit, hdot⟩
    simpa [hdigit, hdot] using hname

end Characters

theorem isIdentifier_iff {name : String} :
    isIdentifier name = true ↔ (∀ c ∈ name.toList, isName c = true) ∧
      ∃ first ∈ name.toList.head?, (first.isDigit || first = '.') = false := by
  unfold isIdentifier
  split
  · rename_i heq
    simp [heq]
  · rename_i first rest heq
    rw [heq, Bool.and_eq_true, startsName_iff, List.all_eq_true, List.forall_mem_cons]
    simp only [List.head?_cons, Option.mem_some_iff, exists_eq_left']
    tauto

theorem isIdentifier_ne_nil {name : String} (h : isIdentifier name = true) : name.toList ≠ [] := by
  intro hnil
  simp [isIdentifier, hnil] at h

theorem isWord_of_mem_name (kind : Scalar) : ∀ c ∈ kind.name.toList, isWord c = true :=
  List.all_eq_true.mp (by cases kind <;> rfl)

@[simp] theorem ofName?_name (kind : Scalar) : Scalar.ofName? kind.name = some kind := by
  cases kind <;> decide

-- The characters that a type may start with.
def opens (c : Char) : Bool :=
  isWord c || c = '(' || c = '\x7b' || c = '?'

section Tokens

variable {start stop : Cursor}

theorem takes_identifier {name : String} (hname : isIdentifier name = true)
    (h : Token name.toList start stop) (hstop : Stops isName stop.rest) :
    Takes identifier name start stop := by
  obtain ⟨hall, first, hfirst, hdigit⟩ := isIdentifier_iff.mp hname
  refine Takes.item ((takes_run_of_token h hall hstop).bind ?_) _
  obtain ⟨rest, heq⟩ := List.head?_eq_some_iff.mp hfirst
  simp only [heq, hdigit, Bool.false_eq_true, if_false]
  rw [← heq, String.ofList_toList]
  exact takes_pure _ _

theorem takes_scalar {kind : Scalar} (h : Token kind.name.toList start stop)
    (hstop : Stops isName stop.rest) : Takes scalar kind start stop := by
  have hrun := takes_run_of_token h (isWord_of_mem_name kind) (hstop.imp fun _ => isName_of_isWord)
  refine Takes.item (hrun.bind ?_) _
  rw [String.ofList_toList, ofName?_name]
  exact takes_pure _ _

theorem takes_digits {word : List Char} (h : Token word start stop) (hne : word ≠ [])
    (hword : ∀ c ∈ word, c.isDigit = true) (hstop : Stops isName stop.rest) :
    Takes digits (word, ⟨start.skip.offset, stop.offset⟩) start stop := by
  have hstop := hstop.imp fun _ hc => isName_of_isWord (isWord_of_isDigit hc)
  refine Takes.item (Takes.spanned ((takes_run_of_token h hword hstop).bind ?_)) _
  rw [if_neg (by simpa using hne)]
  exact takes_pure _ _

theorem takes_noneTy (h : Token "none".toList start stop) (hstop : Stops isName stop.rest) :
    Takes noneTy .none start stop := by
  have hstop := hstop.imp fun _ => isName_of_isWord
  refine Takes.item ((takes_run_of_token h (List.all_eq_true.mp rfl) hstop).bind ?_) _
  rw [if_pos rfl]
  exact takes_pure _ _

theorem fails_identifier (h : Stops isName start.skip.rest) : Fails identifier start := by
  have hrun := takes_run isName start.skip
  rw [takeWhile_eq_nil h] at hrun
  exact Fails.item (hrun.fails_bind (fails_failure _)) _

variable {c : Char}

-- What follows is about the place behind the blanks, where the forms of a type are tried.

-- Where a word is read, another one is not.
theorem fails_noneTy {word : List Char} (h : start.skip.rest.takeWhile isWord = word)
    (hword : word ≠ "none".toList) : Fails noneTy start.skip := by
  rw [← Cursor.skip_skip] at h
  refine Fails.item ((takes_run isWord start.skip.skip).fails_bind ?_) _
  rw [if_neg (by rwa [h])]
  exact fails_failure _

theorem fails_scalar (h : Stops isWord start.skip.rest) : Fails scalar start.skip := by
  rw [← Cursor.skip_skip] at h
  have hrun := takes_run isWord start.skip.skip
  rw [takeWhile_eq_nil h] at hrun
  exact Fails.item (hrun.fails_bind (fails_failure _)) _

-- A form fails where its first token does not stand.
theorem fails_opening {α : Type} {word : List Char} {k : Unit → Reader α} {name : Rule}
    (hword : word.head? = some c) (h : start.skip.rest.head? ≠ some c) :
    Fails (item name (symbol word >>= k)) start.skip :=
  Fails.item (Fails.bind (fails_symbol_of_head hword (by simpa using h))) _

theorem fails_arrayTy (h : start.skip.rest.head? ≠ some 'a') : Fails arrayTy start.skip :=
  Fails.item (Fails.bind (Fails.spanned (Fails.bind
    (fails_symbol_of_head (c := 'a') rfl (by simpa using h))))) _

theorem fails_closureTy {ty : Reader Tree} (h : start.skip.rest.head? ≠ some 'c') :
    Fails (closureTy ty) start.skip :=
  fails_opening rfl h

theorem fails_tyWithin (h : Stops opens start.skip.rest) : ∀ depth, Fails (tyWithin depth) start
  | 0 => fails_failure start
  | depth + 1 => by
      have hword : Stops isWord start.skip.rest := h.imp fun c hc => by simp [opens, hc]
      have hhead : ∀ c, opens c = true → start.skip.rest.head? ≠ some c := by
        intro c hc hhead
        simp [h c hhead] at hc
      refine Fails.item ?_ _
      refine (fails_arrayTy (hhead _ rfl)).orElse ?_
      refine (fails_opening rfl (hhead 's' rfl)).orElse ?_
      refine (fails_opening rfl (hhead 'o' rfl)).orElse ?_
      refine (Fails.bind (fails_closureTy (hhead _ rfl))).orElse ?_
      refine (fails_opening rfl (hhead '(' rfl)).orElse ?_
      refine (fails_opening rfl (hhead '\x7b' rfl)).orElse ?_
      refine (fails_noneTy (takeWhile_eq_nil hword) (by decide)).orElse ?_
      refine (fails_opening rfl (hhead '?' rfl)).orElse ?_
      exact Fails.bind (fails_scalar hword)

end Tokens

-- What can stand at a place with less than `limit` characters behind it is read, if a name does
-- not go on behind it, and leaves less of the text.
def Reads {α : Type} (limit : Nat) (m : Reader α) (P : Part α) : Prop :=
  ∀ a start stop, P a start stop → start.rest.length < limit →
    stop.rest.length < start.rest.length ∧ (Stops isName stop.rest → Takes m a start stop)

namespace Reads

variable {α : Type} {limit : Nat} {m : Reader α} {P : Part α} {as : List α} {close : Char}
  {start stop later : Cursor}

theorem shorter (hm : Reads limit m P) {a : α} (h : P a start stop)
    (hlimit : start.rest.length < limit) : stop.rest.length < start.rest.length :=
  (hm _ _ _ h hlimit).1

theorem takes (hm : Reads limit m P) {a : α} (h : P a start stop)
    (hlimit : start.rest.length < limit) (hstop : Stops isName stop.rest) : Takes m a start stop :=
  (hm _ _ _ h hlimit).2 hstop

theorem stops_of_token {word : List Char} {c : Char} (h : Token word start stop)
    (hword : word.head? = some c) (hc : isName c = false) : Stops isName start.rest :=
  h.stops hword hc fun _ => isName_of_isBlank

theorem chain_shorter (hm : Reads limit m P) (h : Chain P as start stop)
    (hlimit : start.rest.length ≤ limit) : stop.rest.length + as.length ≤ start.rest.length := by
  induction h with
  | nil => simp
  | cons hcomma ha _ ih =>
      have hcomma := hcomma.shorter (by simp)
      have ha := hm.shorter ha (by omega)
      have has := ih (by omega)
      rw [List.length_cons]
      omega

theorem chain_stops (h : Chain P as start stop) (hstop : Stops isName stop.rest) :
    Stops isName start.rest := by
  cases h with
  | nil => exact hstop
  | cons hcomma => exact stops_of_token hcomma rfl (by decide)

theorem many (hm : Reads limit m P) (h : Chain P as start stop) (hlimit : start.rest.length ≤ limit)
    (hstop : Stops isName stop.rest) (hend : Fails (do symbol [',']; m) stop) {count : Nat}
    (hcount : as.length ≤ count) : Takes (many (do symbol [',']; m) count) as start stop := by
  induction h generalizing count with
  | nil =>
      cases count with
      | zero => exact takes_pure _ _
      | succ count => exact hend.bind.orElse_takes (takes_pure _ _)
  | cons hcomma ha has ih =>
      cases count with
      | zero => cases hcount
      | succ count =>
          have hnext := hcomma.shorter (by simp)
          have hmid := hm.shorter ha (by omega)
          have hfirst := hm.takes ha (by omega) (chain_stops has hstop)
          have hothers := ih (by omega) hstop hend (Nat.le_of_succ_le_succ hcount)
          refine Takes.orElse (((takes_symbol hcomma).bind hfirst).bind ?_)
          exact hothers.bind (takes_pure _ _)

theorem separated (hm : Reads limit m P) (h : Separated P as start stop)
    (hlimit : start.rest.length < limit) (hstop : Stops isName stop.rest)
    (hend : Fails (do symbol [',']; m) stop) : Takes (separated m) as start stop := by
  cases h with
  | mk ha has =>
      have hmid := hm.shorter ha hlimit
      have hlength := hm.chain_shorter has (by omega)
      refine (hm.takes ha hlimit (chain_stops has hstop)).bind ((takes_get _).bind ?_)
      exact (hm.many has (by omega) hstop hend (by omega)).bind (takes_pure _ _)

theorem separated_shorter (hm : Reads limit m P) (h : Separated P as start stop)
    (hlimit : start.rest.length < limit) : stop.rest.length < start.rest.length := by
  cases h with
  | mk ha has =>
      have hmid := hm.shorter ha hlimit
      have hlength := hm.chain_shorter has (by omega)
      omega

theorem items (hm : Reads limit m P) (h : Items P as start stop)
    (hlimit : start.rest.length < limit) (hclose : Token [close] stop later) (hcomma : close ≠ ',')
    (hname : isName close = false) (hfails : Fails m stop) :
    Takes (orEmpty (Reader.separated m)) as start stop := by
  cases h with
  | none => exact Fails.orEmpty hfails.bind
  | some has =>
      have hend : Fails (do symbol [',']; m) stop :=
        Fails.bind (fails_symbol_of_head rfl (hclose.head_ne rfl hcomma))
      exact takes_orEmpty (hm.separated has hlimit (stops_of_token hclose rfl hname) hend)

-- With a comma behind the last item, it is the next one that fails.
theorem endedItems (hm : Reads limit m P) (h : EndedItems P as start stop)
    (hlimit : start.rest.length < limit) (hclose : Token [close] stop later) (hcomma : close ≠ ',')
    (hname : isName close = false) (hfails : Fails m stop) :
    Takes (orEmpty (separatedOrEnded m)) as start stop := by
  have hnone : Fails (symbol [',']) stop :=
    fails_symbol_of_head rfl (hclose.head_ne rfl hcomma)
  cases h with
  | none => exact Fails.orEmpty (Fails.bind hfails.bind)
  | some has =>
      have hread := hm.separated has hlimit (stops_of_token hclose rfl hname) hnone.bind
      refine takes_orEmpty (hread.bind ?_)
      exact (hnone.orElse_takes (takes_pure _ _)).bind (takes_pure _ _)
  | ended has hlast =>
      have hstop := stops_of_token hlast rfl (by decide)
      have hread := hm.separated has hlimit hstop ((takes_symbol hlast).fails_bind hfails)
      refine takes_orEmpty (hread.bind ?_)
      exact ((takes_symbol hlast).orElse).bind (takes_pure _ _)

theorem items_shorter (hm : Reads limit m P) (h : Items P as start stop)
    (hlimit : start.rest.length < limit) : stop.rest.length ≤ start.rest.length := by
  cases h with
  | none => exact Nat.le_refl _
  | some has => exact Nat.le_of_lt (hm.separated_shorter has hlimit)

theorem endedItems_shorter (hm : Reads limit m P) (h : EndedItems P as start stop)
    (hlimit : start.rest.length < limit) : stop.rest.length ≤ start.rest.length := by
  cases h with
  | none => exact Nat.le_refl _
  | some has => exact Nat.le_of_lt (hm.separated_shorter has hlimit)
  | ended has hlast =>
      exact Nat.le_of_lt ((hlast.shorter (by simp)).trans (hm.separated_shorter has hlimit))

end Reads

section Forms

variable {limit : Nat} {ty : Reader Tree} {start stop : Cursor}

theorem name_ne_nil (kind : Scalar) : kind.name.toList ≠ [] := by
  cases kind <;> decide

-- No type starts with a token that ends a list.
def Closes (ty : Reader Tree) : Prop :=
  ∀ c start stop, Token [c] start stop → opens c = false → Fails ty start

theorem closes_tyWithin (depth : Nat) : Closes (tyWithin depth) := by
  intro c start stop h hc
  refine fails_tyWithin (fun first hfirst => ?_) depth
  rw [h.head rfl] at hfirst
  cases hfirst
  exact hc

theorem reads_arrayTy {elem : Scalar} {word : List Char} {angle kind comma rank last : Cursor}
    (harray : Token "array".toList start angle) (hopen : Token ['<'] angle kind)
    (helem : Token elem.name.toList kind comma) (hcomma : Token [','] comma rank) (hne : word ≠ [])
    (hword : ∀ c ∈ word, c.isDigit = true) (hdigits : Token word rank last)
    (hclose : Token ['>'] last stop) :
    stop.rest.length < start.rest.length ∧
      Takes arrayTy
        (.array elem word ⟨rank.skip.offset, last.offset⟩ ⟨start.skip.offset, stop.offset⟩)
        start stop := by
  have := harray.shorter (by decide)
  have := hopen.shorter (by simp)
  have := helem.shorter (name_ne_nil elem)
  have := hcomma.shorter (by simp)
  have := hdigits.shorter hne
  have := hclose.shorter (by simp)
  refine ⟨by omega, Takes.item ?_ _⟩
  have helem := takes_scalar helem (Reads.stops_of_token hcomma rfl (by decide))
  have hdigits := takes_digits hdigits hne hword (Reads.stops_of_token hclose rfl (by decide))
  refine Takes.bind (a := ((elem, word, _), _)) (Takes.spanned ?_) (takes_pure _ _)
  refine (takes_symbol (Token.skip_iff.mpr harray)).bind ((takes_symbol hopen).bind ?_)
  refine helem.bind ((takes_symbol hcomma).bind ?_)
  exact hdigits.bind ((takes_symbol hclose).bind (takes_pure _ _))

theorem reads_sliceTy (hty : Reads limit ty Spells) {first second third : Tree}
    {angle c₁ c₂ c₃ c₄ c₅ last : Cursor} (hslice : Token "slice".toList start angle)
    (hopen : Token ['<'] angle c₁) (hfirst : Spells first c₁ c₂) (hcomma : Token [','] c₂ c₃)
    (hsecond : Spells second c₃ c₄) (hcomma' : Token [','] c₄ c₅) (hthird : Spells third c₅ last)
    (hclose : Token ['>'] last stop) (hlimit : start.rest.length < limit + 1) :
    stop.rest.length < start.rest.length ∧
      Takes (sliceTy ty) (.slice first second third) start stop := by
  have := hslice.shorter (by decide)
  have := hopen.shorter (by simp)
  have := hty.shorter hfirst (by omega)
  have := hcomma.shorter (by simp)
  have := hty.shorter hsecond (by omega)
  have := hcomma'.shorter (by simp)
  have := hty.shorter hthird (by omega)
  have := hclose.shorter (by simp)
  refine ⟨by omega, Takes.item ?_ _⟩
  have hfirst := hty.takes hfirst (by omega) (Reads.stops_of_token hcomma rfl (by decide))
  have hsecond := hty.takes hsecond (by omega) (Reads.stops_of_token hcomma' rfl (by decide))
  have hthird := hty.takes hthird (by omega) (Reads.stops_of_token hclose rfl (by decide))
  refine (takes_symbol (Token.skip_iff.mpr hslice)).bind ((takes_symbol hopen).bind ?_)
  refine hfirst.bind ((takes_symbol hcomma).bind (hsecond.bind ((takes_symbol hcomma').bind ?_)))
  exact hthird.bind ((takes_symbol hclose).bind (takes_pure _ _))

theorem reads_closureTy (hty : Reads limit ty Spells) (hcloses : Closes ty) :
    Reads (limit + 1) (closureTy ty) SpellsClosure := by
  intro closure start stop h hlimit
  cases h with
  | mk hclosure hangle hname hfunc hend hopen hcaptured hclose =>
      have := hclosure.shorter (by decide)
      have := hangle.shorter (by simp)
      have := hfunc.shorter (isIdentifier_ne_nil hname)
      have := hend.shorter (by simp)
      have := hopen.shorter (by simp)
      have := hty.items_shorter hcaptured (by omega)
      have := hclose.shorter (by simp)
      refine ⟨by omega, fun _ => Takes.item ?_ _⟩
      have hfunc := takes_identifier hname hfunc (Reads.stops_of_token hend rfl (by decide))
      have hcaptured := hty.items hcaptured (by omega) hclose (by decide) (by decide)
        (hcloses _ _ _ hclose (by decide))
      refine (takes_symbol (Token.skip_iff.mpr hclosure)).bind ((takes_symbol hangle).bind ?_)
      refine hfunc.bind ((takes_symbol hend).bind ((takes_symbol hopen).bind ?_))
      exact hcaptured.bind ((takes_symbol hclose).bind (takes_pure _ _))

theorem reads_closureSetTy (hty : Reads limit ty Spells) (hcloses : Closes ty)
    {members : List (String × List Tree)} {bracket first last : Cursor}
    (hset : Token "one_of".toList start bracket) (hopen : Token ['['] bracket first)
    (hmembers : Separated SpellsClosure members first last) (hclose : Token [']'] last stop)
    (hlimit : start.rest.length < limit + 1) :
    stop.rest.length < start.rest.length ∧
      Takes (closureSetTy ty) (.closureSet members) start stop := by
  have hclosures := reads_closureTy hty hcloses
  have := hset.shorter (by decide)
  have := hopen.shorter (by simp)
  have := hclosures.separated_shorter hmembers (by omega)
  have := hclose.shorter (by simp)
  refine ⟨by omega, Takes.item ?_ _⟩
  have hstop := Reads.stops_of_token hclose rfl (by decide)
  have hend : Fails (do symbol [',']; closureTy ty) last :=
    Fails.bind (fails_symbol_of_head rfl (hclose.head_ne rfl (by decide)))
  have hmembers := hclosures.separated hmembers (by omega) hstop hend
  refine (takes_symbol (Token.skip_iff.mpr hset)).bind ((takes_symbol hopen).bind ?_)
  exact hmembers.bind ((takes_symbol hclose).bind (takes_pure _ _))

theorem reads_tupleTy (hty : Reads limit ty Spells) (hcloses : Closes ty) {elems : List Tree}
    {first last : Cursor} (hopen : Token ['('] start first)
    (helems : EndedItems Spells elems first last) (hclose : Token [')'] last stop)
    (hlimit : start.rest.length < limit + 1) :
    stop.rest.length < start.rest.length ∧ Takes (tupleTy ty) (.tuple elems) start stop := by
  have := hopen.shorter (by simp)
  have := hty.endedItems_shorter helems (by omega)
  have := hclose.shorter (by simp)
  refine ⟨by omega, Takes.item ?_ _⟩
  have helems := hty.endedItems helems (by omega) hclose (by decide) (by decide)
    (hcloses _ _ _ hclose (by decide))
  refine (takes_symbol (Token.skip_iff.mpr hopen)).bind ?_
  exact helems.bind ((takes_symbol hclose).bind (takes_pure _ _))

theorem reads_field (hty : Reads limit ty Spells) : Reads (limit + 1) (field ty) SpellsField := by
  intro field start stop h hlimit
  cases h with
  | mk hname htoken hcolon htree =>
      have := htoken.shorter (isIdentifier_ne_nil hname)
      have := hcolon.shorter (by simp)
      have := hty.shorter htree (by omega)
      refine ⟨by omega, fun hstop => ?_⟩
      have htoken := Token.skip_iff.mpr htoken
      have hread := takes_identifier hname htoken (Reads.stops_of_token hcolon rfl (by decide))
      have htree := hty.takes htree (by omega) hstop
      refine Takes.bind (a := ((_, _), _)) (Takes.item (Takes.spanned ?_) _) (takes_pure _ _)
      exact hread.bind ((takes_symbol hcolon).bind (htree.bind (takes_pure _ _)))

theorem reads_structTy (hty : Reads limit ty Spells) {fields : List (Span × String × Tree)}
    {first last : Cursor} (hopen : Token ['{'] start first)
    (hfields : EndedItems SpellsField fields first last) (hclose : Token ['}'] last stop)
    (hlimit : start.rest.length < limit + 1) :
    stop.rest.length < start.rest.length ∧ Takes (structTy ty) (.struct fields) start stop := by
  have hfield := reads_field hty
  have := hopen.shorter (by simp)
  have := hfield.endedItems_shorter hfields (by omega)
  have := hclose.shorter (by simp)
  refine ⟨by omega, Takes.item ?_ _⟩
  have hfails : Fails (field ty) last := by
    refine Fails.bind (Fails.item (Fails.spanned (Fails.bind (fails_identifier ?_))) _)
    simp [Stops, hclose.head rfl]
    decide
  have hfields := hfield.endedItems hfields (by omega) hclose (by decide) (by decide) hfails
  refine (takes_symbol (Token.skip_iff.mpr hopen)).bind ?_
  exact hfields.bind ((takes_symbol hclose).bind (takes_pure _ _))

end Forms

section Alternatives

variable {ty other : Reader Tree} {tree : Tree} {start stop : Cursor} {c : Char}

-- What starts with none of these letters is not read as one of the first forms.
theorem takes_other (hhead : start.skip.rest.head? = some c) (hc : c ∉ ['a', 's', 'o', 'c'])
    (h : Takes other tree start.skip stop) :
    Takes
      (arrayTy <|> sliceTy ty <|> closureSetTy ty <|>
        (do
          let (func, captured) ← closureTy ty
          return .closure func captured) <|> other)
      tree start.skip stop := by
  simp only [List.mem_cons, List.not_mem_nil, or_false, not_or] at hc
  obtain ⟨ha, hs, ho, hcl⟩ := hc
  have hne : ∀ c', c ≠ c' → start.skip.rest.head? ≠ some c' := by
    intro c' hc'
    simpa [hhead] using hc'
  refine (fails_arrayTy (hne _ ha)).orElse_takes ?_
  refine (fails_opening rfl (hne _ hs)).orElse_takes ?_
  refine (fails_opening rfl (hne _ ho)).orElse_takes ?_
  exact (Fails.bind (fails_closureTy (hne _ hcl))).orElse_takes h

theorem takes_word (hhead : start.skip.rest.head? = some c)
    (hc : c ∉ ['a', 's', 'o', 'c', '(', '\x7b']) (h : Takes other tree start.skip stop) :
    Takes
      (arrayTy <|> sliceTy ty <|> closureSetTy ty <|>
        (do
          let (func, captured) ← closureTy ty
          return .closure func captured) <|> tupleTy ty <|> structTy ty <|> other)
      tree start.skip stop := by
  simp only [List.mem_cons, List.not_mem_nil, or_false, not_or] at hc
  obtain ⟨ha, hs, ho, hcl, hp, hb⟩ := hc
  refine takes_other hhead (by simp [ha, hs, ho, hcl]) ?_
  refine (fails_opening rfl (by simpa [hhead] using hp)).orElse_takes ?_
  exact (fails_opening rfl (by simpa [hhead] using hb)).orElse_takes h

end Alternatives

-- By induction on the depth. A form holds types only behind its first token, so they have less
-- text before them.
theorem reads_tyWithin : ∀ depth, Reads depth (tyWithin depth) Spells
  | 0 => fun _ _ _ _ h => nomatch h
  | depth + 1 => by
      intro tree start stop h hlimit
      have hty := reads_tyWithin depth
      have hcloses := closes_tyWithin depth
      cases h with
      | array harray hopen helem hcomma hne hword hdigits hclose =>
          obtain ⟨hshorter, hread⟩ :=
            reads_arrayTy harray hopen helem hcomma hne hword hdigits hclose
          refine ⟨hshorter, fun _ => Takes.item ?_ _⟩
          exact (takes_item_skip.mpr hread).orElse
      | slice hslice hopen hfirst hcomma hsecond hcomma' hthird hclose =>
          obtain ⟨hshorter, hread⟩ :=
            reads_sliceTy hty hslice hopen hfirst hcomma hsecond hcomma' hthird hclose hlimit
          refine ⟨hshorter, fun _ => Takes.item ?_ _⟩
          refine (fails_arrayTy (hslice.head_ne (c := 's') rfl (by decide))).orElse_takes ?_
          exact (takes_item_skip.mpr hread).orElse
      | closureSet hset hopen hmembers hclose =>
          obtain ⟨hshorter, hread⟩ :=
            reads_closureSetTy hty hcloses hset hopen hmembers hclose hlimit
          refine ⟨hshorter, fun _ => Takes.item ?_ _⟩
          have hhead : ∀ c, 'o' ≠ c → start.skip.rest.head? ≠ some c := fun _ => hset.head_ne rfl
          refine (fails_arrayTy (hhead _ (by decide))).orElse_takes ?_
          refine (fails_opening (c := 's') rfl (hhead _ (by decide))).orElse_takes ?_
          exact (takes_item_skip.mpr hread).orElse
      | closure hclosure =>
          obtain ⟨angle, hfirst⟩ : ∃ angle, Token "closure".toList start angle := by
            cases hclosure with
            | mk hfirst => exact ⟨_, hfirst⟩
          have hhead : ∀ c, 'c' ≠ c → start.skip.rest.head? ≠ some c := fun _ => hfirst.head_ne rfl
          have hclosures := reads_closureTy hty hcloses
          refine ⟨hclosures.shorter hclosure hlimit, fun hstop => Takes.item ?_ _⟩
          have hread := hclosures.takes hclosure hlimit hstop
          refine (fails_arrayTy (hhead _ (by decide))).orElse_takes ?_
          refine (fails_opening (c := 's') rfl (hhead _ (by decide))).orElse_takes ?_
          refine (fails_opening (c := 'o') rfl (hhead _ (by decide))).orElse_takes ?_
          refine Takes.orElse (Takes.bind (a := (_, _)) (takes_item_skip.mpr hread) ?_)
          exact takes_pure _ _
      | tuple hopen helems hclose =>
          obtain ⟨hshorter, hread⟩ := reads_tupleTy hty hcloses hopen helems hclose hlimit
          refine ⟨hshorter, fun _ => Takes.item ?_ _⟩
          refine takes_other (hopen.head (c := '(') rfl) (by decide) ?_
          exact (takes_item_skip.mpr hread).orElse
      | struct hopen hfields hclose =>
          obtain ⟨hshorter, hread⟩ := reads_structTy hty hopen hfields hclose hlimit
          refine ⟨hshorter, fun _ => Takes.item ?_ _⟩
          refine takes_other (hopen.head (c := '\x7b') rfl) (by decide) ?_
          refine (fails_opening (c := '(') rfl (hopen.head_ne rfl (by decide))).orElse_takes ?_
          exact (takes_item_skip.mpr hread).orElse
      | none htoken =>
          refine ⟨htoken.shorter (by decide), fun hstop => Takes.item ?_ _⟩
          refine takes_word (htoken.head (c := 'n') rfl) (by decide) ?_
          exact (takes_item_skip.mpr (takes_noneTy htoken hstop)).orElse
      | unknown htoken =>
          refine ⟨htoken.shorter (by simp), fun hstop => Takes.item ?_ _⟩
          refine takes_word (htoken.head (c := '?') rfl) (by decide) ?_
          have hword : Stops isWord start.skip.rest := by
            simp [Stops, htoken.head rfl]
            decide
          refine (fails_noneTy (takeWhile_eq_nil hword) (by decide)).orElse_takes ?_
          refine Takes.orElse (Takes.item ?_ _)
          exact (takes_symbol (by simpa using htoken)).bind (takes_pure _ _)
      | scalar htoken =>
          rename_i kind
          refine ⟨htoken.shorter (name_ne_nil kind), fun hstop => Takes.item ?_ _⟩
          obtain ⟨c, hhead, hc, hquestion⟩ : ∃ c, kind.name.toList.head? = some c ∧
              c ∉ ['a', 's', 'o', 'c', '(', '\x7b'] ∧ c ≠ '?' := by
            cases kind <;> exact ⟨_, rfl, by decide, by decide⟩
          refine takes_word (htoken.head hhead) hc ?_
          have hword : start.skip.rest.takeWhile isWord = kind.name.toList := by
            rw [htoken.rest]
            exact takeWhile_append (isWord_of_mem_name kind) (hstop.imp fun _ => isName_of_isWord)
          refine (fails_noneTy hword (by cases kind <;> decide)).orElse_takes ?_
          refine (fails_opening rfl (htoken.head_ne hhead hquestion)).orElse_takes ?_
          exact (takes_item_skip.mpr (takes_scalar htoken hstop)).bind (takes_pure _ _)

section Whole

variable {tree : Tree} {start stop : Cursor}

theorem takes_ty (h : Spells tree start stop) (hstop : Stops isName stop.rest) :
    Takes ty tree start stop :=
  (takes_get start).bind ((reads_tyWithin _).takes h (Nat.lt_succ_self _) hstop)

theorem takes_endOfInput (h : stop.skip.rest = []) : Takes endOfInput () stop stop.skip := by
  refine Takes.item ((takes_get _).bind ?_) _
  rw [h]
  exact takes_pure _ _

theorem stops_of_end (h : stop.skip.rest = []) : Stops isName stop.rest := by
  rw [Cursor.rest_skip] at h
  cases hrest : stop.rest with
  | nil => exact stops_nil
  | cons c rest =>
      rw [hrest, List.dropWhile_cons] at h
      split at h
      · exact stops_cons.mpr (isName_of_isBlank ‹_›)
      · cases h

theorem takes_signature (h : Spells tree start stop) (hend : stop.skip.rest = []) :
    Takes signature tree start stop.skip := by
  refine Takes.rule ?_ _
  exact (takes_ty h (stops_of_end hend)).bind ((takes_endOfInput hend).bind (takes_pure _ _))

theorem reads_ty (limit : Nat) : Reads limit ty Spells :=
  fun _ _ _ h _ => ⟨(reads_tyWithin _).shorter h (Nat.lt_succ_self _), takes_ty h⟩

theorem fails_ty (h : start.skip.rest = []) : Fails ty start :=
  (takes_get start).fails_bind (fails_tyWithin (h ▸ stops_nil) _)

theorem takes_signatureList {trees : List Tree} (h : Items Spells trees start stop)
    (hend : stop.skip.rest = []) : Takes signatureList trees start stop.skip := by
  have htrees : Takes (orEmpty (separated ty)) trees start stop := by
    cases h with
    | none => exact Fails.orEmpty (fails_ty hend).bind
    | some has =>
        have hstop := stops_of_end hend
        have hcomma : Fails (symbol [',']) stop := fails_symbol (by simp [hend])
        exact takes_orEmpty ((reads_ty _).separated has (Nat.lt_succ_self _) hstop hcomma.bind)
  refine Takes.rule ?_ _
  exact htrees.bind ((takes_endOfInput hend).bind (takes_pure _ _))

theorem readAll_of_takes {α : Type} {reader : Reader α} {a : α} {text : List Char}
    (h : Takes reader a ⟨text, 0⟩ stop) : readAll reader text = .ok a := by
  obtain ⟨furthest, hread⟩ := h {}
  unfold readAll
  rw [hread]

end Whole

end RankPoly.Signature
