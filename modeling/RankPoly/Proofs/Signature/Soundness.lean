import RankPoly.Proofs.Signature.Reading

namespace RankPoly.Signature

open Reader

section Tokens

variable {start stop : Cursor}

theorem spells_of_identifier {name : String} (h : Gives identifier name start stop) :
    isIdentifier name = true ∧ Token name.toList start stop := by
  obtain ⟨word, _, hrun, hword⟩ := h.of_item.of_bind
  obtain ⟨htoken, hall⟩ := token_of_gives_run hrun
  cases word with
  | nil => exact ((fails_failure _).not_gives hword).elim
  | cons first rest =>
      dsimp only at hword
      split at hword
      · exact ((fails_failure _).not_gives hword).elim
      · rename_i hfirst
        obtain ⟨rfl, rfl⟩ := hword.of_pure
        refine ⟨isIdentifier_iff.mpr ?_, ?_⟩ <;> rw [String.toList_ofList]
        · exact ⟨hall, first, rfl, by simpa using hfirst⟩
        · exact htoken

theorem spells_of_scalar {kind : Scalar} (h : Gives scalar kind start stop) :
    Token kind.name.toList start stop := by
  obtain ⟨word, _, hrun, hword⟩ := h.of_item.of_bind
  obtain ⟨htoken, -⟩ := token_of_gives_run hrun
  split at hword
  · rename_i kind' hkind
    obtain ⟨rfl, rfl⟩ := hword.of_pure
    have hname : kind.name = String.ofList word := by
      simpa using List.find?_some hkind
    rwa [hname, String.toList_ofList]
  · exact ((fails_failure _).not_gives hword).elim

theorem spells_of_digits {word : List Char} {span : Span}
    (h : Gives digits (word, span) start stop) :
    word ≠ [] ∧ (∀ c ∈ word, c.isDigit = true) ∧ Token word start stop ∧
      span = ⟨start.skip.offset, stop.offset⟩ := by
  obtain ⟨hbody, hspan⟩ := h.of_item.of_spanned
  obtain ⟨word', _, hrun, hword⟩ := hbody.of_bind
  obtain ⟨htoken, hall⟩ := token_of_gives_run hrun
  split at hword
  · exact ((fails_failure _).not_gives hword).elim
  · rename_i hne
    obtain ⟨rfl, rfl⟩ := hword.of_pure
    exact ⟨by simpa using hne, hall, htoken, hspan⟩

end Tokens

section Lists

variable {α : Type} {m : Reader α} {P : Part α} {as : List α} {start stop : Cursor}

-- All that the reader can give may stand where it was read.
def Sound (m : Reader α) (P : Part α) : Prop :=
  ∀ {{a start stop}}, Gives m a start stop → P a start stop

theorem Sound.many (hm : Sound m P) {count : Nat}
    (h : Gives (many (do symbol [',']; m) count) as start stop) : Chain P as start stop := by
  induction count generalizing as start with
  | zero =>
      obtain ⟨rfl, rfl⟩ := h.of_pure
      exact .nil
  | succ count ih =>
      rcases h.of_orElse with hsome | hnone
      · obtain ⟨a, mid, hfirst, hrest⟩ := hsome.of_bind
        obtain ⟨others, _, hothers, hpure⟩ := hrest.of_bind
        obtain ⟨rfl, rfl⟩ := hpure.of_pure
        obtain ⟨_, _, hcomma, ha⟩ := hfirst.of_bind
        exact .cons hcomma.token (hm ha) (ih hothers)
      · obtain ⟨rfl, rfl⟩ := hnone.of_pure
        exact .nil

theorem Sound.separated (hm : Sound m P) : Sound (separated m) (Separated P) := by
  intro as start stop h
  obtain ⟨a, mid, ha, hrest⟩ := h.of_bind
  obtain ⟨others, _, hothers, hpure⟩ := (Gives.of_get hrest).of_bind
  obtain ⟨rfl, rfl⟩ := hpure.of_pure
  exact .mk (hm ha) (hm.many hothers)

theorem Sound.items (hm : Sound m P) : Sound (orEmpty (Reader.separated m)) (Items P) := by
  intro as start stop h
  rcases h.of_orElse with hsome | hnone
  · exact .some (hm.separated hsome)
  · obtain ⟨rfl, rfl⟩ := hnone.of_pure
    exact .none

theorem Sound.endedItems (hm : Sound m P) :
    Sound (orEmpty (separatedOrEnded m)) (EndedItems P) := by
  intro as start stop h
  rcases h.of_orElse with hsome | hnone
  · obtain ⟨as', mid, has, hrest⟩ := hsome.of_bind
    obtain ⟨_, _, hcomma, hpure⟩ := hrest.of_bind
    obtain ⟨rfl, rfl⟩ := hpure.of_pure
    rcases hcomma.of_orElse with hcomma | hcomma
    · exact .ended (hm.separated has) hcomma.token
    · obtain ⟨-, rfl⟩ := hcomma.of_pure
      exact .some (hm.separated has)
  · obtain ⟨rfl, rfl⟩ := hnone.of_pure
    exact .none

end Lists

section Forms

variable {ty : Reader Tree}

theorem sound_arrayTy : Sound arrayTy Spells := by
  intro tree start stop h
  obtain ⟨⟨⟨elem, word, rankSpan⟩, span⟩, _, hspanned, hpure⟩ := h.of_item.of_bind
  obtain ⟨rfl, rfl⟩ := hpure.of_pure
  obtain ⟨hbody, hspan⟩ := hspanned.of_spanned
  obtain ⟨_, _, harray, hbody⟩ := hbody.of_bind
  obtain ⟨_, _, hopen, hbody⟩ := hbody.of_bind
  obtain ⟨_, _, helem, hbody⟩ := hbody.of_bind
  obtain ⟨_, _, hcomma, hbody⟩ := hbody.of_bind
  obtain ⟨⟨_, _⟩, _, hdigits, hbody⟩ := hbody.of_bind
  obtain ⟨_, _, hclose, hbody⟩ := hbody.of_bind
  obtain ⟨hresult, rfl⟩ := hbody.of_pure
  cases hresult
  obtain ⟨hne, hall, hword, hrank⟩ := spells_of_digits hdigits
  subst hrank hspan
  exact .array (Token.skip_iff.mp harray.token) hopen.token (spells_of_scalar helem) hcomma.token
    hne hall hword hclose.token

theorem sound_sliceTy (hty : Sound ty Spells) : Sound (sliceTy ty) Spells := by
  intro tree start stop h
  obtain ⟨_, _, hslice, hbody⟩ := h.of_item.of_bind
  obtain ⟨_, _, hopen, hbody⟩ := hbody.of_bind
  obtain ⟨_, _, hfirst, hbody⟩ := hbody.of_bind
  obtain ⟨_, _, hcomma, hbody⟩ := hbody.of_bind
  obtain ⟨_, _, hsecond, hbody⟩ := hbody.of_bind
  obtain ⟨_, _, hcomma', hbody⟩ := hbody.of_bind
  obtain ⟨_, _, hthird, hbody⟩ := hbody.of_bind
  obtain ⟨_, _, hclose, hbody⟩ := hbody.of_bind
  obtain ⟨rfl, rfl⟩ := hbody.of_pure
  exact .slice (Token.skip_iff.mp hslice.token) hopen.token (hty hfirst) hcomma.token (hty hsecond)
    hcomma'.token (hty hthird) hclose.token

theorem sound_closureTy (hty : Sound ty Spells) : Sound (closureTy ty) SpellsClosure := by
  intro closure start stop h
  obtain ⟨_, _, hclosure, hbody⟩ := h.of_item.of_bind
  obtain ⟨_, _, hangle, hbody⟩ := hbody.of_bind
  obtain ⟨_, _, hfunc, hbody⟩ := hbody.of_bind
  obtain ⟨_, _, hend, hbody⟩ := hbody.of_bind
  obtain ⟨_, _, hopen, hbody⟩ := hbody.of_bind
  obtain ⟨_, _, hcaptured, hbody⟩ := hbody.of_bind
  obtain ⟨_, _, hclose, hbody⟩ := hbody.of_bind
  obtain ⟨rfl, rfl⟩ := hbody.of_pure
  obtain ⟨hname, hfunc⟩ := spells_of_identifier hfunc
  exact .mk (Token.skip_iff.mp hclosure.token) hangle.token hname hfunc hend.token hopen.token
    (hty.items hcaptured) hclose.token

theorem sound_closureSetTy (hty : Sound ty Spells) : Sound (closureSetTy ty) Spells := by
  intro tree start stop h
  obtain ⟨_, _, hset, hbody⟩ := h.of_item.of_bind
  obtain ⟨_, _, hopen, hbody⟩ := hbody.of_bind
  obtain ⟨_, _, hmembers, hbody⟩ := hbody.of_bind
  obtain ⟨_, _, hclose, hbody⟩ := hbody.of_bind
  obtain ⟨rfl, rfl⟩ := hbody.of_pure
  exact .closureSet (Token.skip_iff.mp hset.token) hopen.token
    ((sound_closureTy hty).separated hmembers) hclose.token

theorem sound_tupleTy (hty : Sound ty Spells) : Sound (tupleTy ty) Spells := by
  intro tree start stop h
  obtain ⟨_, _, hopen, hbody⟩ := h.of_item.of_bind
  obtain ⟨_, _, helems, hbody⟩ := hbody.of_bind
  obtain ⟨_, _, hclose, hbody⟩ := hbody.of_bind
  obtain ⟨rfl, rfl⟩ := hbody.of_pure
  exact .tuple (Token.skip_iff.mp hopen.token) (hty.endedItems helems) hclose.token

theorem sound_field (hty : Sound ty Spells) : Sound (field ty) SpellsField := by
  intro field start stop h
  obtain ⟨⟨⟨name, tree⟩, span⟩, _, hitem, hpure⟩ := h.of_bind
  obtain ⟨rfl, rfl⟩ := hpure.of_pure
  obtain ⟨hbody, hspan⟩ := hitem.of_item.of_spanned
  obtain ⟨_, _, hname, hbody⟩ := hbody.of_bind
  obtain ⟨_, _, hcolon, hbody⟩ := hbody.of_bind
  obtain ⟨_, _, htree, hbody⟩ := hbody.of_bind
  obtain ⟨hresult, rfl⟩ := hbody.of_pure
  cases hresult
  subst hspan
  obtain ⟨hname, htoken⟩ := spells_of_identifier hname
  exact .mk hname (Token.skip_iff.mp htoken) hcolon.token (hty htree)

theorem sound_structTy (hty : Sound ty Spells) : Sound (structTy ty) Spells := by
  intro tree start stop h
  obtain ⟨_, _, hopen, hbody⟩ := h.of_item.of_bind
  obtain ⟨_, _, hfields, hbody⟩ := hbody.of_bind
  obtain ⟨_, _, hclose, hbody⟩ := hbody.of_bind
  obtain ⟨rfl, rfl⟩ := hbody.of_pure
  exact .struct (Token.skip_iff.mp hopen.token) ((sound_field hty).endedItems hfields) hclose.token

theorem sound_noneTy : Sound noneTy Spells := by
  intro tree start stop h
  obtain ⟨word, _, hrun, hword⟩ := h.of_item.of_bind
  obtain ⟨htoken, -⟩ := token_of_gives_run hrun
  split at hword
  · rename_i hnone
    obtain ⟨rfl, rfl⟩ := hword.of_pure
    exact .none (hnone ▸ htoken)
  · exact ((fails_failure _).not_gives hword).elim

theorem sound_unknownTy : Sound unknownTy Spells := by
  intro tree start stop h
  obtain ⟨_, _, htoken, hpure⟩ := h.of_item.of_bind
  obtain ⟨rfl, rfl⟩ := hpure.of_pure
  exact .unknown (Token.skip_iff.mp htoken.token)

end Forms

theorem sound_tyWithin : ∀ depth, Sound (tyWithin depth) Spells
  | 0 => fun _ _ _ h => ((fails_failure _).not_gives h).elim
  | depth + 1 => by
      intro tree start stop h
      have hty := sound_tyWithin depth
      rcases h.of_item.of_orElse with h | h
      · exact sound_arrayTy (gives_item_skip.mp h)
      rcases h.of_orElse with h | h
      · exact sound_sliceTy hty (gives_item_skip.mp h)
      rcases h.of_orElse with h | h
      · exact sound_closureSetTy hty (gives_item_skip.mp h)
      rcases h.of_orElse with h | h
      · obtain ⟨⟨func, captured⟩, _, hclosure, hpure⟩ := h.of_bind
        obtain ⟨rfl, rfl⟩ := hpure.of_pure
        exact .closure (sound_closureTy hty (gives_item_skip.mp hclosure))
      rcases h.of_orElse with h | h
      · exact sound_tupleTy hty (gives_item_skip.mp h)
      rcases h.of_orElse with h | h
      · exact sound_structTy hty (gives_item_skip.mp h)
      rcases h.of_orElse with h | h
      · exact sound_noneTy (gives_item_skip.mp h)
      rcases h.of_orElse with h | h
      · exact sound_unknownTy (gives_item_skip.mp h)
      obtain ⟨kind, _, hkind, hpure⟩ := h.of_bind
      obtain ⟨rfl, rfl⟩ := hpure.of_pure
      exact .scalar (spells_of_scalar (gives_item_skip.mp hkind))

theorem sound_ty : Sound ty Spells :=
  fun _ _ _ h => sound_tyWithin _ h.of_get

section Whole

variable {α : Type} {reader : Reader α} {a : α} {text : List Char} {start stop : Cursor}

theorem ends_of_endOfInput {u : Unit} (h : Gives endOfInput u start stop) :
    start.skip.rest = [] := by
  have hempty := h.of_item.of_get
  split at hempty
  · rename_i hnil
    simpa using hnil
  · exact ((fails_failure _).not_gives hempty).elim

theorem gives_of_readAll (h : readAll reader text = .ok a) :
    ∃ stop, Gives reader a ⟨text, 0⟩ stop := by
  unfold readAll at h
  split at h
  · rename_i result stop furthest heq
    cases h
    exact ⟨stop, _, _, heq⟩
  · cases h

theorem sound_signature {tree : Tree} (h : Gives signature tree start stop) :
    ∃ last, Spells tree start last ∧ last.skip.rest = [] := by
  obtain ⟨_, last, hty, hrest⟩ := h.of_rule.of_bind
  obtain ⟨_, _, hend, hpure⟩ := hrest.of_bind
  obtain ⟨rfl, rfl⟩ := hpure.of_pure
  exact ⟨last, sound_ty hty, ends_of_endOfInput hend⟩

theorem sound_signatureList {trees : List Tree} (h : Gives signatureList trees start stop) :
    ∃ last, Items Spells trees start last ∧ last.skip.rest = [] := by
  obtain ⟨_, last, htrees, hrest⟩ := h.of_rule.of_bind
  obtain ⟨_, _, hend, hpure⟩ := hrest.of_bind
  obtain ⟨rfl, rfl⟩ := hpure.of_pure
  exact ⟨last, sound_ty.items htrees, ends_of_endOfInput hend⟩

-- A text is read as a type just if all of it is spelled as one.
theorem readAll_signature_iff {tree : Tree} :
    readAll signature text = .ok tree ↔
      ∃ stop, Spells tree ⟨text, 0⟩ stop ∧ stop.skip.rest = [] := by
  constructor
  · intro h
    obtain ⟨_, hgives⟩ := gives_of_readAll h
    exact sound_signature hgives
  · rintro ⟨stop, hspells, hend⟩
    exact readAll_of_takes (takes_signature hspells hend)

theorem readAll_signatureList_iff {trees : List Tree} :
    readAll signatureList text = .ok trees ↔
      ∃ stop, Items Spells trees ⟨text, 0⟩ stop ∧ stop.skip.rest = [] := by
  constructor
  · intro h
    obtain ⟨_, hgives⟩ := gives_of_readAll h
    exact sound_signatureList hgives
  · rintro ⟨stop, hspells, hend⟩
    exact readAll_of_takes (takes_signatureList hspells hend)

end Whole

end RankPoly.Signature
