import RankPoly.Proofs.Lockstep.Basic

namespace RankPoly

-- The naming with one more pair of names.
def Naming.adding (naming : Naming) (m n : String) : Naming :=
  fun a b => naming a b ∨ (a = m ∧ b = n)

theorem Naming.le_adding (naming : Naming) (m n : String) : naming ≤ naming.adding m n :=
  fun _ _ h => Or.inl h

theorem Naming.exists_reflexive (naming : Naming) : ∃ later, naming ≤ later ∧ Eq ≤ later :=
  ⟨fun m n => naming m n ∨ m = n, fun _ _ => Or.inl, fun _ _ => Or.inr⟩

theorem Naming.adding_self (naming : Naming) (m n : String) : naming.adding m n m n :=
  Or.inr ⟨rfl, rfl⟩

namespace Comparison

open Annotate (Context)

variable {W : Comparison} {naming later : Naming} {α β : Type} {ctx ctx' : Context}
  {P : Likeness α} {Q : Likeness β}

namespace Matched

variable {α' β' : Type} {good : α → Store → α' → Store → Prop}
  {good' : β → Store → β' → Store → Prop}

theorem imp {good' : α → Store → α' → Store → Prop} {o : Outcome α} {o' : Outcome α'}
    (h : W.Matched good o o') (hgood : ∀ a s b s', good a s b s' → good' a s b s') :
    W.Matched good' o o' := by
  rcases o with ⟨e | a, s⟩ <;> rcases o' with ⟨f | b, s'⟩
  · exact h
  · exact h
  · exact h
  · exact hgood a s b s' h

-- A run that has stopped alone was free to, whatever the other one does next.
theorem andThen {o : Outcome α} {o' : Outcome α'} {k : α → Store → Outcome β}
    {k' : α' → Store → Outcome β'} (h : W.Matched good o o')
    (hk : ∀ a s b s', o = (.ok a, s) → o' = (.ok b, s') → good a s b s' →
      W.Matched good' (k a s) (k' b s')) :
    W.Matched good' (o.andThen k) (o'.andThen k') := by
  rcases o with ⟨e | a, s⟩ <;> rcases o' with ⟨f | b, s'⟩
  · exact h
  · have hfree : W.leftFree s := h
    rw [Outcome.andThen_ok]
    rcases k' b s' with ⟨f | b', last'⟩
    · exact Or.inl hfree
    · exact hfree
  · have hfree : W.rightFree s' := h
    rw [Outcome.andThen_ok]
    rcases k a s with ⟨e | a', last⟩
    · exact Or.inr (Or.inl hfree)
    · exact hfree
  · exact hk a s b s' rfl rfl h

end Matched

namespace Linked

variable {locals locals' : Locals} {store store' : Store}

-- Names that are drawn at the same time correspond. They are new, so nothing
-- that was linked before is disturbed.
theorem refresh (hW : W.Respects ctx ctx') (h : W.Linked naming locals store locals' store')
    {name name' : String} (hasked : W.asked name name') :
    W.Linked (naming.adding (store.fresh.refresh name).1 (store'.fresh.refresh name').1)
      locals { store with fresh := (store.fresh.refresh name).2 }
      locals' { store' with fresh := (store'.fresh.refresh name').2 } where
  unique := by
    refine ⟨?_, ?_⟩
    · rintro m m' n (hm | ⟨rfl, hn⟩) (hm' | ⟨rfl, hn'⟩)
      · exact h.unique.1 hm hm'
      · exact absurd (hn' ▸ (h.drawn hm).2) (Fresh.not_drew_refresh _ _)
      · exact absurd (hn ▸ (h.drawn hm').2) (Fresh.not_drew_refresh _ _)
      · rfl
    · rintro m n n' (hn | ⟨hm, rfl⟩) (hn' | ⟨hm', rfl⟩)
      · exact h.unique.2 hn hn'
      · exact absurd (hm' ▸ (h.drawn hn).1) (Fresh.not_drew_refresh _ _)
      · exact absurd (hm ▸ (h.drawn hn').1) (Fresh.not_drew_refresh _ _)
      · rfl
  drawn := by
    rintro m n (hmn | ⟨rfl, rfl⟩)
    · obtain ⟨hm, hn⟩ := h.drawn hmn
      exact ⟨hm.mono (by simp), hn.mono (by simp)⟩
    · exact ⟨Fresh.drew_refresh _ _, Fresh.drew_refresh _ _⟩
  held := by
    rintro m n (hmn | ⟨rfl, rfl⟩)
    · exact hW.held_grows (hW.grows_fresh store name) (h.held hmn)
    · exact hW.held_refresh hasked h.agree
  names x := optionRel_imp (Naming.le_adding naming _ _) (h.names x)
  env := by
    refine ⟨?_, ?_, ?_⟩
    · rintro m n (hmn | ⟨rfl, rfl⟩)
      · exact h.env.lookup hmn
      · -- A local that is bound has been drawn before.
        have hleft : locals.env.find? (store.fresh.refresh name).1 = none := by
          by_contra hne
          obtain ⟨ty, hty⟩ := Option.ne_none_iff_exists'.mp hne
          obtain ⟨n, hn⟩ := h.env.left (NameMap.mem_keys_iff.mpr ⟨ty, hty⟩)
          exact Fresh.not_drew_refresh _ _ (h.drawn hn).1
        have hright : locals'.env.find? (store'.fresh.refresh name').1 = none := by
          by_contra hne
          obtain ⟨ty, hty⟩ := Option.ne_none_iff_exists'.mp hne
          obtain ⟨m, hm⟩ := h.env.right (NameMap.mem_keys_iff.mpr ⟨ty, hty⟩)
          exact Fresh.not_drew_refresh _ _ (h.drawn hm).2
        rw [hleft, hright]
        exact .none
    · intro m hm
      obtain ⟨n, hn⟩ := h.env.left hm
      exact ⟨n, Or.inl hn⟩
    · intro n hn
      obtain ⟨m, hm⟩ := h.env.right hn
      exact ⟨m, Or.inl hm⟩
  sorted := h.sorted
  returnType := h.returnType
  agree := hW.agree_fresh name name' h.agree

theorem bindName (h : W.Linked naming locals store locals' store') (name : String) {m n : String}
    (hmn : naming m n) :
    W.Linked naming { locals with names := locals.names.insert name m } store
      { locals' with names := locals'.names.insert (W.var name) n } store' where
  unique := h.unique
  drawn := h.drawn
  held := h.held
  names x := by
    simp only [NameMap.find?_insert, W.injective.eq_iff]
    split
    · exact .some hmn
    · exact h.names x
  env := h.env
  sorted := h.sorted
  returnType := h.returnType
  agree := h.agree

theorem bindTy (h : W.Linked naming locals store locals' store') {m n : String}
    (hmn : naming m n) (ty : Ty) :
    W.Linked naming { locals with env := locals.env.insert m ty } store
      { locals' with env := locals'.env.insert n ty } store' where
  unique := h.unique
  drawn := h.drawn
  held := h.held
  names := h.names
  env := by
    refine ⟨?_, ?_, ?_⟩
    · intro k l hkl
      have heq : m = k ↔ n = l := Relator.rel_eq h.unique hmn hkl
      simp only [NameMap.find?_insert, heq]
      split
      · exact .some rfl
      · exact h.env.lookup hkl
    · intro k hk
      rcases NameMap.mem_keys_insert.mp hk with rfl | hk
      · exact ⟨n, hmn⟩
      · exact h.env.left hk
    · intro l hl
      rcases NameMap.mem_keys_insert.mp hl with rfl | hl
      · exact ⟨m, hmn⟩
      · exact h.env.right hl
  sorted := ⟨h.sorted.1.insert m ty, h.sorted.2.insert n ty⟩
  returnType := h.returnType
  agree := h.agree

theorem setReturn (h : W.Linked naming locals store locals' store') (ty : Option Ty) :
    W.Linked naming { locals with returnType := ty } store { locals' with returnType := ty } store'
    where
  unique := h.unique
  drawn := h.drawn
  held := h.held
  names := h.names
  env := h.env
  sorted := h.sorted
  returnType := rfl
  agree := h.agree

theorem setStore (h : W.Linked naming locals store locals' store') {last last' : Store}
    (hagree : W.agree last last')
    (hheld : ∀ {name name'}, W.held store name name' → W.held last name name')
    (hle : store.fresh.next ≤ last.fresh.next) (hle' : store'.fresh.next ≤ last'.fresh.next) :
    W.Linked naming locals last locals' last' where
  unique := h.unique
  drawn hmn := ⟨(h.drawn hmn).1.mono hle, (h.drawn hmn).2.mono hle'⟩
  held hmn := hheld (h.held hmn)
  names := h.names
  env := h.env
  sorted := h.sorted
  returnType := h.returnType
  agree := hagree

end Linked

namespace Sim

theorem congr {m n m' n' : Annotate α} (h : W.Sim naming P n n')
    (hm : ∀ locals store, m.outcome locals store = n.outcome locals store)
    (hm' : ∀ locals store, m'.outcome locals store = n'.outcome locals store) :
    W.Sim naming P m m' := by
  refine ⟨fun locals store => hm locals store ▸ h.grows locals store, ?_⟩
  intro later hle locals store locals' store' hlinked
  rw [hm, hm']
  exact h.ends hle hlinked

theorem value (hW : W.Respects ctx ctx') {a b : α} (h : P.rel naming a b) :
    W.Sim naming P (pure a) (pure b) := by
  refine ⟨fun _ store => hW.grows_refl store, ?_⟩
  intro later hle locals store locals' store' hlinked _
  exact ⟨later, le_rfl, hlinked, P.mono hle h⟩

theorem failure (hW : W.Respects ctx ctx') {e f : SpecializeError}
    (h : e.Alike W.toCorrespondence f) : W.Sim naming P (throw e) (throw f) := by
  refine ⟨fun _ store => hW.grows_refl store, ?_⟩
  intro later _ locals store locals' store' hlinked _
  exact Or.inr (Or.inr ⟨hlinked.agree, hW.errors_of_alike h⟩)

-- Steps that go in lockstep one after the other do so together. How the left
-- store grows in the second step is seen by setting its run against itself.
theorem bind (hW : W.Respects ctx ctx') {m m' : Annotate α} {k k' : α → Annotate β}
    (hm : W.Sim naming P m m')
    (hk : ∀ {later}, naming ≤ later → ∀ {a b}, P.rel later a b → W.Sim later Q (k a) (k' b)) :
    W.Sim naming Q (m >>= k) (m' >>= k') := by
  have hgrows : ∀ a locals store, W.grows store ((k a).outcome locals store).2 := by
    intro a
    obtain ⟨later, hle, hrefl⟩ := naming.exists_reflexive
    exact (hk hle (P.mono hrefl (P.refl a))).grows
  have hrest : ∀ locals store, W.grows (m.outcome locals store).2
      ((m >>= k).outcome locals store).2 := by
    intro locals store
    rw [Annotate.outcome_bind]
    rcases m.outcome locals store with ⟨e | ⟨a, middle⟩, between⟩
    · exact hW.grows_refl between
    · exact hgrows a middle between
  refine ⟨fun locals store => hW.grows_trans (hm.grows locals store) (hrest locals store), ?_⟩
  intro later hle locals store locals' store' hlinked hwithin
  have hfirst := hm.ends hle hlinked (hW.within_of_grows (hrest locals store) hwithin)
  rw [Annotate.outcome_bind] at hwithin
  unfold Ends
  rw [Annotate.outcome_bind, Annotate.outcome_bind]
  refine hfirst.andThen ?_
  rintro ⟨a, middle⟩ between ⟨b, middle'⟩ between' hm hm' ⟨next, hnext, hlinked', hrel⟩
  rw [hm, Outcome.andThen_ok] at hwithin
  refine ((hk (hle.trans hnext) hrel).ends le_rfl hlinked' hwithin).imp ?_
  rintro a' _ b' _ ⟨last, hlast, hdone⟩
  exact ⟨last, hnext.trans hlast, hdone⟩

end Sim

end Comparison

end RankPoly
