import HostScript.Proofs.Lockstep

/-!
# Heads in lockstep

Readers of types, parameter lists and heads never fail: they give nothing, or as much as there is. When such a reader
looks at the end of the tokens, all of the tokens that it had before it can be completed to what it reads (`Guesses`).
So an attempt that comes to the end of the tokens has an unfinished head before it, and whatever it does next stays
within that head (`Lockstep.attempt`).
-/

set_option autoImplicit false

namespace HostScript

/-- How a run of such a reader compares with one in a longer text: both take the same tokens, which are of the
form that the result calls for, or the first run has looked at the end and all of its tokens are a cut form. -/
inductive Guess {α : Type} (F : α → List Token.Kind → Prop) (C : List Token.Kind → Prop) (c d : Cursor) :
    Read.Result α → Read.Result α → Prop
  | together {a : α} {c' d' : Cursor} (taken : List Token) (hc : c.Onward taken c') (hd : d.Onward taken d')
      (hmet : c'.met = c.met) (hform : F a (taken.map Token.kind)) : Guess F C c d (.ok a c') (.ok a d')
  | cutOff {a : α} {c' : Cursor} {r : Read.Result α} (taken : List Token)
      (hc : c.Onward taken c') (hmet : c'.met = true) (hcut : C (c.rest.map Token.kind)) :
      Guess F C c d (.ok a c') r

/-- A reader that never fails, in lockstep as far as the first run can see. -/
structure Guesses {α : Type} (l : List Token) (F : α → List Token.Kind → Prop) (C : List Token.Kind → Prop)
    (x : Read α) : Prop where
  both : ∀ post c d, d.rest = c.rest ++ post → l <+: c.rest → Guess F C c d (x c) (x d)

section Rules

variable {α β : Type} {l taken : List Token} {c c' d d' : Cursor} {F : α → List Token.Kind → Prop}
  {C D : List Token.Kind → Prop}

theorem Guess.after {G : α → List Token.Kind → Prop} {r r' : Read.Result α}
    (hc : c.Onward taken c') (hd : d.Onward taken d') (hmet : c'.met = c.met) (h : Guess F C c' d' r r')
    (hform : ∀ a l, F a l → G a (taken.map Token.kind ++ l))
    (hcut : ∀ l, C l → D (taken.map Token.kind ++ l)) : Guess G D c d r r' := by
  cases h with
  | @together a _ _ taken' hc' hd' hmet' h =>
    refine .together (taken ++ taken') (hc.trans hc') (hd.trans hd') (hmet'.trans hmet) ?_
    rw [List.map_append]
    exact hform a _ h
  | cutOff taken' hc' hmet' h =>
    refine .cutOff (taken ++ taken') (hc.trans hc') hmet' ?_
    rw [hc.rest, List.map_append]
    exact hcut _ h

namespace Guesses

open Read

variable {x : Read α} {f : α → Read β} {t : Token} {G : β → List Token.Kind → Prop}

/-- What such a run does on its own. -/
theorem alone (h : Guesses l F C x) (c : Cursor) (hc : l <+: c.rest) :
    ∃ a c' taken, x c = .ok a c' ∧ c.Onward taken c' := by
  have hrun := h.both [] c c (List.append_nil _).symm hc
  generalize x c = r at hrun
  cases hrun with
  | together taken hc' _ _ _ => exact ⟨_, _, taken, rfl, hc'⟩
  | cutOff taken hc' _ _ => exact ⟨_, _, taken, rfl, hc'⟩

theorem imp {G : α → List Token.Kind → Prop} (h : Guesses l F C x) (hform : ∀ a l, F a l → G a l)
    (hcut : ∀ l, C l → D l) : Guesses l G D x :=
  ⟨fun post c d hcd hc => (h.both post c d hcd hc).after (.refl c) (.refl d) rfl hform hcut⟩

theorem known (h : Guesses [] F C x) : Guesses l F C x :=
  ⟨fun post c d hcd _ => h.both post c d hcd List.nil_prefix⟩

theorem pure (a : α) (h : F a []) : Guesses l F C (Pure.pure a) :=
  ⟨fun _ c d _ _ => .together [] (.refl c) (.refl d) rfl h⟩

theorem takes (h : Guesses l F C x) : Takes l x fun _ _ _ => True := by
  refine ⟨fun c hc => ?_⟩
  obtain ⟨a, c', taken, ha, hc'⟩ := h.alone c hc
  rw [ha]
  exact .ok taken hc' trivial

/-- A first part that is cut off leaves nothing for the second to look at. -/
theorem bind {P : α → β → List Token.Kind → Prop} {Q : α → List Token.Kind → Prop}
    (hx : Guesses l F C x) (hf : ∀ a, Guesses [] (P a) (Q a) (f a))
    (hform : ∀ a b l l', F a l → P a b l' → G b (l ++ l')) (hcut : ∀ l, C l → D l)
    (hcut' : ∀ a l l', F a l → Q a l' → D (l ++ l')) : Guesses l G D (x >>= f) := by
  refine ⟨fun post c d hcd hc => ?_⟩
  have h := hx.both post c d hcd hc
  generalize hxc : x c = r at h
  generalize hxd : x d = r' at h
  cases h with
  | @together a c' d' taken hc' hd' hmet h =>
    rw [bind_ok hxc, bind_ok hxd]
    exact ((hf a).both post c' d' (rest_onward hcd hc' hd') List.nil_prefix).after hc' hd' hmet
      (fun b l hb => hform a b _ l h hb) fun l hl => hcut' a _ l h hl
  | @cutOff a c' _ taken hc' hmet h =>
    obtain ⟨b, c'', taken', hb, hc''⟩ := (hf a).alone c' List.nil_prefix
    rw [bind_ok hxc, hb]
    exact .cutOff _ (hc'.trans hc'') (hc''.met hmet) (hcut _ h)

theorem map {g : α → β} (hx : Guesses l F C x) (hform : ∀ a l, F a l → G (g a) l) :
    Guesses l G C (x >>= fun a => Pure.pure (g a)) := by
  refine hx.bind (P := fun a b l => b = g a ∧ l = []) (Q := fun _ _ => False) (fun a => .pure _ ⟨rfl, rfl⟩) ?_
    (fun _ hl => hl) fun _ _ _ _ => False.elim
  rintro a _ l _ hl ⟨rfl, rfl⟩
  rw [List.append_nil]
  exact hform a l hl

/-- Where the first run meets the end, its tokens are cut off. -/
theorem ofEnd {y z : Read β} {F : β → List Token.Kind → Prop} (hy : Guesses l F C y) (hl : l <+: c.rest)
    (hc : z c = y c.meet) (hcut : C (c.rest.map Token.kind)) :
    Guess F C c d (z c) (z d) := by
  obtain ⟨a, c', taken, ha, hc'⟩ := hy.alone c.meet hl
  rw [hc, ha]
  exact .cutOff taken ((Cursor.Onward.meet c).trans hc') (hc'.met rfl) hcut

section Tokens

variable {f : Token → Read β} {F : β → List Token.Kind → Prop}

/-- Looking at the next token; where there is none, nothing is left to be taken. -/
theorem peek (h : ∀ t, Guesses t.ahead F C (f t)) (hnil : C []) : Guesses [] F C (Read.peek >>= f) := by
  refine ⟨fun post c d hcd _ => ?_⟩
  cases hrest : c.rest with
  | nil =>
    have hend : c.ending.token.ahead <+: c.rest := by
      rw [ahead_endToken]
      exact List.nil_prefix
    exact ofEnd (h _) hend (peek_bind_nil hrest f) (by rw [hrest]; exact hnil)
  | cons t ts =>
    have hd : d.rest = t :: (ts ++ post) := by rw [hcd, hrest]; rfl
    rw [peek_bind_cons hrest, peek_bind_cons hd]
    exact (h t).both post c d hcd (hrest ▸ t.ahead_prefix ts)

/-- Taking the next token, which is known. -/
theorem advance (h : Guesses l F C (f t)) (hform : ∀ a l, F a l → G a (t.kind :: l))
    (hcut : ∀ l, C l → D (t.kind :: l)) : Guesses (t :: l) G D (Read.advance >>= f) := by
  refine ⟨fun post c d hcd hc => ?_⟩
  obtain ⟨m, hm⟩ := hc
  have hd : d.rest = t :: (l ++ m ++ post) := by rw [hcd, ← hm]; rfl
  have hc' := onward_advance hm.symm
  have hd' := onward_advance hd
  rw [advance_bind_cons hm.symm, advance_bind_cons hd]
  exact (h.both post _ _ (rest_onward hcd hc' hd') ⟨m, rfl⟩).after hc' hd' rfl hform hcut

/-- Looking past the next token, which is known. -/
theorem peekSecond (h : ∀ u, Guesses [t] F C (f u)) (hone : C [t.kind]) :
    Guesses [t] F C (Read.peekSecond >>= f) := by
  refine ⟨fun post c d hcd hc => ?_⟩
  obtain ⟨m, hm⟩ := hc
  cases m with
  | nil => exact ofEnd (h _) ⟨[], hm⟩ (peekSecond_bind_end (by rw [← hm]; rfl) f) (by rw [← hm]; exact hone)
  | cons u ts =>
    have hd : d.rest = t :: u :: (ts ++ post) := by rw [hcd, ← hm]; rfl
    rw [peekSecond_bind_cons hm.symm, peekSecond_bind_cons hd]
    exact (h u).both post c d hcd ⟨u :: ts, hm⟩

end Tokens

section Tests

variable {f : Bool → Read β} {F : β → List Token.Kind → Prop}

theorem nextIs (m : Mark) (htrue : ∀ t : Token, t.kind = .mark m → Guesses [t] F C (f true))
    (hfalse : Guesses [] F C (f false)) (hnil : C []) :
    Guesses [] F C (Read.nextIs m >>= f) := by
  rw [nextIs_bind]
  refine peek (fun t => ?_) hnil
  cases ht : t.kind.isMark m with
  | true =>
    have hkind := Token.Kind.eq_mark ht
    rw [Token.ahead_eq (by simp [hkind])]
    exact htrue t hkind
  | false => exact hfalse.known

/-- A mark that may be next. -/
theorem accept {G H : β → List Token.Kind → Prop} {E : List Token.Kind → Prop} (m : Mark)
    (htrue : Guesses [] G D (f true)) (hfalse : Guesses [] H E (f false))
    (hform1 : ∀ a l, G a l → F a (.mark m :: l)) (hform2 : ∀ a l, H a l → F a l)
    (hcut1 : ∀ l, D l → C (.mark m :: l)) (hcut2 : ∀ l, E l → C l) (hnil : C []) :
    Guesses [] F C (Read.accept m >>= f) := by
  rw [accept_bind]
  refine nextIs m (fun t ht => ?_) (hfalse.imp hform2 hcut2) hnil
  exact advance htrue (fun a l hl => ht ▸ hform1 a l hl) fun l hl => ht ▸ hcut1 l hl

/-- A name and a mark after it, or not both. -/
theorem identifierThen (m : Mark)
    (htrue : ∀ t u : Token, t.kind = .identifier → u.kind = .mark m → Guesses [t, u] F C (f true))
    (hfalse : Guesses [] F C (f false)) (hnil : C []) (hone : C [.identifier]) :
    Guesses [] F C (Read.identifierThen m >>= f) := by
  rw [identifierThen_bind]
  refine peek (fun t => ?_) hnil
  cases ht : t.kind.isIdentifier with
  | false => exact hfalse.known
  | true =>
    have hkind := Token.Kind.eq_identifier ht
    rw [if_pos rfl, Token.ahead_eq (by simp [hkind])]
    -- the second token is known where it decides for the mark
    refine ⟨fun post c d hcd hc => ?_⟩
    obtain ⟨l, hl⟩ := hc
    cases l with
    | nil =>
      have hend : (Read.peekSecond >>= fun u => f (u.kind.isMark m)) c = f false c.meet := by
        rw [peekSecond_bind_end (by rw [← hl]; rfl), kind_endToken]
        rfl
      refine ofEnd hfalse List.nil_prefix hend ?_
      rw [← hl]
      show C [t.kind]
      rw [hkind]
      exact hone
    | cons u ts =>
      have hd : d.rest = t :: u :: (ts ++ post) := by rw [hcd, ← hl]; rfl
      rw [peekSecond_bind_cons hl.symm, peekSecond_bind_cons hd]
      cases hu : u.kind.isMark m with
      | true => exact (htrue t u hkind (Token.Kind.eq_mark hu)).both post c d hcd ⟨ts, hl⟩
      | false => exact hfalse.both post c d hcd List.nil_prefix

end Tests

end Guesses

/-- Tokens that can be completed to a head. -/
def CutHead (l : List Token.Kind) : Prop := ∃ more, IsHead (l ++ more)

/-- A reader of heads. -/
abbrev GuessesHead (l : List Token) (x : Read α) : Prop := Guesses l (fun _ _ => True) CutHead x

/-- An attempt that comes to the end of the tokens has an unfinished head before it, and whatever it does next stays
within that head. -/
theorem Lockstep.attempt {η : Type} {head : Read (Option η)} {other : Read β} {go : η → Read β} {ends : β → Prop}
    (hhead : GuessesHead l head) (hgo : ∀ w, Lockstep [] ends (go w)) (hother : Lockstep l ends other) :
    Lockstep l ends (Read.attempt head other go) := by
  have halone : Takes l (Read.attempt head other go) (Ending ends) :=
    .attempt hhead.takes (fun w => (hgo w).alone.imp fun b ts _ h us _ => h.append us) hother.alone
  refine ⟨fun post c d hcd hc => ?_⟩
  have hlong := halone.run d (hcd ▸ hc.trans (List.prefix_append _ _))
  have hrun : ∀ {c c' : Cursor} {head? : Option η}, head c = .ok head? c' → Read.attempt head other go c =
      head?.elim (other { c with met := c'.met }) fun w => go w c' := by
    intro c c' head? h
    refine (Read.bind_ok h _).trans ?_
    cases head? <;> rfl
  have h := hhead.both post c d hcd hc
  generalize hxc : head c = r at h
  generalize hxd : head d = r' at h
  cases h with
  | @together head? c' d' taken hc' hd' hmet _ =>
    rw [hrun hxc, hrun hxd]
    cases head? with
    | none =>
      exact (hother.both post { c with met := c'.met } { d with met := d'.met } hcd hc).after hc'.place hd'.place hmet
    | some w => exact ((hgo w).both post c' d' (rest_onward hcd hc' hd') List.nil_prefix).after hc' hd' hmet
  | @cutOff head? c' _ taken hc' hmet hcut =>
    rw [hrun hxc]
    cases head? with
    | none =>
      exact .goOn hcd hc'.place hmet List.suffix_rfl List.suffix_rfl hcut (hother.alone.run _ hc) (.refl d) (by simp)
        hlong
    | some w =>
      exact .goOn hcd hc' hmet hc'.suffix List.suffix_rfl hcut ((hgo w).alone.run c' List.nil_prefix) (.refl d)
        (by simp) hlong

end Rules

namespace Read

variable {α : Type} {opens follows : Token.Kind → Bool} {add : α → Token → α} {b : Nat} {t : Token}
  {d : Nat}

/-! ## Types -/

theorem guesses_pairs (hp : PairKinds opens follows) (a : α) :
    Guesses [] (fun _ l => IsPairs opens follows l) (fun l => ∃ more, IsPairs opens follows (l ++ more))
      (pairs opens follows add b a) := by
  refine ⟨fun post c d hcd _ => ?_⟩
  induction b generalizing a c d with
  | zero => exact .together [] (.refl c) (.refl d) rfl .none
  | succ b ih =>
    rcases hrest : c.rest with _ | ⟨t, _ | ⟨u, ts⟩⟩
    · rw [pairs_nil hp hrest]
      exact .cutOff [] (.meet c) rfl (by rw [hrest]; exact ⟨[], .none⟩)
    · have hd : d.rest = t :: post := by rw [hcd, hrest]; rfl
      by_cases ho : opens t.kind
      · rw [pairs_single hp hrest ho]
        obtain ⟨k', hk'⟩ := hp.exists_follows
        refine .cutOff [] (.meet c) rfl ?_
        rw [hrest]
        exact ⟨[k'], .pair ho hk' .none⟩
      · rw [pairs_closed hrest ho, pairs_closed hd ho]
        exact .together [] (.refl c) (.refl d) rfl .none
    · have hd : d.rest = t :: u :: (ts ++ post) := by rw [hcd, hrest]; rfl
      by_cases ho : opens t.kind
      · by_cases hf : follows u.kind
        · have hc' := onward_pair hrest
          have hd' := onward_pair hd
          rw [pairs_pair hrest ho hf, pairs_pair hd ho hf]
          refine (ih (add a u) _ _ (rest_onward hcd hc' hd') List.nil_prefix).after hc' hd' rfl ?_ ?_
          · intro _ l hl
            exact .pair ho hf hl
          · rintro l ⟨more, hl⟩
            exact ⟨more, .pair ho hf hl⟩
        · rw [pairs_other hrest ho hf, pairs_other hd ho hf]
          exact .together [] (.refl c) (.refl d) rfl .none
      · rw [pairs_closed hrest ho, pairs_closed hd ho]
        exact .together [] (.refl c) (.refl d) rfl .none

/-- The tokens that were taken for a type, if there was one. -/
def TypeForm : Option TypeName → List Token.Kind → Prop
  | none, l => l = []
  | some _, l => IsType l

theorem guesses_dimensions (name : String) :
    Guesses [] (fun type? l => type?.isSome ∧ IsDims l) (fun l => ∃ more, IsDims (l ++ more))
      (do return some ⟨name, ← dimensions b 0⟩ : Read (Option TypeName)) := by
  rw [dimensions_eq_pairs]
  exact (guesses_pairs .dims 0).map fun _ _ hl => ⟨rfl, hl⟩

theorem guesses_named (first : String) :
    Guesses [] (fun type? l => type?.isSome ∧ IsType (.identifier :: l))
      (fun l => ∃ more, IsType (.identifier :: (l ++ more)))
      (do let name ← dottedTail b first; return some ⟨name, ← dimensions b 0⟩ : Read (Option TypeName)) := by
  rw [dottedTail_eq_pairs]
  refine (guesses_pairs .dots first).bind (fun name => guesses_dimensions name) ?_ ?_ ?_
  · rintro name type? l l' hl ⟨hsome, hl'⟩
    exact ⟨hsome, .named hl hl'⟩
  · rintro l ⟨more, hl⟩
    refine ⟨more, ?_⟩
    rw [← List.append_nil (l ++ more)]
    exact .named hl .none
  · rintro name l l' hl ⟨more, hl'⟩
    refine ⟨more, ?_⟩
    rw [List.append_assoc]
    exact .named hl hl'

theorem guesses_typeName? : Guesses [] TypeForm (fun l => ∃ more, IsType (l ++ more)) (typeName? b) := by
  refine .peek (fun t => ?_) ⟨_, .named .none .none⟩
  by_cases ht : t.kind.isTypeWord
  · rw [if_pos ht, Token.ahead_eq (Token.Kind.ne_eof_of_isTypeWord ht)]
    refine .advance (guesses_dimensions t.lexeme) ?_ ?_
    · rintro (_ | type) l ⟨hsome, hl⟩
      · cases hsome
      · exact .word ht hl
    · rintro l ⟨more, hl⟩
      exact ⟨more, .word ht hl⟩
  rw [if_neg ht]
  by_cases ht' : t.kind.isIdentifier
  · have hkind := Token.Kind.eq_identifier ht'
    rw [if_pos ht', Token.ahead_eq (by simp [hkind])]
    refine .advance (guesses_named t.lexeme) ?_ ?_
    · rintro (_ | type) l ⟨hsome, hl⟩
      · cases hsome
      · exact hkind ▸ hl
    · rintro l ⟨more, hl⟩
      exact ⟨more, hkind ▸ hl⟩
  · rw [if_neg ht']
    exact .pure none rfl

/-! ## Parameters -/

theorem guesses_paramName (first : Token) (type : TypeName) :
    Guesses [] (fun _ l => l = [] ∨ l = [.identifier]) (fun l => l = []) (paramName first type) := by
  refine .peek (fun t => ?_) rfl
  by_cases ht : t.kind.isIdentifier
  · have hkind := Token.Kind.eq_identifier ht
    rw [if_pos ht, Token.ahead_eq (by simp [hkind])]
    refine .advance (F := fun _ l => l = []) (C := fun _ => False) (.pure _ rfl) ?_ fun _ => False.elim
    rintro _ _ rfl
    exact .inr (by rw [hkind])
  · rw [if_neg ht]
    -- without a name the type has to stand for one
    split
    · exact .pure _ (.inl rfl)
    · exact .pure _ (.inl rfl)

/-- What may follow a first part, if this is there. -/
theorem guesses_param? :
    Guesses [] (fun param? l => param?.isSome → IsParam l) (fun l => ∃ more, IsParam (l ++ more))
      (param? b) := by
  rw [param?_eq]
  refine .peek (fun first => .known (guesses_typeName?.bind
    (P := fun type? param? l => type? = none ∧ param? = none ∨ type?.isSome ∧ (l = [] ∨ l = [.identifier]))
    (Q := fun type? l => type?.isSome ∧ l = []) (fun type? => ?_) ?_ ?_ ?_)) ⟨_, .untyped (.named .none .none)⟩
  · cases type? with
    | none => exact .pure (α := Option Param) none (.inl ⟨rfl, rfl⟩)
    | some type => exact (guesses_paramName first type).imp (fun _ _ hl => .inr ⟨rfl, hl⟩) fun _ hl => ⟨rfl, hl⟩
  · rintro (_ | type) param? l l' hl hl' hsome
    · rcases hl' with ⟨-, rfl⟩ | ⟨⟨⟩, -⟩
      cases hsome
    · rcases hl' with ⟨⟨⟩, -⟩ | ⟨-, rfl | rfl⟩
      · rw [List.append_nil]
        exact .untyped hl
      · exact .typed hl
  · rintro l ⟨more, hl⟩
    exact ⟨more, .untyped hl⟩
  · rintro (_ | type) l l' hl ⟨hsome, rfl⟩
    · cases hsome
    · exact ⟨[], by simpa using .untyped hl⟩

theorem guesses_paramsAfter (param : Param)
    (htail : Guesses [] (fun params? l => params?.isSome → IsParams l)
      (fun l => ∃ more, IsParams (l ++ more)) (paramTail? d b)) : Guesses []
      (fun params? l => params?.isSome → l = [.mark .rparen] ∨ ∃ r, l = .mark .comma :: r ∧ IsParams r)
      (fun l => l = [] ∨ ∃ r more, l = .mark .comma :: r ∧ IsParams (r ++ more)) (paramsAfter d b param) := by
  have hmore : Guesses [] (fun params? l => params?.isSome → IsParams l) (fun l => ∃ more, IsParams (l ++ more))
      (paramTail? d b >>= fun params? => pure (params?.map (param :: ·))) := by
    refine htail.map fun params? l hl hsome => hl ?_
    rwa [Option.isSome_map] at hsome
  have hnone : Guesses [] (fun (params? : Option (List Param)) _ => params? = none) (fun _ => False)
      (pure none) := .pure none rfl
  refine .accept (G := fun _ l => l = []) (D := fun _ => False) .rparen (.pure _ rfl)
    (.accept (F := fun params? l => params?.isSome → ∃ r, l = .mark .comma :: r ∧ IsParams r)
      (C := fun l => l = [] ∨ ∃ r more, l = .mark .comma :: r ∧ IsParams (r ++ more)) .comma hmore hnone
      ?_ ?_ ?_ (fun _ => False.elim) (.inl rfl)) ?_ ?_ (fun _ => False.elim) (fun _ hl => hl) (.inl rfl)
  · exact fun _ l hl hsome => ⟨l, rfl, hl hsome⟩
  · rintro _ l rfl ⟨⟩
  · rintro l ⟨more, hl⟩
    exact .inr ⟨l, more, rfl, hl⟩
  · rintro _ _ rfl -
    exact .inl rfl
  · exact fun _ l hl hsome => .inr (hl hsome)

theorem guesses_paramTail? : Guesses [] (fun params? l => params?.isSome → IsParams l)
    (fun l => ∃ more, IsParams (l ++ more)) (paramTail? d b) := by
  induction b with
  | zero => exact .pure none fun h => by cases h
  | succ b ih =>
    rw [paramTail?_succ]
    refine guesses_param?.bind (P := fun param? params? l => params?.isSome → param?.isSome ∧
        (l = [.mark .rparen] ∨ ∃ r, l = .mark .comma :: r ∧ IsParams r))
      (Q := fun param? l => param?.isSome ∧
        (l = [] ∨ ∃ r more, l = .mark .comma :: r ∧ IsParams (r ++ more))) (fun param? => ?_) ?_ ?_ ?_
    · cases param? with
      | none => exact .pure (α := Option (List Param)) none fun hsome => by cases hsome
      | some param =>
        exact (guesses_paramsAfter param ih).imp (fun _ _ hl hsome => ⟨rfl, hl hsome⟩) fun _ hl => ⟨rfl, hl⟩
    · intro param? params? l l' hl hl' hsome
      obtain ⟨hparam, rfl | ⟨r, rfl, hr⟩⟩ := hl' hsome
      · exact .last (hl hparam)
      · exact .more (hl hparam) hr
    · rintro l ⟨more, hl⟩
      refine ⟨more ++ [.mark .rparen], ?_⟩
      rw [← List.append_assoc]
      exact .last hl
    · rintro param? l l' hl ⟨hparam, rfl | ⟨r, more, rfl, hr⟩⟩
      · exact ⟨[.mark .rparen], by simpa using .last (hl hparam)⟩
      · exact ⟨more, by simpa using .more (hl hparam) hr⟩

/-- A parameter list with its opening parenthesis. -/
theorem guesses_paramList? :
    Guesses [] (fun params? l => params?.isSome → ∃ r, l = .mark .lparen :: r ∧ IsParamList r)
      (fun l => l = [] ∨ ∃ r more, l = .mark .lparen :: r ∧ IsParamList (r ++ more)) (paramList? b) := by
  have hinner : Guesses [] (fun params? l => params?.isSome → IsParamList l)
      (fun l => ∃ more, IsParamList (l ++ more))
      (do if ← accept .rparen then return some [] else paramTail? b b) := by
    refine .accept (G := fun _ l => l = []) (D := fun _ => False) .rparen (.pure _ rfl) guesses_paramTail?
      ?_ ?_ (fun _ => False.elim) ?_ ⟨_, .empty⟩
    · rintro _ _ rfl -
      exact .empty
    · exact fun _ l hl hsome => .full (hl hsome)
    · rintro l ⟨more, hl⟩
      exact ⟨more, .full hl⟩
  refine .accept (H := fun params? _ => params? = none) (E := fun _ => False) .lparen hinner (.pure none rfl)
    ?_ ?_ ?_ (fun _ => False.elim) (.inl rfl)
  · exact fun _ l hl hsome => ⟨l, rfl, hl hsome⟩
  · rintro _ l rfl ⟨⟩
  · rintro l ⟨more, hl⟩
    exact .inr ⟨l, more, rfl, hl⟩

/-! ## Heads -/

/-- The head of a cast may go on up to the token after the closing parenthesis. -/
theorem guesses_castHead (ht : t.kind = .mark .lparen) : GuessesHead t.ahead (castHead b) := by
  have hclose : ∀ (opening : Token) (primitive : Bool) (type : TypeName), Guesses [] (fun _ _ => True)
      (fun l => l = [] ∨ l = [.mark .rparen]) (castClose opening primitive type) := by
    intro opening primitive type
    refine .accept (G := fun _ _ => True) (H := fun _ _ => True) (D := fun l => l = [])
      (E := fun _ => False) .rparen (.peek (fun next => .known ?_) rfl) (.pure none trivial)
      (fun _ _ _ => trivial) (fun _ _ _ => trivial) ?_ (fun _ => False.elim) (.inl rfl)
    · split
      · exact .pure _ trivial
      · exact .pure _ trivial
    · rintro _ rfl
      exact .inr rfl
  rw [Token.ahead_eq (by simp [ht])]
  refine .advance (F := fun _ _ => True) (C := fun l => CutHead (.mark .lparen :: l))
    (.peek (fun first => .known (guesses_typeName?.bind (P := fun _ _ _ => True)
      (Q := fun type? l => type?.isSome ∧ (l = [] ∨ l = [.mark .rparen])) (fun type? => ?_) (fun _ _ _ _ _ _ => trivial)
      ?_ ?_)) ⟨[.identifier, .mark .rparen], .cast (.named .none .none)⟩) (fun _ _ _ => trivial) fun _ hl => ht ▸ hl
  · cases type? with
    | none => exact .pure none trivial
    | some type => exact (hclose t first.kind.isTypeWord type).imp (fun _ _ _ => trivial) fun _ hl => ⟨rfl, hl⟩
  · rintro l ⟨more, hl⟩
    exact ⟨more ++ [.mark .rparen], by simpa using IsHead.cast hl⟩
  · rintro (_ | type) l l' hl ⟨hsome, rfl | rfl⟩
    · cases hsome
    · cases hsome
    · exact ⟨[.mark .rparen], by simpa using IsHead.cast hl⟩
    · exact ⟨[], by simpa using IsHead.cast hl⟩

/-- A type that a head starts with, and what follows it. -/
theorem guesses_afterType {β : Type} {other : Read β} {f : TypeName → Read β} {C : List Token.Kind → Prop}
    (hother : Guesses [] (fun _ _ => True) (fun _ => False) other)
    (hf : ∀ type, Guesses [] (fun _ _ => True) C (f type))
    (hC : ∀ l l', IsType l → C l' → CutHead (l ++ l')) :
    GuessesHead [] (typeName? b >>= fun type? => type?.elim other f) := by
  refine guesses_typeName?.bind (P := fun _ _ _ => True) (Q := fun type? l => type?.isSome ∧ C l) (fun type? => ?_)
    (fun _ _ _ _ _ _ => trivial) ?_ ?_
  · cases type? with
    | none => exact hother.imp (fun _ _ _ => trivial) fun _ => False.elim
    | some type => exact (hf type).imp (fun _ _ _ => trivial) fun _ hl => ⟨rfl, hl⟩
  · rintro l ⟨more, hl⟩
    exact ⟨more ++ [.identifier], by simpa using IsHead.declared hl⟩
  · rintro (_ | type) l l' hl ⟨hsome, hl'⟩
    · cases hsome
    · exact hC l l' hl hl'

theorem cutHead_declared {l l' : List Token.Kind} (hl : IsType l) (hl' : l' = [] ∨ l' = [.identifier]) :
    CutHead (l ++ l') := by
  rcases hl' with rfl | rfl
  · exact ⟨[.identifier], by simpa using IsHead.declared hl⟩
  · exact ⟨[], by simpa using IsHead.declared hl⟩

/-- After its type a declaration needs a name, and the token after the name says what is declared. -/
theorem guesses_typedHead (start : Span) (type : TypeName) :
    Guesses [] (fun _ _ => True) (fun l => l = [] ∨ l = [.identifier] ∨
      ∃ r more, l = .identifier :: .mark .lparen :: r ∧ IsParamList (r ++ more)) (typedHead b start type) := by
  refine .peek (fun t => ?_) (.inl rfl)
  cases ht : t.kind.isIdentifier with
  | false => exact .pure none trivial
  | true =>
    have hkind := Token.Kind.eq_identifier ht
    rw [if_pos rfl, Token.ahead_eq (by simp [hkind])]
    refine .peekSecond (fun u => ?_) (.inr (.inl (by rw [hkind])))
    cases u.kind.isMark .lparen with
    | false => exact .pure _ trivial
    | true =>
      refine .advance (guesses_paramList?.map (G := fun _ _ => True) fun _ _ _ => trivial) (fun _ _ _ => trivial) ?_
      rintro _ (rfl | ⟨r, more, rfl, hr⟩)
      · exact .inr (.inl (by rw [hkind]))
      · exact .inr (.inr ⟨r, more, by rw [hkind], hr⟩)

/-- A name or a type may start a declaration as long as no other token decides against it. -/
theorem guesses_declHead : GuessesHead [] (declHead b) := by
  refine .peek (fun first => .known (.identifierThen _ (fun t u ht hu => ?_) ?_ ⟨_, .method .empty⟩
    ⟨_, .method .empty⟩)) ⟨_, .method .empty⟩
  · -- a name and an opening parenthesis
    refine .advance (F := fun _ _ => True) (C := fun l => CutHead (.identifier :: l))
      (.known (guesses_paramList?.bind (P := fun _ _ _ => True) (Q := fun params? l => params?.isSome ∧ l = [])
        (fun params? => ?_) (fun _ _ _ _ _ _ => trivial) ?_ ?_)) (fun _ _ _ => trivial) fun _ hl => ht ▸ hl
    · cases params? with
      | none => exact .pure none trivial
      | some params => exact .nextIs _ (fun _ _ => .pure _ trivial) (.pure none trivial) ⟨rfl, rfl⟩
    · rintro _ (rfl | ⟨r, more, rfl, hr⟩)
      · exact ⟨_, .method .empty⟩
      · exact ⟨more, .method hr⟩
    · rintro params? l _ hl ⟨hsome, rfl⟩
      obtain ⟨r, rfl, hr⟩ := hl hsome
      exact ⟨[], by simpa using IsHead.method hr⟩
  · refine guesses_afterType (.pure none trivial) (guesses_typedHead first.span) ?_
    rintro l l' hl (hl' | hl' | ⟨r, more, rfl, hr⟩)
    · exact cutHead_declared hl (.inl hl')
    · exact cutHead_declared hl (.inr hl')
    · exact ⟨more, by simpa using IsHead.typedMethod hl hr⟩

theorem guesses_eachHead : GuessesHead [] (eachHead b) := by
  have hcolon : ∀ (C : List Token.Kind → Prop) (type? : Option TypeName) (t u : Token),
      Guesses [t, u] (fun _ _ => True) C (eachColon type?) := by
    intro C type? t u
    refine .advance (F := fun _ _ => True) (C := fun _ => False) (.advance (F := fun _ _ => True)
      (C := fun _ => False) (.pure _ trivial) (fun _ _ _ => trivial) fun _ => False.elim) (fun _ _ _ => trivial)
      fun _ => False.elim
  refine .identifierThen _ (fun t u _ _ => hcolon _ none t u) ?_ ⟨_, .method .empty⟩ ⟨_, .method .empty⟩
  refine guesses_afterType (.pure none trivial) (fun type => ?_) fun l l' => cutHead_declared
  exact .identifierThen _ (fun t u _ _ => hcolon _ _ t u) (.pure none trivial) (.inl rfl) (.inr rfl)

theorem guesses_forHead : GuessesHead [] (forHead b) := by
  refine .peek (fun first => .known (guesses_afterType (C := fun l => l = []) (.pure none trivial) (fun type => ?_)
    fun l l' hl hl' => cutHead_declared hl (.inl hl'))) ⟨_, .method .empty⟩
  refine .peek (fun t => .known ?_) rfl
  cases t.kind.isIdentifier with
  | true => exact .pure _ trivial
  | false => exact .pure none trivial

end Read

end HostScript
