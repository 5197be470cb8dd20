import HostScript.Proofs.ReadExpressions
import HostScript.Proofs.SpelledStatements

/-!
# Readers of statements

The tokens that are taken for a statement spell it (`Read.takes_statement`). A statement is read in the same way
wherever its tokens stand in a text, with any budget that pays for the tokens that are left (`Read.paired_statement`).

A statement is over with a semicolon or a closing brace. So a run that is lost in an unfinished head, where there is
neither, never gives a statement; and a run that gives one without looking at the end of its tokens gives the same in
a longer text (`Read.closes_statement`). If the reader looked for an `else` at the end of the tokens, the statement is
the same in any longer text that does not go on with `else`.
-/

set_option autoImplicit false

namespace HostScript

namespace Read

/-- The head of a declaration moved by a number of bytes. -/
def DeclHead.shift : DeclHead → Nat → DeclHead
  | method start name params returns, n => method (start.shift n) name (Placed.shift params n) returns
  | locals start type, n => locals (start.shift n) type
  | faulty, _ => faulty

instance : Placed DeclHead := ⟨DeclHead.shift⟩

variable {α : Type} [Placed α] {n k b b' : Nat} {t : Token}

/-! ## Heads -/

/-- The tokens that were taken spell what was read, if anything was. -/
def Spells {α : Type} (pieces : α → List Piece) : Post (Option α)
  | none, _, _ => True
  | some a, ts, _ => Spell (pieces a) ts

/-- A name alone, which could have been a type. -/
theorem spell_untyped {type : TypeName} {ts : List Token} (h : TypeTokens type ts) (hdims : type.dims = 0)
    (hpoint : type.name.contains '.' = false) (hkind : Kind.ofName? type.name = none) (span : Span) :
    Spell (Param.pieces ⟨type.name, none, span⟩) ts := by
  intro hlexed
  obtain ⟨hwords, hname⟩ := h.words hlexed
  have hkeyword : Keyword.ofWord? type.name = none := by
    refine hname.resolve_right ?_
    rintro ⟨word, htype, hname⟩
    rw [hname] at hkind
    cases word with
    | boolean | char | byte | short | int | long | float | double | void => exact absurd hkind (by decide)
    | _ => cases htype
  have hdot : '.' ∉ type.name.toList := by simpa using hpoint
  rw [← hwords, TypeName.words, hdims, typeNameWords, hkeyword, pathWords_of_not_mem hdot]
  exact .word .nil

/-- How the head of a loop over items is spelled: a type if there is one, a name and a colon. -/
def eachPieces (head : Option TypeName × String) : List Piece :=
  head.1.elim [] TypeName.pieces ++ [.word (.identifier head.2), .word (.mark .colon)]

section Heads

variable (hb : k ≤ b) (hb' : k ≤ b')

include hb hb'

theorem paired_param? : PairedHead n k [] (param? b) (param? b') (Spells Param.pieces) := by
  rw [param?_eq, param?_eq]
  refine .peek fun first => .known ((paired_typeName? hb hb').bind fun type? => ?_)
  cases type? with
  | none => exact .pure rfl fun _ _ _ _ => trivial
  | some type =>
    show PairedHead n k [] (paramName first type) (paramName (first.shift n) type) _
    refine .peek fun t => ?_
    rw [Token.kind_shift]
    by_cases ht : t.kind.isIdentifier
    · have hkind := Token.Kind.eq_identifier ht
      rw [if_pos ht, if_pos ht]
      refine .take (by simp [hkind]) (.pure rfl fun _ _ us htype => ?_)
      exact htype.spell.append (Spell.nil.identifier hkind)
    rw [if_neg ht, if_neg ht]
    by_cases halone : type.dims = 0 && !type.name.contains '.' && (Kind.ofName? type.name).isNone
    · rw [if_pos halone, if_pos halone]
      refine .pure rfl fun _ _ us htype => ?_
      simp only [Bool.and_eq_true, decide_eq_true_eq, Bool.not_eq_true', Option.isNone_iff_eq_none] at halone
      rw [List.append_nil]
      exact spell_untyped htype halone.1.1 halone.1.2 halone.2 _
    · rw [if_neg halone, if_neg halone]
      exact .pure rfl fun _ _ _ _ => trivial

omit hb hb' in
theorem paired_paramTail? {d d' : Nat} (hd : k ≤ d) (hd' : k ≤ d') (hb : k ≤ b) (hb' : k ≤ b') :
    PairedHead n k [] (paramTail? d b) (paramTail? d' b') fun params? ts _ => ∀ params, params? = some params →
      params ≠ [] ∧ Spell (commas (params.map Param.pieces) ++ [.word (.mark .rparen)]) ts := by
  induction b generalizing k b' with
  | zero => exact .exhausted hb (.pure _ id) (.pure fun _ _ _ h => by cases h)
  | succ b ih =>
    refine .ofSucc (X := paramTail? d') hb' fun b' hb' => ?_
    rw [paramTail?_succ, paramTail?_succ]
    refine (paired_param? hd hd').bind fun param? => ?_
    cases param? with
    | none => exact .pure rfl fun _ _ _ _ _ h => by cases h
    | some param =>
      refine .accept _ (fun close hclose => .pure rfl fun _ _ us hus params h => ?_)
        (.accept _ (fun comma hcomma => ?_) (.pure rfl fun _ _ _ _ _ h => by cases h))
      · cases h
        exact ⟨List.cons_ne_nil _ _, Spell.append hus (Spell.nil.mark hclose)⟩
      · refine (ih (by omega) (by omega) (by omega) (by omega)).map (fun params? => by cases params? <;> rfl) ?_
        intro params? ts _ hparams us hus params h
        obtain ⟨later, rfl, rfl⟩ := Option.map_eq_some_iff.1 h
        obtain ⟨hne, hlater⟩ := hparams later rfl
        obtain ⟨second, later, rfl⟩ := List.exists_cons_of_ne_nil hne
        refine ⟨List.cons_ne_nil _ _, ?_⟩
        have hall := Spell.append hus (hlater.mark hcomma)
        simpa [commas] using hall

theorem paired_paramList? : PairedHead n k [] (paramList? b) (paramList? b')
    (Spells fun params => Expr.parenthesized (params.map Param.pieces)) := by
  refine .accept _ (fun opening hopening => .accept _ (fun close hclose => ?_) ?_) (.pure rfl fun _ _ => trivial)
  · exact .pure rfl fun _ _ => (Spell.nil.mark hclose).mark hopening
  · refine (paired_paramTail? (by omega) (by omega) (by omega) (by omega)).imp fun params? ts _ h => ?_
    cases params? with
    | none => trivial
    | some params => exact (h params rfl).2.mark hopening

/-- How the head of a declaration is spelled. -/
def DeclHead.pieces : DeclHead → List Piece
  | method _ name params returns =>
    returns.elim [] TypeName.pieces ++ .word (.identifier name) :: Expr.parenthesized (params.map Param.pieces)
  | locals _ type => type.pieces
  | faulty => []

/-- The tokens that were taken for a head spell it and start where it does, unless it is faulty. -/
def SpellsHead : Post (Option DeclHead)
  | some .faulty, _, _ | none, _, _ => True
  | some (.method start name params returns), ts, _ =>
    Spell (DeclHead.pieces (.method start name params returns)) ts ∧ StartsAt start.start ts
  | some (.locals start type), ts, _ => Spell type.pieces ts ∧ StartsAt start.start ts

theorem paired_declHead : PairedHead n k [] (declHead b) (declHead b') SpellsHead := by
  refine .peekFirst fun first => .known ?_
  have hstart {ts rest : List Token} (hne : ts ≠ []) (h : First (· = first) (ts ++ rest)) :
      StartsAt first.span.start ts := by
    obtain ⟨t, us, rfl⟩ := List.exists_cons_of_ne_nil hne
    obtain rfl := first_cons.1 h
    exact startsAt_cons t us
  refine .identifierThen _ (fun t u ht hu => ?_) ((paired_typeName? hb hb').bind fun type? => ?_)
  · refine .advance (.known ((paired_paramList? (by omega) (by omega)).bind fun params? => ?_))
    cases params? with
    | none => exact .pure rfl fun _ _ _ _ _ => trivial
    | some params =>
      refine .nextIs _ (fun _ _ => .pure rfl fun _ _ us hus hfirst => ?_) (.pure rfl fun _ _ _ _ _ => trivial)
      rw [List.append_nil] at hfirst ⊢
      exact ⟨Spell.identifier hus ht, hstart (List.cons_ne_nil _ _) hfirst⟩
  cases type? with
  | none => exact .pure rfl fun _ _ _ _ _ => trivial
  | some type =>
    refine .peek fun name => ?_
    rw [Token.kind_shift]
    cases hname : name.kind.isIdentifier with
    | false => exact .pure rfl fun _ _ _ _ _ => trivial
    | true =>
      have hkind := Token.Kind.eq_identifier hname
      rw [if_pos rfl, if_pos rfl, Token.ahead_eq (by simp [hkind])]
      refine .peekSecond fun second => ?_
      rw [Token.kind_shift]
      cases second.kind.isMark .lparen with
      | false =>
        refine .pure rfl fun _ _ us htype hfirst => ?_
        rw [List.append_nil] at hfirst ⊢
        exact ⟨TypeTokens.spell htype, hstart (TypeTokens.ne htype) hfirst⟩
      | true =>
        refine .advance (.known ((paired_paramList? (by omega) (by omega)).map
          (fun params? => by cases params? <;> rfl) fun params? ts _ h us htype hfirst => ?_))
        cases params? with
        | none => trivial
        | some params =>
          exact ⟨(TypeTokens.spell htype).append (Spell.identifier h hkind), hstart (by simp) hfirst⟩

theorem paired_eachHead : PairedHead n k [] (eachHead b) (eachHead b') (Spells eachPieces) := by
  have hcolon : ∀ (type? : Option TypeName) (t u : Token), t.kind = .identifier → u.kind = .mark .colon →
      PairedHead n k [t, u] (eachColon type?) (eachColon type?) fun head? ts rest =>
        ∀ us, Spell (type?.elim [] TypeName.pieces) us → Spells eachPieces head? (us ++ ts) rest := by
    intro type? t u ht hu
    refine .advance (.advance (.pure (by simp) fun _ _ us hus => ?_))
    exact hus.append ((Spell.nil.mark hu).identifier ht)
  refine .identifierThen _ (fun t u ht hu => (hcolon none t u ht hu).imp fun _ _ _ h => h [] .nil)
    ((paired_typeName? hb hb').bind fun type? => ?_)
  cases type? with
  | none => exact .pure rfl fun _ _ _ _ => trivial
  | some type =>
    refine .identifierThen _ (fun t u ht hu => ?_) (.pure rfl fun _ _ _ _ => trivial)
    exact (hcolon (some type) t u ht hu).imp fun _ _ _ h us htype => h us (TypeTokens.spell htype)

theorem paired_forHead : PairedHead n k [] (forHead b) (forHead b') (Spells fun head => head.2.pieces) := by
  refine .peek fun first => .known ((paired_typeName? hb hb').bind fun type? => ?_)
  cases type? with
  | none => exact .pure rfl fun _ _ _ _ => trivial
  | some type =>
    refine .peek fun name => ?_
    rw [Token.kind_shift]
    cases name.kind.isIdentifier with
    | false => exact .pure rfl fun _ _ _ _ => trivial
    | true =>
      refine .pure rfl fun _ _ us htype => ?_
      rw [List.append_nil]
      exact TypeTokens.spell htype

end Heads

/-! ## Expressions and variables in statements -/

/-- The declared variables of a statement. -/
theorem among_declared {ds : List Declarator} {ts : List Token} (h : Among (fun d us => Covers d.span us) ds ts)
    (span : Span) (type : TypeName) :
    Among (fun k us => Covers k.1 us) (Stmt.constructs (.declaration span type ds)) ts := by
  intro k hk
  obtain ⟨d, hd, rfl⟩ := List.mem_map.1 hk
  exact h d hd

section Parts

variable (hb : k ≤ b) (hb' : k ≤ b')

include hb hb'

theorem paired_expressions : PairedPart n k [] (separated (expression b) b) (separated (expression b') b')
    fun es ts _ => Fragment (commas (es.map Expr.pieces)) [] es ts := by
  refine (paired_separated (Q := fun es ts => Fragment (commas (es.map Expr.pieces)) [] es ts)
    (paired_expression hb hb') (fun _ _ => .expr) ?_ hb hb').imp fun _ _ _ => And.right
  intro e f es ts comma us he hcomma hes
  exact (Fragment.expr he).append (hes.mark hcomma)

/-- A condition in its parentheses. -/
theorem paired_condition (cause : SyntaxCause) : PairedPart n k [] (condition b cause) (condition b' cause)
    fun e ts _ => Fragment (Expr.parenthesized [e.pieces]) [] [e] ts := by
  refine .expect _ _ fun opening hopening => (paired_expression (by omega) (by omega)).bind fun value => ?_
  exact .expect _ _ fun close hclose => .pure rfl fun _ _ us hus => ((Fragment.expr hus).snoc hclose).mark hopening

/-- An expression that may be left out before a mark, and what is read after it. -/
theorem paired_optional {Q : Post α} (K K' : Option Expr → Read α) (m : Mark)
    (h : ∀ e?, PairedWhole n k [] (K e?) (K' (Placed.shift e? n)) fun r ts rest =>
      ∀ us, Fragment (e?.elim [] Expr.pieces) [] e?.toList us → Q r (us ++ ts) rest) : PairedWhole n k []
        (nextIs m >>= fun empty => if empty then K none else expression b >>= fun e => K (some e))
        (nextIs m >>= fun empty => if empty then K' none else expression b' >>= fun e => K' (some e)) Q := by
  refine .nextIs _ (fun _ _ => .known ((h none).imp fun _ ts _ hQ => hQ [] .nil)) ?_
  exact (paired_expression hb hb').bind fun e => (h (some e)).imp fun _ ts _ hQ us hus => hQ us (.expr hus)

theorem paired_expressionStatement :
    PairedWhole n k [] (expressionStatement b) (expressionStatement b') SpelledStmt := by
  refine (paired_expression hb hb').bind fun value => .closing _ _ rfl (fun close => by simp [Stmt.shift]) ?_
  intro close _ hclose us hus
  refine .closed (((Fragment.expr hus).snoc hclose).node rfl rfl trivial .nil (by simp [Stmt.exprs])) ?_ ?_ rfl
  · exact (Derives.covered hus).starts.append _
  · exact endsAt_single hclose rfl us

theorem paired_declarator (type : TypeName) : PairedPart n k [] (declarator b type) (declarator b' type)
    fun d ts _ => Fragment (d.pieces type) [] d.initializer.toList ts ∧ Covers d.span ts := by
  refine .expectIdentifier _ fun name hname => .accept _ (fun assign hassign => ?_)
    (.pure rfl fun _ _ => ⟨Fragment.nil.identifier hname, .single name⟩)
  have hvalue : ∀ {x x' : Read Expr}, PairedPart n (k - 1 - 1) [] x x' (fun e ts _ =>
        Fragment (initializerPieces type e) [] [e] ts ∧ StopsAt e.span.stop ts) → PairedPart n (k - 1 - 1) []
      (do let value ← x; return (⟨name.lexeme, some value, name.span.to value.span⟩ : Declarator))
      (do let value ← x'; return ⟨name.lexeme, some value, (name.span.shift n).to value.span⟩)
      fun d ts _ => Fragment (d.pieces type) [] d.initializer.toList (name :: assign :: ts) ∧
        Covers d.span (name :: assign :: ts) :=
    fun h => h.map (fun value => by simp [Placed.shift, Declarator.shift]) fun value ts _ hvalue =>
      ⟨(hvalue.1.mark hassign).identifier hname, startsAt_cons _ _, (hvalue.2.cons _).cons _⟩
  have hb2 : k - 1 - 1 ≤ b := by omega
  have hb2' : k - 1 - 1 ≤ b' := by omega
  have hexpr := hvalue ((paired_expression hb2 hb2').imp fun e ts _ h =>
    ⟨⟨fun hlexed => fits_initializer (h.spell hlexed), (Fragment.expr h).own, by simp⟩, h.covered.stops⟩)
  rw [if_pos rfl, if_pos rfl]
  split
  · exact hexpr
  · rename_i hdims
    refine .nextIs _ (fun _ _ => .known (hvalue ?_)) hexpr
    refine (paired_arrayInit (paired_goal (by omega) (by omega)) hb2 hb2' _).imp fun e ts _ h => ?_
    obtain ⟨span, items, rfl, hitems⟩ := h
    refine ⟨⟨fun hlexed => fits_braces hdims (hitems.spell hlexed) span, ?_, by simp⟩, hitems.covered.stops⟩
    exact List.forall_mem_singleton.2 ⟨ts, List.infix_rfl, .inr ⟨span, _, items, rfl, hitems⟩⟩

theorem paired_declarators (type : TypeName) :
    PairedPart n k [] (separated (declarator b type) b) (separated (declarator b' type) b') fun ds ts _ =>
      Fragment (commas (ds.map (Declarator.pieces type))) [] (ds.filterMap Declarator.initializer) ts ∧
        Among (fun d us => Covers d.span us) ds ts := by
  refine (paired_separated (Q := fun ds ts => Fragment (commas (ds.map (Declarator.pieces type))) []
    (ds.filterMap Declarator.initializer) ts ∧ Among (fun d us => Covers d.span us) ds ts)
    (paired_declarator hb hb' type) ?_ ?_ hb hb').imp fun _ _ _ => And.right
  · intro d ts hd
    exact ⟨hd.1.sub (by cases hinit : d.initializer <;> simp [hinit]), .one hd.2⟩
  · intro d d' ds ts comma us hd hcomma hmore
    refine ⟨(hd.1.append (hmore.1.mark hcomma)).sub ?_, .append (l := [d]) (.one hd.2) hmore.2.cons⟩
    rw [List.filterMap_cons]
    cases d.initializer <;> simp

/-- The first clause of a counting loop. -/
theorem paired_forInit : PairedPart n k [] (forInit b) (forInit b') fun init ts _ =>
    Fragment (commas (init.map Stmt.clause)) (Stmt.subsAll init) [] ts := by
  rw [forInit_eq, forInit_eq]
  refine .nextIs _ (fun _ _ => .pure rfl fun _ _ => .nil) (.attempt 0 (paired_forHead hb hb') guesses_forHead
    (fun _ _ _ _ => Nat.zero_le _) ?_ ?_)
  · rintro ⟨start, type⟩
    refine ((paired_declarators hb hb' type).map (β := Stmt) ?_ (Q := fun u ts _ => ∀ us, Spell type.pieces us →
      Fragment u.clause (Stmt.subsAll [u]) [] (us ++ ts)) ?_).map (fun u => rfl) fun u ts _ h us hus => h us hus
    · intro ds
      simp only [Stmt.shift_eq, Stmt.shift, shift_list, List.getLast?_map]
      cases ds.getLast? <;> simp [Placed.shift, Declarator.shift]
    · intro ds ts _ hds us hus
      have hall := hds.1.after hus
      refine ⟨hall.spell, .nil, fun s hs => ?_⟩
      obtain rfl : s = .declaration _ type ds := by simpa [Stmt.subsAll, Stmt.subs] using hs
      exact ⟨trivial, hall.own, among_declared hds.2.after _ _⟩
  · refine (paired_expressions hb hb').map (fun values => by simp [shift_list, Stmt.shift]) ?_
    refine fun values ts _ h => ⟨?_, .nil, fun s hs => ?_⟩
    · rw [List.map_map]
      exact h.spell
    · obtain ⟨s', hs', hs⟩ := Stmt.mem_subsAll.1 hs
      obtain ⟨value, hvalue, rfl⟩ := List.mem_map.1 hs'
      obtain rfl := List.mem_singleton.1 hs
      exact ⟨trivial, List.forall_mem_singleton.2 (h.own value hvalue), .nil⟩

end Parts

/-! ## Statements that may go on with `else` -/

section Else

variable {no : Read Stmt} {whole : Stmt} {post : List Token} {c d : Cursor} {ts : List Token}

theorem elseBranch_nil (h : c.rest = []) : elseBranch no whole c = .ok whole c.meet := by
  rw [elseBranch, acceptKeyword_bind, peek_bind_nil h, kind_endToken]
  rfl

theorem elseBranch_else (h : c.rest = t :: ts) (ht : t.kind.isKeyword .elseWord = true) :
    elseBranch no whole c = no { c with rest := ts, consumed := t.span.stop } := by
  rw [elseBranch, acceptKeyword_bind, peek_bind_cons h, if_pos ht, advance_bind_cons h]
  rfl

theorem elseBranch_other (h : c.rest = t :: ts) (ht : t.kind.isKeyword .elseWord = false) :
    elseBranch no whole c = .ok whole c := by
  rw [elseBranch, acceptKeyword_bind, peek_bind_cons h, ht]
  rfl

/-- Unless the further tokens start with `else`, they are left alone. -/
theorem elseBranch_further (no : Read Stmt) (whole : Stmt) (hd : d.rest = post) (helse : ¬ ElseNext post) :
    ∃ d', elseBranch no whole d = .ok whole d' ∧ d.Onward [] d' := by
  cases hpost : post with
  | nil => exact ⟨d.meet, elseBranch_nil (hd.trans hpost), .meet d⟩
  | cons t ts =>
    have ht : t.kind.isKeyword .elseWord = false := by
      by_contra h
      exact helse ⟨t, ts, hpost, Bool.eq_true_of_not_eq_false h⟩
    exact ⟨d, elseBranch_other (hd.trans hpost) ht, .refl d⟩

theorem closes_elseBranch {x : Read Stmt} {f : Stmt → Read Stmt} {F : Stmt → Stmt} (hx : Closes [] x)
    (hf : ∀ s, Closes [] (f s)) (hbranch : ∀ s, Takes [] (elseBranch (f s) (F s)) fun _ _ _ => True) :
    Closes [] (x >>= fun s => elseBranch (f s) (F s)) := by
  have hrun (s : Stmt) (d : Cursor) := (hbranch s).run d List.nil_prefix
  refine ⟨fun post c d hcd hc => ?_⟩
  have h := hx.both post c d hcd hc
  generalize hxc : x c = r at h
  generalize hxd : x d = r' at h
  cases h with
  | @together s c' d' taken hc' hd' hmet hclose =>
    have hcd' := rest_onward hcd hc' hd'
    rw [bind_ok hxc, bind_ok hxd]
    cases hrest : c'.rest with
    | nil =>
      rw [hrest, List.nil_append] at hcd'
      obtain rfl : c.rest = taken := by rw [hc'.rest, hrest, List.append_nil]
      rw [elseBranch_nil hrest]
      refine .edge hc'.thenMeet rfl hclose (fun hpost => ?_) fun hpost => ?_
      · obtain ⟨d'', hr, hd''⟩ := elseBranch_further (f s) (F s) hcd' hpost
        exact ⟨d'', hr, List.append_nil c.rest ▸ hd'.trans hd''⟩
      · -- the `else` is taken as well
        obtain ⟨t, ts, rfl, ht⟩ := hpost
        rw [elseBranch_else hcd' ht]
        intro b d'' hb
        have hsure := (hf s).alone.run { d' with rest := ts, consumed := t.span.stop } List.nil_prefix
        rw [hb] at hsure
        cases hsure with
        | ok us hus _ =>
          refine ⟨_, hd'.trans ((onward_advance hcd').trans hus), ?_, fun _ => ?_⟩
          · simp
          · simp
    | cons t ts =>
      have hd : d'.rest = t :: (ts ++ post) := by rw [hcd', hrest]; rfl
      cases ht : t.kind.isKeyword .elseWord with
      | true =>
        rw [elseBranch_else hrest ht, elseBranch_else hd ht]
        have hc'' := onward_advance hrest
        have hd'' := onward_advance hd
        exact (((hf s).both post _ _ (rest_onward hcd' hc'' hd'')
          List.nil_prefix).after hc'' hd'' rfl).after hc' hd' hmet
      | false =>
        rw [elseBranch_other hrest ht, elseBranch_other hd ht]
        exact .together taken hc' hd' hmet fun _ => hclose trivial
  | refused h =>
    rw [bind_error hxc, bind_error hxd]
    exact .refused h
  | @edge s c' _ hc' hmet hclose hother helse =>
    have hrest : c'.rest = [] := List.self_eq_append_right.1 hc'.rest
    rw [bind_ok hxc, elseBranch_nil hrest]
    refine .edge hc'.thenMeet rfl hclose (fun hpost => ?_) fun hpost => .beyond hrun (hxd ▸ helse hpost)
    obtain ⟨d', rfl, hd'⟩ := hother hpost
    have hcd' := rest_onward hcd hc' hd'
    rw [hrest, List.nil_append] at hcd'
    obtain ⟨d'', hr, hd''⟩ := elseBranch_further (f s) (F s) hcd' hpost
    exact ⟨d'', (bind_ok hxd _).trans hr, List.append_nil c.rest ▸ hd'.trans hd''⟩
  | lost tail htail hhead h hlong =>
    cases h with
    | ok taken hc' hrest hmet hopen => exact absurd trivial hopen
    | error hs hmet htoken =>
      rw [bind_error hxc]
      exact .lost tail htail hhead (.error hs hmet htoken) (.beyond hrun (hxd ▸ hlong))

theorem paired_elseBranch {x x' : Read Stmt} {f f' : Stmt → Read Stmt} {F F' : Stmt → Stmt} {P Q : Post Stmt}
    (hx : PairedWhole n k [] x x' P) (hf : ∀ s (word : Token), word.kind = .keyword .elseWord →
      PairedWhole n (k - 1) [] (f s) (f' (s.shift n)) fun u ts rest =>
        ∀ us, P s us (word :: ts ++ rest) → Q u (us ++ word :: ts) rest)
    (hF : ∀ s, (F s).shift n = F' (s.shift n)) (hQ : ∀ s ts rest, P s ts rest → Elseless rest → Q (F s) ts rest) :
    PairedWhole n k [] (x >>= fun s => elseBranch (f s) (F s)) (x' >>= fun s => elseBranch (f' s) (F' s)) Q := by
  have hbranch : ∀ s, PairedHead n k [] (elseBranch (f s) (F s)) (elseBranch (f' (s.shift n)) (F' (s.shift n)))
      fun u ts rest => ∀ us, P s us (ts ++ rest) → Q u (us ++ ts) rest := by
    refine fun s => .acceptKeyword _ (fun word hword => (hf s word hword).near) (.pure (hF s) ?_)
    intro rest _ hrest us hus
    rw [List.append_nil]
    exact hQ s us rest hus hrest
  -- runs are put together as ever; only the lockstep looks beyond the end of the branch
  have hnear := hx.near.bind (f := fun s => elseBranch (f s) (F s)) (g := fun s => elseBranch (f' s) (F' s)) hbranch
  refine ⟨hnear.run, fun _ => closes_elseBranch (hx.lock rfl) (fun s => ?_) fun s => (hbranch s).takes.imp ?_,
    hnear.takes⟩
  · exact (hf s ⟨.keyword .elseWord, default, default⟩ rfl).lock rfl
  · exact fun _ _ _ _ => trivial

end Else

/-! ## Statements with statements in them -/

/-- What a counting loop is after its condition: tokens spell its last clause and its body. -/
def SpellsUpdate (start : Span) (init : List Stmt) (test : Option Expr) : Post Stmt := fun u ts rest => ∃ update body,
  u = .forLoop (start.to body.span) init test update body ∧
    Fragment (commas (update.map Expr.pieces) ++ .word (.mark .rparen) :: body.pieces) body.subs update ts ∧
      EndsAt body.span.stop ts ∧ (body.endsOpen = true → Elseless rest)

section Statements

variable {again again' : Read Stmt} (hagain : PairedWhole n (k - 1) [] again again' SpelledStmt) (hb : k ≤ b)
  (hb' : k ≤ b') {opening : Token}

include hagain hb hb'

theorem paired_block : PairedWhole n k [] (block b again) (block b' again') fun r ts _ =>
    Fragment (.word (.mark .lbrace) :: (Stmt.piecesAll r.1 ++ [.word (.mark .rbrace)])) (Stmt.subsAll r.1) [] ts ∧
      StartsAt r.2.start ts ∧ EndsAt r.2.stop ts := by
  have hitems : ∀ {b j b'}, j ≤ b → j ≤ b' → j ≤ k - 1 →
      PairedPart n j [] (blockItems again b) (blockItems again' b') fun us ts _ =>
        Fragment (Stmt.piecesAll us) (Stmt.subsAll us) [] ts := by
    intro b
    induction b with
    | zero => exact fun hb _ _ => .exhausted hb (.fail _) (.fail _)
    | succ b ih =>
      intro j b' hb hb' hj
      refine .ofSucc (X := blockItems again') hb' fun b' hb' => .peek fun t => .known ?_
      rw [Token.kind_shift]
      dsimp only
      split
      · exact .pure rfl fun _ _ => .nil
      · -- a statement takes a token, so what is left of the budget pays for the others
        refine (hagain.mono hj).bindAfter 1 (fun _ _ _ h => List.length_pos_iff.2 h.ends.ne) fun first => ?_
        exact (ih (by omega) (by omega) (by omega)).map (fun _ => rfl) fun rest ts _ hrest us hfirst =>
          hfirst.fragment.append hrest
  refine .expect _ _ fun opening hopening => (hitems (by omega) (by omega) le_rfl).bind fun items => ?_
  refine .closing _ _ rfl (fun closing => rfl) fun closing _ hclosing us hus =>
    ⟨(hus.snoc hclosing).mark hopening, startsAt_cons _ _, ?_⟩
  exact (endsAt_single hclosing rfl us).cons opening

/-- What follows the head of a declaration. -/
theorem paired_declared (head : DeclHead) :
    PairedWhole n k [] (declared b again head) (declared b' again' (Placed.shift head n)) fun u ts rest =>
      ∀ us, SpellsHead (some head) us (ts ++ rest) → SpelledStmt u (us ++ ts) rest := by
  cases head with
  | method start name params returns =>
    refine (paired_block hagain hb hb').mapWhole ?_ ?_
    · rintro ⟨body, span⟩
      simp [Stmt.shift, Stmt.shiftAll_eq]
    · intro r ts _ hbody us hus
      refine .closed ((hbody.1.after hus.1).node ?_ rfl trivial .nil (by simp [Stmt.exprs])) (hus.2.append _) ?_ rfl
      · simp [Stmt.pieces, DeclHead.pieces]
      · exact hbody.2.2.append us
  | locals start type =>
    refine (paired_declarators hb hb' type).bind fun ds => .closing _ _ rfl (fun close => by simp [Stmt.shift]) ?_
    intro close _ hclose ts hds us hus
    refine .closed (((hds.1.snoc hclose).after hus.1).node ?_ rfl trivial (among_declared hds.2.snoc.after _ _)
      (by simp [Stmt.exprs])) (hus.2.append _) ?_ rfl
    · simp [Stmt.pieces, declarationPieces]
    · exact (endsAt_single hclose rfl ts).append us
  | faulty => exact .fail _

/-- A statement that no keyword or mark announces is a declaration or an expression. -/
theorem paired_plainStatement (kind : Token.Kind) :
    PairedWhole n k [] (plainStatement b again kind) (plainStatement b' again' kind) SpelledStmt := by
  unfold plainStatement
  split
  · exact .attempt 0 (paired_declHead hb hb') guesses_declHead (fun _ _ _ _ => Nat.zero_le _)
      (paired_declared hagain hb hb') (paired_expressionStatement hb hb')
  · exact paired_expressionStatement hb hb'

theorem paired_ifStatement (ht : t.kind = .keyword .ifWord) :
    PairedWhole n k t.ahead (ifStatement b again) (ifStatement b' again') SpelledStmt := by
  refine .take (by simp [ht]) ((paired_condition (by omega) (by omega) _).bind fun test => paired_elseBranch hagain
    (fun yes word hword => (hagain.mono (Nat.sub_le _ _)).mapWhole (fun no => ?_) ?_) (fun yes => ?_) ?_)
  · simp [Stmt.shift, Stmt.shiftOption]
  · intro no ts rest hno ys hyes cs htest
    -- an open branch would have taken the `else` itself
    have hnearest : yes.endsOpen = false := by
      by_contra hopen
      have helse := first_cons.1 (hyes.elseless (Bool.eq_true_of_not_eq_false hopen))
      rw [hword] at helse
      cases helse
    have hall := (htest.append (hyes.fragment.append (hno.fragment.keyword hword))).keyword ht
    refine ⟨hall.node ?_ rfl hnearest .nil (by simp [Stmt.exprs]), startsAt_cons _ _, ?_, hno.elseless⟩
    · simp [Stmt.pieces, Stmt.elsePieces]
    · exact (((hno.ends.cons word).append ys).append cs).cons t
  · simp [Stmt.shift, Stmt.shiftOption]
  · intro yes ys rest hyes hrest cs htest
    have hall := (htest.append hyes.fragment).keyword ht
    refine ⟨hall.node ?_ ?_ trivial .nil (by simp [Stmt.exprs]), startsAt_cons _ _, (hyes.ends.append cs).cons t,
      fun _ => hrest⟩
    · simp [Stmt.pieces, Stmt.elsePieces]
    · simp [Stmt.parts, Stmt.subs, Stmt.subsOption]

/-- What a loop over items reads after its colon. -/
theorem paired_itemLoop (ht : t.kind = .keyword .forWord) (hopening : opening.kind = .mark .lparen)
    (head : Option TypeName × String) :
    PairedWhole n k [] (itemLoop b again t.span head) (itemLoop b' again' (t.span.shift n) (Placed.shift head n))
      fun u ts rest => ∀ us, Spell (eachPieces head) us → SpelledStmt u (t :: opening :: (us ++ ts)) rest := by
  refine (paired_expression hb hb').bind fun iterable => .expect _ _ fun close hclose => ?_
  obtain ⟨type?, name⟩ := head
  refine hagain.mapWhole (fun body => by simp [Stmt.shift]) fun body ts rest hbody vs hiterable us hus => ?_
  have hall := ((((Fragment.expr hiterable).append (hbody.fragment.mark hclose)).after hus).mark hopening).keyword ht
  refine ⟨hall.node ?_ rfl trivial .nil (by simp [Stmt.exprs]), startsAt_cons _ _, ?_, hbody.elseless⟩
  · simp [Stmt.pieces, eachPieces]
  · exact ((((hbody.ends.cons close).append vs).append us).cons opening).cons t

theorem paired_loopUpdate (start : Span) (init : List Stmt) (test : Option Expr) :
    PairedWhole n k [] (loopUpdate b again start init test)
      (loopUpdate b' again' (start.shift n) (Placed.shift init n) (Placed.shift test n))
      (SpellsUpdate start init test) := by
  have hbody : ∀ update : List Expr, PairedWhole n k []
      (do let _ ← expect .rparen .parenAfterClauses
          let body ← again
          return Stmt.forLoop (start.to body.span) init test update body)
      (do let _ ← expect .rparen .parenAfterClauses
          let body ← again'
          return Stmt.forLoop ((start.shift n).to body.span) (Placed.shift init n) (Placed.shift test n)
            (Placed.shift update n) body) fun u ts rest =>
              ∀ us, Fragment (commas (update.map Expr.pieces)) [] update us →
                SpellsUpdate start init test u (us ++ ts) rest := by
    refine fun update => .expect _ _ fun close hclose => hagain.mapWhole (fun body => ?_) ?_
    · simp [Stmt.shift, Stmt.shiftAll_eq]
    · intro body ts rest hbody us hupdate
      have hall := hupdate.append (hbody.fragment.mark hclose)
      rw [List.append_nil] at hall
      exact ⟨update, body, rfl, hall, (hbody.ends.cons close).append us, hbody.elseless⟩
  refine .nextIs _ (fun _ _ => .known ((hbody []).imp fun _ ts _ h => h [] .nil)) ?_
  exact (paired_expressions hb hb').bind hbody

/-- What a counting loop reads after its parenthesis. -/
theorem paired_countingLoop (ht : t.kind = .keyword .forWord) (hopening : opening.kind = .mark .lparen) :
    PairedWhole n k [] (countingLoop b again t.span) (countingLoop b' again' (t.span.shift n)) fun u ts rest =>
      SpelledStmt u (t :: opening :: ts) rest := by
  refine (paired_forInit hb hb').bind fun init => .expect _ _ fun first hfirst => ?_
  refine paired_optional (by omega) (by omega)
    (fun test => expect .semicolon .semicolonAfterForCondition >>= fun _ => loopUpdate b again t.span init test)
    (fun test => expect .semicolon .semicolonAfterForCondition >>= fun _ =>
      loopUpdate b' again' (t.span.shift n) (Placed.shift init n) test) .semicolon
    fun test => .expect _ _ fun second hsecond => ?_
  have hbody := hagain.mono (show k - 1 - 1 - 1 ≤ k - 1 by omega)
  refine (paired_loopUpdate hbody (by omega) (by omega) t.span init test).imp fun u ts rest h cs htest us hinit => ?_
  obtain ⟨update, body, rfl, hbody, hends, helse⟩ := h
  have hall := ((hinit.append ((htest.append (hbody.mark hsecond)).mark hfirst)).mark hopening).keyword ht
  refine ⟨hall.node ?_ rfl trivial .nil (by simp [Stmt.exprs]), startsAt_cons _ _, ?_, helse⟩
  · simp [Stmt.pieces]
  · exact (((((hends.cons second).append cs).cons first).append us).cons opening).cons t

theorem paired_forStatement (ht : t.kind = .keyword .forWord) :
    PairedWhole n k t.ahead (forStatement b again) (forStatement b' again') SpelledStmt := by
  rw [forStatement_eq, forStatement_eq]
  refine .take (by simp [ht]) (.expect _ _ fun opening hopening => ?_)
  have hbody := hagain.mono (show k - 1 - 1 - 1 ≤ k - 1 by omega)
  have hb : k - 1 - 1 ≤ b := by omega
  have hb' : k - 1 - 1 ≤ b' := by omega
  refine .attempt 0 (paired_eachHead hb hb') guesses_eachHead (fun _ _ _ _ => Nat.zero_le _) ?_
    (paired_countingLoop hbody hb hb' ht hopening)
  exact fun head => (paired_itemLoop hbody hb hb' ht hopening head).imp fun u ts rest h us hus => h us hus

theorem paired_doStatement (ht : t.kind = .keyword .doWord) :
    PairedWhole n k t.ahead (doStatement b again) (doStatement b' again') SpelledStmt := by
  refine .take (by simp [ht]) (hagain.bind fun body => .acceptKeyword _ (fun word hword => ?_) (.fail _))
  refine (paired_condition (by omega) (by omega) _).bind fun test => .closing _ _ rfl (fun close => ?_) ?_
  · simp [Stmt.shift]
  intro close _ hclose cs htest ts hbody
  have hall := (hbody.fragment.append ((htest.snoc hclose).keyword hword)).keyword ht
  refine .closed (hall.node ?_ ?_ trivial .nil (by simp [Stmt.exprs])) (startsAt_cons _ _) ?_ rfl
  · simp [Stmt.pieces]
  · simp [Stmt.parts, Stmt.subs]
  · exact (((endsAt_single hclose rfl cs).cons word).append ts).cons t

omit hagain in
theorem paired_importStatement (ht : t.kind = .keyword .importWord) :
    PairedWhole n k t.ahead (importStatement b) (importStatement b') SpelledStmt := by
  have htail : ∀ {b k b'} (path : String), k ≤ b → k ≤ b' →
      PairedPart n k [] (importTail b path) (importTail b' path) fun r ts _ => (∀ t ∈ ts, t.Lexed) →
        pathWords path ++ ts.map Token.word = pathWords r.1 ++ if r.2 then [.mark .dot, .mark .star] else [] := by
    intro b
    induction b with
    | zero => exact fun _ hb _ => .exhausted hb (.pure _ id) (.pure fun _ _ _ => by simp)
    | succ b ih =>
      intro k b' path hb hb'
      refine .ofSucc (X := fun b' => importTail b' path) hb' fun b' hb' => .accept .dot (fun dot hdot => ?_)
        (.pure rfl fun _ _ _ => by simp)
      refine .accept .star (fun star hstar => .pure rfl fun _ _ _ => ?_)
        (.expectIdentifier _ fun segment hsegment => ?_)
      · simp [Token.word_mark hdot, Token.word_mark hstar]
      · refine (ih _ (by omega) (by omega)).imp fun r ts _ h hlexed => ?_
        have hpoint := ((hlexed segment (by simp)).2 hsegment).2
        rw [← h fun u hu => hlexed u (by simp [hu]), pathWords_dot _ hpoint]
        simp [Token.word_mark hdot, Token.word_identifier hsegment]
  refine .take (by simp [ht]) (.expectIdentifier _ fun first hfirst => (htail _ (by omega) (by omega)).bind fun r => ?_)
  refine .closing _ _ rfl (fun close => rfl) fun close _ hclose ts hpath => ?_
  have hspell : Spell (Piece.ofWords (importWords r.1 r.2)) (first :: (ts ++ [close])) := by
    intro hlexed
    have hwords : importWords r.1 r.2 = (first :: (ts ++ [close])).map Token.word := by
      rw [importWords, ← hpath fun u hu => hlexed u (by simp [hu]),
        pathWords_of_not_mem ((hlexed first (by simp)).2 hfirst).2]
      simp [Token.word_mark hclose, Token.word_identifier hfirst]
    rw [← hwords]
    exact fits_ofWords _
  have hends := ((endsAt_single hclose rfl ts).cons first).cons t
  refine .closed (((Fragment.of hspell).keyword ht).node rfl rfl trivial ?_ (by simp [Stmt.exprs]))
    (startsAt_cons _ _) hends rfl
  cases r.2 with
  | true => exact .nil
  | false => exact .one ⟨startsAt_cons _ _, hends.stops⟩

theorem paired_announced :
    PairedWhole n k t.ahead (announced b again t.kind) (announced b' again' t.kind) SpelledStmt := by
  have hplain : PairedWhole n k t.ahead (plainStatement b again t.kind) (plainStatement b' again' t.kind) SpelledStmt :=
    (paired_plainStatement hagain hb hb' _).known
  cases hkind : t.kind with
  | keyword word =>
    rw [hkind] at hplain
    cases word with
    | ifWord => exact paired_ifStatement hagain hb hb' hkind
    | whileWord =>
      refine .take (by simp [hkind]) ((paired_condition (by omega) (by omega) _).bind fun test =>
        hagain.mapWhole (fun body => by simp [Stmt.shift]) fun body ts rest hbody cs htest => ?_)
      have hall := (htest.append hbody.fragment).keyword hkind
      exact ⟨hall.node rfl rfl trivial .nil (by simp [Stmt.exprs]), startsAt_cons _ _, (hbody.ends.append cs).cons t,
        hbody.elseless⟩
    | doWord => exact paired_doStatement hagain hb hb' hkind
    | forWord => exact paired_forStatement hagain hb hb' hkind
    | returnWord =>
      refine .take (by simp [hkind]) ?_
      refine paired_optional (by omega) (by omega)
        (fun value => expect .semicolon .semicolonAfterReturn >>= fun close =>
          pure (Stmt.returnValue (t.span.to close.span) value))
        (fun value => expect .semicolon .semicolonAfterReturn >>= fun close =>
          pure (Stmt.returnValue ((t.span.shift n).to close.span) value)) .semicolon
        fun value => .closing _ _ rfl (fun close => by simp [Stmt.shift]) fun close _ hclose us hvalue => ?_
      refine .closed (((hvalue.snoc hclose).keyword hkind).node rfl rfl trivial .nil (by simp [Stmt.exprs]))
        (startsAt_cons _ _) ?_ rfl
      exact (endsAt_single hclose rfl us).cons t
    | importWord => exact paired_importStatement hb hb' hkind
    | breakWord | continueWord =>
      refine .take (by simp [hkind]) (.closing _ _ rfl (fun close => by simp [Stmt.shift]) fun close _ hclose => ?_)
      refine .closed (((Fragment.nil.mark hclose).keyword hkind).node rfl rfl trivial .nil (by simp [Stmt.exprs]))
        (startsAt_cons _ _) ?_ rfl
      exact endsAt_single hclose rfl [t]
    | _ => exact hplain
  | mark m =>
    rw [hkind] at hplain
    cases m with
    | lbrace =>
      refine .known ((paired_block hagain hb hb').mapWhole ?_ ?_)
      · rintro ⟨body, span⟩
        simp [Stmt.shift, Stmt.shiftAll_eq]
      · intro r ts _ hblock
        exact .closed (hblock.1.node rfl rfl trivial .nil (by simp [Stmt.exprs])) hblock.2.1 hblock.2.2 rfl
    | semicolon =>
      rw [Token.ahead_eq (by simp [hkind])]
      refine .takeClosing (by rw [hkind]; rfl) rfl fun _ => ?_
      refine .closed ((Fragment.nil.mark hkind).node rfl rfl trivial .nil (by simp [Stmt.exprs]))
        (startsAt_cons _ _) ?_ rfl
      exact endsAt_single hkind rfl []
    | _ => exact hplain
  | _ =>
    rw [hkind] at hplain
    exact hplain

end Statements

/-! ## All statements -/

theorem paired_statement (hb : k ≤ b) (hb' : k ≤ b') :
    PairedWhole n k [] (statement b) (statement b') SpelledStmt := by
  induction b generalizing k b' with
  | zero => exact .exhausted hb (.fail _) (.fail _)
  | succ b ih =>
    refine .ofSucc (X := statement) hb' fun b' hb' => ?_
    rw [statement, statement, statementWith_eq, statementWith_eq]
    refine .peek fun t => ?_
    rw [Token.kind_shift]
    exact paired_announced (ih (by omega) (by omega)) hb hb'

/-- The tokens that are taken for a statement spell it. -/
theorem takes_statement : Takes [] (statement b) SpelledStmt :=
  (paired_statement (n := 0) b.zero_le b.zero_le).takes

theorem closes_statement : Closes [] (statement b) :=
  (paired_statement (n := 0) b.zero_le b.zero_le).lock rfl

end Read

end HostScript
