import HostScript.Proofs.Grammar
import HostScript.Proofs.PairedReaders

/-!
# Readers of types and expressions

A reader of expressions takes tokens that derive what it gives, so every operator has operands that bind tightly
enough. An expression is read in the same way wherever its tokens stand in a text, with any budget that pays for the
tokens that are left, and in lockstep in a text and in a longer one (`Read.paired_goal`).
-/

set_option autoImplicit false

namespace HostScript

namespace Read

variable {α : Type} [Placed α] {n k b b' : Nat} {t : Token}

/-! ## Types -/

theorem paired_pairs {opens follows : Token.Kind → Bool} {add : α → Token → α} (hp : PairKinds opens follows)
    (hadd : ∀ a u, Placed.shift (add a u) n = add (Placed.shift a n) (u.shift n)) (a : α) (hb : k ≤ b) (hb' : k ≤ b') :
    PairedHead n k [] (pairs opens follows add b a) (pairs opens follows add b' (Placed.shift a n)) fun a' ts _ =>
      Adds opens follows add a ts a' := by
  induction b generalizing k b' a with
  | zero => exact .exhausted hb (.pure _ id) (.pure fun _ _ => .nil a)
  | succ b ih =>
    refine .ofSucc (X := fun b' => pairs opens follows add b' (Placed.shift a n)) hb' fun b' hb' => .peek fun t => ?_
    rw [Token.kind_shift]
    by_cases ho : opens t.kind
    swap
    · rw [if_neg ho, if_neg ho]
      exact .pure rfl fun _ _ => .nil a
    rw [if_pos ho, if_pos ho, Token.ahead_eq fun heof => hp.opens_eof (heof ▸ ho)]
    refine .peekSecond fun u => ?_
    rw [Token.kind_shift]
    by_cases hf : follows u.kind
    swap
    · rw [if_neg hf, if_neg hf]
      exact .pure rfl fun _ _ => .nil a
    have hu : u.kind ≠ .eof := by
      intro heof
      rw [heof, hp.follows_eof] at hf
      cases hf
    rw [if_pos hf, if_pos hf, Token.ahead_eq hu]
    refine .advance (.advance ?_)
    rw [← hadd]
    exact (ih _ (by omega) (by omega)).imp fun _ _ _ h => .pair ho hf h

/-- The tokens that were taken are those of the type, if there is one. -/
def TakesType : Post (Option TypeName)
  | none, ts, _ => ts = []
  | some type, ts, _ => TypeTokens type ts

/-- The head of a cast: a type in parentheses, and after them a token that starts an operand. -/
def CastHead (t : Token) : Post (Option (Token × TypeName))
  | none, _, _ => True
  | some head, ts, rest => head.1 = t ∧ ∃ first us close v, ts = t :: (first :: us ++ [close]) ∧
    TypeTokens head.2 (first :: us) ∧ close.kind = .mark .rparen ∧ First (· = v) rest ∧
      v.kind.startsCastOperand first.kind.isTypeWord

section Budgets

variable (hb : k ≤ b) (hb' : k ≤ b')

include hb hb'

theorem paired_dimensions : PairedHead n k [] (dimensions b 0) (dimensions b' 0) fun dims ts _ => Dims 0 ts dims := by
  rw [dimensions_eq_pairs, dimensions_eq_pairs]
  exact paired_pairs .dims (fun _ _ => rfl) 0 hb hb'

theorem paired_dottedTail (name : String) : PairedHead n k [] (dottedTail b name) (dottedTail b' name)
    fun name' ts _ => Dots name ts name' := by
  rw [dottedTail_eq_pairs, dottedTail_eq_pairs]
  exact paired_pairs .dots (fun _ _ => rfl) name hb hb'

theorem paired_typeName? : PairedHead n k [] (typeName? b) (typeName? b') TakesType := by
  have hb : k - 1 ≤ b := by omega
  have hb' : k - 1 ≤ b' := by omega
  refine .peek fun t => ?_
  rw [Token.kind_shift]
  by_cases hword : t.kind.isTypeWord
  · rw [if_pos hword, if_pos hword]
    refine .take (Token.Kind.ne_eof_of_isTypeWord hword) ((paired_dimensions hb hb').map (fun _ => rfl) ?_)
    exact fun dims ts _ h => .word hword h
  rw [if_neg hword, if_neg hword]
  by_cases hname : t.kind.isIdentifier
  · have hkind := Token.Kind.eq_identifier hname
    rw [if_pos hname, if_pos hname]
    refine .take (by simp [hkind]) ((paired_dottedTail hb hb' _).bind fun name => ?_)
    exact (paired_dimensions hb hb').map (fun _ => rfl) fun dims ts _ hdims us hdots => .named hkind hdots hdims
  · rw [if_neg hname, if_neg hname]
    exact .pure rfl fun _ _ => rfl

theorem paired_newType : PairedPart n k [] (newType b) (newType b') fun type ts _ =>
    ∃ name, type = ⟨name, 0⟩ ∧ TypeTokens ⟨name, 0⟩ ts := by
  have hsegments : ∀ {b k b'} (name : String), k ≤ b → k ≤ b' →
      PairedPart n k [] (classSegments b name) (classSegments b' name) fun name' ts _ => Dots name ts name' := by
    intro b
    induction b with
    | zero => exact fun name hb _ => .exhausted hb (.pure _ id) (.pure fun _ _ => .nil name)
    | succ b ih =>
      intro k b' name hb hb'
      refine .ofSucc (X := fun b' => classSegments b' name) hb' fun b' hb' => ?_
      refine .accept .dot (fun dot hdot => .expectIdentifier _ fun segment hsegment => ?_)
        (.pure rfl fun _ _ => .nil name)
      exact (ih _ (by omega) (by omega)).imp fun _ _ _ h => .pair (by rw [hdot]; rfl) (by rw [hsegment]; rfl) h
  refine .peek fun t => ?_
  rw [Token.kind_shift]
  by_cases hword : t.kind.isTypeWord
  · rw [if_pos hword, if_pos hword]
    exact .take (Token.Kind.ne_eof_of_isTypeWord hword) (.pure rfl fun _ _ => ⟨_, rfl, .word hword (.nil 0)⟩)
  · rw [if_neg hword, if_neg hword]
    refine .known (.expectIdentifier _ fun first hfirst => (hsegments _ (by omega) (by omega)).map (fun _ => rfl) ?_)
    intro name ts _ h
    refine ⟨name, rfl, ?_⟩
    rw [← List.append_nil ts]
    exact .named hfirst h (.nil 0)

theorem paired_castHead (ht : t.kind = .mark .lparen) :
    PairedHead n k t.ahead (castHead b) (castHead b') (CastHead t) := by
  refine .take (by simp [ht]) (.peekFirst fun first => .known ?_)
  refine (paired_typeName? (by omega) (by omega)).bind fun type? => ?_
  cases type? with
  | none => exact .pure rfl fun _ _ _ _ _ => trivial
  | some type =>
    refine .accept _ (fun close hclose => .peekFirst fun v => .known ?_) (.pure rfl fun _ _ _ _ _ => trivial)
    rw [Token.kind_shift, Token.kind_shift]
    by_cases hv : v.kind.startsCastOperand first.kind.isTypeWord
    swap
    · rw [if_neg hv, if_neg hv]
      exact .pure rfl fun _ _ _ _ _ _ => trivial
    rw [if_pos hv, if_pos hv]
    refine .pure rfl fun rest _ hnext us htype hfirst => ⟨rfl, ?_⟩
    obtain ⟨u, us, rfl⟩ := List.exists_cons_of_ne_nil (TypeTokens.ne htype)
    obtain rfl := first_cons.1 hfirst
    exact ⟨u, us, close, v, rfl, htype, hclose, hnext, hv⟩

end Budgets

/-! ## Expressions -/

theorem paired_separated {item item' : Read α} {P : α → List Token → Prop} {Q : List α → List Token → Prop}
    (hitem : PairedPart n k [] item item' fun a ts _ => P a ts) (hone : ∀ a ts, P a ts → Q [a] ts)
    (hmore : ∀ a a' as ts t us, P a ts → t.kind = .mark .comma → Q (a' :: as) us → Q (a :: a' :: as) (ts ++ t :: us))
    (hb : k ≤ b) (hb' : k ≤ b') :
    PairedPart n k [] (separated item b) (separated item' b') fun as ts _ => as ≠ [] ∧ Q as ts := by
  induction b generalizing k b' with
  | zero => exact .exhausted hb (.fail _) (.fail _)
  | succ b ih =>
    refine .ofSucc (X := separated item') hb' fun b' hb' => hitem.bind fun first => .accept .comma ?_ ?_
    · intro comma hcomma
      refine (ih (hitem.mono (Nat.sub_le _ _)) (by omega) (by omega)).map (fun _ => rfl) fun rest ts _ h us hus => ?_
      obtain ⟨hne, h⟩ := h
      obtain ⟨second, rest, rfl⟩ := List.exists_cons_of_ne_nil hne
      exact ⟨List.cons_ne_nil _ _, hmore _ _ _ _ _ _ hus hcomma h⟩
    · refine .pure rfl fun _ _ us hus => ⟨List.cons_ne_nil _ _, ?_⟩
      rw [List.append_nil]
      exact hone _ _ hus

section Expressions

variable {again again' : Goal → Read Expr} (hagain : ∀ g, PairedPart n (k - 1) [] (again g) (again' g) fun e ts _ =>
    Derives (.expr g.rank e) ts) (hb : k ≤ b) (hb' : k ≤ b')

include hagain hb hb'

theorem paired_arguments : PairedPart n k [] (arguments b again) (arguments b' again') fun r ts _ =>
    Derives (.args r.1 r.2) ts := by
  refine .expect _ _ fun opening hopening => .nextIs _ (fun _ _ => .known ?_) ?_
  · exact .expect _ _ fun close hclose => .pure rfl fun _ _ => .noArgs hopening hclose
  · have hb1 : k - 1 ≤ b := by omega
    have hb1' : k - 1 ≤ b' := by omega
    have hexprs := paired_separated (Q := fun es ts => Derives (.list es) ts) (hagain .expression) (fun _ _ => .one)
      (fun _ _ _ _ _ _ => .more) hb1 hb1'
    refine hexprs.bind fun args => .expect _ _ fun close hclose => .pure rfl fun _ _ us hus => ?_
    exact .args hopening hus.2 hclose

theorem paired_arrayInit (element : TypeName) :
    PairedPart n k [] (arrayInit b again element) (arrayInit b' again' element) fun e ts _ =>
      ∃ span items, e = .arrayInit span element items ∧ Derives (.braces items span) ts := by
  have hitems : ∀ {b j b'}, j ≤ b → j ≤ b' → j ≤ k - 1 →
      PairedPart n j [] (arrayItems again b) (arrayItems again' b') fun items ts _ => Derives (.items items) ts := by
    intro b
    induction b with
    | zero => exact fun hb _ _ => .exhausted hb (.fail _) (.fail _)
    | succ b ih =>
      intro j b' hb hb' hj
      refine .ofSucc (X := arrayItems again') hb' fun b' hb' => .nextIs _ (fun _ _ => .pure rfl fun _ _ => .noItems) ?_
      refine ((hagain _).mono hj).bind fun first => .accept .comma (fun comma hcomma => ?_) ?_
      · exact (ih (by omega) (by omega) (by omega)).map (fun _ => rfl) fun rest ts _ h us hus => .item hus hcomma h
      · refine .pure rfl fun _ _ us hus => ?_
        rw [List.append_nil]
        exact .lastItem hus
  refine .expect _ _ fun opening hopening => (hitems (by omega) (by omega) le_rfl).bind fun items => ?_
  refine .expect _ _ fun closing hclosing => .pure (Expr.shift_arrayInit _ _ _ _) fun _ _ us hus => ⟨_, items, rfl, ?_⟩
  exact .braces hopening hus hclosing

theorem paired_allocation (ht : t.kind = .keyword .newWord) :
    PairedPart n k t.ahead (allocation b again) (allocation b' again') fun e ts _ => Derives (.expr 13 e) ts := by
  have hb1 : k - 1 ≤ b := by omega
  have hb1' : k - 1 ≤ b' := by omega
  have hagain1 : ∀ g, PairedPart n (k - 1 - 1) [] (again g) (again' g) fun e ts _ => Derives (.expr g.rank e) ts :=
    fun g => (hagain g).mono (Nat.sub_le _ _)
  refine .take (by simp [ht]) ((paired_newType hb1 hb1').bind fun type => ?_)
  refine .accept _ (fun bracket hbracket => .accept _ (fun close hclose => ?_) ?_) ?_
  · have hinit := paired_arrayInit hagain hb hb' type
    refine (hinit.mono (by omega)).bind fun e => ?_
    cases e with
    | arrayInit span element items =>
      rw [Expr.shift_eq, Expr.shift_arrayInit]
      refine .pure (Expr.shift_arrayInit _ _ _ _) fun _ _ ts hinit us htype => ?_
      obtain ⟨span', items', heq, hitems⟩ := hinit
      obtain ⟨name, rfl, htype⟩ := htype
      cases heq
      rw [List.append_nil]
      exact .arrayInit ht htype hbracket hclose hitems
    | _ =>
      refine .pure rfl fun _ _ ts hinit => ?_
      obtain ⟨span', items', heq, -⟩ := hinit
      cases heq
  · refine (hagain1 _).bind fun length => .expect _ _ fun close hclose => .pure (by simp [Expr.shift]) ?_
    intro _ _ ts hlength us htype
    obtain ⟨name, rfl, htype⟩ := htype
    exact .newArray ht htype hbracket hlength hclose
  · refine (paired_arguments hagain1 hb1 hb1').map ?_ ?_
    · rintro ⟨args, close⟩
      simp [Expr.shift, Expr.shiftAll_eq]
    · intro r ts _ hargs us htype
      obtain ⟨name, rfl, htype⟩ := htype
      exact .new ht htype hargs

theorem paired_primary : PairedPart n k [] (primary b again) (primary b' again') fun e ts _ =>
    Derives (.expr 13 e) ts := by
  have hb1 : k - 1 ≤ b := by omega
  have hb1' : k - 1 ≤ b' := by omega
  refine .peek fun t => ?_
  rw [Token.kind_shift]
  cases hvalue : t.kind.literal? with
  | some value =>
    exact .take (Token.Kind.ne_eof_of_some hvalue rfl) (.pure (by simp [Expr.shift]) fun _ _ => .literal hvalue)
  | none =>
    cases hkind : t.kind with
    | identifier =>
      refine .take (by simp [hkind]) (.nextIs _ (fun _ _ => .known ?_)
        (.pure (by simp [Expr.shift]) fun _ _ => .name hkind))
      refine (paired_arguments (fun g => (hagain g).mono (Nat.sub_le _ _)) hb1 hb1').map ?_
        fun r ts _ hargs => .call hkind hargs
      rintro ⟨args, close⟩
      simp [Expr.shift, Expr.shiftAll_eq]
    | keyword word =>
      cases word with
      | thisWord => exact .take (by simp [hkind]) (.pure (by simp [Expr.shift]) fun _ _ => .this hkind)
      | superWord => exact .take (by simp [hkind]) (.pure (by simp [Expr.shift]) fun _ _ => .super hkind)
      | newWord => exact paired_allocation hagain hb hb' hkind
      | _ => exact .fail _
    | mark m =>
      cases m with
      | lparen =>
        refine .take (by simp [hkind]) ((hagain _).bind fun inner => .expect _ _ fun close hclose => ?_)
        exact .pure (by simp [Expr.shift]) fun _ _ us hus => .group hkind hus hclose
      | _ => exact .fail _
    | _ => exact .fail _

omit hb hb' in
/-- Accesses make longer expressions of the one that they start with. -/
theorem paired_accesses {d d' : Nat} (hd : k ≤ d) (hd' : k ≤ d') (target : Expr) (hb : k ≤ b) (hb' : k ≤ b') :
    PairedPart n k [] (accesses d again b target) (accesses d' again' b' (target.shift n)) fun e ts _ =>
      ∀ us, Derives (.expr 13 target) us → Derives (.expr 13 e) (us ++ ts) := by
  induction b generalizing k b' target with
  | zero => exact .exhausted hb (.fail _) (.fail _)
  | succ b ih =>
    have hagain2 : ∀ g, PairedPart n (k - 1 - 1 - 1) [] (again g) (again' g) fun e ts _ =>
      Derives (.expr g.rank e) ts :=
      fun g => (hagain g).mono (by omega)
    refine .ofSucc (X := fun b' => accesses d' again' b' (target.shift n)) hb' fun b' hb' => ?_
    -- one access has been read: the others go on from the longer expression
    have hlater : ∀ {e e' : Expr}, e.shift n = e' → PairedPart n (k - 1 - 1) [] (accesses d again b e)
        (accesses d' again' b' e') fun f ts _ => ∀ us, Derives (.expr 13 e) us → Derives (.expr 13 f) (us ++ ts) := by
      rintro e _ rfl
      exact ih hagain2 (by omega) (by omega) e (by omega) (by omega)
    refine .accept .dot (fun dot hdot => .expectIdentifier _ fun member hmember => .nextIs _ (fun _ _ => ?_) ?_)
      (.accept .lbracket (fun bracket hbracket => ?_) ?_)
    · refine ((paired_arguments hagain2 (by omega) (by omega)).bind fun r => ?_).known
      obtain ⟨args, close⟩ := r
      refine (hlater (e := .methodCall (target.span.to close) target member.lexeme args)
        (by simp [Expr.shift, Expr.shiftAll_eq])).imp fun e ts _ h args hargs us hus => ?_
      have hcall := h _ (.methodCall hus hdot hmember hargs)
      simpa using hcall
    · refine (hlater (e := .field (target.span.to member.span) target member.lexeme) (by simp [Expr.shift])).imp ?_
      intro e ts _ h us hus
      have hfield := h _ (.field hus hdot hmember)
      simpa using hfield
    · refine (hagain _).bind fun index => .expect _ _ fun close hclose => ?_
      refine (hlater (e := .index (target.span.to close.span) target index) (by simp [Expr.shift])).imp ?_
      intro e ts _ h is his us hus
      have hindex := h _ (.index hus hbracket his hclose)
      simpa using hindex
    · refine .pure rfl fun _ _ us hus => ?_
      rw [List.append_nil]
      exact hus

/-- A step after an operand. -/
theorem paired_stepped : PairedPart n k [] (stepped b again) (stepped b' again') fun e ts _ =>
    Derives (.expr 12 e) ts := by
  refine (paired_primary hagain hb hb').bind fun first =>
    (paired_accesses hagain hb hb' first hb hb').bind fun target => ?_
  refine .peek fun t => ?_
  rw [Token.kind_shift]
  cases hstep : t.kind.step? with
  | some step =>
    refine .take (Token.Kind.ne_eof_of_some hstep rfl) (.pure (by simp [Expr.shift]) ?_)
    intro _ _ us htarget vs hfirst
    rw [← List.append_assoc]
    exact .postStep (htarget vs hfirst) hstep
  | none =>
    refine .pure rfl fun _ _ us htarget vs hfirst => ?_
    rw [List.append_nil]
    exact .loosen (htarget vs hfirst) (by decide)

theorem paired_unary : PairedPart n k [] (unary b again) (unary b' again') fun e ts _ =>
    Derives (.expr 11 e) ts := by
  have hstepped : PairedPart n k [] (stepped b again) (stepped b' again') fun e ts _ => Derives (.expr 11 e) ts :=
    (paired_stepped hagain hb hb').imp fun e ts _ h => .loosen h (by decide)
  rw [unary_eq, unary_eq]
  refine .peek fun t => ?_
  rw [Token.kind_shift]
  cases hop : t.kind.unary? with
  | some op =>
    exact .take (Token.Kind.ne_eof_of_some hop rfl) ((hagain _).map (fun e => by simp [Expr.shift])
      fun e ts _ h => .unary hop h)
  | none =>
    cases hstep : t.kind.step? with
    | some step =>
      exact .take (Token.Kind.ne_eof_of_some hstep rfl) ((hagain _).map (fun e => by simp [Expr.shift])
        fun e ts _ h => .preStep hstep h)
    | none =>
      unfold castOrStepped
      cases ht : t.kind.isMark .lparen with
      | false => exact hstepped.known
      | true =>
        have hkind := Token.Kind.eq_mark ht
        -- the head takes a token at least, so the operand may use the smaller budget
        refine .attempt 1 (paired_castHead hb hb' hkind) (guesses_castHead hkind) ?_ ?_ hstepped.known
        · rintro head _ _ ⟨-, first, us, close, v, rfl, -⟩
          simp
        · rintro ⟨opening, type⟩
          refine (hagain _).map (fun e => by simp [Expr.shift]) fun e ts rest h us hhead => ?_
          obtain ⟨rfl, first, us, close, v, rfl, htype, hclose, hnext, hv⟩ := hhead
          obtain ⟨w, ts, rfl⟩ := List.exists_cons_of_ne_nil h.ne
          obtain rfl := first_cons.1 hnext
          have hcast := Derives.cast hkind htype hclose hv h
          simpa using hcast

omit hagain hb hb' in
/-- Operators of one level make longer expressions of their left operand. -/
theorem paired_binaryTail {level : Nat} {operand operand' : Read Expr}
    (hoperand : PairedPart n k [] operand operand' fun e ts _ => Derives (.expr (2 + level + 1) e) ts)
    (left : Expr) (hb : k ≤ b) (hb' : k ≤ b') :
    PairedPart n k [] (binaryTail level operand b left) (binaryTail level operand' b' (left.shift n)) fun e ts _ =>
      ∀ us, Derives (.expr (2 + level) left) us → Derives (.expr (2 + level) e) (us ++ ts) := by
  induction b generalizing k b' left with
  | zero => exact .exhausted hb (.fail _) (.fail _)
  | succ b ih =>
    refine .ofSucc (X := fun b' => binaryTail level operand' b' (left.shift n)) hb' fun b' hb' => .peek fun t => ?_
    rw [Token.kind_shift]
    cases hop : t.kind.binaryAt? level with
    | some op =>
      obtain ⟨ht, rfl⟩ := Token.Kind.eq_binary hop
      have hoperand1 := hoperand.mono (Nat.sub_le k 1)
      refine .take (by simp [ht]) (hoperand1.bind fun right => ?_)
      have hshift : (Expr.binary (left.span.to right.span) op left right).shift n =
          .binary ((left.shift n).span.to (right.shift n).span) op (left.shift n) (right.shift n) := by
        simp [Expr.shift]
      rw [Expr.shift_eq, ← hshift]
      refine (ih hoperand1 _ (by omega) (by omega)).imp fun e ts _ h vs hvs us hus => ?_
      have hall := h _ (.binary hus ht hvs)
      simpa using hall
    | none =>
      refine .pure rfl fun _ _ us hus => ?_
      rw [List.append_nil]
      exact hus

theorem paired_binary {count : Nat} (hcount : count ≤ BinaryOp.levels) :
    PairedPart n k [] (binary b again count) (binary b' again' count) fun e ts _ =>
      Derives (.expr (2 + (BinaryOp.levels - count)) e) ts := by
  induction count with
  | zero => exact paired_unary hagain hb hb'
  | succ count ih =>
    have ih := ih (by omega)
    have hlevel : 2 + (BinaryOp.levels - count) = 2 + (BinaryOp.levels - (count + 1)) + 1 := by omega
    refine ih.bind fun left => (paired_binaryTail (hlevel ▸ ih) left hb hb').imp fun e ts _ h us hus => ?_
    exact h us (.loosen hus (by omega))

theorem paired_conditional : PairedPart n k [] (conditional b again) (conditional b' again') fun e ts _ =>
    Derives (.expr 1 e) ts := by
  refine (paired_binary hagain hb hb' le_rfl).bind fun condition => .accept _ (fun question hquestion => ?_) ?_
  · refine (hagain _).bind fun yes => .expect _ _ fun colon hcolon => ?_
    refine ((hagain _).mono (Nat.sub_le _ _)).map (fun no => by simp [Expr.shift]) ?_
    intro no vs _ hno us hyes ts hcondition
    exact .conditional hcondition hquestion hyes hcolon hno
  · refine .pure rfl fun _ _ us hus => ?_
    rw [List.append_nil]
    exact .loosen hus (by decide)

theorem paired_assignment : PairedPart n k [] (assignment b again) (assignment b' again') fun e ts _ =>
    Derives (.expr 0 e) ts := by
  refine (paired_conditional hagain hb hb').bind fun target => .peek fun t => ?_
  rw [Token.kind_shift]
  cases hop : t.kind.assignment? with
  | some op =>
    exact .take (Token.Kind.ne_eof_of_some hop rfl) ((hagain _).map (fun value => by simp [Expr.shift])
      fun value us _ hvalue ts htarget => .assign htarget hop hvalue)
  | none =>
    refine .pure rfl fun _ _ us hus => ?_
    rw [List.append_nil]
    exact .loosen hus (Nat.zero_le _)

end Expressions

/-- What is read for a goal is derived by the tokens that were taken. -/
theorem paired_goal (hb : k ≤ b) (hb' : k ≤ b') (g : Goal) : PairedPart n k [] (goal b g) (goal b' g) fun e ts _ =>
    Derives (.expr g.rank e) ts := by
  induction b generalizing k b' g with
  | zero => exact .exhausted hb (.fail _) (.fail _)
  | succ b ih =>
    refine .ofSucc (X := fun b' => goal b' g) hb' fun b' hb' => ?_
    have hagain : ∀ g, PairedPart n (k - 1) [] (goal b g) (goal b' g) fun e ts _ => Derives (.expr g.rank e) ts :=
      ih (by omega) (by omega)
    cases g with
    | expression => exact paired_assignment hagain hb hb'
    | conditional => exact paired_conditional hagain hb hb'
    | unary => exact paired_unary hagain hb hb'

theorem paired_expression (hb : k ≤ b) (hb' : k ≤ b') : PairedPart n k [] (expression b) (expression b') fun e ts _ =>
    Derives (.expr 0 e) ts := paired_goal hb hb' .expression

end Read

end HostScript
