import HostScript.Proofs.LockstepHeads
import HostScript.Proofs.Placement

/-!
# What readers do

Tokens are read in the same way when they stand elsewhere in a text, and whatever the budget is, as long as it pays
for the tokens that are left. `Paired` says both of a pair of readers, what the first one takes and, unless it reads
heads, that it runs in lockstep in a text and in a longer one. It is closed under sequencing and attempts, so that one
walk through the grammar shows all of this.
-/

set_option autoImplicit false

namespace HostScript

/-- The second cursor has the tokens of the first before it, moved. -/
structure Moved (n : Nat) (c d : Cursor) : Prop where
  rest : d.rest = Placed.shift c.rest n
  ending : d.ending.token = c.ending.token.shift n
  met : d.met = c.met

/-- Both runs give the same, moved, and leave the same tokens, or both are stuck at the same token. -/
inductive Alike {α : Type} [Placed α] (n : Nat) : Read.Result α → Read.Result α → Prop
  | ok {a : α} {c' d' : Cursor} (h : Moved n c' d') : Alike n (.ok a c') (.ok (Placed.shift a n) d')
  | error {s : Stuck} {c' d' : Cursor} (hmet : d'.met = c'.met) :
      Alike n (.error s c') (.error ⟨s.cause, s.token.shift n⟩ d')

/-- Two readers do the same at cursors with fewer than `k` tokens, of which the first ones are known. Something can be
said of what the first one takes, and if it is asked for, it runs in lockstep. -/
structure Paired {α : Type} [Placed α] (far : Bool) (n k : Nat) (l : List Token) (ends : α → Prop) (x y : Read α)
    (Q : Post α) : Prop where
  run : ∀ c d, Moved n c d → c.rest.length < k → l <+: c.rest → Alike n (x c) (y d)
  lock : far = true → Lockstep l ends x
  takes : Takes l x Q

/-- Readers of heads, which may go back. -/
abbrev PairedHead {α : Type} [Placed α] (n k : Nat) (l : List Token) (x y : Read α) (Q : Post α) : Prop :=
  Paired false n k l (fun _ => False) x y Q

/-- Readers whose results end no statement. -/
abbrev PairedPart {α : Type} [Placed α] (n k : Nat) (l : List Token) (x y : Read α) (Q : Post α) : Prop :=
  Paired true n k l (fun _ => False) x y Q

/-- Readers whose results end a statement. -/
abbrev PairedWhole {α : Type} [Placed α] (n k : Nat) (l : List Token) (x y : Read α) (Q : Post α) : Prop :=
  Paired true n k l (fun _ => True) x y Q

namespace Paired

open Read

variable {α β : Type} [Placed α] [Placed β] {far : Bool} {n k j : Nat} {l : List Token} {t : Token}
  {ends : α → Prop} {ends' : β → Prop} {P : Post α} {Q : Post β}

section Sequences

variable {x y : Read α} {f g : α → Read β} {F G : α → β}

theorem imp {P' : Post α} (h : Paired far n k l ends x y P) (hP : ∀ a ts rest, P a ts rest → P' a ts rest) :
    Paired far n k l ends x y P' :=
  ⟨h.run, h.lock, h.takes.imp hP⟩

theorem known (h : Paired far n k [] ends x y P) : Paired far n k l ends x y P :=
  ⟨fun c d hcd hk _ => h.run c d hcd hk List.nil_prefix, fun hfar => (h.lock hfar).known, h.takes.known⟩

theorem mono (h : Paired far n k l ends x y P) (hjk : j ≤ k) : Paired far n j l ends x y P :=
  ⟨fun c d hcd hj => h.run c d hcd (hj.trans_le hjk), h.lock, h.takes⟩

theorem near (h : Paired far n k l ends x y P) : PairedHead n k l x y P := ⟨h.run, nofun, h.takes⟩

/-- Where no token is left to pay for, little is to be shown; so budgets are not used up. -/
theorem exhausted (h : k ≤ 0) (hx : Lockstep l ends x) (htakes : Takes l x P) : Paired far n k l ends x y P :=
  ⟨fun _ _ _ hk => absurd (hk.trans_le h) (Nat.not_lt_zero _), fun _ => hx, htakes⟩

theorem ofSucc {b' : Nat} {X : Nat → Read α} (hb : k ≤ b')
    (h : ∀ b, k ≤ b + 1 → Paired far n k l ends x (X (b + 1)) P) : Paired far n k l ends x (X b') P := by
  cases b' with
  | zero =>
    have hone := h 0 (Nat.le_succ_of_le hb)
    exact ⟨fun _ _ _ hk => absurd (hk.trans_le hb) (Nat.not_lt_zero _), hone.lock, hone.takes⟩
  | succ b => exact h b hb

theorem pure {a b : α} (h : Placed.shift a n = b) (hP : ∀ rest, l <+: rest → P a [] rest) :
    Paired far n k l (fun _ => False) (Pure.pure a) (Pure.pure b) P :=
  ⟨fun _ _ hcd _ _ => h ▸ .ok hcd, fun _ => .pure a id, .pure hP⟩

theorem fail (cause : SyntaxCause) : Paired far n k l ends (Read.fail cause : Read α) (Read.fail cause) P := by
  refine ⟨fun c d hcd _ _ => ?_, fun _ => .fail cause, .fail cause⟩
  cases hrest : c.rest with
  | nil =>
    have hd : d.rest = [] := by rw [hcd.rest, hrest]; rfl
    have hc' : (Read.fail cause : Read α) c = .error ⟨cause, c.ending.token⟩ c.meet := peek_bind_nil hrest _
    have hd' : (Read.fail cause : Read α) d = .error ⟨cause, d.ending.token⟩ d.meet := peek_bind_nil hd _
    rw [hc', hd', hcd.ending]
    exact .error rfl
  | cons t ts =>
    have hd : d.rest = t.shift n :: Placed.shift ts n := by rw [hcd.rest, hrest]; rfl
    have hc' : (Read.fail cause : Read α) c = .error ⟨cause, t⟩ c := peek_bind_cons hrest _
    have hd' : (Read.fail cause : Read α) d = .error ⟨cause, t.shift n⟩ d := peek_bind_cons hd _
    rw [hc', hd']
    exact .error hcd.met

/-- One reader after another, where the first is known to take some tokens. -/
theorem bindAfter (m : Nat) (hx : Paired far n k l ends x y P) (hm : ∀ a ts rest, P a ts rest → m ≤ ts.length)
    (hf : ∀ a, Paired far n (k - m) [] ends' (f a) (g (Placed.shift a n)) fun b ts rest =>
      ∀ us, P a us (ts ++ rest) → Q b (us ++ ts) rest) : Paired far n k l ends' (x >>= f) (y >>= g) Q := by
  refine ⟨fun c d hcd hk hl => ?_, fun hfar => (hx.lock hfar).bind fun a => (hf a).lock hfar,
    hx.takes.bind fun a => (hf a).takes⟩
  have h := hx.run c d hcd hk hl
  have htaken := hx.takes.run c hl
  generalize hxc : x c = r at h htaken
  generalize hyd : y d = r' at h
  cases h with
  | @ok a c' d' hmoved =>
    rw [bind_ok hxc, bind_ok hyd]
    cases htaken with
    | ok ts hc' hP =>
      refine (hf a).run c' d' hmoved ?_ List.nil_prefix
      have hm := hm _ _ _ hP
      rw [hc'.rest, List.length_append] at hk
      omega
  | error hmet =>
    rw [bind_error hxc, bind_error hyd]
    exact .error hmet

theorem bind (hx : Paired far n k l ends x y P) (hf : ∀ a, Paired far n k [] ends' (f a) (g (Placed.shift a n))
      fun b ts rest => ∀ us, P a us (ts ++ rest) → Q b (us ++ ts) rest) :
    Paired far n k l ends' (x >>= f) (y >>= g) Q :=
  hx.bindAfter 0 (fun _ _ _ _ => Nat.zero_le _) hf

/-- A result that is made of what was read. -/
theorem map (hx : Paired far n k l ends x y P) (h : ∀ a, Placed.shift (F a) n = G (Placed.shift a n))
    (hQ : ∀ a ts rest, P a ts rest → Q (F a) ts rest) : Paired far n k l (fun _ => False)
      (x >>= fun a => Pure.pure (F a)) (y >>= fun a => Pure.pure (G a)) Q := by
  refine hx.bind fun a => .pure (h a) fun rest _ us hus => ?_
  rw [List.append_nil]
  exact hQ a us rest hus

/-- What is made of a statement ends one as well. -/
theorem mapWhole (hx : Paired far n k l (fun _ => True) x y P) (h : ∀ a, Placed.shift (F a) n = G (Placed.shift a n))
    (hQ : ∀ a ts rest, P a ts rest → Q (F a) ts rest) :
    Paired far n k l ends' (x >>= fun a => Pure.pure (F a)) (y >>= fun a => Pure.pure (G a)) Q :=
  ⟨(hx.map h hQ).run, fun hfar => (hx.lock hfar).map, hx.takes.map hQ⟩

/-- An attempt, whose head is known to take some tokens if there is one. -/
theorem attempt {η : Type} [Placed η] {head head' : Read (Option η)} {other other' : Read β} {go go' : η → Read β}
    {H : Post (Option η)} (m : Nat) (hhead : PairedHead n k l head head' H) (hguess : GuessesHead l head)
    (hm : ∀ w ts rest, H (some w) ts rest → m ≤ ts.length)
    (hgo : ∀ w, Paired far n (k - m) [] ends' (go w) (go' (Placed.shift w n)) fun b ts rest =>
      ∀ us, H (some w) us (ts ++ rest) → Q b (us ++ ts) rest)
    (hother : Paired far n k l ends' other other' Q) :
    Paired far n k l ends' (Read.attempt head other go) (Read.attempt head' other' go') Q := by
  refine ⟨fun c d hcd hk hl => ?_, fun hfar => .attempt hguess (fun w => (hgo w).lock hfar) (hother.lock hfar),
    hhead.takes.attempt (fun w => (hgo w).takes) hother.takes⟩
  have h := hhead.run c d hcd hk hl
  have htaken := hhead.takes.run c hl
  show Alike n (EStateM.bind head _ c) (EStateM.bind head' _ d)
  generalize hxc : head c = r at h htaken
  generalize hyd : head' d = r' at h
  cases h with
  | @ok head? c' d' hmoved =>
    cases htaken with
    | ok ts hc' hH =>
      simp only [EStateM.bind, hxc, hyd]
      cases head? with
      | none => exact hother.run _ _ ⟨hcd.rest, hcd.ending, hmoved.met⟩ hk hl
      | some w =>
        refine (hgo w).run c' d' hmoved ?_ List.nil_prefix
        have hm := hm w _ _ hH
        rw [hc'.rest, List.length_append] at hk
        omega
  | error hmet =>
    simp only [EStateM.bind, hxc, hyd]
    exact .error hmet

end Sequences

section Tokens

variable {f g : Token → Read β}

/-- Taking the next token, which is known. -/
theorem advance (h : Paired far n (k - 1) l ends' (f t) (g (t.shift n)) fun b ts rest => Q b (t :: ts) rest) :
    Paired far n k (t :: l) ends' (Read.advance >>= f) (Read.advance >>= g) Q := by
  refine ⟨fun c d hcd hk hl => ?_, fun hfar => .advance (h.lock hfar), .advance h.takes⟩
  obtain ⟨m, hm⟩ := hl
  have hd : d.rest = t.shift n :: Placed.shift (l ++ m) n := by rw [hcd.rest, ← hm]; rfl
  rw [← hm] at hk
  rw [advance_bind_cons hm.symm, advance_bind_cons hd]
  exact h.run _ _ ⟨rfl, hcd.ending, hcd.met⟩ (Nat.lt_sub_of_add_lt hk) ⟨m, rfl⟩

theorem take (ht : t.kind ≠ .eof)
    (h : Paired far n (k - 1) [] ends' (f t) (g (t.shift n)) fun b ts rest => Q b (t :: ts) rest) :
    Paired far n k t.ahead ends' (Read.advance >>= f) (Read.advance >>= g) Q := by
  rw [Token.ahead_eq ht]
  exact advance h

/-- Looking at the next token, or at what stands for the end. It is the first of the tokens from there on, if there is
one. -/
theorem peekFirst (h : ∀ t, Paired far n k t.ahead ends' (f t) (g (t.shift n)) fun b ts rest =>
      First (· = t) (ts ++ rest) → Q b ts rest) : Paired far n k [] ends' (Read.peek >>= f) (Read.peek >>= g) Q := by
  refine ⟨fun c d hcd hk _ => ?_, fun hfar => .peek fun t => (h t).lock hfar, .peekFirst fun t => (h t).takes⟩
  cases hrest : c.rest with
  | nil =>
    have hd : d.rest = [] := by rw [hcd.rest, hrest]; rfl
    rw [peek_bind_nil hrest, peek_bind_nil hd, hcd.ending]
    refine (h _).run c.meet d.meet ⟨hcd.rest, hcd.ending, rfl⟩ hk ?_
    rw [ahead_endToken]
    exact List.nil_prefix
  | cons t ts =>
    have hd : d.rest = t.shift n :: Placed.shift ts n := by rw [hcd.rest, hrest]; rfl
    rw [peek_bind_cons hrest, peek_bind_cons hd]
    exact (h t).run c d hcd hk (hrest ▸ t.ahead_prefix ts)

theorem peek (h : ∀ t, Paired far n k t.ahead ends' (f t) (g (t.shift n)) Q) :
    Paired far n k [] ends' (Read.peek >>= f) (Read.peek >>= g) Q :=
  peekFirst fun t => (h t).imp fun _ _ _ hQ _ => hQ

/-- Looking past the next token, which is known. -/
theorem peekSecond (h : ∀ u, PairedHead n k (t :: u.ahead) (f u) (g (u.shift n)) Q) :
    PairedHead n k [t] (Read.peekSecond >>= f) (Read.peekSecond >>= g) Q := by
  refine ⟨fun c d hcd hk hl => ?_, nofun, .peekSecond fun u => (h u).takes⟩
  obtain ⟨m, hm⟩ := hl
  cases m with
  | nil =>
    have hd : d.rest.tail = [] := by rw [hcd.rest, ← hm]; rfl
    rw [peekSecond_bind_end (by rw [← hm]; rfl), peekSecond_bind_end hd, hcd.ending]
    refine (h _).run c.meet d.meet ⟨hcd.rest, hcd.ending, rfl⟩ hk ?_
    rw [ahead_endToken]
    exact ⟨[], hm⟩
  | cons u ts =>
    have hd : d.rest = t.shift n :: u.shift n :: Placed.shift ts n := by rw [hcd.rest, ← hm]; rfl
    rw [peekSecond_bind_cons hm.symm, peekSecond_bind_cons hd]
    refine (h u).run c d hcd hk ?_
    rw [← hm]
    exact (List.prefix_cons_inj t).2 (u.ahead_prefix ts)

theorem expectIdentifier (cause : SyntaxCause) (h : ∀ t : Token, t.kind = .identifier →
      Paired far n (k - 1) [] ends' (f t) (g (t.shift n)) fun b ts rest => Q b (t :: ts) rest) :
    Paired far n k [] ends' (Read.expectIdentifier cause >>= f) (Read.expectIdentifier cause >>= g) Q := by
  rw [expectIdentifier_bind, expectIdentifier_bind]
  refine peek fun t => ?_
  rw [Token.kind_shift]
  cases ht : t.kind.isIdentifier with
  | true =>
    have hkind := Token.Kind.eq_identifier ht
    exact take (by simp [hkind]) (h t hkind)
  | false => exact fail cause

end Tokens

section Tests

variable {f g : Bool → Read β}

theorem nextIs (m : Mark) (htrue : ∀ t : Token, t.kind = .mark m → Paired far n k [t] ends' (f true) (g true) Q)
    (hfalse : Paired far n k [] ends' (f false) (g false) Q) :
    Paired far n k [] ends' (Read.nextIs m >>= f) (Read.nextIs m >>= g) Q := by
  rw [nextIs_bind, nextIs_bind]
  refine peek fun t => ?_
  rw [Token.kind_shift]
  cases ht : t.kind.isMark m with
  | true =>
    have hkind := Token.Kind.eq_mark ht
    rw [Token.ahead_eq (by simp [hkind])]
    exact htrue t hkind
  | false => exact hfalse.known

theorem accept (m : Mark) (htrue : ∀ t : Token, t.kind = .mark m →
      Paired far n (k - 1) [] ends' (f true) (g true) fun b ts rest => Q b (t :: ts) rest)
    (hfalse : Paired far n k [] ends' (f false) (g false) Q) :
    Paired far n k [] ends' (Read.accept m >>= f) (Read.accept m >>= g) Q := by
  rw [accept_bind, accept_bind]
  exact nextIs m (fun t ht => advance (htrue t ht)) hfalse

/-- A keyword that may be next; if it is not, it is not the first of the tokens from there on. -/
theorem acceptKeyword (word : Keyword) (htrue : ∀ t : Token, t.kind = .keyword word →
      Paired far n (k - 1) [] ends' (f true) (g true) fun b ts rest => Q b (t :: ts) rest)
    (hfalse : Paired far n k [] ends' (f false) (g false) fun b ts rest =>
      First (·.kind.isKeyword word = false) (ts ++ rest) → Q b ts rest) :
    Paired far n k [] ends' (Read.acceptKeyword word >>= f) (Read.acceptKeyword word >>= g) Q := by
  rw [acceptKeyword_bind, acceptKeyword_bind]
  refine peekFirst fun t => ?_
  rw [Token.kind_shift]
  cases ht : t.kind.isKeyword word with
  | true =>
    have hkind := Token.Kind.eq_keyword ht
    exact take (by simp [hkind]) ((htrue t hkind).imp fun _ _ _ hQ _ => hQ)
  | false => exact hfalse.known.imp fun _ _ _ hQ hfirst => hQ fun u hu => hfirst u hu ▸ ht

theorem expect {f g : Token → Read β} (m : Mark) (cause : SyntaxCause) (h : ∀ t : Token, t.kind = .mark m →
      Paired far n (k - 1) [] ends' (f t) (g (t.shift n)) fun b ts rest => Q b (t :: ts) rest) :
    Paired far n k [] ends' (Read.expect m cause >>= f) (Read.expect m cause >>= g) Q := by
  rw [expect_bind, expect_bind]
  exact nextIs m (fun t ht => advance (h t ht)) (fail cause)

/-- A name and a mark after it, or not both. -/
theorem identifierThen (m : Mark) (htrue : ∀ t u : Token, t.kind = .identifier → u.kind = .mark m →
      PairedHead n k [t, u] (f true) (g true) Q) (hfalse : PairedHead n k [] (f false) (g false) Q) :
    PairedHead n k [] (Read.identifierThen m >>= f) (Read.identifierThen m >>= g) Q := by
  rw [identifierThen_bind, identifierThen_bind]
  refine peek fun t => ?_
  rw [Token.kind_shift]
  cases ht : t.kind.isIdentifier with
  | false => exact hfalse.known
  | true =>
    have hkind := Token.Kind.eq_identifier ht
    rw [if_pos rfl, if_pos rfl, Token.ahead_eq (by simp [hkind])]
    refine peekSecond fun u => ?_
    rw [Token.kind_shift]
    cases hu : u.kind.isMark m with
    | true =>
      have hmark := Token.Kind.eq_mark hu
      rw [Token.ahead_eq (by simp [hmark])]
      exact htrue t u hkind hmark
    | false => exact hfalse.known

end Tests

section Closing

variable {F G : Token → β}

/-- Taking a token that ends a statement, and what is made of it. -/
theorem takeClosing (ht : t.kind.closes = true) (h : Placed.shift (F t) n = G (t.shift n))
    (hQ : ∀ rest, Q (F t) [t] rest) : Paired far n k [t] ends'
      (Read.advance >>= fun t => Pure.pure (F t)) (Read.advance >>= fun t => Pure.pure (G t)) Q := by
  have hnear : PairedHead n k [t] (Read.advance >>= fun t => Pure.pure (F t))
      (Read.advance >>= fun t => Pure.pure (G t)) Q := advance (.pure h fun rest _ => hQ rest)
  exact ⟨hnear.run, fun _ => .advanceClosing ht, hnear.takes⟩

/-- A mark that ends a statement, and what is made of it. -/
theorem closing (m : Mark) (cause : SyntaxCause) (hm : (Token.Kind.mark m).closes = true)
    (h : ∀ t, Placed.shift (F t) n = G (t.shift n)) (hQ : ∀ t rest, t.kind = .mark m → Q (F t) [t] rest) :
    Paired far n k [] ends' (Read.expect m cause >>= fun t => Pure.pure (F t))
      (Read.expect m cause >>= fun t => Pure.pure (G t)) Q := by
  rw [expect_bind, expect_bind]
  exact nextIs m (fun t ht => takeClosing (ht ▸ hm) (h t) fun rest => hQ t rest ht) (fail cause)

end Closing

end Paired

end HostScript
