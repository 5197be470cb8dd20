import HostScript.Proofs.UnfinishedHeads

/-!
# Reading a text and a longer one in lockstep

A reader runs on the tokens of a text, and on the same tokens with further ones after them. As long as the first run
does not look at the end of its tokens, the two runs do the same. From there on the first run may go on from a place
that it has gone back to; then all that is left of the tokens from that place on is an unfinished head, and the run
stays within that tail (`Lost`). The second run gets past the tokens before the tail, and it ends a statement only
behind the tail, where no token of the head ends one (`Reaches`).

`Lockstep` says this of a reader and is closed under sequencing and attempts. So the reader only takes tokens from the
front and gets stuck at tokens that it had before it (`Lockstep.alone`).
-/

set_option autoImplicit false

namespace HostScript

/-- A result that ends a statement comes with a token that ends one. -/
def Ending {α : Type} (ends : α → Prop) : Post α := fun a ts _ => ends a → ∃ t ∈ ts, t.kind.closes = true

/-- A run that has looked at the end of the tokens stays within a tail of them and ends no statement. -/
inductive Lost {α : Type} (ends : α → Prop) (tail : List Token) (c : Cursor) :
    Read.Result α → Prop
  | ok {a : α} {c' : Cursor} (taken : List Token) (h : c.Onward taken c') (hrest : c'.rest <:+ tail)
      (hmet : c'.met = true) (hends : ¬ ends a) : Lost ends tail c (.ok a c')
  | error {s : Stuck} {c' : Cursor} (h : c.Stopped s c') (hmet : c'.met = true)
      (htoken : s.token ∈ tail ∨ s.token.kind = .eof) : Lost ends tail c (.error s c')

/-- A run that gives something takes all of `n` tokens but the last `m`, and more than all if it ends a statement. -/
def Reaches {α : Type} (ends : α → Prop) (n m : Nat) (d : Cursor) (r : Read.Result α) : Prop :=
  ∀ b d', r = .ok b d' → ∃ taken, d.Onward taken d' ∧ n ≤ taken.length + m ∧ (ends b → n < taken.length)

/-- Tokens that start with `else`. -/
def ElseNext (post : List Token) : Prop := ∃ t ts, post = t :: ts ∧ t.kind.isKeyword .elseWord = true

/-- How a run at the first cursor and one at the second compare. Both take the same tokens and give the same;
both fail; the first has taken all of its tokens and has looked for an `else` after them, and the second gives the
same unless there is one; or the first has looked at the end of its tokens and is lost. -/
inductive Outcome {α : Type} (post : List Token) (ends : α → Prop) (c d : Cursor) :
    Read.Result α → Read.Result α → Prop
  | together {a : α} {c' d' : Cursor} (taken : List Token) (hc : c.Onward taken c') (hd : d.Onward taken d')
      (hmet : c'.met = c.met) (hends : Ending ends a taken []) : Outcome post ends c d (.ok a c') (.ok a d')
  | refused {s s' : Stuck} {c' d' : Cursor} (h : c.Stopped s c') :
      Outcome post ends c d (.error s c') (.error s' d')
  | edge {a : α} {c' : Cursor} {r : Read.Result α} (hc : c.Onward c.rest c')
      (hmet : c'.met = true) (hends : Ending ends a c.rest [])
      (hother : ¬ ElseNext post → ∃ d', r = .ok a d' ∧ d.Onward c.rest d')
      (helse : ElseNext post → Reaches (fun _ => True) c.rest.length 0 d r) : Outcome post ends c d (.ok a c') r
  | lost {r r' : Read.Result α} (tail : List Token) (htail : tail <:+ c.rest)
      (hhead : Unfinished tail) (h : Lost ends tail c r) (hlong : Reaches ends c.rest.length tail.length d r') :
      Outcome post ends c d r r'

/-- A reader runs in lockstep from all cursors before the given tokens. -/
structure Lockstep {α : Type} (l : List Token) (ends : α → Prop) (x : Read α) : Prop where
  both : ∀ post c d, d.rest = c.rest ++ post → l <+: c.rest → Outcome post ends c d (x c) (x d)

/-- Lockstep of readers whose results end a statement. -/
abbrev Closes {α : Type} (l : List Token) (x : Read α) : Prop := Lockstep l (fun _ => True) x

section Runs

variable {α : Type} {post taken tail : List Token} {ends : α → Prop} {c c' d d' : Cursor}
  {r r' : Read.Result α} {m n : Nat} {β : Type} {x : Read α} {ends' : β → Prop}
  {rest ts : List Token} {f : α → Read β}

theorem rest_onward (h : d.rest = c.rest ++ post) (hc : c.Onward taken c') (hd : d.Onward taken d') :
    d'.rest = c'.rest ++ post := by
  have heq := hd.rest.symm.trans h
  rw [hc.rest, List.append_assoc] at heq
  exact List.append_cancel_left heq

theorem Ending.append {a : α} {rest' : List Token} (h : Ending ends a ts rest) (us : List Token) :
    Ending ends a (us ++ ts) rest' := by
  intro ha
  obtain ⟨t, ht, hclose⟩ := h ha
  exact ⟨t, List.mem_append_right us ht, hclose⟩

/-- A token that ends a statement and is taken after the tokens before a tail without such a token is taken behind
the tail. -/
theorem length_lt_of_closes {more : List Token} (htail : tail <:+ rest)
    (hopen : ∀ t ∈ tail, t.kind.closes = false) (heq : rest ++ post = taken ++ (ts ++ more))
    (hlen : rest.length ≤ taken.length + tail.length) (hclose : ∃ t ∈ ts, t.kind.closes = true) :
    rest.length < (taken ++ ts).length := by
  by_contra hshort
  rw [not_lt] at hshort
  obtain ⟨t, ht, hclose⟩ := hclose
  obtain ⟨us, hus⟩ : taken ++ ts <+: rest := by
    refine List.prefix_of_prefix_length_le ⟨more, ?_⟩ ⟨post, heq⟩ hshort
    rw [List.append_assoc]
  have hsuffix : ts ++ us <:+ tail := by
    refine List.suffix_of_suffix_length_le ⟨taken, ?_⟩ htail ?_
    · rw [← hus, List.append_assoc]
    · rw [← hus, List.length_append, List.length_append] at hlen
      rw [List.length_append]
      omega
  rw [hopen t (hsuffix.subset (List.mem_append_left us ht))] at hclose
  cases hclose

/-- A run that had looked at the end before it started is lost in the tokens that it had before it, if none of
them ends a statement. -/
theorem Sure.lost (hmet : c.met = true) (hr : Sure (Ending ends) c r)
    (hopen : ∀ t ∈ c.rest, t.kind.closes = false) : Lost ends c.rest c r := by
  cases hr with
  | ok taken h hends =>
    refine .ok taken h h.suffix (h.met hmet) fun ha => ?_
    obtain ⟨t, ht, hclose⟩ := hends ha
    rw [hopen t (h.rest ▸ List.mem_append_left _ ht)] at hclose
    cases hclose
  | error hs => exact .error hs (hs.met hmet) (hs.token.imp_right And.left)

theorem Lost.after (h : c.Onward taken c') (hr : Lost ends tail c' r) : Lost ends tail c r := by
  cases hr with
  | ok taken' h' hrest hmet hends => exact .ok _ (h.trans h') hrest hmet hends
  | error hs hmet htoken => exact .error (hs.after h) hmet htoken

theorem Lost.mono {tail' : List Token} (htail : tail <:+ tail') (hr : Lost ends tail c r) : Lost ends tail' c r := by
  cases hr with
  | ok taken h hrest hmet hends => exact .ok taken h (hrest.trans htail) hmet hends
  | error hs hmet htoken => exact .error hs hmet (htoken.imp_left fun ht => htail.subset ht)

theorem Reaches.after (h : d.Onward taken d') (hr : Reaches ends n m d' r) :
    Reaches ends (taken.length + n) m d r := by
  intro b d'' hb
  obtain ⟨ts, hts, hlen, hends⟩ := hr b d'' hb
  refine ⟨taken ++ ts, h.trans hts, ?_, fun hb => ?_⟩
  · rw [List.length_append]
    omega
  · have hlt := hends hb
    rw [List.length_append]
    omega

/-- A run reaches behind a tail without a token that ends a statement. -/
theorem Sure.reaches (h : d.rest = c.rest ++ post) (htail : tail <:+ c.rest)
    (hopen : ∀ t ∈ tail, t.kind.closes = false) (hd : d.Onward taken d')
    (hlen : c.rest.length ≤ taken.length + tail.length) (hr : Sure (Ending ends) d' r) :
    Reaches ends c.rest.length tail.length d r := by
  intro b d'' hb
  subst hb
  cases hr with
  | ok ts hts hends =>
    refine ⟨taken ++ ts, hd.trans hts, ?_, fun hb => ?_⟩
    · rw [List.length_append]
      omega
    · have heq : c.rest ++ post = taken ++ (ts ++ d''.rest) := by rw [← h, hd.rest, hts.rest]
      exact length_lt_of_closes htail hopen heq hlen (hends hb)

theorem Reaches.bind (h : d.rest = c.rest ++ post) (htail : tail <:+ c.rest)
    (hhead : Unfinished tail) (hf : ∀ a d, Sure (Ending ends') d (f a d))
    (hx : Reaches ends c.rest.length tail.length d (x d)) :
    Reaches ends' c.rest.length tail.length d ((x >>= f) d) := by
  cases hr : x d with
  | ok a d' =>
    obtain ⟨taken, hd, hlen, -⟩ := hx a d' hr
    rw [Read.bind_ok hr]
    exact (hf a d').reaches h htail hhead.not_closes hd hlen
  | error s d' =>
    rw [Read.bind_error hr]
    exact fun _ _ h => by cases h

theorem Reaches.map {F : α → β} (hx : Reaches (fun _ => True) n m d (x d)) :
    Reaches ends' n m d ((x >>= fun a => pure (F a)) d) := by
  cases hr : x d with
  | ok a d' =>
    obtain ⟨taken, hd, hlen, hlt⟩ := hx a d' hr
    rw [Read.bind_ok hr]
    intro _ _ heq
    cases heq
    exact ⟨taken, hd, hlen, fun _ => hlt trivial⟩
  | error s d' =>
    rw [Read.bind_error hr]
    exact fun _ _ h => by cases h

/-- A run that has taken enough tokens and goes on has still done so. -/
theorem Reaches.beyond {Q : Post β} (hf : ∀ a d, Sure Q d (f a d))
    (hx : Reaches (fun _ => True) n m d (x d)) : Reaches (fun _ => True) n m d ((x >>= f) d) := by
  cases hr : x d with
  | ok a d' =>
    obtain ⟨taken, hd, -, hlt⟩ := hx a d' hr
    rw [Read.bind_ok hr]
    intro b d'' hb
    have hsure := hf a d'
    rw [hb] at hsure
    cases hsure with
    | ok ts hts _ =>
      have hlonger : n < (taken ++ ts).length := by
        rw [List.length_append]
        exact Nat.lt_of_lt_of_le (hlt trivial) (Nat.le_add_right _ _)
      exact ⟨taken ++ ts, hd.trans hts, Nat.le_add_right_of_le hlonger.le, fun _ => hlonger⟩
  | error s d' =>
    rw [Read.bind_error hr]
    exact fun _ _ h => by cases h

theorem Outcome.after (hc : c.Onward taken c') (hd : d.Onward taken d') (hmet : c'.met = c.met)
    (h : Outcome post ends c' d' r r') : Outcome post ends c d r r' := by
  have hlength : c.rest.length = taken.length + c'.rest.length := by rw [hc.rest, List.length_append]
  cases h with
  | together taken' hc' hd' hmet' hends =>
    exact .together _ (hc.trans hc') (hd.trans hd') (hmet'.trans hmet) (hends.append taken)
  | refused hs => exact .refused (hs.after hc)
  | edge hc' hmet' hends hother helse =>
    refine .edge ?_ hmet' ?_ (fun hpost => ?_) fun hpost => ?_
    · rw [hc.rest]
      exact hc.trans hc'
    · rw [hc.rest]
      exact hends.append taken
    · obtain ⟨d'', hr, hd''⟩ := hother hpost
      refine ⟨d'', hr, ?_⟩
      rw [hc.rest]
      exact hd.trans hd''
    · rw [hlength]
      exact (helse hpost).after hd
  | lost tail htail hhead h hlong =>
    refine .lost tail (htail.trans hc.suffix) hhead (h.after hc) ?_
    rw [hlength]
    exact hlong.after hd

/-- From where the first run has looked at the end it goes on within a tail, and the second one gets past it. -/
theorem Outcome.goOn {taken' : List Token} (h : d.rest = c.rest ++ post) (hc : c.Onward taken c')
    (hmet : c'.met = true) (hrest : c'.rest <:+ tail) (htail : tail <:+ c.rest) (hhead : Unfinished tail)
    (hr : Sure (Ending ends) c' r) (hd : d.Onward taken' d') (hlen : c.rest.length ≤ taken'.length + tail.length)
    (hr' : Sure (Ending ends) d' r') : Outcome post ends c d r r' := by
  have hopen : ∀ t ∈ c'.rest, t.kind.closes = false := fun t ht => hhead.not_closes t (hrest.subset ht)
  exact .lost tail htail hhead (((hr.lost hmet hopen).mono hrest).after hc)
    (hr'.reaches h htail hhead.not_closes hd hlen)

/-- What a run in lockstep does on its own. -/
theorem Outcome.sure (h : Outcome post ends c d r r') : Sure (Ending ends) c r := by
  cases h with
  | together taken hc _ _ hends => exact .ok taken hc hends
  | refused hs => exact .error hs
  | edge hc _ hends _ _ => exact .ok c.rest hc hends
  | lost tail _ _ hlost _ =>
    cases hlost with
    | ok taken hc _ _ hopen => exact .ok taken hc fun ha => absurd ha hopen
    | error hs _ _ => exact .error hs

end Runs

namespace Lockstep

open Read

variable {α β : Type} {l : List Token} {ends : α → Prop} {ends' : β → Prop} {x : Read α} {f : α → Read β} {t : Token}
  {F : Token → α}

theorem alone (h : Lockstep l ends x) : Takes l x (Ending ends) :=
  ⟨fun c hc => (h.both [] c c (List.append_nil _).symm hc).sure⟩

theorem known (h : Lockstep [] ends x) : Lockstep l ends x :=
  ⟨fun post c d hcd _ => h.both post c d hcd List.nil_prefix⟩

theorem pure (a : α) (ha : ¬ ends a) : Lockstep l ends (Pure.pure a) :=
  ⟨fun _ c d _ _ => .together [] (.refl c) (.refl d) rfl fun h => absurd h ha⟩

/-- What is stuck at the next token is stuck there in the longer text as well. -/
theorem fail (cause : SyntaxCause) : Lockstep l ends (Read.fail cause : Read α) := by
  refine ⟨fun _ c d _ _ => ?_⟩
  obtain ⟨s, c', hc, hs⟩ := fail_stopped (α := α) cause c
  obtain ⟨s', d', hd, -⟩ := fail_stopped (α := α) cause d
  rw [hc, hd]
  exact .refused hs

/-- One reader after another. Once the first run has looked at the end, the second reader can only go on in the
tail. -/
theorem bind (hx : Lockstep l ends x) (hf : ∀ a, Lockstep [] ends' (f a)) : Lockstep l ends' (x >>= f) := by
  refine ⟨fun post c d hcd hc => ?_⟩
  have hrun : ∀ a c, Sure (Ending ends') c (f a c) := fun a c => (hf a).alone.run c List.nil_prefix
  have h := hx.both post c d hcd hc
  generalize hxc : x c = r at h
  generalize hxd : x d = r' at h
  cases h with
  | @together a c' d' taken hc' hd' hmet hends =>
    rw [bind_ok hxc, bind_ok hxd]
    exact ((hf a).both post c' d' (rest_onward hcd hc' hd') List.nil_prefix).after hc' hd' hmet
  | refused h =>
    rw [bind_error hxc, bind_error hxd]
    exact .refused h
  | @edge a c' _ hc' hmet hends hother helse =>
    have hrest : c'.rest = [] := List.self_eq_append_right.1 hc'.rest
    have hlost := ((hrun a c').lost hmet (by simp [hrest])).after hc'
    rw [hrest] at hlost
    have hreach : Reaches (fun _ => False) c.rest.length 0 d (x d) := by
      rw [hxd]
      intro b d' hb
      by_cases hpost : ElseNext post
      · obtain ⟨taken, hd', hlen, -⟩ := helse hpost b d' hb
        exact ⟨taken, hd', hlen, False.elim⟩
      · obtain ⟨d'', hr, hd'⟩ := hother hpost
        cases hb.symm.trans hr
        exact ⟨c.rest, hd', le_rfl, False.elim⟩
    rw [bind_ok hxc]
    exact .lost [] List.nil_suffix unfinished_nil hlost (hreach.bind hcd List.nil_suffix unfinished_nil hrun)
  | lost tail htail hhead h hlong =>
    refine .lost tail htail hhead ?_ (Reaches.bind hcd htail hhead hrun (hxd ▸ hlong))
    cases h with
    | @ok a c' taken hc' hrest hmet hopen =>
      have hopen : ∀ t ∈ c'.rest, t.kind.closes = false := fun t ht => hhead.not_closes t (hrest.subset ht)
      rw [bind_ok hxc]
      exact (((hrun a c').lost hmet hopen).mono hrest).after hc'
    | error hs hmet htoken =>
      rw [bind_error hxc]
      exact .error hs hmet htoken

/-- What is made of a statement ends one as well. -/
theorem map {F : α → β} (hx : Closes l x) : Lockstep l ends' (x >>= fun a => Pure.pure (F a)) := by
  refine ⟨fun post c d hcd hc => ?_⟩
  have h := hx.both post c d hcd hc
  generalize hxc : x c = r at h
  generalize hxd : x d = r' at h
  cases h with
  | @together a c' d' taken hc' hd' hmet hclose =>
    rw [bind_ok hxc, bind_ok hxd]
    exact .together taken hc' hd' hmet fun _ => hclose trivial
  | refused h =>
    rw [bind_error hxc, bind_error hxd]
    exact .refused h
  | @edge a c' _ hc' hmet hclose hother helse =>
    rw [bind_ok hxc]
    refine .edge hc' hmet (fun _ => hclose trivial) (fun hpost => ?_) fun hpost => .map (hxd ▸ helse hpost)
    obtain ⟨d', rfl, hd'⟩ := hother hpost
    exact ⟨d', bind_ok hxd _, hd'⟩
  | lost tail htail hhead h hlong =>
    refine .lost tail htail hhead ?_ (.map (hxd ▸ hlong))
    cases h with
    | ok taken hc' hrest hmet hopen => exact absurd trivial hopen
    | error hs hmet htoken =>
      rw [bind_error hxc]
      exact .error hs hmet htoken

section Tokens

variable {f : Token → Read β}

/-- Taking the next token, which is known. -/
theorem advance (h : Lockstep l ends' (f t)) : Lockstep (t :: l) ends' (Read.advance >>= f) := by
  refine ⟨fun post c d hcd hc => ?_⟩
  obtain ⟨m, hm⟩ := hc
  have hd : d.rest = t :: (l ++ m ++ post) := by rw [hcd, ← hm]; rfl
  have hc' := onward_advance hm.symm
  have hd' := onward_advance hd
  rw [advance_bind_cons hm.symm, advance_bind_cons hd]
  exact (h.both post _ _ (rest_onward hcd hc' hd') ⟨m, rfl⟩).after hc' hd' rfl

/-- Looking at the next token, or at what stands for the end. -/
theorem peek (h : ∀ t, Lockstep t.ahead ends' (f t)) : Lockstep [] ends' (Read.peek >>= f) := by
  have halone : Takes [] (Read.peek >>= f) (Ending ends') := .peek fun t => (h t).alone
  refine ⟨fun post c d hcd hc => ?_⟩
  cases hrest : c.rest with
  | nil =>
    have hmeet : Sure (Ending ends') c.meet (f c.ending.token c.meet) := by
      refine (h _).alone.run c.meet ?_
      rw [ahead_endToken]
      exact List.nil_prefix
    have hnil : c.meet.rest <:+ [] := by
      rw [show c.meet.rest = [] from hrest]
    rw [peek_bind_nil hrest]
    exact .goOn hcd (.meet c) rfl hnil List.nil_suffix unfinished_nil hmeet (.refl d) (by simp [hrest])
      (halone.run d List.nil_prefix)
  | cons t ts =>
    have hd : d.rest = t :: (ts ++ post) := by rw [hcd, hrest]; rfl
    rw [peek_bind_cons hrest, peek_bind_cons hd]
    exact (h t).both post c d hcd (hrest ▸ t.ahead_prefix ts)

end Tokens

/-- Taking a token that ends a statement, and what is made of it. -/
theorem advanceClosing (ht : t.kind.closes = true) :
    Lockstep [t] ends (Read.advance >>= fun t => Pure.pure (F t)) := by
  refine ⟨fun post c d hcd hc => ?_⟩
  obtain ⟨m, hm⟩ := hc
  have hd : d.rest = t :: (m ++ post) := by rw [hcd, ← hm]; rfl
  rw [advance_bind_cons hm.symm, advance_bind_cons hd]
  exact .together [t] (onward_advance hm.symm) (onward_advance hd) rfl fun _ => ⟨t, List.mem_cons_self, ht⟩

end Lockstep

end HostScript
