import HostScript.Proofs.TokenStreams
import HostScript.Proofs.UnfinishedHeads

/-!
# Cutting a text behind a statement

A semicolon and a brace need nothing after them to be told. So the tokens of a text up to one that ends a statement are
the same whatever comes next, and the rest is read on its own (`streamOf_cut`).
-/

set_option autoImplicit false

namespace HostScript

namespace Token

open Text

variable {offset : Nat} {c : Char} {m : Mark} {cs rest taken : List Char} {ts : List Token}
  {kind : Token.Kind}

/-! ## Marks that end a statement -/

theorem doubleMark?_open {d : Char} (h : doubleMark? c d = some m) : (Kind.mark m).closes = false := by
  unfold doubleMark? at h
  split at h
  all_goals first | (cases h; rfl) | cases h

theorem singleMark?_closes (h : singleMark? c = some m) (hm : (Kind.mark m).closes = true) :
    c = ';' ∨ c = '\x7d' := by
  unfold singleMark? at h
  split at h
  all_goals first | (cases h; first | exact .inl rfl | exact .inr rfl | cases hm) | cases h

theorem scanMark_closes (h : scanMark c cs = .token kind taken rest) (hk : kind.closes = true) :
    (c = ';' ∨ c = '\x7d') ∧ rest = cs ∧ ∀ cs', scanMark c cs' = .token kind taken cs' := by
  rw [scanMark_eq] at h
  cases hdouble : doubleMark? c (cs.headD '\n') with
  | some m =>
    rw [hdouble] at h
    cases h
    cases (doubleMark?_open hdouble).symm.trans hk
  | none =>
    rw [hdouble] at h
    cases hsingle : singleMark? c with
    | none =>
      rw [hsingle] at h
      cases h
    | some m =>
      rw [hsingle] at h
      cases h
      have hc := singleMark?_closes hsingle hk
      have hnone : ∀ d, doubleMark? c d = none := by rcases hc with rfl | rfl <;> exact fun d => rfl
      refine ⟨hc, rfl, fun cs' => ?_⟩
      rw [scanMark_eq, hnone, hsingle]
      rfl

/-- A mark that ends a statement is one character, and nothing after it is looked at. -/
theorem scanToken_closes (h : scanToken c cs = .token kind taken rest) (hk : kind.closes = true) :
    (c = ';' ∨ c = '\x7d') ∧ rest = cs ∧ ∀ cs', scanToken c cs' = .token kind taken cs' := by
  have hother : ∀ q : Token.Kind → Prop, (∀ kind, q kind → kind.closes = false) →
    ¬ (Found.token kind taken rest).Is q :=
    fun q hq his => by simp [hq kind his] at hk
  rcases scanToken_branches c with ⟨-, heq⟩ | heq | ⟨-, heq⟩ | ⟨-, heq⟩ | heq <;> rw [heq] at h ⊢
  · cases h
    exact absurd hk (by split <;> exact Bool.false_ne_true)
  · exact absurd (h ▸ is_scanNumber c cs) (hother _ (by rintro _ ⟨n, rfl⟩; rfl))
  · exact absurd (h ▸ is_scanText ['"'] [] cs) (hother _ (by rintro _ ⟨n, rfl⟩; rfl))
  · exact absurd (h ▸ is_scanChar cs) (hother _ (by rintro _ ⟨n, rfl⟩; rfl))
  · exact scanMark_closes h hk

/-! ## Gaps -/

theorem exists_cons_of_headD (h : cs.headD '\n' = c) (hc : c ≠ '\n') : ∃ l, cs = c :: l := by
  cases cs with
  | nil => exact absurd h.symm hc
  | cons d l => exact ⟨l, congrArg (· :: l) h⟩

/-- A gap is over at the first character of a token; only a slash is looked behind. -/
theorem skipGap_local {gap : Gap} {start : Nat} (h : skipGap gap offset cs = .ok (start, c :: rest)) :
    ∃ pre, cs = pre ++ c :: rest ∧
      ∀ rest', (c = '/' → rest.headD '\n' = rest'.headD '\n') →
        skipGap gap offset (pre ++ c :: rest') = .ok (start, c :: rest') := by
  fun_induction skipGap gap offset cs with
  | case1 opened offset => cases h
  | case2 gap offset hgap => cases h
  | case3 offset cs ih =>
    obtain ⟨pre, rfl, hlocal⟩ := ih h
    exact ⟨'/' :: '/' :: pre, rfl, hlocal⟩
  | case4 offset cs ih =>
    obtain ⟨pre, rfl, hlocal⟩ := ih h
    exact ⟨'/' :: '*' :: pre, rfl, hlocal⟩
  | case5 offset d cs hline hblock hblank ih =>
    obtain ⟨pre, rfl, hlocal⟩ := ih h
    have hslash : d ≠ '/' := by
      rintro rfl
      exact absurd hblank (by decide)
    refine ⟨d :: pre, rfl, fun rest' hrest' => ?_⟩
    rw [List.cons_append, skipGap, if_pos hblank]
    · exact hlocal rest' hrest'
    · exact fun _ hd _ => hslash hd
    · exact fun _ hd _ => hslash hd
  | case6 offset d cs hline hblock hblank =>
    injection h with h
    injection h with hstart hcs
    injection hcs with hd hrest
    subst hstart hd hrest
    refine ⟨[], rfl, fun rest' hrest' => ?_⟩
    rw [List.nil_append, skipGap, if_neg hblank]
    · rintro cs' hd rfl
      obtain ⟨x, rfl⟩ := exists_cons_of_headD (c := '/') (hrest' hd) (by decide)
      exact hline x hd rfl
    · rintro cs' hd rfl
      obtain ⟨x, rfl⟩ := exists_cons_of_headD (c := '*') (hrest' hd) (by decide)
      exact hblock x hd rfl
  | case7 offset d cs ih =>
    obtain ⟨pre, rfl, hlocal⟩ := ih h
    exact ⟨d :: pre, rfl, hlocal⟩
  | case8 opened offset cs ih =>
    obtain ⟨pre, rfl, hlocal⟩ := ih h
    exact ⟨'*' :: '/' :: pre, rfl, hlocal⟩
  | case9 opened offset d cs hclose ih =>
    obtain ⟨pre, rfl, hlocal⟩ := ih h
    refine ⟨d :: pre, rfl, fun rest' hrest' => ?_⟩
    rw [List.cons_append, skipGap]
    · exact hlocal rest' hrest'
    · intro cs' hd hcs'
      cases pre with
      | nil => exact hclose rest hd (by rw [(List.cons.inj hcs').1]; rfl)
      | cons e pre => exact hclose (pre ++ c :: rest) hd (by rw [(List.cons.inj hcs').1]; rfl)

/-! ## Token by token -/

theorem tokens_cons {t : Token} (h : (streamOf offset cs).tokens = t :: ts) :
    ∃ start c rest taken after, skipGap .plain offset cs = .ok (start, c :: rest) ∧
      scanToken c rest = .token t.kind taken after ∧
      t = ⟨t.kind, String.ofList taken, ⟨start, start + byteLength taken⟩⟩ ∧
      (streamOf t.span.stop after).tokens = ts := by
  rw [streamOf_eq] at h
  rcases afterGap_cases .plain offset cs with hnil | ⟨start, c, rest, kind, taken, after, hgap, htoken, hstream⟩
  · cases hnil.symm.trans h
  · rw [hstream] at h
    obtain ⟨rfl, hlater⟩ := List.cons.inj h
    exact ⟨start, c, rest, taken, after, hgap, htoken, rfl, hlater⟩

/-- What comes after a mark that ends a statement is not seen from before it. -/
theorem follows_closing (hc : c = ';' ∨ c = '\x7d') (own rest rest' : List Char) :
    Follows (own ++ [c] ++ rest) (own ++ [c] ++ rest') := by
  have hpoint : c ≠ '.' := by rcases hc with rfl | rfl <;> decide
  have hmark : Follows (c :: rest) (c :: rest') := ⟨rfl, fun h => absurd h hpoint⟩
  simpa using hmark.append own

/-- A text up to a mark that ends a statement has its tokens whatever comes after it, and the rest is read on its
own. -/
theorem streamOf_cut {ts' : List Token} {last : Token}
    (h : (streamOf offset cs).tokens = ts ++ last :: ts') (hlast : last.kind.closes = true) :
    ∃ own c rest, cs = own ++ [c] ++ rest ∧ (c = ';' ∨ c = '\x7d') ∧
      last.span.stop = offset + byteLength (own ++ [c]) ∧
      ∀ rest', streamOf offset (own ++ [c] ++ rest') = (streamOf last.span.stop rest').prepend (ts ++ [last]) := by
  induction ts generalizing offset cs with
  | nil =>
    obtain ⟨start, c, rest, taken, after, hgap, htoken, ht, -⟩ := tokens_cons h
    obtain ⟨hc, rfl, hsame⟩ := scanToken_closes htoken hlast
    have hslash : c ≠ '/' := by rcases hc with rfl | rfl <;> decide
    obtain ⟨pre, rfl, hgaps⟩ := skipGap_local hgap
    obtain ⟨p, hp, -, hstop⟩ := (first_token hgap htoken).split
    obtain rfl : pre ++ [c] = p := List.append_cancel_right (by simpa using hp)
    refine ⟨pre, c, after, by simp, hc, ?_, fun rest' => ?_⟩
    · rw [ht]
      exact hstop
    · rw [List.append_assoc, List.singleton_append, ht]
      exact (first_token (hgaps rest' (absurd · hslash)) (hsame rest')).stream
  | cons t ts ih =>
    obtain ⟨start, c, rest, taken, after, hgap, htoken, ht, htokens⟩ := tokens_cons h
    obtain ⟨own, d, rest1, rfl, hd, hstop, hstream⟩ := ih htokens
    obtain ⟨body, rfl, -, -, hsame⟩ := local_scanToken c _ _ _ _ htoken
    obtain ⟨pre, rfl, hgaps⟩ := skipGap_local hgap
    obtain ⟨p, hp, -, hfirst⟩ := (first_token hgap htoken).split
    obtain rfl : pre ++ c :: body = p := List.append_cancel_right (by simpa using hp)
    refine ⟨pre ++ c :: body ++ own, d, rest1, by simp, hd, ?_, fun rest' => ?_⟩
    · rw [hstop, ht, hfirst, Nat.add_assoc, ← byteLength_append, List.append_assoc _ own]
    · have hfollows := follows_closing hd own rest1 rest'
      have hstep := (first_token (hgaps _ fun _ => (hfollows.append body).head) (hsame _ hfollows)).stream
      rw [← ht, hstream, Stream.prepend_prepend] at hstep
      simpa using hstep

end Token

end HostScript
