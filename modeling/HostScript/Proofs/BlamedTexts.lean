import HostScript.Proofs.NamedFailures
import HostScript.Proofs.SpelledUnits
import HostScript.Proofs.Watched

/-!
# The text that a failure speaks of

A failure gets its label from the text that is run, and its span from the innermost construct around it. If the
run comes upon no construct of another text, the span is that of a construct of the text, where some of its
tokens stand (`failures_speak_of_own_text`). Methods that other texts have declared and texts that are given to
`eval` bring constructs of their own, whose spans come under the label of the text that is run.
-/

set_option autoImplicit false

namespace HostScript

open Exec

variable {units : List Stmt} {own : List (Span × String)} {C : Culprit → Prop}

/-! ## Constructs of a text -/

/-- How the expressions of a statement are blamed, with the expressions within them. -/
def Stmt.blamed (s : Stmt) : List (Span × String) := (Expr.subsAll s.exprs).map fun e => (e.span, e.describe)

/-- All that can be blamed in some units. -/
def constructsOf (units : List Stmt) : List (Span × String) :=
  units.map (fun u => (u.span, "statement")) ++ (Stmt.subsAll units).flatMap fun s => s.constructs ++ s.blamed

/-- A construct of some units and the tokens that it was read from: an expression that is derived by them, a
declaration, an import, or a unit. -/
inductive ReadFrom (units : List Stmt) : Span → String → List Token → Prop
  | expr {s : Stmt} {e : Expr} {ts : List Token} (hs : s ∈ Stmt.subsAll units) (he : e ∈ Expr.subsAll s.exprs)
    (h : Stands e ts) : ReadFrom units e.span e.describe ts
  | part {s : Stmt} {span : Span} {node : String} {ts : List Token} (hs : s ∈ Stmt.subsAll units)
    (hk : (span, node) ∈ s.constructs) (h : Covers span ts) : ReadFrom units span node ts
  | unit {u : Stmt} {ts : List Token} (hu : u ∈ units) (h : Covers u.span ts) : ReadFrom units u.span "statement" ts

theorem ReadFrom.covers {span : Span} {node : String} {ts : List Token} (h : ReadFrom units span node ts) :
    Covers span ts := by
  cases h with
  | expr _ _ h => exact h.covers
  | part _ _ h => exact h
  | unit _ h => exact h

/-- The units of a text that can be read, whatever comes after them. -/
def unitsOf (source : String) : List Stmt := (readUnits source).1.map Prod.fst

/-- **Every construct of a text was read from some of its tokens.** -/
theorem constructs_read (source : String) : ∀ k ∈ constructsOf (unitsOf source), ∃ ts, ts <:+: (scan source).tokens ∧
    ReadFrom (unitsOf source) k.1 k.2 ts := by
  obtain ⟨c, hgives, -⟩ := unitsFrom_gives (Nat.lt_succ_self (Cursor.ofSource source).rest.length)
  obtain ⟨taken, hrest, hspelled, hunits⟩ := hgives.spelled
  have hinfix {ts : List Token} (h : ts <:+: taken) : ts <:+: (scan source).tokens :=
    h.trans ⟨[], c.rest, hrest.symm⟩
  rintro ⟨span, node⟩ hk
  rcases List.mem_append.1 hk with hk | hk
  · obtain ⟨u, hu, heq⟩ := List.mem_map.1 hk
    cases heq
    obtain ⟨ts, hts, hcovers⟩ := hunits u hu
    exact ⟨ts, hinfix hts, .unit hu hcovers⟩
  · obtain ⟨s, hs, hk⟩ := List.mem_flatMap.1 hk
    have hplaced := (hspelled.inner s hs).2
    rcases List.mem_append.1 hk with hk | hk
    · obtain ⟨ts, hts, hcovers⟩ := hplaced.constructs _ hk
      exact ⟨ts, hinfix hts, .part hs hk hcovers⟩
    · obtain ⟨e, he, heq⟩ := List.mem_map.1 hk
      cases heq
      obtain ⟨whole, hwhole, hsub⟩ := Expr.mem_subsAll.1 he
      obtain ⟨us, hus, hstands⟩ := hplaced.exprs whole hwhole
      obtain ⟨ts, hts, hstands⟩ := hstands.subs e hsub
      exact ⟨ts, hinfix (hts.trans hus), .expr hs he hstands⟩

/-! ## Evaluation that keeps to a text -/

/-- To refuse all constructs but some, and the commands that run other texts. -/
def Restraint.foreign (own : List (Span × String)) (f : Failure) : Restraint where
  expr e := e.runsText || e.subs.any fun e' => (e'.span, e'.describe) ∉ own
  stmt s := (s.constructs ++ s.blamed).any (· ∉ own)
  failure := f

/-- Evaluation that refuses all constructs but some, wherever it comes upon them. -/
def Evaluator.keepingTo (own : List (Span × String)) (f : Failure) : Nat → Evaluator
  | 0 => spent
  | n + 1 => (keepingTo own f n).restrained (.foreign own f) (keepingTo own f n) n

theorem Restraint.admits_foreign (hC : ∀ k ∈ own, C (.construct k.1 k.2)) (f : Failure) :
    (Restraint.foreign own f).Admits C := by
  have hstmt {s : Stmt} (h : (Restraint.foreign own f).stmt s = false) : ∀ k ∈ s.constructs ++ s.blamed, k ∈ own :=
    fun k hk => by simpa using List.any_eq_false.1 h k hk
  refine ⟨fun e he e' he' => ?_, fun e he htext => ?_, fun s hs e he => ?_, fun s hs k hk => ?_⟩
  · have hsubs := (Bool.or_eq_false_iff.1 he).2
    exact hC _ (by simpa using List.any_eq_false.1 hsubs e' he')
  · rw [(Bool.or_eq_false_iff.1 he).1] at htext
    cases htext
  · refine hC _ (hstmt hs _ (List.mem_append_right _ (List.mem_map.2 ⟨e, ?_, rfl⟩)))
    exact Expr.mem_subsAll.2 ⟨e, he, e.mem_subs⟩
  · exact hC k (hstmt hs k (List.mem_append_left _ hk))

theorem threaded_keepingTo (hC : ∀ k ∈ own, C (.construct k.1 k.2)) (n : Nat) :
    (Evaluator.keepingTo own (.stopped .exhausted) n).Threaded .all C (· = .stopped .exhausted) := by
  induction n with
  | zero => exact .spent rfl
  | succ n ih => exact ih.restrained (Restraint.admits_foreign hC _) n rfl rfl (.inl fun _ => trivial)

/-! ## Failures -/

/-- A failure speaks of a text: the construct that it names is one of the text, read from tokens that stand where its
span says, and what could not be read is what reading the text comes to. -/
def Failure.SpeaksOf (source : String) : Failure → Prop
  | .fault _ place | .raised _ _ place => ∀ span, place.span = some span → span.stop ≤ byteLength source.toList ∧
      ∃ node ts, place.node = some node ∧ ts <:+: (scan source).tokens ∧ ReadFrom (unitsOf source) span node ts
  | .unread d => ∃ d0 label, (readUnits source).2 = some d0 ∧ d = { d0 with label }
  | _ => True

theorem Failure.BlamedOn.speaksOf {source : String} {f : Failure} (h : f.BlamedOn fun
      | .construct span node => (span, node) ∈ constructsOf (unitsOf source)
      | .text d => (readUnits source).2 = some d) : f.SpeaksOf source := by
  cases f with
  | fault cause place | raised _ cause place =>
    intro span hspan
    cases h with
    | nothing => cases hspan
    | @construct _ node hk =>
      cases hspan
      obtain ⟨ts, hts, hread⟩ := constructs_read source _ hk
      obtain ⟨us, t, rfl, hstop⟩ := hread.covers.stops
      have hle := Token.stop_le (hts.subset (List.mem_append_right us List.mem_cons_self))
      rw [hstop, Nat.zero_add] at hle
      exact ⟨hle, node, _, rfl, hts, hread⟩
  | unread d => exact h
  | broken | input | stopped => trivial

/-- **A failure speaks of the text that is run, if the run comes upon no construct of another text**: whatever its
label is, its span does not go beyond the text, and from there the construct that it names was read. -/
theorem failures_speak_of_own_text (n : Nat) (source : String) (label : Option String) (m m' : Machine) (f : Failure)
    (hown : ∀ g, (Evaluator.keepingTo (constructsOf (unitsOf source)) g n).runText source label m =
      (evaluator n).runText source label m)
    (h : (evaluator n).runText source label m = .error f m') : f.SpeaksOf source := by
  let C : Culprit → Prop
    | .construct span node => (span, node) ∈ constructsOf (unitsOf source)
    | .text d => (readUnits source).2 = some d
  have hC : ∀ k ∈ constructsOf (unitsOf source), C (.construct k.1 k.2) := fun _ hk => hk
  have hev := threaded_keepingTo hC n
  have hunits : ∀ s ∈ unitsOf source, C (.construct s.span "statement") :=
    fun s hs => List.mem_append_left _ (List.mem_map.2 ⟨s, hs, rfl⟩)
  have hrun := Discipline.runUnits (D := weaving .all C (Thrown (· = .stopped .exhausted))) label (fun _ hd => hd)
    (unitsOf source) (fun s hs => ⟨hunits s hs, fun _ => hev.stmt s⟩) () .void trivial
  have hfails := hrun.failIn (Failure.kind_blamedOn C) (Thrown.failIn fun _ f hf => by subst hf; trivial)
  exact (hfails.failsOnly () m f m' ((hown _).trans h)).speaksOf

/-! ## Runs that keep to their text -/

/-- To stop is a shadow of anything, and to stop more often than another refuses is one too. -/
theorem Exec.Shadows.refused {α : Type} {P : α → Prop} {x : Bool → Exec α} {c c' : Prop} [Decidable c] [Decidable c']
    (hx : Shadows (fun _ => True) α P x) (h : c' → c) (f : Failure) : Shadows (fun _ => True) α P fun i =>
      if i then (if c then throw (.stopped .exhausted) else x true) else if c' then throw f else x false := by
  intro m
  by_cases hc : c
  · exact .inr ⟨m, congrFun (if_pos hc) m, .refl m, m, trivial, rfl, .refl _⟩
  · simpa only [ShadowsAt, if_true, Bool.false_eq_true, if_false, if_neg hc, if_neg (mt h hc)] using hx m

/-- To stop at foreign constructs is a shadow of every evaluation that refuses no others. -/
theorem shadowed_keepingTo {R : Restraint} {ev : Nat → Evaluator} (hzero : ev 0 = .spent)
    (hsucc : ∀ n, ev (n + 1) = (ev n).restrained R (ev n) n)
    (hexpr : ∀ e, R.expr e = true → (Restraint.foreign own R.failure).expr e = true)
    (hstmt : ∀ s, R.stmt s = true → (Restraint.foreign own R.failure).stmt s = true) (n : Nat) :
    Evaluator.Shadowed (fun _ => True) fun i => if i then .keepingTo own (.stopped .exhausted) n else ev n := by
  induction n with
  | zero =>
    simp only [hzero, Evaluator.keepingTo, ite_self]
    exact .spent
  | succ n ih =>
    simp only [hsucc, Evaluator.keepingTo, Evaluator.restrained, Evaluator.exprFormWith_self]
    exact ⟨fun e m => (ih.exprStep e).shadows.refused (hexpr e) R.failure m,
      fun s m => (ih.stmtStep n s).shadows.refused (hstmt s) R.failure m, fun _ => shadows_throw _⟩

/-- **One run tells whether a text comes upon foreign constructs**: the one that stops there. -/
theorem keepingTo_eq {n : Nat} {source : String} {label : Option String} {m : Machine}
    (hrun : ∀ m', (Evaluator.keepingTo own (.stopped .exhausted) n).runText source label m ≠
      .error (.stopped .exhausted) m') (f : Failure) :
    (Evaluator.keepingTo own f n).runText source label m = (evaluator n).runText source label m := by
  have hall {ev : Evaluator} (hev : Evaluator.Shadowed (fun _ => True)
      fun i => if i then .keepingTo own (.stopped .exhausted) n else ev) :
      (Evaluator.keepingTo own (.stopped .exhausted) n).runText source label m = ev.runText source label m := by
    have htext := (Woven.runText source label (fun _ => trivial) fun s => .given (hev.stmt s)).shadows m
    rcases htext with ⟨hsame, -⟩ | ⟨m', hstopped, -⟩
    · exact hsame
    · exact absurd hstopped (hrun m')
  have hforeign : ∀ k, Evaluator.keepingTo own f (k + 1) = _ := fun _ => rfl
  have hfree := hall (shadowed_keepingTo rfl (fun k => evaluator_succ k f) (fun _ h => absurd h Bool.false_ne_true)
    (fun _ h => absurd h Bool.false_ne_true) n)
  exact (hall (shadowed_keepingTo rfl hforeign (fun _ h => h) (fun _ h => h) n)).symm.trans hfree

/-- A method that divides by zero, and a call of it. -/
def failingMethod : String := "bad() \x7b return 1 / 0; \x7d bad();"

/-- The division in a method of the text is what is blamed for the failure of its call. -/
theorem own_method_blamed :
    let m := Machine.initial {} ⟨fun _ => .unknown⟩ "" []
    ∃ f m', (evaluator 9).runText failingMethod (some "main") m = .error f m' ∧
      f.message = "/ by zero : at operator `/` (main:15..20)" ∧ f.SpeaksOf failingMethod := by
  intro m
  have hmessage : (((Evaluator.keepingTo (constructsOf (unitsOf failingMethod)) (.stopped .exhausted) 9).runText
      failingMethod (some "main")).failure? m).map Failure.message =
        some "/ by zero : at operator `/` (main:15..20)" := by decide +kernel
  have hrun : ∀ m', (Evaluator.keepingTo (constructsOf (unitsOf failingMethod)) (.stopped .exhausted) 9).runText
      failingMethod (some "main") m ≠ .error (.stopped .exhausted) m' := by
    intro m' h
    rw [failure?, h] at hmessage
    have hstopped : Failure.message (.stopped .exhausted) = _ := Option.some.inj hmessage
    exact absurd hstopped (by decide +kernel)
  have hown := keepingTo_eq hrun
  rw [failure?, hown] at hmessage
  cases hend : (evaluator 9).runText failingMethod (some "main") m with
  | ok v m' => simp [hend] at hmessage
  | error f m' =>
    rw [hend] at hmessage
    exact ⟨f, m', rfl, Option.some.inj hmessage,
      failures_speak_of_own_text 9 failingMethod (some "main") m m' f hown hend⟩

end HostScript
