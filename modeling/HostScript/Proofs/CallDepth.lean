import HostScript.Proofs.LexicalScope

/-!
# Recursion and the limit on the call depth

A family of computations, one for every allowance, settles if they all end alike once the allowance is
large enough, and not for want of it (`SettlesAt`). Evaluation without `while`, `do` and `for` settles as
long as texts are run inside one another only so often: every scripted call takes one of the calls that the
limit leaves, and in between the syntax gets smaller. The induction is on the texts that may still be
nested, the calls that are left and the size of the syntax.
-/

set_option autoImplicit false

namespace HostScript

variable {d : Nat} {files : Files} {f : Failure} {m : Machine} {C : Culprit → Prop}

/-- A failure that an evaluation can end with: it says neither that the allowance is used up nor that a text
has no end, and it asks only for a file that nobody has looked at. -/
def Failure.Final (files : Files) : Failure → Prop
  | .stopped .exhausted | .stopped .endless => False
  | .stopped (.fileNeeded path) => files.entry path = .unknown
  | _ => True

/-- A failure that no greater allowance averts. -/
def Failure.Lasting (files : Files) (f : Failure) : Prop := f = .stopped .endless ∨ f.Final files

theorem Running.final {φ : Failure → Failure} (hφ : Running C φ) (hf : f.Final files) :
    (φ f).Final files := by
  cases hφ with
  | same => exact hf
  | locate span node =>
    show (f.locate span (node ())).Final files
    unfold Failure.locate
    split
    · split <;> trivial
    · split <;> trivial
    · exact hf
  | label source =>
    show (f.label source).Final files
    unfold Failure.label
    split
    case h_4 => exact hf
    all_goals trivial
  | dangle =>
    unfold Failure.dangle
    split
    · trivial
    · exact hf

theorem Running.lasting {φ : Failure → Failure} (hφ : Running C φ) (hf : f.Lasting files) :
    (φ f).Lasting files := by
  rcases hf with rfl | hf
  · refine .inl ?_
    cases hφ <;> rfl
  · exact .inr (hφ.final hf)

theorem Failure.Begun.lasting (hf : f.Begun C files) : f.Lasting files := by
  rcases hf with hf | ⟨d, rfl, -⟩
  · cases f with
    | stopped cause =>
      cases cause with
      | exhausted => exact hf.elim
      | fileNeeded path => exact .inr hf
      | endless => exact .inl rfl
    | unread | fault | raised | broken | input => exact .inr trivial
  · exact .inr trivial

namespace Exec

variable {α β : Type} {P Q : α → Prop} {x : Nat → Exec α}

/-- An end that does not come from the allowance. -/
abbrev EndsFinally (P : α → Prop) (m : Machine) : Exec.Result α → Prop :=
  EndsIn .all Failure.Lasting P m

/-- All runs from a machine with a large enough allowance end alike, with a result that satisfies a
condition or with a failure that does not come from the allowance. -/
def SettlesAt (P : α → Prop) (x : Nat → Exec α) (m : Machine) : Prop :=
  ∃ N r, (∀ n, N ≤ n → x n m = r) ∧ EndsFinally P m r

theorem settlesAt_constant {y : Exec α} (h : EndsFinally P m (y m)) : SettlesAt P (fun _ => y) m :=
  ⟨0, y m, fun _ _ => rfl, h⟩

namespace SettlesAt

/-- The allowance may be counted from any number on. -/
theorem shift (h : SettlesAt P (fun n => x (n + 1)) m) : SettlesAt P x m := by
  obtain ⟨N, r, hN, hr⟩ := h
  refine ⟨N + 1, r, fun n hn => ?_, hr⟩
  obtain ⟨k, rfl⟩ : ∃ k, n = k + 1 := ⟨n - 1, by omega⟩
  exact hN k (by omega)

/-- What depends only on the end of another run settles with it. -/
theorem through {Q : β → Prop} {y : Nat → Exec β} {m' : Machine} (h : SettlesAt P x m)
    (F : Exec.Result α → Exec.Result β)
    (hy : ∀ n, KeepsStack (x n) m → y n m' = F (x n m))
    (hF : ∀ r, EndsFinally P m r → EndsFinally Q m' (F r)) : SettlesAt Q y m' := by
  obtain ⟨N, r, hN, hr⟩ := h
  refine ⟨N, F r, fun n hn => ?_, hF r hr⟩
  have hn := hN n hn
  have hkeeps : KeepsStack (x n) m := by
    have hends : EndsFinally P m (x n m) := by
      rw [hn]
      exact hr
    exact hends.keepsStack
  rw [hy n hkeeps, hn]

theorem bind {Q : β → Prop} {f : Nat → α → Exec β} (hx : SettlesAt P x m)
    (hf : ∀ a m', m.Alike m' → P a → SettlesAt Q (fun n => f n a) m') :
    SettlesAt Q (fun n => x n >>= f n) m := by
  obtain ⟨N, r, hN, hr⟩ := hx
  cases r with
  | error e m' => exact ⟨N, .error e m', fun n hn => bind_of_error (hN n hn), hr⟩
  | ok a m' =>
    obtain ⟨N', r', hN', hr'⟩ := hf a m' hr.1 hr.2.2
    exact ⟨max N N', r', fun n hn => (bind_of_ok (hN n (by omega))).trans (hN' n (by omega)),
      hr'.after hr.1⟩

theorem imp (hx : SettlesAt P x m) (h : ∀ a, P a → Q a) : SettlesAt Q x m :=
  hx.through id (fun _ _ => rfl) fun _ hr => hr.imp h fun _ hf => hf

theorem attempt (hx : SettlesAt P x m) :
    SettlesAt (fun r => ∀ a, r = .ok a → P a) (fun n => Exec.attempt (x n)) m :=
  hx.through (fun r => Exec.attempt (fun _ => r) m) (fun _ _ => rfl)
    fun r hr => EndsIn.attempt (x := fun _ => r) hr

theorem around {C : Culprit → Prop} {y : Nat → Exec α} (hy : Around C x y)
    (hx : ∀ m0, m.Prepared m0 → SettlesAt P x m0) : SettlesAt P y m := by
  rcases hy m with ⟨r, hr, hrun⟩ | ⟨m0, T, hm, -, hT, hrun⟩
  · have hends := (hr .all P (.all m)).endsIn.imp (fun _ h => h) fun _ hf => Failure.Begun.lasting (C := C) (.inl hf)
    exact ⟨0, r, fun n _ => hrun n, hends⟩
  · exact (hx m0 hm).through T hrun fun _ hr => hT.endsIn hm Running.lasting hr

end SettlesAt

/-- A family settles at every machine to whose limit so many calls are left at most. -/
def Settles (d : Nat) (α : Type) (P : α → Prop) (x : Nat → Exec α) : Prop :=
  ∀ m : Machine, m.config.maxDepth ≤ m.depth + d → SettlesAt P x m

end Exec

open Exec

theorem Machine.left {m0 : Machine} (hconfig : m0.config = m.config) (hdepth : m.depth ≤ m0.depth)
    (hd : m.config.maxDepth ≤ m.depth + d) : m0.config.maxDepth ≤ m0.depth + d := by
  rw [hconfig]
  omega

/-- **What is woven from families that settle settles.** -/
theorem Woven.settles {b : Bool} {α : Type} {P : α → Prop} {x : Nat → Exec α}
    (hx : Woven .all (fun _ => True) (Settles d) b P x) : Settles d α P x := by
  refine hx.logically (L := fun P x => Settles d _ P x) ⟨⟨fun hx => hx, ?_, ?_, ?_, ?_⟩, ?_, ?_, ?_⟩
  · exact fun hx h m hm => (hx m hm).imp h
  · exact fun hx hf m hm => (hx m hm).bind fun a m' h ha => hf a ha m' (Machine.left h.config h.depth.ge hm)
  · exact fun hf m hm => hf m (.all m) m hm
  · exact fun hx hy m hm => .around hy fun m0 h => hx m0 (Machine.left h.limits.2.1 h.limits.2.2.1 hm)
  · exact fun hx m _ => settlesAt_constant ((hx m (.all m)).imp (fun _ h => h) fun _ hf => hf.lasting)
  · exact fun _ _ m _ => settlesAt_constant ⟨.refl m, .all m, .inr trivial⟩
  · exact fun hx m hm => (hx m hm).attempt

/-! ## Scripted calls -/

/-- **A call settles if what it runs settles with one call less left.** -/
theorem settles_call {x : Nat → Exec Value} (method : ScriptMethod) (args : List Value)
    (hx : ∀ d', d = d' + 1 → Settles d' Value (·.Confined .all) x) :
    Settles d Value (·.Confined .all) fun n => deeper method.name args
      (inFrame method.name .call method.declaring (x n) fun v m => m.drop v) := by
  intro m hm
  by_cases hlimit : m.config.maxDepth ≤ m.depth
  · have hdrop : Change .all (·.dropAll args) := change_of_ebbing (Machine.ebbing_dropAll args)
    exact ⟨0, _, fun _ _ => deeper_of_le hlimit, hdrop.alike m, .all _, .inr trivial⟩
  · -- one more call in flight leaves one less
    obtain ⟨d', rfl⟩ : ∃ d', d = d' + 1 := ⟨d - 1, by omega⟩
    have hdeep : SettlesAt (·.Confined .all) (fun n =>
        inFrame method.name .call method.declaring (x n) fun v m => m.drop v) { m with depth := m.depth + 1 } :=
      .around (C := fun _ => True) (around_inFrame x _ _ _ _) fun m0 h =>
        hx d' rfl m0 (Machine.left h.limits.2.1 h.limits.2.2.1 (show m.config.maxDepth ≤ m.depth + 1 + d' by omega))
    refine hdeep.through _ (fun n _ => deeper_of_lt (Nat.lt_of_not_le hlimit)) fun _ hr => ?_
    exact (outward_oneDeeper (C := fun _ => True) m).endsIn .deeper Running.lasting hr

/-! ## Evaluation without loops -/

/-- To refuse `while`, `do` and `for`. -/
def Restraint.loopless (cause : Fault) : Restraint :=
  { stmt := Stmt.isLoop, failure := .ofFault cause }

namespace Evaluator

/-- Evaluation that refuses loops, and texts nested more than `k` deep. -/
def nesting (cause : Fault) : Nat → Nat → Evaluator
  | _, 0 => spent
  | 0, n + 1 => (nesting cause 0 n).restrained (.loopless cause) (refusing (.ofFault cause)) n
  | k + 1, n + 1 => (nesting cause (k + 1) n).restrained (.loopless cause) (nesting cause k n) n

/-- Scripted methods settle if statements do with one call less left. -/
theorem settles_calls {ev : Nat → Evaluator} {d : Nat}
    (h : ∀ d', d = d' + 1 → ∀ s, Settles d' Flow (·.Confined .all) fun n => (ev n).stmt s) :
    (weaving .all (fun _ => True) (Settles d)).Calls ev :=
  fun _ method args hargs => Discipline.invokeScriptedOf method hargs fun _ types hargs => Woven.given <|
    settles_call method args fun d' hd' => Woven.settles (Discipline.runCall
      (D := weaving .all (fun _ => True) (Settles d')) (w := ()) method types hargs
        fun s _ _ => Woven.given (h d' hd' s))

/-- Evaluation settles at all machines to whose limit so many calls are left at most. -/
def SettlesWith (ev : Nat → Evaluator) (d : Nat) : Prop :=
  (∀ e, Settles d Value (·.Confined .all) fun n => (ev n).expr e) ∧
    ∀ s, Settles d Flow (·.Confined .all) fun n => (ev n).stmt s

section

variable {cause : Fault} {ev texts : Nat → Evaluator}
  (hstep : ∀ n, ev (n + 1) = (ev n).restrained (.loopless cause) (texts n) n)
  (htexts : ∀ d s, Settles d Flow (·.Confined .all) fun n => (texts n).stmt s)

include hstep htexts

theorem settles_expr (hcalls : (weaving .all (fun _ => True) (Settles d)).Calls ev) (e : Expr) :
    Settles d Value (·.Confined .all) fun n => (ev n).expr e := by
  induction e using Expr.induction_parts with
  | _ e ih =>
    have hnext : Woven .all (fun _ => True) (Settles d) true (·.Confined .all)
        fun n => (ev (n + 1)).expr e := by
      simp only [hstep, restrained, Restraint.loopless, Bool.false_eq_true, if_false]
      exact .locating (Discipline.exprFormWith (w := ()) hcalls e
        (fun e' he' => ⟨trivial, fun _ => Woven.given (ih e' he')⟩)
        (fun _ _ => Discipline.thisObject _ fun _ => trivial) (fun _ _ => Discipline.outerObject _ fun _ => trivial)
        fun _ => ⟨fun _ => trivial, fun s _ => Woven.given (htexts d s)⟩) trivial
    exact fun m hm => .shift (hnext.settles m hm)

omit htexts in
theorem settles_stmt (hexpr : ∀ e, Settles d Value (·.Confined .all) fun n => (ev n).expr e) (s : Stmt) :
    Settles d Flow (·.Confined .all) fun n => (ev n).stmt s := by
  induction s using Stmt.induction_parts with
  | _ s ih =>
    have hnext : Woven .all (fun _ => True) (Settles d) true (·.Confined .all)
        fun n => (ev (n + 1)).stmt s := by
      simp only [hstep]
      refine .ite (fun _ => .plain (plain_throw fun _ => ⟨rfl, rfl⟩)) fun hloop => ?_
      exact Discipline.stmtStep (D := weaving .all (fun _ => True) (Settles d)) (w := ())
        (fun e _ => ⟨trivial, fun _ => Woven.given (hexpr e)⟩) (fun s' hs' _ => Woven.given (ih s' hs'))
        (Bool.eq_false_iff.2 hloop) fun _ _ => trivial
    exact fun m hm => .shift (hnext.settles m hm)

theorem settles_parts (hcalls : (weaving .all (fun _ => True) (Settles d)).Calls ev) : SettlesWith ev d :=
  ⟨settles_expr hstep htexts hcalls, settles_stmt hstep (settles_expr hstep htexts hcalls)⟩

/-- **Evaluation without loops settles if the evaluation of texts does**, by induction on the calls that
are left. -/
theorem settles_loopless (d : Nat) : SettlesWith ev d := by
  induction d with
  | zero =>
    exact settles_parts hstep htexts (settles_calls fun _ h => absurd h (Nat.succ_ne_zero _).symm)
  | succ d ih =>
    refine settles_parts hstep htexts (settles_calls fun d' h => ?_)
    cases h
    exact ih.2

end

/-- Evaluation that refuses loops, and texts nested more than `k` deep, settles. -/
theorem settles_nesting (cause : Fault) (k d : Nat) : SettlesWith (nesting cause k) d := by
  induction k generalizing d with
  | zero =>
    have hstep : ∀ n, nesting cause 0 (n + 1) =
        (nesting cause 0 n).restrained (.loopless cause) (refusing (.ofFault cause)) n := fun n => by
      rw [nesting]
    have hrefused : ∀ d (s : Stmt), Settles d Flow (·.Confined .all)
        fun _ => (refusing (.ofFault cause)).stmt s := fun d s m _ =>
      settlesAt_constant ⟨.refl m, .all m, .inr trivial⟩
    exact settles_loopless hstep hrefused d
  | succ k ih =>
    have hstep : ∀ n, nesting cause (k + 1) (n + 1) =
        (nesting cause (k + 1) n).restrained (.loopless cause) (nesting cause k n) n := fun n => by
      rw [nesting]
    exact settles_loopless hstep (fun d => (ih d).2) d

end Evaluator

end HostScript
