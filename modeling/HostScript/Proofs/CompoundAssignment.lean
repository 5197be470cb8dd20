import HostScript.Proofs.NameAgreement

/-!
# Compound assignment

`x op= e` is short for `x = (k)(x op e)`, where `k` is the kind of the number in `x`, but the long form reads
`x` before it evaluates `e`, and the short one afterwards. What either stores is the same computation on numbers
(`Evaluator.store`), from the value that `x` had before `e` or from the one that `e` has left in it
(`compound_assignment_reads_late`). So they agree as long as `e` leaves the number in `x` alone.
-/

set_option autoImplicit false

namespace HostScript

open Exec Machine

variable {α : Type}

/-! ## Ends that differ in places only -/

/-- A failure without the construct and the text that it names. -/
def Failure.unplaced : Failure → Failure
  | .fault cause _ => .fault cause {}
  | .raised step exception _ => .raised step exception {}
  | other => other

theorem Failure.unplaced_locate (f : Failure) (span : Span) (node : String) :
    (f.locate span node).unplaced = f.unplaced := by
  cases f with
  | fault cause place | raised _ cause place =>
    obtain ⟨_, span, _⟩ := place
    cases span <;> rfl
  | unread | broken | input | stopped => rfl

/-- The same value in the same machine, or failures of the same cause in machines that differ at most in releases
that are still queued. -/
def Exec.SameEnd {α : Type} : Exec.Result α → Exec.Result α → Prop
  | .ok a m, .ok b m' => a = b ∧ m = m'
  | .error f m, .error g m' => f.unplaced = g.unplaced ∧ m.settle = m'.settle
  | _, _ => False

namespace Exec.SameEnd

variable {x y z : Exec.Result α} {m : Machine}

theorem refl : ∀ x : Exec.Result α, SameEnd x x
  | .ok _ _ => ⟨rfl, rfl⟩
  | .error _ _ => ⟨rfl, rfl⟩

theorem symm (h : SameEnd x y) : SameEnd y x := by
  cases x <;> cases y
  · exact ⟨h.1.symm, h.2.symm⟩
  · exact h
  · exact h
  · exact ⟨h.1.symm, h.2.symm⟩

theorem trans (h : SameEnd x y) (h' : SameEnd y z) : SameEnd x z := by
  cases x <;> cases y <;> cases z
  · exact ⟨h.1.trans h'.1, h.2.trans h'.2⟩
  all_goals first | exact absurd h not_false | exact absurd h' not_false | skip
  exact ⟨h.1.trans h'.1, h.2.trans h'.2⟩

theorem eq_ok {a : α} (h : SameEnd x (.ok a m)) : x = .ok a m := by
  cases x with
  | ok b m' =>
    obtain ⟨rfl, rfl⟩ := h
    rfl
  | error f m' => exact absurd h not_false

/-- Going on in the same way. -/
theorem bind {β : Type} {x y : Exec α} {m' : Machine} (h : SameEnd (x m) (y m')) (f : α → Exec β) :
    SameEnd ((x >>= f) m) ((y >>= f) m') := by
  cases hx : x m with
  | ok a m1 =>
    cases hy : y m' with
    | ok b m2 =>
      rw [hx, hy] at h
      obtain ⟨rfl, rfl⟩ := h
      rw [bind_of_ok hx, bind_of_ok hy]
      exact .refl _
    | error g m2 =>
      rw [hx, hy] at h
      exact absurd h not_false
  | error f m1 =>
    cases hy : y m' with
    | ok b m2 =>
      rw [hx, hy] at h
      exact absurd h not_false
    | error g m2 =>
      rw [hx, hy] at h
      rw [bind_of_error hx, bind_of_error hy]
      exact h

/-- Naming the construct that fails makes no difference. -/
theorem locating (span : Span) (node : Unit → String) (x : Exec α) (m : Machine) :
    SameEnd (Exec.locating span node x m) (x m) := by
  unfold Exec.locating Exec.mapFailure
  cases x m with
  | ok a m' => exact ⟨rfl, rfl⟩
  | error f m' => exact ⟨f.unplaced_locate span (node ()), rfl⟩

end Exec.SameEnd

/-! ## Numbers are not owned -/

theorem Exec.afterwards_self (x : Exec α) : afterwards x (fun m => m) = x := by
  funext m
  unfold afterwards
  cases x m <;> rfl

theorem Exec.holding_primitive (p : Primitive) (x : Exec α) : holding (.primitive p) x = x :=
  afterwards_self x

theorem Exec.unlessFailed_primitive (p : Primitive) (x : Exec α) : unlessFailed (.primitive p) x = x := by
  funext m
  show onFailure x (fun m => m) m = x m
  unfold onFailure
  cases x m <;> rfl

/-! ## Arithmetic -/

namespace Primitive

variable {op : BinaryOp} {p q w : Primitive}

theorem operand?_of_numeric (hp : p.kind.isNumeric = true) : (Value.primitive p).operand? = some p := by
  cases p <;> first | rfl | cases hp

theorem binary_of_numeric (op : BinaryOp) (hp : p.kind.isNumeric = true)
    (hq : q.kind.isNumeric = true) : binary op p q = numeric op p q := by
  unfold binary
  split
  · cases hp
  · rw [if_pos (by rw [hp, hq]; rfl)]

/-- A value that is neither null nor nothing. -/
def IsKnown (p : Primitive) : Prop := p.isNull = false ∧ p.isVoid = false

theorem isKnown_of_arith? {a b : Primitive} (h : arith? op a b = some (.ok w)) : w.IsKnown := by
  unfold arith? at h
  split at h
  · obtain ⟨z, -, hz⟩ := Option.map_eq_some_iff.1 h
    cases z <;> cases hz
    exact ⟨rfl, rfl⟩
  · obtain ⟨z, -, hz⟩ := Option.map_eq_some_iff.1 h
    cases z <;> cases hz
    exact ⟨rfl, rfl⟩
  · obtain ⟨z, -, hz⟩ := Option.map_eq_some_iff.1 h
    cases hz
    exact ⟨rfl, rfl⟩
  · obtain ⟨z, -, hz⟩ := Option.map_eq_some_iff.1 h
    cases hz
    exact ⟨rfl, rfl⟩
  · cases h

/-- Operators on two numbers give neither null nor nothing. -/
theorem isKnown_of_numeric (h : numeric op p q = .ok w) : w.IsKnown := by
  unfold numeric at h
  dsimp only at h
  split at h
  · split at h
    · cases h
      exact ⟨rfl, rfl⟩
    · cases harith : arith? op _ _ with
      | none =>
        rw [harith] at h
        cases h
      | some result =>
        rw [harith, Option.getD_some] at h
        subst h
        exact isKnown_of_arith? harith
  · cases h

end Primitive

theorem Value.operand?_of_known {w : Primitive} (h : w.IsKnown) :
    (Value.primitive w).operand?.filter (fun p => !p.isVoid) = some w := by
  simp [Value.operand?, h.1, h.2, Option.filter]

/-! ## What is stored -/

/-- The number that an operator gives, in the kind of its first operand. -/
def Primitive.updated (op : BinaryOp) (p v : Primitive) : Except Primitive.Error Primitive := do
  (← Primitive.binary op p v).cast p.kind

/-- The outcome of an operation on numbers as a computation. -/
def Exec.number : Except Primitive.Error Primitive → Exec Value
  | .ok w => return .primitive w
  | .error e => fault (.primitive e)

/-- Stores the outcome of an operation on numbers. -/
def Evaluator.store (ev : Evaluator) (r : Reference) (result : Except Primitive.Error Primitive) : Exec Value := do
  ev.assign r (← number result)

section Stored

variable {op : BinaryOp} {p v : Primitive} (hp : p.kind.isNumeric = true) (hv : v.kind.isNumeric = true)

include hp hv

theorem Machine.combine_numbers (m : Machine) :
    m.combine op (.primitive p) (.primitive v) =
      match Primitive.binary op p v with
      | .ok w => .ok (.primitive w)
      | .error e => .error (.ofFault (.primitive e)) := by
  unfold Machine.combine
  rw [Primitive.operand?_of_numeric hp, Primitive.operand?_of_numeric hv]
  cases op <;> rfl

theorem Exec.combine_numbers : combine op (.primitive p) (.primitive v) = number (Primitive.binary op p v) := by
  funext m
  refine (get_bind m).trans ?_
  rw [Machine.combine_numbers hp hv]
  cases Primitive.binary op p v <;> rfl

/-- A compound assignment stores the result in the kind of the first operand, -/
theorem Exec.combined_numbers : combined op (.primitive p) (.primitive v) = number (p.updated op v) := by
  unfold combined Primitive.updated
  rw [combine_numbers hp hv]
  cases Primitive.binary op p v with
  | error e => rfl
  | ok w =>
    refine (pure_bind (Value.primitive w) _).trans ?_
    rw [Primitive.operand?_of_numeric hp]
    show _ = number (w.cast p.kind)
    dsimp only
    cases w.cast p.kind <;> rfl

/-- and this is what a cast gives. -/
theorem Exec.cast_numbers :
    (do cast (.primitive p.kind) (← combine op (.primitive p) (.primitive v))) = number (p.updated op v) := by
  unfold Primitive.updated
  rw [combine_numbers hp hv]
  cases hb : Primitive.binary op p v with
  | error e => rfl
  | ok w =>
    have hknown : w.IsKnown := Primitive.isKnown_of_numeric ((Primitive.binary_of_numeric op hp hv).symm.trans hb)
    funext m
    show Exec.cast (.primitive p.kind) (.primitive w) m = number (w.cast p.kind) m
    unfold Exec.cast
    rw [Value.operand?_of_known hknown]
    dsimp only
    cases w.cast p.kind <;> rfl

end Stored

/-! ## Variables that hold numbers -/

/-- A variable of a frame holds a number. -/
def Machine.HoldsNumber (m : Machine) (id : ScopeId) (name : String) (p : Primitive) : Prop :=
  p.kind.isNumeric = true ∧ ∃ f w, m.settle.store.arena.frame? id = some f ∧ f.vars.get? name = some w ∧
    w.value = .primitive p

section Variables

variable {m : Machine} {id : ScopeId} {name : String} {p : Primitive}

theorem Machine.HoldsNumber.read (h : m.HoldsNumber id name p) (ev : Evaluator) :
    ev.read (.variable id name) m = .ok (.primitive p) m.settle := by
  obtain ⟨-, f, w, hf, hw, hvalue⟩ := h
  have hframe : throughReference (frame id) m = .ok f m.settle := by
    unfold throughReference mapFailure
    rw [show frame id m = .ok f m.settle from look_of_ok (by rw [hf])]
  refine (bind_of_ok hframe).trans ?_
  rw [hw]
  dsimp only
  rw [hvalue]
  rfl

theorem Exec.look_settle {α : Type} (hq : m.settle.store.arena.dropped = []) (f : Arena → Except ScopeId α) :
    look f m.settle = look f m := by
  unfold look
  rw [settle_of_settled hq]

/-- Storing a number applies the queued releases first. -/
theorem Evaluator.store_settle (ev : Evaluator) (result : Except Primitive.Error Primitive)
    (hq : m.settle.store.arena.dropped = []) :
    SameEnd (ev.store (.variable id name) result m.settle) (ev.store (.variable id name) result m) := by
  cases result with
  | error e => exact ⟨rfl, settle_of_settled hq⟩
  | ok w =>
    have hframe : unlessFailed (.primitive w) (throughReference (frame id)) m.settle =
        unlessFailed (.primitive w) (throughReference (frame id)) m := by
      rw [unlessFailed_primitive]
      unfold throughReference mapFailure frame
      rw [look_settle hq]
    have hstore : ev.store (.variable id name) (.ok w) m.settle = ev.store (.variable id name) (.ok w) m := by
      show EStateM.bind _ _ m.settle = EStateM.bind _ _ m
      unfold EStateM.bind
      rw [hframe]
    rw [hstore]
    exact .refl _

end Variables

/-! ## The two forms -/

/-- The long form of a compound assignment to a name. -/
def Expr.expansion (span : Span) (x : String) (k : Kind) (op : BinaryOp) (e : Expr) : Expr :=
  .assign span (.name span x) none
    (.cast span ⟨k.name, 0⟩ (.group span (.binary span op (.name span x) e)))

theorem ValueType.ofTypeName_kind {k : Kind} (h : k.isNumeric = true) :
    ValueType.ofTypeName ⟨k.name, 0⟩ = .primitive k := by
  cases k <;> first | rfl | cases h

/-- An expression ends as its form does. -/
theorem evalExpr_end (n : Nat) (e : Expr) (m : Machine) :
    SameEnd (evalExpr (n + 1) e m) ((evaluator n).exprForm e m) := by
  rw [evalExpr]
  exact SameEnd.locating e.span (fun _ => e.describe) ((evaluator n).exprForm e) m

/-- Both operands of an operator that is no connective are evaluated. -/
theorem Evaluator.binary_eager (ev : Evaluator) {op : BinaryOp} (hand : op ≠ .and) (hor : op ≠ .or)
    (left right : Expr) : ev.binary op left right = (do
      let l ← ev.expr left
      holding l do
        let r ← ev.expr right
        holding r (combine op l r)) := by
  cases op <;> first | rfl | contradiction

section Names

variable {m : Machine} {r : Multiset Claim} {here id : ScopeId} {x : String}

/-- A place is the same when nothing is queued any more. -/
theorem referenceTo_settle (hq : m.settle.store.arena.dropped = [])
    (href : referenceTo here x m = .ok (.variable id x) m.settle) :
    referenceTo here x m.settle = .ok (.variable id x) m.settle.settle := by
  rw [settle_of_settled hq, ← href]
  show EStateM.bind _ _ m.settle = EStateM.bind _ _ m
  unfold EStateM.bind
  rw [look_settle hq]

/-- Reading the name of a variable copies its value. -/
theorem evalExpr_name [Trust] (h : m.Ready 0 r) (hhere : m.stack.head? = some here)
    (href : referenceTo here x m = .ok (.variable id x) m.settle) {f : Frame} {w : Variable}
    (hf : m.settle.store.arena.frame? id = some f) (hw : f.vars.get? x = some w) (n : Nat) (span : Span) :
    evalExpr (n + 1) (.name span x) m = .ok w.value (m.settle.retain w.value) := by
  have hsettled := h.settle.1
  have hlive := hsettled.ready.live (hsettled.pinned (h.kept.frames here (List.mem_of_head? hhere)))
  obtain ⟨frames, hlin⟩ := hsettled.ready.sound.frames.rooted here hlive
  rcases referenceTo_of_lineage x h hlin with ⟨id', href', hleads⟩ | ⟨bound, c, field, href', -⟩
  · obtain rfl : id' = id := by
      rw [href] at href'
      cases href'
      rfl
    obtain ⟨f', hmem, hf'⟩ := frame?_of_leadsTo hlin hleads
    obtain rfl : f' = f := Option.some.inj (hf'.symm.trans hf)
    have hzero : m.Ready (Value.primitive .null).claims r := h
    have hread := ((agreesOnVariable (evaluator n) hzero hlin hleads hmem hf).existing w hw).1
    have hform : (evaluator n).exprForm (.name span x) m = .ok w.value (m.settle.retain w.value) :=
      (bind_of_ok (scope_of_head hhere)).trans (bind_of_ok hread)
    have hend := evalExpr_end n (.name span x) m
    rw [hform] at hend
    exact hend.eq_ok
  · rw [href] at href'
    cases href'

end Names

section Forms

variable {m m1 : Machine} {r : Multiset Claim} (h : m.Ready 0 r) {here id : ScopeId} {x : String}
  (hhere : m.stack.head? = some here) (href : referenceTo here x m = .ok (.variable id x) m.settle) {n : Nat}
  {e : Expr} {v : Primitive} (he : evalExpr n e m.settle = .ok (.primitive v) m1) (hv : v.kind.isNumeric = true)

include h hhere href he hv

/-- The short form stores the outcome for the number that is in the variable after the operand. -/
theorem compound_end {q : Primitive} (hq : m1.HoldsNumber id x q) (span : Span) (op : BinaryOp) :
    SameEnd (evalExpr (n + 1) (.assign span (.name span x) (some op) e) m)
      ((evaluator n).store (.variable id x) (q.updated op v) m1) := by
  have hleaves := ((safe_evaluator n).expr e h.settle.1.ready).ok he
  have hreference : (evaluator n).reference (.name span x) m = .ok (.variable id x) m.settle :=
    (bind_of_ok (scope_of_head hhere)).trans href
  refine (evalExpr_end n _ m).trans (.trans ?_ (Evaluator.store_settle _ _ hleaves.1.ready.settle.2))
  have hrun : (evaluator n).assignment (.name span x) (some op) e m =
      (evaluator n).store (.variable id x) (q.updated op v) m1.settle := by
    refine (bind_of_ok hreference).trans ?_
    rw [show dropReference (.variable id x) = fun m => m from rfl, afterwards_self]
    refine (bind_of_ok he).trans ?_
    dsimp only
    rw [holding_primitive]
    refine (bind_of_ok (hq.read _)).trans ?_
    rw [holding_primitive, combined_numbers hq.1 hv]
    rfl
  exact hrun ▸ .refl _

/-- The long form stores the outcome for the number that is in the variable before the operand. -/
theorem expansion_end {p : Primitive} (hp : m.HoldsNumber id x p) (span : Span) {op : BinaryOp} (hand : op ≠ .and)
    (hor : op ≠ .or) :
    SameEnd (evalExpr (n + 4) (.expansion span x p.kind op e) m)
      ((evaluator n).store (.variable id x) (p.updated op v) m1) := by
  obtain ⟨hsettled, hq⟩ := h.settle
  have hidle : m.settle.settle = m.settle := settle_of_settled hq
  have hhere' : m.settle.stack.head? = some here := by rw [hsettled.alike.stack, hhere]
  -- the name and the operand
  have hname : evalExpr n (.name span x) m.settle = .ok (.primitive p) m.settle := by
    cases n with
    | zero => cases he
    | succ n =>
      obtain ⟨-, f, w, hf, hw, hvalue⟩ := hp
      have hread := evalExpr_name hsettled.ready hhere' (referenceTo_settle hq href) (by rw [hidle]; exact hf) hw n span
      rw [hidle, hvalue] at hread
      exact hread
  have hbinary : (evaluator n).binary op (.name span x) e m.settle = number (Primitive.binary op p v) m1 := by
    rw [Evaluator.binary_eager _ hand hor]
    refine (bind_of_ok hname).trans ?_
    rw [holding_primitive]
    refine (bind_of_ok he).trans ?_
    rw [holding_primitive, Exec.combine_numbers hp.1 hv]
  have hgroup : SameEnd (evalExpr (n + 2) (.group span (.binary span op (.name span x) e)) m.settle)
      (number (Primitive.binary op p v) m1) := by
    refine (evalExpr_end (n + 1) _ _).trans ((evalExpr_end n _ _).trans ?_)
    exact hbinary ▸ .refl _
  -- the type of the cast is known without looking it up
  have hhere1 : m1.stack.head? = some here := by
    rw [(((safe_evaluator n).expr e hsettled.ready).ok he).1.alike.stack, hhere']
  have hcast : SameEnd (evalExpr (n + 3) (.cast span ⟨p.kind.name, 0⟩
      (.group span (.binary span op (.name span x) e))) m.settle) (number (p.updated op v) m1) := by
    refine (evalExpr_end (n + 2) _ _).trans ((hgroup.bind _).trans ?_)
    rw [← cast_numbers hp.1 hv, Exec.combine_numbers hp.1 hv]
    cases Primitive.binary op p v with
    | error e => exact .refl _
    | ok w =>
      have htype : (do resolveType (← scope) ⟨p.kind.name, 0⟩) m1 = .ok (.primitive p.kind) m1 := by
        refine (bind_of_ok (scope_of_head hhere1)).trans ?_
        unfold resolveType
        rw [ValueType.ofTypeName_kind hp.1]
        rfl
      have hrun : (unlessFailed (.primitive w) (do resolveType (← scope) ⟨p.kind.name, 0⟩) >>= fun target =>
          Exec.cast target (.primitive w)) m1 = Exec.cast (.primitive p.kind) (.primitive w) m1 := by
        rw [unlessFailed_primitive]
        exact bind_of_ok htype
      show SameEnd ((unlessFailed (.primitive w) (do resolveType (← scope) ⟨p.kind.name, 0⟩) >>= fun target =>
        Exec.cast target (.primitive w)) m1) (Exec.cast (.primitive p.kind) (.primitive w) m1)
      rw [hrun]
      exact .refl _
  have hreference : (evaluator (n + 3)).reference (.name span x) m = .ok (.variable id x) m.settle :=
    (bind_of_ok (scope_of_head hhere)).trans href
  refine (evalExpr_end (n + 3) _ _).trans ?_
  have hrun : (evaluator (n + 3)).exprForm (.expansion span x p.kind op e) m =
      ((evaluator (n + 3)).expr (.cast span ⟨p.kind.name, 0⟩ (.group span (.binary span op (.name span x) e))) >>=
        (evaluator n).assign (.variable id x)) m.settle := by
    refine (bind_of_ok hreference).trans ?_
    rw [show dropReference (.variable id x) = fun m => m from rfl, afterwards_self]
    rfl
  rw [hrun]
  exact hcast.bind _

end Forms

/-- **A compound assignment reads its variable after its operand.** Let `e` have the number `v` as its value. Then
`x op= e` stores the outcome of the operator for the number `q` that is in `x` after the evaluation of `e`, and
`x = (k)(x op e)` does so for the number `p` that is there before. If the evaluation of `e` leaves the number in
`x` alone, the two have the same value and lead to the same state, or fail for the same reason. -/
theorem compound_assignment_reads_late {m m₁ : Machine} {r : Multiset Claim} (h : m.Ready 0 r) {here id : ScopeId}
    {x : String} (hhere : m.stack.head? = some here)
    (href : referenceTo here x m = .ok (.variable id x) m.settle) {p q v : Primitive} (hp : m.HoldsNumber id x p)
    {n : Nat} {e : Expr} (he : evalExpr n e m.settle = .ok (.primitive v) m₁) (hv : v.kind.isNumeric = true)
    (hq : m₁.HoldsNumber id x q) (span : Span) {op : BinaryOp} (hand : op ≠ .and) (hor : op ≠ .or) :
    let short := evalExpr (n + 1) (.assign span (.name span x) (some op) e) m
    let long := evalExpr (n + 4) (.expansion span x p.kind op e) m
    SameEnd short ((evaluator n).store (.variable id x) (q.updated op v) m₁) ∧
      SameEnd long ((evaluator n).store (.variable id x) (p.updated op v) m₁) ∧
      (p = q → SameEnd short long) := by
  have hshort := compound_end h hhere href he hv hq span op
  have hlong := expansion_end h hhere href he hv hp span hand hor
  refine ⟨hshort, hlong, ?_⟩
  rintro rfl
  exact hshort.trans hlong.symm

/-- A session in which `x` is one. -/
def counterSession : Session :=
  (Session.start {} ⟨fun _ => .directory⟩ "w" [] (Lang.classes.foldl Classes.register {})).after 9
    (.unit (.declaration default ⟨"int", 0⟩ [⟨"x", some (.literal default (.number (.int 1))), default⟩]))

/-- The operand `(x = 5)`. -/
def assignFive : Expr :=
  .group default (.assign default (.name default "x") none (.literal default (.number (.int 5))))

/-- Whether a variable holds an integer. -/
def Machine.holdsInt (m : Machine) (id : ScopeId) (name : String) (k : Int32) : Bool :=
  (m.settle.store.arena.frame? id).any fun f => (f.vars.get? name).any fun w =>
    match w.value with
    | .primitive (.int n) => n == k
    | _ => false

theorem Machine.holdsNumber_of_holdsInt {m : Machine} {id : ScopeId} {name : String} {k : Int32}
    (h : m.holdsInt id name k = true) : m.HoldsNumber id name (.int k) := by
  obtain ⟨f, hf, h⟩ := (Option.any_eq_true _ _).1 h
  obtain ⟨w, hw, h⟩ := (Option.any_eq_true _ _).1 h
  refine ⟨rfl, f, w, hf, hw, ?_⟩
  split at h
  · rename_i n hn
    rw [hn, eq_of_beq h]
  · cases h

/-- Whether a name was found as a variable of a frame. -/
def foundIn (id : ScopeId) : Exec.Result Reference → Bool
  | .ok (.variable k _) _ => k == id
  | _ => false

/-- Whether a computation gives an integer and a variable holds it afterwards. -/
def givesAndHolds (id : ScopeId) (name : String) (k : Int32) : Exec.Result Value → Bool
  | .ok (.primitive (.int n)) m => n == k && m.holdsInt id name k
  | _ => false

/-- `x += (x = 5)` gives ten where `x = (int)(x + (x = 5))` gives six. -/
theorem assigned_in_operand : ∃ id m₁,
    counterSession.machine.HoldsNumber id "x" (.int 1) ∧ m₁.HoldsNumber id "x" (.int 5) ∧
      SameEnd (evalExpr 9 (.assign default (.name default "x") (some .add) assignFive) counterSession.machine)
        ((evaluator 8).store (.variable id "x") (.ok (.int 10)) m₁) ∧
      SameEnd (evalExpr 12 (.expansion default "x" .int .add assignFive) counterSession.machine)
        ((evaluator 8).store (.variable id "x") (.ok (.int 6)) m₁) := by
  have hreach : counterSession.Reachable :=
    .step (.start _ _ _ _ (Lang.honest_classes _)) (.call 9 (admits_unit _ _))
  have hready := (Session.good_of_reachable hreach).ready (Multiset.zero_le _)
  rw [tsub_zero] at hready
  have hsettled := hready.settle.1
  have hlive := hsettled.ready.live (hsettled.pinned hready.kept.global)
  have hhere : counterSession.machine.stack.head? = some counterSession.machine.global := by decide +kernel
  have hbefore : counterSession.machine.holdsInt counterSession.machine.global "x" 1 = true := by decide +kernel
  have hplace : foundIn counterSession.machine.global
      (referenceTo counterSession.machine.global "x" counterSession.machine) = true := by decide +kernel
  have hoperand : givesAndHolds counterSession.machine.global "x" 5
      (evalExpr 8 assignFive counterSession.machine.settle) = true := by decide +kernel
  obtain ⟨frames, hlin⟩ := hsettled.ready.sound.frames.rooted _ hlive
  rcases referenceTo_of_lineage "x" hready hlin with ⟨id, href, -⟩ | ⟨bound, c, field, href, -⟩
  · rw [href] at hplace
    obtain rfl : id = counterSession.machine.global := eq_of_beq hplace
    unfold givesAndHolds at hoperand
    split at hoperand
    · rename_i n m₁ hrun
      obtain ⟨hn, hafter⟩ := Bool.and_eq_true_iff.1 hoperand
      obtain rfl : n = 5 := eq_of_beq hn
      have hp := Machine.holdsNumber_of_holdsInt hbefore
      have hq := Machine.holdsNumber_of_holdsInt hafter
      obtain ⟨hshort, hlong, -⟩ := compound_assignment_reads_late hready hhere href hp hrun rfl hq default
        (show BinaryOp.add ≠ .and by decide) (by decide)
      exact ⟨_, m₁, hp, hq, hshort, hlong⟩
    · cases hoperand
  · rw [href] at hplace
    cases hplace

end HostScript
