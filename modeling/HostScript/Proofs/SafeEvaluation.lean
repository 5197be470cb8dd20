import HostScript.Proofs.SafeDispatch

/-!
# Evaluation is safe

Every step of the evaluation of an expression or a statement is safe, given that the evaluation of its
parts is, and so evaluation is safe with any allowance (`safe_evaluator`).
-/

set_option autoImplicit false

namespace HostScript

open Machine

namespace Exec

variable [Holding] {m : Machine} {r : Multiset Claim} {here : ScopeId}

/-! ## Pieces that evaluate nothing -/

omit [Holding] in
/-- The result of an operator is a primitive or a text. -/
theorem claims_combine {op : BinaryOp} {left right v : Value} (h : m.combine op left right = .ok v) :
    v.claims = 0 := by
  unfold Machine.combine at h
  extract_lets joins at h
  by_cases hj : joins = true
  · rw [if_pos hj] at h
    split at h
    · cases h
      rfl
    · cases h
  · rw [if_neg hj] at h
    split at h
    · split at h
      · cases h
        rfl
      · cases h
    · split at h <;> cases h <;> rfl

theorem ends_combine (op : BinaryOp) (left right : Value) (h : m.Ready 0 r) :
    Owns r Value.claims m (combine op left right) := by
  refine Ends.get ?_
  cases hv : m.combine op left right with
  | ok v => exact .pure (by rw [claims_combine hv]; exact h) trivial
  | error failure =>
    rcases Machine.combine_failure hv with ⟨cause, rfl⟩ | rfl
    · exact .fault h cause
    · exact .throw h trivial

theorem ends_combined (op : BinaryOp) (current value : Value) (h : m.Ready 0 r) :
    Owns r Value.claims m (combined op current value) := by
  refine (ends_combine op current value h).bind fun result m1 h1 _ => ?_
  split
  · split
    · exact .pure h1.ready trivial
    · exact .fault h1.ready _
  · exact .pure h1.ready trivial

theorem ends_thisObject (h : m.Ready 0 r) : Owns r Value.claims m thisObject := by
  refine Ends.here h fun here hhere => ?_
  refine (ends_home h hhere).bind fun home m1 h1 hhome => ?_
  exact (ends_objectFor h1.ready hhome).imp fun _ _ _ _ => trivial

theorem ends_outerObject (h : m.Ready 0 r) : Owns r Value.claims m outerObject := by
  refine Ends.here h fun here hhere => ?_
  refine (ends_home h hhere).bind fun home m2 h2 hhome => ?_
  refine (ends_frame h2.ready hhome).bind fun f m3 h3 hf => ?_
  split
  · exact .fault h3.ready _
  · rename_i parent hparent
    have hp : m3.store.Pinned r parent := .parent (h3.pinned hhome) ⟨f, hf.1, hparent⟩
    refine (ends_home h3.ready hp).bind fun home' m4 h4 hhome' => ?_
    exact (ends_objectFor h4.ready hhome').imp fun _ _ _ _ => trivial

theorem ends_resolveHere (type : TypeName) (h : m.Ready 0 r) :
    Owns r (fun _ => 0) m (do resolveType (← scope) type) := by
  exact Ends.here h fun here hhere => ends_qualify _ h hhere

/-- Imports move no claim. -/
theorem ends_importClass (path : String) (h : m.Ready 0 r) (hs : m.store.Pinned r here) :
    Owns r (fun _ => 0) m (importClass here path) := by
  refine Ends.get ?_
  split
  · exact .fault h _
  · exact ends_changeFrame h hs (accounts_of_same 0 (fun _ => rfl) (fun _ => rfl) (fun _ => rfl)
      (fun _ => rfl) fun _ => rfl)

theorem ends_importPackage (path : String) (h : m.Ready 0 r) (hs : m.store.Pinned r here) :
    Owns r (fun _ => 0) m (importPackage here path) := by
  -- both branches give back the same frame but for its imports
  have hchange : (fun f : Frame => if f.packageImports.contains path then (f, none, ())
      else ({ f with packageImports := f.packageImports ++ [path] }, (none : Option Value), ())) =
      fun f => (if f.packageImports.contains path then f
        else { f with packageImports := f.packageImports ++ [path] }, none, ()) := by
    funext f
    split <;> rfl
  unfold importPackage
  rw [hchange]
  refine ends_changeFrame h hs (accounts_of_same 0 ?_ ?_ ?_ ?_ ?_) <;>
    · intro f
      split <;> rfl

/-! ## Loops -/

/-- A computation that is safe wherever it starts, as long as the same is kept. -/
def SafeUnder {α : Type} (r : Multiset Claim) (own : α → Multiset Claim) (x : Exec α) : Prop :=
  ∀ m : Machine, m.Ready 0 r → Ends r own m (fun _ _ => True) x

variable {test : Exec Bool} {body : Exec Flow} {update : Exec Unit}

theorem ends_loop (htest : SafeUnder r (fun _ => 0) test) (hbody : SafeUnder r Flow.claims body)
    (hupdate : SafeUnder r (fun _ => 0) update) (rounds : Nat) :
    SafeUnder r Flow.claims (loop test body update rounds) := by
  induction rounds with
  | zero => exact fun m h => .throw h trivial
  | succ rounds ih =>
    intro m h
    refine (htest m h).bind fun go m1 h1 _ => ?_
    cases go with
    | false => exact .pure h1.ready trivial
    | true =>
      refine (hbody m1 h1.ready).bind fun flow m2 h2 _ => ?_
      have hready2 := h2.ready
      cases flow with
      | broke => exact .pure hready2 trivial
      | returned v => exact .pure hready2 trivial
      | normal v =>
        rw [Flow.claims_normal] at hready2
        refine (ends_dropLast hready2).bind fun _ m3 h3 _ => ?_
        exact (hupdate m3 h3.ready).bind fun _ m4 h4 _ => ih m4 h4.ready
      | continued => exact (hupdate m2 hready2).bind fun _ m3 h3 _ => ih m3 h3.ready

theorem ends_loopAfter (hbody : SafeUnder r Flow.claims body)
    (htest : SafeUnder r (fun _ => 0) test) (rounds : Nat) :
    SafeUnder r Flow.claims (loopAfter body test rounds) := by
  induction rounds with
  | zero => exact fun m h => .throw h trivial
  | succ rounds ih =>
    have hnext : SafeUnder r Flow.claims (do
        if ← test then loopAfter body test rounds else return .done) := by
      intro m h
      refine (htest m h).bind fun go m1 h1 _ => ?_
      cases go with
      | false => exact .pure h1.ready trivial
      | true => exact ih m1 h1.ready
    intro m h
    refine (hbody m h).bind fun flow m1 h1 _ => ?_
    have hready1 := h1.ready
    cases flow with
    | broke => exact .pure hready1 trivial
    | returned v => exact .pure hready1 trivial
    | normal v =>
      rw [Flow.claims_normal] at hready1
      exact (ends_dropLast hready1).bind fun _ m2 h2 _ => hnext m2 h2.ready
    | continued => exact hnext m1 hready1

end Exec

namespace Evaluator

open Exec

variable [Holding] {ev : Evaluator} (hev : ev.Safe) {m : Machine} {r : Multiset Claim}
  {here : ScopeId}

include hev

/-! ## Expressions -/

theorem ends_condition (e : Expr) : SafeUnder r (fun _ => 0) (ev.condition e) := by
  intro m h
  refine (hev.expr e h).bind fun value m1 h1 _ => ?_
  refine Ends.holding h1.ready fun hlent => ?_
  split
  · exact .pure hlent trivial
  · exact (Ends.fault hlent _).locating _ _

theorem ends_argsFrom (es : List Expr) : ∀ {m : Machine} {done : List Value},
    m.Ready (claimsOf done) r → Owns r claimsOf m (ev.argsFrom done es) := by
  induction es with
  | nil =>
    intro m done h
    exact .pure (by rwa [claimsOf_reverse]) trivial
  | cons e rest ih =>
    intro m done h
    rw [← claimsOf_reverse, ← zero_add (claimsOf _)] at h
    refine (Ends.orDropAll h fun hlent => hev.expr e hlent).bind fun v m1 h1 _ => ih ?_
    rw [claimsOf_cons, ← claimsOf_reverse done]
    exact h1.ready

theorem ends_args (es : List Expr) (h : m.Ready 0 r) : Owns r claimsOf m (ev.args es) :=
  ends_argsFrom hev es h

theorem ends_itemsFrom (element : ValueType) (es : List Expr) :
    ∀ {m : Machine} {done : List Value}, m.Ready (claimsOf done) r →
      Owns r claimsOf m (ev.itemsFrom element done es) := by
  induction es with
  | nil =>
    intro m done h
    exact .pure (by rwa [claimsOf_reverse]) trivial
  | cons e rest ih =>
    intro m done h
    rw [← claimsOf_reverse, ← zero_add (claimsOf _)] at h
    refine (Ends.orDropAll h fun hlent => (hev.expr e hlent).bind fun v m1 h1 _ =>
      ends_coerce element .storing h1.ready).bind fun v m1 h1 _ => ih ?_
    rw [claimsOf_cons, ← claimsOf_reverse done]
    exact h1.ready

theorem ends_readPath (members : List String) : ∀ {m : Machine} {value : Value},
    m.Ready value.claims r → Owns r Value.claims m (ev.readPath value members) := by
  induction members with
  | nil => exact fun h => .pure h trivial
  | cons member rest ih =>
    intro m value h
    refine (Ends.holding h fun hlent => ends_readMember hev member hlent
      fun k hk => Multiset.mem_add.2 (.inl hk)).bind fun next m1 h1 _ => ih h1.ready

theorem ends_classPathFrom (segments : List String) (n : Nat) :
    ∀ {m : Machine}, m.Ready 0 r → m.store.Pinned r here →
      Owns r (fun found => found.elim 0 Value.claims) m (ev.classPathFrom here segments n) := by
  induction n with
  | zero => exact fun h _ => .pure h trivial
  | succ n ih =>
    intro m h hs
    refine (ends_lookupClass h hs _).bind fun found m1 h1 _ => ?_
    cases found with
    | none => exact ih h1.ready (h1.pinned hs)
    | some c =>
      refine (ends_readPath hev _ (?_ : m1.Ready c.value.claims r)).bind fun v m2 h2 _ =>
        .pure h2.ready trivial
      exact h1.ready

theorem ends_classPath (path : String) (h : m.Ready 0 r) :
    Owns r (fun found => found.elim 0 Value.claims) m (ev.classPath path) := by
  refine Ends.here h fun here hhere => ?_
  refine (ends_valueOf? hev _ h hhere).bind fun found m2 h2 _ => ?_
  have hready2 := h2.ready
  cases found with
  | some v =>
    rw [Option.elim_some] at hready2
    exact (ends_dropLast hready2).bind fun _ m3 h3 _ => .pure h3.ready trivial
  | none => exact ends_classPathFrom hev _ _ hready2 (h2.pinned hhere)

/-- The claim of the array moves into the place. -/
theorem ends_elementReference (target index : Expr) (h : m.Ready 0 r) :
    Ends r Reference.claims m (fun ref _ => ref.Of m.classes) (ev.elementReference target index) := by
  refine (hev.expr target h).bind fun array m1 h1 _ => ?_
  refine Ends.givingBack h1.ready fun hlent => ?_
  split
  · rename_i cell type
    refine (hev.expr index hlent).bind fun position m2 h2 _ => ?_
    refine Ends.holding h2.ready fun hlent2 => ?_
    split
    · exact .fault hlent2 _
    · split
      · exact Ends.get (.fault hlent2 _)
      · exact .pure hlent2 ⟨by simp [Reference.claims, Reference.owned?], trivial⟩
  · exact .fault hlent _

theorem ends_reference (target : Expr) (h : m.Ready 0 r) :
    Ends r Reference.claims m (fun ref _ => ref.Of m.classes) (ev.reference target) := by
  fun_induction reference ev target generalizing m with
  | case1 span name =>
    exact Ends.here h fun here hhere =>
      (ends_referenceTo name h hhere).imp fun _ _ hl href => hl.alike.classes ▸ href.of
  | case2 span target member =>
    refine (hev.expr target h).bind fun object m1 h1 _ => ?_
    exact Ends.holding h1.ready fun hlent => (ends_memberReference member hlent
      fun k hk => Multiset.mem_add.2 (.inl hk)).imp fun _ _ hl href =>
        (hl.alike.classes.trans h1.alike.classes) ▸ href.of
  | case3 span target index => exact ends_elementReference hev target index h
  | case4 span inner ih => exact ih h
  | case5 => exact (Ends.fault h _).locating _ _

/-- A computation on a place relies on the claim of the object that the place is in. -/
theorem ends_withReference {x : Reference → Exec Value} (target : Expr) (h : m.Ready 0 r)
    (hx : ∀ ref m', ref.Of m'.classes → m'.Ready 0 (ref.claims + r) →
      Owns (ref.claims + r) Value.claims m' (x ref)) :
    Owns r Value.claims m (ev.withReference target x) := by
  refine (ends_reference hev target h).bind fun ref m1 h1 href => ?_
  have hready1 := h1.ready
  rw [← zero_add ref.claims] at hready1
  exact Ends.usingReference hready1 fun hlent => hx ref m1 (h1.alike.classes ▸ href) hlent

theorem ends_assignment (target : Expr) (op : Option BinaryOp) (value : Expr) (h : m.Ready 0 r) :
    Owns r Value.claims m (ev.assignment target op value) := by
  refine ends_withReference hev target h fun ref m1 href hready => ?_
  refine (hev.expr value hready).bind fun v m2 h2 _ => ?_
  have hready2 := h2.ready
  have href2 : ref.Of m2.classes := h2.alike.classes ▸ href
  have hkept : ∀ k ∈ ref.claims, k ∈ ref.claims + r := fun k hk => Multiset.mem_add.2 (.inl hk)
  cases op with
  | none => exact ends_assign hev href2 hready2 hkept
  | some op =>
    have hlentKept : ∀ k ∈ ref.claims, k ∈ v.claims + (ref.claims + r) :=
      fun k hk => Multiset.mem_add.2 (.inr (hkept k hk))
    -- the right-hand side is held while the place is read, and the place is read only now
    refine Ends.holding hready2 fun hlent => ?_
    refine (ends_read hev href2 hlent hlentKept).bind fun current m3 h3 _ => ?_
    refine (Ends.holding h3.ready fun hl => ends_combined op current v hl).bind fun stored m4 h4 _ => ?_
    exact ends_assign hev ((h4.alike.classes.trans h3.alike.classes) ▸ href2) h4.ready hlentKept

theorem ends_stepped (step : Step) (target : Expr) (before : Bool) (h : m.Ready 0 r) :
    Owns r Value.claims m (ev.stepped step target before) := by
  refine ends_withReference hev target h fun ref m1 href hready => ?_
  have hkept : ∀ k ∈ ref.claims, k ∈ ref.claims + r := fun k hk => Multiset.mem_add.2 (.inl hk)
  refine (ends_read hev href hready hkept).bind fun current m2 h2 _ => ?_
  refine Ends.givingBack h2.ready fun hlent => ?_
  split
  · rename_i p
    split
    · split
      · rename_i next _
        refine (ends_assign hev (h2.alike.classes ▸ href) (?_ : m2.Ready (Value.primitive next).claims _)
          fun k hk => Multiset.mem_add.2 (.inr (hkept k hk))).bind fun w m3 h3 _ => ?_
        · exact hlent
        · refine (ends_dropLast h3.ready).bind fun _ m4 h4 _ => .pure h4.ready ⟨?_, trivial⟩
          cases before <;> rfl
      · exact .fault hlent _
    · exact .fault hlent _
  · exact .fault hlent _

theorem ends_binary (op : BinaryOp) (left right : Expr) (h : m.Ready 0 r) :
    Owns r Value.claims m (ev.binary op left right) := by
  unfold binary
  split
  · refine (ends_condition hev left m h).bind fun go m1 h1 _ => ?_
    cases go with
    | false => exact .pure h1.ready trivial
    | true =>
      exact (ends_condition hev right m1 h1.ready).bind fun _ m2 h2 _ => .pure h2.ready trivial
  · refine (ends_condition hev left m h).bind fun go m1 h1 _ => ?_
    cases go with
    | true => exact .pure h1.ready trivial
    | false =>
      exact (ends_condition hev right m1 h1.ready).bind fun _ m2 h2 _ => .pure h2.ready trivial
  · refine (hev.expr left h).bind fun l m1 h1 _ => ?_
    refine Ends.holding h1.ready fun hlent => ?_
    refine (hev.expr right hlent).bind fun w m2 h2 _ => ?_
    exact Ends.holding h2.ready fun hlent2 => ends_combine op l w hlent2

/-- The value of a field, or of a path that starts with a class name. -/
theorem ends_field (span : Span) (target : Expr) (member : String) (h : m.Ready 0 r) :
    Owns r Value.claims m (ev.exprForm (.field span target member)) := by
  have hmember : ∀ {m : Machine}, m.Ready 0 r → Owns r Value.claims m (do
      let object ← ev.expr target
      holding object (ev.readMember object member)) := by
    intro m h
    refine (hev.expr target h).bind fun object m1 h1 _ => ?_
    exact Ends.holding h1.ready fun hlent => ends_readMember hev member hlent
      fun k hk => Multiset.mem_add.2 (.inl hk)
  unfold exprForm
  dsimp only
  split
  · refine (ends_classPath hev _ h).bind fun found m1 h1 _ => ?_
    cases found with
    | some v => exact .pure h1.ready trivial
    | none => exact hmember h1.ready
  · exact hmember h

theorem ends_exprForm (e : Expr) (h : m.Ready 0 r) : Owns r Value.claims m (ev.exprForm e) := by
  cases e with
  | literal span value => exact .pure (by cases value <;> exact h) trivial
  | name span name =>
    refine Ends.here h fun here hhere => ?_
    refine (ends_valueOf? hev name h hhere).bind fun found m2 h2 _ => ?_
    cases found with
    | some v => exact .pure h2.ready trivial
    | none => exact .fault h2.ready _
  | this span => exact ends_thisObject h
  | super span => exact ends_outerObject h
  | binary span op left right => exact ends_binary hev op left right h
  | unary span op operand =>
    refine (hev.expr operand h).bind fun v m1 h1 _ => ?_
    refine Ends.holding h1.ready fun hlent => ?_
    split
    · exact .fault hlent _
    · split
      · exact .pure hlent trivial
      · exact .fault hlent _
  | assign span target op value => exact ends_assignment hev target op value h
  | preStep span step target => exact ends_stepped hev step target true h
  | postStep span step target => exact ends_stepped hev step target false h
  | conditional span c yes no =>
    refine (ends_condition hev c m h).bind fun go m1 h1 _ => ?_
    cases go with
    | true => exact hev.expr yes h1.ready
    | false => exact hev.expr no h1.ready
  | call span name es =>
    exact (ends_args hev es h).bind fun args m1 h1 _ => ends_invoke hev name h1.ready
  | methodCall span target name es =>
    refine (hev.expr target h).bind fun receiver m1 h1 _ => ?_
    refine Ends.holding h1.ready fun hlent => ?_
    exact (ends_args hev es hlent).bind fun args m2 h2 _ =>
      ends_invokeOn hev name h2.ready fun k hk => Multiset.mem_add.2 (.inl hk)
  | field span target member => exact ends_field hev span target member h
  | index span target index =>
    refine (ends_elementReference hev target index h).bind fun ref m1 h1 href => ?_
    have hready1 := h1.ready
    rw [← zero_add ref.claims] at hready1
    exact Ends.usingReference hready1 fun hlent =>
      ends_read hev (h1.alike.classes ▸ href) hlent
      fun k hk => Multiset.mem_add.2 (.inl hk)
  | new span type es =>
    refine Ends.here h fun here hhere => ?_
    refine (ends_lookupClass h hhere type.name).bind fun found m2 h2 hfound => ?_
    cases found with
    | none => exact .fault h2.ready _
    | some c =>
      exact (ends_args hev es h2.ready).bind fun args m3 h3 _ =>
        ends_construct hev (h3.alike.classes ▸ h2.alike.classes ▸ hfound.1 c rfl) h3.ready
  | newArray span element length =>
    refine Ends.here h fun here hhere => ?_
    refine (ends_qualify _ h hhere).bind fun type m2 h2 _ => ?_
    refine (hev.expr length h2.ready).bind fun v m3 h3 _ => ?_
    refine Ends.holding h3.ready fun hlent => ?_
    split
    · exact .fault hlent _
    · split
      · exact .fault hlent _
      · refine ends_makeArray ?_
        rwa [claimsOf_replicate_initial]
  | arrayInit span element es =>
    refine Ends.here h fun here hhere => ?_
    refine (ends_qualify _ h hhere).bind fun type m2 h2 _ => ?_
    have hnone : m2.Ready (claimsOf []) r := h2.ready
    exact (ends_itemsFrom hev type es hnone).bind fun items m3 h3 _ => ends_makeArray h3.ready
  | cast span type operand =>
    refine (hev.expr operand h).bind fun v m1 h1 _ => ?_
    have hready1 := h1.ready
    rw [← zero_add v.claims] at hready1
    refine (Ends.unlessFailed hready1 fun hlent => ends_resolveHere type hlent).bind
      fun target m2 h2 _ => ?_
    have hready2 := h2.ready
    rw [zero_add] at hready2
    exact ends_cast target hready2
  | group span inner => exact hev.expr inner h

/-! ## Statements -/

theorem ends_effects (es : List Expr) : SafeUnder r (fun _ => 0) (ev.effects es) := by
  induction es with
  | nil => exact fun m h => .pure h trivial
  | cons e rest ih =>
    intro m h
    refine (hev.expr e h).bind fun v m1 h1 _ => ?_
    exact (ends_dropLast h1.ready).bind fun _ m2 h2 _ => ih m2 h2.ready

theorem ends_runAll (ss : List Stmt) : SafeUnder r (fun _ => 0) (ev.runAll ss) := by
  induction ss with
  | nil => exact fun m h => .pure h trivial
  | cons s rest ih =>
    intro m h
    refine (hev.stmt s h).bind fun flow m1 h1 _ => ?_
    have hready1 := h1.ready
    rw [← add_zero flow.claims] at hready1
    exact (ends_discard hready1).bind fun _ m2 h2 _ => ih m2 h2.ready

theorem ends_runRound (type : Option ValueType) (binding : String) (body : Stmt) {item : Value}
    (h : m.Ready item.claims r) :
    Owns r Flow.claims m (ev.runRound type binding body item) := by
  refine Ends.here h fun frame hframe => ?_
  have hbound : ∀ v {m2 : Machine}, m.Leaves r (Value.claims v) m2 → Owns r Flow.claims m2 (do
        define frame binding v type
        ev.stmt body) := by
    intro v m2 h2
    exact (ends_defineLast h2.ready (h2.pinned hframe)).bind fun _ m3 h3 _ =>
      hev.stmt body h3.ready
  cases type with
  | some t => exact (ends_coerce t .storing h).bind fun v m2 h2 _ => hbound v h2
  | none => exact hbound item (.refl h)

/-- The items that are left stay owned by the loop while a round runs. -/
theorem ends_forItems {parent : ScopeId} (type : Option ValueType) (binding : String) (body : Stmt)
    (items : List Value) : ∀ {m : Machine}, m.Ready (claimsOf items) r → m.store.Pinned r parent →
      Owns r Flow.claims m (ev.forItems parent type binding body items) := by
  induction items with
  | nil => exact fun h _ => .pure h trivial
  | cons item rest ih =>
    intro m h hs
    rw [claimsOf_cons] at h
    -- each round has a frame of its own, which takes over one item
    refine (Ends.orDropAll h fun hlent => Ends.inFrame
      (balanced_runRound hev.balanced type binding body item) hlent hs.lend
      (hev.confined.imp_right fun ht => ⟨ht.1 hlent.kept.classes, fun ok hitem =>
        confines_flow (Discipline.runRound type binding (Value.confined_of_claims hitem)
          fun _ => (ht.2 ok).stmt body)⟩)
      fun _ _ _ _ hready => ends_runRound hev type binding body hready).bind
      fun flow m1 h1 _ => ?_
    have hready1 := h1.ready
    cases flow with
    | broke | returned =>
      rw [add_comm] at hready1
      exact (ends_dropAll hready1).bind fun _ m2 h2 _ => .pure h2.ready trivial
    | normal v =>
      rw [Flow.claims_normal] at hready1
      exact (ends_drop hready1).bind fun _ m2 h2 _ => ih h2.ready (h2.pinned (h1.pinned hs))
    | continued =>
      rw [Flow.claims_continued, zero_add] at hready1
      exact ih hready1 (h1.pinned hs)

theorem ends_forEach (type : Option TypeName) (binding : String) (iterable : Expr) (body : Stmt)
    (h : m.Ready 0 r) :
    Owns r Flow.claims m (ev.forEach type binding iterable body) := by
  refine (hev.expr iterable h).bind fun source m1 h1 _ => ?_
  refine Ends.holding h1.ready fun hlent => ?_
  -- the items are copies, so what the body does to the source does not change the rounds
  have hrounds : ∀ items {m2 : Machine}, m2.Ready (claimsOf items) (source.claims + r) →
      Owns (source.claims + r) Flow.claims m2 (do
        let parent ← onFailure scope (·.dropAll items)
        let type ← onFailure (resolveType? parent type) (·.dropAll items)
        ev.forItems parent type binding body items) := by
    intro items m2 h2
    rw [← zero_add (claimsOf items)] at h2
    refine (Ends.orDropAll h2 fun hl => ends_scope hl).bind fun parent m3 h3 hscope => ?_
    obtain ⟨rfl, hhead, -⟩ := hscope
    -- what pins the current frame are the claims of others, not the items
    have hparent := h2.kept.frames parent (List.mem_of_mem_head? hhead)
    refine (Ends.orDropAll h3.ready fun hl => ends_resolveType? type hl hparent.lend).bind
      fun type m4 h4 _ => ends_forItems hev type binding body items ?_ (h4.pinned hparent)
    rw [← zero_add (claimsOf items)]
    exact h4.ready
  split
  · rename_i cell element
    refine Ends.get ((ends_copyAll hlent ?_).bind fun items m2 h2 _ => hrounds items ?_)
    · exact hlent.holds_items cell
    · have hready2 := h2.ready
      rwa [add_zero] at hready2
  · refine hrounds _ ?_
    rwa [claimsOf_chars]
  · exact Ends.failing ((Ends.fault hlent _).locating _ _)

theorem ends_declareVariables (type : ValueType) (ds : List Declarator) :
    ∀ {m : Machine}, m.Ready 0 r → m.store.Pinned r here →
      Owns r (fun _ => 0) m (ev.declareVariables here type ds) := by
  induction ds with
  | nil => exact fun h _ => .pure h trivial
  | cons d rest ih =>
    intro m h hs
    have hdeclare : ∀ v {m1 : Machine}, m.Leaves r (Value.claims v) m1 → Owns r (fun _ => 0) m1 (do
          let v ← locating d.span (fun _ => s!"declaration of `{d.name}`") (coerce type v .storing)
          define here d.name v (some type)
          ev.declareVariables here type rest) := by
      intro v m1 h1
      refine ((ends_coerce type .storing h1.ready).locating _ _).bind fun w m2 h2 _ => ?_
      have hs2 := h2.pinned (h1.pinned hs)
      exact (ends_defineLast h2.ready hs2).bind fun _ m3 h3 _ => ih h3.ready (h3.pinned hs2)
    unfold declareVariables
    split
    · exact (hev.expr _ h).bind fun v m1 h1 _ => hdeclare v h1
    · refine hdeclare type.initial ?_
      rw [Value.claims_initial]
      exact .refl h

theorem ends_runFor (init : List Stmt) (c : Option Expr) (update : List Expr) (body : Stmt)
    (rounds : Nat) : SafeUnder r Flow.claims (ev.runFor init c update body rounds) := by
  intro m h
  refine (ends_runAll hev init m h).bind fun _ m1 h1 _ => ?_
  refine ends_loop ?_ (fun _ h => hev.stmt body h) (ends_effects hev update) rounds m1 h1.ready
  cases c with
  | some c => exact ends_condition hev c
  | none => exact fun m h => .pure h trivial

theorem ends_stmtStep (rounds : Nat) (s : Stmt) (h : m.Ready 0 r) :
    Owns r Flow.claims m (ev.stmtStep rounds s) := by
  cases s with
  | expr span e =>
    refine (hev.expr e h).bind fun v m1 h1 _ => .pure ?_ trivial
    rw [Flow.claims_normal]
    exact h1.ready
  | declaration span type ds =>
    refine Ends.here h fun here hhere => ?_
    refine (ends_qualify _ h hhere).bind fun type m2 h2 _ => ?_
    exact (ends_declareVariables hev type ds h2.ready (h2.pinned hhere)).bind
      fun _ m3 h3 _ => .pure h3.ready trivial
  | method span name params returns body =>
    exact (ends_declare name params returns body h).bind fun _ m1 h1 _ => .pure h1.ready trivial
  | block span body => exact ends_runBlock hev body h
  | ifElse span c yes no =>
    refine (ends_condition hev c m h).bind fun go m1 h1 _ => ?_
    cases go with
    | true => exact hev.stmt yes h1.ready
    | false =>
      cases no with
      | some other => exact hev.stmt other h1.ready
      | none => exact .pure h1.ready trivial
  | whileLoop span c body =>
    exact ends_loop (ends_condition hev c) (fun _ h => hev.stmt body h)
      (fun _ h => .pure h trivial) rounds m h
  | doWhile span body c =>
    exact ends_loopAfter (fun _ h => hev.stmt body h) (ends_condition hev c) rounds m h
  | forLoop span init c update body =>
    refine Ends.here h fun parent hparent => ?_
    refine Ends.inFrame (balanced_runFor hev.balanced init c update body rounds) h hparent
      (hev.confined.imp_right fun ht => ⟨ht.1 h.kept.classes, fun ok _ => ?_⟩)
      fun _ m2 _ _ hready => ends_runFor hev init c update body rounds m2 hready
    have hthreaded := ht.2 ok
    exact confines_flow (Discipline.runFor (fun s _ _ => hthreaded.stmt s)
      (fun e _ => ⟨trivial, fun _ => hthreaded.expr e⟩) (fun e _ => ⟨trivial, fun _ => hthreaded.expr e⟩)
      (fun _ => hthreaded.stmt body) (fun _ => Woven.given ⟨_, trivial, rfl⟩) rounds)
  | forEach span type binding iterable body => exact ends_forEach hev type binding iterable body h
  | returnValue span value =>
    cases value with
    | none => exact .pure h trivial
    | some e =>
      refine (hev.expr e h).bind fun v m1 h1 _ => .pure ?_ trivial
      rw [Flow.claims_returned]
      exact h1.ready
  | breakLoop span => exact .pure h trivial
  | continueLoop span => exact .pure h trivial
  | importName span path wildcard =>
    refine Ends.here h fun here hhere => ?_
    cases wildcard with
    | true =>
      exact (ends_importPackage path h hhere).bind fun _ m2 h2 _ => .pure h2.ready trivial
    | false =>
      exact ((ends_importClass path h hhere).locating _ _).bind fun _ m2 h2 _ => .pure h2.ready trivial
  | empty span => exact .pure h trivial

end Evaluator

/-- **Evaluation is safe with any allowance.** -/
theorem safe_evaluator (allowance : Nat) : (evaluator allowance).Safe := by
  induction allowance with
  | zero =>
    refine ⟨balanced_evaluator 0, fun e m r h => ?_, fun s m r h => ?_, .inl trivial⟩
    · exact .throw h trivial
    · exact .throw h trivial
  | succ allowance ih =>
    refine ⟨balanced_evaluator (allowance + 1), fun e m r h => ?_, fun s m r h => ?_, .inl trivial⟩
    · show Exec.Ends r _ m _ (evalExpr (allowance + 1) e)
      rw [evalExpr]
      exact (Evaluator.ends_exprForm ih e h).locating _ _
    · show Exec.Ends r _ m _ (evalStmt (allowance + 1) s)
      rw [evalStmt]
      exact Evaluator.ends_stmtStep ih _ s h

end HostScript
