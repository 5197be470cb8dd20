import HostScript.Proofs.CompoundAssignment
import HostScript.Proofs.WordArithmetic

/-!
# Equality of values

Numbers meet in a common kind, other primitives are compared as they are, and all other values by what they refer to.
It comes down to the identity of a value (`Value.identity?`): values are equal if they have the same
(`Machine.combine_equal`). So `==` is an equivalence, and `!=` is its negation (`equality_is_lawful`). A floating-point
number has no identity, since not all of them are equal to themselves.
-/

set_option autoImplicit false

namespace HostScript

namespace Value

/-- The kinds of values. -/
inductive Form where
  | primitive (k : Kind)
  | text
  | array
  | object
  | host
  | hostClass
  deriving DecidableEq

/-- The kind of a value. -/
def form : Value → Form
  | .primitive p => .primitive p.kind
  | .text _ => .text
  | .array .. => .array
  | .object .. => .object
  | .host .. => .host
  | .hostClass .. => .hostClass

/-- The floating-point numbers. -/
def IsFloating (v : Value) : Prop := v.form = .primitive .float ∨ v.form = .primitive .double

instance (v : Value) : Decidable v.IsFloating := inferInstanceAs (Decidable (_ ∨ _))

/-- Whether a value is a number. -/
def isNumeric : Value → Bool
  | .primitive p => p.kind.isNumeric
  | _ => false

/-- What `==` sees of a value: a whole number whatever its kind, the content of a text, the cell or the frame that is
referred to, the name of a class. -/
inductive Identity where
  | number (n : Int64)
  | truth (b : Bool)
  | void
  | null
  | text (s : String)
  | array (cell : Nat)
  | object (scope : ScopeId)
  | host (cell : Nat)
  | hostClass (name : String)
  deriving DecidableEq

/-- The identity of a primitive. -/
def primitiveIdentity? : Primitive → Option Identity
  | .bool b => some (.truth b)
  | .void => some .void
  | .null => some .null
  | p => p.toInt64?.map .number

/-- The identity of a value, which floating-point numbers do not have. -/
def identity? : Value → Option Identity
  | .primitive p => primitiveIdentity? p
  | .text s => some (.text s)
  | .array cell _ => some (.array cell)
  | .object scope _ => some (.object scope)
  | .host cell _ => some (.host cell)
  | .hostClass _ name => some (.hostClass name)

variable {v w : Value} {x : Identity} {p : Primitive} {n : Int64}

theorem exists_identity? (h : ¬ v.IsFloating) : ∃ x, v.identity? = some x := by
  cases v with
  | primitive p =>
    cases p with
    | float => exact absurd (.inl rfl) h
    | double => exact absurd (.inr rfl) h
    | _ => exact ⟨_, rfl⟩
  | _ => exact ⟨_, rfl⟩

theorem identity?_of_toInt64? (h : p.toInt64? = some n) : (Value.primitive p).identity? = some (.number n) := by
  cases p <;> cases h <;> rfl

/-- The kind of the values with an identity, unless they are numbers. -/
def Identity.form? : Identity → Option Form
  | .number _ => none
  | .truth _ => some (.primitive .boolean)
  | .void => some (.primitive .void)
  | .null => some (.primitive .null)
  | .text _ => some .text
  | .array _ => some .array
  | .object _ => some .object
  | .host _ => some .host
  | .hostClass _ => some .hostClass

theorem form?_of_identity? (h : v.identity? = some x) :
    v.isNumeric = true ∧ x.form? = none ∨ x.form? = some v.form := by
  cases v with
  | primitive p => cases p <;> cases h <;> first | exact .inl ⟨rfl, rfl⟩ | exact .inr rfl
  | _ =>
    cases h
    exact .inr rfl

/-- Values with the same identity are of one kind, or both are numbers. -/
theorem form_eq_of_identity? (hv : v.identity? = some x) (hw : w.identity? = some x) :
    v.form = w.form ∨ v.isNumeric = true ∧ w.isNumeric = true := by
  rcases form?_of_identity? hv with ⟨hv, hx⟩ | hv <;> rcases form?_of_identity? hw with ⟨hw, hx'⟩ | hw
  · exact .inr ⟨hv, hw⟩
  · cases hx.symm.trans hw
  · cases hx'.symm.trans hv
  · exact .inl (Option.some.inj (hv.symm.trans hw))

theorem identity?_eq_array {cell : Nat} : v.identity? = some (.array cell) ↔ ∃ element, v = .array cell element := by
  cases v with
  | primitive p => cases p <;> simp [identity?, primitiveIdentity?, Primitive.toInt64?]
  | _ => simp [identity?]

theorem identity?_eq_object {scope : ScopeId} :
    v.identity? = some (.object scope) ↔ ∃ name, v = .object scope name := by
  cases v with
  | primitive p => cases p <;> simp [identity?, primitiveIdentity?, Primitive.toInt64?]
  | _ => simp [identity?]

theorem identity?_eq_host {cell : Nat} : v.identity? = some (.host cell) ↔ ∃ name, v = .host cell name := by
  cases v with
  | primitive p => cases p <;> simp [identity?, primitiveIdentity?, Primitive.toInt64?]
  | _ => simp [identity?]

end Value

section Combining

variable {p q : Primitive} {v w : Value} {x y : Value.Identity} (m : Machine)

/-- Whole numbers are equal if they are the same number. -/
theorem Machine.combine_integers {a b : Int64} (hp : p.toInt64? = some a) (hq : q.toInt64? = some b) :
    m.combine .equal (.primitive p) (.primitive q) = .ok (.bool (decide (a = b))) ∧
      m.combine .notEqual (.primitive p) (.primitive q) = .ok (.bool (!decide (a = b))) := by
  have hp' : p.kind.isNumeric = true := by cases p <;> cases hp <;> rfl
  have hq' : q.kind.isNumeric = true := by cases q <;> cases hq <;> rfl
  have hequal : p.binary .equal q = .ok (.bool (decide (a.toInt = b.toInt))) := Primitive.binary_of_order hp hq rfl
  have hnot : p.binary .notEqual q = .ok (.bool (decide (a.toInt ≠ b.toInt))) := Primitive.binary_of_order hp hq rfl
  rw [Machine.combine_numbers hp' hq', Machine.combine_numbers hp' hq', hequal, hnot]
  simp [Int64.toInt_inj, Value.bool]

/-- Where one of two primitives is no number, they are equal if they are the same. -/
theorem Machine.combine_primitives (hp : (Value.primitive p).identity? = some x)
    (hq : (Value.primitive q).identity? = some y) (hno : p.toInt64? = none ∨ q.toInt64? = none) :
    m.combine .equal (.primitive p) (.primitive q) = .ok (.bool (decide (x = y))) ∧
      m.combine .notEqual (.primitive p) (.primitive q) = .ok (.bool (!decide (x = y))) := by
  cases p with
  | bool a =>
    cases hp
    cases q with
    | bool b =>
      cases hq
      cases a <;> cases b <;> exact ⟨rfl, rfl⟩
    | _ =>
      cases hq
      all_goals exact ⟨rfl, rfl⟩
  | void | null =>
    cases hp
    cases q with
    | _ => cases hq <;> exact ⟨rfl, rfl⟩
  | float | double => cases hp
  | _ =>
    cases hp
    cases q with
    | bool | void | null =>
      cases hq
      exact ⟨rfl, rfl⟩
    | float | double => cases hq
    | _ => simp [Primitive.toInt64?] at hno

/-- The operators compare identities. -/
theorem Machine.combine_equal (hv : v.identity? = some x) (hw : w.identity? = some y) :
    m.combine .equal v w = .ok (.bool (decide (x = y))) ∧
      m.combine .notEqual v w = .ok (.bool (!decide (x = y))) := by
  cases v with
  | primitive p =>
    cases w with
    | primitive q =>
      cases hp : p.toInt64? with
      | none => exact m.combine_primitives hv hw (.inl hp)
      | some a =>
        cases hq : q.toInt64? with
        | none => exact m.combine_primitives hv hw (.inr hq)
        | some b =>
          cases hv.symm.trans (Value.identity?_of_toInt64? hp)
          cases hw.symm.trans (Value.identity?_of_toInt64? hq)
          simpa using m.combine_integers hp hq
    | _ =>
      cases hw
      cases p <;> cases hv <;> exact ⟨rfl, rfl⟩
  | _ =>
    cases hv
    cases w with
    | primitive q =>
      cases q <;> cases hw <;> exact ⟨rfl, rfl⟩
    | _ =>
      cases hw
      -- two references, of one kind or not
      simp [Machine.combine, Value.operand?, Value.same, Value.bool, beq_eq_decide]

/-- The machine finds two values equal. -/
def Machine.Equal (m : Machine) (v w : Value) : Prop := Exec.combine .equal v w m = .ok (.bool true) m

theorem Exec.combine_of_ok {op : BinaryOp} {r : Value} (h : m.combine op v w = .ok r) :
    Exec.combine op v w m = .ok r m := by
  refine (Exec.get_bind m).trans ?_
  rw [h]
  rfl

/-- Equal are the values of one identity. -/
theorem Machine.equal_iff (hv : v.identity? = some x) (hw : w.identity? = some y) : m.Equal v w ↔ x = y := by
  unfold Machine.Equal
  rw [Exec.combine_of_ok m (m.combine_equal hv hw).1]
  constructor
  · intro h
    injection h with h
    injection h with h
    injection h with h
    exact of_decide_eq_true h
  · intro h
    rw [decide_eq_true h]

/-- **Equality of values is lawful.** The operators `==` and `!=` answer for all values but floating-point numbers,
without touching the machine, and one is the negation of the other. `==` is an equivalence. It compares whole numbers
and characters as numbers, whatever their kinds, and other values of different kinds are never equal. An array, a
scripted object or a host object is equal only to a reference to the same cell or frame. -/
theorem equality_is_lawful (m : Machine) :
    (∀ v w : Value, ¬ v.IsFloating → ¬ w.IsFloating → ∃ answer : Bool,
      Exec.combine .equal v w m = .ok (.bool answer) m ∧ Exec.combine .notEqual v w m = .ok (.bool !answer) m) ∧
    (∀ v : Value, ¬ v.IsFloating → m.Equal v v) ∧
    (∀ v w : Value, ¬ v.IsFloating → ¬ w.IsFloating → m.Equal v w → m.Equal w v) ∧
    (∀ u v w : Value, ¬ u.IsFloating → ¬ v.IsFloating → ¬ w.IsFloating → m.Equal u v → m.Equal v w → m.Equal u w) ∧
    (∀ (p q : Primitive) (a b : Int64), p.toInt64? = some a → q.toInt64? = some b →
      (m.Equal (.primitive p) (.primitive q) ↔ a = b)) ∧
    (∀ v w : Value, ¬ v.IsFloating → ¬ w.IsFloating → v.form ≠ w.form → ¬ (v.isNumeric = true ∧ w.isNumeric = true) →
      ¬ m.Equal v w) ∧
    (∀ cell element w, ¬ w.IsFloating → (m.Equal (.array cell element) w ↔ ∃ element', w = .array cell element')) ∧
    (∀ scope name w, ¬ w.IsFloating → (m.Equal (.object scope name) w ↔ ∃ name', w = .object scope name')) ∧
    ∀ cell name w, ¬ w.IsFloating → (m.Equal (.host cell name) w ↔ ∃ name', w = .host cell name') := by
  refine ⟨fun v w hv hw => ?_, fun v hv => ?_, fun v w hv hw h => ?_, fun u v w hu hv hw huv hvw => ?_,
    fun p q a b hp hq => ?_, fun v w hv hw hform hnumeric h => ?_, fun cell element w hw => ?_,
    fun scope name w hw => ?_, fun cell name w hw => ?_⟩
  · obtain ⟨x, hx⟩ := Value.exists_identity? hv
    obtain ⟨y, hy⟩ := Value.exists_identity? hw
    obtain ⟨hequal, hnot⟩ := m.combine_equal hx hy
    exact ⟨_, Exec.combine_of_ok m hequal, Exec.combine_of_ok m hnot⟩
  · obtain ⟨x, hx⟩ := Value.exists_identity? hv
    exact (m.equal_iff hx hx).2 rfl
  · obtain ⟨x, hx⟩ := Value.exists_identity? hv
    obtain ⟨y, hy⟩ := Value.exists_identity? hw
    exact (m.equal_iff hy hx).2 ((m.equal_iff hx hy).1 h).symm
  · obtain ⟨x, hx⟩ := Value.exists_identity? hu
    obtain ⟨y, hy⟩ := Value.exists_identity? hv
    obtain ⟨z, hz⟩ := Value.exists_identity? hw
    exact (m.equal_iff hx hz).2 (((m.equal_iff hx hy).1 huv).trans ((m.equal_iff hy hz).1 hvw))
  · rw [m.equal_iff (Value.identity?_of_toInt64? hp) (Value.identity?_of_toInt64? hq)]
    exact ⟨Value.Identity.number.inj, congrArg _⟩
  · obtain ⟨x, hx⟩ := Value.exists_identity? hv
    obtain ⟨y, hy⟩ := Value.exists_identity? hw
    obtain rfl := (m.equal_iff hx hy).1 h
    exact (Value.form_eq_of_identity? hx hy).elim hform hnumeric
  · obtain ⟨y, hy⟩ := Value.exists_identity? hw
    rw [m.equal_iff rfl hy, ← Value.identity?_eq_array, hy, Option.some_inj]
    exact eq_comm
  · obtain ⟨y, hy⟩ := Value.exists_identity? hw
    rw [m.equal_iff rfl hy, ← Value.identity?_eq_object, hy, Option.some_inj]
    exact eq_comm
  · obtain ⟨y, hy⟩ := Value.exists_identity? hw
    rw [m.equal_iff rfl hy, ← Value.identity?_eq_host, hy, Option.some_inj]
    exact eq_comm

end Combining

/-- A character is equal to its code and, through it, to a byte; null is not void, and two arrays are two things. -/
theorem equality_across_kinds :
    let m := Machine.initial {} ⟨fun _ => .unknown⟩ "" []
    (Exec.combine .notEqual (.primitive (.char 'a')) (.primitive (.byte 97)) m = .ok (.bool false) m ∧
      m.Equal (.primitive (.char 'a')) (.primitive (.long 97)) ∧
      m.Equal (.primitive (.char 'a')) (.primitive (.byte 97))) ∧
      ¬ m.Equal .null .void ∧ ¬ m.Equal (.array 0 (.primitive .int)) (.array 1 (.primitive .int)) := by
  intro m
  obtain ⟨hanswer, -, hsymm, htrans, hnumbers, hkinds, harray, -⟩ := equality_is_lawful m
  have hlong : m.Equal (.primitive (.char 'a')) (.primitive (.long 97)) := (hnumbers _ _ 97 97 rfl rfl).2 rfl
  have hbyte : m.Equal (.primitive (.byte 97)) (.primitive (.long 97)) := (hnumbers _ _ 97 97 rfl rfl).2 rfl
  have hchar : m.Equal (.primitive (.char 'a')) (.primitive (.byte 97)) :=
    htrans _ _ _ (by decide) (by decide) (by decide) hlong (hsymm _ _ (by decide) (by decide) hbyte)
  refine ⟨⟨?_, hlong, hchar⟩, hkinds _ _ (by decide) (by decide) (by decide) (by decide), fun h => ?_⟩
  · obtain ⟨answer, hequal, hnot⟩ := hanswer (.primitive (.char 'a')) (.primitive (.byte 97)) (by decide) (by decide)
    cases hequal.symm.trans hchar
    exact hnot
  · obtain ⟨_, h⟩ := (harray _ _ _ (by decide)).1 h
    cases h

end HostScript
