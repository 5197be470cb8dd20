import HostScript.Conversion

/-!
# Overload resolution

Among several parameter lists, the one that a list of arguments selects: of those that apply in the
earliest phase in which any does, the one that no other is strictly more specific than.
-/

set_option autoImplicit false

namespace HostScript

namespace Classes

/-- Whether each type of a parameter list is assignable to the one in its place in another. -/
def covers (cs : Classes) (a b : List ValueType) : Bool :=
  (a.zip b).all fun (p, q) => cs.assignable p q

/-- Whether a parameter list accepts strictly less than another. -/
def moreSpecific (cs : Classes) (a b : List ValueType) : Bool :=
  cs.covers a b && !cs.covers b a

end Classes

namespace Machine

/-- Whether arguments reach parameters in some phase no later than the given one. -/
def applies (m : Machine) (phase : Phase) (params : List ValueType) (args : List Value) : Bool :=
  params.length == args.length && (params.zip args).all fun (param, arg) =>
    match m.phase? arg param with
    | some p => p.rank ≤ phase.rank
    | none => false

/-- The entries that no other entry is strictly more specific than. -/
def unbeaten (m : Machine) (candidates : List (List ValueType × Nat)) :
    List (List ValueType × Nat) :=
  candidates.filter fun (params, i) =>
    !candidates.any fun (other, j) => j != i && m.classes.moreSpecific other params

/-- The number of the parameter list that arguments select, or the numbers of those among which
they do not decide. Equal parameter lists do not compete: the first counts. -/
def selectIn (m : Machine) (signatures : List (List ValueType)) (args : List Value) :
    List Phase → Except (List Nat) (Option Nat)
  | [] => .ok none
  | phase :: later =>
    match signatures.zipIdx.filter fun (params, _) => m.applies phase params args with
    | [] => m.selectIn signatures args later
    | candidates =>
      match m.unbeaten candidates with
      | (params, i) :: rest =>
        if rest.all fun (other, _) => other == params then .ok (some i)
        else .error (i :: rest.map Prod.snd)
      | [] => .error []

/-- The parameter list that arguments select. -/
def select (m : Machine) (signatures : List (List ValueType)) (args : List Value) :
    Except (List Nat) (Option Nat) :=
  m.selectIn signatures args [.exact, .widening, .boxing]

end Machine

end HostScript
