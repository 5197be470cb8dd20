import Mathlib.Data.List.Forall2
import Mathlib.Data.Nat.Find
import Mathlib.Data.Set.Finite.Basic
import Mathlib.Order.WellFounded
import HostScript.Interpreter
import HostScript.Proofs.TypeGraph

/-!
# The most specific overload

A type suits another if each of its values can stand for one of the other (`Classes.Suits`). Where names lead
to the classes of these names and parameters are qualified, `Classes.assignable` decides this preorder, and
being strictly more specific is a strict order on parameter lists of one length. So among finitely many
applicable lists there is one that no other beats, and what `Machine.select` answers can be said without its
loops (`select_most_specific`).
-/

set_option autoImplicit false

namespace HostScript

/-- Every class name in a type has a package in front. -/
def ValueType.Qualified : ValueType → Prop
  | .named name => isQualified name = true
  | .array element => element.Qualified
  | _ => True

instance ValueType.decidableQualified : (t : ValueType) → Decidable t.Qualified
  | .named name => inferInstanceAs (Decidable (isQualified name = true))
  | .array element => decidableQualified element
  | .primitive _ | .text | .object => .isTrue trivial

theorem Kind.widensTo_refl (a : Kind) : a.widensTo a = true := by
  cases a <;> rfl

theorem Kind.widensTo_trans {a b c : Kind} (hab : a.widensTo b = true) (hbc : b.widensTo c = true) :
    a.widensTo c = true := by
  cases a <;> cases b <;> cases hab <;> cases c <;> first | rfl | cases hbc

namespace Classes

variable {a b c : ValueType}

/-! ## Types that suit others -/

/-- A type whose values can stand where another is wanted. -/
inductive Suits (cs : Classes) : ValueType → ValueType → Prop
  | same (t : ValueType) : Suits cs t t
  | widen {a b : Kind} : a.widensTo b = true → Suits cs (.primitive a) (.primitive b)
  | object (t : ValueType) : Suits cs t .object
  | inherits {a b : String} : cs.Inherits a b → Suits cs (.named a) (.named b)
  | array {a b : ValueType} : a.isPrimitive = false → Suits cs a b → Suits cs (.array a) (.array b)

variable {cs : Classes}

theorem Suits.trans (hab : cs.Suits a b) (hbc : cs.Suits b c) : cs.Suits a c := by
  induction hab generalizing c with
  | same t => exact hbc
  | object t =>
    cases hbc with
    | same => exact .object t
    | object => exact .object t
  | widen hw =>
    cases hbc with
    | same => exact .widen hw
    | object => exact .object _
    | widen hw' => exact .widen (Kind.widensTo_trans hw hw')
  | inherits hi =>
    cases hbc with
    | same => exact .inherits hi
    | object => exact .object _
    | inherits hi' => exact .inherits (Relation.ReflTransGen.trans hi hi')
  | array hp hs ih =>
    cases hbc with
    | same => exact .array hp hs
    | object => exact .object _
    | array _ hs' => exact .array hp (ih hs')

theorem assignable_self (t : ValueType) : cs.assignable t t = true := by
  unfold assignable
  rw [if_pos rfl]

theorem suits_of_assignable (named : cs.WellNamed) (hb : b.Qualified) (h : cs.assignable a b = true) :
    cs.Suits a b := by
  fun_induction assignable cs a b with
  | case1 t => exact .same t
  | case2 a b _ => exact .widen h
  | case3 a _ => exact .object a
  | case4 a b _ => exact .inherits ((isSubtype_qualified named hb).1 h)
  | case5 a b _ ih =>
    rw [Bool.and_eq_true, Bool.not_eq_true'] at h
    exact .array h.1 (ih hb h.2)
  | case6 => cases h

theorem assignable_of_suits (named : cs.WellNamed) (hb : b.Qualified) (h : cs.Suits a b) :
    cs.assignable a b = true := by
  induction h with
  | same t => exact assignable_self t
  | widen hw =>
    unfold assignable
    split
    · rfl
    · exact hw
  | object t =>
    unfold assignable
    split
    · rfl
    · split <;> simp_all
  | inherits hi =>
    unfold assignable
    split
    · rfl
    · exact (isSubtype_qualified named hb).2 hi
  | array hp _ ih =>
    unfold assignable
    split
    · rfl
    · simp only [hp, Bool.not_false, Bool.true_and]
      exact ih hb

theorem assignable_iff (named : cs.WellNamed) (hb : b.Qualified) :
    cs.assignable a b = true ↔ cs.Suits a b :=
  ⟨suits_of_assignable named hb, assignable_of_suits named hb⟩

theorem assignable_trans (named : cs.WellNamed) (hb : b.Qualified) (hc : c.Qualified)
    (hab : cs.assignable a b = true) (hbc : cs.assignable b c = true) :
    cs.assignable a c = true := by
  rw [assignable_iff named hb] at hab
  rw [assignable_iff named hc] at hbc
  rw [assignable_iff named hc]
  exact hab.trans hbc

/-! ## Parameter lists -/

@[simp] theorem covers_cons (p q : ValueType) (a b : List ValueType) :
    cs.covers (p :: a) (q :: b) = (cs.assignable p q && cs.covers a b) := rfl

theorem covers_self (a : List ValueType) : cs.covers a a = true := by
  induction a with
  | nil => rfl
  | cons p a ih => rw [covers_cons, assignable_self, ih]; rfl

theorem covers_trans (named : cs.WellNamed) {a b c : List ValueType}
    (hb : ∀ t ∈ b, t.Qualified) (hc : ∀ t ∈ c, t.Qualified) (hlen : a.length = b.length)
    (hab : cs.covers a b = true) (hbc : cs.covers b c = true) : cs.covers a c = true := by
  induction a generalizing b c with
  | nil => rfl
  | cons p a ih =>
    cases b with
    | nil => simp at hlen
    | cons q b =>
      cases c with
      | nil => rfl
      | cons r c =>
        rw [covers_cons, Bool.and_eq_true] at hab hbc ⊢
        have hlen' : a.length = b.length := by simpa using hlen
        refine ⟨?_, ?_⟩
        · exact assignable_trans named (hb q List.mem_cons_self) (hc r List.mem_cons_self) hab.1 hbc.1
        · exact ih (fun t ht => hb t (List.mem_cons_of_mem _ ht))
            (fun t ht => hc t (List.mem_cons_of_mem _ ht)) hlen' hab.2 hbc.2

theorem moreSpecific_iff {a b : List ValueType} :
    cs.moreSpecific a b = true ↔ cs.covers a b = true ∧ cs.covers b a = false := by
  rw [moreSpecific, Bool.and_eq_true, Bool.not_eq_true']

theorem not_moreSpecific_self (a : List ValueType) : cs.moreSpecific a a = false := by
  rw [moreSpecific, covers_self]
  rfl

theorem moreSpecific_trans (named : cs.WellNamed) {a b c : List ValueType}
    (ha : ∀ t ∈ a, t.Qualified) (hb : ∀ t ∈ b, t.Qualified) (hc : ∀ t ∈ c, t.Qualified)
    (hab_len : a.length = b.length) (hbc_len : b.length = c.length)
    (hab : cs.moreSpecific a b = true) (hbc : cs.moreSpecific b c = true) :
    cs.moreSpecific a c = true := by
  rw [moreSpecific_iff] at hab hbc ⊢
  refine ⟨covers_trans named hb hc hab_len hab.1 hbc.1, ?_⟩
  -- if the last list covered the first, the second would cover the first
  rw [← Bool.not_eq_true]
  intro hca
  have hba := covers_trans named hc ha hbc_len hbc.1 hca
  rw [hab.2] at hba
  cases hba

end Classes

namespace Machine

variable {i : Nat} {tied : List Nat} {later : List Phase} {sig : List ValueType}
  {reordered : List (List ValueType)} {l : List (List ValueType × Nat)}

/-! ## Applicable and unbeaten parameter lists -/

variable {m : Machine} {phase : Phase} {signatures : List (List ValueType)} {args : List Value}

/-- Each argument reaches the parameter in its place, in the given phase or before. -/
def Applicable (m : Machine) (phase : Phase) (args : List Value) (sig : List ValueType) : Prop :=
  List.Forall₂ (fun t v => ∃ p, m.phase? v t = some p ∧ p.rank ≤ phase.rank) sig args

/-- A parameter list that applies and that no applicable one is strictly more specific than. -/
structure Best (m : Machine) (phase : Phase) (signatures : List (List ValueType))
    (args : List Value) (sig : List ValueType) : Prop where
  listed : sig ∈ signatures
  applicable : m.Applicable phase args sig
  unbeaten : ∀ other ∈ signatures, m.Applicable phase args other →
    m.classes.moreSpecific other sig = false

/-- The first phase in which some parameter list applies. -/
structure FirstPhase (m : Machine) (signatures : List (List ValueType)) (args : List Value)
    (phase : Phase) : Prop where
  applies : ∃ sig ∈ signatures, m.Applicable phase args sig
  earlier : ∀ p : Phase, p.rank < phase.rank → ∀ sig ∈ signatures, ¬ m.Applicable p args sig

theorem applies_iff : m.applies phase sig args = true ↔ m.Applicable phase args sig := by
  rw [applies, Bool.and_eq_true, beq_iff_eq, List.all_eq_true, Applicable, List.forall₂_iff_zip]
  constructor
  · rintro ⟨hlen, h⟩
    refine ⟨hlen, ?_⟩
    intro t v hm
    have ht := h (t, v) hm
    dsimp only at ht
    split at ht
    · rename_i p hp
      exact ⟨p, hp, by simpa using ht⟩
    · cases ht
  · rintro ⟨hlen, h⟩
    refine ⟨hlen, ?_⟩
    rintro ⟨t, v⟩ hm
    obtain ⟨p, hp, hle⟩ := h hm
    dsimp only
    rw [hp]
    simpa using hle

theorem Applicable.length_eq (h : m.Applicable phase args sig) : sig.length = args.length :=
  List.Forall₂.length_eq h

/-- Among qualified parameter lists, if some apply, then some applicable one is unbeaten: being more specific is a
strict order on the applicable ones, of which there are finitely many. -/
theorem exists_best (named : m.classes.WellNamed) (qualified : ∀ sig ∈ signatures, ∀ t ∈ sig, t.Qualified)
    (h : ∃ sig ∈ signatures, m.Applicable phase args sig) : ∃ sig, m.Best phase signatures args sig := by
  let applicable : Set (List ValueType) := {sig | sig ∈ signatures ∧ m.Applicable phase args sig}
  let beats (a b : applicable) : Prop := m.classes.moreSpecific a b = true
  have hfinite : Finite applicable := (signatures.finite_toSet.subset fun _ h => h.1).to_subtype
  have htrans : IsTrans applicable beats := ⟨fun a b c hab hbc => Classes.moreSpecific_trans named
    (qualified a a.2.1) (qualified b b.2.1) (qualified c c.2.1) (a.2.2.length_eq.trans b.2.2.length_eq.symm)
    (b.2.2.length_eq.trans c.2.2.length_eq.symm) hab hbc⟩
  have hirrefl : Std.Irrefl beats :=
    ⟨fun a ha => Bool.false_ne_true ((Classes.not_moreSpecific_self a.1).symm.trans ha)⟩
  obtain ⟨sig, hs, ha⟩ := h
  obtain ⟨best, -, hbest⟩ := (Finite.wellFounded_of_trans_of_irrefl beats).has_min Set.univ ⟨⟨sig, hs, ha⟩, trivial⟩
  exact ⟨best, best.2.1, best.2.2,
    fun other ho hao => Bool.not_eq_true _ ▸ hbest ⟨other, ho, hao⟩ trivial⟩

/-! ## What selection computes -/

/-- The numbered parameter lists that apply in a phase. -/
def contenders (m : Machine) (signatures : List (List ValueType)) (args : List Value)
    (phase : Phase) : List (List ValueType × Nat) :=
  signatures.zipIdx.filter fun (params, _) => m.applies phase params args

/-- The answer that the unbeaten parameter lists give. -/
def verdict : List (List ValueType × Nat) → Except (List Nat) (Option Nat)
  | (params, i) :: rest =>
    if rest.all fun (other, _) => other == params then .ok (some i)
    else .error (i :: rest.map Prod.snd)
  | [] => .error []

theorem mem_contenders : (sig, i) ∈ m.contenders signatures args phase
      ↔ signatures[i]? = some sig ∧ m.Applicable phase args sig := by
  rw [contenders, List.mem_filter, List.mk_mem_zipIdx_iff_getElem?, applies_iff]

theorem contenders_eq_nil :
    m.contenders signatures args phase = []
      ↔ ∀ sig ∈ signatures, ¬ m.Applicable phase args sig := by
  rw [List.eq_nil_iff_forall_not_mem]
  constructor
  · intro h sig hs ha
    obtain ⟨i, hi⟩ := List.mem_iff_getElem?.1 hs
    exact h (sig, i) (mem_contenders.2 ⟨hi, ha⟩)
  · rintro h ⟨sig, i⟩ he
    obtain ⟨hi, ha⟩ := mem_contenders.1 he
    exact h sig (List.mem_of_getElem? hi) ha

/-- The unbeaten entries are the numbered best parameter lists. An entry is not compared with itself,
which makes no difference. -/
theorem mem_unbeaten : (sig, i) ∈ m.unbeaten (m.contenders signatures args phase)
      ↔ signatures[i]? = some sig ∧ m.Best phase signatures args sig := by
  rw [unbeaten, List.mem_filter, mem_contenders, Bool.not_eq_true', List.any_eq_false]
  constructor
  · rintro ⟨⟨hi, ha⟩, hun⟩
    refine ⟨hi, List.mem_of_getElem? hi, ha, ?_⟩
    intro other ho hao
    obtain ⟨j, hj⟩ := List.mem_iff_getElem?.1 ho
    by_cases hji : j = i
    · rw [hji, hi, Option.some.injEq] at hj
      rw [← hj]
      exact Classes.not_moreSpecific_self sig
    · have := hun (other, j) (mem_contenders.2 ⟨hj, hao⟩)
      simpa [hji] using this
  · rintro ⟨hi, hbest⟩
    refine ⟨⟨hi, hbest.applicable⟩, ?_⟩
    rintro ⟨other, j⟩ he
    obtain ⟨hj, hao⟩ := mem_contenders.1 he
    simp [hbest.unbeaten other (List.mem_of_getElem? hj) hao]

theorem unbeaten_sorted (m : Machine) (signatures : List (List ValueType)) (args : List Value)
    (phase : Phase) :
    (m.unbeaten (m.contenders signatures args phase)).Pairwise fun a b => a.2 < b.2 := by
  apply List.Pairwise.filter
  apply List.Pairwise.filter
  rw [← List.pairwise_map, List.zipIdx_map_snd]
  exact List.pairwise_lt_range' ..

theorem selectIn_skip (h : m.contenders signatures args phase = []) :
    m.selectIn signatures args (phase :: later) = m.selectIn signatures args later := by
  rw [selectIn]
  split
  · rfl
  · rename_i hne
    exact absurd h hne

theorem selectIn_decide (h : m.contenders signatures args phase ≠ []) :
    m.selectIn signatures args (phase :: later)
      = verdict (m.unbeaten (m.contenders signatures args phase)) := by
  rw [selectIn]
  split
  · rename_i hnil
    exact absurd hnil h
  · rfl

/-- Selection gives the verdict of the first phase in which some parameter list applies. -/
theorem select_eq_verdict (h : m.FirstPhase signatures args phase) :
    m.select signatures args = verdict (m.unbeaten (m.contenders signatures args phase)) := by
  have hne : m.contenders signatures args phase ≠ [] := by
    rw [Ne, contenders_eq_nil]
    intro hno
    obtain ⟨sig, hs, ha⟩ := h.applies
    exact hno sig hs ha
  have skip (p : Phase) (hp : p.rank < phase.rank) : m.contenders signatures args p = [] :=
    contenders_eq_nil.2 (h.earlier p hp)
  unfold select
  cases phase with
  | exact => rw [selectIn_decide hne]
  | widening => rw [selectIn_skip (skip .exact (by decide)), selectIn_decide hne]
  | boxing =>
    rw [selectIn_skip (skip .exact (by decide)), selectIn_skip (skip .widening (by decide)),
      selectIn_decide hne]

theorem exists_firstPhase {p : Phase} (hs : sig ∈ signatures) (ha : m.Applicable p args sig) :
    ∃ q, m.FirstPhase signatures args q := by
  obtain ⟨q, hq, hmin⟩ := (measure Phase.rank).wf.has_min
    {q | ∃ sig ∈ signatures, m.Applicable q args sig} ⟨p, sig, hs, ha⟩
  exact ⟨q, hq, fun p hp sig hs ha => hmin p ⟨sig, hs, ha⟩ hp⟩

/-! ## Verdicts -/

theorem verdict_ok_iff :
    verdict l = .ok (some i) ↔ ∃ sig rest, l = (sig, i) :: rest ∧ ∀ e ∈ rest, e.1 = sig := by
  cases l with
  | nil => simp [verdict]
  | cons e rest =>
    obtain ⟨sig, j⟩ := e
    by_cases hall : ∀ e ∈ rest, e.1 = sig
    · have hb : (rest.all fun e => e.1 == sig) = true := by simpa using hall
      simp only [verdict, hb, if_true, Except.ok.injEq, Option.some.injEq]
      constructor
      · rintro rfl
        exact ⟨sig, rest, rfl, hall⟩
      · rintro ⟨sig', rest', h, -⟩
        cases h
        rfl
    · have hb : ¬ (rest.all fun e => e.1 == sig) = true := by simpa using hall
      simp only [verdict, if_neg hb]
      constructor
      · intro h
        cases h
      · rintro ⟨sig', rest', h, hsame⟩
        cases h
        exact absurd hsame hall

theorem verdict_error_iff (hne : l ≠ []) :
    verdict l = .error tied ↔ tied = l.map Prod.snd ∧ ∃ a ∈ l, ∃ b ∈ l, a.1 ≠ b.1 := by
  cases l with
  | nil => exact absurd rfl hne
  | cons e rest =>
    obtain ⟨sig, j⟩ := e
    by_cases hall : ∀ e ∈ rest, e.1 = sig
    · have hb : (rest.all fun e => e.1 == sig) = true := by simpa using hall
      have hsame : ∀ e ∈ (sig, j) :: rest, e.1 = sig := by simpa using hall
      simp only [verdict, hb, if_true, reduceCtorEq, false_iff]
      rintro ⟨-, a, ha, b, hb, hab⟩
      exact hab ((hsame a ha).trans (hsame b hb).symm)
    · have hb : ¬ (rest.all fun e => e.1 == sig) = true := by simpa using hall
      simp only [verdict, if_neg hb, Except.error.injEq, List.map_cons]
      push Not at hall
      obtain ⟨a, ha, hne⟩ := hall
      constructor
      · intro h
        exact ⟨h.symm, a, List.mem_cons_of_mem _ ha, (sig, j), List.mem_cons_self, hne⟩
      · rintro ⟨h, -⟩
        exact h.symm

theorem verdict_ne_none (l : List (List ValueType × Nat)) : verdict l ≠ .ok none := by
  cases l with
  | nil => intro h; cases h
  | cons e rest =>
    rw [verdict]
    split <;> (intro h; cases h)

/-- Nothing is selected exactly if no parameter list applies. -/
theorem select_none_iff :
    m.select signatures args = .ok none ↔ ∀ p, ∀ sig ∈ signatures, ¬ m.Applicable p args sig := by
  constructor
  · intro h p sig hs ha
    obtain ⟨q, hq⟩ := exists_firstPhase hs ha
    rw [select_eq_verdict hq] at h
    exact verdict_ne_none _ h
  · intro h
    have skip (p : Phase) : m.contenders signatures args p = [] := contenders_eq_nil.2 (h p)
    rw [select, selectIn_skip (skip .exact), selectIn_skip (skip .widening),
      selectIn_skip (skip .boxing), selectIn]

/-- One parameter list is the best one, and this is the first place where it stands. -/
theorem select_some_iff (hp : m.FirstPhase signatures args phase) :
    m.select signatures args = .ok (some i)
      ↔ (∃ sig, signatures[i]? = some sig ∧ m.Best phase signatures args sig
          ∧ ∀ other, m.Best phase signatures args other → other = sig)
        ∧ ∀ j < i, ∀ sig, signatures[j]? = some sig → ¬ m.Best phase signatures args sig := by
  rw [select_eq_verdict hp, verdict_ok_iff]
  have hsorted := unbeaten_sorted m signatures args phase
  constructor
  · rintro ⟨sig, rest, hl, hsame⟩
    rw [hl, List.pairwise_cons] at hsorted
    have hmem {s : List ValueType} {j : Nat} :
        (s, j) ∈ (sig, i) :: rest ↔ signatures[j]? = some s ∧ m.Best phase signatures args s := by
      rw [← hl, mem_unbeaten]
    obtain ⟨hi, hbest⟩ := hmem.1 List.mem_cons_self
    refine ⟨⟨sig, hi, hbest, ?_⟩, ?_⟩
    · intro other hother
      obtain ⟨j, hj⟩ := List.mem_iff_getElem?.1 hother.listed
      rcases List.mem_cons.1 (hmem.2 ⟨hj, hother⟩) with h | h
      · cases h
        rfl
      · exact hsame _ h
    · intro j hji s hj hs
      rcases List.mem_cons.1 (hmem.2 ⟨hj, hs⟩) with h | h
      · cases h
        exact absurd hji (Nat.lt_irrefl i)
      · exact absurd (hsorted.1 _ h) (Nat.lt_asymm hji)
  · rintro ⟨⟨sig, hi, hbest, hunique⟩, hfirst⟩
    have hin : (sig, i) ∈ m.unbeaten (m.contenders signatures args phase) :=
      mem_unbeaten.2 ⟨hi, hbest⟩
    cases hl : m.unbeaten (m.contenders signatures args phase) with
    | nil =>
      rw [hl] at hin
      cases hin
    | cons e rest =>
      obtain ⟨s, j⟩ := e
      have hmem {e : List ValueType × Nat} (he : e ∈ (s, j) :: rest) :
          signatures[e.2]? = some e.1 ∧ m.Best phase signatures args e.1 :=
        mem_unbeaten.1 (hl ▸ he)
      obtain ⟨hj, hs⟩ := hmem List.mem_cons_self
      have hsig : s = sig := hunique s hs
      rw [hl, List.pairwise_cons] at hsorted
      rw [hl] at hin
      -- the entry stands in the list, and no entry before it can
      have hji : j = i := by
        rcases List.mem_cons.1 hin with h | h
        · cases h
          rfl
        · exact absurd hs (hfirst j (hsorted.1 _ h) s hj)
      refine ⟨sig, rest, by rw [hsig, hji], ?_⟩
      intro e he
      exact hunique e.1 (hmem (List.mem_cons_of_mem _ he)).2

/-- Different parameter lists are best, and these are their places in order. -/
theorem select_error_iff (named : m.classes.WellNamed)
    (qualified : ∀ sig ∈ signatures, ∀ t ∈ sig, t.Qualified)
    (hp : m.FirstPhase signatures args phase) : m.select signatures args = .error tied
      ↔ (∃ s t, m.Best phase signatures args s ∧ m.Best phase signatures args t ∧ s ≠ t)
        ∧ tied.Pairwise (· < ·)
        ∧ ∀ i, i ∈ tied ↔ ∃ sig, signatures[i]? = some sig ∧ m.Best phase signatures args sig := by
  have place {sig : List ValueType} (h : m.Best phase signatures args sig) :
      ∃ i, (sig, i) ∈ m.unbeaten (m.contenders signatures args phase) := by
    obtain ⟨i, hi⟩ := List.mem_iff_getElem?.1 h.listed
    exact ⟨i, mem_unbeaten.2 ⟨hi, h⟩⟩
  have hne : m.unbeaten (m.contenders signatures args phase) ≠ [] := by
    obtain ⟨sig, hbest⟩ := exists_best named qualified hp.applies
    obtain ⟨i, hi⟩ := place hbest
    exact List.ne_nil_of_mem hi
  have hmem (i : Nat) : i ∈ (m.unbeaten (m.contenders signatures args phase)).map Prod.snd
      ↔ ∃ sig, signatures[i]? = some sig ∧ m.Best phase signatures args sig := by
    rw [List.mem_map]
    constructor
    · rintro ⟨⟨sig, j⟩, he, rfl⟩
      exact ⟨sig, mem_unbeaten.1 he⟩
    · rintro ⟨sig, h⟩
      exact ⟨(sig, i), mem_unbeaten.2 h, rfl⟩
  have hsorted : ((m.unbeaten (m.contenders signatures args phase)).map Prod.snd).Pairwise (· < ·) :=
    List.pairwise_map.2 (unbeaten_sorted m signatures args phase)
  rw [select_eq_verdict hp, verdict_error_iff hne]
  constructor
  · rintro ⟨rfl, ⟨s, i⟩, hs, ⟨t, j⟩, ht, hst⟩
    exact ⟨⟨s, t, (mem_unbeaten.1 hs).2, (mem_unbeaten.1 ht).2, hst⟩, hsorted, hmem⟩
  · rintro ⟨⟨s, t, hs, ht, hst⟩, hinc, hplaces⟩
    obtain ⟨i, hi⟩ := place hs
    obtain ⟨j, hj⟩ := place ht
    refine ⟨?_, (s, i), hi, (t, j), hj, hst⟩
    -- increasing lists with the same members are equal
    have hperm : tied.Perm ((m.unbeaten (m.contenders signatures args phase)).map Prod.snd) := by
      rw [List.perm_ext_iff_of_nodup (hinc.imp Nat.ne_of_lt) (hsorted.imp Nat.ne_of_lt)]
      intro k
      rw [hplaces, hmem]
    exact hperm.eq_of_pairwise (fun a b _ _ hab hba => absurd hab (Nat.lt_asymm hba)) hinc hsorted

/-! ## Candidates in another order -/

theorem Best.perm (hperm : signatures.Perm reordered) (h : m.Best phase signatures args sig) :
    m.Best phase reordered args sig :=
  ⟨hperm.mem_iff.1 h.listed, h.applicable, fun other ho => h.unbeaten other (hperm.mem_iff.2 ho)⟩

theorem FirstPhase.perm (hperm : signatures.Perm reordered) (h : m.FirstPhase signatures args phase) :
    m.FirstPhase reordered args phase := by
  refine ⟨?_, fun p hp sig hs => h.earlier p hp sig (hperm.mem_iff.2 hs)⟩
  obtain ⟨sig, hs, ha⟩ := h.applies
  exact ⟨sig, hperm.mem_iff.1 hs, ha⟩

/-- The parameter list that is selected, if one is, wherever it stands. -/
def Chooses (m : Machine) (signatures : List (List ValueType)) (args : List Value)
    (sig : List ValueType) : Prop :=
  ∃ i, m.select signatures args = .ok (some i) ∧ signatures[i]? = some sig

/-- The arguments do not decide between parameter lists. -/
def Ambiguous (m : Machine) (signatures : List (List ValueType)) (args : List Value) : Prop :=
  ∃ tied, m.select signatures args = .error tied

/-- A selection of any kind was made in some phase. -/
theorem firstPhase_of_select (h : m.select signatures args ≠ .ok none) :
    ∃ p, m.FirstPhase signatures args p := by
  rw [Ne, select_none_iff] at h
  push Not at h
  obtain ⟨p, sig, hs, ha⟩ := h
  exact exists_firstPhase hs ha

/-- What was selected is the first of the best parameter lists. -/
theorem best_of_select (h : m.select signatures args = .ok (some i)) :
    ∃ p sig, m.FirstPhase signatures args p ∧ signatures[i]? = some sig ∧ m.Best p signatures args sig ∧
      (∀ other, m.Best p signatures args other → other = sig) ∧
      ∀ j < i, ∀ s, signatures[j]? = some s → ¬ m.Best p signatures args s := by
  have hsome : m.select signatures args ≠ .ok none := by rw [h]; simp
  obtain ⟨p, hp⟩ := firstPhase_of_select hsome
  obtain ⟨⟨sig, hi, hbest, hunique⟩, hfirst⟩ := (select_some_iff hp).1 h
  exact ⟨p, sig, hp, hi, hbest, hunique, hfirst⟩

theorem Chooses.perm (hperm : signatures.Perm reordered) (h : m.Chooses signatures args sig) :
    m.Chooses reordered args sig := by
  obtain ⟨i, hsel, hi⟩ := h
  obtain ⟨p, s, hp, hs, hbest, hunique, -⟩ := best_of_select hsel
  rw [hi, Option.some.injEq] at hs
  subst hs
  -- the first place of the list among the reordered ones
  have hplace : ∃ j, reordered[j]? = some sig :=
    List.mem_iff_getElem?.1 (hperm.mem_iff.1 hbest.listed)
  have hbest' : m.Best p reordered args sig := hbest.perm hperm
  have hunique' (other : List ValueType) (ho : m.Best p reordered args other) : other = sig :=
    hunique other (ho.perm hperm.symm)
  refine ⟨Nat.find hplace, ?_, Nat.find_spec hplace⟩
  rw [select_some_iff (hp.perm hperm)]
  refine ⟨⟨sig, Nat.find_spec hplace, hbest', hunique'⟩, ?_⟩
  intro j hj other hother hb
  rw [hunique' other hb] at hother
  exact Nat.find_min hplace hj hother

theorem Ambiguous.perm (named : m.classes.WellNamed)
    (qualified : ∀ sig ∈ signatures, ∀ t ∈ sig, t.Qualified) (hperm : signatures.Perm reordered)
    (h : m.Ambiguous signatures args) : m.Ambiguous reordered args := by
  obtain ⟨tied, hsel⟩ := h
  have hsome : m.select signatures args ≠ .ok none := by rw [hsel]; simp
  obtain ⟨p, hp⟩ := firstPhase_of_select hsome
  obtain ⟨⟨s, t, hs, ht, hst⟩, -⟩ := (select_error_iff named qualified hp).1 hsel
  cases hre : m.select reordered args with
  | error tied => exact ⟨tied, hre⟩
  | ok found =>
    exfalso
    cases found with
    | none =>
      rw [select_none_iff] at hre
      exact hre p s (hs.perm hperm).listed hs.applicable
    | some i =>
      obtain ⟨⟨sig, -, -, hunique⟩, -⟩ := (select_some_iff (hp.perm hperm)).1 hre
      exact hst ((hunique s (hs.perm hperm)).trans (hunique t (ht.perm hperm)).symm)

/-- **Selection picks the most specific applicable parameter list.** Being assignable is suiting, a
preorder on qualified types, and being strictly more specific a strict order on lists of one length.
Nothing is selected if nothing applies. Otherwise the phase is the first in which something does, and
of its best lists the first is selected if they are all the same; if they are not, the answer is the
numbers of all of them. The order of the candidates decides neither what is selected nor whether
something is. -/
theorem select_most_specific (m : Machine) (named : m.classes.WellNamed)
    (signatures : List (List ValueType)) (args : List Value)
    (qualified : ∀ sig ∈ signatures, ∀ t ∈ sig, t.Qualified) :
    (∀ a b : ValueType, b.Qualified → (m.classes.assignable a b = true ↔ m.classes.Suits a b))
    ∧ (∀ t, m.classes.assignable t t = true)
    ∧ (∀ a b c : ValueType, b.Qualified → c.Qualified → m.classes.assignable a b = true →
        m.classes.assignable b c = true → m.classes.assignable a c = true)
    ∧ (∀ a, m.classes.moreSpecific a a = false)
    ∧ (∀ a b c : List ValueType, a.length = b.length → b.length = c.length →
        (∀ t ∈ a ++ b ++ c, t.Qualified) → m.classes.moreSpecific a b = true →
        m.classes.moreSpecific b c = true → m.classes.moreSpecific a c = true)
    ∧ (m.select signatures args = .ok none
        ↔ ∀ p, ∀ sig ∈ signatures, ¬ m.Applicable p args sig)
    ∧ (∀ p, m.FirstPhase signatures args p → (∀ i, m.select signatures args = .ok (some i)
          ↔ (∃ sig, signatures[i]? = some sig ∧ m.Best p signatures args sig
              ∧ ∀ other, m.Best p signatures args other → other = sig)
            ∧ ∀ j < i, ∀ sig, signatures[j]? = some sig → ¬ m.Best p signatures args sig)
        ∧ ∀ tied, m.select signatures args = .error tied
          ↔ (∃ s t, m.Best p signatures args s ∧ m.Best p signatures args t ∧ s ≠ t)
            ∧ tied.Pairwise (· < ·)
            ∧ ∀ i, i ∈ tied ↔ ∃ sig, signatures[i]? = some sig ∧ m.Best p signatures args sig)
    ∧ ∀ reordered, signatures.Perm reordered →
        (∀ sig, m.Chooses reordered args sig ↔ m.Chooses signatures args sig)
        ∧ (m.Ambiguous reordered args ↔ m.Ambiguous signatures args) := by
  refine ⟨fun a b => Classes.assignable_iff named, Classes.assignable_self, ?_,
    Classes.not_moreSpecific_self, ?_, select_none_iff, ?_, ?_⟩
  · intro a b c hb hc
    exact Classes.assignable_trans named hb hc
  · intro a b c hab hbc hq
    simp only [List.mem_append, or_imp, forall_and] at hq
    exact Classes.moreSpecific_trans named hq.1.1 hq.1.2 hq.2 hab hbc
  · intro p hp
    exact ⟨fun i => select_some_iff hp, fun tied => select_error_iff named qualified hp⟩
  · intro reordered hperm
    have qualified' : ∀ sig ∈ reordered, ∀ t ∈ sig, t.Qualified :=
      fun sig hs => qualified sig (hperm.mem_iff.2 hs)
    refine ⟨?_, ?_⟩
    · intro sig
      exact ⟨Chooses.perm hperm.symm, Chooses.perm hperm⟩
    · exact ⟨Ambiguous.perm named qualified' hperm.symm, Ambiguous.perm named qualified hperm⟩

/-- Two classes that extend each other, one of them a third class as well. -/
def entangled : Machine :=
  let m := Machine.initial {} ⟨fun _ => .unknown⟩ "" []
  { m with classes := (((({} : Classes).register { name := "a.Left", supertypes := ["a.Right"] })
      |>.register { name := "a.Right", supertypes := ["a.Left", "a.Top"] })
      |>.register { name := "a.Top" }) }

/-- Of two classes that an instance of the first has, the lower one is selected, in either order. -/
theorem select_lower_class :
    entangled.classes.WellNamed
    ∧ entangled.select [[.named "a.Top"], [.named "a.Right"], [.object]] [.host 0 "a.Left"] = .ok (some 1)
    ∧ ∀ sig, entangled.Chooses [[.named "a.Right"], [.named "a.Top"], [.object]] [.host 0 "a.Left"] sig
        ↔ entangled.Chooses [[.named "a.Top"], [.named "a.Right"], [.object]] [.host 0 "a.Left"] sig := by
  have named : entangled.classes.WellNamed := Classes.WellNamed.of_tables (by decide) (by decide)
  have qualified : ∀ sig ∈ [[.named "a.Top"], [.named "a.Right"], [ValueType.object]],
      ∀ t ∈ sig, t.Qualified := by
    decide +kernel
  obtain ⟨-, -, -, -, -, -, -, hreorder⟩ :=
    select_most_specific entangled named _ [.host 0 "a.Left"] qualified
  exact ⟨named, by decide +kernel, (hreorder _ (List.Perm.swap ..)).1⟩

end Machine

end HostScript
