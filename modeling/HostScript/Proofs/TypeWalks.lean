import HostScript.Proofs.Balanced
import HostScript.Proofs.Loops
import HostScript.Proofs.TypeGraph

/-!
# Walks over the type graph come to an end

One loop looks for a name among the supertypes of a name, one for a class that answers to a name among the interfaces
of an adapter and what they extend, and one collects the abstract methods of these. The allowances that bound them are
never used up: each of them is the loop without a bound, which ends (`Loop`), also in a graph with cycles and with
names that lead nowhere. What they find is what can be reached (`type_walks_end`).
-/

set_option autoImplicit false

namespace HostScript

namespace Classes

variable {cs : Classes} {sought : String} {interfaces : List HostClass} {c d : HostClass}
  {seen : List String} {pending : List HostClass}

/-! ## From class to class -/

/-- The class is the one that its name leads to. -/
def Loaded (cs : Classes) (c : HostClass) : Prop := cs.load? c.name = some c

/-- One class lists a name as a supertype that leads to the other. -/
def Above (cs : Classes) (c d : HostClass) : Prop := ∃ n ∈ c.supertypes, cs.load? n = some d

/-- A class is one of some interfaces, or they extend it through any number of classes. -/
def Among (cs : Classes) (interfaces : List HostClass) (c : HostClass) : Prop :=
  ∃ i ∈ interfaces, Relation.ReflTransGen cs.Above i c

/-- The classes that a class leads to, the last entry first. -/
def superClasses (cs : Classes) (c : HostClass) : List HostClass :=
  (c.supertypes.filterMap cs.load?).reverse

theorem mem_superClasses : d ∈ cs.superClasses c ↔ cs.Above c d := by
  simp [superClasses, Above]

theorem Above.loaded (named : cs.WellNamed) (h : cs.Above c d) : cs.Loaded d := by
  obtain ⟨n, -, hn⟩ := h
  unfold Loaded
  rw [named n d hn, hn]

theorem superClasses_pay (hc : cs.Loaded c) (hnew : c.name ∉ seen) :
    unseenEntries (c.name :: seen) cs.records.toList + (cs.superClasses c).length
      ≤ unseenEntries seen cs.records.toList := by
  have hless := unseenEntries_see (mem_records_of_load hc) hnew
  have hshort := List.length_filterMap_le cs.load? c.supertypes
  unfold superClasses
  rw [List.length_reverse]
  omega

/-- The classes that a walk from interfaces comes upon. -/
def classesFrom (cs : Classes) (interfaces : List HostClass) : List HostClass :=
  visited HostClass.name cs.superClasses (interfaces.length + cs.supertypeCount + 1) [] interfaces.reverse

theorem mem_classesFrom (named : cs.WellNamed) (hloaded : ∀ c ∈ interfaces, cs.Loaded c) :
    c ∈ cs.classesFrom interfaces ↔ cs.Among interfaces c := by
  have hfuel : interfaces.reverse.length + unseenEntries [] cs.records.toList
      ≤ interfaces.length + cs.supertypeCount + 1 := by
    rw [supertypeCount_eq, List.length_reverse]
    omega
  have hsame : ∀ a b, cs.Loaded a → cs.Loaded b → a.name = b.name → a = b := by
    intro a b ha hb heq
    unfold Loaded at ha
    rw [heq] at ha
    exact Option.some.inj (ha.symm.trans hb)
  refine (mem_visited_iff cs.Loaded (fun seen => unseenEntries seen cs.records.toList)
    (fun a _ b hb => (mem_superClasses.1 hb).loaded named) (fun _ _ => superClasses_pay) hsame hfuel
    fun a ha => hloaded a (List.mem_reverse.1 ha)).trans ?_
  simp only [List.mem_reverse, Reach, mem_superClasses, Among]

theorem answersTo_congr (h : c.name = d.name) : c.answersTo sought = d.answersTo sought := by
  unfold HostClass.answersTo
  rw [h]

/-- The walk for a class says whether a class that it comes upon answers. -/
theorem implementsFrom_eq {budget : Nat}
    (h : ∀ c : HostClass, c.name ∈ seen → c.answersTo sought = false) :
    cs.implementsFrom sought budget seen pending =
      (visited HostClass.name cs.superClasses budget seen pending).any (·.answersTo sought) := by
  fun_induction implementsFrom cs sought budget seen pending with
  | case1 => rfl
  | case2 => simp [visited]
  | case3 budget seen c pending hans =>
    have hnew : c.name ∉ seen := fun hs => Bool.false_ne_true ((h c hs).symm.trans hans)
    simp [visited, hnew, hans]
  | case4 budget seen c pending _ hseen ih =>
    have hs : c.name ∈ seen := by simpa using hseen
    simp [visited, hs, ih h]
  | case5 budget seen c pending hans hseen ih =>
    have hnew : c.name ∉ seen := by simpa using hseen
    have hmiss : c.answersTo sought = false := by simpa using hans
    have hseen' : ∀ d : HostClass, d.name ∈ c.name :: seen → d.answersTo sought = false := by
      intro d hd
      rcases List.mem_cons.1 hd with heq | hd
      · rw [answersTo_congr heq, hmiss]
      · exact h d hd
    rw [ih hseen']
    simp [visited, hnew, hmiss, superClasses]

/-- The walk for abstract methods collects those of the classes that it comes upon. -/
theorem abstractFrom_eq (cs : Classes) (budget : Nat) (seen : List String) (pending : List HostClass) :
    cs.abstractFrom budget seen pending = (visited HostClass.name cs.superClasses budget seen pending).flatMap
      fun c => c.methods.filter HostMethod.isAbstract := by
  fun_induction abstractFrom cs budget seen pending with
  | case1 => rfl
  | case2 => simp [visited]
  | case3 budget seen c pending hseen ih =>
    have hs : c.name ∈ seen := by simpa using hseen
    simp [visited, hs, ih]
  | case4 budget seen c pending hseen ih =>
    have hnew : c.name ∉ seen := by simpa using hseen
    rw [ih]
    simp [visited, hnew, superClasses]

/-! ## Turns of the walks -/

/-- A turn of the walk for a name: the name is compared before it is known to be new. -/
def subtypeTurn (cs : Classes) (sought : String) :
    List String × List String → (List String × List String) ⊕ Bool
  | (_, []) => .inr false
  | (seen, name :: pending) =>
    if name == sought then .inr true
    else if seen.contains name then .inl (seen, pending)
    else
      match cs.load? name with
      | some c =>
        if c.answersTo sought then .inr true else .inl (name :: seen, c.supertypes.reverse ++ pending)
      | none => .inl (name :: seen, pending)

/-- A turn of the walk for a class that answers: the class is asked before it is known to be new. -/
def implementsTurn (cs : Classes) (sought : String) :
    List String × List HostClass → (List String × List HostClass) ⊕ Bool
  | (_, []) => .inr false
  | (seen, c :: pending) =>
    if c.answersTo sought then .inr true
    else if seen.contains c.name then .inl (seen, pending)
    else .inl (c.name :: seen, cs.superClasses c ++ pending)

/-- A turn of the walk for abstract methods. -/
def abstractTurn (cs : Classes) : List HostMethod × List String × List HostClass →
    (List HostMethod × List String × List HostClass) ⊕ List HostMethod
  | (found, _, []) => .inr found
  | (found, seen, c :: pending) =>
    if seen.contains c.name then .inl (found, seen, pending)
    else
      .inl (found ++ c.methods.filter HostMethod.isAbstract, c.name :: seen, cs.superClasses c ++ pending)

theorem reaches_turns (cs : Classes) (sought : String) (budget : Nat) (seen pending : List String) :
    cs.reaches sought budget seen pending =
      withinTurns (cs.subtypeTurn sought) (fun _ => false) budget (seen, pending) := by
  fun_induction reaches cs sought budget seen pending with
  | case1 => rfl
  | case2 budget _ h => cases budget <;> simp_all [withinTurns, subtypeTurn]
  | _ => simp_all [withinTurns, subtypeTurn]

theorem implementsFrom_turns (cs : Classes) (sought : String) (budget : Nat) (seen : List String)
    (pending : List HostClass) : cs.implementsFrom sought budget seen pending =
      withinTurns (cs.implementsTurn sought) (fun _ => false) budget (seen, pending) := by
  fun_induction implementsFrom cs sought budget seen pending with
  | case1 => rfl
  | case2 budget _ h => cases budget <;> simp_all [withinTurns, implementsTurn]
  | _ => simp_all [withinTurns, implementsTurn, superClasses]

theorem abstractFrom_turns (cs : Classes) (budget : Nat) (seen : List String) (pending : List HostClass) :
    ∀ found, found ++ cs.abstractFrom budget seen pending =
      withinTurns cs.abstractTurn Prod.fst budget (found, seen, pending) := by
  fun_induction abstractFrom cs budget seen pending with
  | case1 => simp [withinTurns]
  | case2 budget _ h => cases budget <;> simp_all [withinTurns, abstractTurn]
  | case3 => simp_all [withinTurns, abstractTurn]
  | case4 budget seen c pending hseen ih =>
    intro found
    rw [← List.append_assoc, ih]
    simp_all [withinTurns, abstractTurn, superClasses]

/-- What a walk over names has before it: the names pending, and the entries of all classes not seen. -/
def namesLeft (cs : Classes) (s : List String × List String) : Nat :=
  s.2.length + unseenEntries s.1 cs.records.toList

/-- What a walk over classes has before it. -/
def classesLeft (cs : Classes) (s : List String × List HostClass) : Nat :=
  s.2.length + unseenEntries s.1 cs.records.toList

theorem subtypeTurn_less (named : cs.WellNamed) {s s' : List String × List String}
    (h : cs.subtypeTurn sought s = .inl s') : cs.namesLeft s' < cs.namesLeft s := by
  obtain ⟨seen, pending⟩ := s
  cases pending with
  | nil => cases h
  | cons name pending =>
    simp only [subtypeTurn] at h
    split at h
    · cases h
    · split at h
      · cases h
        simp [namesLeft]
      · next hseen =>
        have hpay := superNames_pay named (n := name) (by simpa using hseen)
        unfold superNames at hpay
        split at h
        · next c hc =>
          split at h
          · cases h
          · cases h
            simp only [hc, Option.elim_some] at hpay
            simp only [namesLeft, List.length_append, List.length_cons]
            omega
        · next hc =>
          cases h
          simp only [namesLeft, List.length_cons]
          omega

/-- Seeing a class that is new, with the classes that it leads to now pending. -/
theorem classesLeft_see (named : cs.WellNamed) (hloaded : ∀ d ∈ c :: pending, cs.Loaded d)
    (hnew : c.name ∉ seen) : (∀ d ∈ cs.superClasses c ++ pending, cs.Loaded d) ∧
      cs.classesLeft (c.name :: seen, cs.superClasses c ++ pending) < cs.classesLeft (seen, c :: pending) := by
  obtain ⟨hc, hrest⟩ := List.forall_mem_cons.1 hloaded
  refine ⟨List.forall_mem_append.2 ⟨fun d hd => (mem_superClasses.1 hd).loaded named, hrest⟩, ?_⟩
  have hpay := superClasses_pay hc hnew
  simp only [classesLeft, List.length_append, List.length_cons]
  omega

theorem implementsTurn_less (named : cs.WellNamed) {s s' : List String × List HostClass}
    (hloaded : ∀ c ∈ s.2, cs.Loaded c) (h : cs.implementsTurn sought s = .inl s') :
    (∀ c ∈ s'.2, cs.Loaded c) ∧ cs.classesLeft s' < cs.classesLeft s := by
  obtain ⟨seen, pending⟩ := s
  cases pending with
  | nil => cases h
  | cons c pending =>
    simp only [implementsTurn] at h
    split at h
    · cases h
    · split at h
      · cases h
        exact ⟨fun d hd => hloaded d (List.mem_cons_of_mem _ hd), by simp [classesLeft]⟩
      · next hseen =>
        cases h
        exact classesLeft_see named hloaded (by simpa using hseen)

theorem abstractTurn_less (named : cs.WellNamed) {s s' : List HostMethod × List String × List HostClass}
    (hloaded : ∀ c ∈ s.2.2, cs.Loaded c) (h : cs.abstractTurn s = .inl s') :
    (∀ c ∈ s'.2.2, cs.Loaded c) ∧ cs.classesLeft s'.2 < cs.classesLeft s.2 := by
  obtain ⟨found, seen, pending⟩ := s
  cases pending with
  | nil => cases h
  | cons c pending =>
    simp only [abstractTurn] at h
    split at h
    · cases h
      exact ⟨fun d hd => hloaded d (List.mem_cons_of_mem _ hd), by simp [classesLeft]⟩
    · next hseen =>
      cases h
      exact classesLeft_see named hloaded (by simpa using hseen)

/-! ## The walks -/

theorem isSubtype_loop (named : cs.WellNamed) (sub super : String) :
    Loop (cs.subtypeTurn super) ([], [sub]) (cs.isSubtype sub super) := by
  unfold isSubtype
  rw [reaches_turns]
  refine Loop.within _ (fun _ => True) cs.namesLeft (fun _ _ _ h => ⟨trivial, subtypeTurn_less named h⟩) _ _ trivial ?_
  simp only [namesLeft, List.length_singleton, ← supertypeCount_eq]
  omega

theorem classesLeft_start (cs : Classes) (interfaces : List HostClass) :
    cs.classesLeft ([], interfaces.reverse) < interfaces.length + cs.supertypeCount + 1 := by
  simp only [classesLeft, List.length_reverse, ← supertypeCount_eq]
  omega

theorem implements_loop (named : cs.WellNamed) (hloaded : ∀ c ∈ interfaces, cs.Loaded c) (sought : String) :
    Loop (cs.implementsTurn sought) ([], interfaces.reverse) (cs.implements interfaces sought) := by
  unfold implements
  rw [implementsFrom_turns]
  exact Loop.within _ _ _ (fun _ _ => implementsTurn_less named) _ _ (by simpa using hloaded)
    (cs.classesLeft_start interfaces)

theorem abstractMethods_loop (named : cs.WellNamed) (hloaded : ∀ c ∈ interfaces, cs.Loaded c) :
    Loop cs.abstractTurn ([], [], interfaces.reverse) (cs.abstractMethods interfaces) := by
  unfold abstractMethods
  rw [← List.nil_append (cs.abstractFrom _ _ _), abstractFrom_turns]
  exact Loop.within _ _ _ (fun _ _ => abstractTurn_less named) _ _ (by simpa using hloaded)
    (cs.classesLeft_start interfaces)

theorem implements_iff (named : cs.WellNamed) (hloaded : ∀ c ∈ interfaces, cs.Loaded c) :
    cs.implements interfaces sought = true ↔ ∃ c, cs.Among interfaces c ∧ c.answersTo sought = true := by
  unfold implements
  rw [implementsFrom_eq (fun c hc => by cases hc), List.any_eq_true]
  simp only [← mem_classesFrom named hloaded, classesFrom]

end Classes

namespace Exec

variable {scope : ScopeId} {m m' : Machine}

/-- The class that a name means in a frame is one that some name leads to. -/
theorem load?_of_lookupClass {name : String} {found : Option HostClass}
    (h : lookupClass scope name m = .ok found m') :
    m'.classes = m.classes ∧ ∀ c, found = some c → ∃ n, m.classes.load? n = some c := by
  unfold lookupClass at h
  split at h
  · cases h
    exact ⟨rfl, fun c hc => ⟨name, hc⟩⟩
  · obtain ⟨candidates, m1, hlook, h⟩ := ok_of_bind h
    unfold look at hlook
    dsimp only at hlook
    split at hlook <;> cases hlook
    cases h
    have hclasses : m.settle.classes = m.classes := (Machine.Alike.settle m).classes
    refine ⟨hclasses, fun c hc => ?_⟩
    obtain ⟨n, -, hn⟩ := List.exists_of_findSome?_eq_some hc
    exact ⟨n, hclasses ▸ hn⟩

/-- The interfaces that names mean in a frame are loaded. -/
theorem loaded_of_lookupInterfaces (names : List String) : ∀ {m : Machine} {interfaces : List HostClass},
    m.classes.WellNamed → lookupInterfaces scope names m = .ok interfaces m' →
      ∀ c ∈ interfaces, m.classes.Loaded c := by
  induction names with
  | nil =>
    intro m interfaces _ h
    cases h
    simp
  | cons name names ih =>
    intro m interfaces named h
    obtain ⟨found, m1, hfound, h⟩ := ok_of_bind h
    obtain ⟨hclasses, hload⟩ := load?_of_lookupClass hfound
    cases found with
    | none => cases h
    | some c =>
      dsimp only at h
      split at h
      · obtain ⟨rest, m2, hrest, h⟩ := ok_of_bind h
        cases h
        obtain ⟨n, hn⟩ := hload c rfl
        have hc : m.classes.Loaded c := by
          unfold Classes.Loaded
          rw [named n c hn, hn]
        exact List.forall_mem_cons.2 ⟨hc, hclasses ▸ ih (hclasses ▸ named) hrest⟩
      · cases h

end Exec

/-- **The walks over the type graph end, and find what can be reached.** -/
theorem type_walks_end (cs : Classes) (named : cs.WellNamed) :
    (∀ sub super, Loop (cs.subtypeTurn super) ([], [sub]) (cs.isSubtype sub super) ∧
      (cs.isSubtype sub super = true ↔ ∃ t, cs.Inherits sub t ∧ cs.Spells super t)) ∧
    (∀ interfaces, (∀ c ∈ interfaces, cs.Loaded c) → (∀ sought,
        Loop (cs.implementsTurn sought) ([], interfaces.reverse) (cs.implements interfaces sought) ∧
        (cs.implements interfaces sought = true ↔
          ∃ c, cs.Among interfaces c ∧ c.answersTo sought = true)) ∧
      Loop cs.abstractTurn ([], [], interfaces.reverse) (cs.abstractMethods interfaces) ∧
      ∃ classes : List HostClass, (classes.map HostClass.name).Nodup ∧
        (∀ c, c ∈ classes ↔ cs.Among interfaces c) ∧
        cs.abstractMethods interfaces =
          classes.flatMap fun c => c.methods.filter fun method => !method.isStatic && method.body.isNone) ∧
    ∀ (m m' : Machine) (scope : ScopeId) (names : List String) (interfaces : List HostClass),
      m.classes = cs → Exec.lookupInterfaces scope names m = .ok interfaces m' →
        ∀ c ∈ interfaces, cs.Loaded c := by
  refine ⟨fun sub super => ⟨Classes.isSubtype_loop named sub super, Classes.isSubtype_iff named⟩,
    fun interfaces hloaded => ⟨fun sought => ⟨Classes.implements_loop named hloaded sought,
      Classes.implements_iff named hloaded⟩, Classes.abstractMethods_loop named hloaded,
      cs.classesFrom interfaces, (nodup_visited _ _ _).1, fun c => Classes.mem_classesFrom named hloaded,
      Classes.abstractFrom_eq cs _ _ _⟩, ?_⟩
  rintro m m' scope names interfaces rfl hfound
  exact Exec.loaded_of_lookupInterfaces names named hfound

/-- Two interfaces that extend each other, one of them twice, and a name that leads nowhere. -/
def entwined : Classes :=
  (({} : Classes).register
    { name := "p.One", isInterface := true, supertypes := ["p.Two", "p.Gone", "p.Two"],
      methods := [{ name := "run", params := [] }, { name := "count", params := [], isStatic := true }] }).register
    { name := "p.Two", isInterface := true, supertypes := ["p.One"], methods := [{ name := "stop", params := [] }] }

theorem entwined_walks_end :
    entwined.WellNamed ∧ (∀ c ∈ entwined.records.toList, entwined.Loaded c) ∧
      (∃ t, entwined.Inherits "p.One" t ∧ entwined.Spells "Two" t) ∧
      (¬ ∃ t, entwined.Inherits "p.One" t ∧ entwined.Spells "p.Three" t) ∧
      (∃ c, entwined.Among entwined.records.toList c ∧ c.answersTo "One" = true) ∧
      Loop entwined.abstractTurn ([], [], entwined.records.toList.reverse)
        (entwined.abstractMethods entwined.records.toList) ∧
      (entwined.abstractMethods entwined.records.toList).map HostMethod.name = ["stop", "run"] := by
  have named : entwined.WellNamed := Classes.WellNamed.of_tables (by decide) (by decide)
  have hloaded : ∀ c ∈ entwined.records.toList, entwined.Loaded c :=
    List.forall_mem_cons.2 ⟨rfl, List.forall_mem_cons.2 ⟨rfl, by simp⟩⟩
  obtain ⟨hnames, hclasses, -⟩ := type_walks_end entwined named
  obtain ⟨hanswers, hloop, -⟩ := hclasses entwined.records.toList hloaded
  refine ⟨named, hloaded, (hnames "p.One" "Two").2.1 (by decide), ?_, (hanswers "One").2.1 (by decide),
    hloop, by decide⟩
  exact fun h => absurd ((hnames "p.One" "p.Three").2.2 h) (by decide)

end HostScript
