import HostScript.Proofs.DanglingReferences

/-!
# Where a name is found

A name is found in a variable of a frame, or in a field of the object that is bound to one. Assignment
and reading go along the frames in two different ways, but both come to the first site of the name
(`Site.find?`): assignment refers to it (`referenceTo_eq`), and reading fetches what is there (`valueOf?_eq`).
Where there is no site, assignment refers to a variable that is yet to be defined, and reading goes on to the
classes and to the variables that are visible everywhere.
-/

set_option autoImplicit false

namespace HostScript

open Exec

/-- Where a name is found: in a variable of a frame, or in a field of a bound object. -/
inductive Site where
  | frame (id : ScopeId) (v : Variable)
  | object (bound : Nat × String) (c : HostClass) (f : HostField)

namespace Site

variable {id : ScopeId} {v : Variable}

/-- The site of a name among the variables of a frame. -/
def local? (name : String) (e : ScopeId × Frame) : Option Site :=
  (e.2.vars.get? name).map (.frame e.1)

/-- The site of a name in a bound object. -/
def member? (cs : Classes) (name : String) (bound : Nat × String) : Option Site :=
  (cs.load? bound.2).bind fun c => (c.instanceField? name).map (.object bound c)

/-- The site of a name in the object that is bound to a frame. -/
def bound? (cs : Classes) (name : String) (e : ScopeId × Frame) : Option Site :=
  e.2.bound.bind (member? cs name)

/-- The first site of a name along frames. -/
def find? (order : NameOrder) (cs : Classes) (name : String) (frames : List (ScopeId × Frame)) :
    Option Site :=
  match order with
  | .localThenBound => frames.findSome? fun e => (local? name e).or (bound? cs name e)
  | .chainThenBound => (frames.findSome? (local? name)).or (frames.findSome? (bound? cs name))

/-- The reference to a site. -/
def reference (name : String) : Site → Reference
  | .frame id _ => .variable id name
  | .object bound c _ => .field (.host bound.1 bound.2) c name

/-- The machine in which a reference to a site owns the object that it goes through. -/
def claim (m : Machine) : Site → Machine
  | .frame .. => m
  | .object bound .. => m.retain (.host bound.1 bound.2)

/-- Reads what is at a site. -/
def fetch (ev : Evaluator) (name : String) : Site → Exec Value
  | .frame _ v => copy v.value
  | .object bound _ f => do
    let object ← copy (.host bound.1 bound.2)
    holding object (ev.perform (.readingBound name bound.2) (f.read (some object)))

/-- Reads what is at a site, if there is one. -/
def fetch? (ev : Evaluator) (name : String) : Option Site → Exec (Option Value)
  | none => return none
  | some s => return some (← s.fetch ev name)

/-- Refers to a site; a name that has none is to be a variable of the nearest home. -/
def refer (scope : ScopeId) (name : String) : Option Site → Exec Reference
  | none => return .variable (← look fun arena => arena.home scope) name
  | some s => fun m => .ok (s.reference name) (s.claim m)

variable {cs : Classes} {name : String} {e : ScopeId × Frame}

theorem local?_of_some (h : e.2.vars.get? name = some v) : local? name e = some (.frame e.1 v) := by
  unfold local?
  rw [h]
  rfl

theorem local?_of_none (h : e.2.vars.get? name = none) : local? name e = none := by
  unfold local?
  rw [h]
  rfl

theorem get?_of_local? (h : local? name e = some (.frame id v)) :
    e.1 = id ∧ e.2.vars.get? name = some v := by
  obtain ⟨w, hw, heq⟩ := Option.map_eq_some_iff.1 h
  rw [Site.frame.injEq] at heq
  exact ⟨heq.1, heq.2 ▸ hw⟩

/-- What is found in a bound object is a field of its class. -/
theorem member?_eq_some {bound : Nat × String} {s : Site} (h : member? cs name bound = some s) :
    ∃ c f, s = .object bound c f ∧ cs.load? bound.2 = some c ∧ c.instanceField? name = some f := by
  obtain ⟨c, hc, h⟩ := Option.bind_eq_some_iff.1 h
  obtain ⟨f, hf, rfl⟩ := Option.map_eq_some_iff.1 h
  exact ⟨c, f, rfl, hc, hf⟩

theorem bound?_ne_frame : bound? cs name e ≠ some (.frame id v) := by
  intro h
  obtain ⟨bound, -, h⟩ := Option.bind_eq_some_iff.1 h
  obtain ⟨c, f, hs, -⟩ := member?_eq_some h
  cases hs

theorem findSome?_bounds (frames : List (ScopeId × Frame)) :
    (frames.filterMap fun e => e.2.bound).findSome? (member? cs name) =
      frames.findSome? (bound? cs name) := by
  rw [← List.head?_filterMap, List.filterMap_filterMap, List.head?_filterMap]
  rfl

/-- A variable of the name in some frame is found by looking for a frame that has one. -/
theorem findSome?_local (name : String) (frames : List (ScopeId × Frame)) :
    (frames.findSome? (local? name)).map (reference name) =
      (frames.find? fun e => e.2.vars.contains name).map fun e => .variable e.1 name := by
  induction frames with
  | nil => rfl
  | cons e rest ih =>
    rw [List.findSome?_cons, List.find?_cons]
    unfold Table.contains
    cases hv : e.2.vars.get? name with
    | some v =>
      rw [local?_of_some hv]
      rfl
    | none =>
      rw [local?_of_none hv]
      exact ih

/-- The first variable of the name is in the frame of the first site among variables. -/
theorem findSome?_vars (name : String) (frames : List (ScopeId × Frame)) :
    ∃ id, frames.findSome? (local? name) =
      ((frames.map Prod.snd).findSome? fun f => f.vars.get? name).map (.frame id) := by
  induction frames with
  | nil => exact ⟨⟨0, 0⟩, rfl⟩
  | cons e rest ih =>
    rw [List.map_cons, List.findSome?_cons, List.findSome?_cons]
    cases hv : e.2.vars.get? name with
    | some v =>
      rw [local?_of_some hv]
      exact ⟨e.1, rfl⟩
    | none =>
      rw [local?_of_none hv]
      exact ih

/-- Reading a site gives a value or fails. -/
theorem fetch?_some (ev : Evaluator) (name : String) (s : Site) (m : Machine) :
    (∃ v m', fetch? ev name (some s) m = .ok (some v) m') ∨
      ∃ f m', fetch? ev name (some s) m = .error f m' := by
  cases hs : s.fetch ev name m with
  | ok v m' => exact .inl ⟨v, m', bind_of_ok hs⟩
  | error f m' => exact .inr ⟨f, m', bind_of_error hs⟩

end Site

open Site

variable {m : Machine} {scope id : ScopeId} {name : String} {frames : List (ScopeId × Frame)}

/-! ## The place that assignment reaches -/

namespace Exec

theorem boundTarget_eq (name : String) (bound : Nat × String) (m : Machine) :
    boundTarget name bound m = .ok ((member? m.classes name bound).map (reference name))
      ((member? m.classes name bound).elim m (claim m)) := by
  refine (get_bind m).trans ?_
  unfold member?
  cases m.classes.load? bound.2 with
  | none => rfl
  | some c =>
    dsimp only [Option.bind_some]
    cases c.instanceField? name with
    | none => rfl
    | some f => rfl

theorem placeByFrame_eq (name : String) (m : Machine) (frames : List (ScopeId × Frame)) :
    placeByFrame name frames m = .ok ((find? .localThenBound m.classes name frames).map (reference name))
        ((find? .localThenBound m.classes name frames).elim m (claim m)) := by
  induction frames with
  | nil => rfl
  | cons e rest ih =>
    obtain ⟨id, f⟩ := e
    unfold find? at ih ⊢
    unfold placeByFrame
    rw [List.findSome?_cons]
    cases hv : f.vars.get? name with
    | some v =>
      rw [local?_of_some (e := (id, f)) hv]
      have hin : f.vars.contains name = true := by
        unfold Table.contains
        rw [hv]
        rfl
      rw [if_pos hin]
      rfl
    | none =>
      rw [local?_of_none (e := (id, f)) hv]
      have hout : ¬ f.vars.contains name = true := by
        unfold Table.contains
        rw [hv]
        exact Bool.false_ne_true
      rw [if_neg hout, Option.none_or]
      unfold bound?
      cases hb : f.bound with
      | none => exact ih
      | some bound =>
        -- the bound object decides, and nothing has changed if it has no such field
        refine (bind_of_ok (boundTarget_eq name bound m)).trans ?_
        rw [Option.bind_some]
        cases member? m.classes name bound with
        | some s => rfl
        | none => exact ih

theorem placeInBound_eq (name : String) (m : Machine) (bounds : List (Nat × String)) :
    placeInBound name bounds m = .ok ((bounds.findSome? (member? m.classes name)).map (reference name))
        ((bounds.findSome? (member? m.classes name)).elim m (claim m)) := by
  induction bounds with
  | nil => rfl
  | cons bound rest ih =>
    rw [List.findSome?_cons]
    refine (bind_of_ok (boundTarget_eq name bound m)).trans ?_
    cases member? m.classes name bound with
    | some s => rfl
    | none => exact ih

theorem settle_classes (m : Machine) : m.settle.classes = m.classes := (Machine.Alike.settle m).classes

theorem settle_config (m : Machine) : m.settle.config = m.config := (Machine.Alike.settle m).config

/-- **Assignment reaches the first site of a name**, or the nearest home if there is no site. -/
theorem referenceTo_eq (name : String) (hchain : m.settle.store.arena.chain scope = .ok frames) :
    referenceTo scope name m = refer scope name (find? m.config.order m.classes name frames)
      m.settle := by
  refine (bind_of_ok (look_of_ok hchain)).trans ((get_bind m.settle).trans ?_)
  rw [settle_config, ← settle_classes]
  cases m.config.order with
  | localThenBound =>
    refine (bind_of_ok (placeByFrame_eq name _ frames)).trans ?_
    cases find? .localThenBound m.settle.classes name frames <;> rfl
  | chainThenBound =>
    have hlocal := findSome?_local name frames
    unfold find?
    cases hfind : frames.find? fun e => e.2.vars.contains name with
    | none =>
      rw [hfind, Option.map_none, Option.map_eq_none_iff] at hlocal
      rw [hlocal, Option.none_or, ← findSome?_bounds]
      refine (bind_of_ok (placeInBound_eq name _ _)).trans ?_
      cases (frames.filterMap fun e => e.2.bound).findSome? (member? m.settle.classes name) <;> rfl
    | some e =>
      rw [hfind, Option.map_some] at hlocal
      obtain ⟨s, hs, href⟩ := Option.map_eq_some_iff.1 hlocal
      rw [hs, Option.some_or]
      -- the site is a variable, and so nothing is owned
      cases s with
      | frame id v => exact congrArg (EStateM.Result.ok · m.settle) href.symm
      | object bound c f => cases href

end Exec

/-! ## The value that reading gives -/

namespace Evaluator

variable (ev : Evaluator)

theorem boundField_eq (name : String) (bound : Nat × String) (m : Machine) :
    ev.boundField name bound m = fetch? ev name (member? m.classes name bound) m := by
  refine (get_bind m).trans ?_
  unfold member?
  cases m.classes.load? bound.2 with
  | none => rfl
  | some c =>
    dsimp only [Option.bind_some]
    cases c.instanceField? name with
    | none => rfl
    | some f => rfl

/-- The field of a bound object is read, or else what comes next. -/
theorem boundField_bind (bound : Nat × String) {next : Option Value → Exec (Option Value)} {other : Option Site}
    (hsome : ∀ v, next (some v) = pure (some v)) (hnone : next none m = fetch? ev name other m) :
    (ev.boundField name bound >>= next) m = fetch? ev name ((member? m.classes name bound).or other) m := by
  have hbound := ev.boundField_eq name bound m
  cases hs : member? m.classes name bound with
  | none =>
    rw [hs] at hbound
    exact (bind_of_ok hbound).trans hnone
  | some s =>
    rw [hs] at hbound
    rcases fetch?_some ev name s m with ⟨v, m', hread⟩ | ⟨f, m', hread⟩
    · rw [bind_of_ok (hbound.trans hread), hsome, Option.some_or, hread]
      rfl
    · exact (bind_of_error (hbound.trans hread)).trans hread.symm

theorem valueByFrame_eq (name : String) (m : Machine) (frames : List (ScopeId × Frame)) :
    ev.valueByFrame name (frames.map Prod.snd) m =
      fetch? ev name (find? .localThenBound m.classes name frames) m := by
  induction frames with
  | nil => rfl
  | cons e rest ih =>
    unfold find? at ih ⊢
    rw [List.map_cons, List.findSome?_cons]
    unfold valueByFrame
    cases hv : e.2.vars.get? name with
    | some v =>
      rw [local?_of_some hv]
      rfl
    | none =>
      rw [local?_of_none hv, Option.none_or]
      unfold bound?
      cases hb : e.2.bound with
      | none => exact ih
      | some bound =>
        dsimp only
        refine Eq.trans (ev.boundField_bind bound (fun _ => rfl) ih) ?_
        rw [Option.bind_some]
        cases member? m.classes name bound <;> rfl

theorem valueInBound_eq (name : String) (m : Machine) (bounds : List (Nat × String)) :
    ev.valueInBound name bounds m = fetch? ev name (bounds.findSome? (member? m.classes name)) m := by
  induction bounds with
  | nil => rfl
  | cons bound rest ih =>
    rw [List.findSome?_cons, valueInBound]
    refine Eq.trans (ev.boundField_bind bound (fun _ => rfl) ih) ?_
    cases member? m.classes name bound <;> rfl

/-- What a name without a site is read as: a class, or a variable that is visible everywhere. -/
def elsewhere (scope : ScopeId) (name : String) (ambient : Option Variable) : Exec (Option Value) := do
  match ← lookupClass scope name with
  | some c => return some c.value
  | none =>
    match ambient with
    | some v => return some (← copy v.value)
    | none => return none

/-- **Reading gives what is at the first site of a name**, or looks elsewhere if there is no site. -/
theorem valueOf?_eq (name : String) {u : Frame} (hchain : m.settle.store.arena.chain scope = .ok frames)
    (hu : m.settle.store.arena.frame? m.utilities = some u) :
    ev.valueOf? scope name m = (find? m.config.order m.classes name frames).elim
      (elsewhere scope name (u.vars.get? name)) (fun s => fetch? ev name (some s)) m.settle := by
  refine (get_bind m).trans ((bind_of_ok (look_of_ok
    (a := (frames.map Prod.snd, u.vars.get? name)) ?_)).trans ?_)
  · rw [hchain]
    simp only [bind, Except.bind, hu]
    rfl
  rw [← settle_classes]
  dsimp -zeta only
  extract_lets rest
  have hrest : ∀ (x : Exec (Option Value)) (found : Option Site),
      x m.settle = fetch? ev name found m.settle → (x >>= rest) m.settle =
        found.elim (elsewhere scope name (u.vars.get? name)) (fun s => fetch? ev name (some s))
          m.settle := by
    intro x found hx
    cases found with
    | none => exact bind_of_ok hx
    | some s =>
      rcases fetch?_some ev name s m.settle with ⟨v, m', hread⟩ | ⟨f, m', hread⟩
      · exact (bind_of_ok (hx.trans hread)).trans hread.symm
      · exact (bind_of_error (hx.trans hread)).trans hread.symm
  cases m.config.order with
  | localThenBound => exact hrest _ _ (ev.valueByFrame_eq name _ frames)
  | chainThenBound =>
    obtain ⟨id, hlocal⟩ := findSome?_vars name frames
    unfold find?
    rw [hlocal]
    cases (frames.map Prod.snd).findSome? fun f => f.vars.get? name with
    | some v => rfl
    | none =>
      have hbounds : (frames.map Prod.snd).filterMap Frame.bound =
          frames.filterMap fun e => e.2.bound := by
        rw [List.filterMap_map]
        rfl
      rw [Option.map_none, Option.none_or, ← findSome?_bounds, hbounds]
      exact hrest _ _ (ev.valueInBound_eq name _ _)

end Evaluator

end HostScript
