import HostScript.Proofs.HonestHost

/-!
# Typed values and faithful host code

A declared variable and an item of an array may only hold values that obey the type (`Value.Obeys`). Array
values that share a cell have to agree on its element type. A layout lists the element type of every cell
that was ever made; values, frames and cells fit a layout when their array values agree with it and their
places obey their types. Host code is faithful when it passes on only values that fit, whenever it is given
such values (`Lang.faithful_classes`).
-/

set_option autoImplicit false

namespace HostScript

variable {v : Value} {cs : Classes} {c : HostClass} {vs : List Value}

/-- The element types of the cells; a cell that holds no array has none. -/
abbrev Layout := List (Option ValueType)

namespace Value

/-- A value that a place of a type may hold: a primitive of exactly the kind, a text or null, and for
arrays of primitives an array of exactly that element type or null. -/
def Obeys (v : Value) : ValueType → Prop
  | .primitive kind => ∃ p, v = .primitive p ∧ p.kind = kind
  | .text => (∃ s, v = .text s) ∨ v = .null
  | .array (.primitive kind) => v = .null ∨ ∃ cell, v = .array cell (.primitive kind)
  | _ => True

/-- An array value names the element type of its cell. -/
def Fits (τ : Layout) : Value → Prop
  | .array cell element => τ[cell]? = some (some element)
  | _ => True

theorem obeys_initial (type : ValueType) : type.initial.Obeys type := by
  cases type with
  | primitive kind => exact ⟨.zero kind, rfl, by cases kind <;> rfl⟩
  | text => exact .inr rfl
  | array element => cases element <;> first | exact .inl rfl | trivial
  | _ => trivial

variable {τ τ' : Layout}

/-- Only arrays have to agree with the layout. -/
theorem fits_of_ne_array (h : ∀ cell element, v ≠ .array cell element) : v.Fits τ := by
  cases v with
  | array cell element => exact absurd rfl (h cell element)
  | _ => trivial

theorem Fits.mono (h : v.Fits τ) (hτ : τ <+: τ') : v.Fits τ' := by
  obtain ⟨more, rfl⟩ := hτ
  cases v with
  | array cell element =>
    have hlt := (List.getElem?_eq_some_iff.1 h).1
    exact (List.getElem?_append_left hlt).trans h
  | _ => trivial

end Value

variable {τ τ' : Layout}

/-- All of several values fit. -/
def FitAll (τ : Layout) (vs : List Value) : Prop := ∀ v ∈ vs, v.Fits τ

theorem FitAll.mono (h : FitAll τ vs) (hτ : τ <+: τ') : FitAll τ' vs :=
  fun v hv => (h v hv).mono hτ

theorem fitAll_cons : FitAll τ (v :: vs) ↔ v.Fits τ ∧ FitAll τ vs :=
  List.forall_mem_cons

theorem fitAll_append {ws : List Value} : FitAll τ (vs ++ ws) ↔ FitAll τ vs ∧ FitAll τ ws :=
  List.forall_mem_append

theorem fitAll_nil : FitAll τ [] := fun _ hv => absurd hv List.not_mem_nil

/-- The value of a variable fits and obeys the declared type. -/
structure Variable.Fits (τ : Layout) (x : Variable) : Prop where
  value : x.value.Fits τ
  declared : ∀ type, x.declared = some type → x.value.Obeys type

/-- All variables of a frame fit. -/
def Frame.Fits (τ : Layout) (f : Frame) : Prop := ∀ e ∈ f.vars.entries, e.2.Fits τ

/-- All values that a host object holds fit. -/
def HostObject.Fits (τ : Layout) (o : HostObject) : Prop := FitAll τ (o.slots.values ++ o.items)

/-- What a cell holds fits, and the items of an array obey its element type. -/
def Contents.Fits (τ : Layout) (element : Option ValueType) : Contents → Prop
  | .array items => ∀ v ∈ items, v.Fits τ ∧ ∀ type, element = some type → v.Obeys type
  | .host object => object.Fits τ
  | .adapter _ => True

theorem Variable.Fits.mono {x : Variable} (h : x.Fits τ) (hτ : τ <+: τ') : x.Fits τ' :=
  ⟨h.value.mono hτ, h.declared⟩

theorem Frame.Fits.mono {f : Frame} (h : f.Fits τ) (hτ : τ <+: τ') : f.Fits τ' :=
  fun e he => (h e he).mono hτ

theorem Contents.Fits.mono {element : Option ValueType} {c : Contents} (h : c.Fits τ element)
    (hτ : τ <+: τ') : c.Fits τ' element := by
  cases c with
  | array items => exact fun v hv => ⟨(h v hv).1.mono hτ, (h v hv).2⟩
  | host object => exact FitAll.mono h hτ
  | adapter a => trivial

/-! ## Faithful host code -/

/-- An answer that host code gets fits. -/
def Reply.Fits (τ : Layout) (reply : Reply) : Prop :=
  ∀ v, reply = .answered (some v) → v.Fits τ

/-- An action passes on only values that fit, provided that what it sees does. Calling back into a script
may make arrays, and then the action goes on with a larger layout. -/
def Action.Faithful : Action → Layout → Prop
  | .done value, τ => value.Fits τ
  | .create object, τ => object.Fits τ
  | .raise _, _ => True
  | .inspect _ next, τ => ∀ found, (∀ o, found = some o → o.Fits τ) → (next found).Faithful τ
  | .update _ contents next, τ => contents.Fits τ ∧ next.Faithful τ
  | .textOf _ _ next, τ => ∀ text, (next text).Faithful τ
  | .keep _ next, τ => next.Faithful τ
  | .notify _ _ args next, τ | .ask _ _ args next, τ =>
    FitAll τ args ∧ ∀ τ', τ <+: τ' → ∀ reply, reply.Fits τ' → (next reply).Faithful τ'

/-- A method is faithful to its receiver and its arguments. -/
def HostMethod.Faithful (m : HostMethod) : Prop :=
  ∀ body, m.body = some body → ∀ τ receiver args, FitAll τ (receiver.toList ++ args) →
    (body receiver args).Faithful τ

/-- A field is faithful to its receiver and to the value that it is given. -/
structure HostField.Faithful (f : HostField) : Prop where
  read : ∀ τ receiver, FitAll τ receiver.toList → (f.read receiver).Faithful τ
  write : ∀ write, f.write = some write → ∀ τ receiver value,
    FitAll τ (receiver.toList ++ [value]) → (write receiver value).Faithful τ

/-- All members of a class are faithful. -/
structure HostClass.Faithful (c : HostClass) : Prop where
  constructors : ∀ m ∈ c.constructors, m.Faithful
  methods : ∀ m ∈ c.methods, m.Faithful
  fields : ∀ f ∈ c.fields, f.Faithful

/-- All classes are faithful. -/
def Classes.Faithful (cs : Classes) : Prop := ∀ c ∈ cs.records, c.Faithful

theorem Classes.Faithful.add (h : cs.Faithful) (hc : c.Faithful) : (cs.add c).2.Faithful := by
  intro c' hc'
  rcases Array.mem_push.1 hc' with hm | rfl
  · exact h c' hm
  · exact ⟨hc.constructors, hc.methods, hc.fields⟩

theorem Classes.Faithful.register (h : cs.Faithful) (hc : c.Faithful) : (cs.register c).Faithful :=
  h.add hc

theorem Classes.Faithful.addAll (loaded : List HostClass) : ∀ {cs : Classes} (table : Table Nat),
    cs.Faithful → (∀ c ∈ loaded, c.Faithful) → (cs.addAll loaded table).2.Faithful := by
  induction loaded with
  | nil => exact fun table h _ => h
  | cons c rest ih =>
    intro cs table h hloaded
    obtain ⟨hc, hrest⟩ := List.forall_mem_cons.1 hloaded
    exact ih _ (h.add hc) hrest

theorem Classes.Faithful.setLoader (h : cs.Faithful) {loaded : List HostClass}
    (hloaded : ∀ c ∈ loaded, c.Faithful) : (cs.setLoader loaded).Faithful :=
  Classes.Faithful.addAll loaded {} h hloaded

/-! ## Modest host code -/

theorem Value.fits_of_bare (h : v.claim? = none) : v.Fits τ := by
  refine fits_of_ne_array fun cell element hv => ?_
  subst hv
  cases h

/-- Modest code is faithful: what it passes on is its receiver, or no array. -/
theorem Action.Modest.faithful {receiver : Option Value} (action : Action) : ∀ {seen : Bool} {τ : Layout},
    action.Modest receiver seen → FitAll τ receiver.toList → action.Faithful τ := by
  induction action with
  | done value => exact fun h hr => h.elim Value.fits_of_bare fun hv => hr value (Option.mem_toList.2 hv)
  | create object => exact fun h _ v hv => Value.fits_of_bare (h v hv)
  | raise message => exact fun _ _ => trivial
  | inspect object next ih => exact fun h hr found _ => ih found (h.2 found) hr
  | update object contents next ih =>
    exact fun h hr => ⟨fun v hv => Value.fits_of_bare (h.2.2.1 v hv), ih h.2.2.2 hr⟩
  | textOf locked value next ih => exact fun h hr text => ih text (h text) hr
  | keep values next ih => exact fun h => h.elim
  | notify target method args next ih | ask target method args next ih => exact fun h => h.elim

theorem HostClass.Modest.faithful (h : c.Modest) : c.Faithful := by
  have hmethod : ∀ m ∈ c.constructors ++ c.methods, m.Faithful := fun m hm body hbody τ receiver args hgiven =>
    (h.methods m hm body hbody receiver args).faithful _ (fitAll_append.1 hgiven).1
  refine ⟨fun m hm => hmethod m (List.mem_append_left _ hm), fun m hm => hmethod m (List.mem_append_right _ hm),
    fun f hf => ⟨fun τ receiver hr => ((h.fields f hf).2 receiver).faithful _ hr, fun write hw => ?_⟩⟩
  rw [(h.fields f hf).1] at hw
  cases hw

/-- The classes that every interpreter starts with are faithful. -/
theorem Lang.faithful_classes : (classes.foldl Classes.register {}).Faithful := by
  have hempty : ({} : Classes).Faithful := fun c hc => absurd hc (Array.not_mem_empty c)
  exact List.foldlRecOn classes Classes.register hempty fun _ hcs c hc =>
    hcs.register (modest_classes c hc).faithful

end HostScript
