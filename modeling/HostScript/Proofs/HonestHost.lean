import HostScript.Host.Toolkit
import HostScript.Proofs.StoreClaims

/-!
# Honest host code

Host code is honest when it passes on only what it may: values that it was given, which their owner keeps for
as long as the code runs, values of which it keeps copies, and values that it has seen in a host object since
the store last changed. It writes only to objects that it has seen to be host objects. What classes own
themselves, such as constants and captured values, is given to all of their code. The classes of the packages
`lang` and `ui` are honest (`Toolkit.honest_classes`).
-/

set_option autoImplicit false

namespace HostScript

variable {name : String} {cs : Classes} {c : HostClass} {f : HostField} {r r' : Multiset Claim}

/-- What host code may use: claims that are kept for it, claims that it has just seen, and cells in
which it has just seen a host object. -/
structure Sight where
  given : Claim → Prop
  seen : Claim → Prop := fun _ => False
  objects : Nat → Prop := fun _ => False

namespace Sight

/-- A claim that may be passed on. -/
def May (b : Sight) (k : Claim) : Prop := b.given k ∨ b.seen k

/-- What is left to use when the store has changed. -/
def renew (b : Sight) : Sight := { given := b.given }

/-- What can be used after a look at a cell. -/
def look (b : Sight) (object : Value) (found : Option HostObject) : Sight where
  given := b.given
  seen := fun k => b.seen k ∨ ∃ o, found = some o ∧ k ∈ o.claims
  objects := fun n => b.objects n ∨ (∃ name, object = .host n name) ∧ found.isSome

/-- What can be used with copies of values in hand. -/
def keep (b : Sight) (values : List Value) : Sight :=
  { b with given := fun k => b.given k ∨ k ∈ claimsOf values }

/-- What can be used with an answer in hand. -/
def answered (b : Sight) (reply : Reply) : Sight where
  given := fun k => b.given k ∨ ∃ v, reply = .answered (some v) ∧ k ∈ v.claims

/-- All that may be used may be used with the other as well. -/
structure Within (b b' : Sight) : Prop where
  given : ∀ k, b.given k → b'.given k
  seen : ∀ k, b.seen k → b'.seen k
  objects : ∀ n, b.objects n → b'.objects n

namespace Within

variable {b b' : Sight}

theorem may (h : b.Within b') {k : Claim} (hk : b.May k) : b'.May k := hk.imp (h.given k) (h.seen k)

theorem renew (h : b.Within b') : b.renew.Within b'.renew := ⟨h.given, fun _ hk => hk, fun _ hn => hn⟩

theorem look (h : b.Within b') (object : Value) (found : Option HostObject) :
    (b.look object found).Within (b'.look object found) :=
  ⟨h.given, fun k hk => hk.imp_left (h.seen k), fun n hn => hn.imp_left (h.objects n)⟩

theorem keep (h : b.Within b') (values : List Value) : (b.keep values).Within (b'.keep values) :=
  ⟨fun k hk => hk.imp_left (h.given k), h.seen, h.objects⟩

theorem answered (h : b.Within b') (reply : Reply) : (b.answered reply).Within (b'.answered reply) :=
  ⟨fun k hk => hk.imp_left (h.given k), fun _ hk => hk, fun _ hn => hn⟩

end Within

end Sight

/-- An action uses only what it may. -/
def Action.Honest : Action → Sight → Prop
  | .done value, b => ∀ k ∈ value.claims, b.May k
  | .create object, b => ∀ k ∈ object.claims, b.May k
  | .raise _, _ => True
  | .inspect object next, b => ∀ found, (next found).Honest (b.look object found)
  | .update object contents next, b =>
    (∀ n name, object = .host n name →
      b.given (.cell n) ∧ b.objects n ∧ ∀ k ∈ contents.claims, b.May k) ∧ next.Honest b.renew
  | .textOf _ _ next, b => ∀ text, (next text).Honest b
  | .keep values next, b => (∀ k ∈ claimsOf values, b.May k) ∧ next.Honest (b.keep values)
  | .notify target _ args next, b =>
    (∀ k ∈ target.claims, b.given k) ∧ (∀ k ∈ claimsOf args, b.given k) ∧
      ∀ reply, (next reply).Honest b.renew
  | .ask target _ args next, b =>
    (∀ k ∈ target.claims, b.given k) ∧ (∀ k ∈ claimsOf args, b.given k) ∧
      ∀ reply, (next reply).Honest (b.answered reply)

/-- Honest code stays honest when it may use more. -/
theorem Action.Honest.mono (action : Action) : ∀ {b b' : Sight}, b.Within b' → action.Honest b → action.Honest b' := by
  induction action with
  | done | create => exact fun hb h k hk => hb.may (h k hk)
  | raise message => exact fun _ _ => trivial
  | inspect object next ih => exact fun hb h found => ih found (hb.look object found) (h found)
  | update object contents next ih =>
    refine fun hb h => ⟨fun n name hn => ?_, ih hb.renew h.2⟩
    obtain ⟨hgiven, hseen, hclaims⟩ := h.1 n name hn
    exact ⟨hb.given _ hgiven, hb.objects n hseen, fun k hk => hb.may (hclaims k hk)⟩
  | textOf locked value next ih => exact fun hb h text => ih text hb (h text)
  | keep values next ih => exact fun hb h => ⟨fun k hk => hb.may (h.1 k hk), ih (hb.keep values) h.2⟩
  | notify target method args next ih =>
    exact fun hb h => ⟨fun k hk => hb.given k (h.1 k hk), fun k hk => hb.given k (h.2.1 k hk),
      fun reply => ih reply hb.renew (h.2.2 reply)⟩
  | ask target method args next ih =>
    exact fun hb h => ⟨fun k hk => hb.given k (h.1 k hk), fun k hk => hb.given k (h.2.1 k hk),
      fun reply => ih reply (hb.answered reply) (h.2.2 reply)⟩

/-- The claims that a receiver and arguments are, and those that classes own. -/
def givenBy (r : Multiset Claim) (receiver : Option Value) (args : List Value) : Sight where
  given := fun k => k ∈ claimsOf (receiver.toList ++ args) ∨ k ∈ r

theorem givenBy_within (hr : r ⊆ r') (receiver : Option Value) (args : List Value) :
    (givenBy r receiver args).Within (givenBy r' receiver args) :=
  ⟨fun _ hk => hk.imp_right (hr ·), fun _ hk => hk, fun _ hn => hn⟩

/-- A method uses only its receiver, its arguments and what its class owns. -/
def HostMethod.Honest (r : Multiset Claim) (m : HostMethod) : Prop :=
  ∀ body, m.body = some body → ∀ receiver args, (body receiver args).Honest (givenBy r receiver args)

/-- A field uses only its receiver, the value that it is given and what its class owns. -/
structure HostField.Honest (r : Multiset Claim) (f : HostField) : Prop where
  read : ∀ receiver, (f.read receiver).Honest (givenBy r receiver [])
  write : ∀ write, f.write = some write → ∀ receiver value,
    (write receiver value).Honest (givenBy r receiver [value])

/-- All members of a class are honest. -/
structure HostClass.Honest (r : Multiset Claim) (c : HostClass) : Prop where
  constructors : ∀ m ∈ c.constructors, m.Honest r
  methods : ∀ m ∈ c.methods, m.Honest r
  fields : ∀ f ∈ c.fields, f.Honest r

/-- All classes are honest, and own no more than the given claims. -/
def Classes.Honest (r : Multiset Claim) (cs : Classes) : Prop := ∀ c ∈ cs.records, c.Honest r

theorem HostClass.Honest.mono (hr : r ⊆ r') (h : c.Honest r) : c.Honest r' := by
  have hmethod : ∀ m : HostMethod, m.Honest r → m.Honest r' := fun m hm body hbody receiver args =>
    (hm body hbody receiver args).mono _ (givenBy_within hr receiver args)
  refine ⟨fun m hm => hmethod m (h.constructors m hm), fun m hm => hmethod m (h.methods m hm),
    fun f hf => ⟨fun receiver => ?_, fun write hw receiver value => ?_⟩⟩
  · exact ((h.fields f hf).read receiver).mono _ (givenBy_within hr receiver [])
  · exact ((h.fields f hf).write write hw receiver value).mono _ (givenBy_within hr receiver [value])

theorem Classes.Honest.mono (hr : r ⊆ r') (h : cs.Honest r) : cs.Honest r' := fun c hc => (h c hc).mono hr

theorem Classes.mem_of_load? (hc : cs.load? name = some c) : c ∈ cs.records := by
  obtain ⟨i, -, hi⟩ := Option.bind_eq_some_iff.1 hc
  exact Array.mem_of_getElem? hi

theorem Classes.Honest.register (h : cs.Honest r) (hc : c.Honest r) : (cs.register c).Honest r := by
  intro c' hc'
  rcases Array.mem_push.1 hc' with hm | rfl
  · exact h c' hm
  · exact ⟨hc.constructors, hc.methods, hc.fields⟩

theorem HostClass.Honest.field? (h : c.Honest r) (hf : c.field? name = some f) : f.Honest r :=
  h.fields f (List.mem_of_find?_eq_some hf)

theorem HostClass.Honest.instanceField? (h : c.Honest r) (hf : c.instanceField? name = some f) :
    f.Honest r :=
  h.field? (Option.filter_eq_some_iff.1 hf).1

/-! ## Modest host code -/

/-- A host object that refers to nothing. -/
def HostObject.Bare (o : HostObject) : Prop := ∀ v ∈ o.slots.values ++ o.items, v.claim? = none

/-- Host code that keeps to its receiver: it looks at nothing else, writes to it once it has seen that it is
a host object, and passes on nothing but it and what refers to nothing. -/
def Action.Modest (receiver : Option Value) : Action → Bool → Prop
  | .done value, _ => value.claim? = none ∨ receiver = some value
  | .create object, _ => object.Bare
  | .raise _, _ => True
  | .inspect object next, _ => receiver = some object ∧ ∀ found, (next found).Modest receiver found.isSome
  | .update object contents next, seen =>
    receiver = some object ∧ seen ∧ contents.Bare ∧ next.Modest receiver false
  | .textOf _ _ next, seen => ∀ text, (next text).Modest receiver seen
  | .keep .., _ | .notify .., _ | .ask .., _ => False

/-- All members of a class are modest, and its fields cannot be written. -/
structure HostClass.Modest (c : HostClass) : Prop where
  methods : ∀ m ∈ c.constructors ++ c.methods, ∀ body, m.body = some body →
    ∀ receiver args, (body receiver args).Modest receiver false
  fields : ∀ f ∈ c.fields, f.write = none ∧ ∀ receiver, (f.read receiver).Modest receiver false

theorem claims_of_bare {v : Value} (h : v.claim? = none) (k : Claim) : k ∉ v.claims := by
  rw [Value.claims, h]
  exact Multiset.notMem_zero k

theorem HostObject.Bare.claims {o : HostObject} (h : o.Bare) (k : Claim) : k ∉ o.claims := by
  intro hk
  obtain ⟨v, hv, hvk⟩ := List.mem_filterMap.1 hk
  rw [h v hv] at hvk
  cases hvk

/-- Modest code is honest when its receiver is kept for it. -/
theorem Action.Modest.honest {receiver : Option Value} (action : Action) : ∀ {seen : Bool} {b : Sight},
    action.Modest receiver seen → (∀ v, receiver = some v → ∀ k ∈ v.claims, b.given k) →
    (seen → ∀ n name, receiver = some (.host n name) → b.objects n) → action.Honest b := by
  induction action with
  | done value =>
    intro seen b h hgiven _ k hk
    exact h.elim (fun hbare => absurd hk (claims_of_bare hbare k)) fun hv => .inl (hgiven value hv k hk)
  | create object => exact fun h _ _ k hk => absurd hk (h.claims k)
  | raise message => exact fun _ _ _ => trivial
  | inspect object next ih =>
    intro seen b h hgiven _ found
    refine ih found (h.2 found) hgiven fun hfound n name hn => .inr ⟨⟨name, ?_⟩, hfound⟩
    exact Option.some.inj (h.1.symm.trans hn)
  | update object contents next ih =>
    intro seen b h hgiven hseen
    refine ⟨?_, ih h.2.2.2 hgiven fun hfalse => absurd hfalse Bool.false_ne_true⟩
    rintro n name rfl
    exact ⟨hgiven _ h.1 _ (Multiset.mem_singleton_self _), hseen h.2.1 n name h.1,
      fun k hk => absurd hk (h.2.2.1.claims k)⟩
  | textOf locked value next ih => exact fun h hgiven hseen text => ih text (h text) hgiven hseen
  | keep values next ih => exact fun h => h.elim
  | notify target method args next ih | ask target method args next ih => exact fun h => h.elim

theorem given_receiver {v : Value} {k : Claim} (hk : k ∈ v.claims) (args : List Value) :
    (givenBy r (some v) args).given k :=
  .inl (mem_claimsOf.2 ⟨v, List.mem_cons_self, hk⟩)

theorem HostClass.Modest.honest (h : c.Modest) (r : Multiset Claim) : c.Honest r := by
  have hgiven : ∀ receiver args v, receiver = some v → ∀ k ∈ v.claims, (givenBy r receiver args).given k := by
    rintro _ args v rfl k hk
    exact given_receiver hk args
  have hmethod : ∀ m ∈ c.constructors ++ c.methods, m.Honest r := fun m hm body hbody receiver args =>
    (h.methods m hm body hbody receiver args).honest _ (hgiven receiver args) fun hfalse =>
      absurd hfalse Bool.false_ne_true
  refine ⟨fun m hm => hmethod m (List.mem_append_left _ hm), fun m hm => hmethod m (List.mem_append_right _ hm),
    fun f hf => ⟨fun receiver => ?_, fun write hw => ?_⟩⟩
  · exact ((h.fields f hf).2 receiver).honest _ (hgiven receiver []) fun hfalse =>
      absurd hfalse Bool.false_ne_true
  · rw [(h.fields f hf).1] at hw
    cases hw

/-! ## The package `lang` -/

namespace Lang

section

variable {receiver : Option Value} {seen : Bool}

theorem modest_onText {next : List Char → Action} (h : ∀ cs, (next cs).Modest receiver seen) :
    (onText receiver next).Modest receiver seen := by
  unfold onText
  split
  · exact h _
  · trivial

theorem modest_withText {args : List Value} {i : Nat} {next : String → Action}
    (h : ∀ s, (next s).Modest receiver seen) : (withText args i next).Modest receiver seen := by
  unfold withText
  split
  · exact h _
  · trivial

theorem modest_returnSlice (slice : Except String (List Char)) : (returnSlice slice).Modest receiver seen := by
  cases slice with
  | ok cs => exact .inl rfl
  | error message => trivial

/-- A builder is looked at before anything else is done with it. -/
theorem modest_onBuilder {next : Value → String → Action}
    (h : ∀ object text, receiver = some object → (next object text).Modest receiver true) :
    (onBuilder receiver next).Modest receiver seen := by
  cases receiver with
  | none => trivial
  | some object =>
    refine ⟨rfl, fun found => ?_⟩
    cases found with
    | none => trivial
    | some o =>
      dsimp only
      split
      · exact h object _ rfl
      · trivial

end

theorem bare_builder (text : String) : (builder text).Bare := by
  intro v hv
  rw [List.mem_singleton.1 hv]
  rfl

theorem modest_textClass : textClass.Modest := by
  refine ⟨fun m hm => ?_, fun f hf => absurd hf List.not_mem_nil⟩
  simp only [textClass, List.nil_append, List.mem_cons, List.not_mem_nil, or_false] at hm
  rcases hm with rfl | rfl | rfl | rfl | rfl | rfl | rfl | rfl | rfl | rfl | rfl | rfl <;>
    rintro _ ⟨⟩ receiver args
  · exact modest_onText fun cs => .inl rfl
  · refine modest_onText fun cs => ?_
    dsimp only
    split
    · exact .inl rfl
    · trivial
  · exact modest_onText fun cs => modest_returnSlice _
  · exact modest_onText fun cs => modest_returnSlice _
  · exact modest_onText fun cs => .inl rfl
  · exact modest_onText fun cs => .inl rfl
  · exact modest_onText fun cs => .inl rfl
  · exact modest_onText fun cs => modest_withText fun s => .inl rfl
  · exact modest_onText fun cs => modest_withText fun s => .inl rfl
  · exact modest_onText fun cs => modest_withText fun s => .inl rfl
  · exact modest_onText fun cs => .inl rfl
  · exact fun text => .inl rfl

theorem modest_mathClass : mathClass.Modest := by
  refine ⟨fun m hm => ?_, fun f hf => ?_⟩
  · simp only [mathClass, List.nil_append, List.mem_cons, List.not_mem_nil, or_false] at hm
    rcases hm with rfl | rfl | rfl | rfl | rfl | rfl | rfl | rfl | rfl | rfl | rfl <;>
      exact fun _ hbody _ _ => Option.some.inj hbody ▸ .inl rfl
  · simp only [mathClass, List.mem_cons, List.not_mem_nil, or_false] at hf
    rcases hf with rfl | rfl <;> exact ⟨rfl, fun _ => .inl rfl⟩

theorem modest_integerClass : integerClass.Modest := by
  refine ⟨fun m hm => ?_, fun f hf => ?_⟩
  · simp only [integerClass, List.nil_append, List.mem_singleton] at hm
    subst hm
    rintro _ ⟨⟩ receiver args
    refine modest_withText fun text => ?_
    split
    · exact .inl rfl
    · trivial
  · simp only [integerClass, List.mem_cons, List.not_mem_nil, or_false] at hf
    rcases hf with rfl | rfl <;> exact ⟨rfl, fun _ => .inl rfl⟩

theorem modest_objectClass : objectClass.Modest := by
  refine ⟨fun m hm => ?_, fun f hf => absurd hf List.not_mem_nil⟩
  simp only [objectClass, List.append_nil, List.mem_singleton] at hm
  subst hm
  rintro _ ⟨⟩ receiver args v hv
  exact absurd hv List.not_mem_nil

theorem modest_builderClass : builderClass.Modest := by
  refine ⟨fun m hm => ?_, fun f hf => absurd hf List.not_mem_nil⟩
  simp only [builderClass, List.cons_append, List.nil_append, List.mem_cons, List.not_mem_nil, or_false] at hm
  rcases hm with rfl | rfl | rfl | rfl | rfl <;> rintro _ ⟨⟩ receiver args
  · exact bare_builder ""
  · exact modest_withText bare_builder
  · -- appending writes to the builder that was given, after a look at it, and gives it back
    exact modest_onBuilder fun object text hr more => ⟨hr, rfl, bare_builder _, .inr hr⟩
  · exact modest_onBuilder fun object text _ => .inl rfl
  · exact modest_onBuilder fun object text _ => .inl rfl

theorem modest_classes : ∀ c ∈ classes, c.Modest := by
  simp only [classes, List.forall_mem_cons, List.not_mem_nil, false_implies, implies_true, and_true]
  exact ⟨modest_objectClass, modest_textClass, modest_mathClass, modest_integerClass, modest_builderClass⟩

/-- The classes that every interpreter starts with are honest. -/
theorem honest_classes (r : Multiset Claim) : (classes.foldl Classes.register {}).Honest r := by
  have hempty : ({} : Classes).Honest r := fun c hc => absurd hc (Array.not_mem_empty c)
  exact List.foldlRecOn classes Classes.register hempty fun _ hcs c hc =>
    hcs.register ((modest_classes c hc).honest r)

end Lang

/-! ## The package `ui` -/

namespace Toolkit

variable {receiver : Option Value} {args : List Value} {b : Sight}

/-- A button owns what its listeners are. -/
theorem claims_button (label : String) (clicks : Int32) (listeners : List Value) :
    ((button label clicks listeners).claims : Multiset Claim) = claimsOf listeners := by
  rw [← coe_filterMap_claim]
  rfl

theorem mem_claims_button {label : String} {clicks : Int32} {listeners : List Value} {k : Claim} :
    k ∈ (button label clicks listeners).claims ↔ k ∈ claimsOf listeners := by
  rw [← claims_button label clicks, Multiset.mem_coe]

/-- What the items of an object are is seen with the object. -/
theorem mem_claims_of_items {o : HostObject} {k : Claim} (hk : k ∈ claimsOf o.items) : k ∈ o.claims := by
  rw [← coe_filterMap_claim, Multiset.mem_coe] at hk
  unfold HostObject.claims
  rw [List.filterMap_append]
  exact List.mem_append_right _ hk

/-- A button is looked at before anything else is done with it. -/
theorem honest_onButton {next : Value → HostObject → Action}
    (h : ∀ object o, receiver = some object → (next object o).Honest (b.look object (some o))) :
    (onButton receiver next).Honest b := by
  cases receiver with
  | none => trivial
  | some object =>
    intro found
    cases found with
    | none => trivial
    | some o =>
      dsimp only
      split
      · exact h object o rfl
      · trivial

/-- A button that was given and has been looked at may be changed. -/
theorem honest_update {object : Value} {o contents : HostObject} {next : Action}
    (hgiven : ∀ k ∈ object.claims, b.given k)
    (hclaims : ∀ k ∈ contents.claims, (b.look object (some o)).May k)
    (hnext : next.Honest b.renew) : (Action.update object contents next).Honest (b.look object (some o)) := by
  refine ⟨?_, hnext⟩
  rintro n name rfl
  exact ⟨hgiven _ (Multiset.mem_singleton_self _), .inr ⟨⟨name, rfl⟩, rfl⟩, hclaims⟩

/-- Listeners that are kept can be told one after the other. -/
theorem honest_tell (listeners : List Value) : ∀ {b : Sight}, (∀ k ∈ claimsOf listeners, b.given k) →
    (tell listeners).Honest b := by
  induction listeners with
  | nil => exact fun _ k hk => absurd hk (Multiset.notMem_zero k)
  | cons listener rest ih =>
    intro b h
    rw [claimsOf_cons] at h
    refine ⟨fun k hk => h k (Multiset.mem_add.2 (.inl hk)), fun k hk => ?_, fun reply => ?_⟩
    · exact absurd hk (Multiset.notMem_zero k)
    · cases reply with
      | answered found => exact ih fun k hk => h k (Multiset.mem_add.2 (.inr hk))
      | notScripted | failed message => trivial

theorem honest_buttonClass (r : Multiset Claim) : buttonClass.Honest r := by
  have hdone : ∀ {b : Sight}, (Action.done .void).Honest b := fun k hk => absurd hk (Multiset.notMem_zero k)
  refine ⟨fun m hm => ?_, fun m hm => ?_, fun f hf => ?_⟩
  · rw [List.mem_singleton.1 hm]
    rintro _ ⟨⟩ receiver args k hk
    exact absurd (mem_claims_button.1 hk) (Multiset.notMem_zero k)
  · simp only [buttonClass, List.mem_cons, List.not_mem_nil, or_false] at hm
    rcases hm with rfl | rfl | rfl | rfl <;> rintro _ ⟨⟩ receiver args
    · refine honest_onButton fun object o hr => honest_update (fun k hk => hr ▸ given_receiver hk args)
        (fun k hk => ?_) hdone
      -- the listeners so far are seen in the button, and the new one is given
      rw [mem_claims_button, claimsOf_append, Multiset.mem_add] at hk
      refine hk.elim (fun hold => .inr (.inr ⟨o, rfl, mem_claims_of_items hold⟩)) fun hnew => ?_
      obtain ⟨v, hv, hkv⟩ := mem_claimsOf.1 hnew
      exact .inl (.inl (mem_claimsOf.2 ⟨v, List.mem_append_right _ (List.mem_of_mem_take hv), hkv⟩))
    · refine honest_onButton fun object o hr => ⟨fun k hk => ?_, ?_⟩
      · exact .inr (.inr ⟨o, rfl, mem_claims_of_items hk⟩)
      · exact honest_update (b := (givenBy r receiver args).keep o.items)
          (fun k hk => .inl (hr ▸ given_receiver hk args)) (fun k hk => .inl (.inr (mem_claims_button.1 hk)))
          (honest_tell o.items fun k hk => .inr hk)
    · exact honest_onButton fun object o hr k hk => absurd hk (Multiset.notMem_zero k)
    · exact fun text => trivial
  · rw [List.mem_singleton.1 hf]
    refine ⟨fun receiver => ?_, ?_⟩
    · exact honest_onButton fun object o hr k hk => absurd hk (Multiset.notMem_zero k)
    · rintro _ ⟨⟩ receiver value
      refine honest_onButton fun object o hr label => honest_update (fun k hk => hr ▸ given_receiver hk _)
        (fun k hk => ?_) hdone
      exact .inr (.inr ⟨o, rfl, mem_claims_of_items (mem_claims_button.1 hk)⟩)

theorem modest_greeterClass : greeterClass.Modest := by
  refine ⟨fun m hm => ?_, fun f hf => ?_⟩
  · simp only [greeterClass, List.nil_append, List.mem_cons, List.not_mem_nil, or_false] at hm
    rcases hm with rfl | rfl | rfl | rfl | rfl | rfl | rfl | rfl <;>
      exact fun _ hbody _ _ => Option.some.inj hbody ▸ .inl rfl
  · rw [List.mem_singleton.1 hf]
    exact ⟨rfl, fun _ => .inl rfl⟩

/-- An interface has nothing to run. -/
theorem modest_interfaceOf (name : String) (supertypes : List String) (methodName : String)
    (params : List ValueType) : (interfaceOf name supertypes methodName params).Modest := by
  refine ⟨fun m hm body hbody => ?_, fun f hf => absurd hf List.not_mem_nil⟩
  rw [List.mem_singleton.1 hm] at hbody
  cases hbody

/-- The classes of the packages `lang` and `ui` are honest. -/
theorem honest_classes (r : Multiset Claim) : ((Lang.classes ++ classes).foldl Classes.register {}).Honest r := by
  rw [List.foldl_append]
  refine List.foldlRecOn classes Classes.register (Lang.honest_classes r) fun _ hcs c hc => hcs.register ?_
  simp only [classes, List.mem_cons, List.not_mem_nil, or_false] at hc
  rcases hc with rfl | rfl | rfl | rfl | rfl | rfl
  · exact honest_buttonClass r
  · exact modest_greeterClass.honest r
  all_goals exact (modest_interfaceOf _ _ _ _).honest r

end Toolkit

end HostScript
