import HostScript.Proofs.FrameTables
import HostScript.Proofs.Ownership
import HostScript.Proofs.Woven

/-!
# Owning values: single steps

How the steps that evaluations are made of move claims about: copying and dropping values, looking at
frames and changing them, making frames, cells and objects, and running a computation in a new frame or
on another stack.
-/

set_option autoImplicit false

namespace HostScript

/-- The claim that owning a reference is. -/
def Reference.claims (ref : Reference) : Multiset Claim := claimsOf ref.owned?.toList

/-- The claim that owning the value of a flow is. -/
def Flow.claims (flow : Flow) : Multiset Claim := claimsOf flow.value?.toList

@[simp] theorem Flow.claims_normal (v : Value) : (Flow.normal v).claims = v.claims := by
  simp [Flow.claims, Flow.value?]

@[simp] theorem Flow.claims_returned (v : Value) : (Flow.returned v).claims = v.claims := by
  simp [Flow.claims, Flow.value?]

@[simp] theorem Flow.claims_continued : Flow.continued.claims = 0 := rfl

theorem Flow.discard_eq (flow : Flow) (m : Machine) : flow.discard m = m.dropAll flow.value?.toList := by
  unfold Flow.discard
  cases flow.value? <;> rfl

theorem dropReference_eq (ref : Reference) (m : Machine) :
    Exec.dropReference ref m = m.dropAll ref.owned?.toList := by
  unfold Exec.dropReference
  cases ref.owned? <;> rfl

namespace Machine

variable [Trust] {m m' : Machine} {o r : Multiset Claim} {id scope : ScopeId} {stack : List ScopeId}

/-- The walk from a pinned frame outwards goes through. -/
theorem Ready.lineage (h : m.Ready o r) (hs : m.store.Pinned r scope) :
    ∃ frames, m.store.arena.Lineage scope frames :=
  h.sound.frames.rooted scope (h.live hs)

/-- A machine with another stack of pinned frames. -/
theorem Ready.onStack (h : m.Ready o r) (hne : stack ≠ []) (hs : ∀ id ∈ stack, m.store.Pinned r id) :
    ({ m with stack } : Machine).Ready o r :=
  ⟨h.sound, ⟨hne, hs, h.kept.global, h.kept.utilities⟩, h.kept.classes⟩

/-- The creator of a frame lends its claim to what runs in it, which pins the frame on the stack. -/
theorem Ready.inside (h : m.Ready ({.frame id} + o) r) :
    ({ m with stack := id :: m.stack } : Machine).Ready o ({.frame id} + r) := by
  rw [add_comm] at h
  refine h.lend.onStack (List.cons_ne_nil _ _) fun id' hid' => ?_
  rcases List.mem_cons.1 hid' with rfl | hid'
  · exact .held (Multiset.mem_add.2 (.inl (Multiset.mem_singleton_self _)))
  · exact h.lend.kept.frames id' hid'

/-- A machine at another depth of calls. -/
theorem Ready.atDepth (h : m.Ready o r) (depth : Nat) : ({ m with depth } : Machine).Ready o r :=
  ⟨h.sound, ⟨h.kept.stack, h.kept.frames, h.kept.global, h.kept.utilities⟩, h.kept.classes⟩

/-- Everything that is stored refers to frames that are live. -/
theorem Ready.confined (h : m.Ready o r) (hclasses : m.classes.Honest r) :
    m.Confined (.frames m.store.arena.Live) := by
  refine ⟨fun id f hf => ?_, fun n c hc => ?_, hclasses.confined fun _ hid => h.holds hid⟩
  · exact Frame.confined_iff_claims.2 fun k hk => h.sound.holds_of_frame hf hk
  · exact Contents.confined_iff_claims.2 fun k hk => h.sound.holds_of_cell hc hk

/-- A computation in a frame of its own, without the frame. -/
theorem Yields.outOfFrame (h : m.Kept r)
    (hl : Yields ({.frame id} + r) o { m with stack := id :: m.stack } m') :
    m.Yields r o { m' with stack := m'.stack.tail, store := m'.store.release id } := by
  have hsound := hl.ready.sound
  rw [add_left_comm] at hsound
  have hreleased := Store.unwinds_sound.release hsound
  have hcontinues := (Store.ebbs_release m'.store id).continues
  have hsteady : m.store.Steady r (m'.store.release id) :=
    (hl.steady.mono Multiset.subset_add_right).trans
      (hcontinues.steady hreleased Multiset.subset_add_right)
  have ha : m.Alike (m'.leave id) := hl.alike.leave
  exact ⟨⟨hreleased, h.of_steady ha hsteady⟩, ha, hsteady,
    hcontinues.truthful hsound hreleased ∘ hl.truthful⟩

variable [Holding]

/-- A pinned frame outlives the queued releases. -/
theorem Ready.live_settle (h : m.Ready o r) (hs : m.store.Pinned r scope) :
    m.settle.store.arena.Live scope :=
  h.settle.1.ready.live (h.settle.1.pinned hs)

/-- The frames above a pinned one stay above it. -/
theorem Leaves.above (hl : m.Leaves r o m') {d : ScopeId} (hs : m.store.Pinned r scope)
    (ha : m.store.arena.Above scope d) : m'.store.arena.Above scope d := by
  induction ha with
  | refl => exact Relation.ReflTransGen.refl
  | tail hb hp ih => exact ih.tail (hl.steady.frames _ _ (hs.above hb) hp)

/-- A computation on another stack leaves the machine with the stack that it had. -/
theorem Leaves.offStack (h : m.Kept r) (hl : Leaves r o { m with stack } m') :
    m.Leaves r o { m' with stack := m.stack } := by
  have ha : m.Alike { m' with stack := m.stack } := hl.alike.offStack
  exact ⟨⟨⟨hl.ready.sound, h.of_steady ha hl.steady⟩, ha, hl.steady, hl.truthful⟩, hl.lasting⟩

theorem Leaves.ofJournal (h : m.Ready o r) (journal : List HostCallback) :
    m.Leaves r o { m with journal } := by
  have ha := Alike.ofJournal m journal
  exact ⟨⟨⟨h.sound, h.kept.of_steady ha (.refl r _)⟩, ha, .refl r _, id⟩, .refl _⟩

theorem Leaves.ofConsole (h : m.Ready o r) (console : Console) : m.Leaves r o { m with console } := by
  have ha := Alike.ofConsole m console
  exact ⟨⟨⟨h.sound, h.kept.of_steady ha (.refl r _)⟩, ha, .refl r _, id⟩, .refl _⟩

/-- A frame has been made: its creator owns it, nothing is inside it, and all other frames were there. -/
structure Made (r o : Multiset Claim) (m : Machine) (id : ScopeId) (m' : Machine) : Prop
    extends Yields r ({.frame id} + o) m m' where
  fresh : ¬ m.settle.store.arena.Live id
  inside : ∀ k g, m'.store.arena.frame? k = some g → g.parent ≠ some id
  others : ∀ k g, m'.store.arena.frame? k = some g → k ≠ id →
    ∃ f, m.settle.store.arena.frame? k = some f ∧ f.parent = g.parent
  confined : m.classes.Honest r → m'.Confined (.frames m.settle.store.arena.Live)

/-- A computation in a frame of its own leaves the machine without the frame. If frames may not be held, the
computation has to have stored and returned nothing that refers to the new frame. -/
theorem Made.outOfFrame {o' : Multiset Claim} {m1 : Machine} (hmade : m.Made r o id m1)
    (h : m.Ready o r) (hl : Leaves ({.frame id} + r) o' { m1 with stack := id :: m1.stack } m')
    (hfree : Holding.allowed ∨ m'.Confined (.frames m.settle.store.arena.Live) ∧ .frame id ∉ o') :
    m.Leaves r o' { m' with stack := m'.stack.tail, store := m'.store.release id } := by
  refine ⟨hmade.toYields.trans (.outOfFrame hmade.ready.kept hl.toYields), ?_⟩
  rcases hfree with ha | ⟨hconfined, ho'⟩
  · exact .inl ha
  refine h.settle.1.lasting.trans (hl.lasting.imp_right fun hcovers k g hg => ?_)
  have hsound := hl.ready.sound
  rw [add_left_comm] at hsound
  have hr : .frame id ∉ o' + r := fun hid =>
    (Multiset.mem_add.1 hid).elim ho' fun hid => hmade.fresh (h.settle.1.ready.holds hid)
  have hinside : ∀ k g, m'.store.arena.frame? k = some g → g.parent ≠ some id := by
    intro k g hg hparent
    obtain ⟨f, hf, hfg⟩ := hcovers k g hg
    exact hmade.inside k f hf (hfg.trans hparent)
  have hgone : ¬ (m'.store.release id).arena.Live id :=
    Store.release_frees hsound (hconfined.unattached hmade.fresh hinside) hr
  -- what is left was there beside the new frame
  obtain ⟨f, hf, hfg⟩ := (hcovers.trans (Store.ebbs_release _ id).covers) k g hg
  have hk : k ≠ id := by
    rintro rfl
    exact hgone (Arena.live_of_frame? hg)
  obtain ⟨e, he, hef⟩ := hmade.others k f hf hk
  exact ⟨e, he, hef.trans hfg⟩

end Machine

namespace Exec

open Machine

variable {α β : Type} {m m' : Machine} {o o' r : Multiset Claim} {v : Value} {vs : List Value}
  {own own' : α → Multiset Claim} {P Q : α → Machine → Prop} {R : α → Prop} {x : Exec α}
  {id : ScopeId} {name : String} {kind : FrameKind} {parent : Option ScopeId}
  {declared : Option ValueType} {change : Frame → Frame × Option Value × α}

/-! ## Changes of frames -/

/-- The claims of a value that a change of a frame removes. -/
def removedClaims (removed : Option Value) : Multiset Claim := claimsOf removed.toList

/-- A change of a frame that accounts for the claims that it moves. -/
structure Accounts (id : ScopeId) (o o' : Multiset Claim)
    (change : Frame → Frame × Option Value × α) : Prop where
  parent : ∀ f, (change f).1.parent = f.parent
  owners : ∀ f, (change f).1.owners = f.owners
  methods : ∀ f, (change f).1.methods = f.methods
  tidy : ∀ f, f.Tidy id → (change f).1.Tidy id
  claims : ∀ f, f.Tidy id → ((change f).1.claims : Multiset Claim) +
    (removedClaims (change f).2.1 + o') = f.claims + o

theorem changeFrame_of_not_live (hn : ¬ m.settle.store.arena.Live id) :
    changeFrame id change m = .error (.broken (.staleFrame id)) m.settle :=
  changeFrame_of_none (Arena.not_live_iff.1 hn)

theorem accounts_define (id : ScopeId) (name : String) (v : Value) (declared : Option ValueType)
    (o : Multiset Claim) : Accounts id (v.claims + o) o fun f =>
      (f.setVariable name ⟨v, declared⟩, (f.vars.get? name).map (·.value), ()) := by
  refine ⟨fun f => rfl, fun f => rfl, fun f => rfl, fun f ht => ht.setVariable name _, fun f _ => ?_⟩
  show ((f.setVariable name ⟨v, declared⟩).claims : Multiset Claim) +
    (claimsOf ((f.vars.get? name).map Variable.value).toList + o) = _
  rw [← add_assoc, Frame.claims_setVariable, add_assoc]

theorem accounts_undefine (id : ScopeId) (name : String) (o : Multiset Claim) :
    Accounts id o o fun f =>
      ({ f with vars := f.vars.erase name }, (f.vars.get? name).map (·.value),
        (f.vars.get? name).isSome) := by
  refine ⟨fun f => rfl, fun f => rfl, fun f => rfl, fun f ht => ht.erase name, fun f ht => ?_⟩
  show (({ f with vars := f.vars.erase name } : Frame).claims : Multiset Claim) +
    (claimsOf ((f.vars.get? name).map Variable.value).toList + o) = _
  rw [← add_assoc, Frame.claims_erase ht]

/-- A change that leaves the variables and the bound object alone moves no claim. -/
theorem accounts_of_same {change : Frame → Frame} (o : Multiset Claim)
    (hparent : ∀ f, (change f).parent = f.parent) (howners : ∀ f, (change f).owners = f.owners)
    (hvars : ∀ f, (change f).vars = f.vars) (hbound : ∀ f, (change f).bound = f.bound)
    (hmethods : ∀ f, (change f).methods = f.methods) :
    Accounts id o o fun f => (change f, none, ()) := by
  refine ⟨hparent, howners, hmethods, fun f ht => ⟨?_, ?_⟩, fun f _ => ?_⟩
  · rw [hvars]
    exact ht.nodup
  · rw [hmethods]
    exact ht.declaring
  · unfold Frame.claims
    rw [hvars, hbound]
    show _ + ((0 : Multiset Claim) + o) = _
    rw [zero_add]

variable [Holding] [Trust]

/-! ## Values -/

theorem ends_drop (h : m.Ready (v.claims + o) r) : Owns r (fun _ => o) m (drop v) :=
  ⟨h.drop, trivial⟩

/-- A value is dropped that is all that was owned. -/
theorem ends_dropLast (h : m.Ready v.claims r) : Owns r (fun _ => 0) m (drop v) := by
  rw [← add_zero v.claims] at h
  exact ends_drop h

theorem ends_dropAll (h : m.Ready (claimsOf vs + o) r) :
    Owns r (fun _ => o) m (modify (·.dropAll vs) : Exec Unit) :=
  ⟨h.dropAll vs, trivial⟩

theorem ends_discard {flow : Flow} (h : m.Ready (flow.claims + o) r) :
    Owns r (fun _ => o) m (modify flow.discard : Exec Unit) := by
  refine ⟨?_, trivial⟩
  rw [Flow.discard_eq]
  exact h.dropAll _

theorem ends_copy (h : m.Ready o r) (hv : ∀ k ∈ v.claims, m.store.Holds k) :
    Ends r (fun w => w.claims + o) m (fun w _ => w = v) (copy v) :=
  ⟨h.retain hv, rfl⟩

/-- A copy made by a computation that owns nothing else. -/
theorem ends_copied (h : m.Ready 0 r) (hv : ∀ k ∈ v.claims, m.store.Holds k) :
    Ends r Value.claims m (fun w _ => w = v) (copy v) := by
  have hcopy := h.retain hv
  rw [add_zero] at hcopy
  exact ⟨hcopy, rfl⟩

theorem ends_copyAll (h : m.Ready o r) (hv : ∀ k ∈ claimsOf vs, m.store.Holds k) :
    Ends r (fun ws => claimsOf ws + o) m (fun ws _ => ws = vs) (copyAll vs) :=
  ⟨h.retainAll vs hv, rfl⟩

theorem ends_textOf (h : m.Ready 0 r) (v : Value) (locked : Option Value) :
    Ends r (fun _ => 0) m (fun _ m' => m' = m) (textOf v locked) := by
  refine Ends.get ?_
  split
  · exact .pure h rfl
  · exact .throw h trivial

theorem ends_modify {f : Machine → Machine} (hl : m.Leaves r o (f m)) :
    Ends r (fun _ => o) m (fun _ m' => m' = f m) (modify f : Exec Unit) :=
  ⟨hl, rfl⟩

/-- A computation after which a reference is dropped. -/
theorem Ends.usingReference {ref : Reference} (h : m.Ready (o + ref.claims) r)
    (hx : m.Ready o (ref.claims + r) → Ends (ref.claims + r) own m (fun a _ => R a) x) :
    Ends r own m (fun a _ => R a) (afterwards x (dropReference ref)) := by
  have hclean : dropReference ref = (·.dropAll ref.owned?.toList) :=
    funext (dropReference_eq ref)
  rw [hclean]
  exact Ends.holdingAll h hx

/-! ## Frames -/

theorem ends_look {f : Arena → Except ScopeId α} (h : m.Ready o r)
    (hf : ∀ m', m.Leaves r o m' → m' = m.settle → m'.store.arena.dropped = [] →
      ∃ a, f m'.store.arena = .ok a ∧ P a m') : Ends r (fun _ => o) m P (look f) := by
  obtain ⟨hl, hq⟩ := h.settle
  obtain ⟨a, ha, hp⟩ := hf m.settle hl rfl hq
  constructor
  rw [look_of_ok ha]
  exact ⟨hl, hp⟩

theorem ends_frame_of_live (h : m.Ready o r) (hid : m.settle.store.arena.Live id) :
    Ends r (fun _ => o) m (fun f m' => m'.store.arena.frame? id = some f ∧ m'.store.arena.dropped = [])
      (frame id) := by
  refine ends_look h fun m' hl hm hq => ?_
  obtain ⟨f, hf⟩ := Arena.live_iff.1 hid
  rw [← hm] at hf
  exact ⟨f, by rw [hf], hf, hq⟩

theorem ends_frame (h : m.Ready o r) (hid : m.store.Pinned r id) :
    Ends r (fun _ => o) m (fun f m' => m'.store.arena.frame? id = some f ∧ m'.store.arena.dropped = [])
      (frame id) :=
  ends_frame_of_live h (h.live_settle hid)

theorem ends_frameName_of_live (h : m.Ready o r) (hid : m.settle.store.arena.Live id) :
    Ends r (fun _ => o) m (fun _ m' => m'.settle.store.arena.Live id) (frameName id) := by
  refine (ends_frame_of_live h hid).bind fun f m1 h1 hf => .pure h1.ready ?_
  rw [settle_of_settled hf.2]
  exact Arena.live_of_frame? hf.1

theorem ends_frameName (h : m.Ready o r) (hid : m.store.Pinned r id) :
    Owns r (fun _ => o) m (frameName id) :=
  (ends_frameName_of_live h (h.live_settle hid)).imp fun _ _ _ _ => trivial

theorem changeFrame_of_live (h : m.Ready o r) (hl : m.settle.store.arena.Live id)
    (hc : Accounts id o o' change) :
    ∃ a m', changeFrame id change m = .ok a m' ∧ m.Leaves r o' m' := by
  obtain ⟨f, hf⟩ := Arena.live_iff.1 hl
  have hs := h.settle.1
  have ht := hs.ready.sound.tidy id f hf
  -- the removed value is owned by the computation until it is dropped
  have hwrite : m.settle.Leaves r (removedClaims (change f).2.1 + o')
      { m.settle with
        store := { m.settle.store with
          arena := m.settle.store.arena.setFrame id (change f).1 } } := by
    refine .ofStore hs.ready (Store.continues_write hf (hc.parent f) (hc.methods f))
      (.inr (Arena.covers_setFrame hf (hc.parent f))) ?_
    refine hs.ready.sound.write hf (hc.parent f) (hc.owners f) (hc.tidy f ht) ?_
    rw [← add_assoc, hc.claims f ht, add_assoc]
  have hdrop := hwrite.ready.dropAll (change f).2.1.toList
  refine ⟨(change f).2.2, _, ?_, (hs.trans hwrite).trans hdrop⟩
  rw [changeFrame_of_frame hf]
  cases (change f).2.1 <;> rfl

theorem ends_changeFrame (h : m.Ready o r) (hid : m.store.Pinned r id) (hc : Accounts id o o' change) :
    Owns r (fun _ => o') m (changeFrame id change) := by
  have hs := h.settle.1
  obtain ⟨a, m', hr, hl⟩ := changeFrame_of_live h (hs.ready.live (hs.pinned hid)) hc
  constructor
  rw [hr]
  exact ⟨hl, trivial⟩

/-! ### Variables -/

theorem ends_define (h : m.Ready (v.claims + o) r) (hid : m.store.Pinned r id) :
    Owns r (fun _ => o) m (define id name v declared) := by
  have hs := h.settle.1
  obtain ⟨a, m', hr, hl⟩ := changeFrame_of_live h (hs.ready.live (hs.pinned hid))
    (accounts_define id name v declared o)
  constructor
  unfold define unlessFailed onFailure
  rw [hr]
  exact ⟨hl, trivial⟩

/-- A variable takes over a value that is all that was owned. -/
theorem ends_defineLast (h : m.Ready v.claims r) (hid : m.store.Pinned r id) :
    Owns r (fun _ => 0) m (define id name v declared) := by
  rw [← add_zero v.claims] at h
  exact ends_define h hid

/-! ### Through references

A reference to a variable does not own the frame of the variable. If the frame is gone, the use of the
reference ends with the internal error that is permitted. -/

theorem ends_through_changeFrame (h : m.Ready 0 r) (hc : Accounts id 0 0 change) :
    Owns r (fun _ => 0) m (throughReference (changeFrame id change)) := by
  constructor
  unfold throughReference mapFailure
  by_cases hl : m.settle.store.arena.Live id
  · obtain ⟨a, m', hr, hleaves⟩ := changeFrame_of_live h hl hc
    rw [hr]
    exact ⟨hleaves, trivial⟩
  · rw [changeFrame_of_not_live hl]
    exact ⟨h.settle.1, trivial⟩

theorem ends_through_frame (h : m.Ready 0 r) : Ends r (fun _ => 0) m
    (fun f m' => m'.store.arena.frame? id = some f ∧ m'.store.arena.dropped = [])
    (throughReference (frame id)) := by
  constructor
  unfold throughReference mapFailure frame look
  obtain ⟨hs, hq⟩ := h.settle
  dsimp only
  cases hf : m.settle.store.arena.frame? id with
  | none => exact ⟨hs, trivial⟩
  | some f => exact ⟨hs, hf, hq⟩

theorem ends_through_define (h : m.Ready v.claims r) :
    Owns r (fun _ => 0) m (throughReference (define id name v declared)) := by
  constructor
  unfold throughReference mapFailure define unlessFailed onFailure
  by_cases hl : m.settle.store.arena.Live id
  · rw [← add_zero v.claims] at h
    obtain ⟨a, m', hr, hleaves⟩ := changeFrame_of_live h hl (accounts_define id name v declared 0)
    rw [hr]
    exact ⟨hleaves, trivial⟩
  · rw [changeFrame_of_not_live hl]
    have hs := h.settle.1
    rw [← add_zero v.claims] at hs
    exact ⟨hs.trans hs.ready.drop, trivial⟩

/-! ## New frames, objects and cells -/

theorem makeFrame_made (name : String) (kind : FrameKind) (parent : Option ScopeId)
    (h : m.Ready o r) (hlive : ∀ p, parent = some p → m.settle.store.arena.Live p) :
    ∃ id m', makeFrame name kind parent m = .ok id m' ∧ m.Made r o id m' := by
  have hs := h.settle.1
  have hcounted := hs.ready.sound.frames
  have hsound := hs.ready.sound.create name kind hlive
  rw [← add_assoc] at hsound
  have hid := Arena.create_fst m.settle.store.arena name kind parent
  have hfresh : ¬ m.settle.store.arena.Live (m.settle.store.arena.create name kind parent).1 :=
    hid ▸ Arena.not_live_nextId hcounted.orderly
  refine ⟨_, _, rfl, hs.toYields.trans (.ofStore hs.ready
    (Store.continues_create hs.ready.sound name kind parent) hsound), hfresh,
    fun k g hg hparent => ?_, fun k g hg hk => ?_, fun hclasses => ?_⟩
  · -- a frame is inside a live one
    rcases Arena.frame?_create hcounted.orderly hg with ⟨-, rfl⟩ | ⟨f, hf, hgf⟩
    · exact hfresh (hlive _ hparent)
    · rw [hgf] at hparent
      exact hfresh (hcounted.parent_live ⟨f, hf, hparent⟩)
  · rcases Arena.frame?_create hcounted.orderly hg with ⟨hnext, -⟩ | ⟨f, hf, hgf⟩
    · exact absurd (hnext.trans hid.symm) hk
    · exact ⟨f, hf, by rw [hgf]⟩
  · rw [← hs.alike.classes] at hclasses
    exact (hs.ready.confined hclasses).create name kind parent

theorem ends_makeFrame_of_live (ha : Holding.allowed) (h : m.Ready o r)
    (hlive : ∀ p, parent = some p → m.settle.store.arena.Live p) :
    Owns r (fun id => {.frame id} + o) m (makeFrame name kind parent) := by
  obtain ⟨id, m', hr, hmade⟩ := makeFrame_made name kind parent h hlive
  constructor
  rw [hr]
  exact ⟨⟨hmade.toYields, .inl ha⟩, trivial⟩

theorem ends_makeFrame (ha : Holding.allowed) (h : m.Ready o r)
    (hp : ∀ p, parent = some p → m.store.Pinned r p) :
    Owns r (fun id => {.frame id} + o) m (makeFrame name kind parent) :=
  ends_makeFrame_of_live ha h fun p hpp => h.live_settle (hp p hpp)

theorem ends_hold_of_live (h : m.Ready o r) (hlive : m.settle.store.arena.Live id) :
    Ends r (fun _ => {.frame id} + o) m (fun _ m' => m'.store.arena.dropped = []) (hold id) := by
  obtain ⟨hs, hq⟩ := h.settle
  obtain ⟨f, hf⟩ := Arena.live_iff.1 hlive
  have hhold : m.settle.store.arena.hold id = .ok (m.settle.store.arena.retain id) := by
    unfold Arena.hold
    rw [hf]
  have hsound := hs.ready.sound.retain (k := .frame id) hlive
  rw [← add_assoc] at hsound
  constructor
  unfold hold
  simp only [hhold]
  refine ⟨hs.trans (.ofStore hs.ready (Store.continues_retain _ (.frame id)) (Store.lasts_retain _ (.frame id))
    hsound), ?_⟩
  unfold Arena.retain
  rw [hf]
  exact hq

theorem ends_objectFor_of_live (h : m.Ready 0 r) (hlive : m.settle.store.arena.Live id) :
    Ends r Value.claims m (fun v m' => (∃ name, v = .object id name) ∧ m'.settle.store.arena.Live id)
      (objectFor id) := by
  refine (ends_hold_of_live h hlive).bind fun _ m1 h1 hq1 => ?_
  -- from here on the claim of the new object keeps the frame
  have hmem : Claim.frame id ∈ ({.frame id} + 0 : Multiset Claim) := by simp
  have hlive1 : m1.settle.store.arena.Live id := by
    rw [settle_of_settled hq1]
    exact h1.ready.holds_owned hmem
  refine (ends_frameName_of_live h1.ready hlive1).bind fun name m2 h2 hlive2 =>
    .pure ?_ ⟨⟨name, rfl⟩, hlive2⟩
  have hready2 := h2.ready
  rwa [add_zero] at hready2

theorem ends_objectFor (h : m.Ready 0 r) (hid : m.store.Pinned r id) :
    Ends r Value.claims m (fun v _ => ∃ name, v = .object id name) (objectFor id) :=
  (ends_objectFor_of_live h (h.live_settle hid)).imp fun _ _ _ hv => hv.1

theorem ends_alloc {contents : Contents} (h : m.Ready (contents.claims + o) r)
    (hw : ∀ a, contents = .adapter a → a.Within m.store.arena ∧ a.table.Accurate a.scope m.store.arena) :
    Owns r (fun n => {.cell n} + o) m (alloc contents) := by
  have hs := h.sound
  rw [add_assoc] at hs
  have hsound := hs.alloc fun a ha => (hw a ha).1
  rw [← add_assoc] at hsound
  exact ⟨.ofStore h (Store.continues_alloc _ fun a ha => (hw a ha).2) (.refl m.store) hsound, trivial⟩

theorem ends_makeArray {element : ValueType} {items : List Value} (h : m.Ready (claimsOf items) r) :
    Owns r Value.claims m (makeArray element items) := by
  have hclaims : ((Contents.array items.toArray).claims : Multiset Claim) = claimsOf items :=
    coe_filterMap_claim items
  rw [← hclaims, ← add_zero (Multiset.ofList _)] at h
  refine (ends_alloc h fun a ha => nomatch ha).bind fun n m' hl _ => .pure ?_ trivial
  have hready := hl.ready
  rwa [add_zero] at hready

/-! ## Stacks -/

/-- The frame being evaluated in is pinned. -/
theorem ends_scope (h : m.Ready o r) : Ends r (fun _ => o) m
    (fun id m' => m' = m ∧ m.stack.head? = some id ∧ m.store.Pinned r id) scope := by
  refine Ends.get ?_
  cases hst : m.stack with
  | nil => exact absurd hst h.kept.stack
  | cons id rest =>
    have hid : m.store.Pinned r id := h.kept.frames id (by rw [hst]; exact List.mem_cons_self)
    exact .pure h ⟨rfl, rfl, hid⟩

/-- What comes after reading the frame being evaluated in starts from the same machine. -/
theorem Ends.here {f : ScopeId → Exec β} {own' : β → Multiset Claim} {Q : β → Machine → Prop}
    (h : m.Ready o r) (hf : ∀ id, m.store.Pinned r id → Ends r own' m Q (f id)) :
    Ends r own' m Q (scope >>= f) := by
  refine (ends_scope h).bind fun id m' _ hscope => ?_
  obtain ⟨rfl, -, hid⟩ := hscope
  exact hf id hid

theorem Ends.onStack {stack : List ScopeId} (h : m.Ready o r) (hne : stack ≠ [])
    (hs : ∀ id ∈ stack, m.store.Pinned r id)
    (hx : ({ m with stack } : Machine).Ready o r → Ends r own { m with stack } (fun _ _ => True) x) :
    Owns r own m (onStack stack x) := by
  constructor
  exact afterwards_ends (hx (h.onStack hne hs)).ended (fun _ _ h' => ⟨.offStack h.kept h'.1, trivial⟩)
    fun _ _ h' => ⟨.offStack h.kept h'.1, h'.2⟩

theorem Ends.oneDeeper (h : m.Ready o r) (hx : ∀ depth, ({ m with depth } : Machine).Ready o r →
      Ends r own { m with depth } (fun _ _ => True) x) :
    Owns r own m (oneDeeper x) := by
  have hends := hx (m.depth + 1) (h.atDepth _)
  -- what is left one level deeper is left when the level is taken off
  have hback : ∀ o m', Leaves r o { m with depth := m.depth + 1 } m' →
      m.Leaves r o { m' with depth := m'.depth - 1 } := by
    intro o m' hl
    have ha := hl.alike.shallower
    exact ⟨⟨⟨hl.ready.sound, h.kept.of_steady ha hl.steady⟩, ha, hl.steady, hl.truthful⟩, hl.lasting⟩
  constructor
  exact afterwards_ends hends.ended (fun _ _ h => ⟨hback _ _ h.1, trivial⟩) fun _ _ h => ⟨hback _ _ h.1, h.2⟩

/-- A computation stores and gives back only what refers to a set of frames, if what it is given does. -/
def Confines (ok : ScopeId → Prop) (own : α → Multiset Claim) (x : Exec α) : Prop :=
  FailIn (.frames ok) (fun _ _ => True) α (fun a => ∀ id, .frame id ∈ own a → ok id) fun _ : Unit => x

/-- A computation in a frame of its own, which is pinned as long as it runs. If frames may not be held, the
computation has to be confined to the frames that it is given, and the frame goes with it. -/
theorem Ends.inFrame {parent : ScopeId} {discard : α → Machine → Machine} (hb : Balanced x)
    (h : m.Ready o r) (hp : m.store.Pinned r parent)
    (hconfines : Holding.allowed ∨ m.classes.Honest r ∧ ∀ ok, (∀ id, .frame id ∈ o → ok id) → Confines ok own x)
    (hx : ∀ id m', m.store.Steady r m'.store → m'.stack.head? = some id →
      m'.Ready o ({.frame id} + r) → Owns ({.frame id} + r) own m' x) :
    Owns r own m (inFrame name kind parent x discard) := by
  rw [inFrame_eq_unchecked hb]
  obtain ⟨id, m1, hmake, hmade⟩ := makeFrame_made name kind (some parent) h
    fun p hpp => Option.some.inj hpp ▸ h.live_settle hp
  have hends := (hx id { m1 with stack := id :: m1.stack } hmade.steady rfl hmade.ready.inside).ended
  have hs := h.settle.1.ready
  -- the frames that were there are all that can be referred to
  have hconfined : Holding.allowed ∨ EndsIn (.frames m.settle.store.arena.Live) (fun _ _ => True)
      (fun a => .frame id ∉ own a) { m1 with stack := id :: m1.stack } (x { m1 with stack := id :: m1.stack }) := by
    refine hconfines.imp_right fun hx => ?_
    have hin : ({ m1 with stack := id :: m1.stack } : Machine).Confined (.frames m.settle.store.arena.Live) :=
      (hmade.confined hx.1).congr rfl rfl
    refine EndsIn.imp ?_ (fun _ hf => hf) (hx.2 m.settle.store.arena.Live (fun k hk => hs.holds_owned hk) () _ hin)
    intro a ha hid
    exact hmade.fresh (ha id hid)
  constructor
  unfold inFrameUnchecked
  show Ended r own m _ (EStateM.bind _ _ m)
  unfold EStateM.bind
  rw [hmake]
  show Ended r own m _ (Exec.afterwards x _ { m1 with stack := id :: m1.stack })
  unfold Exec.afterwards
  cases hr : x { m1 with stack := id :: m1.stack } with
  | ok a m' =>
    rw [hr] at hends hconfined
    exact ⟨hmade.outOfFrame h hends.1 (hconfined.imp_right fun hc => ⟨hc.2.1, hc.2.2⟩), trivial⟩
  | error e m' =>
    rw [hr] at hends hconfined
    exact ⟨hmade.outOfFrame h hends.1 (hconfined.imp_right fun hc => ⟨hc.2.1, Multiset.notMem_zero _⟩), hends.2⟩

/-! ## Failures -/

/-- Values that were to be passed on are dropped when the computation is refused. -/
theorem ends_refuseAll (h : m.Ready (claimsOf vs) r) (cause : Fault) :
    Ends r own m P (onFailure (fault cause : Exec α) (·.dropAll vs)) := by
  rw [← add_zero (claimsOf vs)] at h
  exact ⟨h.dropAll vs, trivial⟩

theorem ends_refuse (h : m.Ready v.claims r) (cause : Fault) :
    Ends r own m P (unlessFailed v (fault cause : Exec α)) := by
  rw [← add_zero v.claims] at h
  exact ⟨h.drop, trivial⟩

theorem Ends.attempt (hx : Owns r own m x) : Owns r (fun res => res.toOption.elim 0 own) m (attempt x) :=
  ⟨attempt_ends hx.ended (fun _ _ h => h) (fun _ _ h => h) fun _ _ h => ⟨h.1, trivial⟩⟩

end Exec

/-! ## What cells hold

Items of arrays and values in host objects are owned by the cell. They can be copied as long as the
cell is there, and writing one gives the old one back. -/

namespace Store

variable {s : Store} {n : Nat} {c : Cell}

/-- More owners, the same contents. -/
theorem cell?_retainAll (ks : List Claim) : ∀ {s : Store} {c : Cell}, s.cell? n = some c →
    ∃ c', (s.retainAll ks).cell? n = some c' ∧ c'.contents = c.contents := by
  induction ks with
  | nil => exact fun hc => ⟨_, hc, rfl⟩
  | cons k ks ih =>
    intro s c hc
    have hone : ∃ c', (s.retain k).cell? n = some c' ∧ c'.contents = c.contents := by
      cases k with
      | frame id => exact ⟨c, hc, rfl⟩
      | cell i =>
        unfold retain
        rw [cell?_modifyCell]
        by_cases hi : n = i
        · rw [if_pos hi, hc]
          exact ⟨_, rfl, rfl⟩
        · rw [if_neg hi]
          exact ⟨c, hc, rfl⟩
    obtain ⟨c1, hc1, hsame1⟩ := hone
    obtain ⟨c2, hc2, hsame2⟩ := ih hc1
    exact ⟨c2, hc2, hsame2.trans hsame1⟩

/-- Writing an item is writing the array with the item in it. -/
theorem setItem_eq {items : Array Value} (hc : s.cell? n = some c) (hi : c.contents = .array items)
    (i : Nat) (v : Value) : s.setItem n i v = s.setContents n (.array (items.setIfInBounds i v)) := by
  obtain ⟨contents, owners⟩ := c
  cases hi
  rw [cell?_eq_some_iff] at hc
  unfold setItem setContents modifyCell
  congr 1
  apply Array.ext_getElem?
  intro k
  rw [Array.getElem?_modify, Array.getElem?_modify]
  by_cases hk : n = k
  · subst hk
    rw [if_pos rfl, if_pos rfl, hc]
    rfl
  · rw [if_neg hk, if_neg hk]

end Store

/-- A written item brings its claim and takes away that of the old one. -/
theorem claimsOf_set {old v : Value} (vs : List Value) : ∀ {i : Nat}, vs[i]? = some old →
    claimsOf (vs.set i v) + old.claims = claimsOf vs + v.claims := by
  induction vs with
  | nil => exact fun h => by simp at h
  | cons w vs ih =>
    intro i h
    cases i with
    | zero =>
      rw [List.getElem?_cons_zero, Option.some.injEq] at h
      subst h
      rw [List.set_cons_zero, claimsOf_cons, claimsOf_cons]
      abel
    | succ i =>
      rw [List.getElem?_cons_succ] at h
      rw [List.set_cons_succ, claimsOf_cons, claimsOf_cons, add_assoc, ih h, add_assoc]

namespace Machine

variable [Trust] {m : Machine} {o r : Multiset Claim} {n i : Nat} {v old : Value}

theorem Ready.holds_item (h : m.Ready o r) (hi : (m.store.items n)[i]? = some v) :
    ∀ k ∈ v.claims, m.store.Holds k := by
  intro k hk
  obtain ⟨c, hc, hitems⟩ := Store.items_eq (Array.mem_of_getElem? hi)
  refine h.sound.holds_of_cell hc ?_
  rw [hitems]
  have hmem : k ∈ claimsOf (m.store.items n).toList :=
    mem_claimsOf.2 ⟨v, List.mem_of_getElem? (by rwa [Array.getElem?_toList]), hk⟩
  rw [← coe_filterMap_claim] at hmem
  exact hmem

theorem Ready.holds_items (h : m.Ready o r) (n : Nat) :
    ∀ k ∈ claimsOf (m.store.items n).toList, m.store.Holds k := by
  intro k hk
  obtain ⟨v, hv, hkv⟩ := mem_claimsOf.1 hk
  obtain ⟨i, hi⟩ := List.mem_iff_getElem?.1 hv
  rw [Array.getElem?_toList] at hi
  exact h.holds_item hi k hkv

omit [Trust] in
theorem items_retain (w : Value) (hi : (m.store.items n)[i]? = some old) :
    ((m.retain w).store.items n)[i]? = some old := by
  obtain ⟨c, hc, hitems⟩ := Store.items_eq (Array.mem_of_getElem? hi)
  have hretain : m.retain w = { m with store := m.store.retainAll ([w].filterMap Value.claim?) } :=
    foldl_retain [w] m
  obtain ⟨c', hc', hsame⟩ := Store.cell?_retainAll ([w].filterMap Value.claim?) hc
  obtain ⟨contents, owners⟩ := c'
  rw [hitems] at hsame
  cases hsame
  rw [hretain]
  unfold Store.items
  rw [hc']
  exact hi

variable [Holding]

/-- An array gives back the item that was in the place of a written one. -/
theorem Ready.setItem (h : m.Ready (v.claims + o) r) (hi : (m.store.items n)[i]? = some old) :
    m.Leaves r (old.claims + o) { m with store := m.store.setItem n i v } := by
  obtain ⟨c, hc, hitems⟩ := Store.items_eq (Array.mem_of_getElem? hi)
  rw [Store.setItem_eq hc hitems]
  refine .ofStore h (Store.continues_setContents hc (fun a ha => ?_) fun a ha => nomatch ha) (.refl m.store)
    (h.sound.setContents hc (fun a ha => by cases ha) ?_)
  · rw [hitems] at ha
    cases ha
  · rw [hitems]
    show ((((m.store.items n).setIfInBounds i v).toList.filterMap Value.claim? : List Claim) :
      Multiset Claim) + (old.claims + o + r) =
        ((m.store.items n).toList.filterMap Value.claim? : List Claim) + (v.claims + o + r)
    rw [coe_filterMap_claim, coe_filterMap_claim, Array.toList_setIfInBounds]
    have hset := claimsOf_set (v := v) (m.store.items n).toList (by rwa [Array.getElem?_toList])
    rw [add_assoc, add_assoc, ← add_assoc, hset, add_assoc]

/-- A host object takes over copies of what it holds now, and what it held is dropped. -/
theorem Ready.update {object contents : HostObject} (h : m.Ready 0 r)
    (ho : m.store.host? n = some object) (hk : ∀ k ∈ contents.claims, m.store.Holds k) :
    m.Leaves r 0 { m with store := ((m.store.retainAll contents.claims).setContents n
      (.host contents)).dropAll object.claims } := by
  -- copies are made before the old contents go, so what is in both is never freed
  have h1 := h.retainClaims contents.claims hk
  obtain ⟨c, hc, hcontents⟩ := Store.host?_eq_some_iff.1 ho
  obtain ⟨c', hc', hsame⟩ := Store.cell?_retainAll contents.claims hc
  rw [hcontents] at hsame
  have hset : ((m.store.retainAll contents.claims).setContents n (.host contents)).Sound
      (object.claims + (0 + r)) := by
    refine h1.ready.sound.setContents hc' (fun a ha => by cases ha) ?_
    rw [hsame]
    show (contents.claims : Multiset Claim) + _ = object.claims + _
    abel
  have hcontinues : (m.store.retainAll contents.claims).Continues
      ((m.store.retainAll contents.claims).setContents n (.host contents)) :=
    Store.continues_setContents hc' (fun a ha => by
      rw [hsame] at ha
      cases ha) fun a ha => nomatch ha
  have hset' : ((m.store.retainAll contents.claims).setContents n (.host contents)).Sound
      (object.claims + 0 + r) := by rwa [add_assoc]
  have h2 := h1.trans (.ofStore h1.ready hcontinues (.refl (m.store.retainAll contents.claims)) hset')
  exact h2.trans (.shrinks h2.ready (Store.ebbs_dropAll _ _).toShrinks (Store.unwinds_sound.dropAll hset))

end Machine

end HostScript
