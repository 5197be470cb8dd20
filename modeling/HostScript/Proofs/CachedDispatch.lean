import HostScript.Host.Toolkit
import HostScript.Proofs.LiveStack

/-!
# Calls through adapters go where the frames say

An adapter looks up where a call goes in a table that it keeps. Whatever happens to methods, frames and
classes, the answer is the one that a look at the frames gives at that moment (`dispatch_is_transparent`),
between the turns of a host and at every moment of an evaluation. For the latter the watch needs an alarm
(`Machine.alarmed`): where a table lies, its adapter is bound to a new variable of the global frame, which
stays, so that the lie stays too.
-/

set_option autoImplicit false

namespace HostScript

open Exec Machine

variable {cell : Nat} {s : Store} {a : Adapter} {m : Machine} {o r : Multiset Claim}

/-! ## Looking up a call -/

/-- Every adapter that is there once the queued releases are applied finds, for every call, what a look at
the frames finds. -/
def Machine.DispatchesTruly (m : Machine) : Prop :=
  ∀ cell a, m.settle.store.adapter? cell = some a → ∀ name arity, ∃ frames handler m',
    m.settle.store.arena.chain a.scope = .ok frames ∧ Answers frames name arity handler ∧
      Adapter.resolve a.scope name arity m.settle.store.arena = .ok handler ∧
      handlerFor cell a name arity m = .ok handler m'

section Settled

variable {scope : ScopeId} {l : List (ScopeId × Frame)} {arity : Nat} {name : String} {handler : Handler}

/-- In a settled machine a look at the frames changes nothing. -/
theorem look_of_settled {α : Type} {f : Arena → Except ScopeId α} {x : α}
    (hq : m.store.arena.dropped = []) (hf : f m.store.arena = .ok x) : look f m = .ok x m := by
  have hs := settle_of_settled hq
  rw [look_of_ok (m := m) (by rw [hs]; exact hf), hs]

theorem look_changes (m : Machine) : look (fun arena => .ok arena.methodChanges) m =
    .ok m.settle.store.arena.methodChanges m.settle :=
  look_of_ok rfl

theorem look_changes_of_settled (hq : m.store.arena.dropped = []) :
    look (fun arena => .ok arena.methodChanges) m = .ok m.store.arena.methodChanges m :=
  look_of_settled hq rfl

/-- A table is made of what a look at the frames finds. -/
theorem findHandlers_of_lineage (hq : m.store.arena.dropped = []) (hl : m.store.arena.Lineage scope l)
    (methods : List HostMethod) : ∀ found : List ((String × Nat) × Handler),
      (∀ e ∈ found, Adapter.resolve scope e.1.1 e.1.2 m.store.arena = .ok e.2) →
      ∃ handlers, findHandlers scope found methods m = .ok handlers m ∧
        ∀ e ∈ handlers, Adapter.resolve scope e.1.1 e.1.2 m.store.arena = .ok e.2 := by
  induction methods with
  | nil => exact fun found hfound => ⟨found, rfl, hfound⟩
  | cons method rest ih =>
    intro found hfound
    unfold findHandlers
    dsimp only
    split
    · exact ih found hfound
    · obtain ⟨handler, hresolve, -⟩ := Adapter.resolve_of_lineage hl method.name method.arity
      rw [bind_of_ok (look_of_settled hq hresolve)]
      refine ih _ fun e he => ?_
      rcases List.mem_append.1 he with he | he
      · exact hfound e he
      · rw [List.mem_singleton.1 he]
        exact hresolve

theorem makeTable_of_lineage (hq : m.store.arena.dropped = []) (hl : m.store.arena.Lineage scope l)
    (interfaces : List HostClass) : ∃ table, makeTable scope interfaces m = .ok table m ∧
      ∀ e ∈ table.handlers, Adapter.resolve scope e.1.1 e.1.2 m.store.arena = .ok e.2 := by
  obtain ⟨handlers, hfind, hall⟩ :=
    findHandlers_of_lineage hq hl (m.classes.abstractMethods interfaces) []
      fun _ he => absurd he List.not_mem_nil
  refine ⟨⟨m.store.arena.methodChanges, handlers⟩, ?_, hall⟩
  unfold makeTable
  rw [bind_of_ok (look_changes_of_settled hq)]
  exact bind_of_ok hfind

/-- A handler from a table that tells what the frames say, or from the frames. -/
theorem lookup_or_resolve {handlers : List ((String × Nat) × Handler)} (hq : m.store.arena.dropped = [])
    (hall : ∀ e ∈ handlers, Adapter.resolve scope e.1.1 e.1.2 m.store.arena = .ok e.2)
    (hresolve : Adapter.resolve scope name arity m.store.arena = .ok handler) :
    (match handlers.lookup (name, arity) with
      | some handler => pure handler
      | none => look (Adapter.resolve scope name arity) : Exec Handler) m = .ok handler m := by
  cases hlookup : handlers.lookup (name, arity) with
  | none => exact look_of_settled hq hresolve
  | some found =>
    have htold := hall _ (mem_of_lookup hlookup)
    rw [hresolve, Except.ok.injEq] at htold
    rw [htold]
    rfl

/-- **An adapter finds what a look at the frames finds**, if its table is accurate. -/
theorem handlerFor_of_lineage (cell : Nat) {a : Adapter} (hq : m.store.arena.dropped = [])
    (hl : m.store.arena.Lineage a.scope l) (ht : a.table.Accurate a.scope m.store.arena)
    (hresolve : Adapter.resolve a.scope name arity m.store.arena = .ok handler) :
    ∃ m', handlerFor cell a name arity m = .ok handler m' ∧ m'.store.arena = m.store.arena := by
  unfold handlerFor
  by_cases hnow : a.table.asOf = m.store.arena.methodChanges
  · have hrefreshed : refreshed cell a m = .ok a m := by
      unfold refreshed
      rw [bind_of_ok (look_changes_of_settled hq), if_pos (by simpa using hnow)]
      rfl
    rw [bind_of_ok hrefreshed]
    exact ⟨m, lookup_or_resolve hq (ht.tells hnow) hresolve, rfl⟩
  · -- methods have changed since: the table is made anew
    obtain ⟨table, hmake, hall⟩ := makeTable_of_lineage hq hl a.interfaces
    obtain ⟨m', hm'⟩ : ∃ m' : Machine,
        m' = { m with store := m.store.setContents cell (.adapter { a with table }) } := ⟨_, rfl⟩
    have harena : m'.store.arena = m.store.arena := by
      rw [hm']
      rfl
    have hrefreshed : refreshed cell a m = .ok { a with table } m' := by
      unfold refreshed
      rw [bind_of_ok (look_changes_of_settled hq), if_neg (by simpa using hnow), bind_of_ok hmake, hm']
      rfl
    rw [bind_of_ok hrefreshed]
    rw [← harena] at hq hall hresolve
    exact ⟨m', lookup_or_resolve hq hall hresolve, harena⟩

end Settled

theorem handlerFor_settle (h : m.Ready o r) (cell : Nat) (a : Adapter) (name : String) (arity : Nat) :
    handlerFor cell a name arity m = handlerFor cell a name arity m.settle := by
  have hsettled : look (fun arena => .ok arena.methodChanges) m.settle =
      .ok m.settle.store.arena.methodChanges m.settle :=
    look_changes_of_settled h.settle.2
  unfold handlerFor refreshed
  simp only [bind_assoc]
  rw [bind_of_ok (look_changes m), bind_of_ok hsettled]

/-- A machine that is ready finds handlers as a look at the frames does, if all tables are accurate, and
leaves the frames as they are. -/
theorem Machine.Ready.exists_handlerFor (h : m.Ready o r) (ht : m.store.Truthful)
    (ha : m.settle.store.adapter? cell = some a) (name : String) (arity : Nat) :
    ∃ frames handler m', m.settle.store.arena.Lineage a.scope frames ∧ Answers frames name arity handler ∧
        Adapter.resolve a.scope name arity m.settle.store.arena = .ok handler ∧
        handlerFor cell a name arity m = .ok handler m' ∧
        m'.store.arena = m.settle.store.arena := by
  obtain ⟨hl, hq⟩ := h.settle
  have hwraps := Store.adapter?_eq_some_iff.1 ha
  obtain ⟨frames, hline⟩ := hl.ready.sound.frames.rooted a.scope (hl.ready.sound.live_of_wraps hwraps)
  obtain ⟨handler, hresolve, hanswers⟩ := Adapter.resolve_of_lineage hline name arity
  obtain ⟨m', hr, harena⟩ :=
    handlerFor_of_lineage cell hq hline (hl.truthful ht cell a hwraps) hresolve
  exact ⟨frames, handler, m', hline, hanswers, hresolve,
    (handlerFor_settle h cell a name arity).trans hr, harena⟩

theorem Machine.Ready.dispatchesTruly (h : m.Ready o r) (ht : m.store.Truthful) : m.DispatchesTruly := by
  intro cell a ha name arity
  obtain ⟨frames, handler, m', hline, hanswers, hresolve, hr, -⟩ := h.exists_handlerFor ht ha name arity
  exact ⟨frames, handler, m', Arena.chain_eq_of_lineage hline, hanswers, hresolve, hr⟩

/-! ## Lies that stay -/

/-- A frame has room for one more variable. -/
theorem Frame.exists_unused (f : Frame) : ∃ name, f.vars.get? name = none := by
  obtain ⟨name, hname⟩ := Infinite.exists_notMem_finset f.vars.keys.toFinset
  refine ⟨name, Option.eq_none_iff_forall_ne_some.2 fun v hv => hname ?_⟩
  exact List.mem_toFinset.2 (List.mem_map.2 ⟨(name, v), mem_of_lookup hv, rfl⟩)

/-- A variable that is new brings its claim. -/
theorem Frame.claims_newVariable {f : Frame} {name : String} (hnew : f.vars.get? name = none) (v : Value) :
    ((f.setVariable name ⟨v, none⟩).claims : Multiset Claim) = f.claims + v.claims := by
  have hclaims := f.claims_setVariable name ⟨v, none⟩
  rw [hnew] at hclaims
  simpa using hclaims

/-- Frames that an arena shares with a larger one have the same methods along their chains there. -/
theorem Arena.Lineage.within {a b : Arena} {id : ScopeId} {l : List (ScopeId × Frame)}
    (h : a.Lineage id l) (hin : ∀ id f, a.frame? id = some f →
      ∃ g, b.frame? id = some g ∧ g.parent = f.parent ∧ g.methods = f.methods) :
    ∃ l', b.Lineage id l' ∧ l'.map (fun e => e.2.methods) = l.map fun e => e.2.methods := by
  induction h with
  | @root id f hf hp =>
    obtain ⟨g, hg, hparent, hmethods⟩ := hin id f hf
    exact ⟨_, .root hg (hparent.trans hp), by simp [hmethods]⟩
  | @child id p f l hf hp _ ih =>
    obtain ⟨g, hg, hparent, hmethods⟩ := hin id f hf
    obtain ⟨l', hl', hmap⟩ := ih
    exact ⟨_, .child hg (hparent.trans hp) hl', by simp [hmethods, hmap]⟩

namespace Machine

variable {m' m'' : Machine} {n : Nat} {f : Frame} {name : String}

/-- The machine with the host object in a cell bound to a variable of the global frame. -/
def exhibit (m : Machine) (f : Frame) (name : String) (cell : Nat) : Machine :=
  let v := Value.host cell adapterClassName
  let shared := m.retain v
  let arena := shared.store.arena.setFrame m.global (f.setVariable name ⟨v, none⟩)
  { shared with store := { shared.store with arena } }

/-- The second machine has a lying adapter of the first in its global frame. -/
def Exhibits (m m' : Machine) : Prop :=
  ∃ n a f name, m.store.Wraps n a ∧ ¬ a.table.Accurate a.scope m.store.arena ∧
    m.store.arena.frame? m.global = some f ∧ f.vars.get? name = none ∧ m' = m.exhibit f name n

theorem Ready.exists_exhibits (h : m.Ready o r) (hlie : ¬ m.store.Truthful) : ∃ m', m.Exhibits m' := by
  unfold Store.Truthful at hlie
  push Not at hlie
  obtain ⟨n, a, hwraps, hfalse⟩ := hlie
  obtain ⟨f, hf⟩ := Arena.live_iff.1 (h.live h.kept.global)
  obtain ⟨name, hname⟩ := f.exists_unused
  exact ⟨_, n, a, f, name, hwraps, hfalse, hf, hname, rfl⟩

theorem Exhibits.alike (h : m.Exhibits m') : m.Alike m' := by
  obtain ⟨n, a, f, name, -, -, -, -, rfl⟩ := h
  exact .ofStore m _

/-- A safe computation could exhibit an adapter. -/
theorem Exhibits.leaves (he : m.Exhibits m') (h : m.Ready o r) : m.Leaves r o m' := by
  obtain ⟨n, a, f, name, ⟨c, hc, -⟩, -, hf, hnew, rfl⟩ := he
  have hshared : m.Leaves r ((Value.host n adapterClassName).claims + o)
      (m.retain (.host n adapterClassName)) := by
    refine h.retain fun k hk => ?_
    rw [Value.claims_host, Multiset.mem_singleton] at hk
    rw [hk]
    exact Option.isSome_of_eq_some hc
  obtain ⟨g, hg⟩ : ∃ g, g = f.setVariable name ⟨.host n adapterClassName, none⟩ := ⟨_, rfl⟩
  have htidy : g.Tidy m.global := hg ▸ (h.sound.tidy m.global f hf).setVariable name _
  have hparent : g.parent = f.parent := by rw [hg, Frame.setVariable]
  have hmethods : g.methods = f.methods := by rw [hg, Frame.setVariable]
  have howners : g.owners = f.owners := by rw [hg, Frame.setVariable]
  unfold exhibit
  dsimp only
  rw [← hg]
  refine hshared.trans (.ofStore hshared.ready (Store.continues_write hf hparent hmethods) (.inl trivial) ?_)
  refine hshared.ready.sound.write hf hparent howners htidy ?_
  rw [hg, Frame.claims_newVariable hnew, add_assoc, add_assoc]

theorem frame?_exhibit (hf : m.store.arena.frame? m.global = some f) (id : ScopeId) :
    (m.exhibit f name n).store.arena.frame? id =
      if id = m.global then some (f.setVariable name ⟨.host n adapterClassName, none⟩)
      else m.store.arena.frame? id :=
  Arena.frame?_setFrame (Arena.live_of_frame? hf) _ id

/-- The frames that are left of a machine with an exhibit were there before it, with their methods. -/
theorem frame?_of_exhibit (hf : m.store.arena.frame? m.global = some f)
    (hebbs : (m.exhibit f name n).store.Ebbs m''.store) (id : ScopeId) (g : Frame)
    (hg : m''.store.arena.frame? id = some g) :
    ∃ e, m.store.arena.frame? id = some e ∧ e.parent = g.parent ∧ e.methods = g.methods := by
  obtain ⟨e, he, hsame⟩ := hebbs.frames id g hg
  rw [frame?_exhibit hf] at he
  by_cases hid : id = m.global
  · rw [if_pos hid, Option.some.injEq] at he
    rw [hid, hsame, ← he]
    exact ⟨f, hf, rfl, rfl⟩
  · rw [if_neg hid] at he
    rw [hsame]
    exact ⟨e, he, rfl, rfl⟩

/-- What is left of a machine that exhibits a lie still has it, as long as it has its global frame. -/
theorem Exhibits.not_truthful (he : m.Exhibits m') (hglobal : m'.global = m''.global)
    (hebbs : m'.store.Ebbs m''.store) (h : m''.Ready o r) : ¬ m''.store.Truthful := by
  obtain ⟨n, a, f, name, ⟨c, hc, hca⟩, hfalse, hf, hnew, rfl⟩ := he
  intro ht
  apply hfalse
  -- the global frame owns the adapter, so it is there
  have hcell : m''.store.Holds (.cell n) := by
    obtain ⟨g, hg⟩ := Arena.live_iff.1 (h.live h.kept.global)
    obtain ⟨e, he, hsame⟩ := hebbs.frames _ g hg
    rw [← hglobal, frame?_exhibit hf, if_pos (show (m.exhibit f name n).global = m.global from rfl),
      Option.some.injEq] at he
    refine h.sound.holds_of_frame hg ?_
    have hmem : Claim.cell n ∈ (e.claims : Multiset Claim) := by
      rw [← he, Frame.claims_newVariable hnew]
      simp
    rw [hsame]
    exact hmem
  obtain ⟨c', hc'⟩ := Option.isSome_iff_exists.1 hcell
  have hwraps : m''.store.Wraps n a := by
    obtain ⟨c0, hc0, hsame⟩ := hebbs.cells n c' hc'
    have hshared : (m.exhibit f name n).store.cell? n = some { c with owners := c.owners + 1 } := by
      show (m.store.modifyCell n _).cell? n = _
      rw [Store.cell?_modifyCell, if_pos rfl, hc]
      rfl
    rw [hshared, Option.some.injEq] at hc0
    refine ⟨c', hc', ?_⟩
    rw [hsame, ← hc0]
    exact hca
  -- its chain is there with all methods, so its table says of it what it said before
  obtain ⟨l, hline⟩ := h.sound.frames.rooted a.scope (h.sound.live_of_wraps hwraps)
  obtain ⟨l', hline', hmap⟩ := hline.within (frame?_of_exhibit hf hebbs)
  have hchanges : m''.store.arena.methodChanges = m.store.arena.methodChanges := hebbs.changes
  obtain ⟨made, tells⟩ := ht n a hwraps
  rw [hchanges] at made tells
  refine ⟨made, fun hnow e he => ?_⟩
  rw [← tells hnow e he]
  refine Adapter.resolve_congr (fun name => ?_) _ _
  rw [Arena.overloads_of_lineage hline, Arena.overloads_of_lineage hline', hmap]

open Classical in
/-- The machine with a lie in its global frame; where there is none, nothing is left. -/
noncomputable def alarmed (m : Machine) : Machine :=
  if h : ∃ m', m.Exhibits m' then h.choose else { m with store := {} }

end Machine

/-- Machines can be watched for what follows when they are ready with accurate tables. -/
theorem watch_of_truthful {Q : Machine → Prop}
    (hQ : ∀ {m : Machine} {o r : Multiset Claim}, m.Ready o r → m.store.Truthful → Q m) :
    Watch (fun m => m.store.Truthful) Q Machine.alarmed := by
  have hcases : ∀ m : Machine, m.Exhibits m.alarmed ∨
      (¬ ∃ m', m.Exhibits m') ∧ m.alarmed = { m with store := {} } := by
    intro m
    unfold Machine.alarmed
    by_cases h : ∃ m', m.Exhibits m'
    · rw [dif_pos h]
      exact .inl h.choose_spec
    · rw [dif_neg h]
      exact .inr ⟨h, rfl⟩
  refine ⟨fun h ht => hQ h ht, fun hl => hl.truthful, fun m => ?_, fun {r m} h hlie => ?_,
    fun {o r m m'} hglobal hebbs h => ?_⟩
  · rcases hcases m with he | ⟨-, heq⟩
    · exact he.alike
    · rw [heq]
      exact .ofStore m _
  · rcases hcases m with he | ⟨hnone, -⟩
    · exact he.leaves h
    · exact absurd (h.exists_exhibits hlie) hnone
  · rcases hcases m with he | ⟨-, heq⟩
    · exact he.not_truthful hglobal hebbs h
    · -- without any frame no machine is ready
      obtain ⟨f, hf⟩ := Arena.live_iff.1 (h.live h.kept.global)
      obtain ⟨g, hg, -⟩ := hebbs.frames m'.global f hf
      rw [heq] at hg
      simp [Arena.frame?] at hg

/-! ## Runs -/

/-- An adapter that the host keeps outlives the queued releases. -/
theorem Session.Good.adapter_settled {s : Session} (h : s.Good) (hcell : .cell cell ∈ s.held)
    (ha : s.machine.store.adapter? cell = some a) :
    s.machine.settle.store.adapter? cell = some a := by
  have hready := h.readyForAll
  obtain ⟨c, hc⟩ := Option.isSome_iff_exists.1
    (hready.settle.1.ready.holds (Multiset.mem_add.2 (.inr hcell)))
  obtain ⟨c0, hc0, hca⟩ := Store.adapter?_eq_some_iff.1 ha
  obtain ⟨c1, hc1, hsame⟩ := (Machine.ebbing_settle.ebbs s.machine).cells cell c hc
  rw [hc0, Option.some.injEq] at hc1
  exact Store.adapter?_eq_some_iff.2 ⟨c, hc, by rw [hsame, ← hc1, hca]⟩

/-- **Calls through adapters go where the frames say.** In any run of a host, every adapter sends every call
where a look at the frames sends it at that moment: to the first method of that name and arity along its
chain, else to the first `invoke` with two parameters, else to an identity call, else nowhere. It does so
between the turns of the host, where all adapters that the host keeps are there, and before and after each
expression and each statement of an evaluation: to end the evaluation where it does not makes no difference. -/
theorem dispatch_is_transparent {s : Session} (hs : s.Run) :
    s.machine.DispatchesTruly ∧ (∀ cell a, .cell cell ∈ s.held → s.machine.store.adapter? cell = some a →
        s.machine.settle.store.adapter? cell = some a) ∧
      ∀ entry, s.Offers entry → ∀ n f, entry.run (.watched DispatchesTruly f n) s.machine =
        entry.run (evaluator n) s.machine :=
  ⟨hs.good.readyForAll.dispatchesTruly hs.truthful, fun _ _ => hs.good.adapter_settled,
    fun _ ho n f => (watch_of_truthful fun h ht => h.dispatchesTruly ht).eq_run hs.good hs.truthful ho f n⟩

/-- The session after a method of that name was declared, an adapter built, and the method removed. -/
def retiredSession : Session :=
  let declared := Session.fresh.answered ((HostEntry.text ⟨0, 0⟩ "run() { x = 1; }").run (evaluator 40))
  let adapted := declared.answered do return some (← makeAdapter ⟨0, 0⟩ ["ui.Runnable"])
  { adapted with machine := (Exec.removeMethod ⟨0, 0⟩ "run").after adapted.machine }

theorem run_retiredSession : retiredSession.Run := by
  have hoffers : Session.fresh.Offers (.text ⟨0, 0⟩ "run() { x = 1; }") :=
    Session.offers_text (by decide +kernel) _
  have hdeclared := Session.Run.turn Session.run_fresh (.enter 40 hoffers)
  refine .turn (.turn hdeclared (.adapt ["ui.Runnable"] ?_)) (.removeMethod _ _)
  exact Arena.live_iff.2 (Option.isSome_iff_exists.1 (by decide +kernel))

/-- The table of an adapter names a method that was removed since; a call still finds out that there is
none. -/
theorem removed_method_not_called : retiredSession.Run ∧
    ∃ a, retiredSession.machine.store.adapter? 0 = some a ∧
      (a.table.handlers.lookup ("run", 0)).any (fun handler => handler.method?.isSome) ∧
      ∃ frames handler m', retiredSession.machine.settle.store.arena.chain a.scope = .ok frames ∧
        Answers frames "run" 0 handler ∧ handlerFor 0 a "run" 0 retiredSession.machine = .ok handler m' := by
  have hthere : (retiredSession.machine.store.adapter? 0).any fun a =>
      (a.table.handlers.lookup ("run", 0)).any fun handler => handler.method?.isSome := by decide +kernel
  obtain ⟨hsome, htable⟩ := (Option.any_eq_true_iff_get _ _).1 hthere
  obtain ⟨a, ha⟩ := Option.isSome_iff_exists.1 hsome
  simp only [ha, Option.get_some] at htable
  have htrue := dispatch_is_transparent run_retiredSession
  have hsettled := htrue.2.1 0 a (by decide +kernel) ha
  obtain ⟨frames, handler, m', hchain, hanswers, -, hfound⟩ := htrue.1 0 a hsettled "run" 0
  exact ⟨run_retiredSession, a, ha, htable, frames, handler, m', hchain, hanswers, hfound⟩

end HostScript
