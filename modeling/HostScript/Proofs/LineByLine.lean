import HostScript.LineLoop
import HostScript.Proofs.HostCalls
import HostScript.Proofs.UnitRuns

/-!
# The line loop and the whole text

A loop that is not interactive stops at the first failure. If it gets to the end of its lines, it has run the units
that the whole text consists of, each once and in order, wherever the lines end (`line_loop_runs_whole_text`). Such a
run has found no line that breaks: every text that it took units from was read to its end, or what was left waits for
more (`Digests`). From the last line backwards, the units of such batches make up what is left of the text.
-/

set_option autoImplicit false

namespace HostScript

/-! ## What the loop runs -/

/-- Units that the loop runs together: the text that they are read from, and its offset in all that was read. -/
structure Batch where
  offset : Nat
  text : String
  units : List Stmt

/-- The units of a batch at their places in all that was read. -/
def Batch.placed (b : Batch) : List Stmt := Placed.shift b.units b.offset

/-- The text of the batch stands in a longer one at its offset, and its units are those that can be read from it. -/
structure Batch.Within (whole : List Char) (b : Batch) : Prop where
  text : ∃ pre post, whole = pre ++ b.text.toList ++ post ∧ byteLength pre = b.offset
  units : (readUnits b.text).1.map Prod.fst = b.units

/-- What waits in the buffer after the units of a text, unless the text is broken. -/
def Tail.left? : Tail → Option String
  | .complete => some ""
  | .unfinished rest => some rest
  | .broken _ => none

/-- The characters that lines add to the buffer. -/
def feed (lines : List String) : List Char := lines.flatMap fun line => line.toList ++ ['\n']

/-- Lines are taken into a buffer, which stands at an offset of all that was read, and none of them breaks. There is
a batch for each line and one for the end of input. -/
inductive Digests : Nat → String → List String → List Batch → Prop
  | blank {offset : Nat} {buffer : String} (h : (Text.trim buffer.toList).isEmpty = true) :
      Digests offset buffer [] [⟨offset, buffer, []⟩]
  | last {offset : Nat} {buffer : String} {units : List Stmt} (hfull : (Text.trim buffer.toList).isEmpty = false)
      (h : takeUnits buffer true = (units, .complete)) : Digests offset buffer [] [⟨offset, buffer, units⟩]
  | line {offset : Nat} {buffer line rest : String} {lines : List String} {units : List Stmt} {tail : Tail}
      {pre : List Char} {batches : List Batch} (h : takeUnits (buffer ++ line ++ "\n") false = (units, tail))
      (hleft : tail.left? = some rest) (hpre : (buffer ++ line ++ "\n").toList = pre ++ rest.toList)
      (hlater : Digests (offset + byteLength pre) rest lines batches) :
      Digests offset buffer (line :: lines) (⟨offset, buffer ++ line ++ "\n", units⟩ :: batches)

variable {offset : Nat} {atEnd : Bool} {tail : Tail} {buffer rest text : String} {cs : List Char}
  {units : List Stmt} {batches : List Batch} {lines : List String}

/-! ## Units of a text and what is left of it -/

theorem dropBytes_append (pre cs : List Char) : dropBytes (byteLength pre) (pre ++ cs) = cs := by
  induction pre with
  | nil =>
    cases cs with
    | nil => rfl
    | cons c cs => exact if_pos c.utf8Size_pos
  | cons c pre ih =>
    have hlong : ¬ byteLength (c :: pre) < c.utf8Size := Nat.not_lt.2 (Nat.le_add_right _ _)
    rw [List.cons_append, dropBytes, if_neg hlong, byteLength, Nat.add_sub_cancel_left]
    exact ih

/-- A text whose units are taken gives them, and then comes what its tail says. -/
theorem takeUnits_gives (h : takeUnits text atEnd = (units, tail)) (hleft : tail.left? = some rest) :
    ∃ c, (Cursor.ofChars text.toList).Gives units c ∧ (tail = .complete ∧ (nextUnit c).1 = .ok none ∨
      atEnd = false ∧ rest = String.ofList (dropBytes c.consumed text.toList)) := by
  obtain ⟨c, hgives, hstop, hend⟩ := unitsFrom_gives (Nat.lt_succ_self (Cursor.ofSource text).rest.length)
  unfold takeUnits readUnits at h
  generalize unitsFrom _ (Cursor.ofSource text) = r at hgives hstop hend h
  obtain ⟨found, failure⟩ := r
  obtain ⟨rfl, htail⟩ := Prod.mk.inj h
  refine ⟨c, hgives, ?_⟩
  cases failure with
  | none => exact .inl ⟨htail.symm, hend⟩
  | some d =>
    dsimp only at htail
    split at htail
    case isTrue hopen =>
      subst htail
      refine .inr ⟨by simpa using (Bool.and_eq_true_iff.1 hopen).2, ?_⟩
      rw [← hstop]
      exact (Option.some.inj hleft).symm
    case isFalse =>
      subst htail
      cases hleft

theorem takeUnits_units (h : takeUnits text atEnd = (units, tail)) :
    (readUnits text).1.map Prod.fst = units :=
  congrArg Prod.fst h

/-- The units of a text that ends with a line feed come before those of what is left of it and any more text. -/
theorem takeUnits_parses (htext : text.toList = cs ++ ['\n'])
    (h : takeUnits text false = (units, tail)) (hleft : tail.left? = some rest) :
    ∃ pre, text.toList = pre ++ rest.toList ∧ ∀ q us, ParsesTo (rest.toList ++ q) us →
      ParsesTo (text.toList ++ q) (units ++ Placed.shift us (byteLength pre)) := by
  obtain ⟨c, hgives, hrest⟩ := takeUnits_gives h hleft
  rw [htext] at hgives hrest ⊢
  obtain ⟨pre, cs', hcs, hstop, hplace, hlater⟩ := hgives.split
  rcases hrest with ⟨rfl, hend⟩ | ⟨-, rfl⟩
  · -- all tokens were taken: what comes next is read on its own
    obtain rfl : "" = rest := Option.some.inj hleft
    obtain ⟨hnil, length, hcomplete⟩ := nextUnit_none.1 hend
    rw [hnil, hcomplete] at hplace
    obtain ⟨length', hblank⟩ := Token.Stream.of_shift_ended hplace
    refine ⟨cs ++ ['\n'], (List.append_nil _).symm, fun q us hq => ?_⟩
    have hparses := hlater q _ (ParsesTo.after_feed hq hblank)
    have hlength : byteLength cs' + 1 + byteLength pre = byteLength (cs ++ ['\n']) := by
      rw [byteLength_line, hcs, byteLength_append]
      omega
    rw [LawfulPlaced.shift_shift, hlength] at hparses
    rw [List.append_assoc]
    exact hparses
  · have hdrop : dropBytes c.consumed (cs ++ ['\n']) = cs' ++ ['\n'] := by
      rw [hstop, hcs, List.append_assoc, dropBytes_append]
    rw [hdrop, String.toList_ofList]
    refine ⟨pre, by rw [hcs, List.append_assoc], fun q us hq => ?_⟩
    rw [List.append_assoc] at hq ⊢
    exact hlater q us hq

/-! ## From the last line backwards -/

theorem toList_line (buffer line : String) :
    (buffer ++ line ++ "\n").toList = buffer.toList ++ line.toList ++ ['\n'] := by
  simp

@[simp] theorem feed_nil : feed [] = [] := rfl

theorem feed_cons (line : String) (lines : List String) : feed (line :: lines) = line.toList ++ '\n' :: feed lines := by
  simp [feed]

theorem isBlank_of_trim (h : (Text.trim cs).isEmpty = true) : ∀ c ∈ cs, Text.isBlank c = true := by
  have hdrop : ∀ c ∈ cs.dropWhile Text.isBlank, Text.isBlank c = true := by
    simpa [Text.trim, Text.trimEnd, List.dropWhile_eq_nil_iff] using h
  intro c hc
  rw [← List.takeWhile_append_dropWhile (p := Text.isBlank) (l := cs)] at hc
  rcases List.mem_append.1 hc with htake | hrest
  · exact List.mem_takeWhile_imp htake
  · exact hdrop c hrest

theorem parsesTo_blank (h : (Text.trim cs).isEmpty = true) : ParsesTo cs [] := by
  have hs := Token.streamOf_blank (isBlank_of_trim h) 0
  refine ⟨Cursor.ofChars cs, .done _, ?_, 0 + byteLength cs, ?_⟩
  · exact congrArg Token.Stream.tokens hs
  · exact congrArg Token.Stream.ending hs

/-- The units of the batches, at their places, are those of the buffer and all lines. -/
theorem Digests.parses (h : Digests offset buffer lines batches) :
    ∃ us, ParsesTo (buffer.toList ++ feed lines) us ∧ Placed.shift us offset = batches.flatMap Batch.placed := by
  induction h with
  | @blank offset buffer h =>
    refine ⟨[], ?_, rfl⟩
    rw [feed_nil, List.append_nil]
    exact parsesTo_blank h
  | @last offset buffer units hfull h =>
    refine ⟨units, ?_, (List.append_nil _).symm⟩
    rw [feed_nil, List.append_nil]
    obtain ⟨c, hgives, hrest⟩ := takeUnits_gives h rfl
    rcases hrest with ⟨-, hend⟩ | ⟨hfalse, -⟩
    · exact ⟨c, hgives, nextUnit_none.1 hend⟩
    · cases hfalse
  | @line offset buffer line rest lines units tail pre batches h hleft hpre hlater ih =>
    obtain ⟨us, hparses, hus⟩ := ih
    have htext := toList_line buffer line
    obtain ⟨pre', hpre', hstep⟩ := takeUnits_parses htext h hleft
    obtain rfl : pre' = pre := List.append_cancel_right (hpre'.symm.trans hpre)
    refine ⟨units ++ Placed.shift us (byteLength pre'), ?_, ?_⟩
    · have hwhole := hstep (feed lines) us hparses
      rw [htext] at hwhole
      rw [feed_cons]
      simpa using hwhole
    · rw [shift_append, LawfulPlaced.shift_shift, Nat.add_comm, hus]
      rfl

/-- Each batch stands at its offset in all that was read. -/
theorem Digests.within (h : Digests offset buffer lines batches) {pre : List Char}
    (hpre : byteLength pre = offset) :
    ∀ b ∈ batches, b.Within (pre ++ (buffer.toList ++ feed lines)) := by
  induction h generalizing pre with
  | @blank offset buffer h =>
    rintro b hb
    obtain rfl := List.mem_singleton.1 hb
    exact ⟨⟨pre, [], by simp, hpre⟩, (parsesTo_blank h).readUnits.1⟩
  | @last offset buffer units hfull h =>
    rintro b hb
    obtain rfl := List.mem_singleton.1 hb
    exact ⟨⟨pre, [], by simp, hpre⟩, takeUnits_units h⟩
  | @line offset buffer line rest lines units tail front batches h hleft hfront hlater ih =>
    rintro b hb
    rcases List.mem_cons.1 hb with rfl | hb
    · exact ⟨⟨pre, feed lines, by simp [feed_cons], hpre⟩, takeUnits_units h⟩
    · have hoffset : byteLength (pre ++ front) = offset + byteLength front := by rw [byteLength_append, hpre]
      have hlater := ih hoffset b hb
      have hwhole : pre ++ front ++ (rest.toList ++ feed lines) = pre ++ (buffer.toList ++ feed (line :: lines)) := by
        rw [List.append_assoc, ← List.append_assoc front, ← hfront, feed_cons]
        simp
      exact hwhole ▸ hlater

/-! ## Runs that are not interactive -/

namespace Exec

variable {α β : Type} {m : Machine}

/-- An end of a computation in a machine that is not interactive. -/
def EndsQuiet : Exec.Result α → Prop
  | .ok _ m | .error _ m => m.config.interactive = false

/-- Two computations do the same in all machines that are not interactive, and leave them so. -/
def Quietly (x y : Exec α) : Prop :=
  ∀ m : Machine, m.config.interactive = false → x m = y m ∧ EndsQuiet (y m)

theorem report_quiet (f : Failure) (hm : m.config.interactive = false) : report f m = .error f m := by
  cases f with
  | stopped cause => rfl
  | _ =>
    show (if m.config.interactive = true then (modify _ : Exec Unit) else throw _) m = _
    rw [hm]
    rfl

theorem ok_of_failure? {x : Exec Unit} (h : x.failure? m = none) : ∃ m', x m = .ok () m' := by
  unfold failure? at h
  cases hr : x m with
  | ok u m' => exact ⟨m', rfl⟩
  | error f m' =>
    rw [hr] at h
    cases h

namespace Quietly

variable {a : α} {x : Exec α} {y : Exec Unit} {f : α → Exec β}

theorem bind {x' : Exec α} {g : α → Exec β} (hx : Quietly x x') (hf : ∀ a, Quietly (f a) (g a)) :
    Quietly (x >>= f) (x' >>= g) := by
  intro m hm
  obtain ⟨heq, hend⟩ := hx m hm
  show EStateM.bind x f m = EStateM.bind x' g m ∧ EndsQuiet (EStateM.bind x' g m)
  unfold EStateM.bind
  rw [heq]
  cases hr : x' m with
  | ok a m1 =>
    rw [hr] at hend
    exact hf a m1 hend
  | error e m1 =>
    rw [hr] at hend
    exact ⟨rfl, hend⟩

/-- A first computation with a known result, and what comes after it. -/
theorem bindPure {z : Exec β} (hx : Quietly x (y >>= fun _ => Pure.pure a)) (hz : Quietly (f a) z) :
    Quietly (x >>= f) (y >>= fun _ => z) := by
  intro m hm
  obtain ⟨heq, hend⟩ := hx m hm
  change x m = EStateM.bind y _ m at heq
  change EndsQuiet (EStateM.bind y _ m) at hend
  show EStateM.bind x f m = EStateM.bind y _ m ∧ EndsQuiet (EStateM.bind y _ m)
  unfold EStateM.bind at heq hend ⊢
  rw [heq]
  cases hr : y m with
  | ok u m1 =>
    rw [hr] at hend
    exact hz m1 hend
  | error e m1 =>
    rw [hr] at hend
    exact ⟨rfl, hend⟩

theorem ok {y : Exec α} {m m' : Machine} (h : Quietly x y) (hm : m.config.interactive = false)
    (hr : x m = .ok a m') : y m = .ok a m' ∧ m'.config.interactive = false := by
  obtain ⟨heq, hend⟩ := h m hm
  rw [hr] at heq
  rw [← heq] at hend
  exact ⟨heq.symm, hend⟩

theorem single {x : Exec Unit} (h : Quietly x y) : Quietly x (y >>= fun _ => Pure.pure ()) := by
  rw [show (y >>= fun _ => Pure.pure ()) = y from bind_pure y]
  exact h

theorem pure (a : α) : Quietly (Pure.pure a : Exec α) (Pure.pure a) := fun _ hm => ⟨rfl, hm⟩

theorem throw (f : Failure) : Quietly (MonadExcept.throw f : Exec α) (MonadExcept.throw f) := fun _ hm => ⟨rfl, hm⟩

theorem of_balanced (h : x.Balanced) : Quietly x x := by
  intro m hm
  have hend := h m
  refine ⟨rfl, ?_⟩
  cases hr : x m with
  | ok a m' =>
    rw [hr] at hend
    exact (congrArg Config.interactive hend.config).trans hm
  | error e m' =>
    rw [hr] at hend
    exact (congrArg Config.interactive hend.1.config).trans hm

theorem afterwards {y : Exec α} {clean : Machine → Machine} (h : Quietly x y)
    (hclean : ∀ m, (clean m).config = m.config) :
    Quietly (Exec.afterwards x clean) (Exec.afterwards y clean) := by
  intro m hm
  obtain ⟨heq, hend⟩ := h m hm
  unfold Exec.afterwards
  rw [heq]
  refine ⟨rfl, ?_⟩
  cases hr : y m with
  | ok a m' | error e m' =>
    rw [hr] at hend
    exact (congrArg Config.interactive (hclean m')).trans hend

/-- A failure is not reported but ends the run. -/
theorem reporting {x : Exec Unit} (h : Quietly x y) :
    Quietly (Exec.reporting x) (y >>= fun _ => Pure.pure true) := by
  intro m hm
  obtain ⟨heq, hend⟩ := h m hm
  show Exec.reporting x m = EStateM.bind y _ m ∧ EndsQuiet (EStateM.bind y _ m)
  unfold Exec.reporting EStateM.bind
  rw [heq]
  cases hr : y m with
  | ok u m' =>
    rw [hr] at hend
    exact ⟨rfl, hend⟩
  | error f m' =>
    rw [hr] at hend
    refine ⟨?_, hend⟩
    have hreport : report f m' = .error f m' := report_quiet f hend
    show EStateM.bind (report f) _ m' = _
    unfold EStateM.bind
    rw [hreport]

theorem report (f : Failure) (g : Unit → Exec α) : Quietly (Exec.report f >>= g) (MonadExcept.throw f) := by
  intro m hm
  refine ⟨?_, hm⟩
  show EStateM.bind (Exec.report f) g m = _
  unfold EStateM.bind
  rw [report_quiet f hm]
  rfl

/-- No machine that is not interactive shows a prompt. -/
theorem prompt (buffer : String) : Quietly (Exec.prompt buffer) (Exec.prompt "") := by
  intro m hm
  refine ⟨?_, hm⟩
  show EStateM.Result.ok () _ = EStateM.Result.ok () _
  simp only [hm, Bool.false_and]

end Quietly

end Exec

/-- The buffer after the units of a text. -/
def Tail.keep : Tail → Exec String
  | .complete => pure ""
  | .unfinished rest => pure rest
  | .broken d => throw (.unread d)

theorem Tail.keep_of_left? (h : tail.left? = some rest) : tail.keep = pure rest := by
  cases tail with
  | complete => exact congrArg pure (Option.some.inj h)
  | unfinished rest' => exact congrArg pure (Option.some.inj h)
  | broken d => cases h

theorem Tail.left?_of_keep {m m' : Machine} (h : tail.keep m = .ok rest m') : tail.left? = some rest := by
  cases tail with
  | complete => cases h; rfl
  | unfinished rest' => cases h; rfl
  | broken d => cases h

/-- Asks for as many lines as there are batches, and runs the units of each one. -/
def Evaluator.runBatches (ev : Evaluator) (noted : Exec Unit) (batches : List Batch) : Exec Unit :=
  batches.forM fun b => do
    Exec.prompt ""
    noted
    b.units.forM ev.runTopUnit

namespace Evaluator

open Exec

variable {ev : Evaluator} (hev : ev.Balanced) {noted : Exec Unit}

include hev

theorem quietly_runTopUnit (unit : Stmt) : Quietly (ev.runTopUnit unit) (ev.runTopUnit unit) := by
  have hresync : ∀ m : Machine, m.resync.config = m.config := by
    intro m
    unfold Machine.resync
    split <;> rfl
  refine ((Quietly.of_balanced (hev.stmt unit)).afterwards hresync).bind fun flow => ?_
  split
  · exact .of_balanced (.get fun m => Evaluator.balanced_present _ _)
  · exact .throw _

theorem quietly_runAllUnits (units : List Stmt) :
    Quietly (ev.runAllUnits units) (units.forM ev.runTopUnit >>= fun _ => pure true) := by
  induction units with
  | nil => exact .pure true
  | cons unit rest ih =>
    have hrest : ∀ done : Bool, Quietly (if done then ev.runAllUnits rest else pure false)
        (if done then rest.forM ev.runTopUnit >>= fun _ => pure true else pure false) := by
      intro done
      cases done with
      | true => exact ih
      | false => exact .pure false
    have hstep := (quietly_runTopUnit hev unit).reporting.bind hrest
    simp only [bind_assoc, pure_bind, if_true] at hstep
    show Quietly _ ((ev.runTopUnit unit >>= fun _ => rest.forM ev.runTopUnit) >>= fun _ => pure true)
    rw [bind_assoc]
    exact hstep

theorem quietly_drain {text : String} {atEnd : Bool} {units : List Stmt} {tail : Tail}
    (h : takeUnits text atEnd = (units, tail)) :
    Quietly (ev.drain text atEnd) (units.forM ev.runTopUnit >>= fun _ => tail.keep) := by
  have hkeep : units.forM ev.runTopUnit >>= (fun _ => tail.keep) =
      (units.forM ev.runTopUnit >>= fun _ => pure true) >>= fun done => if done then tail.keep else pure "" := by
    simp only [bind_assoc, pure_bind, if_true]
  unfold drain
  rw [h, hkeep]
  refine (quietly_runAllUnits hev units).bind fun done => ?_
  cases done with
  | false => exact .pure _
  | true =>
    cases tail with
    | complete => exact .pure _
    | unfinished rest => exact .pure _
    | broken d => exact .report _ _

/-- A loop that gets to the end of its lines found none that breaks. -/
theorem digests_of_ok (hnoted : noted.Balanced) {m m' : Machine} (hm : m.config.interactive = false)
    (h : ev.runLines noted buffer (lines.map .ok) m = .ok () m') (offset : Nat) :
    ∃ batches, Digests offset buffer lines batches := by
  induction lines generalizing buffer m offset with
  | nil =>
    obtain ⟨_, m1, hprompt, h⟩ := ok_of_bind h
    obtain ⟨_, m2, hnote, h⟩ := ok_of_bind h
    have hm1 := ((Quietly.prompt buffer).ok hm hprompt).2
    have hm2 := ((Quietly.of_balanced hnoted).ok hm1 hnote).2
    cases hblank : (Text.trim buffer.toList).isEmpty with
    | true => exact ⟨_, .blank hblank⟩
    | false =>
      unfold endInput at h
      rw [hblank] at h
      obtain ⟨rest, m3, hdrain, -⟩ := ok_of_bind h
      obtain ⟨hkeep, -⟩ := (quietly_drain hev rfl).ok hm2 hdrain
      obtain ⟨_, _, -, hkeep⟩ := ok_of_bind hkeep
      have hleft := Tail.left?_of_keep hkeep
      -- at the end of input nothing waits for more
      have htake : takeUnits buffer true = ((takeUnits buffer true).1, (takeUnits buffer true).2) := rfl
      obtain ⟨c, -, ⟨hcomplete, -⟩ | ⟨hend, -⟩⟩ := takeUnits_gives htake hleft
      · exact ⟨_, .last hblank (Prod.ext rfl hcomplete)⟩
      · cases hend
  | cons line lines ih =>
    obtain ⟨_, m1, hprompt, h⟩ := ok_of_bind h
    obtain ⟨_, m2, hnote, h⟩ := ok_of_bind h
    obtain ⟨rest, m3, hdrain, h⟩ := ok_of_bind h
    have hm1 := ((Quietly.prompt buffer).ok hm hprompt).2
    have hm2 := ((Quietly.of_balanced hnoted).ok hm1 hnote).2
    obtain ⟨hkeep, hm3⟩ := (quietly_drain hev rfl).ok hm2 hdrain
    obtain ⟨_, _, -, hkeep⟩ := ok_of_bind hkeep
    have hleft := Tail.left?_of_keep hkeep
    obtain ⟨pre, hpre, -⟩ := takeUnits_parses (toList_line buffer line) rfl hleft
    obtain ⟨batches, hlater⟩ := ih hm3 h (offset + byteLength pre)
    exact ⟨_, .line rfl hleft hpre hlater⟩

/-- Where no line breaks, the loop runs the batches one after the other. -/
theorem runs_batches (hnoted : noted.Balanced) {offset : Nat} {batches : List Batch}
    (h : Digests offset buffer lines batches) :
    Quietly (ev.runLines noted buffer (lines.map .ok)) (ev.runBatches noted batches) := by
  have hnoted' := Quietly.of_balanced hnoted
  induction h with
  | @blank offset buffer hblank =>
    have hend : ev.endInput buffer = pure () := by
      unfold endInput
      rw [hblank]
      rfl
    refine Quietly.single ((Quietly.prompt buffer).bind fun _ => hnoted'.bind fun _ => ?_)
    rw [hend]
    exact .pure ()
  | @last offset buffer units hfull h =>
    have hend : ev.endInput buffer = ev.drain buffer true >>= fun _ => pure () := by
      unfold endInput
      rw [hfull]
      rfl
    refine Quietly.single ((Quietly.prompt buffer).bind fun _ => hnoted'.bind fun _ => ?_)
    rw [hend]
    have hdrain := (quietly_drain hev h).bindPure (f := fun _ => pure ()) (.pure ())
    simpa using hdrain
  | @line offset buffer line rest lines units tail pre batches h hleft hpre hlater ih =>
    have hdrain := quietly_drain hev h
    rw [Tail.keep_of_left? hleft] at hdrain
    have hround : Quietly (ev.runLines noted buffer ((line :: lines).map .ok))
      (prompt "" >>= fun _ => noted >>= fun _ =>
        units.forM ev.runTopUnit >>= fun _ => ev.runBatches noted batches) :=
      (Quietly.prompt buffer).bind fun _ => hnoted'.bind fun _ => hdrain.bindPure ih
    simpa [runBatches] using hround

end Evaluator

/-! ## The whole text -/

theorem feed_eq (h : lines ≠ []) : feed lines = ("\n".intercalate lines).toList ++ ['\n'] := by
  induction lines with
  | nil => exact absurd rfl h
  | cons line lines ih =>
    cases lines with
    | nil => simp [feed]
    | cons next lines =>
      rw [feed_cons, ih (List.cons_ne_nil _ _), String.intercalate_cons_cons]
      simp

/-- A line feed after the last line makes no difference. -/
theorem parsesTo_lines {us : List Stmt} (h : ParsesTo (feed lines) us) :
    ParsesTo ("\n".intercalate lines).toList us := by
  cases lines with
  | nil => exact h
  | cons line lines =>
    rw [feed_eq (List.cons_ne_nil _ _)] at h
    exact h.of_feed

theorem Digests.length (h : Digests offset buffer lines batches) : batches.length = lines.length + 1 := by
  induction h with
  | blank => rfl
  | last => rfl
  | line _ _ _ _ ih => exact congrArg (· + 1) ih

/-- A line loop that is not interactive and gets to the end of its lines has run the units of the lines joined by line
feeds, each once and in order, at the places where the texts that they were read from stand. Nothing has to be said
about `else` at the start of a line: it goes with the unit before it if that is unfinished, and ends the run
otherwise. -/
theorem line_loop_runs_whole_text {allowance : Nat} {noted : Exec Unit} {lines : List String} {m m' : Machine}
    (hmode : m.config.interactive = false) (hnoted : noted.Balanced)
    (h : (evaluator allowance).runLines noted "" (lines.map .ok) m = .ok () m') :
    ∃ batches : List Batch, batches.length = lines.length + 1 ∧ (∀ b ∈ batches, b.Within (feed lines)) ∧
      parseUnits ("\n".intercalate lines) = .ok (batches.flatMap Batch.placed) ∧
      ∀ (ev : Evaluator) (noted : Exec Unit) (m : Machine), ev.Balanced → noted.Balanced →
        m.config.interactive = false → ev.runLines noted "" (lines.map .ok) m = ev.runBatches noted batches m := by
  obtain ⟨batches, hdigests⟩ := Evaluator.digests_of_ok (balanced_evaluator allowance) hnoted hmode h 0
  obtain ⟨us, hparses, hus⟩ := hdigests.parses
  rw [LawfulPlaced.shift_zero] at hus
  refine ⟨batches, hdigests.length, hdigests.within (show byteLength [] = 0 from rfl), ?_,
    fun ev noted m hev hnoted hm => ?_⟩
  · rw [← hus]
    exact parsesTo_iff.1 (parsesTo_lines hparses)
  · exact (Evaluator.runs_batches hev hnoted hdigests m hm).1

/-- Lines that end within an expression and within a comment, and one that starts with `else`. -/
def brokenLines : List String := ["x = 1 +", "2; /* two", "lines */ y = 0; \x7b if (x == 2) y = 1;",
    "else y = 2; \x7d z = y;"]

/-- The first unit and the block are each read from two lines; an assignment starts behind a comment of two lines. -/
theorem broken_lines_run_once :
    ((evaluator 9).runLines (pure ()) "" (brokenLines.map .ok)).failure?
        (Machine.initial {} ⟨fun _ => .directory⟩ "w" []) = none ∧
      ∃ batches : List Batch, batches.length = 5 ∧
        parseUnits ("\n".intercalate brokenLines) = .ok (batches.flatMap Batch.placed) := by
  have hok : ((evaluator 9).runLines (pure ()) "" (brokenLines.map .ok)).failure?
      (Machine.initial {} ⟨fun _ => .directory⟩ "w" []) = none := by decide +kernel
  refine ⟨hok, ?_⟩
  obtain ⟨m', h⟩ := Exec.ok_of_failure? hok
  obtain ⟨batches, hlength, -, hunits, -⟩ := line_loop_runs_whole_text rfl (Exec.balanced_pure ()) h
  exact ⟨batches, hlength, hunits⟩

end HostScript
