import Fieldbus.Activity

/-!
# What activities may do

A trace is the list of the steps that an activity took, with the answers that it got.
`Activity.Ensures` is the program logic: it goes down the tree, so one obligation stands at each
step and one at each end, and both see the whole past.  A sequence of activities is treated one
activity after another (`Activity.ensures_bind`).

What holds of the tree holds of each trace through it (`Activity.Performs.may`).
-/

namespace Fieldbus

/-- A step and its answer. -/
structure Event where
  step : Step
  answer : step.Answer

/-- A step that neither begins a cycle, nor writes to a device, nor changes the store. -/
def Step.IsInner : Step → Prop
  | .plan _ | .write .. | .publish _ | .forget _ => False
  | _ => True

/-- What the answers are known to be, and which events may follow a past. -/
structure Rules where
  given : Event → Prop
  may : List Event → Event → Prop

namespace Activity

variable {α β : Type} {rules : Rules}

def isDone : Activity α → Bool
  | .done _ => true
  | .step .. => false

/-! ## Obligations -/

/-- Each step may follow its past, and the value at the end satisfies `post`. -/
def Ensures (rules : Rules) (post : List Event → α → Prop) : Activity α → List Event → Prop
  | .done a, past => post past a
  | .step s next, past =>
    ∀ answer, rules.given ⟨s, answer⟩ →
      rules.may past ⟨s, answer⟩ ∧ (next answer).Ensures rules post (past ++ [⟨s, answer⟩])

@[simp] theorem ensures_ask_bind {s : Step} {f : s.Answer → Activity β}
    {post : List Event → β → Prop} {past : List Event} :
    (ask s >>= f).Ensures rules post past ↔
      ∀ answer, rules.given ⟨s, answer⟩ →
        rules.may past ⟨s, answer⟩ ∧ (f answer).Ensures rules post (past ++ [⟨s, answer⟩]) :=
  Iff.rfl

theorem ensures_bind {f : α → Activity β} {post : List Event → β → Prop} (a : Activity α)
    (past : List Event) :
    (a >>= f).Ensures rules post past ↔
      a.Ensures rules (fun past v => (f v).Ensures rules post past) past := by
  induction a generalizing past with
  | done a => rfl
  | step s next ih =>
    constructor
    · intro h answer known
      obtain ⟨allowed, rest⟩ := h answer known
      exact ⟨allowed, (ih answer _).mp rest⟩
    · intro h answer known
      obtain ⟨allowed, rest⟩ := h answer known
      exact ⟨allowed, (ih answer _).mpr rest⟩

theorem Ensures.mono {post post' : List Event → α → Prop} {a : Activity α} {past : List Event}
    (h : a.Ensures rules post past) (weaker : ∀ past v, post past v → post' past v) :
    a.Ensures rules post' past := by
  induction a generalizing past with
  | done a => exact weaker past a h
  | step s next ih =>
    intro answer known
    obtain ⟨allowed, rest⟩ := h answer known
    exact ⟨allowed, ih answer rest⟩

/-! ## Activities of harmless steps -/

/-- All steps of the activity satisfy `P`. -/
def Only (P : Step → Prop) : Activity α → Prop
  | .done _ => True
  | .step s next => P s ∧ ∀ answer, (next answer).Only P

theorem Only.ask {P : Step → Prop} {s : Step} (h : P s) : (Activity.ask s).Only P :=
  ⟨h, fun _ => trivial⟩

theorem Only.bind {P : Step → Prop} {a : Activity α} {f : α → Activity β} (first : a.Only P)
    (second : ∀ v, (f v).Only P) : (a >>= f).Only P := by
  induction a with
  | done a => exact second a
  | step s next ih => exact ⟨first.1, fun answer => ih answer (first.2 answer)⟩

theorem Only.ask_bind {P : Step → Prop} {s : Step} {f : s.Answer → Activity β} (h : P s)
    (rest : ∀ answer, (f answer).Only P) : (Activity.ask s >>= f).Only P := ⟨h, rest⟩

/-- What each harmless step keeps is kept. -/
theorem Only.ensures {P : Step → Prop} {keep : List Event → Prop} {a : Activity α}
    {past : List Event} (h : a.Only P) (start : keep past)
    (kept : ∀ past (e : Event), P e.step → keep past →
      rules.may past e ∧ keep (past ++ [e])) :
    a.Ensures rules (fun past _ => keep past) past := by
  induction a generalizing past with
  | done a => exact start
  | step s next ih =>
    intro answer _
    obtain ⟨allowed, still⟩ := kept past ⟨s, answer⟩ h.1 start
    exact ⟨allowed, ih answer (h.2 answer) still⟩

theorem Only.mono {P Q : Step → Prop} {a : Activity α} (h : a.Only P)
    (weaker : ∀ s, P s → Q s) : a.Only Q := by
  induction a with
  | done a => trivial
  | step s next ih => exact ⟨weaker s h.1, fun answer => ih answer (h.2 answer)⟩

/-- An activity of harmless steps, and what comes after it. -/
theorem Only.then {P : Step → Prop} {keep : List Event → Prop} {a : Activity α}
    {f : α → Activity β} {post : List Event → β → Prop} {past : List Event} (h : a.Only P)
    (start : keep past)
    (kept : ∀ past (e : Event), P e.step → keep past →
      rules.may past e ∧ keep (past ++ [e]))
    (rest : ∀ v past, keep past → (f v).Ensures rules post past) :
    (a >>= f).Ensures rules post past :=
  (ensures_bind a past).mpr ((h.ensures start kept).mono fun past v still => rest v past still)

/-! ## Traces -/

/-- Where a trace is cut, the event of another division stands behind the cut or before it. -/
theorem cut_of_append_eq {e : Event} {earlier later before since : List Event}
    (whole : earlier ++ later = before ++ e :: since) :
    (∃ rest, later = rest ++ e :: since) ∨
      ∃ begun, earlier = before ++ e :: begun ∧ since = begun ++ later := by
  rcases List.append_eq_append_iff.mp whole with ⟨rest, -, behind⟩ | ⟨begun, cut, rest⟩
  · exact .inl ⟨rest, behind⟩
  · rcases List.cons_eq_append_iff.mp rest with ⟨rfl, behind⟩ | ⟨begun, rfl, behind⟩
    · exact .inl ⟨[], behind⟩
    · exact .inr ⟨begun, cut, behind⟩

/-- The events take the first activity to the second. -/
inductive Performs : Activity α → List Event → Activity α → Prop
  /-- Nothing yet. -/
  | nil {a : Activity α} : Performs a [] a
  /-- One step, and the rest. -/
  | cons {s : Step} {next : s.Answer → Activity α} {answer : s.Answer} {events : List Event}
      {b : Activity α} :
      Performs (next answer) events b → Performs (.step s next) (⟨s, answer⟩ :: events) b

theorem performs_pure {a v : α} {events : List Event} :
    (pure a : Activity α).Performs events (.done v) ↔ events = [] ∧ v = a := by
  constructor
  · intro h
    cases h
    exact ⟨rfl, rfl⟩
  · rintro ⟨rfl, rfl⟩
    exact .nil

/-- A trace of two activities one after another is a trace of each. -/
theorem Performs.of_bind {a : Activity α} {f : α → Activity β} {events : List Event} {v : β}
    (h : (a >>= f).Performs events (.done v)) :
    ∃ u earlier later, events = earlier ++ later ∧ a.Performs earlier (.done u) ∧
      (f u).Performs later (.done v) := by
  induction a generalizing events with
  | done u => exact ⟨u, [], events, rfl, .nil, h⟩
  | step s next ih =>
    cases h with
    | cons h =>
      obtain ⟨u, earlier, later, rfl, first, second⟩ := ih _ h
      exact ⟨u, _ :: earlier, later, rfl, .cons first, second⟩

/-- A trace that begins with a known step. -/
theorem Performs.of_ask_bind {s : Step} {f : s.Answer → Activity β} {events : List Event} {v : β}
    (h : (ask s >>= f).Performs events (.done v)) :
    ∃ answer rest, events = ⟨s, answer⟩ :: rest ∧ (f answer).Performs rest (.done v) := by
  cases h with
  | cons h => exact ⟨_, _, rfl, h⟩

theorem Only.of_performs {P : Step → Prop} {a b : Activity α} {events : List Event}
    (h : a.Only P) (run : a.Performs events b) : ∀ e ∈ events, P e.step := by
  induction run with
  | nil => simp
  | cons _ ih =>
    intro e he
    rcases List.mem_cons.mp he with rfl | he
    · exact h.1
    · exact ih (h.2 _) e he

/-- What is left of the activity is alike. -/
theorem Only.left {P : Step → Prop} {a b : Activity α} {events : List Event}
    (h : a.Only P) (run : a.Performs events b) : b.Only P := by
  induction run with
  | nil => exact h
  | cons _ ih => exact ih (h.2 _)

/-- Each end of the activity satisfies `P`. -/
def Ends (P : α → Prop) : Activity α → Prop
  | .done a => P a
  | .step _ next => ∀ answer, (next answer).Ends P

theorem Ends.after {P : β → Prop} {f : α → Activity β} (rest : ∀ v, (f v).Ends P)
    (a : Activity α) : (a >>= f).Ends P := by
  induction a with
  | done a => exact rest a
  | step s next ih => exact fun answer => ih answer

theorem Ends.of_performs {P : α → Prop} {a : Activity α} {v : α} {events : List Event}
    (h : a.Ends P) (run : a.Performs events (.done v)) : P v := by
  generalize ended : Activity.done v = b at run
  induction run with
  | nil =>
    subst ended
    exact h
  | cons _ ih => exact ih (h _) ended

instance : (s : Step) → Inhabited s.Answer
  | .lock _ | .unlock _ | .close _ | .setState .. | .report .. | .sleep _ | .log _ | .publish _
  | .post _ | .announce _ | .discard _ | .setPlan .. | .cancel _ | .join _ | .register _
  | .unregister _ | .setPolicy .. | .dropPolicy _ | .forget _ => ⟨()⟩
  | .isConnected _ | .isCancelled _ | .pause .. | .send _ => ⟨false⟩
  | .connect _ | .write .. => ⟨.ok ()⟩
  | .read .. => ⟨.ok []⟩
  | .frames _ | .stats _ => ⟨{}⟩
  | .plan _ => ⟨{}⟩
  | .state _ => ⟨.idle⟩
  | .now => ⟨(0 : Nat)⟩
  | .clock => ⟨(0 : Int)⟩
  | .find _ | .lookUp _ | .receive | .lastReport _ => ⟨none⟩
  | .subscribe command => ⟨⟨command, 0⟩⟩
  | .hear _ => ⟨.nothing⟩
  | .countOutcomes | .start .. => ⟨(0 : Nat)⟩
  | .closeQueue => ⟨[]⟩

/-- The events of an activity whose answers are known, and what it ends with. -/
def trace (answer : (s : Step) → s.Answer) : Activity α → List Event × α
  | .done a => ([], a)
  | .step s next =>
    let (events, a) := (next (answer s)).trace answer
    (⟨s, answer s⟩ :: events, a)

theorem performs_trace (answer : (s : Step) → s.Answer) (a : Activity α) :
    a.Performs (a.trace answer).1 (.done (a.trace answer).2) := by
  induction a with
  | done a => exact .nil
  | step s next ih => exact .cons (ih (answer s))

theorem Performs.trans {a b c : Activity α} {earlier later : List Event}
    (h : a.Performs earlier b) (rest : b.Performs later c) : a.Performs (earlier ++ later) c := by
  induction h with
  | nil => exact rest
  | cons _ ih => exact .cons (ih rest)

theorem answer_of_trace (answer : (s : Step) → s.Answer) (a : Activity α) :
    ∀ e ∈ (a.trace answer).1, e.answer = answer e.step := by
  induction a with
  | done a => exact fun e he => absurd he List.not_mem_nil
  | step s next ih =>
    intro e he
    rcases List.mem_cons.mp he with rfl | he
    · rfl
    · exact ih (answer s) e he

/-- Each trace can go on to an end, if nothing but the simplest answers is expected. -/
theorem Performs.completed {a b : Activity α} {events : List Event} (h : a.Performs events b) :
    ∃ more v, a.Performs (events ++ more) (.done v) ∧ ∀ e ∈ more, e.answer = default :=
  ⟨_, _, h.trans (b.performs_trace fun _ => default), b.answer_of_trace _⟩

/-- Each event of a trace may follow the events before it. -/
theorem Performs.may {post : List Event → α → Prop} {a b : Activity α} {e : Event}
    {past earlier later : List Event} (h : a.Performs (earlier ++ e :: later) b)
    (ensured : a.Ensures rules post past) (known : ∀ x ∈ earlier ++ e :: later, rules.given x) :
    rules.may (past ++ earlier) e := by
  induction earlier generalizing a past with
  | nil =>
    cases h with
    | @cons s _ answer _ _ _ =>
      have allowed := (ensured answer (known ⟨s, answer⟩ (by simp))).1
      simpa using allowed
  | cons first rest ih =>
    cases h with
    | @cons s _ answer _ _ h =>
      have further := (ensured answer (known ⟨s, answer⟩ (by simp))).2
      have allowed := ih h further fun x hx => known x (List.mem_cons_of_mem _ hx)
      simpa using allowed

/-- What is ensured at the end holds there. -/
theorem Performs.post {post : List Event → α → Prop} {a : Activity α} {v : α}
    {past events : List Event} (h : a.Performs events (.done v))
    (ensured : a.Ensures rules post past) (known : ∀ x ∈ events, rules.given x) :
    post (past ++ events) v := by
  induction events generalizing a past with
  | nil =>
    cases h
    rw [List.append_nil]
    exact ensured
  | cons first rest ih =>
    cases h with
    | @cons s _ answer _ _ h =>
      have further := (ensured answer (known ⟨s, answer⟩ (by simp))).2
      have reached := ih h further fun x hx => known x (List.mem_cons_of_mem _ hx)
      simpa using reached

end Activity

end Fieldbus
