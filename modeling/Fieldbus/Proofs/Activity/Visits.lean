import Fieldbus.Proofs.Activity.Trace

/-!
# Visits to a link

An activity visits a link when it takes the lock, does something with the link and gives the lock
back.  `Visited` says of the events of an activity that it does nothing with a link but during a
visit, that it holds one lock at a time, and which visits it makes.

`Activity.Stands` says the same of what is left of an activity, and needs no events.  It follows
from what is known of the events (`Activity.Visits.stands`), and goes with the activity from step
to step.
-/

namespace Fieldbus

/-! ## What is done with a link -/

/-- Whether a step is an exchange over a link or makes it. -/
def Step.uses (link : LinkId) : Step → Bool
  | .connect l | .read l _ | .write l .. => l = link
  | _ => false

/-- Whether a step may be taken while the lock of a link is held. -/
def Step.isInside (link : LinkId) : Step → Bool
  | .isConnected l | .connect l | .read l _ | .write l .. | .frames l | .stats l => l = link
  | .setState .. | .now => true
  | _ => false

/-- Whether a step may be taken without a lock. -/
def Step.isOutside : Step → Bool
  | .lock _ | .unlock _ | .isConnected _ | .connect _ | .read .. | .write .. | .frames _ | .stats _
  | .close _ => false
  | _ => true

namespace Step

variable {s : Step} {link l : LinkId}

theorem uses_of_isOutside (outside : s.isOutside = true) : s.uses link = false := by
  cases s with
  | connect _ | read _ _ | write _ _ _ => cases outside
  | _ => rfl

theorem isInside_of_uses (uses : s.uses link = true) : s.isInside link = true := by
  cases s with
  | connect _ | read _ _ | write _ _ _ => exact uses
  | _ => cases uses

theorem uses_unique (here : s.uses link = true) (there : s.uses l = true) : l = link := by
  cases s with
  | connect _ | read _ _ | write _ _ _ =>
    simp only [uses, decide_eq_true_eq] at here there
    exact there.symm.trans here
  | _ => cases here

theorem eq_of_isInside_of_uses (inside : s.isInside link = true) (uses : s.uses l = true) :
    l = link := by
  cases s with
  | connect _ | read _ _ | write _ _ _ =>
    simp only [isInside, Step.uses, decide_eq_true_eq] at inside uses
    exact uses.symm.trans inside
  | _ => cases uses

end Step

/-! ## Visits in a trace -/

/-- What is done during a visit, which uses the link at most once. -/
structure IsVisit (link : LinkId) (visit : List Event) : Prop where
  inside : ∀ e ∈ visit, e.step.isInside link = true
  once : (visit.filter fun e => e.step.uses link).length ≤ 1

/-- Events that are visits of some kind, with other steps between them. -/
inductive Visited (kind : LinkId → List Event → Prop) : List Event → Prop
  /-- No event. -/
  | nil : Visited kind []
  /-- A step that needs no lock. -/
  | aside {e : Event} {rest : List Event} :
      e.step.isOutside = true → Visited kind rest → Visited kind (e :: rest)
  /-- A visit. -/
  | visit {link : LinkId} {visit rest : List Event} :
      kind link visit → Visited kind rest →
      Visited kind (⟨.lock link, ()⟩ :: (visit ++ ⟨.unlock link, ()⟩ :: rest))

namespace Visited

variable {kind kind' : LinkId → List Event → Prop} {earlier later events : List Event}

theorem append (h : Visited kind earlier) (rest : Visited kind later) :
    Visited kind (earlier ++ later) := by
  induction h with
  | nil => exact rest
  | aside outside _ ih => exact .aside outside ih
  | visit own _ ih =>
    rw [List.cons_append, List.append_assoc, List.cons_append]
    exact .visit own ih

theorem mono (h : Visited kind events) (weaker : ∀ link visit, kind link visit → kind' link visit) :
    Visited kind' events := by
  induction h with
  | nil => exact .nil
  | aside outside _ ih => exact .aside outside ih
  | visit own _ ih => exact .visit (weaker _ _ own) ih

theorem of_isOutside (outside : ∀ e ∈ events, e.step.isOutside = true) : Visited kind events := by
  induction events with
  | nil => exact .nil
  | cons e rest ih =>
    exact .aside (outside e List.mem_cons_self)
      (ih fun x member => outside x (List.mem_cons_of_mem _ member))

end Visited

namespace Activity

variable {α β : Type} {kind kind' : LinkId → List Event → Prop}

/-! ## Activities that make visits -/

/-- Once the activity is through, it has made visits of some kind. -/
def Visits (kind : LinkId → List Event → Prop) (a : Activity α) : Prop :=
  ∀ events v, a.Performs events (.done v) → Visited kind events

theorem Visits.pure (v : α) : (Pure.pure v : Activity α).Visits kind := by
  intro events w h
  rw [(performs_pure.mp h).1]
  exact .nil

theorem Visits.bind {a : Activity α} {f : α → Activity β} (first : a.Visits kind)
    (second : ∀ v, (f v).Visits kind) : (a >>= f).Visits kind := by
  intro events w h
  obtain ⟨v, earlier, later, rfl, begun, rest⟩ := h.of_bind
  exact (first _ _ begun).append (second v _ _ rest)

theorem Visits.aside {s : Step} {f : s.Answer → Activity β} (outside : s.isOutside = true)
    (rest : ∀ answer, (f answer).Visits kind) : (ask s >>= f).Visits kind := by
  intro events w h
  obtain ⟨answer, later, rfl, further⟩ := h.of_ask_bind
  exact .aside outside (rest answer _ _ further)

theorem Visits.mono {a : Activity α} (h : a.Visits kind)
    (weaker : ∀ link visit, kind link visit → kind' link visit) : a.Visits kind' :=
  fun events v run => (h events v run).mono weaker

theorem Only.visits {a : Activity α} (h : a.Only fun s => s.isOutside = true) : a.Visits kind :=
  fun _ _ run => .of_isOutside (h.of_performs run)

/-! ## What is left of an activity -/

/-- How an activity stands to the locks. -/
inductive Stance where
  /-- It holds no lock. -/
  | outside
  /-- It holds the lock of a link, which it has used since or not. -/
  | inside (link : LinkId) (isUsed : Bool)

/-- The link whose lock it holds. -/
def Stance.link? : Stance → Option LinkId
  | .outside => none
  | .inside link _ => some link

/-- From this stance on the activity makes visits, each of which uses the link at most once. -/
inductive Stands : Stance → Activity α → Prop
  /-- It is through. -/
  | done {v : α} : Stands .outside (.done v)
  /-- A step that needs no lock. -/
  | aside {s : Step} {next : s.Answer → Activity α} :
      s.isOutside = true → (∀ answer, Stands .outside (next answer)) →
      Stands .outside (.step s next)
  /-- The beginning of a visit. -/
  | enter {link : LinkId} {next : Unit → Activity α} :
      (∀ answer, Stands (.inside link false) (next answer)) →
      Stands .outside (.step (.lock link) next)
  /-- The one use of the link. -/
  | use {link : LinkId} {s : Step} {next : s.Answer → Activity α} :
      s.uses link = true → (∀ answer, Stands (.inside link true) (next answer)) →
      Stands (.inside link false) (.step s next)
  /-- Something else during a visit. -/
  | look {link : LinkId} {isUsed : Bool} {s : Step} {next : s.Answer → Activity α} :
      s.isInside link = true → s.uses link = false →
      (∀ answer, Stands (.inside link isUsed) (next answer)) →
      Stands (.inside link isUsed) (.step s next)
  /-- The end of a visit. -/
  | leave {link : LinkId} {isUsed : Bool} {next : Unit → Activity α} :
      (∀ answer, Stands .outside (next answer)) →
      Stands (.inside link isUsed) (.step (.unlock link) next)

/-- What is left of visits from a stance on. -/
def Stance.Leaves : Stance → List Event → Prop
  | .outside, events => Visited IsVisit events
  | .inside link isUsed, events => ∃ visit rest, events = visit ++ ⟨.unlock link, ()⟩ :: rest ∧
      (∀ e ∈ visit, e.step.isInside link = true) ∧
      (visit.filter fun e => e.step.uses link).length + isUsed.toNat ≤ 1 ∧ Visited IsVisit rest

theorem Stance.leaves_aside {s : Step} (outside : s.isOutside = true) {answer : s.Answer}
    {events : List Event} (h : Stance.outside.Leaves (⟨s, answer⟩ :: events)) :
    Stance.outside.Leaves events := by
  cases h with
  | aside _ rest => exact rest
  | visit _ _ => cases outside

theorem Stance.leaves_lock {link : LinkId} {answer : Unit} {events : List Event}
    (h : Stance.outside.Leaves (⟨.lock link, answer⟩ :: events)) :
    (Stance.inside link false).Leaves events := by
  cases h with
  | aside outside _ => cases outside
  | visit own rest => exact ⟨_, _, rfl, own.inside, own.once, rest⟩

theorem Stance.leaves_unlock {link : LinkId} {isUsed : Bool} {answer : Unit} {events : List Event}
    (h : (Stance.inside link isUsed).Leaves (⟨.unlock link, answer⟩ :: events)) :
    Stance.outside.Leaves events := by
  obtain ⟨visit, rest, whole, inside, -, further⟩ := h
  cases visit with
  | nil =>
    cases whole
    exact further
  | cons e visit =>
    cases whole
    cases inside _ List.mem_cons_self

/-- After a step during a visit the visit goes on, and a link that is used was not used before. -/
theorem Stance.leaves_inside {link : LinkId} {isUsed : Bool} {s : Step} {answer : s.Answer}
    {events : List Event} (within : s.isInside link = true)
    (h : (Stance.inside link isUsed).Leaves (⟨s, answer⟩ :: events)) :
    ¬ (s.uses link = true ∧ isUsed = true) ∧
      (Stance.inside link (s.uses link || isUsed)).Leaves events := by
  obtain ⟨visit, rest, whole, inside, once, further⟩ := h
  cases visit with
  | nil =>
    cases whole
    cases within
  | cons e visit =>
    cases whole
    have others : ∀ e ∈ visit, e.step.isInside link = true :=
      fun e member => inside e (List.mem_cons_of_mem _ member)
    cases uses : s.uses link with
    | false =>
      simp only [List.filter_cons, uses, Bool.false_eq_true, if_false] at once
      exact ⟨by simp, visit, rest, rfl, others, once, further⟩
    | true =>
      simp only [List.filter_cons, uses, if_true, List.length_cons] at once
      cases isUsed with
      | false => exact ⟨by simp, visit, rest, rfl, others, by simpa using once, further⟩
      | true =>
        simp only [Bool.toNat_true] at once
        omega

theorem Stance.outside_cases {s : Step} {answer : s.Answer} {events : List Event}
    (h : Stance.outside.Leaves (⟨s, answer⟩ :: events)) :
    s.isOutside = true ∨ ∃ link, s = .lock link := by
  cases h with
  | aside outside _ => exact .inl outside
  | visit _ _ => exact .inr ⟨_, rfl⟩

theorem Stance.inside_cases {link : LinkId} {isUsed : Bool} {s : Step} {answer : s.Answer}
    {events : List Event} (h : (Stance.inside link isUsed).Leaves (⟨s, answer⟩ :: events)) :
    s = .unlock link ∨ s.isInside link = true := by
  obtain ⟨visit, rest, whole, inside, -⟩ := h
  cases visit with
  | nil =>
    cases whole
    exact .inl rfl
  | cons e visit =>
    cases whole
    exact .inr (inside _ List.mem_cons_self)

theorem stands_of_leaves {a : Activity α} {st : Stance}
    (h : ∀ events v, a.Performs events (.done v) → st.Leaves events) : a.Stands st := by
  induction a generalizing st with
  | done v =>
    have through := h [] v .nil
    cases st with
    | outside => exact .done
    | inside link isUsed =>
      obtain ⟨visit, rest, whole, -⟩ := through
      cases visit <;> cases whole
  | step s next ih =>
    have after (answer : s.Answer) {events : List Event} {v : α}
        (run : (next answer).Performs events (.done v)) : st.Leaves (⟨s, answer⟩ :: events) :=
      h _ _ (.cons run)
    -- Which kind of step it is, one trace tells; what is left after it is so for all of them.
    have one := after default (performs_trace (fun _ => default) (next default))
    cases st with
    | outside =>
      rcases Stance.outside_cases one with outside | ⟨link, rfl⟩
      · exact .aside outside fun answer => ih answer fun _ _ run =>
          Stance.leaves_aside outside (after answer run)
      · exact .enter fun answer => ih answer fun _ _ run => Stance.leaves_lock (after answer run)
    | inside link isUsed =>
      rcases Stance.inside_cases one with rfl | inside
      · exact .leave fun answer => ih answer fun _ _ run => Stance.leaves_unlock (after answer run)
      · have fresh := (Stance.leaves_inside inside one).1
        have left (answer : s.Answer) : (next answer).Stands (.inside link (s.uses link || isUsed)) :=
          ih answer fun _ _ run => (Stance.leaves_inside inside (after answer run)).2
        cases uses : s.uses link with
        | false =>
          rw [uses, Bool.false_or] at left
          exact .look inside uses left
        | true =>
          rw [uses, Bool.true_or] at left
          cases isUsed with
          | false => exact .use uses left
          | true => exact absurd ⟨uses, rfl⟩ fresh

theorem Visits.stands {a : Activity α} (h : a.Visits IsVisit) : a.Stands .outside :=
  stands_of_leaves h

/-- Without the lock taken anew a link is used at most once, and only by who was about to. -/
theorem Stands.uses_cases {a b : Activity α} {st : Stance} {link : LinkId} {events : List Event}
    (h : a.Stands st) (run : a.Performs events b) (away : ∀ e ∈ events, e.step ≠ .lock link) :
    (events.filter fun e => e.step.uses link) = [] ∨
      st = .inside link false ∧ ∃ e, (events.filter fun e => e.step.uses link) = [e] := by
  induction run generalizing st with
  | nil => exact .inl rfl
  | @cons s next answer events b run ih =>
    have later : ∀ e ∈ events, e.step ≠ .lock link :=
      fun e member => away e (List.mem_cons_of_mem _ member)
    cases h with
    | aside outside rest =>
      rw [List.filter_cons_of_neg (by simp [Step.uses_of_isOutside outside])]
      exact .inl ((ih (rest answer) later).resolve_right (by simp))
    | @enter l _ rest =>
      have other : l ≠ link := fun same => away _ List.mem_cons_self (congrArg Step.lock same)
      exact .inl ((ih (rest answer) later).resolve_right (by simp [other]))
    | @use l _ _ uses rest =>
      have none := (ih (rest answer) later).resolve_right (by simp)
      cases here : s.uses link with
      | false =>
        rw [List.filter_cons_of_neg (by simp [here])]
        exact .inl none
      | true =>
        simp only [List.filter_cons, here, if_true, none]
        exact .inr ⟨by rw [Step.uses_unique here uses], _, rfl⟩
    | @look l isUsed _ _ inside silent rest =>
      have here : s.uses link = false := by
        cases here : s.uses link with
        | false => rfl
        | true =>
          rw [Step.eq_of_isInside_of_uses inside here, silent] at here
          cases here
      rw [List.filter_cons_of_neg (by simp [here])]
      exact ih (rest answer) later
    | leave rest => exact .inl ((ih (rest answer) later).resolve_right (by simp))

end Activity

end Fieldbus
