import Fieldbus.Proofs.Activity.Trace

/-!
# Activities in time

A trace says what an activity did, and a timed trace also when.  Timers are exact: a sleep ends at its
time, and the clock shows the time.  Waiting for a lock or for somebody else takes as long as it
takes.  Whatever an activity does on its own takes no time.

`Activity.Clocked` is a trace in time.  It is cut where its activity is cut (`Clocked.of_bind`), also
if the activity is still under way (`Clocked.cases_bind`).
-/

namespace Fieldbus

/-- The event begins at `t` and has ended at `t'`. -/
def Event.Lasts (t t' : Nanos) : Event → Prop
  | ⟨.lock _, _⟩ | ⟨.connect _, _⟩ | ⟨.read .., _⟩ | ⟨.write .., _⟩ | ⟨.close _, _⟩ | ⟨.join _, _⟩
  | ⟨.send _, _⟩ | ⟨.receive, _⟩ | ⟨.hear _, _⟩ => t ≤ t'
  | ⟨.sleep wake, _⟩ | ⟨.pause _ wake, false⟩ => max t wake = t'
  | ⟨.pause _ wake, true⟩ => t ≤ t' ∧ t' ≤ max t wake
  | ⟨.now, time⟩ => t = time ∧ t = t'
  | _ => t = t'

theorem Event.Lasts.le {t t' : Nanos} {e : Event} (h : e.Lasts t t') : t ≤ t' := by
  unfold Event.Lasts at h
  split at h
  case h_1 | h_2 | h_3 | h_4 | h_5 | h_6 | h_7 | h_8 | h_9 => exact h
  case h_10 | h_11 => exact h ▸ Nat.le_max_left ..
  case h_12 => exact h.1
  case h_13 => exact Nat.le_of_eq h.2
  case h_14 => exact Nat.le_of_eq h

/-- Events one behind the other, each with the time at which it begins. -/
inductive Timed : Nanos → List (Nanos × Event) → Nanos → Prop
  | nil {t : Nanos} : Timed t [] t
  | cons {t t' t'' : Nanos} {e : Event} {rest : List (Nanos × Event)} :
    e.Lasts t t' → Timed t' rest t'' → Timed t ((t, e) :: rest) t''

theorem Timed.le {t t' : Nanos} {history : List (Nanos × Event)} (h : Timed t history t') :
    t ≤ t' := by
  induction h with
  | nil => exact Nat.le_refl _
  | cons lasts _ ih => exact Nat.le_trans lasts.le ih

theorem Timed.of_append {t t' : Nanos} {earlier later : List (Nanos × Event)}
    (h : Timed t (earlier ++ later) t') : ∃ s, Timed t earlier s ∧ Timed s later t' := by
  induction earlier generalizing t with
  | nil => exact ⟨t, .nil, h⟩
  | cons first rest ih =>
    cases h with
    | cons lasts h =>
      obtain ⟨s, before, after⟩ := ih h
      exact ⟨s, .cons lasts before, after⟩

namespace Activity

variable {α β : Type}

/-- The history takes the first activity at `t` to the second one at `t'`. -/
structure Clocked (a : Activity α) (t : Nanos) (history : List (Nanos × Event)) (b : Activity α)
    (t' : Nanos) : Prop where
  timed : Timed t history t'
  performs : a.Performs (history.map Prod.snd) b

variable {a b : Activity α} {f : α → Activity β} {t t' : Nanos} {history : List (Nanos × Event)}

theorem clocked_pure {v : α} : (pure v : Activity α).Clocked t history b t' ↔
    history = [] ∧ b = .done v ∧ t = t' := by
  constructor
  · rintro ⟨timed, performs⟩
    generalize same : history.map Prod.snd = events at performs
    cases performs with
    | nil =>
      cases List.map_eq_nil_iff.mp same
      cases timed
      exact ⟨rfl, rfl, rfl⟩
  · rintro ⟨rfl, rfl, rfl⟩
    exact ⟨.nil, .nil⟩

/-- An activity that begins with a step has not begun, or has taken it. -/
theorem Clocked.cases_ask {s : Step} {f : s.Answer → Activity β} {b : Activity β}
    (h : (ask s >>= f).Clocked t history b t') :
    (history = [] ∧ b = ask s >>= f) ∨ ∃ answer rest t₁, history = (t, ⟨s, answer⟩) :: rest ∧
      Event.Lasts t t₁ ⟨s, answer⟩ ∧ (f answer).Clocked t₁ rest b t' := by
  obtain ⟨timed, performs⟩ := h
  cases timed with
  | nil =>
    cases performs
    exact .inl ⟨rfl, rfl⟩
  | cons lasts timed =>
    cases performs with
    | cons performs => exact .inr ⟨_, _, _, rfl, lasts, timed, performs⟩

theorem Clocked.of_ask_bind {s : Step} {f : s.Answer → Activity β} {v : β}
    (h : (ask s >>= f).Clocked t history (.done v) t') :
    ∃ answer rest t₁, history = (t, ⟨s, answer⟩) :: rest ∧
      Event.Lasts t t₁ ⟨s, answer⟩ ∧ (f answer).Clocked t₁ rest (.done v) t' := by
  rcases h.cases_ask with ⟨-, unbegun⟩ | begun
  · cases unbegun
  · exact begun

/-- Of two activities one after another, the first one is under way, or it is through and the second
one is. -/
theorem Clocked.cases_bind {b : Activity β} (h : (a >>= f).Clocked t history b t') :
    (∃ a', a.Clocked t history a' t') ∨ ∃ u earlier later t₁, history = earlier ++ later ∧
      a.Clocked t earlier (.done u) t₁ ∧ (f u).Clocked t₁ later b t' := by
  induction a generalizing t history with
  | done u => exact .inr ⟨u, [], history, t, rfl, ⟨.nil, .nil⟩, h⟩
  | step s next ih =>
    rcases Clocked.cases_ask (f := fun answer => next answer >>= f) h with
      ⟨rfl, -⟩ | ⟨answer, rest, t₁, rfl, lasts, h⟩
    · cases h.timed
      exact .inl ⟨_, .nil, .nil⟩
    · rcases ih answer h with ⟨a', first⟩ | ⟨u, earlier, later, t₂, rfl, first, second⟩
      · exact .inl ⟨a', .cons lasts first.timed, .cons first.performs⟩
      · exact .inr ⟨u, _ :: earlier, later, t₂, rfl,
          ⟨.cons lasts first.timed, .cons first.performs⟩, second⟩

theorem Clocked.of_bind {v : β} (h : (a >>= f).Clocked t history (.done v) t') :
    ∃ u earlier later t₁, history = earlier ++ later ∧ a.Clocked t earlier (.done u) t₁ ∧
      (f u).Clocked t₁ later (.done v) t' := by
  obtain ⟨timed, performs⟩ := h
  obtain ⟨u, earlier, later, whole, first, second⟩ := performs.of_bind
  obtain ⟨before, after, rfl, rfl, rfl⟩ := List.map_eq_append_iff.mp whole
  obtain ⟨t₁, sooner, afterwards⟩ := timed.of_append
  exact ⟨u, before, after, t₁, rfl, ⟨sooner, first⟩, ⟨afterwards, second⟩⟩

/-- What an activity does if each answer and its time are known. -/
def playTimed (world : (s : Step) → Nanos → s.Answer × Nanos) :
    Activity α → Nanos → List (Nanos × Event) × α × Nanos
  | .done a, t => ([], a, t)
  | .step s next, t =>
    let (answer, t') := world s t
    let (rest, end') := (next answer).playTimed world t'
    ((t, ⟨s, answer⟩) :: rest, end')

theorem clocked_playTimed {world : (s : Step) → Nanos → s.Answer × Nanos}
    (lasting : ∀ s t, Event.Lasts t (world s t).2 ⟨s, (world s t).1⟩) (a : Activity α) (t : Nanos) :
    a.Clocked t (a.playTimed world t).1 (.done (a.playTimed world t).2.1)
      (a.playTimed world t).2.2 := by
  induction a generalizing t with
  | done v => exact ⟨.nil, .nil⟩
  | step s next ih =>
    obtain ⟨timed, performs⟩ := ih (world s t).1 (world s t).2
    exact ⟨.cons (lasting s t) timed, .cons performs⟩

end Activity

end Fieldbus
