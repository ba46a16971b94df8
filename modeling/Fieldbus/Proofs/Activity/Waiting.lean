import Fieldbus.Proofs.Activity.Interleaving
import Fieldbus.Proofs.Activity.Visits

/-!
# Waiting for locks

In a crowd the steps of activities take time.  A step begins, and later it ends with its answer.
Whoever begins to take a lock waits behind those who began before, and gets it when it is the
first one and the lock is free.

If each activity makes visits, then whoever is inside holds the lock (`Crowd.Orderly`).  Nobody
who asks for a lock behind somebody else gets it before (`Crowd.Run.not_served`), so at most one
use of the link by a given activity comes in between (`Crowd.Run.uses_between`).
-/

namespace Fieldbus

variable {ι : Type} [DecidableEq ι] {β : ι → Type}

/-! ## Crowds -/

/-- The beginning or the end of a step. -/
inductive Moment where
  | begins (step : Step)
  | ends (event : Event)

/-- Whether a moment belongs to a use of a link. -/
def Moment.uses (link : LinkId) : Moment → Bool
  | .begins step => step.uses link
  | .ends e => e.step.uses link

/-- Activities whose steps take time. -/
structure Crowd (β : ι → Type) where
  ensemble : Ensemble β
  /-- Whose next step has begun. -/
  isBusy : ι → Bool := fun _ => false
  /-- Who waits for each lock, in the order in which they asked for it. -/
  waiting : LinkId → List ι := fun _ => []

namespace Crowd

/-- A crowd before its first step. -/
def start (tasks : ∀ i, Activity (β i)) : Crowd β := { ensemble := { tasks } }

/-- Who waits after a moment. -/
def waitingAfter (waiting : LinkId → List ι) (i : ι) : Moment → LinkId → List ι
  | .begins (.lock link) => Function.update waiting link (waiting link ++ [i])
  | .ends ⟨.lock link, _⟩ => Function.update waiting link (waiting link).tail
  | _ => waiting

/-- Whether an activity need not wait for others who asked before. -/
def isFirst (waiting : LinkId → List ι) (i : ι) : Step → Bool
  | .lock link => (waiting link).head? = some i
  | _ => true

/-- A step of one of the activities begins or ends. -/
inductive Take (given : Event → Prop) : Crowd β → ι × Moment → Crowd β → Prop
  /-- The next step begins. -/
  | begins {s : Crowd β} {i : ι} {step : Step} {next : step.Answer → Activity (β i)} :
      s.ensemble.tasks i = .step step next → s.isBusy i = false →
      Take given s (i, .begins step)
        { ensemble := s.ensemble, isBusy := Function.update s.isBusy i true
          waiting := waitingAfter s.waiting i (.begins step) }
  /-- The step that has begun is taken. -/
  | ends {s : Crowd β} {i : ι} {e : Event} {ensemble : Ensemble β} :
      s.isBusy i = true → isFirst s.waiting i e.step = true →
      Ensemble.Take given s.ensemble (i, e) ensemble →
      Take given s (i, .ends e)
        { ensemble, isBusy := Function.update s.isBusy i false
          waiting := waitingAfter s.waiting i (.ends e) }

/-- Moments one after another, with the history that they make. -/
inductive Run (given : Event → Prop) : Crowd β → List (ι × Moment) → Crowd β → Prop
  /-- No moment. -/
  | nil {s : Crowd β} : Run given s [] s
  /-- One moment, and the rest. -/
  | cons {s s' s'' : Crowd β} {e : ι × Moment} {history : List (ι × Moment)} :
      Take given s e s' → Run given s' history s'' → Run given s (e :: history) s''

variable {given : Event → Prop} {s s' s'' : Crowd β} {history : List (ι × Moment)}
  {i x y : ι} {link : LinkId}

theorem Run.of_append {earlier later : List (ι × Moment)}
    (run : Run given s (earlier ++ later) s') :
    ∃ middle, Run given s earlier middle ∧ Run given middle later s' := by
  induction earlier generalizing s with
  | nil => exact ⟨s, .nil, run⟩
  | cons e rest ih =>
    cases run with
    | cons take run =>
      obtain ⟨middle, first, second⟩ := ih run
      exact ⟨middle, .cons take first, second⟩

/-! ## The steps that were taken -/

/-- The event that a moment ends. -/
def ended? : ι × Moment → Option (ι × Event)
  | (i, .ends e) => some (i, e)
  | (_, .begins _) => none

/-- The steps that ended in a history. -/
def ended (history : List (ι × Moment)) : List (ι × Event) := history.filterMap ended?

theorem Run.ensemble (run : Run given s history s') :
    Ensemble.Run given s.ensemble (ended history) s'.ensemble := by
  induction run with
  | nil => exact .nil
  | cons take _ ih =>
    cases take with
    | begins _ _ => exact ih
    | ends _ _ taken => exact .cons taken ih

/-- The steps of one of the activities that ended in a history. -/
def eventsOf (i : ι) (history : List (ι × Moment)) : List Event :=
  Ensemble.eventsOf i (ended history)

theorem Run.performs (run : Run given s history s') (i : ι) :
    (s.ensemble.tasks i).Performs (eventsOf i history) (s'.ensemble.tasks i) :=
  run.ensemble.performs i

/-- The moments of one of the activities. -/
def momentsOf (i : ι) (history : List (ι × Moment)) : List Moment :=
  history.filterMap fun e => if e.1 = i then some e.2 else none

/-- A step that was taken from its beginning to its end. -/
def spell (e : Event) : List Moment := [.begins e.step, .ends e]

/-- The beginning of the step that an activity is busy with. -/
def begun (s : Crowd β) (i : ι) : List Moment :=
  if s.isBusy i then
    match s.ensemble.tasks i with
    | .step step _ => [.begins step]
    | .done _ => []
  else []

theorem Take.begun_of_begins {step : Step} (take : Take given s (i, .begins step) s') :
    s.begun i = [] ∧ s'.begun i = [.begins step] := by
  cases take with
  | begins ready idle =>
    simp only [begun, Function.update_self, ready, idle]
    exact ⟨rfl, rfl⟩

theorem Take.begun_of_ends {e : Event} (take : Take given s (i, .ends e) s') :
    s.begun i = [.begins e.step] ∧ s'.begun i = [] := by
  cases take with
  | ends busy _ taken =>
    cases taken with
    | mk _ ready _ _ =>
      simp only [begun, Function.update_self, ready, busy]
      exact ⟨rfl, rfl⟩

/-- What an activity does not do leaves alone what it has begun. -/
theorem Take.begun_eq {e : ι × Moment} (take : Take given s e s') (other : e.1 ≠ i) :
    s'.begun i = s.begun i := by
  cases take with
  | begins _ _ => simp only [begun, Function.update_of_ne (Ne.symm other)]
  | ends _ _ taken =>
    cases taken with
    | mk _ _ _ _ => simp only [begun, Function.update_of_ne (Ne.symm other)]

theorem eventsOf_begins (i j : ι) (step : Step) (rest : List (ι × Moment)) :
    eventsOf i ((j, .begins step) :: rest) = eventsOf i rest := rfl

theorem eventsOf_ends_self (i : ι) (e : Event) (rest : List (ι × Moment)) :
    eventsOf i ((i, .ends e) :: rest) = e :: eventsOf i rest :=
  Ensemble.eventsOf_cons_self i e (ended rest)

theorem eventsOf_of_ne {e : ι × Moment} (other : e.1 ≠ i) (rest : List (ι × Moment)) :
    eventsOf i (e :: rest) = eventsOf i rest := by
  obtain ⟨j, moment⟩ := e
  cases moment with
  | begins step => rfl
  | ends event => exact Ensemble.eventsOf_cons_ne other event (ended rest)

theorem momentsOf_self (i : ι) (m : Moment) (rest : List (ι × Moment)) :
    momentsOf i ((i, m) :: rest) = m :: momentsOf i rest := by
  simp [momentsOf]

theorem momentsOf_of_ne {e : ι × Moment} (other : e.1 ≠ i) (rest : List (ι × Moment)) :
    momentsOf i (e :: rest) = momentsOf i rest := by
  simp [momentsOf, other]

/-- The moments of an activity are its steps from beginning to end, but for a step that had begun
before and one that has not ended yet. -/
theorem Run.moments (run : Run given s history s') (i : ι) :
    s.begun i ++ momentsOf i history = (eventsOf i history).flatMap spell ++ s'.begun i := by
  induction run with
  | nil => exact List.append_nil _
  | @cons s s' s'' e history take _ ih =>
    by_cases own : e.1 = i
    · obtain ⟨j, moment⟩ := e
      cases own
      cases moment with
      | begins step =>
        obtain ⟨idle, busy⟩ := take.begun_of_begins
        rw [busy] at ih
        rw [idle, momentsOf_self, eventsOf_begins]
        exact ih
      | ends event =>
        obtain ⟨busy, idle⟩ := take.begun_of_ends
        rw [idle, List.nil_append] at ih
        rw [busy, momentsOf_self, eventsOf_ends_self, ih]
        rfl
    · rw [momentsOf_of_ne own, eventsOf_of_ne own, ← take.begun_eq own]
      exact ih

/-! ## Who is inside -/

/-- Everyone makes visits.  Whoever is inside holds the lock, and whoever waits has asked for it
once. -/
structure Orderly (s : Crowd β) (stance : ι → Activity.Stance) : Prop where
  stands : ∀ i, (s.ensemble.tasks i).Stands (stance i)
  holds : ∀ i link, s.ensemble.holder link = some i ↔ (stance i).link? = some link
  asks : ∀ link, ∀ i ∈ s.waiting link,
    s.isBusy i = true ∧ ∃ next, s.ensemble.tasks i = .step (.lock link) next
  nodup : ∀ link, (s.waiting link).Nodup

variable {stance : ι → Activity.Stance} {step : Step} {next : step.Answer → Activity (β i)}

omit [DecidableEq ι] in
theorem orderly_start {tasks : ∀ i, Activity (β i)} (visits : ∀ i, (tasks i).Visits IsVisit) :
    (start tasks).Orderly fun _ => .outside where
  stands i := (visits i).stands
  holds i link := by simp [start, Activity.Stance.link?]
  asks link i member := by cases member
  nodup link := List.nodup_nil

/-! ### Those who wait -/

omit [DecidableEq ι] in
/-- The beginning of a step puts whoever asks for a lock at the end of its queue, and changes no
other queue. -/
theorem waitingAfter_begins (waiting : LinkId → List ι) (i : ι) (step : Step) (link : LinkId) :
    waitingAfter waiting i (.begins step) link = waiting link ∨
      step = .lock link ∧ waitingAfter waiting i (.begins step) link = waiting link ++ [i] := by
  cases step with
  | lock l =>
    by_cases here : link = l
    · subst here
      exact .inr ⟨rfl, Function.update_self ..⟩
    · exact .inl (Function.update_of_ne here _ _)
  | _ => exact .inl rfl

/-- The end of a step takes whoever took it off the queue for its lock, and changes no other
queue. -/
theorem waitingAfter_ends {waiting : LinkId → List ι} (answer : step.Answer)
    (first : isFirst waiting i step = true) (link : LinkId) :
    step ≠ .lock link ∧ waitingAfter waiting i (.ends ⟨step, answer⟩) link = waiting link ∨
      step = .lock link ∧
        waiting link = i :: waitingAfter waiting i (.ends ⟨step, answer⟩) link := by
  cases step with
  | lock l =>
    by_cases here : link = l
    · subst here
      obtain ⟨rest, queue⟩ := List.head?_eq_some_iff.mp (of_decide_eq_true first)
      exact .inr ⟨rfl, by simp [waitingAfter, queue]⟩
    · refine .inl ⟨fun same => here ?_, Function.update_of_ne here _ _⟩
      cases same
      rfl
  | _ => exact .inl ⟨Step.noConfusion, rfl⟩

omit [DecidableEq ι] in
theorem Orderly.step_of_waiting (h : s.Orderly stance) (member : i ∈ s.waiting link)
    (ready : s.ensemble.tasks i = .step step next) : step = .lock link := by
  obtain ⟨-, _, asked⟩ := h.asks link i member
  rw [ready] at asked
  cases asked
  rfl

omit [DecidableEq ι] in
theorem Orderly.not_mem_waiting (h : s.Orderly stance) (idle : s.isBusy i = false)
    (link : LinkId) : i ∉ s.waiting link := by
  intro member
  rw [(h.asks link i member).1] at idle
  cases idle

theorem Orderly.begins (h : s.Orderly stance) (ready : s.ensemble.tasks i = .step step next)
    (idle : s.isBusy i = false) :
    ({ ensemble := s.ensemble, isBusy := Function.update s.isBusy i true
       waiting := waitingAfter s.waiting i (.begins step) } : Crowd β).Orderly stance where
  stands := h.stands
  holds := h.holds
  asks l x member := by
    replace member : x ∈ waitingAfter s.waiting i (.begins step) l := member
    have earlier (there : x ∈ s.waiting l) :
        Function.update s.isBusy i true x = true ∧
          ∃ next, s.ensemble.tasks x = .step (.lock l) next := by
      have other : x ≠ i := fun own => h.not_mem_waiting idle l (own ▸ there)
      obtain ⟨busy, asked⟩ := h.asks l x there
      exact ⟨(Function.update_of_ne other _ _).trans busy, asked⟩
    rcases waitingAfter_begins s.waiting i step l with same | ⟨asked, queue⟩
    · rw [same] at member
      exact earlier member
    · rw [queue] at member
      rcases List.mem_append.mp member with there | last
      · exact earlier there
      · obtain rfl := List.mem_singleton.mp last
        subst asked
        exact ⟨Function.update_self .., next, ready⟩
  nodup l := by
    show (waitingAfter s.waiting i (.begins step) l).Nodup
    rcases waitingAfter_begins s.waiting i step l with same | ⟨-, queue⟩
    · rw [same]
      exact h.nodup l
    · rw [queue]
      exact List.nodup_append.mpr ⟨h.nodup l, List.nodup_cons.mpr ⟨List.not_mem_nil, .nil⟩,
        fun x earlier y own same =>
          h.not_mem_waiting idle l (List.mem_singleton.mp own ▸ same ▸ earlier)⟩

/-- Whoever still waits after a step is not the one who took it, and has waited before. -/
theorem Orderly.waiting_ends {answer : step.Answer} (h : s.Orderly stance)
    (ready : s.ensemble.tasks i = .step step next) (first : isFirst s.waiting i step = true)
    (member : x ∈ waitingAfter s.waiting i (.ends ⟨step, answer⟩) link) :
    x ≠ i ∧ x ∈ s.waiting link := by
  rcases waitingAfter_ends answer first link with ⟨other, same⟩ | ⟨rfl, queue⟩
  · rw [same] at member
    refine ⟨?_, member⟩
    rintro rfl
    exact other (h.step_of_waiting member ready)
  · have nodup := h.nodup link
    rw [queue] at nodup ⊢
    refine ⟨?_, List.mem_cons_of_mem _ member⟩
    rintro rfl
    exact (List.nodup_cons.mp nodup).1 member

theorem Orderly.nodup_ends {answer : step.Answer} (h : s.Orderly stance)
    (first : isFirst s.waiting i step = true) (link : LinkId) :
    (waitingAfter s.waiting i (.ends ⟨step, answer⟩) link).Nodup := by
  have nodup := h.nodup link
  rcases waitingAfter_ends answer first link with ⟨-, same⟩ | ⟨-, queue⟩
  · rw [same]
    exact nodup
  · rw [queue] at nodup
    exact (List.nodup_cons.mp nodup).2

/-! ### Those who are inside -/

omit [DecidableEq ι] in
theorem holderAfter_of_isOutside (outside : step.isOutside = true) (holder : LinkId → Option ι) :
    Ensemble.holderAfter holder i step = some holder := by
  cases step with
  | lock _ | unlock _ => cases outside
  | _ => rfl

omit [DecidableEq ι] in
theorem holderAfter_of_isInside (inside : step.isInside link = true)
    (holder : LinkId → Option ι) : Ensemble.holderAfter holder i step = some holder := by
  cases step with
  | lock _ | unlock _ => cases inside
  | _ => rfl

/-- A stance inside the same link, or outside as before, makes no difference to who holds what. -/
theorem holds_of_link_eq {holder : LinkId → Option ι} {st : Activity.Stance}
    (holds : ∀ j l, holder l = some j ↔ (stance j).link? = some l)
    (same : st.link? = (stance i).link?) (j : ι) (l : LinkId) :
    holder l = some j ↔ (Function.update stance i st j).link? = some l := by
  by_cases own : j = i
  · subst own
    rw [Function.update_self, same]
    exact holds j l
  · rw [Function.update_of_ne own]
    exact holds j l

theorem holds_enter {holder : LinkId → Option ι}
    (holds : ∀ j l, holder l = some j ↔ (stance j).link? = some l)
    (free : (holder link).isNone = true) (was : stance i = .outside) (j : ι) (l : LinkId) :
    Function.update holder link (some i) l = some j ↔
      (Function.update stance i (.inside link false) j).link? = some l := by
  rw [Option.isNone_iff_eq_none] at free
  by_cases own : j = i <;> by_cases here : l = link
  · subst own here
    simp [Activity.Stance.link?]
  · subst own
    have elsewhere : holder l ≠ some j := by
      rw [ne_eq, holds, was]
      simp [Activity.Stance.link?]
    simp [here, elsewhere, Activity.Stance.link?, Ne.symm here]
  · subst here
    have away : (stance j).link? ≠ some l := by
      rw [ne_eq, ← holds, free]
      simp
    simp [own, away, Ne.symm own]
  · simp only [Function.update_of_ne own, Function.update_of_ne here]
    exact holds j l

theorem holds_leave {holder : LinkId → Option ι} {isUsed : Bool}
    (holds : ∀ j l, holder l = some j ↔ (stance j).link? = some l)
    (was : stance i = .inside link isUsed) (j : ι) (l : LinkId) :
    Function.update holder link none l = some j ↔
      (Function.update stance i .outside j).link? = some l := by
  have held : holder link = some i := by rw [holds, was]; rfl
  by_cases own : j = i <;> by_cases here : l = link
  · subst own here
    simp [Activity.Stance.link?]
  · subst own
    have elsewhere : holder l ≠ some j := by
      rw [ne_eq, holds, was]
      simp [Activity.Stance.link?, Ne.symm here]
    simp [here, elsewhere, Activity.Stance.link?]
  · subst here
    have away : (stance j).link? ≠ some l := by
      rw [ne_eq, ← holds, held]
      simp [Ne.symm own]
    simp [own, away]
  · simp only [Function.update_of_ne own, Function.update_of_ne here]
    exact holds j l

/-- What is left of an activity stands to the locks as they were given. -/
theorem Orderly.holds_ends {holder : LinkId → Option ι} (h : s.Orderly stance)
    (answer : step.Answer) (ready : s.ensemble.tasks i = .step step next)
    (free : Ensemble.holderAfter s.ensemble.holder i step = some holder) :
    ∃ st, (next answer).Stands st ∧
      ∀ j l, holder l = some j ↔ (Function.update stance i st j).link? = some l := by
  have own := h.stands i
  rw [ready] at own
  generalize was : stance i = st at own
  cases own with
  | aside outside rest =>
    rw [holderAfter_of_isOutside outside] at free
    cases free
    exact ⟨_, rest answer, holds_of_link_eq h.holds (by rw [was])⟩
  | enter rest =>
    simp only [Ensemble.holderAfter] at free
    split at free
    next open_ =>
      cases free
      exact ⟨_, rest answer, holds_enter h.holds open_ was⟩
    next => cases free
  | use uses rest =>
    rw [holderAfter_of_isInside (Step.isInside_of_uses uses)] at free
    cases free
    exact ⟨_, rest answer, holds_of_link_eq h.holds (by rw [was]; rfl)⟩
  | look inside _ rest =>
    rw [holderAfter_of_isInside inside] at free
    cases free
    exact ⟨_, rest answer, holds_of_link_eq h.holds (by rw [was])⟩
  | leave rest =>
    cases free
    exact ⟨_, rest answer, holds_leave h.holds was⟩

theorem Orderly.take {e : ι × Moment} (h : s.Orderly stance) (take : Take given s e s') :
    ∃ stance', s'.Orderly stance' := by
  cases take with
  | begins ready idle => exact ⟨stance, h.begins ready idle⟩
  | @ends i _ _ busy first taken =>
    cases taken with
    | @mk _ step next answer _ time ready free known =>
      obtain ⟨st, stands, holds⟩ := h.holds_ends answer ready free
      refine ⟨Function.update stance i st, fun j => ?_, holds, fun l x member => ?_,
        fun l => h.nodup_ends first l⟩
      · by_cases own : j = i
        · subst own
          simp only [Function.update_self]
          exact stands
        · simp only [Function.update_of_ne own]
          exact h.stands j
      · obtain ⟨other, earlier⟩ := h.waiting_ends ready first member
        obtain ⟨asking, asked⟩ := h.asks l x earlier
        exact ⟨(Function.update_of_ne other _ _).trans asking,
          asked.imp fun _ same => (Function.update_of_ne other _ _).trans same⟩

theorem Run.orderly (run : Run given s history s') (h : s.Orderly stance) :
    ∃ stance', s'.Orderly stance' := by
  induction run generalizing stance with
  | nil => exact ⟨stance, h⟩
  | cons take _ ih =>
    obtain ⟨_, next⟩ := h.take take
    exact ih next

omit [DecidableEq ι] in
/-- Whoever is about to use a link, or uses it, holds its lock. -/
theorem Orderly.holder_of_uses (h : s.Orderly stance)
    (ready : s.ensemble.tasks i = .step step next) (uses : step.uses link = true) :
    s.ensemble.holder link = some i := by
  have own := h.stands i
  rw [ready] at own
  rw [h.holds i link]
  generalize stance i = st at own
  cases own with
  | aside outside _ =>
    rw [Step.uses_of_isOutside outside] at uses
    cases uses
  | enter _ | leave _ => cases uses
  | use own _ => rw [Step.uses_unique own uses]; rfl
  | look inside silent _ =>
    rw [Step.eq_of_isInside_of_uses inside uses, silent] at uses
    cases uses

/-! ## Who comes first -/

/-- Somebody has the lock of a link and has begun nothing yet, or waits for it, and nobody else in
front of it is a certain other one. -/
inductive Ahead (s : Crowd β) (link : LinkId) (x y : ι) : Prop
  | inside : s.ensemble.holder link = some x → s.isBusy x = false → Ahead s link x y
  | waits {front back : List ι} :
    s.waiting link = front ++ x :: back → y ∉ front → Ahead s link x y

omit [DecidableEq ι] in
/-- Whoever waits is not behind itself. -/
theorem ahead_of_mem (asked : x ∈ s.waiting link) : s.Ahead link x x := by
  obtain ⟨front, back, queue, first⟩ := List.eq_append_cons_of_mem asked
  exact .waits queue first

omit [DecidableEq ι] in
/-- Whoever does not wait yet is not ahead of anybody. -/
theorem Ahead.of_not_mem {z : ι} (ahead : s.Ahead link x z) (outside : y ∉ s.waiting link) :
    s.Ahead link x y := by
  cases ahead with
  | inside held idle => exact .inside held idle
  | waits queue _ =>
    refine .waits queue fun member => outside ?_
    rw [queue]
    exact List.mem_append_left _ member

/-- Somebody who begins nothing else stays ahead. -/
theorem Ahead.take {e : ι × Moment} (ahead : s.Ahead link x y) (h : s.Orderly stance)
    (take : Take given s e s') (still : ∀ step, e ≠ (x, .begins step)) : s'.Ahead link x y := by
  cases take with
  | @begins i step _ _ _ =>
    have other : x ≠ i := fun own => still step (own ▸ rfl)
    cases ahead with
    | inside held idle => exact .inside held ((Function.update_of_ne other _ _).trans idle)
    | @waits front back queue first =>
      rcases waitingAfter_begins s.waiting i step link with same | ⟨-, longer⟩
      · exact .waits (same.trans queue) first
      · rw [queue, List.append_assoc, List.cons_append] at longer
        exact .waits longer first
  | @ends i _ _ busy turn taken =>
    cases taken with
    | @mk _ step _ answer holder time ready free known =>
      cases ahead with
      | inside held idle =>
        have other : x ≠ i := by
          rintro rfl
          rw [idle] at busy
          cases busy
        obtain ⟨st, -, holds⟩ := h.holds_ends answer ready free
        refine .inside ?_ ((Function.update_of_ne other _ _).trans idle)
        show holder link = some x
        rw [holds, Function.update_of_ne other, ← h.holds]
        exact held
      | @waits front back queue first =>
        rcases waitingAfter_ends answer turn link with ⟨-, same⟩ | ⟨rfl, served⟩
        · exact .waits (same.trans queue) first
        · rw [queue] at served
          cases front with
          | nil =>
            cases served
            refine .inside ?_ (Function.update_self ..)
            simp only [Ensemble.holderAfter] at free
            split at free
            next =>
              cases free
              exact Function.update_self ..
            next => cases free
          | cons _ front =>
            have shorter := (List.cons_eq_cons.mp served).2
            exact .waits shorter.symm fun member => first (List.mem_cons_of_mem _ member)

/-- Nobody gets a lock while somebody else is ahead. -/
theorem Ahead.step_ne (ahead : s.Ahead link x y) (apart : x ≠ y) {event : Event}
    (take : Take given s (y, .ends event) s') : event.step ≠ .lock link := by
  intro served
  cases take with
  | ends _ turn taken =>
    cases taken with
    | @mk _ step _ answer holder time _ free _ =>
      obtain rfl : step = .lock link := served
      cases ahead with
      | inside held _ => simp [Ensemble.holderAfter, held] at free
      | @waits front back queue first =>
        have foremost : (s.waiting link).head? = some y := of_decide_eq_true turn
        rw [queue] at foremost
        cases front with
        | nil => exact apart (Option.some.inj foremost)
        | cons z front =>
          obtain rfl : z = y := Option.some.inj foremost
          exact first List.mem_cons_self

/-- As long as somebody who is ahead begins nothing else, the other one does not get the lock. -/
theorem Run.not_served (run : Run given s history s') (h : s.Orderly stance)
    (ahead : s.Ahead link x y) (apart : x ≠ y)
    (still : ∀ e ∈ history, ∀ step, e ≠ (x, .begins step)) :
    ∀ e ∈ eventsOf y history, e.step ≠ .lock link := by
  induction run generalizing stance with
  | nil => exact fun e member => absurd member List.not_mem_nil
  | @cons s s' s'' e history take _ ih =>
    obtain ⟨_, next⟩ := h.take take
    have later := ih next (ahead.take h take (still e List.mem_cons_self))
      fun e member => still e (List.mem_cons_of_mem _ member)
    by_cases own : e.1 = y
    · obtain ⟨j, moment⟩ := e
      cases own
      cases moment with
      | begins step => exact later
      | ends event =>
        rw [eventsOf_ends_self]
        exact List.forall_mem_cons.mpr ⟨ahead.step_ne apart take, later⟩
    · rw [eventsOf_of_ne own]
      exact later

/-- Whoever waits goes on waiting while others do something. -/
theorem Take.mem_waiting {e : ι × Moment} (take : Take given s e s') (other : e.1 ≠ y)
    (waits : y ∈ s.waiting link) : y ∈ s'.waiting link := by
  cases take with
  | @begins i step _ _ _ =>
    show y ∈ waitingAfter s.waiting i (.begins step) link
    rcases waitingAfter_begins s.waiting i step link with same | ⟨-, longer⟩
    · rw [same]
      exact waits
    · rw [longer]
      exact List.mem_append_left _ waits
  | @ends i event _ _ turn _ =>
    obtain ⟨step, answer⟩ := event
    show y ∈ waitingAfter s.waiting i (.ends ⟨step, answer⟩) link
    rcases waitingAfter_ends answer turn link with ⟨-, same⟩ | ⟨-, served⟩
    · rw [same]
      exact waits
    · rw [served] at waits
      exact (List.mem_cons.mp waits).resolve_left (Ne.symm other)

/-- Whoever waits takes the lock first of all, and takes it once as long as somebody else who has
asked for it begins nothing else. -/
theorem Run.served_once (run : Run given s history s') (h : s.Orderly stance)
    (stays : s.Ahead link x x) (waits : y ∈ s.waiting link) (apart : x ≠ y)
    (still : ∀ e ∈ history, ∀ step, e ≠ (x, .begins step)) {e : Event} {rest : List Event}
    (did : eventsOf y history = e :: rest) : ∀ e ∈ rest, e.step ≠ .lock link := by
  induction run generalizing stance with
  | nil => cases did
  | @cons s s' s'' first history take run ih =>
    obtain ⟨_, next⟩ := h.take take
    have stays' := stays.take h take (still first List.mem_cons_self)
    have still' : ∀ e ∈ history, ∀ step, e ≠ (x, .begins step) :=
      fun e member => still e (List.mem_cons_of_mem _ member)
    by_cases own : first.1 = y
    · obtain ⟨j, moment⟩ := first
      cases own
      cases take with
      | begins _ idle => exact absurd waits (h.not_mem_waiting idle link)
      | ends _ turn taken =>
        -- It is off the queue now, so whoever stays is ahead of it from here on.
        rw [eventsOf_ends_self] at did
        obtain ⟨-, rfl⟩ := List.cons_eq_cons.mp did
        cases taken with
        | mk _ ready _ _ =>
          exact run.not_served next
            (stays'.of_not_mem fun again => (h.waiting_ends ready turn again).1 rfl) apart still'
    · rw [eventsOf_of_ne own] at did
      exact ih next stays' (take.mem_waiting own waits) still' did

/-! ## Uses in between -/

theorem filter_spell (events : List Event) :
    (events.flatMap spell).filter (Moment.uses link) =
      (events.filter fun e => e.step.uses link).flatMap spell := by
  induction events with
  | nil => rfl
  | cons e rest ih =>
    rw [List.flatMap_cons, List.filter_append, ih]
    cases uses : e.step.uses link with
    | false => simp [spell, Moment.uses, uses]
    | true => simp [spell, Moment.uses, uses]

/-- While somebody waits for a link, another one uses it at most once. -/
theorem Run.uses_while_waiting (run : Run given s history s') (h : s.Orderly stance)
    (asked : x ∈ s.waiting link) (apart : x ≠ y)
    (still : ∀ e ∈ history, ∀ step, e ≠ (x, .begins step)) :
    ((eventsOf y history).filter fun e => e.step.uses link) = [] ∨
      ∃ e, ((eventsOf y history).filter fun e => e.step.uses link) = [e] := by
  have performs := run.performs y
  have stands := h.stands y
  by_cases waits : y ∈ s.waiting link
  · -- It takes the lock, and what it does then it does without taking it again.
    obtain ⟨-, next, ready⟩ := h.asks link y waits
    rw [ready] at performs stands
    cases did : eventsOf y history with
    | nil => exact .inl rfl
    | cons e rest =>
      rw [did] at performs
      have away := run.served_once h (ahead_of_mem asked) waits apart still did
      cases performs with
      | @cons _ _ answer _ _ later =>
        generalize stance y = st at stands
        cases stands with
        | aside outside _ => cases outside
        | enter inside =>
          exact ((inside answer).uses_cases later away).imp id And.right
        | use uses _ => cases uses
        | look inside _ _ => cases inside
  · have away := run.not_served h ((ahead_of_mem asked).of_not_mem waits) apart still
    exact (stands.uses_cases performs away).imp id And.right

/-- From the time at which somebody asks for a lock until it holds the lock, another one uses the
link at most once.  Of this use the beginning may lie before. -/
theorem Run.uses_between (run : Run given s history s') (h : s.Orderly stance)
    (asked : x ∈ s.waiting link) (apart : x ≠ y)
    (still : ∀ e ∈ history, ∀ step, e ≠ (x, .begins step))
    (served : s'.ensemble.holder link = some x) :
    ∃ e, (momentsOf y history).filter (Moment.uses link) <:+ spell e := by
  have whole := congrArg (List.filter (Moment.uses link)) (run.moments y)
  have idle : (s'.begun y).filter (Moment.uses link) = [] := by
    obtain ⟨_, final⟩ := run.orderly h
    unfold begun
    split
    next =>
      split
      next step next ready =>
        cases uses : step.uses link with
        | false => simp [Moment.uses, uses]
        | true =>
          have held := final.holder_of_uses ready uses
          rw [served] at held
          exact absurd (Option.some.inj held) apart
      next => rfl
    next => rfl
  rw [List.filter_append, List.filter_append, filter_spell, idle, List.append_nil] at whole
  rcases run.uses_while_waiting h asked apart still with none | ⟨e, one⟩
  · rw [none, List.flatMap_nil] at whole
    refine ⟨⟨.now, (0 : Nat)⟩, ?_⟩
    rw [(List.append_eq_nil_iff.mp whole).2]
    exact List.nil_suffix
  · rw [one, List.flatMap_singleton] at whole
    exact ⟨e, _, whole⟩

/-! ## Schedules -/

/-- Lets activities go on as scheduled, each from the beginning of a step to its end or from there
to the beginning of the next one, with one answer to each step.  Whoever has to wait is passed
over. -/
def play (answers : (step : Step) → step.Answer) :
    List ι → Crowd β → List (ι × Moment) × Crowd β
  | [], s => ([], s)
  | i :: rest, s =>
    match s.ensemble.tasks i with
    | .done _ => play answers rest s
    | .step step next =>
      if s.isBusy i then
        if isFirst s.waiting i step then
          match Ensemble.holderAfter s.ensemble.holder i step with
          | none => play answers rest s
          | some holder =>
            let played := play answers rest
              { ensemble :=
                  { tasks := Function.update s.ensemble.tasks i (next (answers step)), holder
                    store := Ensemble.storeAfter s.ensemble.store 0 step }
                isBusy := Function.update s.isBusy i false
                waiting := waitingAfter s.waiting i (.ends ⟨step, answers step⟩) }
            ((i, .ends ⟨step, answers step⟩) :: played.1, played.2)
        else play answers rest s
      else
        let played := play answers rest
          { ensemble := s.ensemble, isBusy := Function.update s.isBusy i true
            waiting := waitingAfter s.waiting i (.begins step) }
        ((i, .begins step) :: played.1, played.2)

theorem run_play {answers : (step : Step) → step.Answer}
    (known : ∀ step, given ⟨step, answers step⟩) (schedule : List ι) (s : Crowd β) :
    Run given s (play answers schedule s).1 (play answers schedule s).2 := by
  induction schedule generalizing s with
  | nil => exact .nil
  | cons i rest ih =>
    unfold play
    split
    next => exact ih s
    next step next ready =>
      split
      next busy =>
        split
        next first =>
          split
          next => exact ih s
          next holder free => exact .cons (.ends busy first (.mk 0 ready free (known step))) (ih _)
        next => exact ih s
      next idle => exact .cons (.begins ready (eq_false_of_ne_true idle)) (ih _)

end Crowd

end Fieldbus
