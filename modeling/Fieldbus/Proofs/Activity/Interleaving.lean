import Mathlib.Data.List.Basic
import Mathlib.Logic.Function.Basic
import Fieldbus.Proofs.Activity.Trace
import Fieldbus.Proofs.Store.View

/-!
# Activities side by side

An ensemble is a family of activities that take their steps in turn, in any order.  A lock is taken
only while nobody holds it, and what is published goes to the store.  Every other answer is left
to the environment, up to what is known of it.

`Ensemble.Run` gives the history of a run.  What one activity did is its own part of the history
(`Ensemble.Run.performs`), so rules that an activity keeps on its own are kept in company
(`Ensemble.Run.may`).
-/

namespace Fieldbus

variable {ι : Type} [DecidableEq ι] {β : ι → Type}

/-! ## Ensembles -/

/-- Activities with the locks that they hold and the store that they share. -/
structure Ensemble (β : ι → Type) where
  tasks : ∀ i, Activity (β i)
  holder : LinkId → Option ι := fun _ => none
  store : Store := {}

namespace Ensemble

/-- The holders of locks after a step, unless it has to wait. -/
def holderAfter (holder : LinkId → Option ι) (i : ι) : Step → Option (LinkId → Option ι)
  | .lock link =>
    if (holder link).isNone then some (Function.update holder link (some i)) else none
  | .unlock link => some (Function.update holder link none)
  | _ => some holder

def storeAfter (store : Store) (time : Int) : Step → Store
  | .publish writes => store.writeAll writes time
  | .forget channel => store.removeChannel channel
  | _ => store

/-- One of the activities takes one step. -/
inductive Take (given : Event → Prop) : Ensemble β → ι × Event → Ensemble β → Prop
  /-- The step is next, its lock is free, and its answer is one that is given. -/
  | mk {s : Ensemble β} {i : ι} {step : Step} {next : step.Answer → Activity (β i)}
      {answer : step.Answer} {holder : LinkId → Option ι} (time : Int) :
      s.tasks i = .step step next →
      holderAfter s.holder i step = some holder →
      given ⟨step, answer⟩ →
      Take given s (i, ⟨step, answer⟩)
        { tasks := Function.update s.tasks i (next answer), holder
          store := storeAfter s.store time step }

/-- Steps one after another, with the history that they make. -/
inductive Run (given : Event → Prop) : Ensemble β → List (ι × Event) → Ensemble β → Prop
  /-- No step. -/
  | nil {s : Ensemble β} : Run given s [] s
  /-- One step, and the rest. -/
  | cons {s s' s'' : Ensemble β} {e : ι × Event} {history : List (ι × Event)} :
      Take given s e s' → Run given s' history s'' → Run given s (e :: history) s''

variable {given : Event → Prop} {s s' : Ensemble β} {history : List (ι × Event)}

theorem Run.known (run : Run given s history s') : ∀ e ∈ history, given e.2 := by
  induction run with
  | nil => simp
  | cons take _ ih =>
    cases take with
    | mk _ _ _ known =>
      intro e he
      rcases List.mem_cons.mp he with rfl | he
      · exact known
      · exact ih e he

/-! ## One activity -/

/-- What one of the activities did. -/
def eventsOf (i : ι) (history : List (ι × Event)) : List Event :=
  history.filterMap fun e => if e.1 = i then some e.2 else none

@[simp] theorem eventsOf_append (i : ι) (earlier later : List (ι × Event)) :
    eventsOf i (earlier ++ later) = eventsOf i earlier ++ eventsOf i later :=
  List.filterMap_append

@[simp] theorem eventsOf_cons_self (i : ι) (e : Event) (rest : List (ι × Event)) :
    eventsOf i ((i, e) :: rest) = e :: eventsOf i rest := by
  simp [eventsOf]

theorem eventsOf_cons_ne {i j : ι} (h : j ≠ i) (e : Event) (rest : List (ι × Event)) :
    eventsOf i ((j, e) :: rest) = eventsOf i rest := by
  simp [eventsOf, h]

@[simp] theorem mem_eventsOf {i : ι} {e : Event} : e ∈ eventsOf i history ↔ (i, e) ∈ history := by
  simp [eventsOf]

/-- An event of one activity splits the history where it splits the activity's own part. -/
theorem split_of_eventsOf {i : ι} {e : Event} {earlier later : List Event}
    (h : eventsOf i history = earlier ++ e :: later) :
    ∃ before after, history = before ++ (i, e) :: after ∧ eventsOf i before = earlier ∧
      eventsOf i after = later := by
  obtain ⟨before, rest, rfl, first, second⟩ := List.filterMap_eq_append_iff.mp h
  obtain ⟨others, ⟨j, x⟩, after, rfl, foreign, own, last⟩ := List.filterMap_eq_cons_iff.mp second
  have same : j = i ∧ x = e := by
    by_cases hj : j = i
    · simpa [hj] using own
    · simp [hj] at own
  obtain ⟨rfl, rfl⟩ := same
  refine ⟨before ++ others, after, by simp, ?_, last⟩
  have none : eventsOf j others = [] := List.filterMap_eq_nil_iff.mpr foreign
  rw [eventsOf_append, none, List.append_nil]
  exact first

theorem Run.performs (run : Run given s history s') (i : ι) :
    (s.tasks i).Performs (eventsOf i history) (s'.tasks i) := by
  induction run with
  | nil => exact .nil
  | @cons s _ _ _ _ take _ ih =>
    cases take with
    | @mk j step next answer _ _ ready _ _ =>
      by_cases own : j = i
      · subst own
        rw [eventsOf_cons_self, ready]
        simp only [Function.update_self] at ih
        exact .cons ih
      · rw [eventsOf_cons_ne own]
        simp only [Function.update_of_ne (Ne.symm own)] at ih
        exact ih

/-- What an activity keeps on its own, it keeps in company. -/
theorem Run.may {may : List Event → Event → Prop} {i : ι} {post : List Event → β i → Prop}
    {earlier later : List (ι × Event)} {e : Event}
    (run : Run given s (earlier ++ (i, e) :: later) s')
    (ensured : (s.tasks i).Ensures ⟨given, may⟩ post []) : may (eventsOf i earlier) e := by
  have own := run.performs i
  rw [eventsOf_append, eventsOf_cons_self] at own
  have allowed := own.may ensured fun x hx => by
    rw [← eventsOf_cons_self, ← eventsOf_append] at hx
    exact run.known _ (mem_eventsOf.mp hx)
  simpa using allowed

/-- What one activity only does is found in its own part of the history. -/
theorem flatMap_of_party {σ : Type} {f : Event → List σ} {i : ι}
    (own : ∀ e ∈ history, f e.2 ≠ [] → e.1 = i) :
    (history.map Prod.snd).flatMap f = (eventsOf i history).flatMap f := by
  induction history with
  | nil => rfl
  | cons first rest ih =>
    obtain ⟨j, e⟩ := first
    have rest := ih fun x hx => own x (List.mem_cons_of_mem _ hx)
    rw [List.map_cons, List.flatMap_cons, rest]
    by_cases same : j = i
    · rw [same, eventsOf_cons_self, List.flatMap_cons]
    · have silent : f e = [] := by
        by_contra given
        exact same (own _ List.mem_cons_self given)
      rw [eventsOf_cons_ne same, silent, List.nil_append]

theorem filterMap_of_party {σ : Type} {f : Event → Option σ} {i : ι}
    (own : ∀ e ∈ history, f e.2 ≠ none → e.1 = i) :
    (history.map Prod.snd).filterMap f = (eventsOf i history).filterMap f := by
  rw [List.filterMap_eq_flatMap_toList, List.filterMap_eq_flatMap_toList]
  refine flatMap_of_party fun e he given => own e he fun none => given ?_
  rw [none]
  rfl

/-- What two activities only do, the second one after the first one is through, is what the first
one did and then what the second one did. -/
theorem filterMap_of_parties {σ : Type} {f : Event → Option σ} {i j : ι} (apart : i ≠ j)
    (own : ∀ e ∈ history, f e.2 ≠ none → e.1 = i ∨ e.1 = j)
    (ordered : ∀ before e after, history = before ++ (j, e) :: after → f e ≠ none →
      (eventsOf i after).filterMap f = []) :
    (history.map Prod.snd).filterMap f =
      (eventsOf i history).filterMap f ++ (eventsOf j history).filterMap f := by
  induction history with
  | nil => rfl
  | cons first rest ih =>
    obtain ⟨k, e⟩ := first
    have later := ih (fun x hx => own x (List.mem_cons_of_mem _ hx))
      fun before x after split => ordered ((k, e) :: before) x after (by rw [split]; rfl)
    rw [List.map_cons]
    cases given : f e with
    | none =>
      have silent (l : ι) :
          (eventsOf l ((k, e) :: rest)).filterMap f = (eventsOf l rest).filterMap f := by
        by_cases same : k = l
        · rw [same, eventsOf_cons_self, List.filterMap_cons_none given]
        · rw [eventsOf_cons_ne same]
      rw [List.filterMap_cons_none given, later, silent, silent]
    | some y =>
      rw [List.filterMap_cons_some given, later]
      rcases own _ List.mem_cons_self (by simp [given]) with rfl | rfl
      · rw [eventsOf_cons_self, eventsOf_cons_ne apart, List.filterMap_cons_some given,
          List.cons_append]
      · have through := ordered [] e rest rfl (by simp [given])
        rw [eventsOf_cons_self, eventsOf_cons_ne (Ne.symm apart), List.filterMap_cons_some given,
          through, List.nil_append, List.nil_append]

/-- What only one activity changes is what its own part of the history makes of it. -/
theorem foldl_of_party {σ : Type} {f : σ → Event → σ} {i : ι}
    (others : ∀ e ∈ history, e.1 ≠ i → ∀ a, f a e.2 = a) (a : σ) :
    (history.map Prod.snd).foldl f a = (eventsOf i history).foldl f a := by
  induction history generalizing a with
  | nil => rfl
  | cons first rest ih =>
    obtain ⟨j, e⟩ := first
    have rest := ih fun x hx => others x (List.mem_cons_of_mem _ hx)
    rw [List.map_cons, List.foldl_cons, rest]
    by_cases same : j = i
    · rw [same, eventsOf_cons_self, List.foldl_cons]
    · rw [eventsOf_cons_ne same, others _ List.mem_cons_self same]

/-! ## The store -/

/-- The value that an event leaves at a key, if it writes there. -/
def valueSet? (key : StoreKey) (e : Event) : Option Binary64 :=
  match e.step with
  | .publish writes => StoreWrite.valueOf? writes key
  | _ => none

theorem get?_storeAfter {step : Step} (answer : step.Answer) (store : Store) (time : Int)
    (key : StoreKey) (keeps : ∀ channel, step ≠ .forget channel) :
    ((storeAfter store time step).get? key).map Sample.value =
      (valueSet? key ⟨step, answer⟩).or ((store.get? key).map Sample.value) := by
  cases step with
  | publish writes =>
    simp only [storeAfter, valueSet?, Store.get?_writeAll]
    cases StoreWrite.valueOf? writes key <;> rfl
  | forget channel => exact absurd rfl (keeps channel)
  | _ => rfl

/-- As long as nothing is forgotten, a key shows the last value that was set. -/
theorem Run.get?_store (run : Run given s history s') (key : StoreKey)
    (keeps : ∀ e ∈ history, ∀ channel, e.2.step ≠ .forget channel) :
    (s'.store.get? key).map Sample.value =
      (lastValue? (fun e => valueSet? key e.2) history).or ((s.store.get? key).map Sample.value) := by
  induction run with
  | nil => rfl
  | cons take _ ih =>
    cases take with
    | mk time _ _ _ =>
      have rest := ih fun e he => keeps e (List.mem_cons_of_mem _ he)
      have first := keeps _ List.mem_cons_self
      rw [rest, get?_storeAfter _ _ time key first, lastValue?_cons, Option.or_assoc]

/-- Whether a step changes what the store holds at a key. -/
def touches (key : StoreKey) : Step → Bool
  | .publish writes => (StoreWrite.valueOf? writes key).isSome
  | .forget channel => key.channel = channel
  | _ => false

theorem get?_storeAfter_of_touches {step : Step} {key : StoreKey} (apart : touches key step = false)
    (store : Store) (time : Int) : (storeAfter store time step).get? key = store.get? key := by
  cases step with
  | publish writes =>
    rw [touches, Option.isSome_eq_false_iff, Option.isNone_iff_eq_none] at apart
    simp [storeAfter, Store.get?_writeAll, apart]
  | forget channel =>
    have other : key.channel ≠ channel := by simpa [touches] using apart
    rw [storeAfter, Store.get?_removeChannel, if_neg other]
  | _ => rfl

/-- A key that nobody touches keeps its sample. -/
theorem Run.get?_of_touches (run : Run given s history s') {key : StoreKey}
    (apart : ∀ e ∈ history, touches key e.2.step = false) :
    s'.store.get? key = s.store.get? key := by
  induction run with
  | nil => rfl
  | cons take _ ih =>
    cases take with
    | mk time _ _ _ =>
      rw [ih fun e he => apart e (List.mem_cons_of_mem _ he)]
      exact get?_storeAfter_of_touches (apart _ List.mem_cons_self) _ time

theorem Run.append {s'' : Ensemble β} {later : List (ι × Event)} (run : Run given s history s')
    (rest : Run given s' later s'') : Run given s (history ++ later) s'' := by
  induction run with
  | nil => exact rest
  | cons take _ ih => exact .cons take (ih rest)

/-- An activity that is through takes no more steps. -/
theorem Run.eventsOf_of_done (run : Run given s history s') {i : ι} {v : β i}
    (through : s.tasks i = .done v) : eventsOf i history = [] ∧ s'.tasks i = .done v := by
  have performs := run.performs i
  rw [through] at performs
  generalize eventsOf i history = events, s'.tasks i = b at performs
  cases performs with
  | nil => exact ⟨rfl, rfl⟩

/-- A run is cut where its history is cut. -/
theorem Run.of_append {earlier later : List (ι × Event)}
    (run : Run given s (earlier ++ later) s') :
    ∃ middle, Run given s earlier middle ∧ Run given middle later s' := by
  induction earlier generalizing s with
  | nil => exact ⟨s, .nil, run⟩
  | cons e rest ih =>
    cases run with
    | cons take run =>
      obtain ⟨middle, first, second⟩ := ih run
      exact ⟨middle, .cons take first, second⟩

/-- Whatever is stored of a channel that was forgotten came later. -/
theorem Run.of_forget {i : ι} {channel : UInt16} {earlier later : List (ι × Event)}
    (run : Run given s (earlier ++ (i, ⟨.forget channel, ()⟩) :: later) s') :
    ∃ middle, (∀ key, key.channel = channel → middle.store.get? key = none) ∧
      Run given middle later s' := by
  obtain ⟨middle, -, second⟩ := run.of_append
  cases second with
  | cons take last =>
    cases take with
    | mk time _ _ _ =>
      refine ⟨_, fun key own => ?_, last⟩
      rw [storeAfter, Store.get?_removeChannel, if_pos own]

/-- What is stored was stored before or published, and not forgotten since. -/
theorem Run.stored_cases (run : Run given s history s') {key : StoreKey}
    (there : (s'.store.get? key).isSome = true) :
    (s.store.get? key).isSome = true ∧ (∀ e ∈ history, e.2.step ≠ .forget key.channel) ∨
      ∃ earlier i writes later, history = earlier ++ (i, ⟨.publish writes, ()⟩) :: later ∧
        touches key (.publish writes) = true ∧ ∀ e ∈ later, e.2.step ≠ .forget key.channel := by
  induction run with
  | nil => exact .inl ⟨there, fun _ member => absurd member List.not_mem_nil⟩
  | cons take _ ih =>
    rcases ih there with ⟨stored, quiet⟩ | ⟨earlier, i, writes, later, rfl, published⟩
    · cases take with
      | @mk i step _ answer _ time _ _ _ =>
        cases touched : touches key step with
        | false =>
          rw [get?_storeAfter_of_touches touched] at stored
          refine .inl ⟨stored, fun e he => ?_⟩
          rcases List.mem_cons.mp he with rfl | he
          · rintro rfl
            simp [touches] at touched
          · exact quiet e he
        | true =>
          cases step with
          | publish writes => exact .inr ⟨[], i, writes, _, rfl, touched, quiet⟩
          | forget channel =>
            have own : key.channel = channel := by simpa [touches] using touched
            rw [storeAfter, Store.get?_removeChannel, if_pos own] at stored
            cases stored
          | _ => cases touched
    · exact .inr ⟨_ :: earlier, i, writes, later, rfl, published⟩

/-- What the store holds after a publication, at each key that nobody else touches. -/
theorem Run.get?_publish {i : ι} {writes : List StoreWrite} {earlier later : List (ι × Event)}
    (run : Run given s (earlier ++ (i, ⟨.publish writes, ()⟩) :: later) s') :
    ∃ time, ∀ key, (∀ e ∈ earlier ++ later, touches key e.2.step = false) →
      s'.store.get? key =
        ((StoreWrite.valueOf? writes key).map (⟨·, time⟩)).or (s.store.get? key) := by
  obtain ⟨middle, first, second⟩ := run.of_append
  cases second with
  | cons take last =>
    cases take with
    | mk time _ _ _ =>
      refine ⟨time, fun key apart => ?_⟩
      rw [last.get?_of_touches fun e he => apart e (List.mem_append_right _ he)]
      simp only [storeAfter, Store.get?_writeAll]
      rw [first.get?_of_touches fun e he => apart e (List.mem_append_left _ he)]

/-! ## Schedules -/

/-- Takes turns as scheduled, with one answer to each step.  Whoever cannot take a turn is passed
over. -/
def play (answers : (step : Step) → step.Answer) :
    List ι → Ensemble β → List (ι × Event) × Ensemble β
  | [], s => ([], s)
  | i :: rest, s =>
    match s.tasks i with
    | .done _ => play answers rest s
    | .step step next =>
      match holderAfter s.holder i step with
      | none => play answers rest s
      | some holder =>
        let played := play answers rest
          { tasks := Function.update s.tasks i (next (answers step)), holder
            store := storeAfter s.store 0 step }
        ((i, ⟨step, answers step⟩) :: played.1, played.2)

theorem run_play {answers : (step : Step) → step.Answer}
    (known : ∀ step, given ⟨step, answers step⟩) (schedule : List ι) (s : Ensemble β) :
    Run given s (play answers schedule s).1 (play answers schedule s).2 := by
  induction schedule generalizing s with
  | nil => exact .nil
  | cons i rest ih =>
    unfold play
    split
    next => exact ih s
    next step next ready =>
      split
      next => exact ih s
      next holder free => exact .cons (.mk 0 ready free (known step)) (ih _)

end Ensemble

end Fieldbus
