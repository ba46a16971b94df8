import Fieldbus.Proofs.Engine.Estate
import Fieldbus.Rehearsal.World

/-!
# The ledger of a world

An activity that runs in a world takes steps and gets answers there (`World.history`).  What the
ledger of these steps says is what the world holds: the same channels take commands, and a link
that is started is one that the world has not had before (`World.Mirrors.run`).

So reloads in a world are reloads in the sense of `Reloaded`, whatever the other side of the links
does.  The log policies that they leave are those of the estate (`World.policies_of_reloads`).
-/

namespace Fieldbus

namespace World

variable {L σ α : Type}

/-- The ledger says what the world holds. -/
structure Mirrors (w : World L σ) (l : Ledger) : Prop where
  registry : l.registry = w.registry
  /-- The links of a world are numbered in the order in which they were started. -/
  numbered : ∀ link, (w.links.get? link).isSome = true → link < w.links.size
  started : ∀ link ∈ l.started, link < w.links.size
  distinct : l.started.Nodup

variable {w w' : World L σ} {l l' : Ledger} {link : LinkId}

theorem Mirrors.of_eq (h : Mirrors w l) (registry : l'.registry = w'.registry)
    (links : w'.links = w.links) (started : l'.started = l.started) : Mirrors w' l' := by
  obtain ⟨-, numbered, below, distinct⟩ := h
  rw [← links] at numbered below
  rw [← started] at below distinct
  exact ⟨registry, numbered, below, distinct⟩

/-- After reloads in a world, the channels that take commands there are the running ones. -/
theorem Mirrors.registry_eq (h : Mirrors w l) {roster : Roster} (reloaded : Reloaded l roster)
    (id : UInt16) :
    w.registry.get? id = (roster.get? id).map fun r => ⟨r.channel, r.link⟩ := by
  rw [← h.registry]
  exact reloaded.inStep.1.registry id

/-- A link that is changed keeps its number. -/
theorem Mirrors.relink (h : Mirrors w l) (there : (w.links.get? link).isSome = true) {x : L}
    (registry : w'.registry = w.registry) (links : w'.links = w.links.insert link x) :
    Mirrors w' l := by
  have size : w'.links.size = w.links.size := by
    rw [links, Table.size_insert, if_pos there, Nat.add_zero]
  constructor
  case registry => rw [registry, h.registry]
  case numbered =>
    intro other found
    rw [size]
    rw [links, Table.get?_insert] at found
    split at found
    next same => exact same ▸ h.numbered link there
    next => exact h.numbered other found
  case started =>
    rw [size]
    exact h.started
  case distinct => exact h.distinct

/-- The link that a world starts is a new one. -/
theorem Mirrors.start (h : Mirrors w l) {x : L} (registry : l'.registry = w'.registry)
    (links : w'.links = w.links.insert w.links.size x)
    (started : l'.started = l.started ++ [w.links.size]) : Mirrors w' l' := by
  have absent : (w.links.get? w.links.size).isSome = false := by
    refine Bool.eq_false_iff.mpr fun there => ?_
    exact Nat.lt_irrefl _ (h.numbered _ there)
  have size : w'.links.size = w.links.size + 1 := by
    rw [links, Table.size_insert, absent]
    rfl
  constructor
  case registry => exact registry
  case numbered =>
    intro other found
    rw [links, Table.get?_insert] at found
    rw [size]
    split at found
    next same => exact same ▸ Nat.lt_succ_self _
    next => exact Nat.lt_succ_of_lt (h.numbered other found)
  case started =>
    intro other member
    rw [size]
    rw [started] at member
    rcases List.mem_append.mp member with member | member
    · exact Nat.lt_succ_of_lt (h.started other member)
    · rw [List.mem_singleton.mp member]
      exact Nat.lt_succ_self _
  case distinct =>
    rw [started]
    refine List.nodup_append.mpr ⟨h.distinct, List.pairwise_singleton _ _, ?_⟩
    intro other member new hn same
    rw [List.mem_singleton.mp hn] at same
    exact Nat.lt_irrefl _ (same ▸ h.started other member)

theorem Mirrors.sleepUntil (h : Mirrors w l) (wake : Nanos) : Mirrors (w.sleepUntil wake) l := by
  unfold World.sleepUntil
  split
  · exact h.of_eq h.registry rfl rfl
  · exact h

theorem Mirrors.pauseUntil (h : Mirrors w l) (wake : Nanos) :
    Mirrors (w.pauseUntil link wake).2 l := by
  simp only [World.pauseUntil]
  split
  · exact h
  · split
    · exact h
    · split
      · exact h.of_eq h.registry rfl rfl
      · exact h.sleepUntil wake

theorem Mirrors.exchange {β : Type} (h : Mirrors w l) (f : L → σ → Nanos → Exchanged L σ β) :
    Mirrors (w.exchange link f).2 l := by
  unfold World.exchange
  cases found : w.links.get? link with
  | none => exact h
  | some x =>
    have there : (w.links.get? link).isSome = true := by
      rw [found]
      rfl
    dsimp only
    split
    · exact h.relink there rfl rfl
    · exact h.relink there rfl rfl

variable [Transport L σ]

theorem Mirrors.perform (h : Mirrors w l) (s : Step) :
    Mirrors (perform s w).2 (l.after ⟨s, (World.perform s w).1⟩) := by
  cases s with
  | connect _ => exact h.exchange _
  | read _ _ => exact h.exchange _
  | write _ _ _ => exact h.exchange _
  | close link =>
    change Mirrors { w with links := w.links.modify link Transport.close } l
    cases found : w.links.get? link with
    | none => exact h.of_eq h.registry (by simp [Table.modify, found]) rfl
    | some x =>
      have there : (w.links.get? link).isSome = true := by
        rw [found]
        rfl
      have links : w.links.modify link Transport.close =
          w.links.insert link (Transport.close x) := by simp [Table.modify, found]
      exact h.relink there rfl links
  | sleep wake => exact h.sleepUntil wake
  | pause _ wake => exact h.pauseUntil wake
  | start _ _ _ => exact h.start h.registry rfl rfl
  | register handle =>
    exact h.of_eq (congrArg (Table.insert · handle.channel.id handle) h.registry) rfl rfl
  | unregister channel => exact h.of_eq (congrArg (Table.erase · channel) h.registry) rfl rfl
  | _ => exact h.of_eq h.registry rfl rfl

/-- The steps that an activity takes in a world, with the answers that it gets. -/
def history : Activity α → World L σ → List Event
  | .done _, _ => []
  | .step s next, w =>
    ⟨s, (World.perform s w).1⟩ :: history (next (World.perform s w).1) (World.perform s w).2

theorem performs_history (a : Activity α) (w : World L σ) :
    a.Performs (history a w) (.done (w.run a).1) := by
  induction a generalizing w with
  | done a => exact .nil
  | step s next ih => exact .cons (ih _ _)

theorem Mirrors.run (h : Mirrors w l) (a : Activity α) :
    Mirrors (w.run a).2 (l.afterAll (history a w)) := by
  induction a generalizing w l with
  | done a => exact h
  | step s next ih => exact ih _ (h.perform s)

/-! ## Reloads -/

/-- A reload in a world starts new links only. -/
theorem Mirrors.reloaded (h : Mirrors w l) {roster : Roster} (before : Reloaded l roster)
    {channels : List Channel} (distinct : (channels.map Channel.id).Nodup) :
    Reloaded (l.afterAll (history (roster.reload channels) w))
        (w.run (roster.reload channels)).1.1 ∧
      Mirrors (w.run (roster.reload channels)).2
        (l.afterAll (history (roster.reload channels) w)) := by
  have after := h.run (roster.reload channels)
  exact ⟨.reload before distinct (performs_history ..) after.distinct, after⟩

/-! ## Log policies -/

omit [Transport L σ] in
theorem policies_sleepUntil (wake : Nanos) : (w.sleepUntil wake).policies = w.policies := by
  unfold World.sleepUntil
  split <;> rfl

omit [Transport L σ] in
theorem policies_pauseUntil (wake : Nanos) : (w.pauseUntil link wake).2.policies = w.policies := by
  simp only [World.pauseUntil]
  split
  · rfl
  · split
    · rfl
    · split
      · rfl
      · exact policies_sleepUntil wake

omit [Transport L σ] in
theorem policies_exchange {β : Type} (f : L → σ → Nanos → Exchanged L σ β) :
    (w.exchange link f).2.policies = w.policies := by
  unfold World.exchange
  split
  · rfl
  · dsimp only
    split <;> rfl

theorem policies_perform {estate : Estate} (same : estate.policies = w.policies) (s : Step) :
    (estate.after ⟨s, (World.perform s w).1⟩).policies = (World.perform s w).2.policies := by
  cases s with
  | setPolicy id policy => exact congrArg (Table.insert · id policy) same
  | dropPolicy id => exact congrArg (Table.erase · id) same
  | connect _ | read _ _ | write _ _ _ => exact same.trans (policies_exchange _).symm
  | sleep wake => exact same.trans (policies_sleepUntil wake).symm
  | pause _ wake => exact same.trans (policies_pauseUntil wake).symm
  | _ => exact same

/-- The log policies that an activity leaves are those that the world holds then. -/
theorem policies_run {estate : Estate} (same : estate.policies = w.policies) (a : Activity α) :
    (estate.afterAll (history a w)).policies = (w.run a).2.policies := by
  induction a generalizing w estate with
  | done a => exact same
  | step s next ih => exact ih _ (policies_perform same s)

/-- After reloads in a world, the channels with a log policy are those of which something
remains. -/
theorem policies_of_reloads (none : w.policies = {}) {lists : List (List Channel)}
    (distinct : ∀ channels ∈ lists, (channels.map Channel.id).Nodup) (id : UInt16) :
    ((w.run (Roster.reloads lists {})).2.policies.get? id).isSome = true ↔
      Remains.of lists id ≠ .nothing := by
  have empty : Accords {} (fun _ => .nothing) (.of []) := .empty
  have accords := (performs_history (Roster.reloads lists {}) w).post
    (Roster.reloads_accords empty distinct) fun _ _ => trivial
  have start : ({} : Estate).policies = w.policies := none.symm
  rw [← policies_run start]
  exact accords.policies id

end World

end Fieldbus
