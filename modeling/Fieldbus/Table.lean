/-!
# Finite tables

A table maps finitely many keys to values.  Its entries are kept in the order in
which their keys first came, so listings are reproducible.

`get?` is the view, and each operation has one equation through it: an insertion
is seen at its key, an erasure empties its key, and a filter on keys empties the
keys it refuses.
-/

namespace Fieldbus

/-- A finite map from keys to values. -/
structure Table (κ : Type) (α : Type) where
  entries : List (κ × α) := []
deriving Repr, DecidableEq

namespace Table

variable {κ : Type} {α : Type} [DecidableEq κ]

def get? (t : Table κ α) (key : κ) : Option α :=
  (t.entries.find? fun entry => entry.1 = key).map Prod.snd

def contains (t : Table κ α) (key : κ) : Bool := (t.get? key).isSome

/-- The entries with one key set. -/
def insertIn (key : κ) (value : α) : List (κ × α) → List (κ × α)
  | [] => [(key, value)]
  | entry :: rest =>
    if entry.1 = key then (key, value) :: rest else entry :: insertIn key value rest

def insert (t : Table κ α) (key : κ) (value : α) : Table κ α := ⟨insertIn key value t.entries⟩

def filterKeys (t : Table κ α) (keep : κ → Bool) : Table κ α :=
  ⟨t.entries.filter fun entry => keep entry.1⟩

def erase (t : Table κ α) (key : κ) : Table κ α := t.filterKeys fun k => decide (k ≠ key)

/-- The table with the value of a key changed, if it has one. -/
def modify (t : Table κ α) (key : κ) (f : α → α) : Table κ α :=
  match t.get? key with
  | some value => t.insert key (f value)
  | none => t

def keys (t : Table κ α) : List κ := t.entries.map Prod.fst

def size (t : Table κ α) : Nat := t.entries.length

/-! ## The view -/

@[simp] theorem get?_empty (key : κ) : ({} : Table κ α).get? key = none := rfl

theorem find?_insertIn (key other : κ) (value : α) :
    (entries : List (κ × α)) →
      ((insertIn key value entries).find? fun entry => entry.1 = other).map Prod.snd =
        if key = other then some value
        else (entries.find? fun entry => entry.1 = other).map Prod.snd
  | [] => by by_cases h : key = other <;> simp [insertIn, h]
  | entry :: rest => by
    have ih := find?_insertIn key other value rest
    by_cases hk : entry.1 = key
    · by_cases h : key = other <;> simp [insertIn, hk, h]
    · by_cases h : entry.1 = other
      · have hne : ¬ key = other := fun h' => hk (h.trans h'.symm)
        have hne' : ¬ other = key := fun h' => hne h'.symm
        simp [insertIn, h, hne, hne']
      · simpa [insertIn, hk, h] using ih

/-- An insertion is seen at its own key only. -/
theorem get?_insert (t : Table κ α) (key other : κ) (value : α) :
    (t.insert key value).get? other = if key = other then some value else t.get? other :=
  find?_insertIn key other value t.entries

/-- A filter empties the keys that it refuses and no others. -/
theorem get?_filterKeys (t : Table κ α) (keep : κ → Bool) (key : κ) :
    (t.filterKeys keep).get? key = if keep key then t.get? key else none := by
  have find : (entries : List (κ × α)) →
      ((entries.filter fun entry => keep entry.1).find? fun entry => entry.1 = key) =
        if keep key then entries.find? fun entry => entry.1 = key else none := by
    intro entries
    induction entries with
    | nil => simp
    | cons entry rest ih =>
      by_cases hk : entry.1 = key
      · subst hk
        by_cases hc : keep entry.1
        · simp [hc]
        · rw [List.filter_cons_of_neg (by simpa using hc), ih]
          simp [hc]
      · by_cases hc : keep entry.1
        · rw [List.filter_cons_of_pos (by simpa using hc), List.find?_cons_of_neg (by simpa using hk),
            List.find?_cons_of_neg (by simpa using hk), ih]
        · rw [List.filter_cons_of_neg (by simpa using hc), List.find?_cons_of_neg (by simpa using hk),
            ih]
  unfold get? filterKeys
  rw [find]
  split <;> rfl

/-- An erasure empties its own key only. -/
theorem get?_erase (t : Table κ α) (key other : κ) :
    (t.erase key).get? other = if other = key then none else t.get? other := by
  unfold erase
  rw [get?_filterKeys]
  by_cases h : other = key <;> simp [h]

/-! ## Keys -/

/-- A key that the view shows is there. -/
theorem mem_keys_of_get? {t : Table κ α} {key : κ} (h : (t.get? key).isSome = true) :
    key ∈ t.keys := by
  rw [get?, Option.isSome_map, List.find?_isSome] at h
  obtain ⟨entry, member, same⟩ := h
  exact List.mem_map.mpr ⟨entry, member, of_decide_eq_true same⟩

theorem mem_keys_insertIn {key other : κ} {value : α} {entries : List (κ × α)}
    (h : other ∈ (insertIn key value entries).map Prod.fst) :
    other = key ∨ other ∈ entries.map Prod.fst := by
  induction entries with
  | nil => exact .inl (by simpa [insertIn] using h)
  | cons entry rest ih =>
    unfold insertIn at h
    split at h
    · simp only [List.map_cons, List.mem_cons] at h ⊢
      exact h.imp_right .inr
    · simp only [List.map_cons, List.mem_cons] at h ⊢
      rcases h with h | h
      · exact .inr (.inl h)
      · exact (ih h).imp_right .inr

theorem nodup_keys_insert {t : Table κ α} (h : t.keys.Nodup) (key : κ) (value : α) :
    (t.insert key value).keys.Nodup := by
  obtain ⟨entries⟩ := t
  change ((insertIn key value entries).map Prod.fst).Nodup
  change (entries.map Prod.fst).Nodup at h
  induction entries with
  | nil => simp [insertIn]
  | cons entry rest ih =>
    simp only [List.map_cons, List.nodup_cons] at h
    unfold insertIn
    split
    next same =>
      rw [List.map_cons, List.nodup_cons, ← same]
      exact h
    next other =>
      rw [List.map_cons, List.nodup_cons]
      refine ⟨fun member => ?_, ih h.2⟩
      rcases mem_keys_insertIn member with same | member
      · exact other same
      · exact h.1 member

theorem nodup_keys_erase {t : Table κ α} (h : t.keys.Nodup) (key : κ) :
    (t.erase key).keys.Nodup :=
  h.sublist (List.filter_sublist.map Prod.fst)

/-- Where keys are distinct, a key finds the only element that has it. -/
theorem find?_key_eq_some_iff {β : Type} (key : β → κ) {elements : List β}
    (distinct : (elements.map key).Nodup) {k : κ} {x : β} :
    (elements.find? fun y => key y = k) = some x ↔ x ∈ elements ∧ key x = k := by
  constructor
  · intro found
    exact ⟨List.mem_of_find?_eq_some found, by simpa using List.find?_some found⟩
  · rintro ⟨member, rfl⟩
    induction elements with
    | nil => cases member
    | cons y rest ih =>
      obtain ⟨absent, distinct⟩ := List.nodup_cons.mp distinct
      rcases List.mem_cons.mp member with rfl | member
      · simp
      · have foreign : key y ≠ key x := fun same =>
          absent (List.mem_map.mpr ⟨x, member, same.symm⟩)
        rw [List.find?_cons_of_neg (by simpa using foreign)]
        exact ih distinct member

/-- With distinct keys, the entries are what the view shows. -/
theorem mem_entries_iff {t : Table κ α} (h : t.keys.Nodup) {key : κ} {value : α} :
    (key, value) ∈ t.entries ↔ t.get? key = some value := by
  rw [get?, Option.map_eq_some_iff]
  constructor
  · intro member
    exact ⟨_, (find?_key_eq_some_iff Prod.fst h).mpr ⟨member, rfl⟩, rfl⟩
  · rintro ⟨entry, found, rfl⟩
    obtain ⟨member, rfl⟩ := (find?_key_eq_some_iff Prod.fst h).mp found
    exact member

/-! ## Size -/

theorem length_insertIn (key : κ) (value : α) (entries : List (κ × α)) :
    (insertIn key value entries).length =
      entries.length + if (entries.find? fun entry => entry.1 = key).isSome then 0 else 1 := by
  induction entries with
  | nil => rfl
  | cons entry rest ih =>
    unfold insertIn
    by_cases same : entry.1 = key
    · simp [same]
    · rw [if_neg same, List.length_cons, List.length_cons, ih,
        List.find?_cons_of_neg (by simpa using same)]
      omega

/-- An insertion adds an entry if its key is new. -/
theorem size_insert (t : Table κ α) (key : κ) (value : α) :
    (t.insert key value).size = t.size + if (t.get? key).isSome then 0 else 1 := by
  rw [get?, Option.isSome_map]
  exact length_insertIn key value t.entries

end Table

end Fieldbus
